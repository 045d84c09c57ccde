import Mathlib.Logic.Function.Basic
import Mathlib.Data.List.Basic

/-!
# The trie

The map from strings to pointers that the server and the client keep. A key is walked nibble by nibble:
the high nibble of its first byte selects a child of the root, and then each byte selects a slot by its
low nibble and, while the string goes on, a child by the high nibble of the next byte.

A key is a pointer into memory. What is modelled is the bytes from there on, as far as they are known,
so a search that reads past them, or that forms a negative index from a `char` above 0x7f, has no result.
`find` is the finite map that a trie stands for, on complete keys.
-/

namespace NetworkSystems.FileShare

abbrev Bytes := List UInt8

mutual

inductive Trie (α : Type)
  | null
  | node (children : Fin 16 → TrieLev2 α) (values : Fin 16 → Option α)

inductive TrieLev2 (α : Type)
  | null
  | node (children : Fin 16 → Trie α)

end

/-- `trie_t`, the `struct trie_lev2` at the root. -/
abbrev TrieT (α : Type) := Fin 16 → Trie α

/-- `ch & 0x0F` -/
def lowNibble (ch : UInt8) : Fin 16 := Fin.ofNat 16 ch.toNat

/-- `(ch & 0xF0) >> 4`, and `ch >> 4` for a `char` that is not negative. -/
def highNibble (ch : UInt8) : Fin 16 := Fin.ofNat 16 (ch.toNat / 16)

/-- The byte with the given nibbles. -/
def ofNibbles (high low : Fin 16) : UInt8 := UInt8.ofNat (16 * high.val + low.val)

theorem ofNibbles_nibbles (ch : UInt8) : ofNibbles (highNibble ch) (lowNibble ch) = ch := by
  have hlt := ch.toNat_lt
  apply UInt8.toNat_inj.1
  have hhigh : (highNibble ch).val = ch.toNat / 16 := Nat.mod_eq_of_lt (by omega)
  have hlow : (lowNibble ch).val = ch.toNat % 16 := rfl
  rw [ofNibbles, hhigh, hlow, UInt8.toNat_ofNat_of_lt' (by simp only [UInt8.size]; omega)]
  omega

theorem highNibble_ofNibbles (high low : Fin 16) : highNibble (ofNibbles high low) = high := by
  apply Fin.ext
  rw [highNibble, Fin.val_ofNat, ofNibbles, UInt8.toNat_ofNat_of_lt' (by simp only [UInt8.size]; omega)]
  omega

theorem lowNibble_ofNibbles (high low : Fin 16) : lowNibble (ofNibbles high low) = low := by
  apply Fin.ext
  rw [lowNibble, Fin.val_ofNat, ofNibbles, UInt8.toNat_ofNat_of_lt' (by simp only [UInt8.size]; omega)]
  omega

theorem eq_of_nibbles {ch ch' : UInt8} (hhigh : highNibble ch = highNibble ch')
    (hlow : lowNibble ch = lowNibble ch') : ch = ch' := by
  rw [← ofNibbles_nibbles ch, ← ofNibbles_nibbles ch', hhigh, hlow]

namespace Trie

variable {α : Type}

/-- The node behind a pointer, allocated with `calloc` when there is none. -/
def children : Trie α → Fin 16 → TrieLev2 α
  | .null => fun _ => .null
  | .node children _ => children

def values : Trie α → Fin 16 → Option α
  | .null => fun _ => none
  | .node _ values => values

end Trie

def TrieLev2.children {α : Type} : TrieLev2 α → Fin 16 → Trie α
  | .null => fun _ => .null
  | .node children => children

section Operations

variable {α : Type}

/-- `trie_loose_search`. The result is `NULL` or the value, when all reads are in range. -/
def trieLooseSearch : Trie α → Bytes → Option (Option α)
  | .null, _ => some none
  | .node _ _, [] => none
  | .node _ _, [_] => none
  | .node children values, ch :: next :: rest =>
      if next = 0 then some (values (lowNibble ch))
      else
        match children (lowNibble ch) with
        | .null => some none
        | .node nexts =>
            if next < 0x80 then trieLooseSearch (nexts (highNibble next)) (next :: rest) else none

def trieGet (ths : TrieT α) : Bytes → Option (Option α)
  | [] => none
  | ch :: rest => trieLooseSearch (ths (highNibble ch)) (ch :: rest)

/-- `trie_loose_insert`, on a node that its caller has allocated. -/
def trieLooseInsert : Trie α → Bytes → Option α → Option (Trie α)
  | _, [], _ => none
  | _, [_], _ => none
  | tree, ch :: next :: rest, val =>
      if next = 0 then
        some (.node tree.children (Function.update tree.values (lowNibble ch) val))
      else if next < 0x80 then
        let nexts := (tree.children (lowNibble ch)).children
        (trieLooseInsert (nexts (highNibble next)) (next :: rest) val).map fun nextnext =>
          .node
            (Function.update tree.children (lowNibble ch)
              (.node (Function.update nexts (highNibble next) nextnext)))
            tree.values
      else none

def triePut (ths : TrieT α) (key : Bytes) (val : Option α) : Option (TrieT α) :=
  match key with
  | [] => none
  | ch :: rest =>
      (trieLooseInsert (ths (highNibble ch)) (ch :: rest) val).map fun next =>
        Function.update ths (highNibble ch) next

def TrieT.zeroed : TrieT α := fun _ => .null

end Operations

/-! ### The finite map -/

section Find

variable {α : Type}

/-- The value at the slot that a complete key leads to. -/
def looseFind : Trie α → Bytes → Option α
  | _, [] => none
  | tree, [ch] => tree.values (lowNibble ch)
  | tree, ch :: next :: rest =>
      looseFind ((tree.children (lowNibble ch)).children (highNibble next)) (next :: rest)

def TrieT.find (t : TrieT α) : Bytes → Option α
  | [] => none
  | ch :: rest => looseFind (t (highNibble ch)) (ch :: rest)

/-- The key that a pointer denotes to the trie. The first byte is never taken for the end, so for the
empty string it goes on behind the terminator. -/
def keyOf : Bytes → Bytes
  | [] => []
  | ch :: rest => ch :: rest.takeWhile (· ≠ 0)

@[simp] theorem looseFind_null (key : Bytes) : looseFind (.null : Trie α) key = none := by
  match key with
  | [] => rfl
  | [_] => rfl
  | _ :: next :: rest => exact looseFind_null (next :: rest)

theorem TrieT.find_zeroed (key : Bytes) : (TrieT.zeroed : TrieT α).find key = none := by
  cases key with
  | nil => rfl
  | cons ch rest => exact looseFind_null _

theorem keyOf_terminated (ch : UInt8) (rest : Bytes) : keyOf (ch :: 0 :: rest) = [ch] := by
  simp [keyOf]

theorem keyOf_cons {ch next : UInt8} {rest : Bytes} (h : next ≠ 0) :
    keyOf (ch :: next :: rest) = ch :: keyOf (next :: rest) := by
  simp [keyOf, h]

theorem looseFind_of_search {tree : Trie α} {mem : Bytes} {v : Option α}
    (h : trieLooseSearch tree mem = some v) : looseFind tree (keyOf mem) = v := by
  induction mem generalizing tree with
  | nil =>
      cases tree with
      | null => exact Option.some.inj h
      | node => cases h
  | cons ch rest ih =>
      cases tree with
      | null =>
          rw [looseFind_null]
          exact Option.some.inj h
      | node children values =>
          cases rest with
          | nil => cases h
          | cons next rest =>
              rw [trieLooseSearch] at h
              by_cases hend : next = 0
              · rw [if_pos hend] at h
                rw [hend, keyOf_terminated]
                exact Option.some.inj h
              · rw [if_neg hend] at h
                rw [keyOf_cons hend]
                change looseFind ((children (lowNibble ch)).children (highNibble next))
                  (keyOf (next :: rest)) = v
                cases hnext : children (lowNibble ch) with
                | null =>
                    simp only [hnext] at h
                    rw [TrieLev2.children, looseFind_null]
                    exact Option.some.inj h
                | node nexts =>
                    simp only [hnext] at h
                    by_cases hsign : next < 0x80
                    · rw [if_pos hsign] at h
                      exact ih h
                    · rw [if_neg hsign] at h
                      cases h

theorem find_of_get {t : TrieT α} {mem : Bytes} {v : Option α} (h : trieGet t mem = some v) :
    t.find (keyOf mem) = v := by
  cases mem with
  | nil => cases h
  | cons ch rest => exact looseFind_of_search h

/-- A key that the trie can walk: its bytes after the first are no terminators and not negative. -/
def Key (key : Bytes) : Prop := key ≠ [] ∧ ∀ ch ∈ key.tail, ch ≠ 0 ∧ ch < 0x80

instance (key : Bytes) : Decidable (Key key) := inferInstanceAs (Decidable (_ ∧ _))

theorem Key.tail {ch next : UInt8} {rest : Bytes} (h : Key (ch :: next :: rest)) :
    (next ≠ 0 ∧ next < 0x80) ∧ Key (next :: rest) :=
  ⟨h.2 next (by simp), by simp, fun c hc => h.2 c (List.mem_cons_of_mem _ hc)⟩

theorem keyOf_of_notMem {key : Bytes} (hne : key ≠ []) (hnul : 0 ∉ key.tail) (mem : Bytes) :
    keyOf (key ++ 0 :: mem) = key := by
  cases key with
  | nil => exact absurd rfl hne
  | cons ch rest =>
      rw [List.cons_append, keyOf, List.takeWhile_append_of_pos, List.takeWhile_cons_of_neg (by simp),
        List.append_nil]
      exact fun c hc => by simpa using ne_of_mem_of_not_mem hc hnul

theorem keyOf_append {key : Bytes} (h : Key key) (mem : Bytes) : keyOf (key ++ 0 :: mem) = key :=
  keyOf_of_notMem h.1 (fun hnul => (h.2 0 hnul).1 rfl) mem

theorem looseSearch_of_key {tree : Trie α} {key : Bytes} (h : Key key) (mem : Bytes) :
    trieLooseSearch tree (key ++ 0 :: mem) = some (looseFind tree key) := by
  induction key generalizing tree with
  | nil => exact absurd rfl h.1
  | cons ch rest ih =>
      cases tree with
      | null => rw [looseFind_null, trieLooseSearch]
      | node children values =>
          cases rest with
          | nil => rfl
          | cons next rest =>
              obtain ⟨⟨hend, hsign⟩, hrest⟩ := h.tail
              rw [List.cons_append, List.cons_append, trieLooseSearch, if_neg hend]
              change _ = some (looseFind ((children (lowNibble ch)).children (highNibble next))
                  (next :: rest))
              cases hnext : children (lowNibble ch) with
              | null => simp only [TrieLev2.children, looseFind_null]
              | node nexts =>
                  simp only [if_pos hsign, TrieLev2.children]
                  exact ih hrest

theorem get_of_key (t : TrieT α) {key : Bytes} (h : Key key) (mem : Bytes) :
    trieGet t (key ++ 0 :: mem) = some (t.find key) := by
  cases key with
  | nil => exact absurd rfl h.1
  | cons ch rest => exact looseSearch_of_key h mem

theorem looseInsert_of_key (tree : Trie α) {key : Bytes} (h : Key key) (mem : Bytes)
    (val : Option α) :
    ∃ tree', trieLooseInsert tree (key ++ 0 :: mem) val = some tree' := by
  induction key generalizing tree with
  | nil => exact absurd rfl h.1
  | cons ch rest ih =>
      cases rest with
      | nil => exact ⟨_, rfl⟩
      | cons next rest =>
          obtain ⟨⟨hend, hsign⟩, hrest⟩ := h.tail
          obtain ⟨tree', htree⟩ := ih ((tree.children (lowNibble ch)).children (highNibble next)) hrest
          rw [List.cons_append] at htree
          rw [List.cons_append, List.cons_append, trieLooseInsert, if_neg hend, if_pos hsign]
          simp only [htree, Option.map_some]
          exact ⟨_, rfl⟩

theorem put_of_key (t : TrieT α) {key : Bytes} (h : Key key) (mem : Bytes) (val : Option α) :
    ∃ t', triePut t (key ++ 0 :: mem) val = some t' := by
  cases key with
  | nil => exact absurd rfl h.1
  | cons ch rest =>
      obtain ⟨tree', htree⟩ := looseInsert_of_key (t (highNibble ch)) h mem val
      rw [List.cons_append] at htree
      exact ⟨_, by rw [List.cons_append, triePut, htree]; rfl⟩

theorem key_of_looseInsert {tree tree' : Trie α} {mem : Bytes} {val : Option α}
    (h : trieLooseInsert tree mem val = some tree') : Key (keyOf mem) := by
  induction mem generalizing tree tree' with
  | nil => cases h
  | cons ch rest ih =>
      cases rest with
      | nil => cases h
      | cons next rest =>
          rw [trieLooseInsert] at h
          by_cases hend : next = 0
          · rw [hend, keyOf_terminated]
            exact ⟨by simp, by simp⟩
          · rw [if_neg hend] at h
            by_cases hsign : next < 0x80
            · rw [if_pos hsign] at h
              obtain ⟨tree'', htree, -⟩ := Option.map_eq_some_iff.1 h
              rw [keyOf_cons hend]
              refine ⟨by simp, fun c hc => ?_⟩
              rcases List.mem_cons.1 hc with rfl | hc
              · exact ⟨hend, hsign⟩
              · exact (ih htree).2 c hc
            · rw [if_neg hsign] at h
              cases h

/-- Two keys that share the nibble that has been consumed already are told apart by the rest of their
walk. -/
theorem looseFind_of_insert {tree tree' : Trie α} {mem : Bytes} {val : Option α}
    (h : trieLooseInsert tree mem val = some tree') {key : Bytes}
    (hhigh : key.head?.map highNibble = mem.head?.map highNibble) :
    looseFind tree' key = if key = keyOf mem then val else looseFind tree key := by
  induction mem generalizing tree tree' key with
  | nil => cases h
  | cons ch rest ih =>
      cases key with
      | nil => cases hhigh
      | cons ch' rest' =>
          have hhigh : highNibble ch' = highNibble ch := by simpa using hhigh
          have hslot : lowNibble ch' = lowNibble ch ↔ ch' = ch :=
            ⟨fun hlow => eq_of_nibbles hhigh hlow, fun heq => by rw [heq]⟩
          cases rest with
          | nil => cases h
          | cons next rest =>
              rw [trieLooseInsert] at h
              by_cases hend : next = 0
              · rw [if_pos hend] at h
                obtain rfl := Option.some.inj h
                rw [hend, keyOf_terminated]
                cases rest' with
                | nil =>
                    rw [looseFind, looseFind, Trie.values, Function.update_apply]
                    simp only [List.cons.injEq, and_true, hslot]
                | cons next' rest' =>
                    rw [looseFind, looseFind, Trie.children, if_neg (by simp)]
              · rw [if_neg hend] at h
                by_cases hsign : next < 0x80
                · rw [if_pos hsign] at h
                  obtain ⟨tree'', htree, rfl⟩ := Option.map_eq_some_iff.1 h
                  rw [keyOf_cons hend]
                  cases rest' with
                  | nil =>
                      rw [looseFind, looseFind, Trie.values, if_neg]
                      simp [keyOf]
                  | cons next' rest' =>
                      rw [looseFind, looseFind, Trie.children, Function.update_apply]
                      by_cases hch : ch' = ch
                      · subst hch
                        rw [if_pos rfl, TrieLev2.children, Function.update_apply]
                        by_cases hnext : highNibble next' = highNibble next
                        · rw [if_pos hnext, ih htree (by simpa using hnext), hnext]
                          simp only [List.cons.injEq, true_and]
                        · rw [if_neg hnext, if_neg]
                          intro heq
                          have : next' = next := by
                            have := (List.cons.inj heq).2
                            exact (List.cons.inj this).1
                          exact hnext (by rw [this])
                      · rw [if_neg (mt hslot.1 hch), if_neg]
                        exact fun heq => hch (List.cons.inj heq).1
                · rw [if_neg hsign] at h
                  cases h

/-- **The trie is a finite map.** A put changes the value under its own key and no other. -/
theorem find_of_put {t t' : TrieT α} {mem : Bytes} {val : Option α}
    (h : triePut t mem val = some t') :
    Key (keyOf mem) ∧ ∀ key, t'.find key = if key = keyOf mem then val else t.find key := by
  cases mem with
  | nil => cases h
  | cons ch rest =>
      obtain ⟨tree, htree, rfl⟩ := Option.map_eq_some_iff.1 h
      refine ⟨key_of_looseInsert htree, fun key => ?_⟩
      cases key with
      | nil => rw [TrieT.find, TrieT.find, if_neg (by simp [keyOf])]
      | cons ch' rest' =>
          rw [TrieT.find, TrieT.find, Function.update_apply]
          by_cases hhigh : highNibble ch' = highNibble ch
          · rw [if_pos hhigh, looseFind_of_insert htree (by simpa using hhigh), hhigh]
          · rw [if_neg hhigh, if_neg]
            exact fun heq => hhigh (by rw [(List.cons.inj heq).1])

end Find

end NetworkSystems.FileShare
