import NetworkSystems.FileShare.Trie
import Mathlib.Data.List.Nodup

/-!
# Iterating over the trie

`trie_iterate` calls back on the values of a trie while the callback may change it. A slot is named by
the key that leads to it. The slots are visited in the order of the nodes that exist at the call, and
each is read when it is its turn. No callback of the program allocates a node: the only one that writes
puts `NULL` under a key that is bound, and such a put changes no slot.
-/

namespace NetworkSystems.FileShare

variable {α : Type}

mutual

/-- The slots below a node whose keys start with `pre` and the nibble `high`: first its own values, then
those of its children. -/
def Trie.slots : Trie α → Bytes → Fin 16 → List Bytes
  | .null, _, _ => []
  | .node children _, pre, high =>
      (List.finRange 16).map (fun i => pre ++ [ofNibbles high i]) ++
        (List.finRange 16).flatMap fun i => (children i).slots (pre ++ [ofNibbles high i])

def TrieLev2.slots : TrieLev2 α → Bytes → List Bytes
  | .null, _ => []
  | .node children, pre => (List.finRange 16).flatMap fun j => (children j).slots pre j

end

/-- The slots that `trie_iterate` visits, in order. -/
def TrieT.slots (ths : TrieT α) : List Bytes :=
  (List.finRange 16).flatMap fun i => (ths i).slots [] i

/-- The values of a trie in the order in which `trie_iterate` visits them. -/
def TrieT.elements (t : TrieT α) : List α := t.slots.filterMap t.find

section Iterate

variable {σ : Type} (trie : σ → TrieT α) (func : α → σ → Option σ)

/-- The visit of one slot: the callback is called when the value is not `NULL`. -/
def visitSlot (s : σ) (slot : Bytes) : Option σ :=
  match (trie s).find slot with
  | some val => func val s
  | none => some s

/-- `trie_iterate`, for a callback that works on a state which the trie is part of. -/
def trieIterate (s : σ) : Option σ := (trie s).slots.foldlM (visitSlot trie func) s

variable {trie func}

/-- A property of the slots visited so far and the state that every visit keeps holds at the end, with
all slots visited. -/
theorem foldlM_visitSlot {I : List Bytes → σ → Prop}
    (hstep : ∀ visited slot s, I visited s → ∃ s', visitSlot trie func s slot = some s' ∧
      I (visited ++ [slot]) s')
    (slots visited : List Bytes) (s : σ) (hs : I visited s) :
    ∃ s', slots.foldlM (visitSlot trie func) s = some s' ∧ I (visited ++ slots) s' := by
  induction slots generalizing visited s with
  | nil => exact ⟨s, rfl, by rwa [List.append_nil]⟩
  | cons slot slots ih =>
      obtain ⟨mid, hmid, hI⟩ := hstep visited slot s hs
      obtain ⟨s', hs', hI'⟩ := ih (visited ++ [slot]) mid hI
      refine ⟨s', ?_, by rwa [List.append_assoc] at hI'⟩
      rw [List.foldlM_cons, hmid]
      exact hs'

theorem trieIterate_rule (trie : σ → TrieT α) (func : α → σ → Option σ) (I : List Bytes → σ → Prop)
    (hstep : ∀ visited slot s, I visited s → ∃ s', visitSlot trie func s slot = some s' ∧
      I (visited ++ [slot]) s')
    (s : σ) (hs : I [] s) : ∃ s', trieIterate trie func s = some s' ∧ I (trie s).slots s' :=
  foldlM_visitSlot hstep (trie s).slots [] s hs

end Iterate

/-! ### Every bound key has a slot -/

theorem mem_slots_of_looseFind (pre : Bytes) {tree : Trie α} {key : Bytes} {v : α}
    (h : looseFind tree key = some v) :
    ∃ ch rest, key = ch :: rest ∧ pre ++ key ∈ tree.slots pre (highNibble ch) := by
  induction key generalizing pre tree with
  | nil => cases h
  | cons ch rest ih =>
      refine ⟨ch, rest, rfl, ?_⟩
      cases tree with
      | null => rw [looseFind_null] at h; cases h
      | node children values =>
          rw [Trie.slots, List.mem_append]
          cases rest with
          | nil =>
              exact Or.inl (List.mem_map.2 ⟨lowNibble ch, List.mem_finRange _, by rw [ofNibbles_nibbles]⟩)
          | cons next rest =>
              refine Or.inr (List.mem_flatMap.2 ⟨lowNibble ch, List.mem_finRange _, ?_⟩)
              rw [ofNibbles_nibbles]
              rw [looseFind] at h
              obtain ⟨_, _, heq, hmem⟩ := ih (pre ++ [ch]) h
              obtain ⟨rfl, rfl⟩ := List.cons.inj heq
              rw [List.append_assoc] at hmem
              change looseFind ((children (lowNibble ch)).children (highNibble next)) _ = _ at h
              cases hnext : children (lowNibble ch) with
              | null =>
                  rw [hnext, TrieLev2.children, looseFind_null] at h
                  cases h
              | node nexts =>
                  rw [TrieLev2.slots]
                  refine List.mem_flatMap.2 ⟨highNibble next, List.mem_finRange _, ?_⟩
                  rw [Trie.children, hnext] at hmem
                  exact hmem

theorem mem_slots_of_find {t : TrieT α} {key : Bytes} {v : α} (h : t.find key = some v) :
    key ∈ t.slots := by
  cases key with
  | nil => cases h
  | cons ch rest =>
      obtain ⟨_, _, heq, hmem⟩ := mem_slots_of_looseFind [] h
      obtain ⟨rfl, rfl⟩ := List.cons.inj heq
      exact List.mem_flatMap.2 ⟨highNibble ch, List.mem_finRange _, hmem⟩

/-! ### Puts that leave the slots as they are -/

/-- An insertion under a bound key allocates no node. -/
theorem slots_of_looseInsert {tree tree' : Trie α} {key mem : Bytes} {v : α} {val : Option α}
    (hbound : looseFind tree key = some v) (hkey : ∀ ch ∈ key.tail, ch ≠ 0)
    (hinsert : trieLooseInsert tree (key ++ 0 :: mem) val = some tree') (pre : Bytes) (high : Fin 16) :
    tree'.slots pre high = tree.slots pre high := by
  induction key generalizing tree tree' pre high with
  | nil => cases hbound
  | cons ch rest ih =>
      cases tree with
      | null => rw [looseFind_null] at hbound; cases hbound
      | node children values =>
          cases rest with
          | nil =>
              rw [List.cons_append, List.nil_append, trieLooseInsert, if_pos rfl] at hinsert
              obtain rfl := Option.some.inj hinsert
              rw [Trie.slots, Trie.slots, Trie.children]
          | cons next rest =>
              rw [looseFind] at hbound
              change looseFind ((children (lowNibble ch)).children (highNibble next)) _ = _ at hbound
              rw [List.cons_append, List.cons_append, trieLooseInsert, if_neg (hkey next (by simp))] at hinsert
              split at hinsert
              case isFalse => cases hinsert
              case isTrue =>
                obtain ⟨nextnext, hnext, rfl⟩ := Option.map_eq_some_iff.1 hinsert
                have hsame := fun pre => ih hbound (fun c hc => hkey c (List.mem_cons_of_mem _ hc)) hnext pre
                  (highNibble next)
                cases hnexts : children (lowNibble ch) with
                | null =>
                    rw [hnexts, TrieLev2.children, looseFind_null] at hbound
                    cases hbound
                | node nexts =>
                    rw [Trie.slots, Trie.slots, Trie.children]
                    congr 1
                    refine congrArg (List.flatMap · _) (funext fun i => ?_)
                    by_cases hi : i = lowNibble ch
                    · subst hi
                      rw [Function.update_self, hnexts, TrieLev2.slots, TrieLev2.slots]
                      refine congrArg (List.flatMap · _) (funext fun j => ?_)
                      by_cases hj : j = highNibble next
                      · subst hj
                        rw [hnexts] at hsame
                        rw [Function.update_self]
                        exact hsame _
                      · rw [Function.update_of_ne hj, TrieLev2.children]
                    · rw [Function.update_of_ne hi]

/-- What `trie_put` does to a bound key changes no slot, so a callback that puts under bound keys leaves
the rest of the iteration as it is. -/
theorem slots_of_put {t t' : TrieT α} {key mem : Bytes} {v : α} {val : Option α}
    (hbound : t.find key = some v) (hkey : Key key) (hput : triePut t (key ++ 0 :: mem) val = some t') :
    t'.slots = t.slots := by
  cases key with
  | nil => cases hbound
  | cons ch rest =>
      obtain ⟨next, hinsert, rfl⟩ := Option.map_eq_some_iff.1 hput
      refine congrArg (List.flatMap · _) (funext fun i => ?_)
      by_cases hi : i = highNibble ch
      · rw [hi, Function.update_self]
        exact slots_of_looseInsert hbound (fun c hc => (hkey.2 c hc).1) hinsert [] _
      · rw [Function.update_of_ne hi]

/-! ### The order of the slots -/

mutual

theorem Trie.mem_slots : ∀ {tree : Trie α} {pre : Bytes} {high : Fin 16} {key : Bytes},
    key ∈ tree.slots pre high → ∃ low rest, key = pre ++ ofNibbles high low :: rest
  | .null, _, _, _, h => nomatch h
  | .node children _, pre, high, key, h => by
      rw [Trie.slots, List.mem_append] at h
      rcases h with h | h
      · obtain ⟨low, -, rfl⟩ := List.mem_map.1 h
        exact ⟨low, [], rfl⟩
      · obtain ⟨low, -, h⟩ := List.mem_flatMap.1 h
        obtain ⟨ch, rest, rfl⟩ := TrieLev2.mem_slots h
        exact ⟨low, ch :: rest, by rw [List.append_assoc]; rfl⟩

theorem TrieLev2.mem_slots : ∀ {tree : TrieLev2 α} {pre : Bytes} {key : Bytes},
    key ∈ tree.slots pre → ∃ ch rest, key = pre ++ ch :: rest
  | .null, _, _, h => nomatch h
  | .node children, pre, key, h => by
      rw [TrieLev2.slots] at h
      obtain ⟨high, -, h⟩ := List.mem_flatMap.1 h
      obtain ⟨low, rest, rfl⟩ := Trie.mem_slots h
      exact ⟨_, rest, rfl⟩

end

/-- The order in which keys are visited: by their high nibble, those that end before those that go on, by
their low nibble, and then by what follows. -/
def Before : Bytes → Bytes → Prop
  | [ch], [ch'] =>
      highNibble ch < highNibble ch' ∨ highNibble ch = highNibble ch' ∧ lowNibble ch < lowNibble ch'
  | [ch], ch' :: _ :: _ => highNibble ch ≤ highNibble ch'
  | ch :: _ :: _, [ch'] => highNibble ch < highNibble ch'
  | ch :: next :: rest, ch' :: next' :: rest' =>
      highNibble ch < highNibble ch' ∨ highNibble ch = highNibble ch' ∧
        (lowNibble ch < lowNibble ch' ∨ lowNibble ch = lowNibble ch' ∧
          Before (next :: rest) (next' :: rest'))
  | _, _ => False

theorem Before.asymm {key key' : Bytes} (h : Before key key') : ¬ Before key' key := by
  fun_induction Before key key' with
  | case1 ch ch' =>
      rw [Before]
      omega
  | case2 ch ch' next rest =>
      rw [Before]
      omega
  | case3 ch next rest ch' =>
      rw [Before]
      omega
  | case4 ch next rest ch' next' rest' ih =>
      rw [Before]
      rcases h with hlt | ⟨heq, hlt | ⟨heq', hbefore⟩⟩
      · omega
      · omega
      · rintro (hhigh | ⟨hhigh, hlow | ⟨hlow, hrest⟩⟩)
        · omega
        · omega
        · exact ih hbefore hrest
  | case5 => exact h.elim

theorem Before.ne {key key' : Bytes} (h : Before key key') : key ≠ key' := by
  rintro rfl
  exact h.asymm h

theorem before_of_high {ch ch' : UInt8} (h : highNibble ch < highNibble ch') :
    ∀ rest rest', Before (ch :: rest) (ch' :: rest')
  | [], [] => Or.inl h
  | [], _ :: _ => Fin.le_of_lt h
  | _ :: _, [] => h
  | _ :: _, _ :: _ => Or.inl h

theorem Before.append_left {key key' : Bytes} (h : Before key key') (pre : Bytes) :
    Before (pre ++ key) (pre ++ key') := by
  induction pre with
  | nil => exact h
  | cons ch pre ih =>
      rw [List.cons_append, List.cons_append]
      cases hkey : pre ++ key with
      | nil =>
          rw [hkey] at ih
          exact ih.elim
      | cons next rest =>
          cases hkey' : pre ++ key' with
          | nil =>
              rw [hkey, hkey'] at ih
              cases rest <;> exact ih.elim
          | cons next' rest' =>
              rw [hkey, hkey'] at ih
              exact Or.inr ⟨rfl, Or.inr ⟨rfl, ih⟩⟩

theorem before_of_slots {tree tree' : Trie α} {pre key key' : Bytes} {high high' : Fin 16}
    (h : high < high') (hkey : key ∈ tree.slots pre high) (hkey' : key' ∈ tree'.slots pre high') :
    Before key key' := by
  obtain ⟨low, rest, rfl⟩ := Trie.mem_slots hkey
  obtain ⟨low', rest', rfl⟩ := Trie.mem_slots hkey'
  refine Before.append_left (before_of_high ?_ rest rest') pre
  rwa [highNibble_ofNibbles, highNibble_ofNibbles]

mutual

theorem Trie.pairwise_slots : ∀ (tree : Trie α) (pre : Bytes) (high : Fin 16),
    (tree.slots pre high).Pairwise Before
  | .null, _, _ => List.Pairwise.nil
  | .node children _, pre, high => by
      rw [Trie.slots, List.pairwise_append, List.pairwise_map, List.pairwise_flatMap]
      refine ⟨(List.pairwise_lt_finRange 16).imp fun hlow => ?_,
        ⟨fun i _ => TrieLev2.pairwise_slots (children i) _,
          (List.pairwise_lt_finRange 16).imp fun hlow key hkey key' hkey' => ?_⟩,
        fun key hkey key' hkey' => ?_⟩
      · refine Before.append_left (show Before [_] [_] from Or.inr ?_) pre
        rw [highNibble_ofNibbles, highNibble_ofNibbles, lowNibble_ofNibbles, lowNibble_ofNibbles]
        exact ⟨rfl, hlow⟩
      · obtain ⟨ch, rest, rfl⟩ := TrieLev2.mem_slots hkey
        obtain ⟨ch', rest', rfl⟩ := TrieLev2.mem_slots hkey'
        rw [List.append_assoc, List.append_assoc]
        refine Before.append_left (show Before (_ :: _ :: _) (_ :: _ :: _) from Or.inr ?_) pre
        rw [highNibble_ofNibbles, highNibble_ofNibbles, lowNibble_ofNibbles, lowNibble_ofNibbles]
        exact ⟨rfl, Or.inl hlow⟩
      · obtain ⟨i, -, rfl⟩ := List.mem_map.1 hkey
        obtain ⟨j, -, hkey'⟩ := List.mem_flatMap.1 hkey'
        obtain ⟨ch, rest, rfl⟩ := TrieLev2.mem_slots hkey'
        rw [List.append_assoc]
        refine Before.append_left ?_ pre
        change highNibble (ofNibbles high i) ≤ highNibble (ofNibbles high j)
        simp only [highNibble_ofNibbles, Fin.le_refl]

theorem TrieLev2.pairwise_slots : ∀ (tree : TrieLev2 α) (pre : Bytes), (tree.slots pre).Pairwise Before
  | .null, _ => List.Pairwise.nil
  | .node children, pre => by
      rw [TrieLev2.slots, List.pairwise_flatMap]
      refine ⟨fun j _ => Trie.pairwise_slots (children j) pre j,
        (List.pairwise_lt_finRange 16).imp fun hhigh key hkey key' hkey' => ?_⟩
      exact before_of_slots hhigh hkey hkey'

end

theorem TrieT.pairwise_slots (t : TrieT α) : t.slots.Pairwise Before := by
  rw [TrieT.slots, List.pairwise_flatMap]
  exact ⟨fun i _ => (t i).pairwise_slots [] i,
    (List.pairwise_lt_finRange 16).imp fun hhigh _ hkey _ hkey' => before_of_slots hhigh hkey hkey'⟩

/-- No slot is visited twice. -/
theorem TrieT.nodup_slots (t : TrieT α) : t.slots.Nodup := t.pairwise_slots.imp Before.ne

end NetworkSystems.FileShare
