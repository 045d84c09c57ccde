import NetworkSystems.FileShare.Trie

/-!
# The indices of a walk

A `char` is signed, and `trie.c` takes nibbles from it by three expressions. The low nibble and the high
nibble of the first byte are masked. The high nibble of every later byte is `ch >> 4`, which is negative
for a byte above 0x7f. What is listed here are the indices that a search and a put compute, up to the
first that is out of range.
-/

namespace NetworkSystems.FileShare

/-- A byte as a `char`, promoted to `int`. -/
def charOf (ch : UInt8) : Int32 := ch.toInt8.toInt32

/-- `ch & 0x0F` -/
def lowIndex (ch : UInt8) : Int32 := charOf ch &&& 0x0F

/-- `(ch & 0xF0) >> 4`, on the first byte. -/
def firstIndex (ch : UInt8) : Int32 := (charOf ch &&& 0xF0) >>> 4

/-- `ch >> 4`, on the bytes after it. -/
def nextIndex (ch : UInt8) : Int32 := charOf ch >>> 4

/-- The index is one of an array of 16. -/
def InRange (index : Int32) : Prop := 0 ≤ index ∧ index ≤ 15

instance (index : Int32) : Decidable (InRange index) := inferInstanceAs (Decidable (_ ∧ _))

def AllInRange (indices : List Int32) : Prop := ∀ i ∈ indices, InRange i

instance (indices : List Int32) : Decidable (AllInRange indices) :=
  inferInstanceAs (Decidable (∀ i ∈ indices, InRange i))

theorem InRange.toNat_lt {index : Int32} (h : InRange index) : index.toInt.toNat < 16 := by
  have hle := Int32.le_iff_toInt_le.1 h.2
  change index.toInt ≤ 15 at hle
  omega

/-- The element that an index selects. -/
def slotAt (index : Int32) : Option (Fin 16) :=
  if h : InRange index then some ⟨index.toInt.toNat, h.toNat_lt⟩ else none

/-- An index, and what follows when it is in range. -/
def access (index : Int32) (follow : Fin 16 → List Int32) : List Int32 :=
  index :: (slotAt index).elim [] follow

section Indices

variable {α : Type}

/-- The indices that `trie_loose_search` computes. -/
def searchIndices : Trie α → Bytes → List Int32
  | .null, _ => []
  | .node _ _, [] => []
  | .node _ _, [ch] => [lowIndex ch]
  | .node children _, ch :: next :: rest =>
      access (lowIndex ch) fun i =>
        if next = 0 then []
        else
          match children i with
          | .null => []
          | .node nexts => access (nextIndex next) fun j => searchIndices (nexts j) (next :: rest)

/-- The indices that `trie_get` computes. -/
def getIndices (ths : TrieT α) : Bytes → List Int32
  | [] => []
  | ch :: rest => access (firstIndex ch) fun i => searchIndices (ths i) (ch :: rest)

/-- The indices that `trie_loose_insert` computes. It allocates the nodes that are missing, so they do not
depend on the trie. -/
def insertIndices : Bytes → List Int32
  | [] => []
  | [ch] => [lowIndex ch]
  | ch :: next :: rest =>
      access (lowIndex ch) fun _ =>
        if next = 0 then [] else access (nextIndex next) fun _ => insertIndices (next :: rest)

/-- The indices that `trie_put` computes. -/
def putIndices : Bytes → List Int32
  | [] => []
  | ch :: rest => access (firstIndex ch) fun _ => insertIndices (ch :: rest)

end Indices

/-! ### The three expressions -/

theorem slotAt_table : ∀ n : Fin 256,
    slotAt (lowIndex (UInt8.ofFin n)) = some (lowNibble (UInt8.ofFin n)) ∧
      slotAt (firstIndex (UInt8.ofFin n)) = some (highNibble (UInt8.ofFin n)) ∧
      slotAt (nextIndex (UInt8.ofFin n)) =
        if UInt8.ofFin n < 0x80 then some (highNibble (UInt8.ofFin n)) else none := by
  decide +kernel

theorem slotAt_index (ch : UInt8) : slotAt (lowIndex ch) = some (lowNibble ch) ∧
    slotAt (firstIndex ch) = some (highNibble ch) ∧
    slotAt (nextIndex ch) = if ch < 0x80 then some (highNibble ch) else none :=
  slotAt_table ch.toFin

theorem slotAt_isSome (index : Int32) : (slotAt index).isSome ↔ InRange index := by
  rw [slotAt]
  split <;> simp [*]

@[simp] theorem allInRange_nil : AllInRange [] := nofun

theorem allInRange_append {indices indices' : List Int32} :
    AllInRange (indices ++ indices') ↔ AllInRange indices ∧ AllInRange indices' := List.forall_mem_append

theorem allInRange_access {index : Int32} {follow : Fin 16 → List Int32} :
    AllInRange (access index follow) ↔ ∃ j, slotAt index = some j ∧ AllInRange (follow j) := by
  rw [AllInRange, access, List.forall_mem_cons, ← slotAt_isSome, Option.isSome_iff_exists]
  constructor
  · rintro ⟨⟨j, hj⟩, hall⟩
    rw [hj] at hall
    exact ⟨j, hj, hall⟩
  · rintro ⟨j, hj, hall⟩
    rw [hj]
    exact ⟨⟨j, rfl⟩, hall⟩

theorem allInRange_lowIndex {ch : UInt8} {follow : Fin 16 → List Int32} :
    AllInRange (access (lowIndex ch) follow) ↔ AllInRange (follow (lowNibble ch)) := by
  rw [allInRange_access, (slotAt_index ch).1]
  simp

theorem allInRange_firstIndex {ch : UInt8} {follow : Fin 16 → List Int32} :
    AllInRange (access (firstIndex ch) follow) ↔ AllInRange (follow (highNibble ch)) := by
  rw [allInRange_access, (slotAt_index ch).2.1]
  simp

theorem allInRange_nextIndex {ch : UInt8} {follow : Fin 16 → List Int32} :
    AllInRange (access (nextIndex ch) follow) ↔ ch < 0x80 ∧ AllInRange (follow (highNibble ch)) := by
  rw [allInRange_access, (slotAt_index ch).2.2]
  by_cases hsign : ch < 0x80 <;> simp [hsign]

/-! ### The indices and the result -/

section Result

variable {α : Type} {key : Bytes}

theorem looseSearch_isSome_iff (tree : Trie α) (hne : key ≠ []) (hnul : 0 ∉ key.tail) (mem : Bytes) :
    (trieLooseSearch tree (key ++ 0 :: mem)).isSome ↔
      AllInRange (searchIndices tree (key ++ 0 :: mem)) := by
  induction key generalizing tree with
  | nil => exact absurd rfl hne
  | cons ch rest ih =>
      cases tree with
      | null => simp [trieLooseSearch, searchIndices]
      | node children values =>
          cases rest with
          | nil =>
              change _ ↔ AllInRange (access (lowIndex ch) _)
              rw [allInRange_lowIndex]
              simp [trieLooseSearch]
          | cons next rest =>
              have hend : next ≠ 0 := fun h0 => hnul (by simp [h0])
              have hrest := fun tree => ih tree (by simp) fun h0 => hnul (List.mem_cons_of_mem _ h0)
              rw [List.cons_append, List.cons_append, trieLooseSearch, searchIndices, allInRange_lowIndex,
                if_neg hend, if_neg hend]
              cases children (lowNibble ch) with
              | null => simp
              | node nexts =>
                  simp only [allInRange_nextIndex]
                  by_cases hsign : next < 0x80
                  · rw [if_pos hsign, and_iff_right hsign]
                    exact hrest (nexts (highNibble next))
                  · rw [if_neg hsign]
                    simp [hsign]

theorem looseInsert_isSome_iff (tree : Trie α) (hne : key ≠ []) (hnul : 0 ∉ key.tail) (mem : Bytes)
    (val : Option α) : (trieLooseInsert tree (key ++ 0 :: mem) val).isSome ↔
      AllInRange (insertIndices (key ++ 0 :: mem)) := by
  induction key generalizing tree with
  | nil => exact absurd rfl hne
  | cons ch rest ih =>
      cases rest with
      | nil =>
          change _ ↔ AllInRange (access (lowIndex ch) _)
          rw [allInRange_lowIndex]
          simp [trieLooseInsert]
      | cons next rest =>
          have hend : next ≠ 0 := fun h0 => hnul (by simp [h0])
          have hrest := fun tree => ih tree (by simp) fun h0 => hnul (List.mem_cons_of_mem _ h0)
          rw [List.cons_append, List.cons_append, trieLooseInsert, insertIndices, allInRange_lowIndex,
            if_neg hend, if_neg hend, allInRange_nextIndex]
          by_cases hsign : next < 0x80
          · rw [if_pos hsign, and_iff_right hsign, Option.isSome_map]
            exact hrest _
          · rw [if_neg hsign]
            simp [hsign]

theorem get_isSome_iff (t : TrieT α) (hne : key ≠ []) (hnul : 0 ∉ key.tail) (mem : Bytes) :
    (trieGet t (key ++ 0 :: mem)).isSome ↔ AllInRange (getIndices t (key ++ 0 :: mem)) := by
  cases key with
  | nil => exact absurd rfl hne
  | cons ch rest =>
      rw [List.cons_append, trieGet, getIndices, allInRange_firstIndex]
      exact looseSearch_isSome_iff (t (highNibble ch)) hne hnul mem

theorem put_isSome_iff (t : TrieT α) (hne : key ≠ []) (hnul : 0 ∉ key.tail) (mem : Bytes)
    (val : Option α) : (triePut t (key ++ 0 :: mem) val).isSome ↔
      AllInRange (putIndices (key ++ 0 :: mem)) := by
  cases key with
  | nil => exact absurd rfl hne
  | cons ch rest =>
      rw [List.cons_append, triePut, putIndices, allInRange_firstIndex, Option.isSome_map]
      exact looseInsert_isSome_iff (t (highNibble ch)) hne hnul mem val

end Result

/-- **When all indices are in range**: exactly if no byte after the first is above 0x7f. -/
theorem inRange_iff_ascii {α : Type} (t : TrieT α) (key mem : Bytes) (hne : key ≠ []) (hnul : 0 ∉ key) :
    AllInRange (getIndices t (key ++ 0 :: mem) ++ putIndices (key ++ 0 :: mem)) ↔
      ∀ ch ∈ key.tail, ch < 0x80 := by
  have htail : 0 ∉ key.tail := fun h0 => hnul (List.mem_of_mem_tail h0)
  rw [allInRange_append, ← get_isSome_iff t hne htail, ← put_isSome_iff t hne htail mem none]
  constructor
  · rintro ⟨-, hput⟩ ch hch
    obtain ⟨t', hput⟩ := Option.isSome_iff_exists.1 hput
    have hkey := (find_of_put hput).1
    rw [keyOf_of_notMem hne htail] at hkey
    exact (hkey.2 ch hch).2
  · intro hsign
    have hkey : Key key := ⟨hne, fun ch hch => ⟨ne_of_mem_of_not_mem hch htail, hsign ch hch⟩⟩
    obtain ⟨t', hput⟩ := put_of_key t hkey mem none
    exact ⟨by rw [get_of_key t hkey]; rfl, by rw [hput]; rfl⟩

/-- A name of two letters. -/
theorem inRange_iff_ascii_word :
    AllInRange (getIndices (.zeroed : TrieT Nat) [97, 98, 0] ++ putIndices [97, 98, 0]) :=
  (inRange_iff_ascii .zeroed [97, 98] [] (by decide +kernel) (by decide +kernel)).2 (by decide +kernel)

/-- The second byte of a letter beyond ASCII selects the child -6. -/
theorem not_inRange : ¬ ∀ (t : TrieT Nat) (key mem : Bytes), key ≠ [] → 0 ∉ key →
    AllInRange (getIndices t (key ++ 0 :: mem) ++ putIndices (key ++ 0 :: mem)) := by
  intro hclaim
  exact absurd
    (hclaim .zeroed [0xC3, 0xA9] [] (by decide +kernel) (by decide +kernel) (-6) (by decide +kernel))
    (by decide +kernel)

end NetworkSystems.FileShare
