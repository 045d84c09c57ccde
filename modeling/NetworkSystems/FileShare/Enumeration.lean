import NetworkSystems.FileShare.TriePuts
import NetworkSystems.FileShare.Iterate

/-!
# Enumerating the map

`trie_iterate` with a callback that leaves the trie alone. It calls back once for every binding of the
finite map, in an order of the keys in which the history of the trie has no part: the empty branches that
removals leave behind are walked, but nothing is called in them.
-/

namespace NetworkSystems.FileShare

section Calls

variable {α σ : Type} (func : α → σ → Option σ)

def visit (s : σ) : Option α → Option σ
  | none => some s
  | some val => func val s

mutual

def Trie.iterate : Trie α → σ → Option σ
  | .null, s => some s
  | .node children values, s =>
      ((List.finRange 16).foldlM (fun s i => visit func s (values i)) s).bind fun s =>
        (List.finRange 16).foldlM (fun s i => (children i).iterate s) s

/-- The inner loop of `trie_loose_iterate`. -/
def TrieLev2.iterate : TrieLev2 α → σ → Option σ
  | .null, s => some s
  | .node children, s => (List.finRange 16).foldlM (fun s j => (children j).iterate s) s

end

def TrieT.iterate (ths : TrieT α) (s : σ) : Option σ :=
  (List.finRange 16).foldlM (fun s i => (ths i).iterate func s) s

end Calls

/-! ### What is called back -/

section Values

variable {α : Type}

theorem foldlM_flatMap {β γ σ : Type} {f : β → List γ} {g : σ → γ → Option σ} {step : σ → β → Option σ}
    (hstep : ∀ s b, step s b = (f b).foldlM g s) (l : List β) (s : σ) :
    l.foldlM step s = (l.flatMap f).foldlM g s := by
  induction l generalizing s with
  | nil => rfl
  | cons b l ih =>
      rw [List.flatMap_cons, List.foldlM_append, List.foldlM_cons, hstep]
      exact congrArg _ (funext ih)

mutual

theorem Trie.slots_eq_map : ∀ (tree : Trie α) (pre : Bytes) (high : Fin 16),
    tree.slots pre high = (tree.slots [] high).map (pre ++ ·)
  | .null, _, _ => rfl
  | .node children _, pre, high => by
      rw [Trie.slots, Trie.slots, List.map_append, List.map_map, List.map_flatMap]
      congr 2
      funext i
      rw [TrieLev2.slots_eq_map (children i) (pre ++ _), TrieLev2.slots_eq_map (children i) ([] ++ _),
        List.map_map]
      apply List.map_congr_left
      exact fun slot _ => List.append_assoc _ _ _

theorem TrieLev2.slots_eq_map : ∀ (tree : TrieLev2 α) (pre : Bytes),
    tree.slots pre = (tree.slots []).map (pre ++ ·)
  | .null, _ => rfl
  | .node children, pre => by
      rw [TrieLev2.slots, TrieLev2.slots, List.map_flatMap]
      congr 1
      funext j
      exact Trie.slots_eq_map (children j) pre j

end

def Trie.called (tree : Trie α) (high : Fin 16) : List α := (tree.slots [] high).filterMap (looseFind tree)

def TrieLev2.called (tree : TrieLev2 α) : List α :=
  (tree.slots []).filterMap (TrieT.find tree.children)

theorem TrieT.elements_eq (t : TrieT α) : t.elements = (List.finRange 16).flatMap fun i => (t i).called i := by
  rw [TrieT.elements, TrieT.slots, List.filterMap_flatMap]
  congr 1
  funext i
  apply List.filterMap_congr
  intro slot hslot
  obtain ⟨low, rest, rfl⟩ := Trie.mem_slots hslot
  rw [List.nil_append, TrieT.find, highNibble_ofNibbles]

theorem Trie.called_node (children : Fin 16 → TrieLev2 α) (values : Fin 16 → Option α) (high : Fin 16) :
    (Trie.node children values).called high =
      (List.finRange 16).filterMap values ++ (List.finRange 16).flatMap fun i => (children i).called := by
  rw [Trie.called, Trie.slots, List.filterMap_append, List.filterMap_map, List.filterMap_flatMap]
  congr 1
  · apply List.filterMap_congr
    intro i _
    change values (lowNibble (ofNibbles high i)) = values i
    rw [lowNibble_ofNibbles]
  · congr 1
    funext i
    rw [TrieLev2.slots_eq_map, List.filterMap_map, TrieLev2.called]
    apply List.filterMap_congr
    intro slot hslot
    obtain ⟨ch, rest, rfl⟩ := TrieLev2.mem_slots hslot
    change looseFind ((children (lowNibble (ofNibbles high i))).children (highNibble ch)) _ = _
    rw [lowNibble_ofNibbles]
    rfl

variable {σ : Type} (func : α → σ → Option σ)

theorem foldlM_visit {β : Type} (values : β → Option α) (l : List β) (s : σ) :
    l.foldlM (fun s b => visit func s (values b)) s =
      (l.filterMap values).foldlM (fun s val => func val s) s := by
  induction l generalizing s with
  | nil => rfl
  | cons b l ih =>
      rw [List.foldlM_cons, funext ih]
      cases hb : values b with
      | none => rw [List.filterMap_cons_none hb]; rfl
      | some val => rw [List.filterMap_cons_some hb, List.foldlM_cons]; rfl

mutual

theorem Trie.iterate_eq : ∀ (tree : Trie α) (high : Fin 16) (s : σ),
    tree.iterate func s = (tree.called high).foldlM (fun s val => func val s) s
  | .null, _, _ => rfl
  | .node children values, high, s => by
      rw [Trie.iterate, Trie.called_node, List.foldlM_append, foldlM_visit]
      exact congrArg _ (funext fun s =>
        foldlM_flatMap (fun s i => TrieLev2.iterate_eq (children i) s) (List.finRange 16) s)

theorem TrieLev2.iterate_eq : ∀ (tree : TrieLev2 α) (s : σ),
    tree.iterate func s = tree.called.foldlM (fun s val => func val s) s
  | .null, _ => rfl
  | .node children, s => by
      rw [TrieLev2.iterate, TrieLev2.called, TrieLev2.slots]
      change _ = (TrieT.elements children).foldlM _ s
      rw [TrieT.elements_eq]
      exact foldlM_flatMap (fun s j => Trie.iterate_eq (children j) j s) (List.finRange 16) s

end

theorem TrieT.iterate_eq (t : TrieT α) (s : σ) :
    t.iterate func s = t.elements.foldlM (fun s val => func val s) s := by
  rw [TrieT.iterate, TrieT.elements_eq]
  exact foldlM_flatMap (fun s i => Trie.iterate_eq func (t i) i s) (List.finRange 16) s

theorem TrieT.trieIterate_const (t : TrieT α) (s : σ) :
    trieIterate (fun _ => t) func s = t.iterate func s := by
  have hvisit : visitSlot (fun _ => t) func = fun s slot => visit func s (t.find slot) := by
    funext s slot
    rw [visitSlot]
    cases t.find slot <;> rfl
  rw [trieIterate, hvisit, foldlM_visit, t.iterate_eq]
  rfl

end Values

/-! ### The calls and the bindings -/

section Bindings

variable {α : Type} {t t' : TrieT α} {key : Bytes} {val : α}

/-- The bindings that `trie_iterate` calls back on, in order. -/
def TrieT.calls (t : TrieT α) : List (Bytes × α) :=
  t.slots.filterMap fun key => (t.find key).map (key, ·)

theorem TrieT.map_calls (t : TrieT α) : t.calls.map Prod.snd = t.elements := by
  rw [calls, List.map_filterMap, TrieT.elements]
  exact List.filterMap_congr fun key _ => by rw [Option.map_map]; exact Option.map_id_apply

theorem TrieT.iterate_calls {σ : Type} (func : α → σ → Option σ) (t : TrieT α) (s : σ) :
    t.iterate func s = t.calls.foldlM (fun s call => func call.2 s) s := by
  rw [iterate_eq, ← map_calls, List.foldlM_map]

theorem TrieT.mem_calls : (key, val) ∈ t.calls ↔ t.find key = some val := by
  rw [calls, List.mem_filterMap]
  constructor
  · rintro ⟨slot, -, hslot⟩
    obtain ⟨found, hfound, heq⟩ := Option.map_eq_some_iff.1 hslot
    obtain ⟨rfl, rfl⟩ := Prod.mk.inj heq
    exact hfound
  · intro hkey
    exact ⟨key, mem_slots_of_find hkey, by rw [hkey]; rfl⟩

theorem TrieT.mem_keys : key ∈ t.calls.map Prod.fst ↔ t.find key ≠ none := by
  rw [List.mem_map, Option.ne_none_iff_exists']
  constructor
  · rintro ⟨⟨_, val⟩, hcall, rfl⟩
    exact ⟨val, mem_calls.1 hcall⟩
  · rintro ⟨val, hval⟩
    exact ⟨(key, val), mem_calls.2 hval, rfl⟩

theorem TrieT.pairwise_keys (t : TrieT α) : (t.calls.map Prod.fst).Pairwise Before := by
  rw [calls, List.map_filterMap, List.pairwise_filterMap]
  refine t.pairwise_slots.imp fun {slot slot'} hbefore key hkey key' hkey' => ?_
  simp only [Option.map_map, Option.map_eq_some_iff, Function.comp_apply] at hkey hkey'
  obtain ⟨-, -, rfl⟩ := hkey
  obtain ⟨-, -, rfl⟩ := hkey'
  exact hbefore

theorem TrieT.keys_eq (h : ∀ key, t.find key = none ↔ t'.find key = none) :
    t.calls.map Prod.fst = t'.calls.map Prod.fst := by
  have hasymm : ∀ key key', key ∈ t.calls.map Prod.fst → key' ∈ t'.calls.map Prod.fst →
      Before key key' → Before key' key → key = key' :=
    fun _ _ _ _ hbefore hafter => absurd hafter hbefore.asymm
  apply List.Perm.eq_of_pairwise hasymm t.pairwise_keys t'.pairwise_keys
  refine (List.perm_ext_iff_of_nodup (t.pairwise_keys.imp Before.ne) (t'.pairwise_keys.imp Before.ne)).2
    fun key => ?_
  rw [mem_keys, mem_keys]
  exact not_congr (h key)

end Bindings

/-- **`trie_iterate` enumerates the map**: after any puts it calls back once for every key that is bound,
with the value it is bound to, and in an order that depends on the bound keys only. -/
theorem iterate_enumerates {α : Type} (puts : List (Put α)) (t : TrieT α)
    (hrun : (tries α).run .zeroed puts = some t) :
    (∀ (σ : Type) (func : α → σ → Option σ) (s : σ),
      t.iterate func s = t.calls.foldlM (fun s call => func call.2 s) s) ∧
    (t.calls.map Prod.fst).Nodup ∧
    (∀ key val, (key, val) ∈ t.calls ↔
      Key key ∧ ∀ mem, trieGet t (key ++ 0 :: mem) = some (some val)) ∧
    ∀ (puts' : List (Put α)) (t' : TrieT α), (tries α).run .zeroed puts' = some t' →
      (∀ key mem, Key key →
        (trieGet t (key ++ 0 :: mem) = some none ↔ trieGet t' (key ++ 0 :: mem) = some none)) →
      t.calls.map Prod.fst = t'.calls.map Prod.fst := by
  have hkeys := (find_of_run hrun).2
  refine ⟨fun σ func s => t.iterate_calls func s, t.pairwise_keys.imp Before.ne, fun key val => ?_,
    fun puts' t' hrun' hsame => TrieT.keys_eq fun key => ?_⟩
  · rw [TrieT.mem_calls]
    constructor
    · intro hfind
      have hkey : Key key := hkeys key (by rw [hfind]; exact Option.some_ne_none val)
      exact ⟨hkey, fun mem => by rw [get_of_key t hkey, hfind]⟩
    · rintro ⟨hkey, hget⟩
      exact Option.some.inj ((get_of_key t hkey []).symm.trans (hget []))
  · by_cases hkey : Key key
    · have hiff := hsame key [] hkey
      rw [get_of_key t hkey, get_of_key t' hkey, Option.some_inj, Option.some_inj] at hiff
      exact hiff
    · exact iff_of_true (not_not.1 (mt (hkeys key) hkey))
        (not_not.1 (mt ((find_of_run hrun').2 key) hkey))

/-- Two histories with the same bindings, one of which has left an empty branch. -/
theorem iterate_enumerates_removed : ∃ t t' : TrieT Nat,
    (tries Nat).run .zeroed [⟨[98, 97, 0], some 3⟩, ⟨[97, 0], some 1⟩, ⟨[98, 97, 0], none⟩] = some t ∧
      (tries Nat).run .zeroed [⟨[97, 0], some 1⟩] = some t' ∧
      t.calls.map Prod.fst = t'.calls.map Prod.fst := by
  obtain ⟨t, hrun⟩ := Option.isSome_iff_exists.1 (show ((tries Nat).run .zeroed
    [⟨[98, 97, 0], some 3⟩, ⟨[97, 0], some 1⟩, ⟨[98, 97, 0], none⟩]).isSome = true by decide +kernel)
  obtain ⟨t', hrun'⟩ := Option.isSome_iff_exists.1 (show ((tries Nat).run .zeroed
    [⟨[97, 0], some 1⟩]).isSome = true by decide +kernel)
  refine ⟨t, t', hrun, hrun', (iterate_enumerates _ t hrun).2.2.2 _ t' hrun' fun key mem hkey => ?_⟩
  rw [get_of_key t hkey, get_of_key t' hkey, (find_of_run hrun).1, (find_of_run hrun').1]
  simp only [stored, List.foldl_cons, List.foldl_nil, Function.update_apply]
  split <;> simp_all [keyOf]

end NetworkSystems.FileShare
