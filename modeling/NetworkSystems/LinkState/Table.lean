import NetworkSystems.LinkState.Router
import Mathlib.Data.List.Nodup

/-!
# The table of destinations

The representation invariant of a router. `entry` is the table as a finite map from ids, and under the
invariant the functions of the code read and write this map.
-/

namespace NetworkSystems.LinkState

namespace Router

def indexOf (router : Router) (node : UInt8) : Option Nat :=
  router.destinations.findIdx? fun entry => entry.destId = node

def entry (router : Router) (node : UInt8) : Option RoutingEntry :=
  router.destinations.find? fun entry => entry.destId = node

def stored (router : Router) (node : UInt8) : Option LsPacket :=
  (router.entry node).bind RoutingEntry.packet

structure Valid (router : Router) : Prop where
  rows_le : router.neighborsTable.length ≤ maxNumRouters
  length_le : router.destinations.length ≤ maxNumRouters
  lt : ∀ entry ∈ router.destinations, entry.destId.toNat < 255
  self : ∀ entry ∈ router.destinations, entry.destId ≠ router.id
  nodup : (router.destinations.map RoutingEntry.destId).Nodup
  table : ∀ x : Fin 255, router.routingTable x =
    ((router.indexOf (UInt8.ofNat x.val)).map UInt8.ofNat).getD 0xff

/-- The index has a place for the id, and the table has an entry for it or room for one. -/
def HasPlace (router : Router) (node : UInt8) : Prop :=
  node.toNat < 255 ∧ (router.entry node = none → router.destinations.length < maxNumRouters)

/-- The router after a change of one entry. -/
structure Writes (router router' : Router) (node : UInt8) (entry : RoutingEntry) : Prop where
  valid : router'.Valid
  id : router'.id = router.id
  seqNum : router'.seqNum = router.seqNum
  rows : router'.neighborsTable = router.neighborsTable
  entry : ∀ x, router'.entry x = if x = node then some entry else router.entry x

section Lookup

variable {router router' : Router} {node x : UInt8} {e : RoutingEntry} {i : Nat}

theorem indexOf_lt (h : router.indexOf node = some i) : i < router.destinations.length :=
  (List.findIdx?_eq_some_iff_getElem.1 h).1

theorem entry_eq_bind : router.entry node = (router.indexOf node).bind (router.destinations[·]?) :=
  List.find?_eq_bind_findIdx?_getElem?

theorem getElem_indexOf (h : router.indexOf node = some i) :
    router.destinations[i]? = router.entry node := by
  rw [entry_eq_bind, h, Option.bind_some]

theorem exists_entry (h : router.indexOf node = some i) :
    ∃ e, router.destinations[i]? = some e ∧ router.entry node = some e := by
  refine ⟨_, List.getElem?_eq_getElem (indexOf_lt h), ?_⟩
  rw [← getElem_indexOf h, List.getElem?_eq_getElem]

theorem entry_eq_none : router.entry node = none ↔ router.indexOf node = none := by
  rw [entry, indexOf, List.find?_eq_none, List.findIdx?_eq_none_iff]
  simp only [Bool.not_eq_true]

theorem entry_mem (h : router.entry node = some e) : e ∈ router.destinations :=
  List.mem_of_find?_eq_some h

theorem entry_destId (h : router.entry node = some e) : e.destId = node := by
  simpa using List.find?_some h

theorem Valid.entry_of_mem (h : router.Valid) (he : e ∈ router.destinations) :
    router.entry e.destId = some e := by
  cases hfound : router.entry e.destId with
  | none =>
      rw [entry, List.find?_eq_none] at hfound
      exact absurd (decide_eq_true rfl) (hfound e he)
  | some e' =>
      rw [List.inj_on_of_nodup_map h.nodup (entry_mem hfound) he (entry_destId hfound)]

theorem Valid.lt_of_entry (h : router.Valid) (he : router.entry node = some e) : node.toNat < 255 :=
  entry_destId he ▸ h.lt e (entry_mem he)

theorem Valid.ne_of_entry (h : router.Valid) (he : router.entry node = some e) : node ≠ router.id :=
  entry_destId he ▸ h.self e (entry_mem he)

theorem Valid.getRoutingEntryForNode (h : router.Valid) (hnode : node.toNat < 255) :
    router.getRoutingEntryForNode node = some (router.indexOf node) := by
  have hlength := h.length_le
  simp only [maxNumRouters] at hlength
  rw [Router.getRoutingEntryForNode, dif_pos hnode]
  simp only [h.table, UInt8.ofNat_toNat]
  cases hidx : router.indexOf node with
  | none =>
      rw [Option.map_none, Option.getD_none, if_pos]
      exact Nat.lt_of_le_of_lt hlength (by decide)
  | some i =>
      have hi := indexOf_lt hidx
      have hval : (UInt8.ofNat i).toNat = i :=
        UInt8.toNat_ofNat_of_lt' (by simp only [UInt8.size]; omega)
      rw [Option.map_some, Option.getD_some, hval, if_neg (by omega)]

theorem getRoutingEntryForNode_eq_none (hnode : ¬ node.toNat < 255) :
    router.getRoutingEntryForNode node = none := by
  rw [getRoutingEntryForNode, dif_neg hnode]

theorem Valid.routingEntry (h : router.Valid) : router.routingEntry node = router.entry node := by
  rw [Router.routingEntry]
  by_cases hnode : node.toNat < 255
  · rw [h.getRoutingEntryForNode hnode, Option.join_some, entry_eq_bind]
  · rw [getRoutingEntryForNode_eq_none hnode, Option.join_none, Option.bind_none]
    cases he : router.entry node with
    | none => rfl
    | some e => exact absurd (h.lt_of_entry he) hnode

theorem hasPlace_of_entry (h : router.entry node = some e) (hlt : node.toNat < 255) :
    router.HasPlace node := by
  refine ⟨hlt, fun hnone => ?_⟩
  rw [h] at hnone
  cases hnone

theorem stored_eq (h : router.entry node = some e) : router.stored node = e.packet := by
  rw [stored, h, Option.bind_some]

theorem stored_eq_none (h : router.entry node = none) : router.stored node = none := by
  rw [stored, h, Option.bind_none]

theorem stored_eq_some {packet : LsPacket} : router.stored node = some packet ↔
    ∃ e, router.entry node = some e ∧ e.packet = some packet := by
  rw [stored, Option.bind_eq_some_iff]

theorem Writes.entry_self (h : Writes router router' node e) : router'.entry node = some e := by
  rw [h.entry, if_pos rfl]

theorem Writes.entry_of_ne (h : Writes router router' node e) (hx : x ≠ node) :
    router'.entry x = router.entry x := by
  rw [h.entry, if_neg hx]

theorem Writes.stored_self (h : Writes router router' node e) : router'.stored node = e.packet :=
  stored_eq h.entry_self

theorem Writes.stored_of_ne (h : Writes router router' node e) (hx : x ≠ node) :
    router'.stored x = router.stored x := by
  rw [stored, stored, h.entry_of_ne hx]

theorem Writes.trans {router'' : Router} {e' : RoutingEntry} (h : Writes router router' node e)
    (h' : Writes router' router'' node e') : Writes router router'' node e' := by
  refine ⟨h'.valid, h'.id.trans h.id, h'.seqNum.trans h.seqNum, h'.rows.trans h.rows, fun x => ?_⟩
  by_cases hx : x = node
  · rw [if_pos hx, hx, h'.entry_self]
  · rw [if_neg hx, h'.entry_of_ne hx, h.entry_of_ne hx]

theorem Writes.stored_eq (h : Writes router router' node e) (hpacket : e.packet = router.stored node) :
    router'.stored = router.stored := by
  funext x
  by_cases hx : x = node
  · rw [hx, h.stored_self, hpacket]
  · exact h.stored_of_ne hx

end Lookup

section Change

variable {router router' : Router} {node : UInt8} {e old : RoutingEntry} {i : Nat}

theorem Valid.setEntry (h : router.Valid) (hidx : router.indexOf node = some i)
    (he : e.destId = node) : Writes router (router.setEntry i e) node e := by
  obtain ⟨hlt, hi, hfirst⟩ := List.findIdx?_eq_some_iff_getElem.1 hidx
  have hid : router.destinations[i].destId = e.destId := by
    rw [he]
    simpa using hi
  have hmap : (router.destinations.set i e).map RoutingEntry.destId =
      router.destinations.map RoutingEntry.destId := by
    rw [List.map_set, ← hid]
    exact (congrArg _ (List.getElem_map _).symm).trans
      (List.set_getElem_self (by rwa [List.length_map]))
  have hindex : ∀ x, (router.setEntry i e).indexOf x = router.indexOf x := by
    intro x
    have hcomp : ∀ l : List RoutingEntry, l.findIdx? (fun entry => entry.destId = x) =
        (l.map RoutingEntry.destId).findIdx? fun id => id = x := fun l => by
      rw [List.findIdx?_map]
      rfl
    rw [indexOf, indexOf, hcomp, hcomp, Router.setEntry, hmap]
  have hmem : ∀ entry ∈ router.destinations.set i e,
      ∃ old ∈ router.destinations, old.destId = entry.destId := by
    intro entry hentry
    have := List.mem_map_of_mem (f := RoutingEntry.destId) hentry
    rw [hmap] at this
    exact List.mem_map.1 this
  refine ⟨⟨h.rows_le, ?_, ?_, ?_, ?_, ?_⟩, rfl, rfl, rfl, ?_⟩
  · rw [Router.setEntry, List.length_set]
    exact h.length_le
  · intro entry hentry
    obtain ⟨old, hold, heq⟩ := hmem entry hentry
    exact heq ▸ h.lt old hold
  · intro entry hentry
    obtain ⟨old, hold, heq⟩ := hmem entry hentry
    exact heq ▸ h.self old hold
  · exact hmap ▸ h.nodup
  · intro x
    rw [hindex]
    exact h.table x
  · intro x
    rw [entry_eq_bind, hindex]
    by_cases hx : x = node
    · rw [if_pos hx, hx, hidx]
      exact List.getElem?_set_self hlt
    · rw [if_neg hx, entry_eq_bind]
      cases hxidx : router.indexOf x with
      | none => rfl
      | some j =>
          have hj : i ≠ j := by
            rintro rfl
            obtain ⟨_, hj, _⟩ := List.findIdx?_eq_some_iff_getElem.1 hxidx
            exact hx (((of_decide_eq_true hj).symm.trans hid).trans he)
          exact List.getElem?_set_ne hj

theorem fillTable_eq : ∀ (entries : List RoutingEntry) (i : Nat) (table : Fin 255 → UInt8),
    (∀ e ∈ entries, e.destId.toNat < 255) → (entries.map RoutingEntry.destId).Nodup →
    fillTable entries i table = some fun x =>
      ((entries.findIdx? fun e => e.destId = UInt8.ofNat x.val).map fun k =>
        UInt8.ofNat (i + k)).getD (table x)
  | [], _, _, _, _ => rfl
  | e :: entries, i, table, hlt, hnodup => by
      rw [List.map_cons, List.nodup_cons] at hnodup
      obtain ⟨he, hlt⟩ := List.forall_mem_cons.1 hlt
      rw [fillTable, dif_pos he, fillTable_eq entries _ _ hlt hnodup.2]
      congr 1
      funext x
      rw [List.findIdx?_cons]
      by_cases hx : e.destId = UInt8.ofNat x.val
      · have hnone : (entries.findIdx? fun e => e.destId = UInt8.ofNat x.val) = none := by
          rw [List.findIdx?_eq_none_iff]
          intro e' he'
          rw [decide_eq_false_iff_not, ← hx]
          exact fun heq => hnodup.1 (heq ▸ List.mem_map_of_mem he')
        have hval : x = ⟨e.destId.toNat, he⟩ := by
          refine Fin.ext (Eq.symm ?_)
          exact (congrArg UInt8.toNat hx).trans
            (UInt8.toNat_ofNat_of_lt' (Nat.lt_trans x.isLt (by decide)))
        rw [hnone, Option.map_none, Option.getD_none, hval, Function.update_self, if_pos]
        · rfl
        · rw [decide_eq_true_eq, UInt8.ofNat_toNat]
      · have hval : x ≠ ⟨e.destId.toNat, he⟩ := by
          rintro rfl
          exact hx UInt8.ofNat_toNat.symm
        rw [Function.update_of_ne hval, if_neg (by simpa using hx), Option.map_map]
        congr 2
        funext k
        exact congrArg UInt8.ofNat (Nat.add_right_comm i 1 k)

theorem lt_of_fillTable : ∀ {entries : List RoutingEntry} {i : Nat} {table table' : Fin 255 → UInt8},
    fillTable entries i table = some table' → ∀ e ∈ entries, e.destId.toNat < 255
  | [], _, _, _, _, _, he => nomatch he
  | e :: entries, i, table, table', h, e', he' => by
      rw [fillTable] at h
      split at h
      case isTrue hlt =>
        rcases List.mem_cons.1 he' with rfl | he'
        · exact hlt
        · exact lt_of_fillTable h e' he'
      case isFalse => cases h

theorem lt_of_appendEntry (happend : router.appendEntry e = some router') :
    router.destinations.length < maxNumRouters ∧ e.destId.toNat < 255 := by
  rw [appendEntry] at happend
  split at happend
  case isFalse => cases happend
  case isTrue hlength =>
    rw [rebuildRoutingTable, Option.map_eq_some_iff] at happend
    obtain ⟨_, hfill, -⟩ := happend
    exact ⟨hlength, lt_of_fillTable hfill e (by simp)⟩

theorem Valid.exists_appendEntry (h : router.Valid) (hnone : router.entry e.destId = none)
    (hself : e.destId ≠ router.id) (hlength : router.destinations.length < maxNumRouters)
    (hlt : e.destId.toNat < 255) :
    ∃ router', router.appendEntry e = some router' ∧ Writes router router' e.destId e ∧
      router'.indexOf e.destId = some router.destinations.length := by
  have hlts : ∀ entry ∈ router.destinations ++ [e], entry.destId.toNat < 255 := by
    intro entry hentry
    rcases List.mem_append.1 hentry with hentry | hentry
    · exact h.lt entry hentry
    · rwa [List.mem_singleton.1 hentry]
  have hnodup : ((router.destinations ++ [e]).map RoutingEntry.destId).Nodup := by
    rw [List.map_append, List.nodup_append]
    refine ⟨h.nodup, by simp, ?_⟩
    rintro _ ha _ hb rfl
    obtain ⟨old, hold, heq⟩ := List.mem_map.1 ha
    rw [List.map_singleton, List.mem_singleton] at hb
    have hfound := h.entry_of_mem hold
    rw [heq, hb, hnone] at hfound
    cases hfound
  rw [appendEntry, if_pos hlength, rebuildRoutingTable, fillTable_eq _ _ _ hlts hnodup]
  refine ⟨_, rfl, ⟨⟨h.rows_le, ?_, hlts, ?_, hnodup, ?_⟩, rfl, rfl, rfl, ?_⟩, ?_⟩
  · rw [List.length_append, List.length_singleton]
    exact hlength
  · intro entry hentry
    rcases List.mem_append.1 hentry with hentry | hentry
    · exact h.self entry hentry
    · rw [List.mem_singleton.1 hentry]
      exact hself
  · intro x
    simp only [Nat.zero_add, indexOf]
  · intro x
    rw [entry, List.find?_append]
    change (router.entry x).or _ = _
    by_cases hx : x = e.destId
    · rw [if_pos hx, hx, hnone, Option.none_or, List.find?_singleton, if_pos (by simp)]
    · rw [if_neg hx, List.find?_singleton, if_neg (by simpa using Ne.symm hx), Option.or_none]
  · have hold : (router.destinations.findIdx? fun entry => entry.destId = e.destId) = none :=
      entry_eq_none.1 hnone
    rw [indexOf, List.findIdx?_append, hold, Option.none_or, List.findIdx?_singleton,
      if_pos (decide_eq_true rfl), Option.map_some, Nat.zero_add]

theorem Valid.appendEntry (h : router.Valid) (hnone : router.entry e.destId = none)
    (hself : e.destId ≠ router.id) (happend : router.appendEntry e = some router') :
    Writes router router' e.destId e ∧
      router'.indexOf e.destId = some router.destinations.length := by
  obtain ⟨hlength, hlt⟩ := lt_of_appendEntry happend
  obtain ⟨_, happend', hwrites⟩ := h.exists_appendEntry hnone hself hlength hlt
  rw [happend'] at happend
  exact Option.some.inj happend ▸ hwrites

theorem Valid.appendEntry_isSome (h : router.Valid) (hnone : router.entry e.destId = none)
    (hself : e.destId ≠ router.id) :
    (router.appendEntry e).isSome ↔ router.HasPlace e.destId := by
  rw [Option.isSome_iff_exists]
  constructor
  · rintro ⟨router', happend⟩
    obtain ⟨hlength, hlt⟩ := lt_of_appendEntry happend
    exact ⟨hlt, fun _ => hlength⟩
  · rintro ⟨hlt, hlength⟩
    obtain ⟨router', happend, -⟩ := h.exists_appendEntry hnone hself (hlength hnone) hlt
    exact ⟨router', happend⟩

end Change

end Router

end NetworkSystems.LinkState
