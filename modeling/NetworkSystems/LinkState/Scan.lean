import NetworkSystems.LinkState.Table
import NetworkSystems.Lib.ShortestPath
import Mathlib.Data.List.MinMax
import Mathlib.Data.Prod.Lex
import Mathlib.Order.Lattice.Nat

/-!
# The search for the next link

The graph that a router knows has its own rows and the entries of the packets it has stored. One pass
over the current set finds the least link out of it, by total cost, then source, then destination.
-/

namespace NetworkSystems.LinkState

def graph (links : UInt8 → List LsEntry) (u v : UInt8) (c : ℕ) : Prop :=
  ∃ link ∈ links u, link.destId = v ∧ link.cost.toNat = c

theorem graph_cost_le {links : UInt8 → List LsEntry} {u v : UInt8} {c : ℕ} (h : graph links u v c) :
    c ≤ 255 := by
  obtain ⟨link, -, -, rfl⟩ := h
  exact Nat.le_of_lt_succ link.cost.toNat_lt

/-- The order in which `set_shortest` prefers links. -/
def key (link : Link UInt8) : ℕ ×ₗ ℕ ×ₗ ℕ := toLex (link.cost, toLex (link.src.toNat, link.dest.toNat))

theorem key_cost {a b : Link UInt8} (h : key a ≤ key b) : a.cost ≤ b.cost := by
  rcases Prod.Lex.toLex_le_toLex.1 h with h | h
  · exact h.le
  · exact h.1.le

theorem key_injective : Function.Injective key := by
  rintro ⟨src, dest, cost⟩ ⟨src', dest', cost'⟩ h
  simp only [key, toLex_inj, Prod.mk.injEq] at h
  obtain ⟨rfl, hsrc, hdest⟩ := h
  rw [UInt8.toNat_inj.1 hsrc, UInt8.toNat_inj.1 hdest]

/-- How `shortest` holds the link found so far. -/
def LsLink.encode : Option (Link UInt8) → LsLink
  | none => ⟨0, 0, -1⟩
  | some link => ⟨link.src, link.dest, link.cost⟩

theorem LsLink.encode_cost_ne (link : Link UInt8) : (encode (some link)).cost ≠ -1 := by
  simp only [encode]
  omega

/-- Keep the better of two links. -/
def closer : Option (Link UInt8) → Link UInt8 → Option (Link UInt8) :=
  List.argAux fun a b => key a < key b

theorem foldl_closer (l : List (Link UInt8)) : l.foldl closer none = l.argmin key := rfl

theorem int16_eq {c : ℕ} (hc : c < 2 ^ 15) : int16 c = c := by
  rw [int16, Int.bmod_def]
  omega

theorem uint16_eq {c : ℕ} (hc : c < 2 ^ 15) : uint16 c = c := by
  rw [uint16]
  omega

theorem setShortest_encode {best : Option (Link UInt8)} {src dest : UInt8} {c : ℕ} (hc : c < 2 ^ 15) :
    setShortest (.encode best) src dest c = .encode (closer best ⟨src, dest, c⟩) := by
  cases best with
  | none =>
      have hcost : (LsLink.encode none).cost = -1 := rfl
      rw [setShortest, if_pos hcost, int16_eq hc]
      rfl
  | some link =>
      have hiff : ((c : ℤ) < link.cost ∨ ((c : ℤ) = link.cost ∧ src < link.src) ∨
          ((c : ℤ) = link.cost ∧ src = link.src ∧ dest < link.dest)) ↔
          key ⟨src, dest, c⟩ < key link := by
        simp only [key, Prod.Lex.toLex_lt_toLex, UInt8.lt_iff_toNat_lt, UInt8.toNat_inj,
          Int.ofNat_lt, Int.natCast_inj]
        tauto
      rw [setShortest, if_neg (LsLink.encode_cost_ne link), closer, List.argAux]
      simp only [LsLink.encode, hiff]
      split
      · rw [int16_eq hc]
      · rfl

namespace Router

/-- The links of a node, as far as the router knows them. -/
def links (router : Router) (node : UInt8) : List LsEntry :=
  if node = router.id then router.neighborsTable.map fun row => ⟨row.nodeId, row.cost⟩
  else ((router.stored node).map LsPacket.entries).getD []

def costTo (router : Router) (node : UInt8) : Int :=
  if node = router.id then 0 else ((router.entry node).map RoutingEntry.cost).getD 0

/-- The links of a node to nodes that are not in the current set. -/
def candidates (router : Router) (current : List UInt8) (node : UInt8) : List (Link UInt8) :=
  ((router.links node).filter fun link => link.destId ∉ current).map fun link =>
    ⟨node, link.destId, (router.costTo node).toNat + link.cost.toNat⟩

variable {router : Router} {current : List UInt8} {node : UInt8} {best : Option (Link UInt8)} {d : ℕ}

theorem candidates_filter (l : List LsEntry) (k : ℕ) (link : LsEntry) :
    ((link :: l).filter fun link => link.destId ∉ current).map (fun link =>
      (⟨node, link.destId, k + link.cost.toNat⟩ : Link UInt8)) =
    (if link.destId ∈ current then [] else [⟨node, link.destId, k + link.cost.toNat⟩]) ++
      (l.filter fun link => link.destId ∉ current).map fun link =>
        ⟨node, link.destId, k + link.cost.toNat⟩ := by
  by_cases h : link.destId ∈ current
  · rw [List.filter_cons_of_neg (by simpa using h), if_pos h, List.nil_append]
  · rw [List.filter_cons_of_pos (by simpa using h), if_neg h, List.map_cons, List.singleton_append]

theorem foldl_rows (rows : List Neighbor) :
    rows.foldl (fun shortest row =>
      if row.nodeId ∈ current then shortest else router.setShortestNeighbor shortest row)
        (.encode best) =
    .encode ((((rows.map fun row => (⟨row.nodeId, row.cost⟩ : LsEntry)).filter
      fun link => link.destId ∉ current).map fun link =>
        (⟨router.id, link.destId, 0 + link.cost.toNat⟩ : Link UInt8)).foldl closer best) := by
  induction rows generalizing best with
  | nil => rfl
  | cons row rows ih =>
      rw [List.foldl_cons, List.map_cons, candidates_filter, List.foldl_append]
      by_cases h : row.nodeId ∈ current
      · rw [if_pos h, if_pos h]
        exact ih
      · have hcost : row.cost.toNat < 2 ^ 15 := row.cost.toNat_lt.trans (by decide)
        rw [if_neg h, if_neg h, setShortestNeighbor, setShortest_encode hcost, ih, Nat.zero_add]
        rfl

theorem foldlM_entries (h : router.Valid) {e : RoutingEntry} (he : router.entry node = some e)
    (hcost : e.cost = d) (hd : d + 255 < 2 ^ 15) (entries : List LsEntry) :
    entries.foldlM (fun shortest link =>
      if link.destId ∈ current then some shortest else router.setShortestDistant shortest node link)
        (.encode best) =
    some (.encode (((entries.filter fun link => link.destId ∉ current).map fun link =>
        (⟨node, link.destId, d + link.cost.toNat⟩ : Link UInt8)).foldl closer best)) := by
  induction entries generalizing best with
  | nil => rfl
  | cons link entries ih =>
      rw [List.foldlM_cons, candidates_filter, List.foldl_append]
      by_cases hin : link.destId ∈ current
      · rw [if_pos hin, if_pos hin]
        exact ih
      · have hlt : d + link.cost.toNat < 2 ^ 15 := by
          have := link.cost.toNat_lt
          omega
        have hstep : router.setShortestDistant (.encode best) node link =
            some (.encode (closer best ⟨node, link.destId, d + link.cost.toNat⟩)) := by
          have hsum : (link.cost.toNat : ℤ) + (d : ℤ) = ((d + link.cost.toNat : ℕ) : ℤ) := by omega
          rw [setShortestDistant]
          simp only [h.routingEntry, he, Option.map_some, hcost, hsum, int16_eq hlt, uint16_eq hlt,
            setShortest_encode hlt]
          exact if_neg (by omega)
        rw [if_neg hin, if_neg hin, hstep]
        exact ih

theorem scanNode_eq (h : router.Valid)
    (hnode : node = router.id ∨ ∃ e, router.entry node = some e ∧ e.cost = d) (hd : d + 255 < 2 ^ 15) :
    router.scanNode current (.encode best) node =
      some (.encode ((router.candidates current node).foldl closer best)) := by
  by_cases hid : node = router.id
  · rw [scanNode, if_pos hid, hid, foldl_rows, candidates, links, if_pos rfl, costTo, if_pos rfl]
    rfl
  · obtain ⟨e, he, hcost⟩ := hnode.resolve_left hid
    have hidx : ∃ i, router.indexOf node = some i := by
      rw [← Option.ne_none_iff_exists', Ne, ← entry_eq_none, he]
      exact nofun
    obtain ⟨i, hi⟩ := hidx
    have hget := getElem_indexOf hi
    rw [scanNode, if_neg hid, h.getRoutingEntryForNode (h.lt_of_entry he), hi]
    simp only [hget, he, Option.bind_some]
    rw [candidates, links, if_neg hid, costTo, if_neg hid, he, Option.map_some, Option.getD_some, hcost,
      Int.toNat_natCast, stored_eq he]
    cases hpacket : e.packet with
    | none => rfl
    | some packet => exact foldlM_entries h he hcost hd packet.entries

theorem scan_eq (h : router.Valid) (hcurrent : ∀ node ∈ current, node = router.id ∨
    ∃ e, ∃ d : ℕ, router.entry node = some e ∧ e.cost = d ∧ d + 255 < 2 ^ 15) :
    router.scan current =
      some (.encode ((current.flatMap (router.candidates current)).argmin key)) := by
  have hfold : ∀ (nodes : List UInt8) (best : Option (Link UInt8)), nodes ⊆ current →
      nodes.foldlM (router.scanNode current) (.encode best) =
        some (.encode ((nodes.flatMap (router.candidates current)).foldl closer best)) := by
    intro nodes
    induction nodes with
    | nil => exact fun _ _ => rfl
    | cons node nodes ih =>
        intro best hsub
        rw [List.cons_subset] at hsub
        have hstep : router.scanNode current (.encode best) node =
            some (.encode ((router.candidates current node).foldl closer best)) := by
          rcases hcurrent node hsub.1 with hid | ⟨e, d, he, hcost, hd⟩
          · exact scanNode_eq (d := 0) h (Or.inl hid) (by decide)
          · exact scanNode_eq h (Or.inr ⟨e, he, hcost⟩) hd
        rw [List.foldlM_cons, hstep, List.flatMap_cons, List.foldl_append]
        exact ih _ hsub.2
  rw [← foldl_closer]
  exact hfold current none (List.Subset.refl _)

theorem mem_candidates {link : Link UInt8} : link ∈ router.candidates current node ↔
    link.src = node ∧ link.dest ∉ current ∧
      ∃ c, graph router.links node link.dest c ∧ link.cost = (router.costTo node).toNat + c := by
  simp only [candidates, graph, List.mem_map, List.mem_filter, decide_eq_true_eq]
  constructor
  · rintro ⟨l, ⟨hl, hout⟩, rfl⟩
    exact ⟨rfl, hout, _, ⟨l, hl, rfl, rfl⟩, rfl⟩
  · rintro ⟨hsrc, hout, _, ⟨l, hl, hdest, rfl⟩, hcost⟩
    obtain ⟨src, dest, cost⟩ := link
    obtain ⟨rfl, rfl, rfl⟩ : src = node ∧ l.destId = dest ∧
      cost = (router.costTo node).toNat + l.cost.toNat := ⟨hsrc, hdest, hcost⟩
    exact ⟨l, ⟨hl, hout⟩, rfl⟩

end Router

end NetworkSystems.LinkState
