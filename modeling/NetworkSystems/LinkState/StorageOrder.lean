import NetworkSystems.LinkState.Update
import Mathlib.Data.Multiset.Defs

/-!
# The order in which a state is stored

The rows of the neighbor table, the destinations, and the entries of a stored packet may be kept in any
order. The loop of `update_routing_table` looks at them in that order, and appends destinations as it goes,
but the tree that it grows depends on the graph alone, and it stops when the tree holds all destinations.
-/

namespace NetworkSystems.LinkState

/-- What a packet says, in whatever order it lists its entries. -/
structure PacketContent where
  origin : UInt8
  shouldClose : UInt8
  seqNum : UInt32
  entries : Multiset LsEntry

def LsPacket.content (packet : LsPacket) : PacketContent :=
  ⟨packet.origin, packet.shouldClose, packet.seqNum, packet.entries⟩

/-- What an entry says, with the node of its gateway in place of the index of the row. -/
structure EntryContent where
  destId : UInt8
  gateway : Option UInt8
  cost : Int
  packet : Option PacketContent

namespace Router

/-- The node of an entry's gateway. -/
def gateway (router : Router) (e : RoutingEntry) : Option UInt8 :=
  router.neighborsTable[e.gatewayIdx.toNat]?.map Neighbor.nodeId

def content (router : Router) (e : RoutingEntry) : EntryContent :=
  ⟨e.destId, router.gateway e, e.cost, e.packet.map LsPacket.content⟩

/-- The two states are one, stored in different orders. The gateways are renumbered, and the index is built
for the new order. -/
structure Reordered (router router' : Router) : Prop where
  id : router'.id = router.id
  seqNum : router'.seqNum = router.seqNum
  rows : router.neighborsTable.Perm router'.neighborsTable
  destinations : (router.destinations.map router.content).Perm
    (router'.destinations.map router'.content)
  table : router'.rebuildRoutingTable = some router'

/-- The destinations, each with its cost and the node of its gateway. -/
def routes (router : Router) : List (UInt8 × Int × Option UInt8) :=
  router.destinations.map fun e => (e.destId, e.cost, router.gateway e)

section Reordered

variable {ids : Ids} {router router' : Router} {x : UInt8} {e : RoutingEntry}

theorem Valid.rebuilt (h : router.Valid) : router.rebuildRoutingTable = some router := by
  have htable : (fun x : Fin 255 => ((router.destinations.findIdx? fun e =>
      e.destId = UInt8.ofNat x.val).map fun k => UInt8.ofNat (0 + k)).getD 0xff) =
      router.routingTable := by
    funext x
    rw [h.table, indexOf]
    simp only [Nat.zero_add]
  rw [rebuildRoutingTable, fillTable_eq _ _ _ h.lt h.nodup, Option.map_some, htable]

theorem Reordered.destIds (h : router.Reordered router') :
    (router.destinations.map RoutingEntry.destId).Perm
      (router'.destinations.map RoutingEntry.destId) := by
  have hperm := h.destinations.map EntryContent.destId
  rw [List.map_map, List.map_map] at hperm
  exact hperm

theorem Reordered.valid (h : router.Reordered router') (hvalid : router.Valid) : router'.Valid := by
  have hmem : ∀ e' ∈ router'.destinations, ∃ e ∈ router.destinations, e.destId = e'.destId :=
    fun e' he' => List.mem_map.1 (h.destIds.mem_iff.2 (List.mem_map_of_mem he'))
  have hlt : ∀ e' ∈ router'.destinations, e'.destId.toNat < 255 := by
    intro e' he'
    obtain ⟨e, he, heq⟩ := hmem e' he'
    exact heq ▸ hvalid.lt e he
  have hnodup := h.destIds.nodup_iff.1 hvalid.nodup
  have hlength := h.destIds.length_eq
  rw [List.length_map, List.length_map] at hlength
  refine ⟨h.rows.length_eq ▸ hvalid.rows_le, hlength ▸ hvalid.length_le, hlt, ?_, hnodup, ?_⟩
  · intro e' he'
    obtain ⟨e, he, heq⟩ := hmem e' he'
    rw [h.id, ← heq]
    exact hvalid.self e he
  · intro x
    have htable := h.table
    rw [rebuildRoutingTable, fillTable_eq _ _ _ hlt hnodup, Option.map_some, Option.some.injEq] at htable
    rw [← congrArg Router.routingTable htable]
    simp only [Nat.zero_add]
    rfl

theorem Reordered.symm (h : router.Reordered router') (hvalid : router.Valid) :
    router'.Reordered router :=
  ⟨h.id.symm, h.seqNum.symm, h.rows.symm, h.destinations.symm, hvalid.rebuilt⟩

theorem Reordered.entry (h : router.Reordered router') (hvalid : router.Valid)
    (he : router.entry x = some e) :
    ∃ e', router'.entry x = some e' ∧ router'.content e' = router.content e := by
  have hmem := h.destinations.mem_iff.1 (List.mem_map_of_mem (entry_mem he))
  obtain ⟨e', he', hcontent⟩ := List.mem_map.1 hmem
  have hid : e'.destId = x := (congrArg EntryContent.destId hcontent).trans (entry_destId he)
  exact ⟨e', hid ▸ (h.valid hvalid).entry_of_mem he', hcontent⟩

theorem Reordered.stored (h : router.Reordered router') (hvalid : router.Valid) {packet : LsPacket}
    (hpacket : router.stored x = some packet) :
    ∃ packet', router'.stored x = some packet' ∧ packet.entries.Perm packet'.entries := by
  obtain ⟨e, he, hpacket⟩ := stored_eq_some.1 hpacket
  obtain ⟨e', he', hcontent⟩ := h.entry hvalid he
  have hsame : e'.packet.map LsPacket.content = some packet.content := by
    have heq := congrArg EntryContent.packet hcontent
    simp only [content, hpacket, Option.map_some] at heq
    exact heq
  obtain ⟨packet', hpacket', heq⟩ := Option.map_eq_some_iff.1 hsame
  refine ⟨packet', stored_eq_some.2 ⟨e', he', hpacket'⟩, ?_⟩
  exact (Multiset.coe_eq_coe.1 (congrArg PacketContent.entries heq)).symm

theorem Reordered.links (h : router.Reordered router') (hvalid : router.Valid) {link : LsEntry}
    (hlink : link ∈ router.links x) : link ∈ router'.links x := by
  rw [Router.links] at hlink ⊢
  by_cases hx : x = router.id
  · rw [if_pos hx] at hlink
    rw [if_pos (hx.trans h.id.symm)]
    exact (h.rows.map _).mem_iff.1 hlink
  · rw [if_neg hx] at hlink
    rw [if_neg fun heq => hx (heq.trans h.id)]
    cases hstored : router.stored x with
    | none =>
        rw [hstored] at hlink
        cases hlink
    | some packet =>
        obtain ⟨packet', hstored', hperm⟩ := h.stored hvalid hstored
        rw [hstored] at hlink
        rw [hstored']
        exact hperm.mem_iff.1 hlink

theorem Reordered.graph_eq (h : router.Reordered router') (hvalid : router.Valid) :
    graph router'.links = graph router.links := by
  have hsymm := h.symm hvalid
  funext u v c
  apply propext
  constructor
  · rintro ⟨link, hlink, heq⟩
    exact ⟨link, hsymm.links (h.valid hvalid) hlink, heq⟩
  · rintro ⟨link, hlink, heq⟩
    exact ⟨link, h.links hvalid hlink, heq⟩

theorem Reordered.within (h : router.Reordered router') (hvalid : router.Valid)
    (hids : router.Within ids) : router'.Within ids := by
  have hsymm := h.symm hvalid
  refine ⟨h.id ▸ hids.id, fun row hrow => hids.rows row (h.rows.mem_iff.2 hrow), ?_, ?_⟩
  · intro x e' he'
    obtain ⟨e, he, -⟩ := hsymm.entry (h.valid hvalid) he'
    exact hids.entry x e he
  · intro x packet' hpacket' link hlink
    obtain ⟨packet, hpacket, hperm⟩ := hsymm.stored (h.valid hvalid) hpacket'
    exact hids.stored x packet hpacket link (hperm.mem_iff.1 hlink)

end Reordered

section Order

variable {ids : Ids} {router router' final final' : Router} {M M' : List (Link UInt8)} {x : UInt8}

/-- Two trees of one graph: where the first has ended, the second does not go on, because nothing that it
still lacks is a destination. -/
theorem Grown.prefix_of_ended (hM : final.Grown M) (hend : final.Ended M)
    (hother : ∀ x, x ∉ M.map Link.dest → final.entry x = router.entry x)
    (hM' : Settles (graph final.links) key final.id M') (hlacking : router'.Lacking [] M')
    (hknown : ∀ e' ∈ router'.destinations, ∃ e, router.entry e'.destId = some e) : M' <+: M := by
  rcases hM.settles.prefix_or_prefix key_injective hM' with hpre | hpre
  · by_cases heq : M = M'
    · exact heq ▸ List.prefix_refl _
    · rcases hend with hnone | hfull
      · exact hM.settles.prefix_of_complete key_injective hnone hM'
      · obtain ⟨e', he', hout⟩ := hlacking M List.nil_prefix hpre heq
        obtain ⟨e, he⟩ := hknown e' he'
        exact absurd (hfull _ e ((hother _ hout).trans he)) hout
  · exact hpre

theorem Valid.mem_routes (h : router.Valid) {c : Int} {g : Option UInt8} :
    (x, c, g) ∈ router.routes ↔ ∃ e, router.entry x = some e ∧ e.cost = c ∧ router.gateway e = g := by
  simp only [routes, List.mem_map, Prod.mk.injEq]
  constructor
  · rintro ⟨e, he, rfl, hcost, hgateway⟩
    exact ⟨e, h.entry_of_mem he, hcost, hgateway⟩
  · rintro ⟨e, he, hcost, hgateway⟩
    exact ⟨e, entry_mem he, entry_destId he, hcost, hgateway⟩

theorem Valid.nodup_routes (h : router.Valid) : router.routes.Nodup := by
  apply List.Nodup.of_map Prod.fst
  rw [routes, List.map_map]
  exact h.nodup

/-- What the two runs say of a node is the same: of a settled one because they have grown one tree, and of
any other because they have left it alone. -/
theorem Reordered.route (h : router.Reordered router') (hvalid : router.Valid)
    (hkeeps : Keeps router final) (hkeeps' : Keeps router' final') (hM : final.Grown M)
    (hM' : final'.Grown M) (hother : ∀ x, x ∉ M.map Link.dest → final.entry x = router.entry x)
    (hother' : ∀ x, x ∉ M.map Link.dest → final'.entry x = router'.entry x) {c : Int}
    {g : Option UInt8} (hroute : (x, c, g) ∈ final.routes) : (x, c, g) ∈ final'.routes := by
  rw [hM.valid.mem_routes] at hroute
  obtain ⟨e, he, hcost, hgateway⟩ := hroute
  rw [hM'.valid.mem_routes]
  by_cases hx : x ∈ M.map Link.dest
  · obtain ⟨link, hlink, rfl⟩ := List.mem_map.1 hx
    obtain ⟨a, row, ha, hacost, hget, hvia⟩ := hM.routed link hlink
    obtain ⟨b, row', hb, hbcost, hget', hvia'⟩ := hM'.routed link hlink
    rw [he] at ha
    cases ha
    have hid : final'.id = final.id := hkeeps'.id.trans (h.id.trans hkeeps.id.symm)
    rw [hid] at hvia'
    refine ⟨b, hb, hbcost.trans (hacost.symm.trans hcost), ?_⟩
    rw [← hgateway, gateway, gateway, hget, hget', Option.map_some, Option.map_some,
      hM.settles.via_unique hvia hvia']
  · rw [hother x hx] at he
    obtain ⟨e', he', hcontent⟩ := h.entry hvalid he
    refine ⟨e', (hother' x hx).trans he', (congrArg EntryContent.cost hcontent).trans hcost, ?_⟩
    rw [← hgateway, gateway, gateway, hkeeps.rows, hkeeps'.rows]
    exact congrArg EntryContent.gateway hcontent

/-- **The computation does not depend on the order of storage.** For one state stored in two orders, both
runs of the loop have no fault, and end with the same destinations, costs and gateways. -/
theorem compute_reordered (hvalid : router.Valid) (hids : router.Within ids)
    (h : router.Reordered router') : ∃ final final',
      compute (maxNumRouters - 1) router [router.id] = some final ∧
      compute (maxNumRouters - 1) router' [router'.id] = some final' ∧
      final.routes.Perm final'.routes := by
  have hvalid' := h.valid hvalid
  obtain ⟨final, hfinal⟩ := hvalid.grown_nil.exists_compute (maxNumRouters - 1) hids rfl
  obtain ⟨final', hfinal'⟩ :=
    hvalid'.grown_nil.exists_compute (maxNumRouters - 1) (h.within hvalid hids) rfl
  obtain ⟨M, hM, hend, hkeeps, -, hlacking, hother⟩ := hvalid.grown_nil.compute hfinal
  obtain ⟨M', hM', hend', hkeeps', -, hlacking', hother'⟩ := hvalid'.grown_nil.compute hfinal'
  refine ⟨final, final', hfinal, hfinal', ?_⟩
  have hsymm := h.symm hvalid
  have hid : final'.id = final.id := hkeeps'.id.trans (h.id.trans hkeeps.id.symm)
  have hgraph : graph final'.links = graph final.links := by
    rw [hkeeps'.links, hkeeps.links, h.graph_eq hvalid]
  have hsame : M = M' := by
    have hsettles := hM.settles
    have hsettles' := hM'.settles
    rw [hgraph, hid] at hsettles'
    rw [← hgraph, ← hid] at hsettles
    have hle := hM.prefix_of_ended hend hother hsettles' hlacking' fun e' he' => by
      obtain ⟨e, he, -⟩ := hsymm.entry hvalid' (hvalid'.entry_of_mem he')
      exact ⟨e, he⟩
    have hge := hM'.prefix_of_ended hend' hother' hsettles hlacking fun e he => by
      obtain ⟨e', he', -⟩ := h.entry hvalid (hvalid.entry_of_mem he)
      exact ⟨e', he'⟩
    exact hge.eq_of_length_le hle.length_le
  subst hsame
  rw [List.perm_ext_iff_of_nodup hM.valid.nodup_routes hM'.valid.nodup_routes]
  rintro ⟨x, c, g⟩
  exact ⟨h.route hvalid hkeeps hkeeps' hM hM' hother hother',
    hsymm.route hvalid' hkeeps' hkeeps hM' hM hother' hother⟩

end Order

/-- Router A with the neighbors B and C, and a packet of B. -/
def pair : Router where
  id := 65
  seqNum := 0
  destinations := [⟨66, 0, 1, some ⟨66, 0, 1, [⟨65, 1⟩, ⟨67, 1⟩]⟩⟩, ⟨67, 1, 5, none⟩]
  routingTable := Function.update (Function.update (fun _ => 0xff) 66 0) 67 1
  neighborsTable := [⟨66, 1, 3⟩, ⟨67, 5, 4⟩]

/-- The same, the other way round. -/
def pairSwapped : Router where
  id := 65
  seqNum := 0
  destinations := [⟨67, 0, 5, none⟩, ⟨66, 1, 1, some ⟨66, 0, 1, [⟨67, 1⟩, ⟨65, 1⟩]⟩⟩]
  routingTable := Function.update (Function.update (fun _ => 0xff) 67 0) 66 1
  neighborsTable := [⟨67, 5, 4⟩, ⟨66, 1, 3⟩]

theorem pair_valid : pair.Valid where
  rows_le := by decide
  length_le := by decide
  lt := by decide
  self := by decide
  nodup := by decide
  table := by decide +kernel

theorem pair_reordered : pair.Reordered pairSwapped where
  id := rfl
  seqNum := rfl
  rows := by decide
  destinations := by
    have hcontent : LsPacket.content ⟨66, 0, 1, [⟨67, 1⟩, ⟨65, 1⟩]⟩ =
        LsPacket.content ⟨66, 0, 1, [⟨65, 1⟩, ⟨67, 1⟩]⟩ :=
      congrArg (PacketContent.mk 66 0 1) (Multiset.coe_eq_coe.2 (List.Perm.swap _ _ _))
    change List.Perm [EntryContent.mk 66 (some 66) 1 (some (LsPacket.content _)), ⟨67, some 67, 5, none⟩]
      [⟨67, some 67, 5, none⟩, ⟨66, some 66, 1, some (LsPacket.content _)⟩]
    rw [hcontent]
    exact List.Perm.swap _ _ _
  table := rfl

theorem compute_reordered_pair : ∃ final final', compute (maxNumRouters - 1) pair [65] = some final ∧
    compute (maxNumRouters - 1) pairSwapped [65] = some final' ∧ final.routes.Perm final'.routes := by
  have hwithin : pair.Within ⟨{65, 66, 67}, by decide, by decide +kernel⟩ := by
    have hdests : ∀ e ∈ pair.destinations, e.destId ∈ ({65, 66, 67} : Finset UInt8) := by decide
    have hlinks : ∀ e ∈ pair.destinations, ∀ packet ∈ e.packet, ∀ link ∈ packet.entries,
        link.destId ∈ ({65, 66, 67} : Finset UInt8) := by decide
    refine ⟨by decide, by decide, fun x e he => ?_, fun x packet hpacket link hlink => ?_⟩
    · exact entry_destId he ▸ hdests e (entry_mem he)
    · obtain ⟨e, he, hpacket⟩ := stored_eq_some.1 hpacket
      exact hlinks e (entry_mem he) packet hpacket link hlink
  exact compute_reordered pair_valid hwithin pair_reordered

end Router

end NetworkSystems.LinkState
