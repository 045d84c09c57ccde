import NetworkSystems.LinkState.Update

/-!
# Which destinations have a cost

After an accepted packet the table should have a cost for every other node that can be reached in the
graph that the router knows, and for no other. The loop of `update_routing_table` ends when it has settled
as many nodes as the table has entries, which can be before it has seen all of the graph, and it does not
take back the costs of entries that it has not settled.
-/

namespace NetworkSystems.LinkState

namespace Router

def Costed (router : Router) (x : UInt8) : Prop :=
  ∃ e ∈ router.destinations, e.destId = x ∧ e.cost ≠ -1

/-- The table has costs for exactly the other nodes that can be reached in the graph that the router
knows. -/
def Complete (router : Router) : Prop :=
  ∀ x, router.Costed x ↔ x ≠ router.id ∧ ∃ c, Walk (graph router.links) router.id x c

/-- The links that are known once the packet is stored. -/
def linksWith (router : Router) (packet : LsPacket) (x : UInt8) : List LsEntry :=
  if x = packet.origin then packet.entries else router.links x

/-- What has a cost can still be reached with the packet stored, and a search that takes the least link
first does not come to the origin of the packet and to all nodes that have an entry while a link still
leads out of what it has settled. -/
structure CompletedBy (router : Router) (packet : LsPacket) : Prop where
  reachable : ∀ e ∈ router.destinations, e.cost ≠ -1 →
    ∃ c, Walk (graph (router.linksWith packet)) router.id e.destId c
  settled : ∀ L, Settles (graph (router.linksWith packet)) key router.id L →
    packet.origin ∈ L.map Link.dest → (∀ e ∈ router.destinations, e.destId ∈ L.map Link.dest) →
      ∀ link, ¬ Frontier (graph (router.linksWith packet)) router.id L link

section Complete

variable {router mid router' : Router} {packet : LsPacket} {x : UInt8} {L : List (Link UInt8)}

theorem Valid.costed_iff (h : router.Valid) :
    router.Costed x ↔ ∃ e, router.entry x = some e ∧ e.cost ≠ -1 := by
  constructor
  · rintro ⟨e, he, rfl, hcost⟩
    exact ⟨e, h.entry_of_mem he, hcost⟩
  · rintro ⟨e, he, hcost⟩
    exact ⟨e, entry_mem he, entry_destId he, hcost⟩

/-- What storing a packet changes: the links of its origin, and the origin has an entry. -/
theorem Valid.store_true (h : router.Valid) (hstore : router.store packet = some (true, mid)) :
    mid.links = router.linksWith packet ∧ mid.entry packet.origin ≠ none ∧
      (∀ x, x ≠ packet.origin → mid.entry x = router.entry x) ∧
      ∀ x, mid.Costed x ↔ router.Costed x := by
  have hlinks : ∀ {e : RoutingEntry}, packet.origin ≠ router.id →
      Writes router mid packet.origin e → e.packet = some packet →
      mid.links = router.linksWith packet := by
    intro e hself hw hpacket
    funext x
    rw [linksWith, links, links, hw.id, hw.rows]
    by_cases hx : x = packet.origin
    · rw [if_pos hx, hx, if_neg hself, hw.stored_self, hpacket]
      rfl
    · rw [if_neg hx, hw.stored_of_ne hx]
  rcases h.store_cases hstore with ⟨-, hb, -⟩ | ⟨hself, hnone, -, hw⟩ | ⟨e, hself, hentry, hb, hw⟩
  · cases hb
  · refine ⟨hlinks hself hw rfl, by rw [hw.entry_self]; exact Option.some_ne_none _, fun x => hw.entry_of_ne,
      fun x => ?_⟩
    rw [hw.valid.costed_iff, h.costed_iff]
    by_cases hx : x = packet.origin
    · rw [hx, hw.entry_self, hnone]
      simp
    · rw [hw.entry_of_ne hx]
  · refine ⟨hlinks hself hw rfl, by rw [hw.entry_self]; exact Option.some_ne_none _, fun x => hw.entry_of_ne,
      fun x => ?_⟩
    rw [hw.valid.costed_iff, h.costed_iff]
    by_cases hx : x = packet.origin
    · rw [hx, hw.entry_self, hentry]
      simp
    · rw [hw.entry_of_ne hx]

theorem Grown.costed (h : router.Grown L) (hx : x ∈ L.map Link.dest) : router.Costed x := by
  obtain ⟨link, hlink, rfl⟩ := List.mem_map.1 hx
  obtain ⟨e, -, he, hcost, -⟩ := h.routed link hlink
  exact h.valid.costed_iff.2 ⟨e, he, by rw [hcost]; omega⟩

theorem ended_of_entries {E : UInt8 → UInt8 → ℕ → Prop} {s : UInt8}
    (hall : ∀ u v c, E u v c → v = s ∨ v ∈ L.map Link.dest) (link : Link UInt8) :
    ¬ Frontier E s L link := by
  rintro ⟨⟨d, c, -, hlink, -⟩, hout⟩
  rcases hall _ _ _ hlink with heq | hmem
  · exact hout 0 (Or.inl ⟨heq, rfl⟩)
  · obtain ⟨l, hl, hdest⟩ := List.mem_map.1 hmem
    exact hout l.cost (Or.inr ⟨l, hl, hdest, rfl⟩)

/-- **When the table is complete**: exactly if no cost is out of date, and the search does not come to the
nodes of the table before it has come to all others. -/
theorem Valid.complete_iff (h : router.Valid)
    (haccept : router.updateRoutingTable packet = some (true, router')) :
    router'.Complete ↔ router.CompletedBy packet := by
  rcases h.update_cases haccept with ⟨hb, -⟩ | ⟨mid, M, -, hstore, hkeeps, hM, hend, hlacking, hother⟩
  · cases hb
  obtain ⟨hlinks, horigin, hsame, hcosted⟩ := h.store_true hstore
  obtain ⟨hvalid, hmidid, -, -⟩ := h.store hstore
  have hid : router'.id = router.id := hkeeps.id.trans hmidid
  have hgraph : router'.links = router.linksWith packet := hkeeps.links.trans hlinks
  have hsettles := hM.settles
  have hwalk := fun {x : UInt8} (hx : x ∈ M.map Link.dest) => hM.walk hx
  -- an entry that is not settled is as it was
  have hstale : ∀ x, x ∉ M.map Link.dest → (router'.Costed x ↔ router.Costed x) := by
    intro x hx
    rw [hM.valid.costed_iff, hother x hx, ← hvalid.costed_iff, hcosted]
  have hsettled : ∀ x, router'.Costed x → (∃ c, Walk (graph router'.links) router'.id x c) →
      x ∈ M.map Link.dest := by
    rintro x hx ⟨c, hc⟩
    obtain ⟨e, he, -⟩ := hM.valid.costed_iff.1 hx
    exact hM.mem_of_walk hend he hc
  rw [hgraph, hid] at hsettles hwalk hsettled
  constructor
  · intro hall
    refine ⟨fun e he hcost => ?_, fun L hL hLorigin hLall link hlink => ?_⟩
    · by_cases hx : e.destId ∈ M.map Link.dest
      · exact hwalk hx
      · have hx' := (hall e.destId).1 ((hstale _ hx).2 ⟨e, he, rfl, hcost⟩)
        rw [hgraph, hid] at hx'
        exact hx'.2
    · have hreach := hL.walk_frontier (fun _ _ => key_cost) hlink
      have hnew : link.dest ∈ M.map Link.dest := by
        refine hsettled _ ((hall _).2 ?_) ⟨_, hreach⟩
        rw [hgraph, hid]
        exact ⟨hlink.dest_ne, _, hreach⟩
      have hout : link.dest ∉ L.map Link.dest := by
        intro hmem
        obtain ⟨l, hl, hdest⟩ := List.mem_map.1 hmem
        exact hlink.2 _ (Or.inr ⟨l, hl, hdest, rfl⟩)
      rcases hsettles.prefix_or_prefix key_injective hL with hpre | hpre
      · exact hout ((hpre.map Link.dest).subset hnew)
      · have hne : L ≠ M := fun heq => hout (heq ▸ hnew)
        obtain ⟨e, he, hnotMem⟩ := hlacking L List.nil_prefix hpre hne
        have hentry := hvalid.entry_of_mem he
        by_cases hx : e.destId = packet.origin
        · exact hnotMem (hx ▸ hLorigin)
        · rw [hsame _ hx] at hentry
          exact hnotMem (hLall e (entry_mem hentry))
  · rintro ⟨hreachable, hlast⟩ x
    have hnone : ∀ link, ¬ Frontier (graph router'.links) router'.id M link := by
      rcases hend with hnone | hfull
      · exact hnone
      · have hentries : ∀ x, mid.entry x ≠ none → x ∈ M.map Link.dest := by
          intro x hx
          by_contra hnotMem
          obtain ⟨e, he⟩ := Option.ne_none_iff_exists'.1 hx
          exact hnotMem (hfull x e ((hother x hnotMem).trans he))
        rw [hgraph, hid]
        refine hlast M hsettles (hentries _ horigin) fun e he => ?_
        by_cases hx : e.destId = packet.origin
        · exact hx ▸ hentries _ horigin
        · apply hentries _
          rw [hsame _ hx, h.entry_of_mem he]
          exact nofun
    rw [hgraph, hid]
    constructor
    · intro hx
      obtain ⟨e, he, -⟩ := hM.valid.costed_iff.1 hx
      refine ⟨hid ▸ hM.valid.ne_of_entry he, ?_⟩
      by_cases hmem : x ∈ M.map Link.dest
      · exact hwalk hmem
      · obtain ⟨e', he', rfl, hcost⟩ := (hstale x hmem).1 hx
        exact hreachable e' he' hcost
    · rintro ⟨hne, c, hc⟩
      rw [hgraph, hid] at hnone
      obtain ⟨d, ⟨heq, -⟩ | ⟨link, hlink, hdest, -⟩⟩ := hsettles.complete (fun _ _ => key_cost) hnone hc
      · exact absurd heq hne
      · exact hM.costed (List.mem_map.2 ⟨link, hlink, hdest⟩)

end Complete

end Router

/-- **Which tables are complete**: after any packets, an accepted one leaves a complete table exactly if
it completes the table before. -/
theorem complete_iff_completedBy {id : UInt8} {rows : List Neighbor} {packets : List LsPacket}
    {packet : LsPacket} {router router' : Router} (hlength : rows.length ≤ maxNumRouters)
    (hrun : Router.updating.run (.parsed id rows) packets = some router)
    (haccept : router.updateRoutingTable packet = some (true, router')) :
    router'.Complete ↔ router.CompletedBy packet := by
  apply Router.Valid.complete_iff _ haccept
  exact Router.updating.invariant (fun _ _ _ hvalid => hvalid.updating_step)
    (Router.parsed_valid hlength) hrun

def heardOfC : LsPacket := ⟨66, 0, 1, [⟨65, 1⟩, ⟨67, 4⟩]⟩

/-- Router A with the neighbor B has heard of C from B, and the packet of C comes. -/
theorem complete_iff_completedBy_heardOfC : ∃ router router',
    Router.updating.run (.parsed 65 [⟨66, 1, 3⟩]) [heardOfC] = some router ∧
      router.updateRoutingTable ⟨67, 0, 1, [⟨66, 4⟩]⟩ = some (true, router') ∧ router'.Complete := by
  have hlast : (Router.updating.run (.parsed 65 [⟨66, 1, 3⟩]) [heardOfC]).map (fun router =>
      (router.id, router.destinations.map RoutingEntry.destId,
        (router.updateRoutingTable ⟨67, 0, 1, [⟨66, 4⟩]⟩).map Prod.fst,
        (List.range 256).all fun n => (router.linksWith ⟨67, 0, 1, [⟨66, 4⟩]⟩ (UInt8.ofNat n)).all
          fun link => [65, 66, 67].contains link.destId,
        decide (⟨66, 1⟩ ∈ router.linksWith ⟨67, 0, 1, [⟨66, 4⟩]⟩ 65))) =
      some (65, [66], some true, true, true) := by decide +kernel
  obtain ⟨router, hrun, hrouter⟩ := Option.map_eq_some_iff.1 hlast
  simp only [Prod.mk.injEq, decide_eq_true_eq] at hrouter
  obtain ⟨hid, hdests, hupdate, hlinks, hfirst⟩ := hrouter
  obtain ⟨⟨b, router'⟩, hupdate, rfl⟩ := Option.map_eq_some_iff.1 hupdate
  have hentries : ∀ e ∈ router.destinations, e.destId = 66 := by
    intro e he
    have hmem := List.mem_map_of_mem (f := RoutingEntry.destId) he
    rw [hdests] at hmem
    exact List.mem_singleton.1 hmem
  obtain ⟨e, he, hdest⟩ := List.mem_map.1 (hdests ▸ List.mem_singleton_self 66)
  refine ⟨router, router', hrun, hupdate, (complete_iff_completedBy (by decide) hrun hupdate).2
    ⟨fun e he _ => ?_, fun L _ hLorigin hLall => Router.ended_of_entries fun u v c hlink => ?_⟩⟩
  · rw [hentries e he, hid]
    exact ⟨1, .of_link ⟨⟨66, 1⟩, hfirst, rfl, rfl⟩⟩
  · obtain ⟨link, hmem, rfl, -⟩ := hlink
    have hknown := List.all_eq_true.1 (List.all_eq_true.1 hlinks u.toNat (List.mem_range.2 u.toNat_lt)) link
      (by rwa [UInt8.ofNat_toNat])
    simp only [List.contains_iff_mem, List.mem_cons, List.not_mem_nil, or_false] at hknown
    rcases hknown with heq | heq | heq
    · exact Or.inl (heq.trans hid.symm)
    · exact Or.inr (heq.trans hdest.symm ▸ hLall e he)
    · exact Or.inr (heq ▸ hLorigin)

/-- Router A has the neighbors B, near by, and C. After B's packet it has settled as many nodes as it has
entries, and C has none. -/
theorem not_complete : ¬ ∀ (ids : Ids) (id : UInt8) (rows : List Neighbor) (packets : List LsPacket)
    (packet : LsPacket) (router router' : Router), id ∈ ids → (∀ row ∈ rows, row.nodeId ∈ ids) →
      rows.length ≤ maxNumRouters → (∀ p ∈ packets, p.Within ids) → packet.Within ids →
      Router.updating.run (.parsed id rows) packets = some router →
      router.updateRoutingTable packet = some (true, router') → router'.Complete := by
  intro hclaim
  have hresult : ((Router.parsed 65 [⟨66, 1, 3⟩, ⟨67, 5, 4⟩]).updateRoutingTable ⟨66, 0, 1, []⟩).map
      (fun result => (result.1, result.2.id, result.2.neighborsTable,
        result.2.destinations.map RoutingEntry.destId)) =
      some (true, 65, [⟨66, 1, 3⟩, ⟨67, 5, 4⟩], [66]) := by
    decide +kernel
  obtain ⟨⟨b, router'⟩, hupdate, hrest⟩ := Option.map_eq_some_iff.1 hresult
  simp only [Prod.mk.injEq] at hrest
  obtain ⟨rfl, hid, hrows, hdests⟩ := hrest
  have hcomplete := hclaim ⟨{65, 66, 67}, by decide, by decide +kernel⟩ 65 [⟨66, 1, 3⟩, ⟨67, 5, 4⟩] []
    ⟨66, 0, 1, []⟩ _ router' (by decide) (by decide) (by decide) nofun (by decide) rfl hupdate 67
  have hlink : graph router'.links router'.id 67 5 :=
    Router.graph_self_iff.2 ⟨⟨67, 5, 4⟩, by rw [hrows]; simp, rfl, rfl⟩
  obtain ⟨e, he, hdest, -⟩ := hcomplete.2 ⟨by rw [hid]; decide, _, .of_link hlink⟩
  have hmem := List.mem_map_of_mem (f := RoutingEntry.destId) he
  rw [hdests, hdest] at hmem
  exact absurd hmem (by decide)

end NetworkSystems.LinkState
