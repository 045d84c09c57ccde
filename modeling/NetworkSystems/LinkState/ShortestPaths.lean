import NetworkSystems.LinkState.Update

/-!
# Shortest paths

What the table says after an accepted packet. The entry of every destination that can be reached holds
the least cost of a path in the graph that the router knows, and its gateway is the first hop of such a
path. The costs are kept in sixteen bits: the computation is written down a second time with a fault
wherever a value does not fit, and on a router of a network this makes no difference.
-/

namespace NetworkSystems.LinkState

/-- The entry tells the distance of its node. Its gateway is a neighbor such that the cost of the cheapest
link to it and its own distance to the node add up to that. -/
structure Router.Shortest (router : Router) (e : RoutingEntry) (gateway : Neighbor)
    (first rest : ℕ) : Prop where
  cost : e.cost = (first + rest : ℕ)
  isDist : IsDist (graph router.links) router.id e.destId (first + rest)
  row : router.neighborsTable[e.gatewayIdx.toNat]? = some gateway
  link : ∃ row ∈ router.neighborsTable, row.nodeId = gateway.nodeId ∧ row.cost.toNat = first
  least : ∀ row ∈ router.neighborsTable, row.nodeId = gateway.nodeId → first ≤ row.cost.toNat
  onward : IsDist (graph router.links) gateway.nodeId e.destId rest

/-- So does every entry whose node can be reached in the graph that the router knows. -/
def Router.ShortestPaths (router : Router) : Prop :=
  ∀ e ∈ router.destinations, ∀ c, Walk (graph router.links) router.id e.destId c →
    ∃ gateway first rest, router.Shortest e gateway first rest

/-! ### The computation with overflow as a fault -/

/-- A value stored in an `int16_t` that can hold it. -/
def toInt16 (x : Int) : Option Int := if -2 ^ 15 ≤ x ∧ x < 2 ^ 15 then some x else none

/-- A value stored in a `uint16_t` that can hold it. -/
def toUint16 (x : Int) : Option Int := if 0 ≤ x ∧ x < 2 ^ 16 then some x else none

/-- `set_shortest`, with a check of what it stores. -/
def setShortestChecked (shortest : LsLink) (src dest : UInt8) (totalCost : Int) : Option LsLink :=
  if shortest.cost = -1 then (toInt16 totalCost).map fun cost => ⟨src, dest, cost⟩
  else if totalCost < shortest.cost ∨ (totalCost = shortest.cost ∧ src < shortest.src) ∨
      (totalCost = shortest.cost ∧ src = shortest.src ∧ dest < shortest.dest) then
    (toInt16 totalCost).map fun cost => ⟨src, dest, cost⟩
  else some shortest

namespace Router

def setShortestNeighborChecked (router : Router) (shortest : LsLink) (row : Neighbor) :
    Option LsLink :=
  setShortestChecked shortest router.id row.nodeId row.cost.toNat

/-- `set_shortest_distant`, with a check of the sum and of the conversion to the parameter. -/
def setShortestDistantChecked (router : Router) (shortest : LsLink) (src : UInt8) (link : LsEntry) :
    Option LsLink :=
  let nodeCost : Int := link.cost.toNat
  if nodeCost = -1 then some shortest
  else
    (router.routingEntry src).bind fun entry =>
      (toInt16 (nodeCost + entry.cost)).bind fun nodeCost =>
        (toUint16 nodeCost).bind fun totalCost =>
          setShortestChecked shortest src link.destId totalCost

def scanNodeChecked (router : Router) (current : List UInt8) (shortest : LsLink) (node : UInt8) :
    Option LsLink :=
  if node = router.id then
    router.neighborsTable.foldlM (fun shortest row =>
      if row.nodeId ∈ current then some shortest
      else router.setShortestNeighborChecked shortest row) shortest
  else
    match router.getRoutingEntryForNode node with
    | none => none
    | some none => some shortest
    | some (some dest) =>
        router.destinations[dest]?.bind fun entry =>
          match entry.packet with
          | none => some shortest
          | some packet =>
              packet.entries.foldlM (fun shortest link =>
                if link.destId ∈ current then some shortest
                else router.setShortestDistantChecked shortest node link) shortest

def scanChecked (router : Router) (current : List UInt8) : Option LsLink :=
  current.foldlM (router.scanNodeChecked current) ⟨0, 0, -1⟩

def computeChecked : Nat → Router → List UInt8 → Option Router
  | room, router, current =>
      if current.length ≤ router.destinations.length then
        (router.scanChecked current).bind fun shortest =>
          if shortest.cost = -1 then some router
          else
            match room with
            | 0 => none
            | room + 1 =>
                (router.settle shortest).bind fun router =>
                  computeChecked room router (current ++ [shortest.dest])
      else some router

/-- `update_routing_table`, with an overflow as a fault. -/
def updateRoutingTableChecked (router : Router) (packet : LsPacket) : Option (Bool × Router) :=
  (router.store packet).bind fun (stored, router) =>
    if stored then
      (computeChecked (maxNumRouters - 1) router [router.id]).map fun router => (true, router)
    else some (false, router)

end Router

theorem toInt16_eq {c : ℕ} (hc : c < 2 ^ 15) : toInt16 c = some (c : ℤ) := if_pos (by omega)

theorem toUint16_eq {c : ℕ} (hc : c < 2 ^ 15) : toUint16 c = some (c : ℤ) := if_pos (by omega)

theorem setShortestChecked_eq (shortest : LsLink) (src dest : UInt8) {c : ℕ} (hc : c < 2 ^ 15) :
    setShortestChecked shortest src dest c = some (setShortest shortest src dest c) := by
  rw [setShortestChecked, setShortest, toInt16_eq hc, int16_eq hc, Option.map_some]
  split
  · rfl
  · split <;> rfl

theorem foldlM_congr {α β : Type} {f g : β → α → Option β} {l : List α} (b : β)
    (h : ∀ a ∈ l, ∀ b, f b a = g b a) : l.foldlM f b = l.foldlM g b := by
  induction l generalizing b with
  | nil => rfl
  | cons a l ih =>
      rw [List.foldlM_cons, List.foldlM_cons, h a (by simp)]
      exact Option.bind_congr fun b' _ => ih b' fun a' ha => h a' (List.mem_cons_of_mem _ ha)

namespace Router

section Checked

variable {router : Router} {current : List UInt8} {node : UInt8} {L : List (Link UInt8)}

/-- The cost of an entry leaves room for one more link. -/
def Fits (e : RoutingEntry) : Prop := ∃ d : ℕ, e.cost = d ∧ d + 255 < 2 ^ 15

theorem setShortestDistantChecked_eq (hfits : ∀ e, router.routingEntry node = some e → Fits e)
    (shortest : LsLink) (link : LsEntry) :
    router.setShortestDistantChecked shortest node link =
      router.setShortestDistant shortest node link := by
  have hne : ¬ ((link.cost.toNat : ℤ) = -1) := by omega
  simp only [setShortestDistantChecked, setShortestDistant, if_neg hne]
  cases he : router.routingEntry node with
  | none => rfl
  | some e =>
      obtain ⟨c, hsum, hc⟩ : ∃ c : ℕ, (link.cost.toNat : ℤ) + e.cost = c ∧ c < 2 ^ 15 := by
        obtain ⟨d, hcost, hd⟩ := hfits e he
        have := link.cost.toNat_lt
        exact ⟨link.cost.toNat + d, by omega, by omega⟩
      rw [Option.bind_some, Option.map_some, hsum, toInt16_eq hc, Option.bind_some, toUint16_eq hc,
        Option.bind_some, int16_eq hc, uint16_eq hc, setShortestChecked_eq _ _ _ hc]

theorem scanNodeChecked_eq
    (hfits : node ≠ router.id → ∀ e, router.routingEntry node = some e → Fits e)
    (shortest : LsLink) :
    router.scanNodeChecked current shortest node = router.scanNode current shortest node := by
  rw [scanNodeChecked, scanNode]
  by_cases hid : node = router.id
  · rw [if_pos hid, if_pos hid]
    refine Eq.trans (foldlM_congr _ fun row _ shortest => ?_) List.foldlM_pure
    split
    · rfl
    · exact setShortestChecked_eq _ _ _ (row.cost.toNat_lt.trans (by decide))
  · rw [if_neg hid, if_neg hid]
    cases router.getRoutingEntryForNode node with
    | none => rfl
    | some index =>
        cases index with
        | none => rfl
        | some dest =>
            refine Option.bind_congr fun entry _ => ?_
            cases entry.packet with
            | none => rfl
            | some packet =>
                refine foldlM_congr _ fun link _ shortest => ?_
                rw [setShortestDistantChecked_eq (hfits hid)]

theorem scanChecked_eq
    (hfits : ∀ node ∈ current, node ≠ router.id → ∀ e, router.routingEntry node = some e → Fits e) :
    router.scanChecked current = router.scan current :=
  foldlM_congr _ fun node hnode shortest => scanNodeChecked_eq (hfits node hnode) shortest

theorem Grown.fits (h : router.Grown L) : ∀ node ∈ router.id :: L.map Link.dest, node ≠ router.id →
    ∀ e, router.routingEntry node = some e → Fits e := by
  intro node hnode hid e he
  obtain ⟨link, hlink, rfl⟩ := List.mem_map.1 ((List.mem_cons.1 hnode).resolve_left hid)
  obtain ⟨e', -, he', hcost, -⟩ := h.routed link hlink
  rw [h.valid.routingEntry, he'] at he
  obtain rfl := Option.some.inj he
  exact ⟨link.cost, hcost, h.cost_le (Or.inr ⟨link, hlink, rfl, rfl⟩)⟩

theorem Grown.computeChecked_eq (room : Nat) (h : router.Grown L) :
    computeChecked room router (router.id :: L.map Link.dest) =
      Router.compute room router (router.id :: L.map Link.dest) := by
  induction room generalizing router L with
  | zero => rw [computeChecked, Router.compute, scanChecked_eq h.fits]
  | succ room ih =>
      obtain ⟨best, hscan, -, hsome⟩ := h.scan
      rw [computeChecked, Router.compute, scanChecked_eq h.fits, hscan]
      simp only [Option.bind_some]
      cases best with
      | none => rfl
      | some link =>
          obtain ⟨hlink, hleast⟩ := hsome link rfl
          have hnext : ((router.settle (.encode (some link))).bind fun router' =>
              computeChecked room router' (router.id :: L.map Link.dest ++ [link.dest])) =
              (router.settle (.encode (some link))).bind fun router' =>
                Router.compute room router' (router.id :: L.map Link.dest ++ [link.dest]) := by
            refine Option.bind_congr fun router' hsettle => ?_
            obtain ⟨hgrown, hkeeps, -⟩ := h.step hlink hleast hsettle
            have hrest := ih hgrown
            rwa [hkeeps.id, List.map_append, List.map_singleton, ← List.cons_append] at hrest
          rw [show (LsLink.encode (some link)).dest = link.dest from rfl, hnext]

/-- **The arithmetic never overflows.** -/
theorem Valid.updateRoutingTableChecked_eq (h : router.Valid) (packet : LsPacket) :
    router.updateRoutingTableChecked packet = router.updateRoutingTable packet := by
  rw [updateRoutingTableChecked, updateRoutingTable]
  refine Option.bind_congr fun result hstore => ?_
  obtain ⟨stored, mid⟩ := result
  cases stored with
  | false => simp only [Bool.false_eq_true, if_false]
  | true =>
      have hcompute := (h.store hstore).1.grown_nil.computeChecked_eq (maxNumRouters - 1)
      rw [List.map_nil] at hcompute
      simp only [if_true, hcompute]

end Checked

/-! ### The routes -/

section Routes

variable {router : Router}

/-- What the loop has settled is shortest, and it has settled all that can be reached. -/
theorem Computed.shortestPaths (h : router.Computed) : router.ShortestPaths := by
  obtain ⟨L, hL, hend⟩ := h
  intro e he c hwalk
  have hentry := hL.valid.entry_of_mem he
  obtain ⟨link, hlink, hdest⟩ := List.mem_map.1 (hL.mem_of_walk hend hentry hwalk)
  obtain ⟨e', gateway, he', hcost, hgateway, hvia⟩ := hL.routed link hlink
  rw [hdest, hentry] at he'
  obtain rfl := Option.some.inj he'
  have hdist := hL.settles.isDist (fun _ _ => key_cost) (Or.inr ⟨link, hlink, hdest, rfl⟩)
  rw [hdest] at hvia
  obtain ⟨first, rest, hfirst, hrest, hsum⟩ := hL.settles.firstHop (fun _ _ => key_cost) hvia
  refine ⟨gateway, first, rest, ?_, hsum, hgateway, graph_self_iff.1 hfirst, fun row hrow hid => ?_,
    hsum.of_link hfirst hrest⟩
  · rw [hcost, hdist.unique hsum]
  · exact hsum.link_le (graph_self_iff.2 ⟨row, hrow, hid, rfl⟩) hrest

end Routes

end Router

/-- **The table holds shortest paths**, after any packets and one more. No call has a fault, and none of
the sums in it overflows. -/
theorem shortestPaths_of_update {ids : Ids} {id : UInt8} {rows : List Neighbor}
    {packets : List LsPacket} {packet : LsPacket} (hid : id ∈ ids)
    (hrows : ∀ row ∈ rows, row.nodeId ∈ ids) (hlength : rows.length ≤ maxNumRouters)
    (hpackets : ∀ p ∈ packets, p.Within ids) (hpacket : packet.Within ids) :
    ∃ router b router', Router.updating.run (.parsed id rows) packets = some router ∧
      router.updateRoutingTable packet = some (b, router') ∧
      router.updateRoutingTableChecked packet = some (b, router') ∧ router'.ShortestPaths := by
  obtain ⟨router, hrun, hrunning⟩ := (Router.running_parsed hid hrows hlength).exists_run hpackets
  obtain ⟨b, router', hupdate⟩ := hrunning.valid.exists_update hrunning.within hpacket
  refine ⟨router, b, router', hrun, hupdate, ?_, (hrunning.update hpacket hupdate).computed.shortestPaths⟩
  rw [hrunning.valid.updateRoutingTableChecked_eq, hupdate]

/-- Router A lists its neighbor B twice, and the cheaper link is in the second row. It has heard of C, and
then B's packet tells of a link to C. -/
theorem shortestPaths_of_update_twice : ∃ router router',
    Router.updating.run (.parsed 65 [⟨66, 9, 3⟩, ⟨66, 1, 4⟩]) [⟨67, 0, 1, []⟩] = some router ∧
      router.updateRoutingTable ⟨66, 0, 1, [⟨67, 2⟩]⟩ = some (true, router') ∧
      router'.destinations.map (fun e => (e.destId, e.cost)) = [(67, 3), (66, 1)] ∧
      router'.ShortestPaths := by
  obtain ⟨router, b, router', hrun, hupdate, -, hpaths⟩ :=
    @shortestPaths_of_update ⟨{65, 66, 67}, by decide, by decide +kernel⟩ 65
      [⟨66, 9, 3⟩, ⟨66, 1, 4⟩] [⟨67, 0, 1, []⟩] ⟨66, 0, 1, [⟨67, 2⟩]⟩
      (by decide) (by decide) (by decide) (by decide) (by decide)
  have hresult : (Router.updating.run (.parsed 65 [⟨66, 9, 3⟩, ⟨66, 1, 4⟩]) [⟨67, 0, 1, []⟩]).bind
      (fun router => (router.updateRoutingTable ⟨66, 0, 1, [⟨67, 2⟩]⟩).map fun result =>
        (result.1, result.2.destinations.map fun e => (e.destId, e.cost))) =
      some (true, [(67, 3), (66, 1)]) := by
    decide +kernel
  rw [hrun, Option.bind_some, hupdate] at hresult
  obtain ⟨rfl, hcosts⟩ := Prod.mk.inj (Option.some.inj hresult)
  exact ⟨router, router', hrun, hupdate, hcosts, hpaths⟩

end NetworkSystems.LinkState
