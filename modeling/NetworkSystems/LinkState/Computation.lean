import NetworkSystems.LinkState.Scan
import NetworkSystems.LinkState.Store
import Mathlib.Data.List.Perm.Subperm

/-!
# The computation of the table

The loop of `update_routing_table` grows a shortest-path tree of the graph that the router knows, and
keeps cost and gateway of each node of the tree in the table. It ends when no link leads out of the tree,
or when the tree holds all destinations of the table.
-/

namespace NetworkSystems.LinkState

namespace Router

/-- The table agrees with the tree that has grown by the links `L`. -/
structure Grown (router : Router) (L : List (Link UInt8)) : Prop where
  valid : router.Valid
  settles : Settles (graph router.links) key router.id L
  routed : ∀ link ∈ L, ∃ e row, router.entry link.dest = some e ∧ e.cost = link.cost ∧
    router.neighborsTable[e.gatewayIdx.toNat]? = some row ∧ Via router.id L link.dest row.nodeId

/-- There is nothing more to grow, or nothing more is asked for. -/
def Ended (router : Router) (L : List (Link UInt8)) : Prop :=
  (∀ link, ¬ Frontier (graph router.links) router.id L link) ∨
    ∀ x e, router.entry x = some e → x ∈ L.map Link.dest

/-- Every tree on the way from `L` to `M` leaves out a destination of the table. -/
def Lacking (router : Router) (L M : List (Link UInt8)) : Prop :=
  ∀ L', L <+: L' → L' <+: M → L' ≠ M → ∃ e ∈ router.destinations, e.destId ∉ L'.map Link.dest

/-- The table is what the computation makes of the packets stored. -/
def Computed (router : Router) : Prop := ∃ L, router.Grown L ∧ router.Ended L

/-- What the computation leaves alone. -/
structure Keeps (router router' : Router) : Prop where
  id : router'.id = router.id
  seqNum : router'.seqNum = router.seqNum
  rows : router'.neighborsTable = router.neighborsTable
  stored : router'.stored = router.stored

/-- The route to a node: cost and index of the gateway. -/
def route (router : Router) (node : UInt8) : Option (Int × UInt8) :=
  (router.entry node).map fun e => (e.cost, e.gatewayIdx)

theorem route_eq_some {router : Router} {x idx : UInt8} {c : Int} : router.route x = some (c, idx) ↔
    ∃ e, router.entry x = some e ∧ e.cost = c ∧ e.gatewayIdx = idx := by
  simp only [route, Option.map_eq_some_iff, Prod.mk.injEq]

section Keep

variable {ids : Ids} {router router' router'' : Router} {node : UInt8} {e : RoutingEntry}

theorem Keeps.refl (router : Router) : Keeps router router := ⟨rfl, rfl, rfl, rfl⟩

theorem Keeps.trans (h : Keeps router router') (h' : Keeps router' router'') : Keeps router router'' :=
  ⟨h'.id.trans h.id, h'.seqNum.trans h.seqNum, h'.rows.trans h.rows, h'.stored.trans h.stored⟩

theorem Keeps.links (h : Keeps router router') : router'.links = router.links := by
  funext x
  rw [Router.links, Router.links, h.id, h.rows, h.stored]

theorem Writes.keeps (h : Writes router router' node e) (hpacket : e.packet = router.stored node) :
    Keeps router router' :=
  ⟨h.id, h.seqNum, h.rows, h.stored_eq hpacket⟩

theorem graph_self_iff {v : UInt8} {c : ℕ} : graph router.links router.id v c ↔
    ∃ row ∈ router.neighborsTable, row.nodeId = v ∧ row.cost.toNat = c := by
  simp only [graph, Router.links, if_true, List.mem_map]
  constructor
  · rintro ⟨_, ⟨row, hrow, rfl⟩, hid, hcost⟩
    exact ⟨row, hrow, hid, hcost⟩
  · rintro ⟨row, hrow, hid, hcost⟩
    exact ⟨_, ⟨row, hrow, rfl⟩, hid, hcost⟩

theorem Within.links (h : router.Within ids) {u v : UInt8} {c : ℕ} (hlink : graph router.links u v c) :
    v ∈ ids := by
  obtain ⟨link, hmem, rfl, -⟩ := hlink
  rw [Router.links] at hmem
  split at hmem
  case isTrue =>
    obtain ⟨row, hrow, rfl⟩ := List.mem_map.1 hmem
    exact h.rows row hrow
  case isFalse =>
    cases hstored : router.stored u with
    | none =>
        rw [hstored] at hmem
        cases hmem
    | some packet =>
        rw [hstored] at hmem
        exact h.stored u packet hstored link hmem

end Keep

section Lacking

variable {router mid : Router} {L M : List (Link UInt8)} {link : Link UInt8}

theorem Lacking.refl (router : Router) (L : List (Link UInt8)) : router.Lacking L L :=
  fun _ hL hL' hne => absurd (hL'.eq_of_length_le hL.length_le) hne

theorem Lacking.of_concat (h : mid.Lacking (L ++ [link]) M) (hpre : L ++ [link] <+: M)
    (hL : ∃ e ∈ router.destinations, e.destId ∉ L.map Link.dest)
    (hmid : ∀ e ∈ mid.destinations, e.destId ≠ link.dest → e ∈ router.destinations) :
    router.Lacking L M := by
  rintro _ ⟨rest, rfl⟩ hM hne
  cases rest with
  | nil => rwa [List.append_nil]
  | cons next rest =>
      have hlink : L ++ [link] <+: L ++ next :: rest :=
        List.prefix_of_prefix_length_le hpre hM (by simp)
      obtain ⟨e, he, hout⟩ := h _ hlink hM hne
      refine ⟨e, hmid e he fun heq => hout ?_, hout⟩
      rw [heq]
      exact List.mem_map_of_mem (hlink.subset (by simp))

end Lacking

section Loop

variable {ids : Ids} {router router' : Router} {L : List (Link UInt8)} {link : Link UInt8} {x : UInt8}

theorem Grown.dest_mem (h : router.Grown L) (hlink : link ∈ L) :
    link.dest ∈ router.destinations.map RoutingEntry.destId := by
  obtain ⟨e, -, he, -⟩ := h.routed link hlink
  exact List.mem_map.2 ⟨e, entry_mem he, entry_destId he⟩

theorem Grown.subperm (h : router.Grown L) :
    (L.map Link.dest).Subperm (router.destinations.map RoutingEntry.destId) := by
  refine List.subperm_of_subset h.settles.nodup fun x hx => ?_
  obtain ⟨link, hlink, rfl⟩ := List.mem_map.1 hx
  exact h.dest_mem hlink

theorem Grown.length_le (h : router.Grown L) : L.length ≤ router.destinations.length := by
  simpa using h.subperm.length_le

/-- When the tree is as large as the table, it holds all destinations. -/
theorem Grown.mem_of_length_le (h : router.Grown L) (hlength : router.destinations.length ≤ L.length)
    {e : RoutingEntry} (he : router.entry x = some e) : x ∈ L.map Link.dest := by
  have hperm := h.subperm.perm_of_length_le (by simpa using hlength)
  rw [hperm.mem_iff]
  exact List.mem_map.2 ⟨e, entry_mem he, entry_destId he⟩

theorem Grown.exists_notMem (h : router.Grown L) (hlength : L.length < router.destinations.length) :
    ∃ e ∈ router.destinations, e.destId ∉ L.map Link.dest := by
  by_contra hall
  push Not at hall
  have hsub : router.destinations.map RoutingEntry.destId ⊆ L.map Link.dest := by
    intro x hx
    obtain ⟨e, he, rfl⟩ := List.mem_map.1 hx
    exact hall e he
  have hle := (List.subperm_of_subset h.valid.nodup hsub).length_le
  rw [List.length_map, List.length_map] at hle
  omega

theorem Grown.cost_le (h : router.Grown L) {d : ℕ} (hx : At router.id L x d) : d + 255 < 2 ^ 15 := by
  have hle := h.settles.cost_le (fun _ _ _ => graph_cost_le) hx
  have hlength := h.length_le.trans h.valid.length_le
  simp only [maxNumRouters] at hlength
  omega

theorem Grown.at_iff (h : router.Grown L) {d : ℕ} :
    At router.id L x d ↔ x ∈ router.id :: L.map Link.dest ∧ (router.costTo x).toNat = d := by
  have hcost : ∀ link ∈ L, (router.costTo link.dest).toNat = link.cost := by
    intro link hlink
    obtain ⟨e, -, he, hcost, -⟩ := h.routed link hlink
    rw [costTo, if_neg (h.settles.dest_ne hlink), he, Option.map_some, Option.getD_some, hcost,
      Int.toNat_natCast]
  constructor
  · rintro (⟨rfl, rfl⟩ | ⟨link, hlink, rfl, rfl⟩)
    · exact ⟨List.mem_cons_self, by rw [costTo, if_pos rfl]; rfl⟩
    · exact ⟨List.mem_cons_of_mem _ (List.mem_map_of_mem hlink), hcost link hlink⟩
  · rintro ⟨hx, rfl⟩
    rcases List.mem_cons.1 hx with rfl | hx
    · exact Or.inl ⟨rfl, by rw [costTo, if_pos rfl]; rfl⟩
    · obtain ⟨link, hlink, rfl⟩ := List.mem_map.1 hx
      exact Or.inr ⟨link, hlink, rfl, (hcost link hlink).symm⟩

theorem Grown.frontier_iff (h : router.Grown L) :
    Frontier (graph router.links) router.id L link ↔
      link ∈ (router.id :: L.map Link.dest).flatMap
        (router.candidates (router.id :: L.map Link.dest)) := by
  simp only [List.mem_flatMap, mem_candidates, Frontier, h.at_iff]
  constructor
  · rintro ⟨⟨_, c, ⟨hsrc, rfl⟩, hlink, hcost⟩, hout⟩
    exact ⟨link.src, hsrc, rfl, fun hdest => hout _ ⟨hdest, rfl⟩, c, hlink, hcost⟩
  · rintro ⟨_, hsrc, rfl, hout, c, hlink, hcost⟩
    exact ⟨⟨_, c, ⟨hsrc, rfl⟩, hlink, hcost⟩, fun _ hdest => hout hdest.1⟩

theorem Grown.scan (h : router.Grown L) : ∃ best, router.scan (router.id :: L.map Link.dest) =
    some (.encode best) ∧
    (best = none → ∀ link, ¬ Frontier (graph router.links) router.id L link) ∧
    ∀ link, best = some link → Frontier (graph router.links) router.id L link ∧
      ∀ other, Frontier (graph router.links) router.id L other → key link ≤ key other := by
  refine ⟨_, scan_eq h.valid fun node hnode => ?_, ?_, ?_⟩
  · rcases List.mem_cons.1 hnode with hid | hnode
    · exact Or.inl hid
    · obtain ⟨link, hlink, rfl⟩ := List.mem_map.1 hnode
      obtain ⟨e, -, he, hcost, -⟩ := h.routed link hlink
      exact Or.inr ⟨e, link.cost, he, hcost, h.cost_le (Or.inr ⟨link, hlink, rfl, rfl⟩)⟩
  · intro hnone link hlink
    rw [h.frontier_iff, List.argmin_eq_none.1 hnone] at hlink
    cases hlink
  · intro link hlink
    refine ⟨h.frontier_iff.2 (List.argmin_mem hlink), fun other hother => ?_⟩
    exact List.le_of_mem_argmin (h.frontier_iff.1 hother) hlink

theorem getNeighborIdx_eq {idx : UInt8} (hrows : router.neighborsTable.length ≤ maxNumRouters)
    (h : router.getNeighborIdx x = some idx) :
    ∃ row, router.neighborsTable[idx.toNat]? = some row ∧ row.nodeId = x := by
  rw [getNeighborIdx, Option.map_eq_some_iff] at h
  obtain ⟨i, hi, rfl⟩ := h
  obtain ⟨hlt, hrow, -⟩ := List.findIdx?_eq_some_iff_getElem.1 hi
  simp only [maxNumRouters] at hrows
  rw [UInt8.toNat_ofNat_of_lt' (by simp only [UInt8.size]; omega), List.getElem?_eq_getElem hlt]
  exact ⟨_, rfl, of_decide_eq_true hrow⟩

theorem exists_getNeighborIdx (h : ∃ row ∈ router.neighborsTable, row.nodeId = x) :
    ∃ idx, router.getNeighborIdx x = some idx := by
  obtain ⟨row, hrow, hid⟩ := h
  have hsome : (router.neighborsTable.findIdx? fun row => row.nodeId = x).isSome := by
    rw [List.findIdx?_isSome, List.any_eq_true]
    exact ⟨row, hrow, decide_eq_true hid⟩
  obtain ⟨i, hi⟩ := Option.isSome_iff_exists.1 hsome
  exact ⟨UInt8.ofNat i, by rw [getNeighborIdx, hi, Option.map_some]⟩

/-- The entry that the loop writes to: the one that is there, or a new one without a packet. -/
theorem Valid.findOrAppend (h : router.Valid) (hself : x ≠ router.id) {i : Nat}
    (hfind : router.findOrAppend x = some (i, router')) :
    router'.Valid ∧ router'.indexOf x = some i ∧ (router' = router ∨
      router.entry x = none ∧ Writes router router' x ⟨x, 0, 0, none⟩) := by
  rw [Router.findOrAppend] at hfind
  by_cases hlt : x.toNat < 255
  · rw [h.getRoutingEntryForNode hlt] at hfind
    cases hidx : router.indexOf x with
    | none =>
        simp only [hidx, Option.map_eq_some_iff, Prod.mk.injEq] at hfind
        obtain ⟨_, happend, rfl, rfl⟩ := hfind
        have hnone := entry_eq_none.2 hidx
        obtain ⟨hwrites, hnew⟩ := h.appendEntry (e := ⟨x, 0, 0, none⟩) hnone hself happend
        exact ⟨hwrites.valid, hnew, Or.inr ⟨hnone, hwrites⟩⟩
    | some j =>
        simp only [hidx, Option.some.injEq, Prod.mk.injEq] at hfind
        obtain ⟨rfl, rfl⟩ := hfind
        exact ⟨h, hidx, Or.inl rfl⟩
  · rw [getRoutingEntryForNode_eq_none hlt] at hfind
    cases hfind

theorem Valid.findOrAppend_frame (h : router.Valid) (hself : x ≠ router.id) {i : Nat}
    (hfind : router.findOrAppend x = some (i, router')) :
    router'.id = router.id ∧ router'.neighborsTable = router.neighborsTable ∧
      ∀ y, y ≠ x → router'.entry y = router.entry y := by
  rcases (h.findOrAppend hself hfind).2.2 with rfl | ⟨-, hw⟩
  · exact ⟨rfl, rfl, fun _ _ => rfl⟩
  · exact ⟨hw.id, hw.rows, fun _ hy => hw.entry_of_ne hy⟩

theorem Valid.findOrAppend_isSome (h : router.Valid) (hself : x ≠ router.id) :
    (router.findOrAppend x).isSome ↔ router.HasPlace x := by
  rw [Router.findOrAppend]
  by_cases hlt : x.toNat < 255
  · rw [h.getRoutingEntryForNode hlt]
    cases hidx : router.indexOf x with
    | none =>
        simp only [Option.isSome_map]
        exact h.appendEntry_isSome (e := ⟨x, 0, 0, none⟩) (entry_eq_none.2 hidx) hself
    | some i =>
        obtain ⟨e, -, hentry⟩ := exists_entry hidx
        exact iff_of_true rfl (hasPlace_of_entry hentry hlt)
  · rw [getRoutingEntryForNode_eq_none hlt]
    exact iff_of_false Bool.false_ne_true fun hplace => hlt hplace.1

theorem Grown.settle (h : router.Grown L)
    (hlink : Frontier (graph router.links) router.id L link)
    (hsettle : router.settle (.encode (some link)) = some router') :
    ∃ e row, Writes router router' link.dest e ∧ e.packet = router.stored link.dest ∧
      e.cost = link.cost ∧ router.neighborsTable[e.gatewayIdx.toNat]? = some row ∧
      Via router.id (L ++ [link]) link.dest row.nodeId := by
  have hself := hlink.dest_ne
  simp only [Router.settle, LsLink.encode, Option.bind_eq_some_iff, Option.map_eq_some_iff,
    Prod.exists] at hsettle
  obtain ⟨i, mid, hfind, gatewayIdx, hgateway, old, hold, rfl⟩ := hsettle
  obtain ⟨hvalid, hidx, hmid⟩ := h.valid.findOrAppend hself hfind
  have hentry : mid.entry link.dest = some old := getElem_indexOf hidx ▸ hold
  have hwrites := hvalid.setEntry (e := { old with gatewayIdx := gatewayIdx, cost := link.cost })
    hidx (entry_destId (e := old) hentry)
  have hmem : link ∈ L ++ [link] := by simp
  -- the first hop is read from the row of the neighbor, or from the entry of the link's source
  have hrow : ∃ row, router.neighborsTable[gatewayIdx.toNat]? = some row ∧
      Via router.id (L ++ [link]) link.dest row.nodeId := by
    obtain ⟨hmidid, hmidrows, hother⟩ := h.valid.findOrAppend_frame hself hfind
    have hmidsrc := hother link.src hlink.src_ne_dest
    rw [getGatewayIdx] at hgateway
    simp only [hmidid] at hgateway
    by_cases hsrc : link.src = router.id
    · rw [if_pos hsrc] at hgateway
      obtain ⟨row, hget, hid⟩ := getNeighborIdx_eq (hmidrows ▸ h.valid.rows_le) hgateway
      exact ⟨row, hmidrows ▸ hget, hid ▸ .direct hmem hsrc⟩
    · rw [if_neg hsrc, hvalid.routingEntry, hmidsrc, Option.map_eq_some_iff] at hgateway
      obtain ⟨e, he, rfl⟩ := hgateway
      obtain ⟨d, -, hat, -⟩ := hlink.1
      obtain ⟨l, hl, hdest, -⟩ := hat.resolve_left fun hroot => hsrc hroot.1
      obtain ⟨e', row, he', -, hget, hvia⟩ := h.routed l hl
      rw [hdest, he] at he'
      cases he'
      rw [hdest] at hvia
      exact ⟨row, hget, .through hmem hsrc (hvia.mono (List.subset_append_left _ _))⟩
  obtain ⟨row, hget, hvia⟩ := hrow
  refine ⟨{ old with gatewayIdx := gatewayIdx, cost := link.cost }, row, ?_, ?_, rfl, hget, hvia⟩
  · rcases hmid with rfl | ⟨-, hw⟩
    · exact hwrites
    · exact hw.trans hwrites
  · rcases hmid with rfl | ⟨hnone, hw⟩
    · exact (stored_eq hentry).symm
    · rw [hw.entry_self] at hentry
      cases hentry
      exact (stored_eq_none hnone).symm

/-- A link out of the tree is settled without a fault exactly if there is a place for its end. -/
theorem Grown.settle_isSome (h : router.Grown L)
    (hlink : Frontier (graph router.links) router.id L link) :
    (router.settle (.encode (some link))).isSome ↔ router.HasPlace link.dest := by
  have hself := hlink.dest_ne
  obtain ⟨d, c, hat, hedge, -⟩ := hlink.1
  rw [← h.valid.findOrAppend_isSome hself]
  constructor
  · intro hsome
    obtain ⟨router', hsettle⟩ := Option.isSome_iff_exists.1 hsome
    obtain ⟨found, hfind, -⟩ := Option.bind_eq_some_iff.1 hsettle
    exact Option.isSome_iff_exists.2 ⟨found, hfind⟩
  · intro hsome
    obtain ⟨⟨i, mid⟩, hfind⟩ := Option.isSome_iff_exists.1 hsome
    obtain ⟨hvalid, hidx, -⟩ := h.valid.findOrAppend hself hfind
    obtain ⟨old, hold, -⟩ := exists_entry hidx
    have hgateway : ∃ gatewayIdx, mid.getGatewayIdx (.encode (some link)) = some gatewayIdx := by
      obtain ⟨hmidid, hmidrows, hother⟩ := h.valid.findOrAppend_frame hself hfind
      have hmidsrc := hother link.src hlink.src_ne_dest
      simp only [getGatewayIdx, LsLink.encode, hmidid]
      by_cases hsrc : link.src = router.id
      · rw [if_pos hsrc]
        obtain ⟨l, hl, hdest, -⟩ := hedge
        rw [links, if_pos hsrc] at hl
        obtain ⟨row, hrow, rfl⟩ := List.mem_map.1 hl
        exact exists_getNeighborIdx ⟨row, hmidrows ▸ hrow, hdest⟩
      · rw [if_neg hsrc, hvalid.routingEntry, hmidsrc]
        obtain ⟨l, hl, hdest, -⟩ := hat.resolve_left fun hroot => hsrc hroot.1
        obtain ⟨e, -, he, -⟩ := h.routed l hl
        exact ⟨e.gatewayIdx, by rw [← hdest, he, Option.map_some]⟩
    obtain ⟨gatewayIdx, hgateway⟩ := hgateway
    have hfind' : router.findOrAppend (LsLink.encode (some link)).dest = some (i, mid) := hfind
    rw [Router.settle, hfind']
    simp only [Option.bind_some, hgateway, hold, Option.map_some, Option.isSome_some]

theorem Grown.settle_within (h : router.Grown L) (hids : router.Within ids)
    (hlink : Frontier (graph router.links) router.id L link)
    (hsettle : router.settle (.encode (some link)) = some router') : router'.Within ids := by
  obtain ⟨e, row, hwrites, hpacket, -, -, -⟩ := h.settle hlink hsettle
  obtain ⟨-, c, -, hedge, -⟩ := hlink.1
  exact hids.writes hwrites (hids.links hedge) fun packet hp =>
    hids.stored link.dest packet (hpacket ▸ hp)

theorem Grown.step (h : router.Grown L)
    (hlink : Frontier (graph router.links) router.id L link)
    (hleast : ∀ other, Frontier (graph router.links) router.id L other → key link ≤ key other)
    (hsettle : router.settle (.encode (some link)) = some router') :
    router'.Grown (L ++ [link]) ∧ Keeps router router' ∧
      ∀ x, x ≠ link.dest → router'.entry x = router.entry x := by
  obtain ⟨e, row, hwrites, hpacket, hcost, hget, hvia⟩ := h.settle hlink hsettle
  have hkeeps := hwrites.keeps hpacket
  refine ⟨⟨hwrites.valid, ?_, ?_⟩, hkeeps, fun x hx => hwrites.entry_of_ne hx⟩
  · rw [hkeeps.links, hkeeps.id]
    exact h.settles.snoc hlink hleast
  · intro l hl
    rw [hkeeps.rows, hkeeps.id]
    rcases List.mem_append.1 hl with hl | hl
    · obtain ⟨e', row', he', hcost', hget', hvia'⟩ := h.routed l hl
      have hne : l.dest ≠ link.dest := fun heq => hlink.2 l.cost (Or.inr ⟨l, hl, heq, rfl⟩)
      exact ⟨e', row', (hwrites.entry_of_ne hne).trans he', hcost', hget',
        hvia'.mono (List.subset_append_left _ _)⟩
    · rw [List.mem_singleton.1 hl]
      exact ⟨e, row, hwrites.entry_self, hcost, hget, hvia⟩

/-- How the loop goes on from a tree: it ends, or it adds the least link out of the tree. -/
theorem Grown.compute_cases (h : router.Grown L) :
    (router.Ended L ∧ ∀ room, compute room router (router.id :: L.map Link.dest) = some router) ∨
    ∃ link, Frontier (graph router.links) router.id L link ∧
      (∀ other, Frontier (graph router.links) router.id L other → key link ≤ key other) ∧
      L.length < router.destinations.length ∧
      compute 0 router (router.id :: L.map Link.dest) = none ∧
      ∀ room, compute (room + 1) router (router.id :: L.map Link.dest) =
        (router.settle (.encode (some link))).bind fun router' =>
          compute room router' (router.id :: (L ++ [link]).map Link.dest) := by
  have hunfold : ∀ room, compute room router (router.id :: L.map Link.dest) = _ :=
    fun room => Router.compute.eq_def room router _
  by_cases hlength : L.length < router.destinations.length
  · have hle : (router.id :: L.map Link.dest).length ≤ router.destinations.length := by
      rwa [List.length_cons, List.length_map]
    obtain ⟨best, hscan, hnone, hsome⟩ := h.scan
    simp only [hle, if_true, hscan, Option.bind_some] at hunfold
    cases best with
    | none =>
        refine Or.inl ⟨Or.inl (hnone rfl), fun room => ?_⟩
        rw [hunfold room]
        exact if_pos rfl
    | some link =>
        have hcost := LsLink.encode_cost_ne link
        obtain ⟨hlink, hleast⟩ := hsome link rfl
        refine Or.inr ⟨link, hlink, hleast, hlength, ?_, fun room => ?_⟩
        · rw [hunfold 0, if_neg hcost]
        · rw [hunfold (room + 1), if_neg hcost, List.map_append, List.map_singleton]
          rfl
  · refine Or.inl ⟨Or.inr fun x e he => h.mem_of_length_le (Nat.le_of_not_lt hlength) he,
      fun room => ?_⟩
    rw [hunfold room]
    apply if_neg
    rwa [List.length_cons, List.length_map]

theorem Grown.compute {room : Nat} (h : router.Grown L)
    (hcompute : compute room router (router.id :: L.map Link.dest) = some router') :
    ∃ M, router'.Grown M ∧ router'.Ended M ∧ Keeps router router' ∧ L <+: M ∧ router.Lacking L M ∧
      ∀ x, x ∉ M.map Link.dest → router'.entry x = router.entry x := by
  induction room generalizing router L with
  | zero =>
      rcases h.compute_cases with ⟨hend, hroom⟩ | ⟨-, -, -, -, hroom, -⟩
      · rw [hroom] at hcompute
        cases hcompute
        exact ⟨L, h, hend, .refl _, List.prefix_refl _, .refl _ _, fun _ _ => rfl⟩
      · rw [hroom] at hcompute
        cases hcompute
  | succ room ih =>
      rcases h.compute_cases with ⟨hend, hroom⟩ | ⟨link, hlink, hleast, hlength, -, hroom⟩
      · rw [hroom] at hcompute
        cases hcompute
        exact ⟨L, h, hend, .refl _, List.prefix_refl _, .refl _ _, fun _ _ => rfl⟩
      · rw [hroom, Option.bind_eq_some_iff] at hcompute
        obtain ⟨mid, hsettle, hcompute⟩ := hcompute
        obtain ⟨hmid, hkeeps, hother⟩ := h.step hlink hleast hsettle
        rw [← hkeeps.id] at hcompute
        obtain ⟨M, hM, hend, hkeeps', hpre, hlacking, hother'⟩ := ih hmid hcompute
        have hmem : link ∈ M := hpre.subset (by simp)
        refine ⟨M, hM, hend, hkeeps.trans hkeeps', (List.prefix_append _ _).trans hpre,
          hlacking.of_concat hpre (h.exists_notMem hlength) fun e he hne => ?_,
          fun x hx => (hother' x hx).trans (hother x fun heq => hx ?_)⟩
        · have hentry := hmid.valid.entry_of_mem he
          rw [hother _ hne] at hentry
          exact entry_mem hentry
        · rw [heq]
          exact List.mem_map_of_mem hmem

theorem Grown.walk (h : router.Grown L) (hx : x ∈ L.map Link.dest) :
    ∃ c, Walk (graph router.links) router.id x c := by
  obtain ⟨link, hlink, rfl⟩ := List.mem_map.1 hx
  exact ⟨link.cost, (h.settles.isDist (fun _ _ => key_cost) (Or.inr ⟨link, hlink, rfl, rfl⟩)).1⟩

theorem Grown.mem_of_walk (h : router.Grown L) (hend : router.Ended L) {e : RoutingEntry}
    (he : router.entry x = some e) {c : ℕ} (hwalk : Walk (graph router.links) router.id x c) :
    x ∈ L.map Link.dest := by
  rcases hend with hend | hend
  · obtain ⟨d, hroot | ⟨link, hlink, rfl, -⟩⟩ := h.settles.complete (fun _ _ => key_cost) hend hwalk
    · exact absurd hroot.1 (h.valid.ne_of_entry he)
    · exact List.mem_map_of_mem hlink
  · exact hend x e he

end Loop

end Router

end NetworkSystems.LinkState
