import NetworkSystems.LinkState.Completeness

/-!
# Which nodes have an entry

A router processes one packet of each of some origins. An origin has an entry from its packet on. Other
nodes get one when a computation settles them, and it goes on settling nodes as long as one that has an
entry is missing. So the nodes with an entry depend on the order of the packets, and with them the place
where the last computation stops.
-/

namespace NetworkSystems.LinkState

/-- The links that the rows of a router and the packets of the others announce. -/
def Announced (id : UInt8) (rows : List Neighbor) (packets : List LsPacket) (u v : UInt8) (c : ℕ) : Prop :=
  (u = id ∧ ∃ row ∈ rows, row.nodeId = v ∧ row.cost.toNat = c) ∨
    ∃ packet ∈ packets, packet.origin = u ∧ ∃ link ∈ packet.entries, link.destId = v ∧ link.cost.toNat = c

/-- A node that can be reached over these links. -/
def Reachable (id : UInt8) (rows : List Neighbor) (packets : List LsPacket) (x : UInt8) : Prop :=
  ∃ c, Walk (Announced id rows packets) id x c

/-- The nodes that have an entry after the packets, the last of which comes first in the list: its origin,
those that had one before, and what the search over the links announced so far settles before it has
settled all of these. -/
def Entered (id : UInt8) (rows : List Neighbor) : List LsPacket → UInt8 → Prop
  | [], _ => False
  | packet :: earlier, x =>
      (x = packet.origin ∨ Entered id rows earlier x) ∨
        ∃ L link, Settles (Announced id rows (packet :: earlier)) key id (L ++ [link]) ∧ link.dest = x ∧
          ∃ y, (y = packet.origin ∨ Entered id rows earlier y) ∧ y ∉ L.map Link.dest

/-- The nodes that have an entry when the last computation begins. -/
def Awaited (id : UInt8) (rows : List Neighbor) : List LsPacket → UInt8 → Prop
  | [], _ => False
  | packet :: earlier, x => x = packet.origin ∨ Entered id rows earlier x

/-- No packet without a number comes when its origin has an entry. -/
def Counting (id : UInt8) (rows : List Neighbor) : List LsPacket → Prop
  | [] => True
  | packet :: earlier => (packet.seqNum = 0 → ¬ Entered id rows earlier packet.origin) ∧
      Counting id rows earlier

/-- Packets of distinct other routers, with ids of the network. -/
structure Apart (ids : Ids) (id : UInt8) (packets : List LsPacket) : Prop where
  nodup : (packets.map LsPacket.origin).Nodup
  ne : ∀ packet ∈ packets, packet.origin ≠ id
  within : ∀ packet ∈ packets, packet.Within ids

structure Distinct (ids : Ids) (id : UInt8) (packets : List LsPacket) : Prop extends Apart ids id packets where
  seqNum : ∀ packet ∈ packets, packet.seqNum ≠ 0

section Announced

variable {ids : Ids} {id : UInt8} {rows : List Neighbor} {packets packets' : List LsPacket} {u v x : UInt8} {c : ℕ}

theorem Announced.mono (hsub : packets ⊆ packets') (h : Announced id rows packets u v c) :
    Announced id rows packets' u v c :=
  h.imp_right fun ⟨packet, hmem, hlink⟩ => ⟨packet, hsub hmem, hlink⟩

theorem announced_of_perm (hperm : packets.Perm packets') :
    Announced id rows packets = Announced id rows packets' := by
  funext u v c
  exact propext ⟨.mono hperm.subset, .mono hperm.symm.subset⟩

theorem Apart.perm (h : Apart ids id packets) (hperm : packets.Perm packets') : Apart ids id packets' :=
  ⟨(hperm.map _).nodup_iff.1 h.nodup, fun p hp => h.ne p (hperm.mem_iff.2 hp),
    fun p hp => h.within p (hperm.mem_iff.2 hp)⟩

theorem Entered.origin_or_reachable (h : Entered id rows packets x) :
    (∃ packet ∈ packets, packet.origin = x) ∨ Reachable id rows packets x := by
  induction packets with
  | nil => exact h.elim
  | cons packet earlier ih =>
      rcases h with (rfl | h) | ⟨L, link, hL, rfl, -⟩
      · exact Or.inl ⟨packet, List.mem_cons_self, rfl⟩
      · refine (ih h).imp (fun ⟨p, hp, horigin⟩ => ⟨p, List.mem_cons_of_mem _ hp, horigin⟩) fun ⟨c, hwalk⟩ => ?_
        exact ⟨c, hwalk.mono fun _ _ _ => .mono (List.subset_cons_self _ _)⟩
      · obtain ⟨hL, hlink, -⟩ := Settles.concat_iff.1 hL
        exact Or.inr ⟨_, hL.walk_frontier (fun _ _ => key_cost) hlink⟩

theorem Entered.ne (h : Entered id rows packets x) (hself : ∀ packet ∈ packets, packet.origin ≠ id) :
    x ≠ id := by
  induction packets with
  | nil => exact h.elim
  | cons packet earlier ih =>
      obtain ⟨hpacket, hearlier⟩ := List.forall_mem_cons.1 hself
      rcases h with (rfl | h) | ⟨L, link, hL, rfl, -⟩
      · exact hpacket
      · exact ih h hearlier
      · exact (Settles.concat_iff.1 hL).2.1.dest_ne

theorem Awaited.entered (h : Awaited id rows packets x) : Entered id rows packets x := by
  cases packets with
  | nil => exact h
  | cons packet earlier => exact Or.inl h

theorem awaited_of_mem {packet : LsPacket} (hmem : packet ∈ packets) : Awaited id rows packets packet.origin := by
  have hentered : ∀ {packets : List LsPacket}, packet ∈ packets → Entered id rows packets packet.origin := by
    intro packets hmem
    induction packets with
    | nil => cases hmem
    | cons p earlier ih =>
        rcases List.mem_cons.1 hmem with rfl | hmem
        · exact Or.inl (Or.inl rfl)
        · exact Or.inl (Or.inr (ih hmem))
  cases packets with
  | nil => cases hmem
  | cons p earlier =>
      rcases List.mem_cons.1 hmem with rfl | hmem
      · exact Or.inl rfl
      · exact Or.inr (hentered hmem)

theorem counting_of_seqNum (h : ∀ packet ∈ packets, packet.seqNum ≠ 0) : Counting id rows packets := by
  induction packets with
  | nil => trivial
  | cons packet earlier ih =>
      obtain ⟨hpacket, hearlier⟩ := List.forall_mem_cons.1 h
      exact ⟨fun hzero => absurd hzero hpacket, ih hearlier⟩

end Announced

namespace Router

/-- The forwarding table: cost and gateway node of each destination whose cost is not -1. -/
def forwarding (router : Router) (x : UInt8) : Option (Int × Option UInt8) :=
  (router.entry x).bind fun e =>
    if e.cost = -1 then none
    else some (e.cost, (router.neighborsTable[e.gatewayIdx.toNat]?).map Neighbor.nodeId)

/-- The routes of the table are those of a tree that has grown on the links announced. -/
structure Routed (rows : List Neighbor) (packets : List LsPacket) (router : Router)
    (L : List (Link UInt8)) : Prop where
  grown : router.Grown L
  ended : router.Ended L
  rows : router.neighborsTable = rows
  stored : ∀ x packet, router.stored x = some packet ↔ packet ∈ packets ∧ packet.origin = x
  fresh : ∀ x e, router.entry x = some e → e.cost ≠ -1 → x ∈ L.map Link.dest

/-- The packets came in this order, the last one first: the entries are those of the order, and the tree
has not grown beyond what the last computation waited for. -/
structure Ordered (neighbors : List Neighbor) (order : List LsPacket) (router : Router)
    (L : List (Link UInt8)) : Prop extends Routed neighbors order router L where
  entered : ∀ x, router.entry x ≠ none ↔ Entered router.id neighbors order x
  least : ∀ K, K <+: L → K ≠ L → ∃ y, Awaited router.id neighbors order y ∧ y ∉ K.map Link.dest

section Routed

variable {ids : Ids} {id : UInt8} {rows : List Neighbor} {packets order : List LsPacket}
  {router router' : Router} {packet : LsPacket} {L M : List (Link UInt8)} {x : UInt8}

theorem Routed.graph_iff (h : router.Routed rows packets L)
    (hself : ∀ packet ∈ packets, packet.origin ≠ router.id) :
    graph router.links = Announced router.id rows packets := by
  funext u v c
  apply propext
  rw [graph, links, Announced]
  by_cases hu : u = router.id
  · have hno : ¬ ∃ packet ∈ packets, packet.origin = u ∧
        ∃ link ∈ packet.entries, link.destId = v ∧ link.cost.toNat = c := by
      rintro ⟨packet, hmem, horigin, -⟩
      exact hself packet hmem (horigin.trans hu)
    rw [if_pos hu, h.rows, or_iff_left hno, and_iff_right hu]
    simp only [List.mem_map, exists_exists_and_eq_and]
  · rw [if_neg hu, or_iff_right fun hl => hu hl.1]
    constructor
    · rintro ⟨link, hlink, hdest⟩
      cases hstored : router.stored u with
      | none =>
          rw [hstored] at hlink
          cases hlink
      | some packet =>
          rw [hstored] at hlink
          obtain ⟨hmem, horigin⟩ := (h.stored u packet).1 hstored
          exact ⟨packet, hmem, horigin, link, hlink, hdest⟩
    · rintro ⟨packet, hmem, horigin, link, hlink, hdest⟩
      rw [(h.stored u packet).2 ⟨hmem, horigin⟩]
      exact ⟨link, hlink, hdest⟩

theorem ordered_parsed (hrows : rows.length ≤ maxNumRouters) : Ordered rows [] (parsed id rows) [] where
  grown := (parsed_valid hrows).grown_nil
  ended := Or.inr nofun
  rows := rfl
  stored _ _ := ⟨nofun, nofun⟩
  fresh := nofun
  entered _ := ⟨fun h => absurd rfl h, False.elim⟩
  least _ hK hne := absurd (List.prefix_nil.1 hK) hne

/-- The step: a packet of a new origin, which counts, is stored, and the tree grows anew until it has all
nodes that have an entry. -/
theorem Routed.update (h : router.Routed rows packets L)
    (hself : ∀ p ∈ packet :: packets, p.origin ≠ router.id)
    (hcounts : packet.seqNum ≠ 0 ∨ router.entry packet.origin = none)
    (hnew : ∀ p ∈ packets, p.origin ≠ packet.origin) {b : Bool}
    (hupdate : router.updateRoutingTable packet = some (b, router')) :
    ∃ M, router'.Routed rows (packet :: packets) M ∧ router'.id = router.id ∧
      (∀ K : List (Link UInt8), K <+: M → K ≠ M →
        ∃ y, (y = packet.origin ∨ router.entry y ≠ none) ∧ y ∉ K.map Link.dest) ∧
      ∀ x, router'.entry x ≠ none ↔
        (x = packet.origin ∨ router.entry x ≠ none) ∨ x ∈ M.map Link.dest := by
  have hpacket : packet.origin ≠ router.id := hself packet List.mem_cons_self
  have hnone : router.stored packet.origin = none := by
    rw [Option.eq_none_iff_forall_ne_some]
    intro p hp
    obtain ⟨hmem, horigin⟩ := (h.stored _ p).1 hp
    exact hnew p hmem horigin
  have hvalid := h.grown.valid
  rcases hvalid.update_cases hupdate with
    ⟨-, hstore⟩ | ⟨mid, M, -, hstore, hkeeps, hM, hend, hlacking, hother⟩
  · cases (hvalid.store_first hpacket hnone hcounts hstore).1
  · obtain ⟨hmidvalid, hid, -, hrows⟩ := hvalid.store hstore
    obtain ⟨-, horigin, hsame, hcosted⟩ := hvalid.store_true hstore
    have hmid : ∀ x, mid.entry x ≠ none ↔ x = packet.origin ∨ router.entry x ≠ none := by
      intro x
      by_cases hx : x = packet.origin
      · exact ⟨fun _ => Or.inl hx, fun _ => hx ▸ horigin⟩
      · rw [hsame x hx, or_iff_right hx]
    have hstored : ∀ x p, router'.stored x = some p ↔ p ∈ packet :: packets ∧ p.origin = x := by
      intro x p
      rw [hkeeps.stored, List.mem_cons]
      by_cases hx : x = packet.origin
      · rw [hx, (hvalid.store_first hpacket hnone hcounts hstore).2, Option.some.injEq]
        constructor
        · rintro rfl
          exact ⟨Or.inl rfl, rfl⟩
        · rintro ⟨rfl | hmem, horigin⟩
          · rfl
          · exact absurd horigin (hnew p hmem)
      · rw [hvalid.store_of_ne hx hstore, h.stored, or_and_right, or_iff_right]
        rintro ⟨rfl, heq⟩
        exact hx heq.symm
    refine ⟨M, ⟨hM, hend, hkeeps.rows.trans (hrows.trans h.rows), hstored, fun x e he hcost => ?_⟩,
      hkeeps.id.trans hid, fun K hK hne => ?_, fun x => ?_⟩
    · by_contra hx
      -- a cost that is left from before is that of a node which can be reached
      have hold : x ∈ L.map Link.dest := by
        have hmid : mid.Costed x := hmidvalid.costed_iff.2 ⟨e, hother x hx ▸ he, hcost⟩
        obtain ⟨e', he', hcost'⟩ := hvalid.costed_iff.1 ((hcosted x).1 hmid)
        exact h.fresh x e' he' hcost'
      obtain ⟨c, hwalk⟩ := h.grown.walk hold
      have hmono : ∀ u v c, graph router.links u v c → graph router'.links u v c := by
        rintro u v c ⟨link, hlink, hdest⟩
        refine ⟨link, ?_, hdest⟩
        rw [hkeeps.links]
        rw [links] at hlink ⊢
        rw [hid, hrows]
        by_cases hu : u = packet.origin
        · rw [hu, if_neg hpacket, hnone] at hlink
          cases hlink
        · rwa [hvalid.store_of_ne hu hstore]
      have hwalk' := hwalk.mono hmono
      rw [← hid, ← hkeeps.id] at hwalk'
      exact hx (hM.mem_of_walk hend he hwalk')
    · obtain ⟨e, he, hout⟩ := hlacking K List.nil_prefix hK hne
      exact ⟨e.destId, (hmid _).1 (by rw [hmidvalid.entry_of_mem he]; exact Option.some_ne_none e), hout⟩
    · rw [← hmid x]
      by_cases hx : x ∈ M.map Link.dest
      · obtain ⟨link, hlink, rfl⟩ := List.mem_map.1 hx
        obtain ⟨e, -, he, -⟩ := hM.routed link hlink
        exact ⟨fun _ => Or.inr hx, fun _ => he ▸ Option.some_ne_none e⟩
      · rw [hother x hx, or_iff_left hx]

/-- The last computation has settled all that it waited for, or all that can be reached. -/
theorem Ordered.covers (h : router.Ordered rows order L) (hself : ∀ p ∈ order, p.origin ≠ router.id) :
    (∀ link, ¬ Frontier (Announced router.id rows order) router.id L link) ∨
      ∀ y, Awaited router.id rows order y → y ∈ L.map Link.dest := by
  rw [← h.graph_iff hself]
  refine h.ended.imp_right fun hall y hy => ?_
  obtain ⟨e, he⟩ := Option.ne_none_iff_exists'.1 ((h.entered y).2 hy.entered)
  exact hall y e he

theorem Ordered.update (h : router.Ordered rows order L)
    (hself : ∀ p ∈ packet :: order, p.origin ≠ router.id)
    (hcounts : packet.seqNum = 0 → ¬ Entered router.id rows order packet.origin)
    (hnew : ∀ p ∈ order, p.origin ≠ packet.origin) {b : Bool}
    (hupdate : router.updateRoutingTable packet = some (b, router')) :
    ∃ M, router'.Ordered rows (packet :: order) M := by
  have hseq : packet.seqNum ≠ 0 ∨ router.entry packet.origin = none := by
    rw [or_iff_not_imp_left, not_not]
    exact fun hzero => not_not.1 fun hentry => hcounts hzero ((h.entered _).1 hentry)
  obtain ⟨M, hM, hid, hleast, hentry⟩ := h.toRouted.update hself hseq hnew hupdate
  have hself' : ∀ p ∈ packet :: order, p.origin ≠ router'.id := hid ▸ hself
  simp only [h.entered] at hleast hentry
  have hsettles := hM.grown.settles
  have hended := hM.ended
  rw [Ended] at hended
  rw [hM.graph_iff hself', hid] at hsettles hended
  refine ⟨M, hM, fun x => ?_, by rwa [hid]⟩
  rw [hid, hentry x]
  refine or_congr_right ⟨fun hx => ?_, ?_⟩
  · obtain ⟨link, hlink, rfl⟩ := List.mem_map.1 hx
    obtain ⟨K, rest, rfl⟩ := List.append_of_mem hlink
    have hpre : K ++ [link] <+: K ++ link :: rest := ⟨rest, by rw [List.append_assoc]; rfl⟩
    obtain ⟨y, hy, hout⟩ := hleast K (List.prefix_append _ _) fun heq => by simp at heq
    obtain ⟨rest', heq⟩ := hpre
    exact ⟨K, link, (heq ▸ hsettles).of_append, rfl, y, hy, hout⟩
  · rintro ⟨K, link, hK, rfl, y, hy, hout⟩
    refine List.mem_map_of_mem (hsettles.mem_of_concat key_injective
      (A := fun y => y = packet.origin ∨ Entered router.id rows order y)
      (hended.imp_right fun hall y hy => ?_) hK hy hout)
    obtain ⟨e, he⟩ := Option.ne_none_iff_exists'.1 ((hentry y).2 (Or.inl hy))
    exact hall y e he

/-- The run lemma, for packets that count in this order. -/
theorem exists_ordered (hid : id ∈ ids) (hids : ∀ row ∈ rows, row.nodeId ∈ ids)
    (hrows : rows.length ≤ maxNumRouters) (horder : Apart ids id order) (hcounts : Counting id rows order) :
    ∃ router L, updating.run (parsed id rows) order.reverse = some router ∧ router.id = id ∧
      router.Ordered rows order L := by
  induction order with
  | nil => exact ⟨_, [], rfl, rfl, ordered_parsed hrows⟩
  | cons packet order ih =>
      have hnodup := horder.nodup
      rw [List.map_cons, List.nodup_cons] at hnodup
      obtain ⟨router, L, hrun, rfl, hordered⟩ := ih ⟨hnodup.2, fun p hp => horder.ne p (List.mem_cons_of_mem _ hp),
        fun p hp => horder.within p (List.mem_cons_of_mem _ hp)⟩ hcounts.2
      have hwithin : ∀ p ∈ (packet :: order).reverse, p.Within ids :=
        fun p hp => horder.within p (List.mem_reverse.1 hp)
      obtain ⟨router', hrun', hrunning⟩ := (running_parsed hid hids hrows).exists_run hwithin
      have hstep := hrun'
      rw [List.reverse_cons, updating.run_concat, hrun, Option.bind_some] at hstep
      obtain ⟨b, hupdate⟩ := updating_step hstep
      obtain ⟨M, hM⟩ := hordered.update horder.ne hcounts.1
        (fun p hp heq => hnodup.1 (heq ▸ List.mem_map_of_mem hp)) hupdate
      exact ⟨_, M, hrun', hrunning.id, hM⟩

theorem Routed.forwarding_eq (h : router.Routed rows packets L) {route : Int × Option UInt8} :
    router.forwarding x = some route ↔ ∃ link ∈ L, ∃ g, link.dest = x ∧ Via router.id L x g ∧
      route = ((link.cost : Int), some g) := by
  have hroute : ∀ link ∈ L, ∃ g, Via router.id L link.dest g ∧
      router.forwarding link.dest = some ((link.cost : Int), some g) := by
    intro link hlink
    obtain ⟨e, row, he, hcost, hget, hvia⟩ := h.grown.routed link hlink
    refine ⟨row.nodeId, hvia, ?_⟩
    rw [forwarding, he, Option.bind_some, hcost, if_neg (by omega), hget, Option.map_some]
  constructor
  · intro hx
    have hmem : x ∈ L.map Link.dest := by
      rw [forwarding, Option.bind_eq_some_iff] at hx
      obtain ⟨e, he, hsome⟩ := hx
      refine h.fresh x e he fun hcost => ?_
      rw [if_pos hcost] at hsome
      cases hsome
    obtain ⟨link, hlink, rfl⟩ := List.mem_map.1 hmem
    obtain ⟨g, hvia, hfound⟩ := hroute link hlink
    exact ⟨link, hlink, g, rfl, hvia, Option.some.inj (hx.symm.trans hfound)⟩
  · rintro ⟨link, hlink, g, rfl, hvia, rfl⟩
    obtain ⟨g', hvia', hfound⟩ := hroute link hlink
    rw [hfound, h.grown.settles.via_unique hvia hvia']

end Routed

end Router

end NetworkSystems.LinkState
