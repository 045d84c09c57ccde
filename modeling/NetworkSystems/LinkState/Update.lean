import NetworkSystems.Lib.Machine
import NetworkSystems.LinkState.Places

/-!
# One call of `update_routing_table`

The store step and the computation together, and what holds of a router after any sequence of packets.
-/

namespace NetworkSystems.LinkState

namespace Router

section Update

variable {ids : Ids} {router router' : Router} {packet : LsPacket}

theorem Valid.grown_nil (h : router.Valid) : router.Grown [] := ⟨h, .nil, nofun⟩

theorem parsed_computed {id : UInt8} {rows : List Neighbor} (hrows : rows.length ≤ maxNumRouters) :
    (parsed id rows).Computed :=
  ⟨[], (parsed_valid hrows).grown_nil, Or.inr nofun⟩

/-- What `update_routing_table` does: it discards the packet, or stores it and computes the table. -/
theorem Valid.update_cases {b : Bool} (h : router.Valid)
    (hupdate : router.updateRoutingTable packet = some (b, router')) :
    (b = false ∧ router.store packet = some (false, router')) ∨
    ∃ mid M, b = true ∧ router.store packet = some (true, mid) ∧ Keeps mid router' ∧
      router'.Grown M ∧ router'.Ended M ∧ mid.Lacking [] M ∧
      ∀ x, x ∉ M.map Link.dest → router'.entry x = mid.entry x := by
  rw [updateRoutingTable, Option.bind_eq_some_iff] at hupdate
  obtain ⟨⟨stored, mid⟩, hstore, hupdate⟩ := hupdate
  cases stored with
  | false =>
      cases hupdate
      exact Or.inl ⟨rfl, hstore⟩
  | true =>
      simp only [if_true, Option.map_eq_some_iff, Prod.mk.injEq] at hupdate
      obtain ⟨_, hcompute, rfl, rfl⟩ := hupdate
      obtain ⟨M, hM, hend, hkeeps, -, hlacking, hother⟩ := (h.store hstore).1.grown_nil.compute hcompute
      exact Or.inr ⟨mid, M, rfl, hstore, hkeeps, hM, hend, hlacking, hother⟩

theorem Valid.update_store {b : Bool} (h : router.Valid)
    (hupdate : router.updateRoutingTable packet = some (b, router')) :
    ∃ mid, router.store packet = some (b, mid) ∧ Keeps mid router' ∧ router'.Valid := by
  rcases h.update_cases hupdate with ⟨rfl, hstore⟩ | ⟨mid, M, rfl, hstore, hkeeps, hM, -⟩
  · exact ⟨router', hstore, .refl _, (h.store hstore).1⟩
  · exact ⟨mid, hstore, hkeeps, hM.valid⟩

theorem Valid.update_same {b : Bool} (h : router.Valid)
    (hupdate : router.updateRoutingTable packet = some (b, router')) :
    router'.id = router.id ∧ router'.seqNum = router.seqNum ∧
      router'.neighborsTable = router.neighborsTable ∧
      ∀ x, x ≠ packet.origin → router'.stored x = router.stored x := by
  obtain ⟨mid, hstore, hkeeps, -⟩ := h.update_store hupdate
  obtain ⟨-, hid, hseq, hrows⟩ := h.store hstore
  exact ⟨hkeeps.id.trans hid, hkeeps.seqNum.trans hseq, hkeeps.rows.trans hrows,
    fun x hx => (congrFun hkeeps.stored x).trans (h.store_of_ne hx hstore)⟩

/-- An update is one: the packet is of another router, it is stored, and its number is higher than that
of the packet stored before. -/
theorem Valid.update_true (h : router.Valid)
    (hupdate : router.updateRoutingTable packet = some (true, router')) :
    packet.origin ≠ router.id ∧ router'.stored packet.origin = some packet ∧
      ∀ orig, router.stored packet.origin = some orig → orig.seqNum < packet.seqNum := by
  obtain ⟨mid, hstore, hkeeps, -⟩ := h.update_store hupdate
  rw [hkeeps.stored]
  rcases h.store_cases hstore with ⟨-, hb, -⟩ | ⟨hself, hnone, -, hw⟩ | ⟨e, hself, hentry, hb, hw⟩
  · cases hb
  · refine ⟨hself, hw.stored_self, fun orig horig => ?_⟩
    rw [stored_eq_none hnone] at horig
    cases horig
  · refine ⟨hself, hw.stored_self, fun orig horig => ?_⟩
    rw [stored_eq hentry] at horig
    rw [horig, Option.getD_some] at hb
    exact (packetHasUpdate_iff.1 hb.symm).1

theorem Valid.update_false (h : router.Valid)
    (hupdate : router.updateRoutingTable packet = some (false, router')) {x : UInt8} {orig : LsPacket}
    (horig : router.stored x = some orig) : router'.stored x = some orig := by
  obtain ⟨mid, hstore, hkeeps, -⟩ := h.update_store hupdate
  rw [hkeeps.stored]
  rcases h.store_cases hstore with ⟨-, -, rfl⟩ | ⟨-, -, hb, -⟩ | ⟨e, -, hentry, -, hw⟩
  · exact horig
  · cases hb
  · by_cases hx : x = packet.origin
    · rw [hx, stored_eq hentry] at horig
      rw [hx, hw.stored_self, horig]
      rfl
    · rwa [hw.stored_of_ne hx]

/-- A packet with a number is discarded only if it is the router's own or its origin is known. -/
theorem Valid.update_discard (h : router.Valid) (hseq : packet.seqNum ≠ 0)
    (hupdate : router.updateRoutingTable packet = some (false, router')) :
    router'.stored = router.stored ∧
      (packet.origin = router.id ∨ ∃ orig, router.stored packet.origin = some orig) := by
  obtain ⟨mid, hstore, hkeeps, -⟩ := h.update_store hupdate
  rw [hkeeps.stored]
  rcases h.store_cases hstore with ⟨hself, -, rfl⟩ | ⟨-, -, hb, -⟩ | ⟨e, -, hentry, hb, hw⟩
  · exact ⟨rfl, Or.inl hself⟩
  · cases hb
  · cases hpacket : e.packet with
    | none =>
        rw [hpacket, Option.getD_none, packetHasUpdate_zeroed hseq] at hb
        cases hb
    | some orig =>
        have hstored := (stored_eq hentry).trans hpacket
        refine ⟨hw.stored_eq ?_, Or.inr ⟨orig, hstored⟩⟩
        rw [hstored, hpacket]
        rfl

theorem Valid.update_mono {b : Bool} (h : router.Valid)
    (hupdate : router.updateRoutingTable packet = some (b, router')) {x : UInt8} {orig : LsPacket}
    (horig : router.stored x = some orig) :
    ∃ p, router'.stored x = some p ∧ orig.seqNum ≤ p.seqNum := by
  cases b with
  | false => exact ⟨orig, h.update_false hupdate horig, UInt32.le_refl _⟩
  | true =>
      by_cases hx : x = packet.origin
      · subst hx
        obtain ⟨-, hstored, hlt⟩ := h.update_true hupdate
        exact ⟨packet, hstored, UInt32.le_of_lt (hlt orig horig)⟩
      · exact ⟨orig, ((h.update_same hupdate).2.2.2 x hx).trans horig, UInt32.le_refl _⟩

theorem Valid.exists_update (h : router.Valid) (hids : router.Within ids) (hpacket : packet.Within ids) :
    ∃ b router', router.updateRoutingTable packet = some (b, router') := by
  obtain ⟨stored, mid, hstore⟩ := h.exists_store hids hpacket
  rw [updateRoutingTable, hstore, Option.bind_some]
  cases stored with
  | false => exact ⟨false, mid, rfl⟩
  | true =>
      obtain ⟨router', hcompute⟩ := (h.store hstore).1.grown_nil.exists_compute
        (maxNumRouters - 1) (h.store_within hids hpacket hstore) rfl
      rw [List.map_nil] at hcompute
      exact ⟨true, router', by simp only [if_true, hcompute, Option.map_some]⟩

theorem Valid.discard (h : router.Valid) (hstore : router.store packet = some (false, router')) :
    router'.links = router.links ∧ router'.route = router.route := by
  rcases h.store_cases hstore with ⟨-, -, rfl⟩ | ⟨-, -, hb, -⟩ | ⟨e, -, hentry, hb, hw⟩
  · exact ⟨rfl, rfl⟩
  · cases hb
  · refine ⟨funext fun x => ?_, funext fun x => ?_⟩
    · rw [links, links, hw.id, hw.rows]
      by_cases hx : x = packet.origin
      · rw [hx, hw.stored_self, stored_eq hentry]
        cases e.packet with
        | none => rfl
        | some orig => rfl
      · rw [hw.stored_of_ne hx]
    · by_cases hx : x = packet.origin
      · rw [route, route, hx, hw.entry_self, hentry]
        rfl
      · rw [route, route, hw.entry_of_ne hx]

theorem Valid.update_computed {b : Bool} (h : router.Valid) (hcomputed : router.Computed)
    (hupdate : router.updateRoutingTable packet = some (b, router')) : router'.Computed := by
  rcases h.update_cases hupdate with ⟨-, hstore⟩ | ⟨mid, M, -, -, -, hM, hend, -⟩
  · obtain ⟨hvalid, hid, -, hrows⟩ := h.store hstore
    obtain ⟨hlinks, hroute⟩ := h.discard hstore
    obtain ⟨L, hL, hend⟩ := hcomputed
    refine ⟨L, ⟨hvalid, ?_, fun link hlink => ?_⟩, ?_⟩
    · rw [hlinks, hid]
      exact hL.settles
    · obtain ⟨e, row, he, hcost, hget, hvia⟩ := hL.routed link hlink
      obtain ⟨e', he', hcost', hidx'⟩ := route_eq_some.1
        ((congrFun hroute link.dest).trans (route_eq_some.2 ⟨e, he, hcost, rfl⟩))
      rw [← hidx'] at hget
      rw [hrows, hid]
      exact ⟨e', row, he', hcost', hget, hvia⟩
    · rw [Ended, hlinks, hid]
      refine hend.imp_right fun hall x e' he' => ?_
      obtain ⟨e, he, -, -⟩ := route_eq_some.1
        ((congrFun hroute x).symm.trans (route_eq_some.2 ⟨e', he', rfl, rfl⟩))
      exact hall x e he
  · exact ⟨M, hM, hend⟩

theorem Valid.update_within {b : Bool} (h : router.Valid) (hids : router.Within ids)
    (hpacket : packet.Within ids) (hupdate : router.updateRoutingTable packet = some (b, router')) :
    router'.Within ids := by
  rcases h.update_cases hupdate with ⟨-, hstore⟩ | ⟨mid, M, -, hstore, hkeeps, hM, -, -, hother⟩
  · exact h.store_within hids hpacket hstore
  · have hmid := h.store_within hids hpacket hstore
    refine ⟨hkeeps.id ▸ hmid.id, hkeeps.rows ▸ hmid.rows, fun x e he => ?_,
      fun x packet hx => hmid.stored x packet (hkeeps.stored ▸ hx)⟩
    by_cases hx : x ∈ M.map Link.dest
    · obtain ⟨link, hlink, rfl⟩ := List.mem_map.1 hx
      obtain ⟨d, c, -, hedge, -⟩ := hM.settles.graph_link hlink
      exact hmid.links (hkeeps.links ▸ hedge)
    · exact hmid.entry x e (hother x hx ▸ he)

end Update

/-! ### Runs of one router -/

def updating : Machine Router LsPacket where
  step router packet := (router.updateRoutingTable packet).map Prod.snd

theorem updating_step {router router' : Router} {packet : LsPacket}
    (hstep : updating.step router packet = some router') :
    ∃ b, router.updateRoutingTable packet = some (b, router') := by
  obtain ⟨⟨b, _⟩, hupdate, rfl⟩ := Option.map_eq_some_iff.1 hstep
  exact ⟨b, hupdate⟩

theorem Valid.updating_step {router router' : Router} {packet : LsPacket} (h : router.Valid)
    (hstep : updating.step router packet = some router') : router'.Valid := by
  obtain ⟨b, hupdate⟩ := Router.updating_step hstep
  obtain ⟨-, -, -, hvalid⟩ := h.update_store hupdate
  exact hvalid

structure Running (ids : Ids) (id : UInt8) (rows : List Neighbor) (router : Router) : Prop where
  valid : router.Valid
  within : router.Within ids
  computed : router.Computed
  id : router.id = id
  rows : router.neighborsTable = rows

section Running

variable {ids : Ids} {id : UInt8} {rows : List Neighbor} {router router' : Router} {packet : LsPacket}

theorem running_parsed (hid : id ∈ ids) (hids : ∀ row ∈ rows, row.nodeId ∈ ids)
    (hrows : rows.length ≤ maxNumRouters) : Running ids id rows (parsed id rows) :=
  ⟨parsed_valid hrows, parsed_within hid hids, parsed_computed hrows, rfl, rfl⟩

theorem Running.update {b : Bool} (h : Running ids id rows router) (hpacket : packet.Within ids)
    (hupdate : router.updateRoutingTable packet = some (b, router')) : Running ids id rows router' := by
  obtain ⟨-, -, -, hvalid⟩ := h.valid.update_store hupdate
  obtain ⟨hid, -, hrows, -⟩ := h.valid.update_same hupdate
  exact ⟨hvalid, h.valid.update_within h.within hpacket hupdate,
    h.valid.update_computed h.computed hupdate, hid.trans h.id, hrows.trans h.rows⟩

theorem Running.of_seqNum (h : Running ids id rows router) (seqNum : UInt32) :
    Running ids id rows { router with seqNum := seqNum } := by
  obtain ⟨hvalid, hwithin, ⟨L, hL, hend⟩, hid, hrows⟩ := h
  exact ⟨⟨hvalid.rows_le, hvalid.length_le, hvalid.lt, hvalid.self, hvalid.nodup, hvalid.table⟩,
    ⟨hwithin.id, hwithin.rows, hwithin.entry, hwithin.stored⟩,
    ⟨L, ⟨⟨hvalid.rows_le, hvalid.length_le, hvalid.lt, hvalid.self, hvalid.nodup, hvalid.table⟩,
      hL.settles, hL.routed⟩, hend⟩, hid, hrows⟩

theorem Running.exists_run {packets : List LsPacket} (h : Running ids id rows router)
    (hpackets : ∀ packet ∈ packets, packet.Within ids) :
    ∃ router', updating.run router packets = some router' ∧ Running ids id rows router' := by
  induction packets generalizing router with
  | nil => exact ⟨router, rfl, h⟩
  | cons packet packets ih =>
      obtain ⟨hpacket, hpackets⟩ := List.forall_mem_cons.1 hpackets
      obtain ⟨b, mid, hupdate⟩ := h.valid.exists_update h.within hpacket
      obtain ⟨router', hrun, h'⟩ := ih (h.update hpacket hupdate) hpackets
      have hstep : updating.step router packet = some mid := by
        simp only [updating, hupdate, Option.map_some]
      exact ⟨router', by rw [updating.run_cons, hstep, Option.bind_some, hrun], h'⟩

end Running

end Router

end NetworkSystems.LinkState
