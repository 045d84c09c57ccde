import NetworkSystems.LinkState.Flooding
import NetworkSystems.LinkState.Forwarding

/-!
# Convergence

All routers start together and broadcast their rows. A router that has a packet of an origin has passed
it on: each of its neighbors has one as well, or is about to read one. So when nothing is in flight, all
routers have the packets of all others, and their tables are those of the network.
-/

namespace NetworkSystems.LinkState

namespace Topology

/-- The links of a connected network: the sockets of a router are distinct, and each row has a
counterpart in the rows of the neighbor. -/
structure Linked (T : Topology) : Prop where
  sockets : ∀ v ∈ T.ids, ((T.rows v).map Neighbor.sockFd).Nodup
  link : ∀ v ∈ T.ids, ∀ row ∈ T.rows v, (T.peer v row.sockFd).1 = row.nodeId ∧
    ∃ row' ∈ T.rows row.nodeId, row'.nodeId = v ∧ row'.cost = row.cost ∧
      row'.sockFd = (T.peer v row.sockFd).2
  connected : T.Connected

/-- The router is the origin, or it has stored a packet of it. -/
def Has (s : Network) (v x : UInt8) : Prop := v = x ∨ ∃ p, (s.routers v).stored x = some p

/-- What is stored and what is in flight are the rows of the origins. Who has a packet has passed it on,
and the sender of a frame has its packet. -/
structure Converging (T : Topology) (s : Network) : Prop where
  stored : ∀ v ∈ T.ids, ∀ x p, (s.routers v).stored x = some p → p.entries = T.tables x
  frames : ∀ frame ∈ s.frames,
    frame.packet.seqNum ≠ 0 ∧ frame.packet.entries = T.tables frame.packet.origin
  sender : ∀ frame ∈ s.frames, ∀ row ∈ T.rows frame.receiver, row.sockFd = frame.fd →
    Has s row.nodeId frame.packet.origin
  spread : ∀ v ∈ T.ids, ∀ x, Has s v x → (v = x → (s.routers v).seqNum ≠ 0) → ∀ row ∈ T.rows v,
    Has s row.nodeId x ∨ ∃ frame ∈ s.frames, frame.receiver = row.nodeId ∧ frame.packet.origin = x

section Step

variable {T : Topology} {s t : Network} {e : Event} {v x : UInt8}

theorem converging_start : T.Converging (T.start []) where
  stored _ _ := nofun
  frames := nofun
  sender := nofun
  spread v _ x hhas hseq := by
    rcases hhas with heq | ⟨p, hp⟩
    · exact absurd rfl (hseq heq)
    · cases hp

theorem Has.step (hhas : Has s v x) (h : T.Sound s) (hv : v ∈ T.ids)
    (hstep : T.machine.step s e = some t) : Has t v x :=
  hhas.imp_right fun ⟨_, hp⟩ =>
    let ⟨p', hp', _⟩ := h.stored_step hstep hv hp
    ⟨p', hp'⟩

/-- The frames that a router writes to its rows arrive at the sockets of their counterparts. -/
theorem Linked.sender (hlinked : T.Linked) (hv : v ∈ T.ids) {row row' : Neighbor} (hrow : row ∈ T.rows v)
    (hrow' : row' ∈ T.rows row.nodeId) (hfd : row'.sockFd = (T.peer v row.sockFd).2) :
    row'.nodeId = v := by
  obtain ⟨-, back, hback, hid, -, hsock⟩ := hlinked.link v hv row hrow
  have hsockets := hlinked.sockets _ (T.rows_mem v hv row hrow)
  rw [List.inj_on_of_nodup_map hsockets hrow' hback (hfd.trans hsock.symm), hid]

theorem mem_or_mem_eraseIdx {frames : List Frame} {frame f : Frame} {i : Nat}
    (hframe : frames[i]? = some frame) (hf : f ∈ frames) : f = frame ∨ f ∈ frames.eraseIdx i := by
  obtain ⟨j, hj⟩ := List.mem_iff_getElem?.1 hf
  by_cases hji : j = i
  · subst hji
    exact Or.inl (Option.some.inj (hj.symm.trans hframe))
  · exact Or.inr (List.mem_eraseIdx_iff_getElem?.2 ⟨j, hji, hj⟩)

theorem Linked.mem_frames (hlinked : T.Linked) (sent : Transmission) (hsender : sent.sender ∈ T.ids)
    (hrows : sent.rows ⊆ (T.rows sent.sender).zipIdx) {frame : Frame} (hframe : frame ∈ T.frames sent) :
    frame.packet = sent.packet ∧
      ∀ row' ∈ T.rows frame.receiver, row'.sockFd = frame.fd → row'.nodeId = sent.sender := by
  obtain ⟨row, i, hrow, rfl⟩ := Topology.mem_frames.1 hframe
  have hmem := List.fst_mem_of_mem_zipIdx (hrows hrow)
  refine ⟨rfl, fun row' hrow' hfd => hlinked.sender hsender hmem ?_ hfd⟩
  rwa [← (hlinked.link _ hsender row hmem).1]

theorem Linked.exists_frame (hlinked : T.Linked) (sent : Transmission) (hsender : sent.sender ∈ T.ids)
    {row : Neighbor} {i : Nat} (hmem : row ∈ T.rows sent.sender) (hrow : (row, i) ∈ sent.rows) :
    ∃ frame ∈ T.frames sent, frame.receiver = row.nodeId ∧ frame.packet = sent.packet :=
  ⟨_, Topology.mem_frames.2 ⟨row, i, hrow, rfl⟩, (hlinked.link _ hsender row hmem).1, rfl⟩

theorem Converging.broadcast (hconv : T.Converging s) (hlinked : T.Linked) (hv : v ∈ T.ids)
    (hseq : (s.routers v).seqNum + 1 ≠ 0) :
    T.Converging (T.next s v { s.routers v with seqNum := (s.routers v).seqNum + 1 } s.frames
      [⟨v, T.announcement s v, (T.rows v).zipIdx⟩]) := by
  generalize ht : T.next s v { s.routers v with seqNum := (s.routers v).seqNum + 1 } s.frames
    [⟨v, T.announcement s v, (T.rows v).zipIdx⟩] = t
  have hstored : ∀ u, (t.routers u).stored = (s.routers u).stored := by
    intro u
    rw [← ht]
    exact next_rule (P := fun r => r.stored = _) (fun heq => heq ▸ rfl) fun _ => rfl
  have hhas : ∀ u x, Has t u x ↔ Has s u x := fun u x => by rw [Has, Has, hstored]
  have hframes : ∀ frame, frame ∈ t.frames ↔
      frame ∈ s.frames ∨ frame ∈ T.frames ⟨v, T.announcement s v, (T.rows v).zipIdx⟩ := by
    intro frame
    rw [← ht, mem_next_frames]
  refine ⟨fun u hu x p hp => hconv.stored u hu x p (hstored u ▸ hp), fun frame hframe => ?_,
    fun frame hframe row hrow hfd => ?_, fun u hu x hux hnum row hrow => ?_⟩
  · rcases (hframes frame).1 hframe with hframe | hframe
    · exact hconv.frames frame hframe
    · rw [(hlinked.mem_frames _ hv (List.Subset.refl _) hframe).1]
      exact ⟨hseq, by rw [announcement, tables, if_pos hv]⟩
  · rw [hhas]
    rcases (hframes frame).1 hframe with hframe | hframe
    · exact hconv.sender frame hframe row hrow hfd
    · obtain ⟨hpacket, hsender⟩ := hlinked.mem_frames _ hv (List.Subset.refl _) hframe
      rw [hpacket, hsender row hrow hfd]
      exact Or.inl rfl
  · simp only [hhas, hframes] at *
    by_cases hself : u = v ∧ x = v
    · obtain ⟨rfl, rfl⟩ := hself
      obtain ⟨i, hi⟩ := List.mem_iff_getElem?.1 hrow
      obtain ⟨frame, hframe, hreceiver, hpacket⟩ := hlinked.exists_frame
        ⟨x, T.announcement s x, (T.rows x).zipIdx⟩ hv hrow (List.mem_zipIdx_iff_getElem?.2 hi)
      exact Or.inr ⟨frame, Or.inr hframe, hreceiver, by rw [hpacket, announcement]⟩
    · have hnum' : u = x → (s.routers u).seqNum ≠ 0 := by
        rintro rfl
        have hne : u ≠ v := fun heq => hself ⟨heq, heq⟩
        have := hnum rfl
        rwa [← ht, next_routers, if_neg hne] at this
      rcases hconv.spread u hu x hux hnum' row hrow with hdone | ⟨frame, hframe, hto⟩
      · exact Or.inl hdone
      · exact Or.inr ⟨frame, Or.inl hframe, hto⟩

theorem Converging.discard (hconv : T.Converging s) (h : T.Sound s) {i : Nat} {frame : Frame}
    {router : Router} (hframe : s.frames[i]? = some frame)
    (hupdate : (s.routers frame.receiver).updateRoutingTable frame.packet = some (false, router)) :
    T.Converging (T.next s frame.receiver router (s.frames.eraseIdx i) []) := by
  have hmem := List.mem_of_getElem? hframe
  have hrouter := h.routers _ (h.frames frame hmem).1
  obtain ⟨hsame, hknown⟩ := hrouter.valid.update_discard (hconv.frames frame hmem).1 hupdate
  rw [hrouter.id] at hknown
  generalize ht : T.next s frame.receiver router (s.frames.eraseIdx i) [] = t
  have hframes : t.frames = s.frames.eraseIdx i := by
    rw [← ht, next, List.flatMap_nil, List.append_nil]
  have hstored : ∀ u, (t.routers u).stored = (s.routers u).stored := by
    intro u
    rw [← ht]
    exact next_rule (P := fun r => r.stored = _) (fun heq => heq ▸ hsame) fun _ => rfl
  have hseq : ∀ u, (t.routers u).seqNum = (s.routers u).seqNum := by
    intro u
    rw [← ht]
    exact next_rule (P := fun r => r.seqNum = _)
      (fun heq => heq ▸ (hrouter.valid.update_same hupdate).2.1) fun _ => rfl
  have hhas : ∀ u x, Has t u x ↔ Has s u x := fun u x => by rw [Has, Has, hstored]
  have hsub : ∀ f ∈ t.frames, f ∈ s.frames := fun f hf => List.eraseIdx_subset (hframes ▸ hf)
  refine ⟨fun u hu x p hp => hconv.stored u hu x p (hstored u ▸ hp),
    fun f hf => hconv.frames f (hsub f hf),
    fun f hf row hrow hfd => (hhas _ _).2 (hconv.sender f (hsub f hf) row hrow hfd),
    fun u hu x hux hnum row hrow => ?_⟩
  rw [hhas] at hux ⊢
  rw [hseq] at hnum
  rcases hconv.spread u hu x hux hnum row hrow with hdone | ⟨f, hf, hreceiver, horigin⟩
  · exact Or.inl hdone
  · rcases mem_or_mem_eraseIdx hframe hf with rfl | hf
    · rw [← hreceiver, ← horigin]
      exact Or.inl (hknown.imp_left Eq.symm)
    · exact Or.inr ⟨f, hframes ▸ hf, hreceiver, horigin⟩

theorem Converging.forward (hconv : T.Converging s) (h : T.Sound s) (hlinked : T.Linked) {i : Nat}
    {frame : Frame} {router : Router} (hframe : s.frames[i]? = some frame)
    (hupdate : (s.routers frame.receiver).updateRoutingTable frame.packet = some (true, router))
    (hstep : T.machine.step s e = some (T.next s frame.receiver router (s.frames.eraseIdx i)
      [⟨frame.receiver, frame.packet,
        (T.rows frame.receiver).zipIdx.filter fun row => row.1.sockFd ≠ frame.fd⟩])) :
    T.Converging (T.next s frame.receiver router (s.frames.eraseIdx i) [⟨frame.receiver, frame.packet,
      (T.rows frame.receiver).zipIdx.filter fun row => row.1.sockFd ≠ frame.fd⟩]) := by
  have hmem := List.mem_of_getElem? hframe
  have hreceiver := (h.frames frame hmem).1
  have hrouter := h.routers _ hreceiver
  obtain ⟨-, hnew, -⟩ := hrouter.valid.update_true hupdate
  obtain ⟨-, hnum, -, hother⟩ := hrouter.valid.update_same hupdate
  have hrows : (T.rows frame.receiver).zipIdx.filter (fun row => row.1.sockFd ≠ frame.fd) ⊆
      (T.rows frame.receiver).zipIdx := List.filter_subset_self _
  generalize hsent : (⟨frame.receiver, frame.packet,
    (T.rows frame.receiver).zipIdx.filter fun row => row.1.sockFd ≠ frame.fd⟩ : Transmission) = sent at *
  have hsender : sent.sender = frame.receiver := by rw [← hsent]
  have hpacket : sent.packet = frame.packet := by rw [← hsent]
  have hsub : sent.rows ⊆ (T.rows sent.sender).zipIdx := by rw [← hsent]; exact hrows
  generalize ht : T.next s frame.receiver router (s.frames.eraseIdx i) [sent] = t at *
  have hframes : ∀ f, f ∈ t.frames ↔ f ∈ s.frames.eraseIdx i ∨ f ∈ T.frames sent := by
    intro f
    rw [← ht, mem_next_frames]
  have hself : (t.routers frame.receiver).stored frame.packet.origin = some frame.packet := by
    rw [← ht, next_routers, if_pos rfl, hnew]
  have hstored : ∀ u x, ¬ (u = frame.receiver ∧ x = frame.packet.origin) →
      (t.routers u).stored x = (s.routers u).stored x := by
    intro u x hne
    rw [← ht]
    refine next_rule (P := fun r => r.stored x = _) (fun heq => ?_) fun _ => rfl
    subst heq
    exact hother x fun hx => hne ⟨rfl, hx⟩
  have hseq : ∀ u, (t.routers u).seqNum = (s.routers u).seqNum := by
    intro u
    rw [← ht]
    exact next_rule (P := fun r => r.seqNum = _) (fun heq => heq ▸ hnum) fun _ => rfl
  have hmono : ∀ u ∈ T.ids, ∀ x, Has s u x → Has t u x := fun u hu x hux => hux.step h hu hstep
  have hhas : Has t frame.receiver frame.packet.origin := Or.inr ⟨_, hself⟩
  refine ⟨fun u hu x p hp => ?_, fun f hf => ?_, fun f hf row hrow hfd => ?_,
    fun u hu x hux hnum' row hrow => ?_⟩
  · by_cases hux : u = frame.receiver ∧ x = frame.packet.origin
    · obtain ⟨rfl, rfl⟩ := hux
      cases hself.symm.trans hp
      exact (hconv.frames frame hmem).2
    · exact hconv.stored u hu x p (hstored u x hux ▸ hp)
  · rcases (hframes f).1 hf with hf | hf
    · exact hconv.frames f (List.eraseIdx_subset hf)
    · rw [(hlinked.mem_frames sent (hsender ▸ hreceiver) hsub hf).1, hpacket]
      exact hconv.frames frame hmem
  · rcases (hframes f).1 hf with hf | hf
    · have hfmem := List.eraseIdx_subset hf
      exact hmono _ (T.rows_mem _ (h.frames f hfmem).1 row hrow) _ (hconv.sender f hfmem row hrow hfd)
    · obtain ⟨hfpacket, hfsender⟩ := hlinked.mem_frames sent (hsender ▸ hreceiver) hsub hf
      rw [hfpacket, hpacket, hfsender row hrow hfd, hsender]
      exact hhas
  · have hrowmem := T.rows_mem u hu row hrow
    by_cases hnewcase : u = frame.receiver ∧ x = frame.packet.origin
    · obtain ⟨rfl, rfl⟩ := hnewcase
      by_cases hfd : row.sockFd = frame.fd
      · exact Or.inl (hmono _ hrowmem _ (hconv.sender frame hmem row hrow hfd))
      · obtain ⟨k, hk⟩ := List.mem_iff_getElem?.1 hrow
        have hin : (row, k) ∈ sent.rows := by
          rw [← hsent]
          exact List.mem_filter.2 ⟨List.mem_zipIdx_iff_getElem?.2 hk, decide_eq_true hfd⟩
        obtain ⟨f, hf, hto, hfpacket⟩ :=
          hlinked.exists_frame sent (hsender ▸ hreceiver) (hsender ▸ hrow) hin
        exact Or.inr ⟨f, (hframes f).2 (Or.inr hf), hto, by rw [hfpacket, hpacket]⟩
    · have hux' : Has s u x := hux.imp_right fun hp => hstored u x hnewcase ▸ hp
      rcases hconv.spread u hu x hux' (hseq u ▸ hnum') row hrow with hdone | ⟨f, hf, hto, horigin⟩
      · exact Or.inl (hmono _ hrowmem _ hdone)
      · rcases mem_or_mem_eraseIdx hframe hf with rfl | hf
        · rw [← hto, ← horigin]
          exact Or.inl hhas
        · exact Or.inr ⟨f, (hframes f).2 (Or.inl hf), hto, horigin⟩

theorem Converging.step (hconv : T.Converging s) (h : T.Sound s) (hlinked : T.Linked)
    (hwrap : NoWrap s e) (hstep : T.machine.step s e = some t) : T.Converging t := by
  rcases h.step_cases hstep with ⟨v, hv, rfl, rfl⟩ | ⟨i, frame, router, b, -, hframe, hupdate, rfl⟩
  · refine hconv.broadcast hlinked hv fun hzero => ?_
    have := hwrap.toNat_step h hstep v
    rw [next_routers, if_pos rfl, if_pos rfl, hzero] at this
    cases this
  · cases b with
    | false => exact hconv.discard h hframe hupdate
    | true => exact hconv.forward h hlinked hframe hupdate hstep

theorem Converging.has_of_walk (hconv : T.Converging s) (hquiet : s.frames = [])
    (hnum : (s.routers x).seqNum ≠ 0) {c : ℕ} (hwalk : Walk (graph T.tables) x v c) :
    Has s v x := by
  induction hwalk with
  | nil => exact Or.inl rfl
  | snoc hwalk hlink ih =>
      obtain ⟨hy, -⟩ := mem_of_link hlink
      obtain ⟨link, hmem, rfl, -⟩ := hlink
      rw [tables, if_pos hy] at hmem
      obtain ⟨row, hrow, rfl⟩ := List.mem_map.1 hmem
      rcases hconv.spread _ hy x ih (fun heq => heq ▸ hnum) row hrow with hdone | ⟨f, hf, -⟩
      · exact hdone
      · rw [hquiet] at hf
        cases hf

end Step

end Topology

/-- What a converged router has: a packet with the neighbors and costs of each other router, and an entry
for each other router, with the cost of a shortest path and a gateway that is the first hop of one. -/
structure Converged (T : Topology) (v : UInt8) (router : Router) : Prop where
  stored : ∀ x ∈ T.ids, x ≠ v → ∃ p, router.stored x = some p ∧ p.entries = T.tables x
  nodup : (router.destinations.map RoutingEntry.destId).Nodup
  destinations : ∀ x, x ∈ router.destinations.map RoutingEntry.destId ↔ x ∈ T.ids ∧ x ≠ v
  length : router.destinations.length = T.ids.set.card - 1
  routes : ∀ e ∈ router.destinations, ∃ d : ℕ, ∃ row, e.cost = d ∧
    IsDist (graph T.tables) v e.destId d ∧
    router.neighborsTable[e.gatewayIdx.toNat]? = some row ∧
    FirstHop (graph T.tables) v row.nodeId e.destId

theorem Topology.Informed.converged {T : Topology} {v : UInt8} {router : Router}
    (h : T.Informed v router) (hv : v ∈ T.ids) (hconnected : T.Connected) : Converged T v router := by
  have hvalid := h.running.valid
  have hdestinations : ∀ x, x ∈ router.destinations.map RoutingEntry.destId ↔ x ∈ T.ids ∧ x ≠ v := by
    intro x
    rw [← h.entry_iff]
    constructor
    · intro hx
      obtain ⟨e, he, rfl⟩ := List.mem_map.1 hx
      exact ⟨e, hvalid.entry_of_mem he⟩
    · rintro ⟨e, he⟩
      exact List.mem_map.2 ⟨e, Router.entry_mem he, Router.entry_destId he⟩
  refine ⟨h.stored, hvalid.nodup, hdestinations, ?_, fun e he =>
    h.route hv hconnected (hvalid.entry_of_mem he)⟩
  have hset : (router.destinations.map RoutingEntry.destId).toFinset = T.ids.set.erase v := by
    ext x
    rw [List.mem_toFinset, hdestinations, Finset.mem_erase, and_comm]
    rfl
  rw [← List.length_map RoutingEntry.destId, ← List.toFinset_card_of_nodup hvalid.nodup, hset,
    Finset.card_erase_of_mem hv]

/-- **Convergence.** In every run of a connected network with fewer than 2^32 broadcasts, once every
router has broadcast and nothing is in flight, every router has converged. -/
theorem converges {T : Topology} (hlinked : T.Linked) {events : List Event} {t : Network}
    (hbound : broadcasts events < 2 ^ 32) (hrun : T.machine.run (T.start []) events = some t)
    (hall : ∀ v ∈ T.ids, .broadcast v ∈ events) (hquiet : t.frames = []) :
    ∀ v ∈ T.ids, Converged T v (t.routers v) := by
  have hstart : T.Sound (T.start []) := T.sound_start nofun
  obtain ⟨hsound, hconv, hnum⟩ := hstart.run (I := T.Converging)
    (fun v => by change 0 + _ < _; rwa [Nat.zero_add]) Topology.converging_start
    (fun _ _ _ h hwrap hI hstep => hI.step h hlinked hwrap hstep) hrun
  have hbroadcast : ∀ v ∈ T.ids, (t.routers v).seqNum ≠ 0 := by
    intro v hv hzero
    have hcount := hnum v
    rw [hzero] at hcount
    have hpos := List.count_pos_iff.2 (hall v hv)
    change 0 = 0 + _ at hcount
    omega
  intro v hv
  refine Topology.Informed.converged ⟨hsound.routers v hv, fun x hx hne => ?_⟩ hv hlinked.connected
  obtain ⟨c, hwalk⟩ := hlinked.connected x hx v hv
  obtain ⟨p, hp⟩ := (hconv.has_of_walk hquiet (hbroadcast x hx) hwalk).resolve_left (Ne.symm hne)
  exact ⟨p, hp, hconv.stored v hv x p hp⟩

theorem triangle_linked : triangle.Linked where
  sockets := by decide +kernel
  link := by decide +kernel
  connected := triangle_connected

theorem converges_triangle : ∃ t, triangle.machine.run (triangle.start [])
    ([.broadcast 65, .broadcast 66, .broadcast 67] ++ List.replicate 12 (.deliver 0)) = some t ∧
    t.frames = [] ∧ ∀ v ∈ triangle.ids, Converged triangle v (t.routers v) := by
  have hrun : (triangle.machine.run (triangle.start []) ([.broadcast 65, .broadcast 66, .broadcast 67] ++
      List.replicate 12 (.deliver 0))).map (fun t => t.frames.length) = some 0 := by decide +kernel
  obtain ⟨t, ht, hquiet⟩ := Option.map_eq_some_iff.1 hrun
  have hquiet := List.length_eq_zero_iff.1 hquiet
  exact ⟨t, ht, hquiet, converges triangle_linked (by decide) ht (by decide +kernel) hquiet⟩

end NetworkSystems.LinkState
