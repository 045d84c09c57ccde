import NetworkSystems.LinkState.Network
import Mathlib.Data.List.Nodup
import Mathlib.Data.Finset.Prod

/-!
# Flooding stops

A router forwards a packet only when it takes it for an update, and then it stores the packet, with a
number higher than before. So it forwards each number of an origin once at most, and the frames that are
ever written are as many as routers, rows and packets allow.
-/

namespace NetworkSystems.LinkState

/-- Who has written which packet of whom. -/
def Transmission.key (sent : Transmission) : UInt8 × UInt8 × UInt32 :=
  (sent.sender, sent.packet.origin, sent.packet.seqNum)

/-- What tells two packets apart. -/
def LsPacket.number (packet : LsPacket) : UInt8 × UInt32 := (packet.origin, packet.seqNum)

/-- The frames that have been written: router, row, origin and number. -/
def written (log : List Transmission) : List (UInt8 × Nat × UInt8 × UInt32) :=
  log.flatMap fun sent =>
    sent.rows.map fun row => (sent.sender, row.2, sent.packet.origin, sent.packet.seqNum)

def announced (log : List Transmission) : List (UInt8 × UInt32) :=
  (log.filter fun sent => sent.packet.origin = sent.sender).map fun sent => sent.packet.number

namespace Topology

/-- What has been forwarded so far is stored, or superseded, and all packets are known ones. -/
structure Flooded (T : Topology) (known : List (UInt8 × UInt32)) (s : Network) : Prop where
  nodup : (s.log.map Transmission.key).Nodup
  own : ∀ sent ∈ s.log, sent.packet.origin = sent.sender →
    sent.packet.seqNum.toNat ≤ (s.routers sent.sender).seqNum.toNat
  others : ∀ sent ∈ s.log, sent.packet.origin ≠ sent.sender →
    ∃ p, (s.routers sent.sender).stored sent.packet.origin = some p ∧ sent.packet.seqNum ≤ p.seqNum
  rows : ∀ sent ∈ s.log, sent.sender ∈ T.ids ∧ sent.rows.Sublist (T.rows sent.sender).zipIdx
  frames : ∀ frame ∈ s.frames, frame.packet.number ∈ known ++ announced s.log
  log : ∀ sent ∈ s.log, sent.packet.number ∈ known ++ announced s.log

section Step

variable {T : Topology} {known : List (UInt8 × UInt32)} {s t : Network} {e : Event} {v : UInt8}

theorem Sound.stored_step (h : T.Sound s) (hstep : T.machine.step s e = some t) {v x : UInt8}
    (hv : v ∈ T.ids) {orig : LsPacket} (horig : (s.routers v).stored x = some orig) :
    ∃ p, (t.routers v).stored x = some p ∧ orig.seqNum ≤ p.seqNum := by
  rcases h.step_cases hstep with ⟨w, -, -, rfl⟩ | ⟨i, frame, router, b, -, -, hupdate, rfl⟩
  · refine next_rule (P := fun r => ∃ p, r.stored x = some p ∧ orig.seqNum ≤ p.seqNum)
      (fun heq => ?_) fun _ => ⟨orig, horig, UInt32.le_refl _⟩
    subst heq
    exact ⟨orig, horig, UInt32.le_refl _⟩
  · refine next_rule (P := fun r => ∃ p, r.stored x = some p ∧ orig.seqNum ≤ p.seqNum)
      (fun heq => ?_) fun _ => ⟨orig, horig, UInt32.le_refl _⟩
    subst heq
    exact (h.routers _ hv).valid.update_mono hupdate horig

/-- What one step adds to the log: nothing, or a transmission that has not been there before. -/
theorem Flooded.step_log (hflooded : T.Flooded known s) (h : T.Sound s) (hwrap : NoWrap s e)
    (hstep : T.machine.step s e = some t) :
    (t.log = s.log ∧ t.frames ⊆ s.frames) ∨
    ∃ sent, t.log = sent :: s.log ∧ sent.key ∉ s.log.map Transmission.key ∧
      (sent.packet.origin = sent.sender →
        sent.packet.seqNum.toNat ≤ (t.routers sent.sender).seqNum.toNat) ∧
      (sent.packet.origin ≠ sent.sender →
        (t.routers sent.sender).stored sent.packet.origin = some sent.packet) ∧
      sent.sender ∈ T.ids ∧ sent.rows.Sublist (T.rows sent.sender).zipIdx ∧
      (sent.packet.origin = sent.sender ∨ sent.packet.number ∈ known ++ announced s.log) ∧
      ∀ frame ∈ t.frames, frame ∈ s.frames ∨ frame.packet = sent.packet := by
  have hnum := hwrap.toNat_step h hstep
  rcases h.step_cases hstep with ⟨v, hv, rfl, rfl⟩ | ⟨i, frame, router, b, rfl, hframe, hupdate, rfl⟩
  · have hseq : (T.announcement s v).seqNum.toNat = (s.routers v).seqNum.toNat + 1 := by
      have := hnum v
      rwa [next_routers, if_pos rfl, if_pos rfl] at this
    refine Or.inr ⟨_, rfl, fun hkey => ?_, fun _ => ?_, fun hne => absurd rfl hne, hv,
      List.Sublist.refl _, Or.inl rfl, fun f hf => ?_⟩
    · obtain ⟨sent, hsent, heq⟩ := List.mem_map.1 hkey
      simp only [Transmission.key, Prod.mk.injEq] at heq
      obtain ⟨hsender, horigin, hnumber⟩ := heq
      have hle := hflooded.own sent hsent (horigin.trans hsender.symm)
      rw [hsender, hnumber, hseq] at hle
      omega
    · rw [next_routers, if_pos rfl]
      exact Nat.le_refl _
    · exact (mem_next_frames.1 hf).imp_right packet_of_mem_frames
  · have hmem := List.mem_of_getElem? hframe
    obtain ⟨hreceiver, -⟩ := h.frames frame hmem
    have hrouter := h.routers _ hreceiver
    cases b with
    | false =>
        refine Or.inl ⟨rfl, fun f hf => ?_⟩
        simp only [Topology.next, Bool.false_eq_true, if_false, List.flatMap_nil,
          List.append_nil] at hf
        exact List.eraseIdx_subset hf
    | true =>
        obtain ⟨hself, hstored, hlt⟩ := hrouter.valid.update_true hupdate
        rw [hrouter.id] at hself
        refine Or.inr ⟨_, rfl, fun hkey => ?_, fun heq => absurd heq hself, fun _ => ?_, hreceiver,
          List.filter_sublist, Or.inr (hflooded.frames frame hmem), fun f hf => ?_⟩
        · obtain ⟨sent, hsent, heq⟩ := List.mem_map.1 hkey
          simp only [Transmission.key, Prod.mk.injEq] at heq
          obtain ⟨hsender, horigin, hnumber⟩ := heq
          obtain ⟨p, hp, hle⟩ := hflooded.others sent hsent (by rwa [hsender, horigin])
          rw [hsender, horigin] at hp
          exact absurd (hlt p hp) (UInt32.not_lt.2 (hnumber ▸ hle))
        · rw [next_routers, if_pos rfl]
          exact hstored
        · rcases mem_next_frames.1 hf with hf | hf
          · exact Or.inl (List.eraseIdx_subset hf)
          · exact Or.inr (packet_of_mem_frames hf)

theorem announced_cons (sent : Transmission) (log : List Transmission) :
    announced (sent :: log) =
      (if sent.packet.origin = sent.sender then [sent.packet.number] else []) ++ announced log := by
  rw [announced, List.filter_cons]
  by_cases h : sent.packet.origin = sent.sender
  · rw [if_pos (decide_eq_true h), if_pos h]
    rfl
  · rw [if_neg (by simpa using h), if_neg h]
    rfl

theorem length_frames (sent : Transmission) : (T.frames sent).length = sent.rows.length :=
  List.length_map ..

theorem length_written_cons (sent : Transmission) (log : List Transmission) :
    (written (sent :: log)).length = sent.rows.length + (written log).length := by
  rw [written, List.flatMap_cons, List.length_append, List.length_map]
  rfl

theorem known_cons {sent : Transmission} {log : List Transmission} {number : UInt8 × UInt32}
    (h : number ∈ known ++ announced log) : number ∈ known ++ announced (sent :: log) := by
  rw [announced_cons, List.mem_append, List.mem_append] at *
  exact h.imp_right Or.inr

theorem Flooded.step (hflooded : T.Flooded known s) (h : T.Sound s) (hwrap : NoWrap s e)
    (hstep : T.machine.step s e = some t) : T.Flooded known t := by
  have hnum := hwrap.toNat_step h hstep
  have hown : ∀ sent ∈ s.log, sent.packet.origin = sent.sender →
      sent.packet.seqNum.toNat ≤ (t.routers sent.sender).seqNum.toNat := fun sent hsent horigin =>
    (hflooded.own sent hsent horigin).trans (hnum sent.sender ▸ Nat.le_add_right _ _)
  have hothers : ∀ sent ∈ s.log, sent.packet.origin ≠ sent.sender →
      ∃ p, (t.routers sent.sender).stored sent.packet.origin = some p ∧
        sent.packet.seqNum ≤ p.seqNum := by
    intro sent hsent horigin
    obtain ⟨p, hp, hle⟩ := hflooded.others sent hsent horigin
    obtain ⟨p', hp', hle'⟩ := h.stored_step hstep (hflooded.rows sent hsent).1 hp
    exact ⟨p', hp', UInt32.le_trans hle hle'⟩
  rcases hflooded.step_log h hwrap hstep with ⟨hlog, hframes⟩ |
    ⟨new, hlog, hkey, hnewown, hnewother, hsender, hrows, hknown, hframes⟩
  · exact ⟨hlog ▸ hflooded.nodup, hlog ▸ hown, hlog ▸ hothers, hlog ▸ hflooded.rows,
      fun frame hframe => hlog ▸ hflooded.frames frame (hframes hframe), hlog ▸ hflooded.log⟩
  · have hnewknown : new.packet.number ∈ known ++ announced (new :: s.log) := by
      rcases hknown with horigin | hknown
      · rw [announced_cons, if_pos horigin]
        exact List.mem_append_right _ List.mem_cons_self
      · exact known_cons hknown
    refine ⟨?_, ?_, ?_, ?_, fun frame hframe => ?_, ?_⟩
    · rw [hlog, List.map_cons, List.nodup_cons]
      exact ⟨hkey, hflooded.nodup⟩
    · rw [hlog]
      exact List.forall_mem_cons.2 ⟨hnewown, hown⟩
    · rw [hlog]
      exact List.forall_mem_cons.2
        ⟨fun horigin => ⟨new.packet, hnewother horigin, UInt32.le_refl _⟩, hothers⟩
    · rw [hlog]
      exact List.forall_mem_cons.2 ⟨⟨hsender, hrows⟩, hflooded.rows⟩
    · rw [hlog]
      rcases hframes frame hframe with hframe | heq
      · exact known_cons (hflooded.frames frame hframe)
      · rwa [heq]
    · rw [hlog]
      exact List.forall_mem_cons.2 ⟨hnewknown, fun sent hsent => known_cons (hflooded.log sent hsent)⟩

theorem flooded_start (frames : List Frame) :
    T.Flooded (frames.map fun frame => frame.packet.number) (T.start frames) where
  nodup := List.nodup_nil
  own := nofun
  others := nofun
  rows := nofun
  frames _ hframe := List.mem_append_left _ (List.mem_map_of_mem hframe)
  log := nofun

/-- A broadcast announces a packet and reads no frame. A delivery reads one frame and announces
nothing. -/
theorem Sound.step_counts (h : T.Sound s) (hstep : T.machine.step s e = some t) :
    (announced t.log).length = (announced s.log).length + (if e.isBroadcast then 1 else 0) ∧
      t.frames.length + 1 + (written s.log).length =
        s.frames.length + (written t.log).length + (if e.isBroadcast then 1 else 0) := by
  rcases h.step_cases hstep with ⟨v, -, rfl, rfl⟩ | ⟨i, frame, router, b, rfl, hframe, hupdate, rfl⟩
  · simp only [Topology.next, List.singleton_append, announced_cons, announcement, if_true,
      List.length_cons, length_written_cons, List.flatMap_cons, List.flatMap_nil, List.append_nil,
      List.length_append, length_frames, Event.isBroadcast, true_and]
    omega
  · have hmem := List.mem_of_getElem? hframe
    obtain ⟨hlt, -⟩ := List.getElem?_eq_some_iff.1 hframe
    obtain ⟨hreceiver, -⟩ := h.frames frame hmem
    have hrouter := h.routers _ hreceiver
    have herase := List.length_eraseIdx_of_lt hlt
    cases b with
    | false =>
        simp only [Topology.next, Bool.false_eq_true, if_false, List.flatMap_nil, List.append_nil,
          List.nil_append, Event.isBroadcast, Nat.add_zero, herase, true_and]
        omega
    | true =>
        obtain ⟨hself, -, -⟩ := hrouter.valid.update_true hupdate
        rw [hrouter.id] at hself
        simp only [Topology.next, if_true, List.singleton_append, announced_cons, if_neg hself,
          List.nil_append, length_written_cons, List.flatMap_cons, List.flatMap_nil, List.append_nil,
          List.length_append, length_frames, Event.isBroadcast, Bool.false_eq_true, if_false,
          Nat.add_zero, herase, true_and]
        omega

theorem Sound.run_counts {events : List Event} (h : T.Sound s)
    (hrun : T.machine.run s events = some t) :
    (announced t.log).length = (announced s.log).length + broadcasts events ∧
      t.frames.length + events.length + (written s.log).length =
        s.frames.length + (written t.log).length + broadcasts events := by
  induction events generalizing s with
  | nil =>
      cases hrun
      exact ⟨rfl, rfl⟩
  | cons e events ih =>
      obtain ⟨mid, hstep, hrest⟩ := T.machine.run_cons_eq_some.1 hrun
      obtain ⟨hannounced, hframes⟩ := h.step_counts hstep
      obtain ⟨hannounced', hframes'⟩ := ih (h.step hstep) hrest
      have hcount : broadcasts (e :: events) = broadcasts events + if e.isBroadcast then 1 else 0 := by
        rw [broadcasts, List.countP_cons]
        rfl
      rw [hcount, List.length_cons]
      omega

end Step

/-! ### The number of frames -/

section Bounds

variable {T : Topology} {known : List (UInt8 × UInt32)} {s : Network}

theorem Flooded.length_log_le (h : T.Flooded known s) :
    s.log.length ≤ maxNumRouters * (known.length + (announced s.log).length) := by
  have hsub : (s.log.map Transmission.key).toFinset ⊆
      T.ids.set ×ˢ (known ++ announced s.log).toFinset := by
    intro key hkey
    obtain ⟨sent, hsent, rfl⟩ := List.mem_map.1 (List.mem_toFinset.1 hkey)
    exact Finset.mem_product.2 ⟨(h.rows sent hsent).1, List.mem_toFinset.2 (h.log sent hsent)⟩
  have hcard := Finset.card_le_card hsub
  rw [List.toFinset_card_of_nodup h.nodup, List.length_map, Finset.card_product] at hcard
  refine hcard.trans (Nat.mul_le_mul T.ids.card_le ?_)
  exact (List.toFinset_card_le _).trans (List.length_append ..).le

theorem Flooded.length_written_le (h : T.Flooded known s) :
    (written s.log).length ≤ maxNumRouters * s.log.length := by
  have hrows : ∀ sent ∈ s.log, sent.rows.length ≤ maxNumRouters := fun sent hsent => by
    obtain ⟨hsender, hsub⟩ := h.rows sent hsent
    apply hsub.length_le.trans
    rw [List.length_zipIdx]
    exact T.rows_le _ hsender
  generalize s.log = log at hrows
  induction log with
  | nil => exact Nat.zero_le _
  | cons sent log ih =>
      obtain ⟨hsent, hlog⟩ := List.forall_mem_cons.1 hrows
      rw [length_written_cons, List.length_cons, Nat.mul_add, Nat.mul_one, Nat.add_comm]
      exact Nat.add_le_add (ih hlog) hsent

theorem Flooded.nodup_written (h : T.Flooded known s) : (written s.log).Nodup := by
  rw [written, List.nodup_flatMap]
  refine ⟨fun sent hsent => List.Nodup.of_map (fun frame => frame.2.1) ?_, ?_⟩
  · have hsub := (h.rows sent hsent).2.map Prod.snd
    rw [List.zipIdx_map_snd] at hsub
    rw [List.map_map]
    exact hsub.nodup (List.nodup_range' _)
  · have hkeys := List.pairwise_map.1 h.nodup
    refine hkeys.imp fun {a b} hne => List.disjoint_left.2 fun frame ha hb => hne ?_
    obtain ⟨_, -, rfl⟩ := List.mem_map.1 ha
    obtain ⟨_, -, heq⟩ := List.mem_map.1 hb
    simp only [Prod.mk.injEq] at heq
    exact Prod.ext heq.1.symm (Prod.ext heq.2.2.1.symm heq.2.2.2.symm)

end Bounds

end Topology

/-- **Flooding stops.** In every run with fewer than 2^32 broadcasts, whatever is in flight at its start:
an update from an origin that is stored has a higher number, each router writes each number of an origin
once at most, no frame is written twice, and there is a bound on the frames written and on the steps. -/
theorem flooding_stops {T : Topology} {frames : List Frame} {events : List Event} {t : Network}
    (hframes : ∀ frame ∈ frames, frame.receiver ∈ T.ids ∧ frame.packet.Within T.ids)
    (hbound : broadcasts events < 2 ^ 32) (hrun : T.machine.run (T.start frames) events = some t) :
    (∀ frame ∈ t.frames, ∀ router orig,
      (t.routers frame.receiver).updateRoutingTable frame.packet = some (true, router) →
      (t.routers frame.receiver).stored frame.packet.origin = some orig →
      router.stored frame.packet.origin = some frame.packet ∧ orig.seqNum < frame.packet.seqNum) ∧
    (t.log.map Transmission.key).Nodup ∧ (written t.log).Nodup ∧
    (written t.log).length ≤ maxNumRouters * (maxNumRouters * (frames.length + broadcasts events)) ∧
    events.length ≤ frames.length + broadcasts events +
      maxNumRouters * (maxNumRouters * (frames.length + broadcasts events)) := by
  have hstart := T.sound_start hframes
  obtain ⟨hsound, hflooded, -⟩ := hstart.run
    (I := T.Flooded (frames.map fun frame => frame.packet.number))
    (fun v => by change 0 + _ < _; rwa [Nat.zero_add]) (Topology.flooded_start frames)
    (fun _ _ _ h hwrap hI hstep => hI.step h hwrap hstep) hrun
  obtain ⟨hannounced, hcounts⟩ := hstart.run_counts hrun
  have hwritten : (written t.log).length ≤
      maxNumRouters * (maxNumRouters * (frames.length + broadcasts events)) := by
    have hlog := hflooded.length_log_le
    rw [hannounced, List.length_map] at hlog
    refine hflooded.length_written_le.trans (Nat.mul_le_mul_left _ (hlog.trans ?_))
    exact Nat.mul_le_mul_left _ (by rw [Topology.start]; simp [announced])
  refine ⟨fun frame hframe router orig hupdate horig => ?_, hflooded.nodup, hflooded.nodup_written,
    hwritten, ?_⟩
  · obtain ⟨-, hstored, hlt⟩ :=
      (hsound.routers _ (hsound.frames frame hframe).1).valid.update_true hupdate
    exact ⟨hstored, hlt orig horig⟩
  · have hzero : (written (T.start frames).log).length = 0 := rfl
    have hinit : (T.start frames).frames.length = frames.length := rfl
    omega

theorem flooding_stops_triangle : ∃ t, triangle.machine.run (triangle.start [⟨66, 3, ⟨67, 0, 7, []⟩⟩])
    [.broadcast 65, .deliver 0, .deliver 0] = some t ∧ (t.log.map Transmission.key).Nodup ∧
    (written t.log).Nodup ∧ (written t.log).length ≤ 32 * (32 * 2) := by
  have hrun : (triangle.machine.run (triangle.start [⟨66, 3, ⟨67, 0, 7, []⟩⟩])
      [.broadcast 65, .deliver 0, .deliver 0]).isSome := by decide +kernel
  obtain ⟨t, ht⟩ := Option.isSome_iff_exists.1 hrun
  obtain ⟨-, hlog, hwritten, hlength, -⟩ := flooding_stops (by decide) (by decide) ht
  exact ⟨t, ht, hlog, hwritten, hlength⟩

end NetworkSystems.LinkState
