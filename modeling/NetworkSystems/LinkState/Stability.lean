import NetworkSystems.LinkState.Convergence
import Mathlib.Algebra.Order.BigOperators.Group.Finset

/-!
# The end of the flooding

The rows of a router never change, so a second packet of an origin looks like the first one and is
discarded without a trace. Each router forwards one packet of each other router at most. So whatever is in
flight comes to rest, with all tables computed, and later broadcasts do not get beyond the neighbors.
-/

namespace NetworkSystems.LinkState

/-! ### Packets that tell nothing new -/

theorem packetHasUpdate_of_same {orig packet : LsPacket} (hentries : packet.entries = orig.entries)
    (hne : packet.entries ≠ []) : packetHasUpdate orig packet = false := by
  rw [Bool.eq_false_iff]
  intro hupdate
  exact hne ((packetHasUpdate_iff.1 hupdate).2 (LsPacket.looksLike_of_eq hentries))

namespace Router

section Same

variable {router router' : Router} {packet orig : LsPacket} {b : Bool}

theorem Valid.store_same (h : router.Valid) (hself : packet.origin ≠ router.id)
    (horig : router.stored packet.origin = some orig) (hentries : packet.entries = orig.entries)
    (hne : packet.entries ≠ []) : router.store packet = some (false, router) := by
  obtain ⟨e, hentry, hpacket⟩ := stored_eq_some.1 horig
  have hlt := h.lt_of_entry hentry
  cases hidx : router.indexOf packet.origin with
  | none =>
      rw [entry_eq_none.2 hidx] at hentry
      cases hentry
  | some i =>
      obtain ⟨e', hget, hentry'⟩ := exists_entry hidx
      obtain rfl := Option.some.inj (hentry.symm.trans hentry')
      have hkeep : ({ e with packet := some orig } : RoutingEntry) = e := by rw [← hpacket]
      have hset : router.destinations.set i e = router.destinations := by
        obtain ⟨hi, rfl⟩ := List.getElem?_eq_some_iff.1 hget
        exact List.set_getElem_self hi
      rw [Router.store, if_neg hself, h.getRoutingEntryForNode hlt]
      simp only [hidx, hget, Option.map_some, hpacket, Option.getD_some,
        packetHasUpdate_of_same hentries hne, Bool.false_eq_true, if_false, hkeep]
      rw [Router.setEntry, hset]

theorem Valid.update_unchanged (h : router.Valid) (hsame : packet.origin = router.id ∨
      ∃ orig, router.stored packet.origin = some orig ∧ packet.entries = orig.entries ∧
        packet.entries ≠ [])
    (hupdate : router.updateRoutingTable packet = some (b, router')) : b = false ∧ router' = router := by
  have hstore : router.store packet = some (false, router) := by
    by_cases hself : packet.origin = router.id
    · rw [Router.store, if_pos hself]
    · obtain ⟨orig, horig, hentries, hne⟩ := hsame.resolve_left hself
      exact h.store_same hself horig hentries hne
  rw [updateRoutingTable, hstore] at hupdate
  cases hupdate
  exact ⟨rfl, rfl⟩

end Same

end Router

/-- Who has forwarded a packet of whom. -/
def forwarded (log : List Transmission) : List (UInt8 × UInt8) :=
  (log.filter fun sent => sent.packet.origin ≠ sent.sender).map fun sent => (sent.sender, sent.packet.origin)

theorem forwarded_cons (sent : Transmission) (log : List Transmission) :
    forwarded (sent :: log) = (if sent.packet.origin ≠ sent.sender then
      [(sent.sender, sent.packet.origin)] else []) ++ forwarded log := by
  rw [forwarded, List.filter_cons]
  by_cases h : sent.packet.origin ≠ sent.sender
  · rw [if_pos (decide_eq_true h), if_pos h]
    rfl
  · rw [if_neg (by simpa using h), if_neg h]
    rfl

theorem length_announced_add_forwarded (log : List Transmission) :
    (announced log).length + (forwarded log).length = log.length := by
  induction log with
  | nil => rfl
  | cons sent log ih =>
      have hsplit := Topology.announced_cons sent log
      rw [hsplit, forwarded_cons, List.length_append, List.length_append, List.length_cons]
      by_cases h : sent.packet.origin = sent.sender
      · rw [if_pos h, if_neg (not_not.2 h), List.length_singleton, List.length_nil]
        omega
      · rw [if_neg h, if_pos h, List.length_singleton, List.length_nil]
        omega

namespace Topology

section Step

variable {T : Topology} {s t : Network} {e : Event} {v x : UInt8} {frame : Frame} {router : Router}

/-- In a connected network every router that is not alone has rows. -/
theorem Connected.tables_ne (h : T.Connected) (hx : x ∈ T.ids) (hv : v ∈ T.ids) (hne : x ≠ v) :
    T.tables x ≠ [] := by
  intro hnil
  obtain ⟨c, hwalk⟩ := h x hx v hv
  suffices heq : v = x from hne heq.symm
  clear hne hv
  induction hwalk with
  | nil => rfl
  | snoc hwalk hlink ih =>
      obtain ⟨link, hmem, -⟩ := hlink
      rw [ih, hnil] at hmem
      cases hmem

theorem Converging.unchanged (hconv : T.Converging s) (h : T.Sound s) (hlinked : T.Linked) {b : Bool}
    (hframe : frame ∈ s.frames) (hknown : Has s frame.receiver frame.packet.origin)
    (hupdate : (s.routers frame.receiver).updateRoutingTable frame.packet = some (b, router)) :
    b = false ∧ router = s.routers frame.receiver := by
  obtain ⟨hreceiver, hpacket⟩ := h.frames frame hframe
  have hrouter := h.routers _ hreceiver
  refine hrouter.valid.update_unchanged ?_ hupdate
  rw [hrouter.id]
  by_cases hself : frame.packet.origin = frame.receiver
  · exact Or.inl hself
  · obtain ⟨orig, horig⟩ := hknown.resolve_left (Ne.symm hself)
    have hentries := (hconv.frames frame hframe).2
    refine Or.inr ⟨orig, horig, hentries.trans (hconv.stored _ hreceiver _ _ horig).symm, ?_⟩
    rw [hentries]
    exact hlinked.connected.tables_ne hpacket.origin hreceiver hself

/-- An update is the first packet of its origin. -/
theorem Converging.first (hconv : T.Converging s) (h : T.Sound s) (hlinked : T.Linked)
    (hframe : frame ∈ s.frames)
    (hupdate : (s.routers frame.receiver).updateRoutingTable frame.packet = some (true, router)) :
    frame.receiver ≠ frame.packet.origin ∧
      (s.routers frame.receiver).stored frame.packet.origin = none := by
  have hnot : ¬ Has s frame.receiver frame.packet.origin := fun hknown =>
    Bool.noConfusion (hconv.unchanged h hlinked hframe hknown hupdate).1
  refine ⟨fun heq => hnot (Or.inl heq), ?_⟩
  rw [Option.eq_none_iff_forall_ne_some]
  exact fun p hp => hnot (Or.inr ⟨p, hp⟩)

theorem forwarded_announcement (T : Topology) (s : Network) (v : UInt8) (log : List Transmission) :
    forwarded (⟨v, T.announcement s v, (T.rows v).zipIdx⟩ :: log) = forwarded log := by
  rw [forwarded_cons, if_neg (by rw [announcement]; exact not_not.2 rfl), List.nil_append]

/-- Each router has forwarded at most one packet of each other one, and it has stored one. -/
structure Once (T : Topology) (s : Network) : Prop where
  nodup : (forwarded s.log).Nodup
  stored : ∀ key ∈ forwarded s.log, key ∈ T.ids.set.offDiag ∧
    ∃ p, (s.routers key.1).stored key.2 = some p

theorem once_start (frames : List Frame) : T.Once (T.start frames) := ⟨List.nodup_nil, nofun⟩

theorem Once.step (honce : T.Once s) (hconv : T.Converging s) (h : T.Sound s) (hlinked : T.Linked)
    (hstep : T.machine.step s e = some t) : T.Once t := by
  have hkept : ∀ key ∈ forwarded s.log, key ∈ T.ids.set.offDiag ∧
      ∃ p, (t.routers key.1).stored key.2 = some p := by
    intro key hkey
    obtain ⟨hids, p, hp⟩ := honce.stored key hkey
    obtain ⟨p', hp', -⟩ := h.stored_step hstep (Finset.mem_offDiag.1 hids).1 hp
    exact ⟨hids, p', hp'⟩
  rcases h.step_cases hstep with ⟨v, hv, -, rfl⟩ | ⟨i, frame, router, b, -, hframe, hupdate, rfl⟩
  · have hlog := T.forwarded_announcement s v s.log
    exact ⟨hlog.symm ▸ honce.nodup, hlog.symm ▸ hkept⟩
  · cases b with
    | false => exact ⟨honce.nodup, hkept⟩
    | true =>
        have hmem := List.mem_of_getElem? hframe
        obtain ⟨hreceiver, hpacket⟩ := h.frames frame hmem
        obtain ⟨hself, hnone⟩ := hconv.first h hlinked hmem hupdate
        have hlog : forwarded (T.next s frame.receiver router (s.frames.eraseIdx i)
            [⟨frame.receiver, frame.packet, (T.rows frame.receiver).zipIdx.filter fun row =>
              row.1.sockFd ≠ frame.fd⟩]).log =
            (frame.receiver, frame.packet.origin) :: forwarded s.log := by
          rw [Topology.next, List.singleton_append, forwarded_cons, if_pos (Ne.symm hself)]
          rfl
        rw [if_pos rfl] at hkept ⊢
        refine ⟨?_, ?_⟩
        · rw [hlog, List.nodup_cons]
          refine ⟨fun hmem => ?_, honce.nodup⟩
          obtain ⟨-, p, hp⟩ := honce.stored _ hmem
          cases hnone.symm.trans hp
        · rw [hlog]
          refine List.forall_mem_cons.2 ⟨⟨Finset.mem_offDiag.2 ⟨hreceiver, hpacket.origin, hself⟩,
            frame.packet, ?_⟩, hkept⟩
          rw [next_routers, if_pos rfl]
          exact ((h.routers _ hreceiver).valid.update_true hupdate).2.1

theorem Once.length_log_le (honce : T.Once s) :
    s.log.length ≤ (announced s.log).length + T.ids.set.card * (T.ids.set.card - 1) := by
  have hsub : (forwarded s.log).toFinset ⊆ T.ids.set.offDiag := fun key hkey =>
    (honce.stored key (List.mem_toFinset.1 hkey)).1
  have hcard := Finset.card_le_card hsub
  rw [List.toFinset_card_of_nodup honce.nodup, Finset.offDiag_card, ← Nat.mul_sub_one] at hcard
  have := length_announced_add_forwarded s.log
  omega

/-! ### What is still to be read -/

/-- What one router has still to write to its rows, if it has not heard of the other one. -/
def owes (T : Topology) (s : Network) (key : UInt8 × UInt8) : ℕ :=
  if (s.routers key.1).stored key.2 = none then (T.rows key.1).length else 0

/-- The frames that are in flight, or that will be if nobody broadcasts any more. -/
def pending (T : Topology) (s : Network) : ℕ := s.frames.length + ∑ key ∈ T.ids.set.offDiag, T.owes s key

theorem Converging.pending_lt {i : Nat} (hconv : T.Converging s) (h : T.Sound s) (hlinked : T.Linked)
    (hstep : T.machine.step s (.deliver i) = some t) : T.pending t < T.pending s := by
  have howes : ∀ key ∈ T.ids.set.offDiag, T.owes t key ≤ T.owes s key := by
    intro key hkey
    rw [owes, owes]
    cases hp : (s.routers key.1).stored key.2 with
    | none =>
        rw [if_pos rfl]
        split
        case isTrue => exact Nat.le_refl _
        case isFalse => exact Nat.zero_le _
    | some p =>
        obtain ⟨p', hp', -⟩ := h.stored_step hstep (Finset.mem_offDiag.1 hkey).1 hp
        simp [hp']
  have hcounts := (h.step_counts hstep).2
  rw [Event.isBroadcast, if_neg Bool.false_ne_true] at hcounts
  rcases h.step_cases hstep with ⟨v, -, he, -⟩ | ⟨j, frame, router, b, -, hframe, hupdate, ht⟩
  · cases he
  · have hmem := List.mem_of_getElem? hframe
    obtain ⟨hreceiver, hpacket⟩ := h.frames frame hmem
    cases b with
    | false =>
        have hlog : t.log = s.log := by rw [ht]; rfl
        have hsum := Finset.sum_le_sum howes
        rw [hlog] at hcounts
        rw [pending, pending]
        omega
    | true =>
        obtain ⟨hself, hnone⟩ := hconv.first h hlinked hmem hupdate
        have hkey : (frame.receiver, frame.packet.origin) ∈ T.ids.set.offDiag :=
          Finset.mem_offDiag.2 ⟨hreceiver, hpacket.origin, hself⟩
        -- The receiver pays off all its rows, and writes to some of them.
        have hpaid : T.owes t (frame.receiver, frame.packet.origin) = 0 := by
          rw [owes, ht, next_routers, if_pos rfl,
            ((h.routers _ hreceiver).valid.update_true hupdate).2.1, if_neg (Option.some_ne_none _)]
        have hdue : T.owes s (frame.receiver, frame.packet.origin) = (T.rows frame.receiver).length := by
          rw [owes, hnone, if_pos rfl]
        have hsum : ∑ key ∈ T.ids.set.offDiag, T.owes t key + (T.rows frame.receiver).length ≤
            ∑ key ∈ T.ids.set.offDiag, T.owes s key := by
          rw [← Finset.sum_erase_add _ _ hkey, ← Finset.sum_erase_add _ _ hkey, hpaid, hdue, Nat.add_zero]
          exact Nat.add_le_add_right
            (Finset.sum_le_sum fun key hmem => howes key (Finset.mem_of_mem_erase hmem)) _
        have hwritten : (written t.log).length ≤
            (T.rows frame.receiver).length + (written s.log).length := by
          rw [ht, if_pos rfl, Topology.next, List.singleton_append, length_written_cons]
          refine Nat.add_le_add_right ((List.length_filter_le _ _).trans ?_) _
          rw [List.length_zipIdx]
        rw [pending, pending]
        omega

end Step

/-! ### Runs from the start -/

section Run

variable {T : Topology} {s t : Network} {events : List Event}

structure Started (T : Topology) (s : Network) : Prop where
  sound : T.Sound s
  converging : T.Converging s
  once : T.Once s

theorem started_start : T.Started (T.start []) := ⟨T.sound_start (by simp), converging_start, once_start []⟩

theorem Started.step {e : Event} (h : T.Started s) (hlinked : T.Linked) (hwrap : NoWrap s e)
    (hstep : T.machine.step s e = some t) : T.Started t :=
  ⟨h.sound.step hstep, h.converging.step h.sound hlinked hwrap hstep,
    h.once.step h.converging h.sound hlinked hstep⟩

theorem started_run (hlinked : T.Linked) (hbound : broadcasts events < 2 ^ 32)
    (hrun : T.machine.run (T.start []) events = some t) : T.Started t ∧
      ∀ v, (t.routers v).seqNum.toNat = events.count (.broadcast v) := by
  obtain ⟨-, hstarted, hnum⟩ := started_start.sound.run (I := T.Started)
    (fun v => by change 0 + _ < _; rwa [Nat.zero_add]) started_start
    (fun _ _ _ _ hwrap hI hstep => hI.step hlinked hwrap hstep) hrun
  refine ⟨hstarted, fun v => (hnum v).trans ?_⟩
  exact Nat.zero_add _

theorem Started.converged (h : T.Started s) (hlinked : T.Linked) (hquiet : s.frames = [])
    (hnum : ∀ v ∈ T.ids, (s.routers v).seqNum ≠ 0) {v : UInt8} (hv : v ∈ T.ids) :
    Converged T v (s.routers v) := by
  refine Informed.converged ⟨h.sound.routers v hv, fun x hx hne => ?_⟩ hv hlinked.connected
  obtain ⟨c, hwalk⟩ := hlinked.connected x hx v hv
  obtain ⟨p, hp⟩ := (h.converging.has_of_walk hquiet (hnum x hx) hwalk).resolve_left (Ne.symm hne)
  exact ⟨p, hp, h.converging.stored v hv x p hp⟩

def Acquainted (T : Topology) (s : Network) : Prop :=
  ∀ v ∈ T.ids, ∀ x ∈ T.ids, Has s v x

theorem Started.informed (h : T.Started s) (hall : T.Acquainted s) {v : UInt8} (hv : v ∈ T.ids) :
    T.Informed v (s.routers v) := by
  refine ⟨h.sound.routers v hv, fun x hx hne => ?_⟩
  obtain ⟨p, hp⟩ := (hall v hv x hx).resolve_left (Ne.symm hne)
  exact ⟨p, hp, h.converging.stored v hv x p hp⟩

/-- After that a step changes nothing but a number, and nothing is forwarded. -/
theorem Started.quiet {e : Event} (h : T.Started s) (hlinked : T.Linked) (hall : T.Acquainted s)
    (hstep : T.machine.step s e = some t) :
    (∀ v, t.routers v = { s.routers v with seqNum := (t.routers v).seqNum }) ∧
      forwarded t.log = forwarded s.log := by
  rcases h.sound.step_cases hstep with ⟨v, -, -, rfl⟩ | ⟨i, frame, router, b, -, hframe, hupdate, rfl⟩
  · refine ⟨fun x => ?_, ?_⟩
    · rw [next_routers]
      split
      case isTrue heq => rw [heq]
      case isFalse => rfl
    · exact T.forwarded_announcement s v s.log
  · have hmem := List.mem_of_getElem? hframe
    obtain ⟨hreceiver, hpacket⟩ := h.sound.frames frame hmem
    obtain ⟨rfl, rfl⟩ := h.converging.unchanged h.sound hlinked hmem
      (hall _ hreceiver _ hpacket.origin) hupdate
    refine ⟨fun x => ?_, rfl⟩
    exact next_rule (P := fun r => r = { s.routers x with seqNum := r.seqNum })
      (fun heq => by rw [heq]) fun _ => rfl

theorem Acquainted.step {e : Event} (hall : T.Acquainted s) (h : T.Sound s)
    (hstep : T.machine.step s e = some t) : T.Acquainted t :=
  fun v hv x hx => (hall v hv x hx).step h hv hstep

theorem noWrap_delivery {e : Event} (h : e.isBroadcast = false) : NoWrap s e := by
  rintro v rfl
  cases h

theorem count_le_broadcasts (v : UInt8) (events : List Event) :
    events.count (.broadcast v) ≤ broadcasts events :=
  List.countP_mono_left fun e _ he => by rw [eq_of_beq he]; rfl

end Run

end Topology

end NetworkSystems.LinkState
