import NetworkSystems.LinkState.Update

/-!
# Freshness

One router that receives packets. What it stores for an origin follows the packet with the highest
sequence number, unless the filter takes a changed packet for a repetition.
-/

namespace NetworkSystems.LinkState

/-- A router with the packets it has received. -/
structure Listener where
  router : Router
  received : List LsPacket

def listening : Machine Listener LsPacket where
  step s packet := (s.router.updateRoutingTable packet).map fun updated =>
    ⟨updated.2, packet :: s.received⟩

def Listener.parsed (id : UInt8) (rows : List Neighbor) : Listener := ⟨.parsed id rows, []⟩

/-- The packet is the newest one of its origin. -/
def NewestOf (packets : List LsPacket) (packet : LsPacket) : Prop :=
  ∀ other ∈ packets, other.origin = packet.origin → other.seqNum ≤ packet.seqNum

instance (packets : List LsPacket) (packet : LsPacket) : Decidable (NewestOf packets packet) :=
  inferInstanceAs (Decidable (∀ other ∈ packets, _ → _))

/-- The entries stored for an origin are those of its newest packet. -/
def Fresh (x : UInt8) (s : Listener) : Prop :=
  ∀ packet ∈ s.received, packet.origin = x → NewestOf s.received packet →
    (s.router.stored x).map LsPacket.entries = some packet.entries

instance (x : UInt8) (s : Listener) : Decidable (Fresh x s) :=
  inferInstanceAs (Decidable (∀ packet ∈ s.received, _ → _ → _))

/-- A packet that is newer than the one stored. If it is the newest of all, it looks like the one stored
only if it repeats it. If it is not, it looks like the one stored. -/
def Telling (x : UInt8) (s : Listener) (packet : LsPacket) : Prop :=
  packet.origin = x → ∀ orig ∈ s.router.stored x, orig.seqNum < packet.seqNum →
    if NewestOf s.received packet then packet.LooksLike orig → packet.entries = orig.entries
    else packet.LooksLike orig

instance (x : UInt8) (s : Listener) (packet : LsPacket) : Decidable (Telling x s packet) :=
  inferInstanceAs (Decidable (_ → ∀ orig ∈ s.router.stored x, _ → _))

/-- The sequence number is at least 1 and has not been there before. -/
def Numbered (x : UInt8) (s : Listener) (packet : LsPacket) : Prop :=
  packet.origin = x → packet.seqNum ≠ 0 ∧
    ∀ other ∈ s.received, other.origin = x → other.seqNum ≠ packet.seqNum

/-- What the router has stored for `x` is a packet of `x` that it has received, and there is one as soon
as it has received any. -/
structure Listens (x : UInt8) (s : Listener) : Prop where
  valid : s.router.Valid
  ne : x ≠ s.router.id
  stored : ∀ orig, s.router.stored x = some orig → orig ∈ s.received ∧ orig.origin = x
  absent : s.router.stored x = none → ∀ packet ∈ s.received, packet.origin ≠ x

section Step

variable {x : UInt8} {s t : Listener} {packet orig : LsPacket} {packets : List LsPacket}

theorem newestOf_cons {q : LsPacket} : NewestOf (packet :: packets) q ↔
    (packet.origin = q.origin → packet.seqNum ≤ q.seqNum) ∧ NewestOf packets q :=
  List.forall_mem_cons

theorem exists_newestOf (h : packet ∈ packets) :
    ∃ newest ∈ packets, newest.origin = packet.origin ∧ NewestOf packets newest := by
  have hmem : packet ∈ packets.filter fun q => q.origin = packet.origin :=
    List.mem_filter.2 ⟨h, decide_eq_true rfl⟩
  cases hmax : (packets.filter fun q => q.origin = packet.origin).argmax fun q => q.seqNum.toNat with
  | none =>
      rw [List.argmax_eq_none.1 hmax] at hmem
      cases hmem
  | some newest =>
      obtain ⟨hin, horigin⟩ := List.mem_filter.1 (List.argmax_mem hmax)
      have horigin := of_decide_eq_true horigin
      refine ⟨newest, hin, horigin, fun q hq hqo => UInt32.le_iff_toNat_le.2 ?_⟩
      exact List.le_of_mem_argmax (f := fun q : LsPacket => q.seqNum.toNat)
        (List.mem_filter.2 ⟨hq, decide_eq_true (hqo.trans horigin)⟩) hmax

theorem entries_of_lt (hseq : orig.seqNum < packet.seqNum) :
    (if packetHasUpdate orig packet then packet else orig).entries =
      if packet.LooksLike orig then orig.entries else packet.entries := by
  by_cases hlooks : packet.LooksLike orig
  · rw [if_pos hlooks]
    by_cases hupdate : packetHasUpdate orig packet = true
    · have hnil := (packetHasUpdate_iff.1 hupdate).2 hlooks
      rw [if_pos hupdate, hnil]
      rw [LsPacket.LooksLike, hnil] at hlooks
      exact (List.length_eq_zero_iff.1 hlooks.1.symm).symm
    · rw [if_neg hupdate]
  · have hupdate := packetHasUpdate_iff.2 ⟨hseq, fun h => absurd h hlooks⟩
    rw [if_neg hlooks, if_pos hupdate]

theorem listening_step (hstep : listening.step s packet = some t) : ∃ b router,
    s.router.updateRoutingTable packet = some (b, router) ∧ t = ⟨router, packet :: s.received⟩ := by
  obtain ⟨⟨b, router⟩, hupdate, rfl⟩ := Option.map_eq_some_iff.1 hstep
  exact ⟨b, router, hupdate, rfl⟩

theorem listens_parsed {id : UInt8} {rows : List Neighbor} (hrows : rows.length ≤ maxNumRouters)
    (hx : x ≠ id) : Listens x (.parsed id rows) where
  valid := Router.parsed_valid hrows
  ne := hx
  stored := nofun
  absent _ := nofun

theorem Listens.step_cases (h : Listens x s) (hnum : Numbered x s packet)
    (hstep : listening.step s packet = some t) : t.received = packet :: s.received ∧
    t.router.Valid ∧ t.router.id = s.router.id ∧
    ((packet.origin ≠ x ∧ t.router.stored x = s.router.stored x) ∨
      (packet.origin = x ∧ s.router.stored x = none ∧ t.router.stored x = some packet) ∨
      ∃ orig, packet.origin = x ∧ s.router.stored x = some orig ∧
        t.router.stored x = some (if packetHasUpdate orig packet then packet else orig)) := by
  obtain ⟨b, router, hupdate, rfl⟩ := listening_step hstep
  obtain ⟨mid, hstore, hkeeps, hvalid⟩ := h.valid.update_store hupdate
  obtain ⟨hid, -, -, hother⟩ := h.valid.update_same hupdate
  refine ⟨rfl, hvalid, hid, ?_⟩
  by_cases hx : packet.origin = x
  · have hself : packet.origin ≠ s.router.id := hx ▸ h.ne
    apply Or.inr
    simp only [hkeeps.stored]
    cases hstored : s.router.stored x with
    | none =>
        refine Or.inl ⟨hx, rfl, ?_⟩
        rw [← hx] at hstored ⊢
        exact (h.valid.store_first hself hstored (Or.inl (hnum hx).1) hstore).2
    | some orig =>
        refine Or.inr ⟨orig, hx, rfl, ?_⟩
        rw [← hx] at hstored ⊢
        obtain ⟨rfl, hnext⟩ := h.valid.store_next hself hstored hstore
        exact hnext
  · exact Or.inl ⟨hx, hother x (Ne.symm hx)⟩

theorem Listens.step (h : Listens x s) (hnum : Numbered x s packet)
    (hstep : listening.step s packet = some t) : Listens x t := by
  obtain ⟨hreceived, hvalid, hid, hcases⟩ := h.step_cases hnum hstep
  refine ⟨hvalid, hid ▸ h.ne, fun orig horig => ?_, fun hnone => ?_⟩
  · rw [hreceived]
    rcases hcases with ⟨-, hsame⟩ | ⟨hx, -, hfirst⟩ | ⟨old, hx, hold, hnext⟩
    · obtain ⟨hmem, hox⟩ := h.stored orig (hsame ▸ horig)
      exact ⟨List.mem_cons_of_mem _ hmem, hox⟩
    · cases hfirst.symm.trans horig
      exact ⟨List.mem_cons_self, hx⟩
    · have hchoice := Option.some.inj (hnext.symm.trans horig)
      split at hchoice
      case isTrue => exact hchoice ▸ ⟨List.mem_cons_self, hx⟩
      case isFalse =>
        obtain ⟨hmem, hox⟩ := h.stored old hold
        exact hchoice ▸ ⟨List.mem_cons_of_mem _ hmem, hox⟩
  · rcases hcases with ⟨hx, hsame⟩ | ⟨-, -, hfirst⟩ | ⟨_, -, -, hnext⟩
    · rw [hreceived]
      exact List.forall_mem_cons.2 ⟨hx, h.absent (hsame ▸ hnone)⟩
    · rw [hfirst] at hnone
      cases hnone
    · rw [hnext] at hnone
      cases hnone

/-- Either the packet that arrives is the newest of all, or the newest one so far stays it. -/
theorem fresh_cons_iff (hx : packet.origin = x) (hnumber : ∀ q ∈ s.received, q.origin = x →
    q.seqNum ≠ packet.seqNum) (horigmem : orig ∈ s.received) (horigx : orig.origin = x)
    (hentries : ∀ q ∈ s.received, q.origin = x → NewestOf s.received q → orig.entries = q.entries)
    (hreceived : t.received = packet :: s.received) {e : LsPacket} (he : t.router.stored x = some e) :
    Fresh x t ↔
      e.entries = if NewestOf s.received packet then packet.entries else orig.entries := by
  simp only [Fresh, hreceived, he, Option.map_some, Option.some.injEq]
  by_cases hpacket : NewestOf s.received packet
  · rw [if_pos hpacket]
    constructor
    · intro hall
      exact hall packet List.mem_cons_self hx
        (newestOf_cons.2 ⟨fun _ => UInt32.le_refl _, hpacket⟩)
    · intro heq q hq hqx hqnew
      rcases List.mem_cons.1 hq with rfl | hq
      · exact heq
      · have hle := (newestOf_cons.1 hqnew).1 (hx.trans hqx.symm)
        have hge := hpacket q hq (hqx.trans hx.symm)
        exact absurd (UInt32.le_antisymm hge hle) (hnumber q hq hqx)
  · rw [if_neg hpacket]
    constructor
    · intro hall
      obtain ⟨newest, hmem, hnewx, hnew⟩ := exists_newestOf horigmem
      rw [horigx] at hnewx
      rw [hentries newest hmem hnewx hnew]
      refine hall newest (List.mem_cons_of_mem _ hmem) hnewx (newestOf_cons.2 ⟨fun _ => ?_, hnew⟩)
      by_contra hlt
      refine hpacket fun q hq hqx => ?_
      have hq := hnew q hq ((hqx.trans hx).trans hnewx.symm)
      exact UInt32.le_trans hq (UInt32.le_of_lt (UInt32.not_le.1 hlt))
    · intro heq q hq hqx hqnew
      rcases List.mem_cons.1 hq with rfl | hq
      · exact absurd (newestOf_cons.1 hqnew).2 hpacket
      · rw [heq, hentries q hq hqx (newestOf_cons.1 hqnew).2]

theorem entries_choice_iff (hseq : orig.seqNum < packet.seqNum) :
    (if packetHasUpdate orig packet then packet else orig).entries =
        (if NewestOf packets packet then packet.entries else orig.entries) ↔
      if NewestOf packets packet then packet.LooksLike orig → packet.entries = orig.entries
      else packet.LooksLike orig := by
  rw [entries_of_lt hseq]
  by_cases hpacket : NewestOf packets packet
  · rw [if_pos hpacket, if_pos hpacket]
    by_cases hlooks : packet.LooksLike orig
    · rw [if_pos hlooks]
      exact ⟨fun heq _ => heq.symm, fun himp => (himp hlooks).symm⟩
    · rw [if_neg hlooks]
      exact iff_of_true rfl fun h => absurd h hlooks
  · rw [if_neg hpacket, if_neg hpacket]
    by_cases hlooks : packet.LooksLike orig
    · rw [if_pos hlooks]
      exact iff_of_true rfl hlooks
    · rw [if_neg hlooks]
      exact ⟨LsPacket.looksLike_of_eq, fun h => absurd h hlooks⟩

/-- **One arrival.** What is stored stays fresh exactly if the arriving packet tells. -/
theorem Listens.fresh_iff (h : Listens x s) (hnum : Numbered x s packet) (hfresh : Fresh x s)
    (hstep : listening.step s packet = some t) : Fresh x t ↔ Telling x s packet := by
  obtain ⟨hreceived, -, -, hcases⟩ := h.step_cases hnum hstep
  rcases hcases with ⟨hx, hsame⟩ | ⟨hx, hnone, hfirst⟩ | ⟨orig, hx, horig, hnext⟩
  · -- a packet of another origin
    refine iff_of_true (fun q hq hqx hqnew => ?_) fun heq => absurd heq hx
    rw [hreceived] at hq hqnew
    rcases List.mem_cons.1 hq with rfl | hq
    · exact absurd hqx hx
    · exact hsame ▸ hfresh q hq hqx (newestOf_cons.1 hqnew).2
  · -- the first packet
    refine iff_of_true (fun q hq hqx _ => ?_) fun _ orig horig => ?_
    · rw [hreceived] at hq
      rcases List.mem_cons.1 hq with rfl | hq
      · rw [hfirst, Option.map_some]
      · exact absurd hqx (h.absent hnone q hq)
    · rw [hnone] at horig
      cases horig
  · -- a packet of `x` when one is stored already
    obtain ⟨horigmem, horigx⟩ := h.stored orig horig
    have hentries : ∀ q ∈ s.received, q.origin = x → NewestOf s.received q →
        orig.entries = q.entries := fun q hq hqx hqnew => by
      simpa only [horig, Option.map_some, Option.some.injEq] using hfresh q hq hqx hqnew
    have htelling : Telling x s packet ↔ (orig.seqNum < packet.seqNum →
        if NewestOf s.received packet then packet.LooksLike orig → packet.entries = orig.entries
        else packet.LooksLike orig) := by
      simp only [Telling, hx, horig, Option.mem_def, Option.some.injEq, forall_eq', true_imp_iff]
    rw [fresh_cons_iff hx (hnum hx).2 horigmem horigx hentries hreceived hnext, htelling]
    by_cases hseq : orig.seqNum < packet.seqNum
    · rw [imp_iff_right hseq]
      exact entries_choice_iff hseq
    · have hold : packetHasUpdate orig packet ≠ true := fun h => hseq (packetHasUpdate_iff.1 h).1
      have hpacket : ¬ NewestOf s.received packet := fun hnewest =>
        (hnum hx).2 orig horigmem horigx (UInt32.le_antisymm
          (hnewest orig horigmem (horigx.trans hx.symm)) (UInt32.not_lt.1 hseq))
      rw [if_neg hold, if_neg hpacket]
      exact iff_of_true rfl fun h => absurd h hseq

end Step

section Run

variable {x id : UInt8} {rows : List Neighbor} {packets : List LsPacket} {t : Listener}

theorem within_numbered {s : Listener} (hnum : ∀ p ∈ packets, p.origin = x → p.seqNum ≠ 0)
    (hdistinct : packets.Pairwise fun p q => p.origin = x → q.origin = x → p.seqNum ≠ q.seqNum)
    (hnew : ∀ p ∈ packets, p.origin = x → ∀ q ∈ s.received, q.origin = x → q.seqNum ≠ p.seqNum) :
    listening.Within (Numbered x) s packets := by
  induction packets generalizing s with
  | nil => trivial
  | cons packet packets ih =>
      obtain ⟨hnum₀, hnum⟩ := List.forall_mem_cons.1 hnum
      obtain ⟨hdistinct₀, hdistinct⟩ := List.pairwise_cons.1 hdistinct
      obtain ⟨hnew₀, hnew⟩ := List.forall_mem_cons.1 hnew
      refine ⟨fun hx => ⟨hnum₀ hx, hnew₀ hx⟩, fun t hstep => ih hnum hdistinct fun p hp hpx q hq => ?_⟩
      obtain ⟨_, _, _, rfl⟩ := listening_step hstep
      rcases List.mem_cons.1 hq with rfl | hq
      · exact fun hqx => hdistinct₀ p hp hqx hpx
      · exact hnew p hp hpx q hq

/-- **Freshness.** What is stored for an origin follows its newest packet throughout a run exactly if
every packet of the run tells. -/
theorem fresh_iff_telling (hrows : rows.length ≤ maxNumRouters) (hx : x ≠ id)
    (hnum : ∀ p ∈ packets, p.origin = x → p.seqNum ≠ 0)
    (hdistinct : packets.Pairwise fun p q => p.origin = x → q.origin = x → p.seqNum ≠ q.seqNum)
    (hrun : listening.run (.parsed id rows) packets = some t) :
    listening.Throughout (Fresh x) (.parsed id rows) packets ↔
      listening.Within (Telling x) (.parsed id rows) packets :=
  listening.throughout_iff_within (I := Listens x) (D := Numbered x)
    (fun _ _ _ hI hnum _ _ hstep => hI.step hnum hstep)
    (fun _ _ _ hI hnum hfresh hstep => hI.fresh_iff hnum hfresh hstep)
    (listens_parsed hrows hx) nofun (within_numbered hnum hdistinct nofun) hrun

end Run

/-- Two packets of a router: the cost of the second entry changes. -/
def secondEntry : List LsPacket :=
  [⟨66, 0, 1, [⟨65, 1⟩, ⟨67, 2⟩]⟩, ⟨66, 0, 2, [⟨65, 1⟩, ⟨67, 3⟩]⟩]

theorem fresh_iff_telling_secondEntry :
    listening.Throughout (Fresh 66) (.parsed 65 [⟨66, 1, 3⟩]) secondEntry ↔
      listening.Within (Telling 66) (.parsed 65 [⟨66, 1, 3⟩]) secondEntry := by
  have hrun : (listening.run (.parsed 65 [⟨66, 1, 3⟩]) secondEntry).isSome := by decide
  obtain ⟨t, ht⟩ := Option.isSome_iff_exists.1 hrun
  exact fresh_iff_telling (by decide) (by decide) (by decide) (by decide) ht

theorem not_fresh :
    (∀ p ∈ secondEntry, p.origin = 66 ∧ p.seqNum ≠ 0 ∧ p.entries.length ≤ maxNumRouters) ∧
      (secondEntry.map LsPacket.seqNum).Nodup ∧
      ∃ t, listening.run (.parsed 65 [⟨66, 1, 3⟩]) secondEntry = some t ∧ ¬ Fresh 66 t := by
  decide

end NetworkSystems.LinkState
