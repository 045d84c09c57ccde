import NetworkSystems.Gbn.SendingWindow

/-!
# Sequence numbers that wrap

Both windows compare a number with their base and with six more than their base, as `uint32_t`. The sum
wraps before the number does: for the last six bases it is smaller than the base, and no number passes
the two comparisons. A transfer that gets so far stays there.
-/

namespace NetworkSystems.Gbn

/-- The two comparisons come out true, and the difference is the offset. -/
def TestedAt (base s : UInt32) (d : Nat) : Prop := base ≤ s ∧ s < base + 6 ∧ (s - base).toNat = d

/-- Six more than the base does not wrap, or the number is none of the six that start at the base. -/
def Apart (base s : UInt32) : Prop :=
  base.toNat + defaultQueueSize < 2 ^ 32 ∨ defaultQueueSize ≤ (s - base).toNat

instance (base s : UInt32) : Decidable (Apart base s) := inferInstanceAs (Decidable (_ ∨ _))

namespace GbnWindow

/-- The ack case takes the number for the one at the offset. -/
def AcksAt (w : GbnWindow Ref) (s : UInt32) (d : Nat) : Prop := w.getSendFrameIdDelta s = d

/-- The data case takes the number for the one at the offset. -/
def TakesAt (w : GbnWindow Bytes) (s : UInt32) (d : Nat) : Prop :=
  w.InReceiveRange s ∧ (s - w.recvCounter).toNat = d

theorem acksAt_iff {w : GbnWindow Ref} {s : UInt32} {d : Nat} :
    w.AcksAt s d ↔ TestedAt (w.frame 0).seqNumber s d := by
  rw [AcksAt, getSendFrameIdDelta, TestedAt]
  by_cases hle : (w.frame 0).seqNumber ≤ s
  · by_cases hlt : s < (w.frame 0).seqNumber + 6
    · simp only [hle, hlt, if_true, true_and]
      exact Int.ofNat_inj
    · simp only [hle, hlt, if_true, if_false, false_and, and_false, iff_false]
      omega
  · simp only [hle, if_false, false_and, iff_false]
    omega

theorem takesAt_iff {w : GbnWindow Bytes} {s : UInt32} {d : Nat} :
    w.TakesAt s d ↔ TestedAt w.recvCounter s d := and_assoc

end GbnWindow

section Offsets

variable {base s : UInt32} {d : Nat}

theorem toNat_offset (hd : d < defaultQueueSize) : (UInt32.ofNat d).toNat = d := by
  simp only [defaultQueueSize] at hd
  exact UInt32.toNat_ofNat_of_lt' (by simp only [UInt32.size]; omega)

theorem eq_add_iff (hd : d < defaultQueueSize) : s = base + UInt32.ofNat d ↔ (s - base).toNat = d := by
  constructor
  · intro h
    rw [h, UInt32.add_comm, UInt32.add_sub_cancel, toNat_offset hd]
  · intro h
    rw [← h, UInt32.ofNat_toNat, UInt32.add_comm, UInt32.sub_add_cancel]

theorem not_testedAt (h : 2 ^ 32 ≤ base.toNat + defaultQueueSize) : ¬ TestedAt base s d := by
  rintro ⟨hle, hlt, -⟩
  obtain ⟨i, hi, -, hseq, hbound⟩ := window_offset hle hlt
  have hsix : (6 : UInt32).toNat = 6 := rfl
  rw [UInt32.lt_iff_toNat_lt, UInt32.toNat_add] at hlt
  have := base.toNat_lt
  simp only [defaultQueueSize] at h
  omega

theorem testedAt_iff (h : base.toNat + defaultQueueSize < 2 ^ 32) (hd : d < defaultQueueSize) :
    TestedAt base s d ↔ s = base + UInt32.ofNat d := by
  rw [eq_add_iff hd]
  refine ⟨fun htested => htested.2.2, fun hoffset => ?_⟩
  simp only [defaultQueueSize] at h hd
  have hsum : s.toNat = base.toNat + d := by
    rw [(eq_add_iff hd).2 hoffset, UInt32.toNat_add, toNat_offset hd]
    exact Nat.mod_eq_of_lt (by omega)
  have hsix : (base + 6).toNat = base.toNat + 6 := by
    rw [UInt32.toNat_add]
    exact Nat.mod_eq_of_lt h
  refine ⟨?_, ?_, hoffset⟩
  · rw [UInt32.le_iff_toNat_le]
    omega
  · rw [UInt32.lt_iff_toNat_lt]
    omega

/-- The comparisons see the distance modulo `2 ^ 32` exactly if they do not wrap on the way. -/
theorem forall_testedAt_iff :
    (∀ d < defaultQueueSize, TestedAt base s d ↔ s = base + UInt32.ofNat d) ↔ Apart base s := by
  constructor
  · intro hall
    by_contra hnot
    obtain ⟨hwrap, hinside⟩ := not_or.1 hnot
    have hinside := Nat.lt_of_not_le hinside
    exact not_testedAt (Nat.le_of_not_lt hwrap) ((hall _ hinside).2 ((eq_add_iff hinside).2 rfl))
  · intro hapart d hd
    rcases hapart with hroom | houtside
    · exact testedAt_iff hroom hd
    · rw [eq_add_iff hd]
      have hne : (s - base).toNat ≠ d := by omega
      exact ⟨fun htested => absurd htested.2.2 hne, fun heq => absurd heq hne⟩

end Offsets

/-- With one of the last six numbers at its head, the sending window takes no acknowledgement. -/
theorem acknowledge_of_wrap {w : GbnWindow Ref}
    (h : 2 ^ 32 ≤ (w.frame 0).seqNumber.toNat + defaultQueueSize) (s : UInt32) :
    w.acknowledge s = w := by
  rcases w.getSendFrameIdDelta_cases s with hout | ⟨d, -, hdelta, -⟩
  · exact GbnWindow.acknowledge_of_outside hout
  · exact absurd (GbnWindow.acksAt_iff.1 hdelta) (not_testedAt h)

/-- With one of the last six numbers as its base, the receive window takes no packet. -/
theorem accept_of_wrap {w : GbnWindow Bytes} (h : 2 ^ 32 ≤ w.recvCounter.toNat + defaultQueueSize)
    (packet : GbnPacket Bytes) : w.accept packet = w := by
  rw [GbnWindow.accept, if_neg]
  exact fun hrange => not_testedAt h (GbnWindow.takesAt_iff.1 ⟨hrange, rfl⟩)

/-- **Sequence numbers may wrap** in both windows exactly where six more than the base does not wrap, and
for the numbers that are not among the six from the base on. -/
theorem wraps_iff_apart (sending : GbnWindow Ref) (receiving : GbnWindow Bytes) (s : UInt32) :
    ((∀ d < defaultQueueSize, sending.AcksAt s d ↔ s = (sending.frame 0).seqNumber + UInt32.ofNat d) ↔
      Apart (sending.frame 0).seqNumber s) ∧
    ((∀ d < defaultQueueSize, receiving.TakesAt s d ↔ s = receiving.recvCounter + UInt32.ofNat d) ↔
      Apart receiving.recvCounter s) := by
  constructor
  · simp only [GbnWindow.acksAt_iff]
    exact forall_testedAt_iff
  · simp only [GbnWindow.takesAt_iff]
    exact forall_testedAt_iff

/-- The first of the last six numbers is at the head of the window, and is not found there. -/
theorem not_wraps : (¬ ∀ (w : GbnWindow Ref) (s : UInt32), ∀ d < defaultQueueSize,
      w.AcksAt s d ↔ s = (w.frame 0).seqNumber + UInt32.ofNat d) ∧
    ¬ ∀ (w : GbnWindow Bytes) (s : UInt32), ∀ d < defaultQueueSize,
      w.TakesAt s d ↔ s = w.recvCounter + UInt32.ofNat d := by
  constructor
  · intro hclaim
    have hfound := (hclaim { GbnWindow.zeroed 0 with packetBuffer := fun _ => ⟨.data, 4294967290, 1, 0⟩ }
      4294967290 0 (by decide)).2 (by decide)
    exact not_testedAt (by decide) (GbnWindow.acksAt_iff.1 hfound)
  · intro hclaim
    have hfound := (hclaim { GbnWindow.zeroed [] with recvCounter := 4294967290 } 4294967290 0
      (by decide)).2 (by decide)
    exact not_testedAt (by decide) (GbnWindow.takesAt_iff.1 hfound)

end NetworkSystems.Gbn
