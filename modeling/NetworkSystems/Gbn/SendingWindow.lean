import NetworkSystems.Gbn.Socket

/-!
# The sending window

What the write thread and the ack case do to the sending window. `Describes` says that the window
holds exactly the packets sent last, as many as its size tells. Sending keeps it while the window is
not full. An acknowledgement keeps it when it is for one of those packets, and the test of the ack case
does not establish that: it compares with the head slot only, which in an empty window still holds the
number of a packet that left it, or the zero of `calloc`.
-/

namespace NetworkSystems.Gbn

/-- The packet that `send_packet` builds for the block with the given index. The payload pointer is the
one `malloc` returned for that block. -/
def sentPacket (queued : List Bytes) (index : Nat) : GbnPacket Ref :=
  ⟨.data, UInt32.ofNat index, UInt32.ofNat (queued.getD index []).length, index + 1⟩

theorem sentPacket_append {queued more : List Bytes} {index : Nat} (h : index < queued.length) :
    sentPacket (queued ++ more) index = sentPacket queued index := by
  rw [sentPacket, sentPacket, List.getD_eq_getElem?_getD, List.getD_eq_getElem?_getD,
    List.getElem?_append_left h]

theorem sentPacket_seqNumber {queued : List Bytes} {index : Nat} (h : index < 2 ^ 32) :
    (sentPacket queued index).seqNumber.toNat = index :=
  UInt32.toNat_ofNat_of_lt' h

namespace GbnWindow

variable {w : GbnWindow Ref} {queued : List Bytes} {n : Nat}

/-- The window holds the last `_m_size` of the `n` packets sent so far, in order from its head. -/
structure Describes (w : GbnWindow Ref) (queued : List Bytes) (n : Nat) : Prop where
  head : w.head.toNat < 6
  size : w.size.toNat ≤ 6
  size_le : w.size.toNat ≤ n
  tail : w.tail.toNat = (w.head.toNat + w.size.toNat) % 6
  slots : ∀ i < w.size.toNat, w.frame i = sentPacket queued (n - w.size.toNat + i)

theorem describes_zeroed : Describes (zeroed 0) queued 0 :=
  ⟨by decide, by decide, le_rfl, rfl, fun _ hi => absurd hi (Nat.not_lt_zero _)⟩

theorem Describes.more (h : w.Describes queued n) (hn : n ≤ queued.length) (more : List Bytes) :
    w.Describes (queued ++ more) n where
  head := h.head
  size := h.size
  size_le := h.size_le
  tail := h.tail
  slots i hi := by
    have := h.size_le
    rw [h.slots i hi, sentPacket_append (by omega)]

theorem Describes.append (h : w.Describes queued n) (hroom : w.size.toNat < 6) :
    (w.append (sentPacket queued n)).Describes queued (n + 1) := by
  have hsize : (w.append (sentPacket queued n)).size.toNat = w.size.toNat + 1 := by
    change (w.size + 1).toNat = _
    rw [UInt8.toNat_add]
    exact Nat.mod_eq_of_lt (by simpa using by omega)
  have htail : (w.append (sentPacket queued n)).tail.toNat = (w.tail.toNat + 1) % 6 :=
    UInt8.toNat_ofNat_of_lt' (by simp only [UInt8.size]; omega)
  have hhead := h.head
  have hle := h.size_le
  refine ⟨h.head, by omega, by omega, ?_, fun i hi => ?_⟩
  · rw [htail, hsize, h.tail]
    change _ = (w.head.toNat + (w.size.toNat + 1)) % 6
    omega
  · rw [hsize] at hi ⊢
    have hslot : Fin.ofNat 6 w.tail.toNat = w.slot w.size.toNat := by
      apply Fin.ext
      rw [slot_val, Fin.val_ofNat, h.tail, Nat.mod_mod]
    change Function.update w.packetBuffer (Fin.ofNat 6 w.tail.toNat) _ (w.slot i) = _
    rw [hslot]
    by_cases heq : i = w.size.toNat
    · rw [heq, Function.update_self]
      congr 1
      omega
    · rw [Function.update_of_ne (by rw [Ne, w.slot_eq_iff (by omega) hroom]; exact heq)]
      rw [show n + 1 - (w.size.toNat + 1) + i = n - w.size.toNat + i by omega]
      exact h.slots i (by omega)

theorem getSendFrameIdDelta_cases (w : GbnWindow Ref) (s : UInt32) :
    w.getSendFrameIdDelta s = -2 ∨ ∃ d < 6, w.getSendFrameIdDelta s = (d : Nat) ∧
      s.toNat = (w.frame 0).seqNumber.toNat + d ∧ s.toNat + 1 < 2 ^ 32 := by
  rw [getSendFrameIdDelta]
  split
  case isFalse => exact Or.inl rfl
  case isTrue hle =>
    split
    case isFalse => exact Or.inl rfl
    case isTrue hlt =>
      obtain ⟨d, hd, hoff, hseq, hbound⟩ := window_offset hle hlt
      exact Or.inr ⟨d, hd, congrArg _ hoff, hseq, hbound⟩

theorem acknowledge_of_outside {s : UInt32} (h : w.getSendFrameIdDelta s = -2) :
    w.acknowledge s = w := by
  rw [acknowledge, h]
  rfl

theorem acknowledge_slots (w : GbnWindow Ref) (seqNumber : UInt32) :
    (w.acknowledge seqNumber).packetBuffer = w.packetBuffer := by
  rw [GbnWindow.acknowledge]
  split <;> rfl

/-- An acknowledgement of one of the packets of the window takes that packet and those before it out. -/
theorem acknowledge_inside {s : UInt32} {d : Nat} (hdelta : w.getSendFrameIdDelta s = (d : Nat))
    (hd : d < w.size.toNat) (hhead : w.head.toNat < 6) (hsize : w.size.toNat ≤ 6) :
    (w.acknowledge s).head.toNat = (w.head.toNat + (d + 1)) % 6 ∧
      (w.acknowledge s).size.toNat = w.size.toNat - (d + 1) ∧
      (w.acknowledge s).tail = w.tail ∧
      ∀ i, (w.acknowledge s).frame i = w.frame (d + 1 + i) := by
  have hframediff : (UInt8.ofInt ((d : Int) + 1)).toNat = d + 1 := by
    have hcast : (((d : Int) + 1) % 2 ^ 8).toNat = d + 1 := by omega
    rw [UInt8.ofInt, hcast]
    exact UInt8.toNat_ofNat_of_lt' (by simp only [UInt8.size]; omega)
  have hack : w.acknowledge s =
      { w with
        head := (w.head + UInt8.ofInt ((d : Int) + 1)) % 6
        size := w.size - UInt8.ofInt ((d : Int) + 1) } := by
    rw [GbnWindow.acknowledge, hdelta, if_pos (by omega)]
  have hhead' : (w.acknowledge s).head.toNat = (w.head.toNat + (d + 1)) % 6 := by
    rw [hack, UInt8.toNat_mod, UInt8.toNat_add, hframediff]
    change (_ % 256) % 6 = _
    omega
  refine ⟨hhead', ?_, by rw [hack], fun i => ?_⟩
  · rw [hack]
    change (w.size - UInt8.ofInt ((d : Int) + 1)).toNat = _
    rw [UInt8.toNat_sub_of_le _ _ (by rw [UInt8.le_iff_toNat_le, hframediff]; omega), hframediff]
  · have hslot : (w.acknowledge s).slot i = w.slot (d + 1 + i) := by
      apply Fin.ext
      rw [slot_val, slot_val, hhead']
      omega
    rw [frame, hslot, acknowledge_slots]
    rfl

/-- An acknowledgement that the test lets pass, of a number that has been sent, takes exactly the
packets up to that number out of a window that is not empty. -/
theorem Describes.acknowledge (h : w.Describes queued n) {s : UInt32} {r : Nat}
    (hsent : (s + 1).toNat ≤ r) (hr : r ≤ n) (hn : n < 2 ^ 32) (hlow : n - w.size.toNat ≤ r)
    (hempty : w.size = 0 → w.getSendFrameIdDelta s = -2) :
    (w.acknowledge s).Describes queued n ∧ n - (w.acknowledge s).size.toNat ≤ r ∧
      (w.acknowledge s).size.toNat ≤ w.size.toNat := by
  rcases w.getSendFrameIdDelta_cases s with hout | ⟨d, hd, hdelta, hseq, hbound⟩
  · rw [acknowledge_of_outside hout]
    exact ⟨h, hlow, le_rfl⟩
  · have hne : w.size ≠ 0 := fun h0 => by
      have := hempty h0
      rw [hdelta] at this
      omega
    have hpos : 0 < w.size.toNat := by
      rw [Nat.pos_iff_ne_zero]
      exact fun h0 => hne (UInt8.toNat_inj.1 h0)
    have hle := h.size_le
    rw [h.slots 0 hpos, sentPacket_seqNumber (by omega)] at hseq
    have hsucc : (s + 1).toNat = s.toNat + 1 := by
      rw [UInt32.toNat_add]
      exact Nat.mod_eq_of_lt (by simpa using hbound)
    have hhead := h.head
    have hsix := h.size
    obtain ⟨hhead', hsize', htail, hframe⟩ :=
      acknowledge_inside hdelta (by omega) hhead hsix
    refine ⟨⟨by omega, by omega, by omega, ?_, fun i hi => ?_⟩, by omega, by omega⟩
    · rw [hhead', hsize', ← Nat.add_mod_left 6, htail, h.tail]
      omega
    · rw [hsize'] at hi ⊢
      rw [hframe, h.slots _ (by omega)]
      congr 1
      omega

end GbnWindow

end NetworkSystems.Gbn
