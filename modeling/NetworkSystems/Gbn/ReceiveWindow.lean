import NetworkSystems.Gbn.Packet
import Mathlib.Data.Fintype.Card

/-!
# The receive window

The data case of the read thread on the receive window: a packet inside the window is put into its
slot, then the filled slots at the front are removed, and each removed packet becomes a block for the
receive buffer.

The head is an 8-bit counter that is incremented and never reduced, and 256 is not a multiple of the
window's six slots. A slot is therefore found again only while the head does not pass from 255 to 0
between the packet's arrival and its removal. `Holds` is the invariant of a window none of whose
packets waits across that point.
-/

namespace NetworkSystems.Gbn

namespace GbnWindow

/-- The two comparisons of the data case: the number lies in the six that start at `_m_recv_counter`,
in `uint32_t` arithmetic. -/
def InReceiveRange (w : GbnWindow Bytes) (seqNumber : UInt32) : Prop :=
  w.recvCounter ≤ seqNumber ∧ seqNumber < w.recvCounter + 6

instance (w : GbnWindow Bytes) (seqNumber : UInt32) : Decidable (w.InReceiveRange seqNumber) :=
  inferInstanceAs (Decidable (_ ∧ _))

/-- Extend the window out to the packet when it lies beyond the last one. `framediff` is an `int32_t`,
added to the two 8-bit fields. -/
def extend (w : GbnWindow Bytes) (framediff : UInt32) : GbnWindow Bytes :=
  { w with
    tail := if 0 < framediff.toInt32 then (w.tail + framediff.toUInt8) % 6 else w.tail
    size := if 0 < framediff.toInt32 then w.size + framediff.toUInt8 else w.size }

/-- Put a data packet in the window, if it is valid. -/
def accept (w : GbnWindow Bytes) (packet : GbnPacket Bytes) : GbnWindow Bytes :=
  if w.InReceiveRange packet.seqNumber then
    let windIndex := packet.seqNumber - w.recvCounter
    let w := w.setFrame windIndex.toNat packet
    w.extend (packet.seqNumber - (w.frame w.size.toNat).seqNumber + 1)
  else w

/-- Move the window right one entry and mark the entry that leaves it as uninitialized. -/
def slide (w : GbnWindow Bytes) : GbnWindow Bytes :=
  { w with
    recvCounter := w.recvCounter + 1
    head := w.head + 1
    size := w.size - 1
    packetBuffer := Function.update w.packetBuffer (w.slot 0)
      { w.frame 0 with type := .uninitialized } }

@[simp] theorem slide_head (w : GbnWindow Bytes) : w.slide.head = w.head + 1 := rfl

theorem slide_head_toNat (w : GbnWindow Bytes) : w.slide.head.toNat = (w.head.toNat + 1) % 256 := by
  rw [slide_head, UInt8.toNat_add]
  rfl

@[simp] theorem slide_recvCounter (w : GbnWindow Bytes) :
    w.slide.recvCounter = w.recvCounter + 1 := rfl

theorem type_slide_slot (w : GbnWindow Bytes) :
    (w.slide.packetBuffer (w.slot 0)).type = .uninitialized := by
  simp only [slide, Function.update_self]

theorem packetBuffer_slide_of_ne (w : GbnWindow Bytes) {i : Fin defaultQueueSize}
    (h : i ≠ w.slot 0) : w.slide.packetBuffer i = w.packetBuffer i :=
  Function.update_of_ne h _ _

/-- Remove as many received frames as possible from the front of the window: the blocks pushed, in
order, and the window left. The first argument counts the passes of the loop, and
`removeFront_stops` shows that as many passes as there are slots are enough. -/
def removeFront : Nat → GbnWindow Bytes → List (DataBlock Bytes) × GbnWindow Bytes
  | 0, w => ([], w)
  | passes + 1, w =>
      if (w.frame 0).type = .uninitialized then ([], w)
      else
        let front := w.frame 0
        let rest := removeFront passes w.slide
        (⟨front.payload, front.size, 0⟩ :: rest.1, rest.2)

def filled (w : GbnWindow Bytes) : Nat :=
  (Finset.univ.filter fun i => (w.packetBuffer i).type ≠ .uninitialized).card

theorem filled_slide {w : GbnWindow Bytes} (h : (w.frame 0).type ≠ .uninitialized) :
    w.slide.filled < w.filled := by
  refine Finset.card_lt_card (Finset.ssubset_iff_of_subset ?_ |>.2 ⟨w.slot 0, ?_, ?_⟩)
  · intro i hi
    simp only [Finset.mem_filter, Finset.mem_univ, true_and] at hi ⊢
    by_cases hslot : i = w.slot 0
    · subst hslot
      exact absurd w.type_slide_slot hi
    · rwa [w.packetBuffer_slide_of_ne hslot] at hi
  · simpa [frame] using h
  · simpa using w.type_slide_slot

/-- The loop ends by its own test, not by the bound on its passes. -/
theorem removeFront_stops (passes : Nat) (w : GbnWindow Bytes) (h : w.filled ≤ passes) :
    ((removeFront passes w).2.frame 0).type = .uninitialized := by
  induction passes generalizing w with
  | zero =>
      by_contra hfront
      have := filled_slide (w := w) hfront
      omega
  | succ passes ih =>
      by_cases hfront : (w.frame 0).type = .uninitialized
      · rw [removeFront, if_pos hfront]
        exact hfront
      · rw [removeFront, if_neg hfront]
        have := filled_slide hfront
        exact ih w.slide (by omega)

/-! ### What a window holds -/

section Holds

variable {good good' : Nat → GbnPacket Bytes → Prop}

/-- Every filled slot is reached by the head without passing 255, and holds the packet of the sequence
number its offset stands for. What makes a packet the right one for a number is up to `good`. -/
structure Holds (good : Nat → GbnPacket Bytes → Prop) (w : GbnWindow Bytes) : Prop where
  head : w.head.toNat = w.recvCounter.toNat % 256
  filled : ∀ i < 6, (w.frame i).type ≠ .uninitialized →
    w.head.toNat + i < 256 ∧ w.recvCounter.toNat + i + 1 < 2 ^ 32 ∧
      good (w.recvCounter.toNat + i) (w.frame i)

theorem holds_zeroed : Holds good (zeroed []) :=
  ⟨rfl, fun _ _ h => absurd rfl h⟩

theorem Holds.mono {w : GbnWindow Bytes} (h : Holds good w)
    (himp : ∀ n p, good n p → good' n p) : Holds good' w :=
  ⟨h.head, fun i hi hne => ⟨(h.filled i hi hne).1, (h.filled i hi hne).2.1,
    himp _ _ (h.filled i hi hne).2.2⟩⟩

theorem holds_extend {w : GbnWindow Bytes} {framediff : UInt32} :
    Holds good (w.extend framediff) ↔ Holds good w :=
  ⟨fun h => ⟨h.head, h.filled⟩, fun h => ⟨h.head, h.filled⟩⟩

theorem Holds.accept {w : GbnWindow Bytes} {packet : GbnPacket Bytes} (h : Holds good w)
    (hgood : w.InReceiveRange packet.seqNumber → good packet.seqNumber.toNat packet)
    (hpage : w.InReceiveRange packet.seqNumber →
      packet.seqNumber.toNat / 256 = w.recvCounter.toNat / 256) :
    Holds good (w.accept packet) := by
  rw [GbnWindow.accept]
  split
  case isFalse => exact h
  case isTrue hrange =>
    obtain ⟨i, hi, hoff, hseq, hbound⟩ := window_offset hrange.1 hrange.2
    have hpage := hpage hrange
    have hhead := h.head
    have hgood := hgood hrange
    rw [holds_extend, hoff]
    refine ⟨hhead, fun j hj hne => ?_⟩
    rw [frame_setFrame _ hi hj] at hne ⊢
    by_cases hji : j = i
    · subst hji
      rw [if_pos rfl, setFrame_head, setFrame_recvCounter, ← hseq]
      exact ⟨by omega, by omega, hgood⟩
    · rw [if_neg hji] at hne ⊢
      exact h.filled j hj hne

theorem slot_slide {w : GbnWindow Bytes} (hhead : w.head.toNat < 255) (i : Nat) :
    w.slide.slot i = w.slot (i + 1) := by
  apply Fin.ext
  rw [slot_val, slot_val, slide_head_toNat]
  omega

theorem slot_slide_last {w : GbnWindow Bytes} (hhead : w.head.toNat < 255) :
    w.slide.slot 5 = w.slot 0 := by
  rw [slot_slide hhead]
  exact (w.slot_mod 6).symm

theorem frame_slide_of_lt {w : GbnWindow Bytes} {i : Nat} (hi : i < 5) (hhead : w.head.toNat < 255) :
    w.slide.frame i = w.frame (i + 1) := by
  have hne : w.slot (i + 1) ≠ w.slot 0 := by
    rw [Ne, w.slot_eq_iff (by omega) (by omega)]
    omega
  rw [frame, slot_slide hhead]
  exact w.packetBuffer_slide_of_ne hne

/-- Before the head wraps, the slot that leaves the window is the last one of the window after. -/
theorem frame_slide_last {w : GbnWindow Bytes} (hhead : w.head.toNat < 255) :
    (w.slide.frame 5).type = .uninitialized := by
  rw [frame, slot_slide_last hhead]
  exact w.type_slide_slot

/-- When the head is 255, no slot but the front one may be filled, and that one is emptied. -/
theorem Holds.slide_of_wrap {w : GbnWindow Bytes} (h : Holds good w) (hhead : w.head.toNat = 255)
    (i : Nat) : (w.slide.frame i).type = .uninitialized := by
  by_contra hne
  rw [frame] at hne
  by_cases hslot : w.slide.slot i = w.slot 0
  · rw [hslot] at hne
    exact hne w.type_slide_slot
  · rw [w.packetBuffer_slide_of_ne hslot] at hne
    obtain ⟨j, hj, heq⟩ := w.exists_slot (w.slide.slot i)
    rw [← heq] at hne hslot
    have hfilled := (h.filled j hj hne).1
    have : j = 0 := by omega
    subst this
    exact hslot rfl

theorem Holds.slide {w : GbnWindow Bytes} (h : Holds good w)
    (hfront : (w.frame 0).type ≠ .uninitialized) :
    Holds good w.slide ∧ w.slide.recvCounter.toNat = w.recvCounter.toNat + 1 := by
  have hhead := h.head
  have hbound := (h.filled 0 (by omega) hfront).2.1
  have hcounter : w.slide.recvCounter.toNat = w.recvCounter.toNat + 1 := by
    rw [slide_recvCounter, UInt32.toNat_add]
    exact Nat.mod_eq_of_lt (by simpa using hbound)
  have hhead' := w.slide_head_toNat
  have hlt := w.head.toNat_lt
  refine ⟨⟨by omega, fun i hi hne => ?_⟩, hcounter⟩
  by_cases hwrap : w.head.toNat = 255
  · exact absurd (h.slide_of_wrap hwrap i) hne
  · by_cases hlast : i = 5
    · subst hlast
      exact absurd (frame_slide_last (by omega)) hne
    · rw [frame_slide_of_lt (by omega) (by omega)] at hne ⊢
      obtain ⟨hpos, hseq, hgood⟩ := h.filled (i + 1) (by omega) hne
      rw [hcounter, show w.recvCounter.toNat + 1 + i = w.recvCounter.toNat + (i + 1) by omega]
      exact ⟨by omega, by omega, hgood⟩

/-- The `i`-th block is made from the right packet for the `i`-th number from `start` on. -/
def Delivers (good : Nat → GbnPacket Bytes → Prop) (start : Nat) (blocks : List (DataBlock Bytes)) :
    Prop :=
  ∀ i block, blocks[i]? = some block →
    ∃ packet, good (start + i) packet ∧ block = ⟨packet.payload, packet.size, 0⟩

theorem delivers_nil {start : Nat} : Delivers good start [] :=
  fun _ _ h => by simp at h

theorem Delivers.mono {start : Nat} {blocks : List (DataBlock Bytes)}
    (h : Delivers good start blocks) (himp : ∀ n p, good n p → good' n p) :
    Delivers good' start blocks := fun i block hi =>
  let ⟨packet, hgood, hblock⟩ := h i block hi
  ⟨packet, himp _ _ hgood, hblock⟩

theorem Delivers.cons {start : Nat} {packet : GbnPacket Bytes} {blocks : List (DataBlock Bytes)}
    (hfront : good start packet) (hrest : Delivers good (start + 1) blocks) :
    Delivers good start (⟨packet.payload, packet.size, 0⟩ :: blocks) := by
  intro i block hi
  cases i with
  | zero => exact ⟨packet, hfront, by simpa using hi.symm⟩
  | succ i =>
      rw [show start + (i + 1) = start + 1 + i by omega]
      exact hrest i block (by simpa using hi)

theorem Delivers.append {start : Nat} {xs ys : List (DataBlock Bytes)}
    (hxs : Delivers good start xs) (hys : Delivers good (start + xs.length) ys) :
    Delivers good start (xs ++ ys) := by
  intro i block hi
  by_cases hlt : i < xs.length
  · rw [List.getElem?_append_left hlt] at hi
    exact hxs i block hi
  · rw [List.getElem?_append_right (by omega)] at hi
    rw [show start + i = start + xs.length + (i - xs.length) by omega]
    exact hys _ block hi

/-- What the loop does to a window that holds the right packets: it pushes the payloads of the numbers
it counts, in their order. -/
theorem Holds.removeFront {w : GbnWindow Bytes} (h : Holds good w) (passes : Nat) :
    Holds good (removeFront passes w).2 ∧
      (removeFront passes w).2.recvCounter.toNat =
        w.recvCounter.toNat + (removeFront passes w).1.length ∧
      Delivers good w.recvCounter.toNat (removeFront passes w).1 := by
  induction passes generalizing w with
  | zero => exact ⟨h, rfl, delivers_nil⟩
  | succ passes ih =>
      rw [GbnWindow.removeFront]
      by_cases hfront : (w.frame 0).type = .uninitialized
      · rw [if_pos hfront]
        exact ⟨h, rfl, delivers_nil⟩
      · rw [if_neg hfront]
        obtain ⟨hslide, hcounter⟩ := h.slide hfront
        obtain ⟨hrest, hcount, hblocks⟩ := ih hslide
        rw [hcounter] at hcount hblocks
        refine ⟨hrest, ?_, Delivers.cons (h.filled 0 (by omega) hfront).2.2 hblocks⟩
        rw [hcount, List.length_cons]
        omega

end Holds

end GbnWindow

end NetworkSystems.Gbn
