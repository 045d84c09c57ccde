import NetworkSystems.Lib.Machine
import NetworkSystems.Gbn.Socket

/-!
# The bookkeeping of the receive window

The receive window counts its entries in `_m_size`, from `_m_recv_counter` to the last packet that waits in
it, and `_m_tail` is the slot behind that one. The data case extends the window by the distance from the
packet to the number in the slot at `_m_size`. That slot is outside of the window, so its number is the one
that the slot had when it was last emptied, or zero.
-/

namespace NetworkSystems.Gbn

namespace GbnWindow

/-- The data case on the window: the packet is put in, then what is complete at the front is removed. -/
def receive (w : GbnWindow Bytes) (packet : Datagram) : GbnWindow Bytes :=
  ((w.accept packet).removeFront defaultQueueSize).2

def Filled (w : GbnWindow Bytes) (i : Nat) : Prop := (w.frame i).type ≠ .uninitialized

def Buffered (w : GbnWindow Bytes) (seqNumber : UInt32) : Prop :=
  ∃ i, (w.packetBuffer i).type ≠ .uninitialized ∧ (w.packetBuffer i).seqNumber = seqNumber

/-- `_m_size` is the distance from `_m_recv_counter` to just past the highest number that waits, and
`_m_tail` is that far from `_m_head`. -/
structure Bookkept (w : GbnWindow Bytes) : Prop where
  empty : (∀ n, ¬ w.Buffered n) → w.size = 0
  highest : ∀ n, w.Buffered n → (∀ m, w.Buffered m → m ≤ n) →
    w.recvCounter.toNat + w.size.toNat = n.toNat + 1
  size : w.size.toNat ≤ defaultQueueSize
  tail : w.tail.toNat = (w.head.toNat + w.size.toNat) % defaultQueueSize

/-- The packet is not in the range of the window, or it comes directly behind what waits, or nothing has
come yet. In the last two cases it does not carry the head past 255. -/
def Follows (w : GbnWindow Bytes) (packet : Datagram) : Prop :=
  w.InReceiveRange packet.seqNumber →
    (packet.seqNumber.toNat = w.recvCounter.toNat + w.size.toNat ∨ w.recvCounter = 0 ∧ w.size = 0) ∧
      ¬ (packet.seqNumber = w.recvCounter ∧ w.head = 255)

instance (w : GbnWindow Bytes) (packet : Datagram) : Decidable (w.Follows packet) :=
  inferInstanceAs (Decidable (_ → _))

end GbnWindow

theorem receiveData_receiveWindow (sock : GbnSocket) (packet : Datagram) :
    (sock.receiveData packet).1.receiveWindow = sock.receiveWindow.receive packet := rfl

/-- The receive window under the data packets that arrive. -/
def receiving : Machine (GbnWindow Bytes) Datagram := ⟨fun w packet => some (w.receive packet)⟩

namespace GbnWindow

/-! ### The extent of a window -/

theorem exists_extent (F : Nat → Prop) (n : Nat) :
    ∃ h ≤ n, (∀ i < n, F i → i < h) ∧ (0 < h → F (h - 1)) := by
  induction n with
  | zero => exact ⟨0, Nat.le_refl 0, by simp, by simp⟩
  | succ n ih =>
      by_cases hn : F n
      · exact ⟨n + 1, Nat.le_refl _, fun i hi _ => hi, fun _ => hn⟩
      · obtain ⟨h, hle, hbeyond, hlast⟩ := ih
        refine ⟨h, Nat.le_succ_of_le hle, ?_, hlast⟩
        intro i hi hfilled
        have hne : i ≠ n := fun heq => hn (heq ▸ hfilled)
        exact hbeyond i (by omega) hfilled

/-- The last filled slot is the one before the offset. -/
structure Spans (w : GbnWindow Bytes) (h : Nat) : Prop where
  bound : h ≤ 6
  beyond : ∀ i < 6, w.Filled i → i < h
  last : 0 < h → w.Filled (h - 1)

theorem exists_spans (w : GbnWindow Bytes) : ∃ h, w.Spans h :=
  let ⟨h, hle, hbeyond, hlast⟩ := exists_extent w.Filled 6
  ⟨h, hle, hbeyond, hlast⟩

theorem Spans.le {w : GbnWindow Bytes} {h h' : Nat} (hspans : w.Spans h) (hspans' : w.Spans h') :
    h ≤ h' := by
  by_cases hzero : h = 0
  · omega
  · have hlt := hspans'.beyond (h - 1) (by have := hspans.bound; omega) (hspans.last (by omega))
    omega

theorem Spans.unique {w : GbnWindow Bytes} {h h' : Nat} (hspans : w.Spans h) (hspans' : w.Spans h') :
    h = h' :=
  Nat.le_antisymm (hspans.le hspans') (hspans'.le hspans)

/-- The head has not wrapped, and a filled slot holds the number that its offset stands for. -/
structure Placed (w : GbnWindow Bytes) : Prop where
  head : w.head.toNat = w.recvCounter.toNat
  filled : ∀ i < 6, w.Filled i → (w.frame i).seqNumber.toNat = w.recvCounter.toNat + i

/-- The size and the tail are those of the filled slots. -/
structure Tight (w : GbnWindow Bytes) : Prop where
  spans : w.Spans w.size.toNat
  tail : w.tail.toNat = (w.head.toNat + w.size.toNat) % 6

theorem Placed.buffered_iff {w : GbnWindow Bytes} (h : w.Placed) {n : UInt32} :
    w.Buffered n ↔ ∃ j < 6, w.Filled j ∧ n.toNat = w.recvCounter.toNat + j := by
  constructor
  · rintro ⟨i, hfilled, hn⟩
    obtain ⟨j, hj, rfl⟩ := w.exists_slot i
    refine ⟨j, hj, hfilled, ?_⟩
    rw [← hn]
    exact h.filled j hj hfilled
  · rintro ⟨j, hj, hfilled, hn⟩
    refine ⟨w.slot j, hfilled, ?_⟩
    rw [← UInt32.toNat_inj, hn]
    exact h.filled j hj hfilled

theorem Placed.bookkept_iff {w : GbnWindow Bytes} (h : w.Placed) : w.Bookkept ↔ w.Tight := by
  obtain ⟨e, he⟩ := w.exists_spans
  constructor
  · intro hbook
    have hsize : w.size.toNat = e := by
      by_cases hzero : e = 0
      · have hnone : ∀ n, ¬ w.Buffered n := by
          intro n hn
          obtain ⟨j, hj, hfilled, -⟩ := h.buffered_iff.1 hn
          have := he.beyond j hj hfilled
          omega
        rw [hbook.empty hnone, hzero]
        rfl
      · have hlast := he.last (by omega)
        have hbound := he.bound
        have hnum := h.filled (e - 1) (by omega) hlast
        have hmost := hbook.highest (w.frame (e - 1)).seqNumber ⟨_, hlast, rfl⟩ fun m hm => by
          obtain ⟨j, hj, hfilled, hm⟩ := h.buffered_iff.1 hm
          have := he.beyond j hj hfilled
          rw [UInt32.le_iff_toNat_le]
          omega
        omega
    exact ⟨hsize ▸ he, hbook.tail⟩
  · intro htight
    have hspans := htight.spans
    refine ⟨fun hnone => ?_, fun n hn hmost => ?_, hspans.bound, htight.tail⟩
    · by_contra hsize
      have hpos : 0 < w.size.toNat := Nat.pos_of_ne_zero fun hzero => hsize (UInt8.toNat_inj.1 hzero)
      exact hnone _ ⟨_, hspans.last hpos, rfl⟩
    · obtain ⟨j, hj, hfilled, hn⟩ := h.buffered_iff.1 hn
      have hlt := hspans.beyond j hj hfilled
      have hbound := hspans.bound
      have hlast := hspans.last (by omega)
      have hnum := h.filled (w.size.toNat - 1) (by omega) hlast
      have hle := UInt32.le_iff_toNat_le.1 (hmost _ ⟨_, hlast, rfl⟩)
      change (w.frame (w.size.toNat - 1)).seqNumber.toNat ≤ n.toNat at hle
      omega

/-! ### Sliding -/

theorem slide_size_toNat (w : GbnWindow Bytes) : (w.slide.size.toNat + 1) % 256 = w.size.toNat := by
  have hsize : w.slide.size = w.size - 1 := rfl
  have hone : (1 : UInt8).toNat = 1 := rfl
  have hlt := w.size.toNat_lt
  rw [hsize, UInt8.toNat_sub]
  omega

section Slide

variable {w : GbnWindow Bytes}

theorem filled_slide_iff (hhead : w.head.toNat < 255) {i : Nat} (hi : i < 5) :
    w.slide.Filled i ↔ w.Filled (i + 1) := by
  rw [Filled, Filled, frame_slide_of_lt hi hhead]

theorem not_filled_slide_last (hhead : w.head.toNat < 255) : ¬ w.slide.Filled 5 :=
  not_not.2 (frame_slide_last hhead)

/-- The number in the slot that leaves the window stays in it. -/
theorem seqNumber_slide_last (hhead : w.head.toNat < 255) :
    (w.slide.frame 5).seqNumber = (w.frame 0).seqNumber := by
  rw [frame, slot_slide_last hhead]
  simp only [slide, Function.update_self]

theorem Placed.slide_recvCounter (h : w.Placed) (hhead : w.head.toNat < 255) :
    w.slide.recvCounter.toNat = w.recvCounter.toNat + 1 := by
  have hcounter := h.head
  rw [GbnWindow.slide_recvCounter, UInt32.toNat_add]
  exact Nat.mod_eq_of_lt (by change w.recvCounter.toNat + 1 < _; omega)

theorem Placed.slide (h : w.Placed) (hhead : w.head.toNat < 255) : w.slide.Placed := by
  have hcounter := h.slide_recvCounter hhead
  refine ⟨?_, fun i hi hfilled => ?_⟩
  · have hold := h.head
    have hnew := w.slide_head_toNat
    omega
  · by_cases hlast : i = 5
    · subst hlast
      exact absurd hfilled (not_filled_slide_last hhead)
    · have hold := h.filled (i + 1) (by omega) ((filled_slide_iff hhead (by omega)).1 hfilled)
      rw [frame_slide_of_lt (by omega) hhead, hcounter]
      omega

theorem spans_slide_iff (hhead : w.head.toNat < 255) (hfront : w.Filled 0) {h : Nat} :
    w.slide.Spans h ↔ w.Spans (h + 1) := by
  constructor
  · intro hspans
    refine ⟨?_, ?_, ?_⟩
    · by_contra hlarge
      have hsix : h = 6 := by have := hspans.bound; omega
      subst hsix
      exact not_filled_slide_last hhead (hspans.last (by decide))
    · intro i hi hfilled
      cases i with
      | zero => omega
      | succ i =>
          have := hspans.beyond i (by omega) ((filled_slide_iff hhead (by omega)).2 hfilled)
          omega
    · intro _
      cases h with
      | zero => exact hfront
      | succ h =>
          have hlast := hspans.last (Nat.succ_pos h)
          have hfive : h ≠ 5 := by
            rintro rfl
            exact not_filled_slide_last hhead hlast
          have hbound := hspans.bound
          exact (filled_slide_iff hhead (by omega)).1 hlast
  · intro hspans
    have hbound := hspans.bound
    refine ⟨by omega, ?_, ?_⟩
    · intro i hi hfilled
      have hfive : i ≠ 5 := by
        rintro rfl
        exact not_filled_slide_last hhead hfilled
      have := hspans.beyond (i + 1) (by omega) ((filled_slide_iff hhead (by omega)).1 hfilled)
      omega
    · intro hpos
      have hlast := hspans.last (Nat.succ_pos h)
      rw [Nat.add_sub_cancel] at hlast
      rw [filled_slide_iff hhead (by omega), Nat.sub_add_cancel hpos]
      exact hlast

theorem tight_slide_iff (hhead : w.head.toNat < 255) (hfront : w.Filled 0) : w.slide.Tight ↔ w.Tight := by
  have hsize := w.slide_size_toNat
  have hnext := w.slide_head_toNat
  have htail : w.slide.tail = w.tail := rfl
  have hlt := w.slide.size.toNat_lt
  constructor
  · intro htight
    have hbound := htight.spans.bound
    have hspans := (spans_slide_iff hhead hfront).1 htight.spans
    rw [Nat.mod_eq_of_lt (by omega)] at hsize
    rw [hsize] at hspans
    refine ⟨hspans, ?_⟩
    have := htight.tail
    rw [htail] at this
    omega
  · intro htight
    have hpos := htight.spans.beyond 0 (by decide) hfront
    have hbound := htight.spans.bound
    have hsucc : w.slide.size.toNat + 1 = w.size.toNat := by omega
    refine ⟨(spans_slide_iff hhead hfront).2 (hsucc ▸ htight.spans), ?_⟩
    rw [htail, htight.tail]
    omega

end Slide

/-! ### Removing -/

/-- The second window is the first after `k` packets have been removed from its front. -/
structure Removed (w : GbnWindow Bytes) (k : Nat) (t : GbnWindow Bytes) : Prop where
  head : t.head.toNat = (w.head.toNat + k) % 256
  size : (t.size.toNat + k) % 256 = w.size.toNat
  tail : t.tail = w.tail
  keeps : w.head.toNat + k < 256 → w.Placed → t.Placed ∧ (t.Tight ↔ w.Tight)

theorem removed_refl (w : GbnWindow Bytes) : w.Removed 0 w where
  head := (Nat.mod_eq_of_lt w.head.toNat_lt).symm
  size := Nat.mod_eq_of_lt w.size.toNat_lt
  tail := rfl
  keeps _ hplaced := ⟨hplaced, Iff.rfl⟩

theorem Removed.slide {w t : GbnWindow Bytes} {k : Nat} (hfront : w.Filled 0) (h : w.slide.Removed k t) :
    w.Removed (k + 1) t := by
  have hsize := w.slide_size_toNat
  have hhead := w.slide_head_toNat
  refine ⟨?_, ?_, h.tail, fun hlt hplaced => ?_⟩
  · rw [h.head, hhead]
    omega
  · rw [← hsize, ← h.size]
    omega
  · obtain ⟨hnext, htight⟩ := h.keeps (by omega) (hplaced.slide (by omega))
    exact ⟨hnext, htight.trans (tight_slide_iff (by omega) hfront)⟩

theorem removed_removeFront (passes : Nat) (w : GbnWindow Bytes) :
    w.Removed (removeFront passes w).1.length (removeFront passes w).2 := by
  induction passes generalizing w with
  | zero => exact w.removed_refl
  | succ passes ih =>
      rw [removeFront]
      by_cases hfront : (w.frame 0).type = .uninitialized
      · rw [if_pos hfront]
        exact w.removed_refl
      · rw [if_neg hfront]
        exact (ih w.slide).slide hfront

theorem length_removeFront_le (passes : Nat) (w : GbnWindow Bytes) :
    (removeFront passes w).1.length ≤ passes := by
  induction passes generalizing w with
  | zero => exact Nat.le_refl 0
  | succ passes ih =>
      rw [removeFront]
      by_cases hfront : (w.frame 0).type = .uninitialized
      · rw [if_pos hfront]
        exact Nat.zero_le _
      · rw [if_neg hfront]
        exact Nat.succ_le_succ (ih w.slide)

theorem length_removeFront_pos {w : GbnWindow Bytes} (hfront : w.Filled 0) (passes : Nat) :
    0 < (removeFront (passes + 1) w).1.length := by
  rw [removeFront, if_neg hfront]
  exact Nat.succ_pos _

theorem removeFront_of_not_filled {w : GbnWindow Bytes} (hfront : ¬ w.Filled 0) (passes : Nat) :
    removeFront passes w = ([], w) := by
  cases passes with
  | zero => rfl
  | succ passes => rw [removeFront, if_pos (not_not.1 hfront)]

theorem removeFront_of_single {w : GbnWindow Bytes} (hfront : w.Filled 0) (hnext : ¬ w.slide.Filled 0)
    (passes : Nat) : removeFront (passes + 1) w =
      ([⟨(w.frame 0).payload, (w.frame 0).size, 0⟩], w.slide) := by
  rw [removeFront, if_neg hfront]
  simp only [removeFront_of_not_filled hnext]

/-! ### Extending -/

/-- Between two packets: nothing is left to remove, and an empty slot has the number that it was emptied
with, or zero. -/
structure Settled (w : GbnWindow Bytes) : Prop extends w.Placed where
  front : ¬ w.Filled 0
  stale : ∀ i < 6, ¬ w.Filled i → (w.frame i).seqNumber.toNat = w.recvCounter.toNat + i - 6

theorem settled_zeroed : Settled (zeroed []) where
  head := rfl
  filled _ _ hfilled := absurd rfl hfilled
  front := not_not.2 rfl
  stale i hi _ := by
    change 0 = 0 + i - 6
    omega

theorem bookkept_zeroed : Bookkept (zeroed []) where
  empty _ := rfl
  highest n hn := by
    obtain ⟨i, hfilled, -⟩ := hn
    exact absurd rfl hfilled
  size := Nat.zero_le _
  tail := rfl

/-- The distance that the window is extended by, for a packet at the offset `d` of a window of size `m`:
the slot at `_m_size` is its own, or one that was emptied before. -/
def framediff (counter m d : Nat) : Nat := if m % 6 = d then 1 else counter + d + 1 - (counter + m % 6 - 6)

theorem framediff_right_iff {counter m d : Nat} (hm : m ≤ 6) (hd : d < 6) :
    m + framediff counter m d = max m (d + 1) ↔ d = m ∨ counter = 0 ∧ m = 0 := by
  rw [framediff]
  split <;> omega

theorem framediff_pos {counter m d : Nat} : 0 < framediff counter m d := by
  rw [framediff]
  split <;> omega

theorem framediff_le {counter m d : Nat} (hd : d < 6) : framediff counter m d ≤ 12 := by
  rw [framediff]
  split <;> omega

theorem extend_table (n : Fin 13) : 0 < n.val →
    0 < (UInt32.ofNat n.val).toInt32 ∧ (UInt32.ofNat n.val).toUInt8.toNat = n.val := by
  decide +revert

theorem extend_counters {w : GbnWindow Bytes} {distance : UInt32} (hpos : 0 < distance.toNat)
    (hle : distance.toNat ≤ 12) (hsize : w.size.toNat ≤ 6) (htail : w.tail.toNat < 6) :
    (w.extend distance).size.toNat = w.size.toNat + distance.toNat ∧
      (w.extend distance).tail.toNat = (w.tail.toNat + distance.toNat) % 6 := by
  obtain ⟨hlt, hbyte⟩ := extend_table ⟨distance.toNat, by omega⟩ hpos
  rw [UInt32.ofNat_toNat] at hlt hbyte
  have hsix : (6 : UInt8).toNat = 6 := rfl
  simp only [extend, if_pos hlt]
  rw [UInt8.toNat_add, UInt8.toNat_mod, UInt8.toNat_add, hbyte, hsix]
  exact ⟨Nat.mod_eq_of_lt (by omega), congrArg (· % 6) (Nat.mod_eq_of_lt (by omega))⟩

section Accept

variable {w : GbnWindow Bytes} {packet : Datagram} {d : Nat}

structure Arrives (w : GbnWindow Bytes) (packet : Datagram) (d : Nat) : Prop where
  inRange : w.InReceiveRange packet.seqNumber
  offset : (packet.seqNumber - w.recvCounter).toNat = d
  lt : d < 6
  number : packet.seqNumber.toNat = w.recvCounter.toNat + d
  data : packet.type = .data

theorem exists_arrives (hrange : w.InReceiveRange packet.seqNumber) (hdata : packet.type = .data) :
    ∃ d, w.Arrives packet d :=
  let ⟨d, hd, hoff, hnumber, _⟩ := window_offset hrange.1 hrange.2
  ⟨d, hrange, hoff, hd, hnumber, hdata⟩

namespace Arrives

theorem accept_eq (ha : w.Arrives packet d) : w.accept packet = (w.setFrame d packet).extend
    (packet.seqNumber - ((w.setFrame d packet).frame w.size.toNat).seqNumber + 1) := by
  rw [accept, if_pos ha.inRange]
  simp only [ha.offset]
  rfl

theorem head (ha : w.Arrives packet d) : (w.accept packet).head = w.head := by
  rw [ha.accept_eq]
  rfl

theorem recvCounter (ha : w.Arrives packet d) : (w.accept packet).recvCounter = w.recvCounter := by
  rw [ha.accept_eq]
  rfl

theorem frame (ha : w.Arrives packet d) {j : Nat} (hj : j < 6) :
    (w.accept packet).frame j = if j = d then packet else w.frame j := by
  rw [ha.accept_eq]
  exact w.frame_setFrame ha.lt hj packet

theorem filled_iff (ha : w.Arrives packet d) {j : Nat} (hj : j < 6) :
    (w.accept packet).Filled j ↔ j = d ∨ w.Filled j := by
  rw [Filled, ha.frame hj]
  by_cases hown : j = d
  · rw [if_pos hown, ha.data]
    exact iff_of_true (by decide) (Or.inl hown)
  · rw [if_neg hown]
    exact (or_iff_right hown).symm

theorem spans (ha : w.Arrives packet d) (hspans : w.Spans w.size.toNat) :
    (w.accept packet).Spans (max w.size.toNat (d + 1)) := by
  have hbound := hspans.bound
  have hlt := ha.lt
  refine ⟨by omega, fun i hi hfilled => ?_, fun _ => ?_⟩
  · by_cases hown : i = d
    · omega
    · have := hspans.beyond i hi (((ha.filled_iff hi).1 hfilled).resolve_left hown)
      omega
  · by_cases hlarger : w.size.toNat ≤ d + 1
    · rw [Nat.max_eq_right hlarger, Nat.add_sub_cancel]
      exact (ha.filled_iff hlt).2 (Or.inl rfl)
    · rw [Nat.max_eq_left (by omega)]
      exact (ha.filled_iff (by omega)).2 (Or.inr (hspans.last (by omega)))

theorem placed (ha : w.Arrives packet d) (h : w.Placed) : (w.accept packet).Placed := by
  refine ⟨?_, fun i hi hfilled => ?_⟩
  · rw [ha.head, ha.recvCounter]
    exact h.head
  · rw [ha.frame hi, ha.recvCounter]
    by_cases hown : i = d
    · rw [if_pos hown, hown]
      exact ha.number
    · rw [if_neg hown]
      exact h.filled i hi (((ha.filled_iff hi).1 hfilled).resolve_left hown)

theorem front (ha : w.Arrives packet d) (h : w.Settled) : (w.accept packet).Filled 0 ↔ d = 0 := by
  rw [ha.filled_iff (by decide), or_iff_left h.front]
  exact eq_comm

theorem stale (ha : w.Arrives packet d) (h : w.Settled) {i : Nat} (hi : i < 6)
    (hfree : ¬ (w.accept packet).Filled i) :
    ((w.accept packet).frame i).seqNumber.toNat = w.recvCounter.toNat + i - 6 := by
  rw [ha.filled_iff hi, not_or] at hfree
  rw [ha.frame hi, if_neg hfree.1]
  exact h.stale i hi hfree.2

/-- What the source computes as `framediff`. -/
theorem distance_toNat (ha : w.Arrives packet d) (h : w.Settled) (hspans : w.Spans w.size.toNat) :
    (packet.seqNumber - ((w.setFrame d packet).frame w.size.toNat).seqNumber + 1).toNat =
      framediff w.recvCounter.toNat w.size.toNat d := by
  have hbound := hspans.bound
  have hlt := ha.lt
  have hcounter := h.head
  have hhead := w.head.toNat_lt
  have hone : (1 : UInt32).toNat = 1 := rfl
  have hmod : w.size.toNat % 6 < 6 := Nat.mod_lt _ (by decide)
  rw [← frame_mod, frame_setFrame _ hlt hmod, framediff]
  by_cases hown : w.size.toNat % 6 = d
  · rw [if_pos hown, if_pos hown, UInt32.sub_self]
    rfl
  · rw [if_neg hown, if_neg hown]
    have hempty : ¬ w.Filled (w.size.toNat % 6) := by
      by_cases hfull : w.size.toNat = 6
      · rw [hfull]
        exact h.front
      · intro hfilled
        have := hspans.beyond _ hmod hfilled
        omega
    have hstale := h.stale _ hmod hempty
    rw [UInt32.toNat_add, UInt32.toNat_sub, hone, hstale, ha.number]
    omega

theorem counters (ha : w.Arrives packet d) (h : w.Settled) (htight : w.Tight) :
    (w.accept packet).size.toNat = w.size.toNat + framediff w.recvCounter.toNat w.size.toNat d ∧
      (w.accept packet).tail.toNat =
        ((w.accept packet).head.toNat + (w.accept packet).size.toNat) % 6 := by
  have hdistance := ha.distance_toNat h htight.spans
  have htail : w.tail.toNat < 6 := by
    rw [htight.tail]
    exact Nat.mod_lt _ (by decide)
  obtain ⟨hsize, hnext⟩ := @extend_counters (w.setFrame d packet) _ (hdistance ▸ framediff_pos)
    (hdistance ▸ framediff_le ha.lt) htight.spans.bound htail
  rw [← ha.accept_eq, hdistance] at hsize hnext
  refine ⟨hsize, ?_⟩
  rw [hnext, ha.head, hsize]
  change (w.tail.toNat + _) % 6 = (w.head.toNat + (w.size.toNat + _)) % 6
  rw [htight.tail]
  omega

/-- The window is extended to where it should be only by a packet directly behind it, or when nothing has
come yet. -/
theorem tight_iff (ha : w.Arrives packet d) (h : w.Settled) (htight : w.Tight) :
    (w.accept packet).Tight ↔ d = w.size.toNat ∨ w.recvCounter = 0 ∧ w.size = 0 := by
  obtain ⟨hsize, htail⟩ := ha.counters h htight
  have hmax := ha.spans htight.spans
  have hright : (w.accept packet).Tight ↔
      w.size.toNat + framediff w.recvCounter.toNat w.size.toNat d = max w.size.toNat (d + 1) := by
    rw [← hsize]
    exact ⟨fun hnext => hnext.spans.unique hmax, fun heq => ⟨heq ▸ hmax, htail⟩⟩
  rw [hright, framediff_right_iff htight.spans.bound ha.lt, ← UInt32.toNat_inj, ← UInt8.toNat_inj]
  rfl

/-- A packet that follows and that the window waits for finds it empty, and is removed alone. -/
theorem removed_alone (ha : w.Arrives packet 0) (h : w.Settled) (hspans : w.Spans w.size.toNat)
    (hfollows : w.Follows packet) : (w.accept packet).head.toNat < 255 ∧
      ¬ (w.accept packet).slide.Filled 0 ∧
        removeFront defaultQueueSize (w.accept packet) = ([⟨((w.accept packet).frame 0).payload,
          ((w.accept packet).frame 0).size, 0⟩], (w.accept packet).slide) := by
  obtain ⟨hright, hwrap⟩ := hfollows ha.inRange
  have hnumber := ha.number
  have hempty : w.size.toNat = 0 := by
    cases hright with
    | inl hnext => omega
    | inr hfirst =>
        rw [hfirst.2]
        rfl
  have hhead : (w.accept packet).head.toNat < 255 := by
    have hlt := w.head.toNat_lt
    have hne : w.head.toNat ≠ 255 := fun heq =>
      hwrap ⟨UInt32.toNat_inj.1 hnumber, UInt8.toNat_inj.1 heq⟩
    rw [ha.head]
    omega
  have hsecond : ¬ (w.accept packet).Filled 1 := by
    rw [ha.filled_iff (by decide), or_iff_right (by decide)]
    intro hfilled
    have := hspans.beyond 1 (by decide) hfilled
    omega
  have hslide : ¬ (w.accept packet).slide.Filled 0 := by
    rwa [filled_slide_iff hhead (by decide)]
  exact ⟨hhead, hslide, removeFront_of_single ((ha.front h).2 rfl) hslide 5⟩

theorem head_lt_of_follows (ha : w.Arrives packet d) (h : w.Settled) (hspans : w.Spans w.size.toNat)
    (hfollows : w.Follows packet) : (w.accept packet).head.toNat +
      (removeFront defaultQueueSize (w.accept packet)).1.length < 256 := by
  by_cases hfirst : d = 0
  · subst hfirst
    obtain ⟨hhead, -, hremove⟩ := ha.removed_alone h hspans hfollows
    rw [hremove, List.length_singleton]
    omega
  · have hfront := fun hfilled => hfirst ((ha.front h).1 hfilled)
    rw [removeFront_of_not_filled hfront, List.length_nil]
    exact (w.accept packet).head.toNat_lt

/-- It wraps when the packet that the window waits for comes and the head is at 255. -/
theorem not_first_of_head_lt (ha : w.Arrives packet d) (h : w.Settled)
    (hwrap : (w.accept packet).head.toNat +
      (removeFront defaultQueueSize (w.accept packet)).1.length < 256) :
    ¬ (packet.seqNumber = w.recvCounter ∧ w.head = 255) := by
  intro hlast
  have hnumber := ha.number
  rw [hlast.1] at hnumber
  have hpos : 0 < (removeFront defaultQueueSize (w.accept packet)).1.length :=
    length_removeFront_pos ((ha.front h).2 (by omega)) 5
  have hhead : (w.accept packet).head.toNat = 255 := by
    rw [ha.head, hlast.2]
    rfl
  omega

end Arrives

/-- When the head has wrapped the tail is not right, since 256 is not a multiple of the number of slots. -/
theorem Removed.not_bookkept {v t : GbnWindow Bytes} {k : Nat} (h : v.Removed k t) (hk : k ≤ 6)
    (htail : v.tail.toNat = (v.head.toNat + v.size.toNat) % 6) (hwrap : 256 ≤ v.head.toNat + k) :
    ¬ t.Bookkept := by
  intro hbook
  have hhead := h.head
  have hsize := h.size
  have hsame := congrArg UInt8.toNat h.tail
  have hbound := hbook.size
  have hright := hbook.tail
  have hlt := v.head.toNat_lt
  simp only [defaultQueueSize] at hbound hright
  omega

theorem receive_of_outside (h : w.Settled) (hout : ¬ w.InReceiveRange packet.seqNumber) :
    w.receive packet = w := by
  rw [receive, accept, if_neg hout, removeFront_of_not_filled h.front]

theorem settled_receive (h : w.Settled) (hspans : w.Spans w.size.toNat) (hdata : packet.type = .data)
    (hfollows : w.Follows packet) : (w.receive packet).Settled := by
  by_cases hrange : w.InReceiveRange packet.seqNumber
  · obtain ⟨d, ha⟩ := exists_arrives hrange hdata
    have hplaced := ha.placed h.toPlaced
    by_cases hfirst : d = 0
    · subst hfirst
      obtain ⟨hhead, hnext, hremove⟩ := ha.removed_alone h hspans hfollows
      have hcounter := hplaced.slide_recvCounter hhead
      rw [ha.recvCounter] at hcounter
      rw [receive, hremove]
      refine ⟨hplaced.slide hhead, hnext, fun i hi hfree => ?_⟩
      rw [hcounter]
      by_cases hlast : i = 5
      · subst hlast
        rw [seqNumber_slide_last hhead, ha.frame (by decide), if_pos rfl, ha.number]
        omega
      · rw [filled_slide_iff hhead (by omega)] at hfree
        rw [frame_slide_of_lt (by omega) hhead, ha.stale h (by omega) hfree]
        omega
    · have hfront := fun hfilled => hfirst ((ha.front h).1 hfilled)
      rw [receive, removeFront_of_not_filled hfront]
      refine ⟨hplaced, hfront, fun i hi hfree => ?_⟩
      rw [ha.recvCounter]
      exact ha.stale h hi hfree
  · rw [receive_of_outside h hrange]
    exact h

/-- **One packet**: the bookkeeping is right after it exactly if it follows. -/
theorem bookkept_receive_iff (h : w.Settled) (hbook : w.Bookkept) (hdata : packet.type = .data) :
    (w.receive packet).Bookkept ↔ w.Follows packet := by
  by_cases hrange : w.InReceiveRange packet.seqNumber
  · have htight := h.toPlaced.bookkept_iff.1 hbook
    obtain ⟨d, ha⟩ := exists_arrives hrange hdata
    have hremoved := (w.accept packet).removed_removeFront defaultQueueSize
    by_cases hwrap :
      (w.accept packet).head.toNat + (removeFront defaultQueueSize (w.accept packet)).1.length < 256
    · obtain ⟨hplaced, hkeeps⟩ := hremoved.keeps hwrap (ha.placed h.toPlaced)
      have hnumber := ha.number
      rw [receive, hplaced.bookkept_iff, hkeeps, ha.tight_iff h htight]
      constructor
      · intro hright _
        refine ⟨hright.imp_left fun heq => ?_, ha.not_first_of_head_lt h hwrap⟩
        rw [hnumber, heq]
      · intro hfollows
        exact (hfollows hrange).1.imp_left fun heq => by omega
    · refine iff_of_false ?_ fun hfollows => hwrap (ha.head_lt_of_follows h htight.spans hfollows)
      exact hremoved.not_bookkept (length_removeFront_le _ _) (ha.counters h htight).2 (not_lt.1 hwrap)
  · rw [receive_of_outside h hrange]
    exact iff_of_true hbook fun hin => absurd hin hrange

end Accept

end GbnWindow

open GbnWindow

theorem exists_run_receiving (w : GbnWindow Bytes) (packets : List Datagram) :
    ∃ t, receiving.run w packets = some t :=
  receiving.exists_run (I := fun _ => True) (fun w packet _ _ => ⟨w.receive packet, rfl, trivial⟩) trivial
    (receiving.within_true w packets)

/-- **When the bookkeeping of the receive window is right**: throughout a run of data packets from the
zeroed window exactly if every packet follows. -/
theorem bookkept_iff_follows (packets : List Datagram) (hdata : ∀ packet ∈ packets, packet.type = .data) :
    receiving.Throughout Bookkept (zeroed []) packets ↔ receiving.Within Follows (zeroed []) packets := by
  obtain ⟨t, hrun⟩ := exists_run_receiving (zeroed []) packets
  refine receiving.throughout_iff_within (I := Settled) (D := fun _ packet => packet.type = .data)
    ?_ ?_ settled_zeroed bookkept_zeroed (receiving.within_of_forall (fun p hp _ => hdata p hp) _) hrun
  · intro w packet next h hpacket hbook hfollows hnext
    obtain rfl := Option.some.inj hnext
    exact settled_receive h (h.toPlaced.bookkept_iff.1 hbook).spans hpacket hfollows
  · intro w packet next h hpacket hbook hnext
    obtain rfl := Option.some.inj hnext
    exact bookkept_receive_iff h hbook hpacket

/-- Packets in order are counted, and packet 1 before packet 0 is not. -/
theorem bookkept_iff_follows_overtaken :
    receiving.Throughout Bookkept (zeroed []) [⟨.data, 0, 1, [6]⟩, ⟨.data, 1, 1, [5]⟩] ∧
      ¬ receiving.Throughout Bookkept (zeroed []) [⟨.data, 1, 1, [5]⟩, ⟨.data, 0, 1, [6]⟩] := by
  constructor
  · rw [bookkept_iff_follows _ (by decide)]
    decide +kernel
  · rw [bookkept_iff_follows _ (by decide)]
    decide +kernel

/-- When packet 1 waits and 3 comes in, the size becomes 6. -/
theorem not_bookkept : ¬ ∀ packets : List Datagram, (∀ packet ∈ packets, packet.type = .data) →
    packets.length < 2 ^ 32 → receiving.Throughout Bookkept (zeroed []) packets := by
  intro hclaim
  have hall := hclaim [⟨.data, 1, 1, [5]⟩, ⟨.data, 3, 1, [6]⟩] (by decide) (by decide)
  have hbook := hall.last rfl
  have hmost := hbook.highest 3 ⟨3, by decide +kernel, by decide +kernel⟩ fun m hm => by
    obtain ⟨i, hi, rfl⟩ := hm
    revert i
    decide +kernel
  exact absurd hmost (by decide +kernel)

end NetworkSystems.Gbn
