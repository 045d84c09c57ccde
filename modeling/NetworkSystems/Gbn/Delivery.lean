import NetworkSystems.Lib.Machine
import NetworkSystems.Gbn.Socket

/-!
# In-order delivery by the receiver

Data packets arrive at a socket in any order, with losses and duplicates. Whatever is pushed on the
receive buffer should be the payloads of the numbers below `_m_recv_counter`, in order. This holds as
long as no packet is accepted across a multiple of 256, where the 8-bit head loses its slots.
-/

namespace NetworkSystems.Gbn

open GbnWindow

/-- The data packet with number `s`, when `P` gives the payloads. -/
def dataPacket (P : UInt32 → Bytes) (s : UInt32) : Datagram :=
  ⟨.data, s, UInt32.ofNat (P s).length, P s⟩

def GbnPacket.toBlock (packet : Datagram) : DataBlock Bytes := ⟨packet.payload, packet.size, 0⟩

/-- A receiving socket, and the datagrams it has sent. -/
structure Receiver where
  sock : GbnSocket
  sent : List Datagram

/-- The read thread, fed with data packets. A label is the sequence number of an arriving packet. -/
def receiver (P : UInt32 → Bytes) : Machine Receiver UInt32 where
  step r s :=
    let next := r.sock.readThread (dataPacket P s)
    some ⟨next.1, r.sent ++ next.2⟩

/-- The blocks pushed are those of the numbers below `_m_recv_counter`, in order, and no
acknowledgement covers a number whose block has not been pushed. -/
def Receiver.InOrder (P : UInt32 → Bytes) (r : Receiver) : Prop :=
  r.sock.receiveBuffer.pushed =
      (List.range r.sock.receiveWindow.recvCounter.toNat).map
        (fun n => (dataPacket P (UInt32.ofNat n)).toBlock) ∧
    ∀ ack ∈ r.sent, ∀ n < (ack.seqNumber + 1).toNat,
      r.sock.receiveBuffer.pushed[n]? = some (dataPacket P (UInt32.ofNat n)).toBlock

/-- A packet that the window accepts lies in the same block of 256 numbers as the one it is waiting
for. -/
def SamePage (r : Receiver) (s : UInt32) : Prop :=
  r.sock.receiveWindow.InReceiveRange s →
    s.toNat / 256 = r.sock.receiveWindow.recvCounter.toNat / 256

instance (r : Receiver) (s : UInt32) : Decidable (SamePage r s) :=
  inferInstanceAs (Decidable (_ → _))

/-! ### The run invariant -/

/-- A window that buffers the right packets, with all blocks below the counter pushed, and no
acknowledgement above it. -/
structure Receiver.Inv (P : UInt32 → Bytes) (r : Receiver) : Prop where
  window : Holds (fun n packet => packet = dataPacket P (UInt32.ofNat n)) r.sock.receiveWindow
  length : r.sock.receiveBuffer.pushed.length = r.sock.receiveWindow.recvCounter.toNat
  pushed : Delivers (fun n packet => packet = dataPacket P (UInt32.ofNat n)) 0
    r.sock.receiveBuffer.pushed
  sent : ∀ ack ∈ r.sent, (ack.seqNumber + 1).toNat ≤ r.sock.receiveWindow.recvCounter.toNat
  opened : r.sock.readStatus = .opened

theorem inv_initial (P : UInt32 → Bytes) : Receiver.Inv P ⟨initGbnSocket, []⟩ where
  window := holds_zeroed
  length := rfl
  pushed := delivers_nil
  sent := by simp
  opened := rfl

theorem foldl_pushChunk (blocks : List (DataBlock Bytes)) (q : BlockQueue Bytes) :
    (blocks.foldl BlockQueue.pushChunk q).pushed = q.pushed ++ blocks := by
  induction blocks generalizing q with
  | nil => simp
  | cons block blocks ih =>
      rw [List.foldl_cons, ih, BlockQueue.pushChunk, List.append_assoc, List.singleton_append]

theorem readThread_data {sock : GbnSocket} {packet : Datagram} (hopen : sock.readStatus = .opened)
    (htype : packet.type = .data) : sock.readThread packet = sock.receiveData packet := by
  rw [GbnSocket.readThread, if_neg (by simp [hopen]), htype]

theorem Receiver.Inv.step {P : UInt32 → Bytes} {r next : Receiver} {s : UInt32} (h : r.Inv P)
    (hpage : SamePage r s) (hstep : (receiver P).step r s = some next) : next.Inv P := by
  obtain rfl := Option.some.inj hstep
  rw [readThread_data h.opened rfl]
  have haccept : Holds _ (r.sock.receiveWindow.accept (dataPacket P s)) :=
    h.window.accept (fun _ => congrArg (dataPacket P) UInt32.ofNat_toNat.symm) hpage
  obtain ⟨hwindow, hcount, hblocks⟩ := haccept.removeFront defaultQueueSize
  have hcounter : (r.sock.receiveWindow.accept (dataPacket P s)).recvCounter =
      r.sock.receiveWindow.recvCounter := by
    rw [GbnWindow.accept]
    split <;> rfl
  rw [hcounter] at hcount hblocks
  refine ⟨hwindow, ?_, ?_, ?_, h.opened⟩
  · simp only [GbnSocket.receiveData, foldl_pushChunk, List.length_append, h.length, hcount]
  · simp only [GbnSocket.receiveData, foldl_pushChunk]
    exact h.pushed.append (by simpa only [Nat.zero_add, h.length] using hblocks)
  · intro ack hack
    simp only [GbnSocket.receiveData] at hack ⊢
    rcases List.mem_append.1 hack with hack | hack
    · exact (h.sent ack hack).trans (by omega)
    · rw [List.mem_singleton.1 hack, UInt32.sub_add_cancel]

theorem Receiver.Inv.inOrder {P : UInt32 → Bytes} {r : Receiver} (h : r.Inv P) : r.InOrder P := by
  have hget : ∀ n < r.sock.receiveWindow.recvCounter.toNat,
      r.sock.receiveBuffer.pushed[n]? = some (dataPacket P (UInt32.ofNat n)).toBlock := by
    intro n hn
    have hlt : n < r.sock.receiveBuffer.pushed.length := by rw [h.length]; exact hn
    rw [List.getElem?_eq_getElem hlt]
    obtain ⟨packet, hpacket, hblock⟩ := h.pushed n _ (List.getElem?_eq_getElem hlt)
    rw [hblock, hpacket, Nat.zero_add]
    rfl
  refine ⟨List.ext_getElem? fun n => ?_, fun ack hack n hn => ?_⟩
  · by_cases hn : n < r.sock.receiveWindow.recvCounter.toNat
    · rw [hget n hn, List.getElem?_map, List.getElem?_range hn, Option.map_some]
    · rw [List.getElem?_eq_none (by rw [h.length]; omega), List.getElem?_eq_none (by simpa using hn)]
  · exact hget n (hn.trans_le (h.sent ack hack))

/-- **In-order exactly-once delivery**, for arrivals none of which is accepted across a multiple of
256. -/
theorem inOrder_of_samePage (P : UInt32 → Bytes) (arrivals : List UInt32) (r : Receiver)
    (hpage : (receiver P).Within SamePage ⟨initGbnSocket, []⟩ arrivals)
    (hrun : (receiver P).run ⟨initGbnSocket, []⟩ arrivals = some r) : r.InOrder P :=
  ((receiver P).invariant_of_within (fun _ _ _ hinv hC hstep => hinv.step hC hstep) (inv_initial P)
    hpage hrun).inOrder

/-- A packet that overtakes another one and a duplicate, within one page. -/
theorem inOrder_of_samePage_swapped : ∃ r, (receiver fun s => [s.toUInt8]).run ⟨initGbnSocket, []⟩
    [1, 0, 1] = some r ∧ r.InOrder fun s => [s.toUInt8] :=
  ⟨_, rfl, inOrder_of_samePage _ [1, 0, 1] _ (by decide) rfl⟩

/-! ### Across the wrap

Packets that arrive in order never wait in the window, so they are delivered whatever the head is. A
run that delivers the first 255 of them stands right before the head's wrap, and there one packet that
overtakes another is enough to repeat a block. -/

section Wrap

variable {sock : GbnSocket} (packet : Datagram)

theorem receiveData_front (hnext : packet.seqNumber = sock.receiveWindow.recvCounter)
    (hrange : sock.receiveWindow.InReceiveRange packet.seqNumber)
    (htype : packet.type ≠ .uninitialized) :
    ∃ w : GbnWindow Bytes, w.head = sock.receiveWindow.head + 1 ∧
      w.recvCounter = sock.receiveWindow.recvCounter + 1 ∧
      (w.packetBuffer (sock.receiveWindow.slot 0)).type = .uninitialized ∧
      (∀ i ≠ sock.receiveWindow.slot 0, w.packetBuffer i = sock.receiveWindow.packetBuffer i) ∧
      (sock.receiveData packet).1.receiveWindow = (w.removeFront 5).2 ∧
      (sock.receiveData packet).1.receiveBuffer.pushed =
        sock.receiveBuffer.pushed ++ packet.toBlock :: (w.removeFront 5).1 := by
  obtain ⟨w, hw⟩ : ∃ w, w = sock.receiveWindow.accept packet := ⟨_, rfl⟩
  have hhead : w.head = sock.receiveWindow.head := by
    rw [hw, accept, if_pos hrange]
    rfl
  have hcounter : w.recvCounter = sock.receiveWindow.recvCounter := by
    rw [hw, accept, if_pos hrange]
    rfl
  have hbuffer : w.packetBuffer =
      Function.update sock.receiveWindow.packetBuffer (sock.receiveWindow.slot 0) packet := by
    rw [hw, accept, if_pos hrange, hnext, UInt32.sub_self]
    rfl
  have hslot : w.slot 0 = sock.receiveWindow.slot 0 := by rw [slot, slot, hhead]
  have hfront : w.frame 0 = packet := by rw [frame, hslot, hbuffer, Function.update_self]
  have hremoved : w.removeFront defaultQueueSize =
      (packet.toBlock :: (w.slide.removeFront 5).1, (w.slide.removeFront 5).2) := by
    rw [removeFront, if_neg (by rw [hfront]; exact htype), hfront]
    rfl
  refine ⟨w.slide, by rw [slide_head, hhead], by rw [slide_recvCounter, hcounter], ?_,
    fun i hi => ?_, ?_, ?_⟩
  · rw [← hslot]
    exact w.type_slide_slot
  · rw [w.packetBuffer_slide_of_ne (hslot ▸ hi), hbuffer, Function.update_of_ne hi]
  · rw [GbnSocket.receiveData, ← hw, hremoved]
  · rw [GbnSocket.receiveData, ← hw, hremoved]
    exact foldl_pushChunk _ _

theorem receiveData_ahead {i : Nat} (hoff : (packet.seqNumber - sock.receiveWindow.recvCounter).toNat = i)
    (hi : i < 6) (hpos : 0 < i) (hrange : sock.receiveWindow.InReceiveRange packet.seqNumber)
    (hfront : (sock.receiveWindow.frame 0).type = .uninitialized) :
    (sock.receiveData packet).1.receiveBuffer.pushed = sock.receiveBuffer.pushed ∧
      (sock.receiveData packet).1.receiveWindow.head = sock.receiveWindow.head ∧
      (sock.receiveData packet).1.receiveWindow.recvCounter = sock.receiveWindow.recvCounter ∧
      (sock.receiveData packet).1.receiveWindow.packetBuffer =
        Function.update sock.receiveWindow.packetBuffer (sock.receiveWindow.slot i) packet := by
  have haccept : ∃ framediff, sock.receiveWindow.accept packet =
      (sock.receiveWindow.setFrame i packet).extend framediff := by
    rw [accept, if_pos hrange, ← hoff]
    exact ⟨_, rfl⟩
  obtain ⟨framediff, haccept⟩ := haccept
  have hstill : ((sock.receiveWindow.accept packet).frame 0).type = .uninitialized := by
    rw [haccept]
    change ((sock.receiveWindow.setFrame i packet).frame 0).type = _
    rw [frame_setFrame _ hi (by omega), if_neg (by omega), hfront]
  rw [GbnSocket.receiveData, removeFront, if_pos hstill, haccept]
  exact ⟨rfl, rfl, rfl, rfl⟩

end Wrap

/-- Where a receiver stands: its head, its counter, and the packets waiting in its slots. -/
structure Stands (r : Receiver) (head : UInt8) (counter : UInt32)
    (waiting : Fin 6 → Option Datagram) : Prop where
  opened : r.sock.readStatus = .opened
  head : r.sock.receiveWindow.head = head
  counter : r.sock.receiveWindow.recvCounter = counter
  vacant : ∀ i, waiting i = none → (r.sock.receiveWindow.packetBuffer i).type = .uninitialized
  filled : ∀ i packet, waiting i = some packet → r.sock.receiveWindow.packetBuffer i = packet

section Stands

variable {P : UInt32 → Bytes} {r : Receiver} {head : UInt8} {counter : UInt32}
  {waiting : Fin 6 → Option Datagram}

theorem Stands.range {s : UInt32} (h : Stands r head counter waiting)
    (hrange : counter ≤ s ∧ s < counter + 6) : r.sock.receiveWindow.InReceiveRange s := by
  rw [InReceiveRange, h.counter]
  exact hrange

theorem Stands.front (h : Stands r head counter waiting) (hrange : counter < counter + 6)
    (hfront : waiting (Fin.ofNat 6 head.toNat) = none)
    (hbehind : waiting (Fin.ofNat 6 (head + 1).toNat) = none) :
    ∃ next, (receiver P).step r counter = some next ∧ Stands next (head + 1) (counter + 1) waiting ∧
      next.sock.receiveBuffer.pushed =
        r.sock.receiveBuffer.pushed ++ [(dataPacket P counter).toBlock] := by
  obtain ⟨w, hhead, hcounter, hleft, hkept, hwindow, hpushed⟩ :=
    receiveData_front (dataPacket P counter) h.counter.symm
      (h.range ⟨UInt32.le_refl _, hrange⟩) (by simp [dataPacket])
  have hslot : r.sock.receiveWindow.slot 0 = Fin.ofNat 6 head.toNat := by
    rw [slot, h.head, Nat.add_zero]
  have hvacant : ∀ i, waiting i = none → (w.packetBuffer i).type = .uninitialized := by
    intro i hi
    by_cases heq : i = r.sock.receiveWindow.slot 0
    · rw [heq]
      exact hleft
    · rw [hkept i heq]
      exact h.vacant i hi
  have hstop : w.removeFront 5 = ([], w) := by
    rw [removeFront, if_pos]
    rw [frame, slot, hhead, h.head, Nat.add_zero]
    exact hvacant _ hbehind
  rw [hstop] at hwindow hpushed
  refine ⟨_, rfl, ?_, by rw [readThread_data h.opened rfl]; exact hpushed⟩
  rw [readThread_data h.opened rfl]
  refine ⟨h.opened, by rw [hwindow, hhead, h.head], by rw [hwindow, hcounter, h.counter], ?_, ?_⟩
  · rw [hwindow]
    exact hvacant
  · intro i packet hi
    rw [hwindow, hkept i fun heq => by rw [heq, hslot, hfront] at hi; cases hi]
    exact h.filled i packet hi

theorem Stands.ahead {s : UInt32} {i : Nat} (h : Stands r head counter waiting)
    (hoff : (s - counter).toNat = i) (hi : i < 6) (hpos : 0 < i)
    (hrange : counter ≤ s ∧ s < counter + 6) (hfront : waiting (Fin.ofNat 6 head.toNat) = none) :
    ∃ next, (receiver P).step r s = some next ∧
      Stands next head counter
        (Function.update waiting (Fin.ofNat 6 (head.toNat + i)) (some (dataPacket P s))) ∧
      next.sock.receiveBuffer.pushed = r.sock.receiveBuffer.pushed := by
  obtain ⟨hpushed, hhead, hcounter, hbuffer⟩ :=
    receiveData_ahead (dataPacket P s) (by rw [h.counter]; exact hoff) hi hpos
      (h.range hrange) (h.vacant _ (by rw [slot, h.head]; exact hfront))
  have hslot : r.sock.receiveWindow.slot i = Fin.ofNat 6 (head.toNat + i) := by rw [slot, h.head]
  rw [hslot] at hbuffer
  refine ⟨_, rfl, ?_, by rw [readThread_data h.opened rfl]; exact hpushed⟩
  rw [readThread_data h.opened rfl]
  refine ⟨h.opened, hhead.trans h.head, hcounter.trans h.counter, fun j hj => ?_, fun j p hj => ?_⟩
  · rw [hbuffer, Function.update_apply]
    rw [Function.update_apply] at hj
    split at hj
    case isTrue => cases hj
    case isFalse hne => rw [if_neg hne]; exact h.vacant j hj
  · rw [hbuffer, Function.update_apply]
    rw [Function.update_apply] at hj
    split at hj
    case isTrue heq => rw [if_pos heq]; exact Option.some.inj hj
    case isFalse hne => rw [if_neg hne]; exact h.filled j p hj

/-- The next packet in order takes along the one that waits in the slot behind it, whatever its
number is. -/
theorem Stands.front_pair (h : Stands r head counter waiting) (stale : Datagram)
    (hrange : counter < counter + 6)
    (hne : (Fin.ofNat 6 (head + 1).toNat) ≠ (Fin.ofNat 6 head.toNat))
    (hbehind : waiting (Fin.ofNat 6 (head + 1).toNat) = some stale) (htype : stale.type ≠ .uninitialized)
    (hthird : waiting (Fin.ofNat 6 (head + 1 + 1).toNat) = none) :
    ∃ next, (receiver P).step r counter = some next ∧
      next.sock.receiveBuffer.pushed =
        r.sock.receiveBuffer.pushed ++ [(dataPacket P counter).toBlock, stale.toBlock] := by
  obtain ⟨w, hhead, hcounter, hleft, hkept, hwindow, hpushed⟩ :=
    receiveData_front (dataPacket P counter) h.counter.symm
      (h.range ⟨UInt32.le_refl _, hrange⟩) (by simp [dataPacket])
  have hslot : r.sock.receiveWindow.slot 0 = Fin.ofNat 6 head.toNat := by
    rw [slot, h.head, Nat.add_zero]
  have hslot' : w.slot 0 = Fin.ofNat 6 (head + 1).toNat := by
    rw [slot, hhead, h.head, Nat.add_zero]
  have hfront : w.frame 0 = stale := by
    rw [frame, hslot', hkept _ (by rw [hslot]; exact hne)]
    exact h.filled _ _ hbehind
  have hstop : (w.slide.frame 0).type = .uninitialized := by
    rw [frame, slot, slide_head, hhead, h.head, Nat.add_zero]
    by_cases heq : Fin.ofNat 6 (head + 1 + 1).toNat = w.slot 0
    · rw [heq]
      exact w.type_slide_slot
    · rw [w.packetBuffer_slide_of_ne heq]
      by_cases heq' : Fin.ofNat 6 (head + 1 + 1).toNat = r.sock.receiveWindow.slot 0
      · rw [heq']
        exact hleft
      · rw [hkept _ heq']
        exact h.vacant _ hthird
  have hremoved : (w.removeFront 5).1 = [stale.toBlock] := by
    rw [removeFront, if_neg (by rw [hfront]; exact htype), removeFront, if_pos hstop, hfront]
    rfl
  rw [hremoved] at hpushed
  exact ⟨_, rfl, by rw [readThread_data h.opened rfl]; exact hpushed⟩

end Stands

theorem run_inOrder (P : UInt32 → Bytes) (n : Nat) (hn : n ≤ 255) :
    ∃ r, (receiver P).run ⟨initGbnSocket, []⟩ ((List.range n).map UInt32.ofNat) = some r ∧
      Stands r (UInt8.ofNat n) (UInt32.ofNat n) (fun _ => none) ∧
      r.sock.receiveBuffer.pushed =
        (List.range n).map (fun n => (dataPacket P (UInt32.ofNat n)).toBlock) := by
  induction n with
  | zero => exact ⟨_, rfl, ⟨rfl, rfl, rfl, fun _ _ => rfl, fun _ _ h => by cases h⟩, rfl⟩
  | succ n ih =>
      obtain ⟨r, hrun, hstands, hpushed⟩ := ih (by omega)
      have hrange : UInt32.ofNat n < UInt32.ofNat n + 6 := by
        rw [UInt32.lt_iff_toNat_lt, UInt32.toNat_add,
          UInt32.toNat_ofNat_of_lt' (by simp [UInt32.size]; omega)]
        have : (6 : UInt32).toNat = 6 := rfl
        omega
      obtain ⟨next, hstep, hnext, hpush⟩ := hstands.front (P := P) hrange rfl rfl
      rw [List.range_succ, List.map_append, List.map_cons, List.map_nil, Machine.run_concat, hrun]
      refine ⟨next, hstep, ?_, ?_⟩
      · rw [UInt8.ofNat_add, UInt32.ofNat_add]
        exact hnext
      · rw [hpush, hpushed, List.map_append]
        rfl

/-- Let 256 overtake 255 while the head is 255. It waits in slot 4, which the head reaches again when
the counter stands at 260, and is pushed there a second time. -/
theorem run_overtaken (P : UInt32 → Bytes) {r : Receiver} (h : Stands r 255 255 fun _ => none) :
    ∃ next, (receiver P).run r [256, 255, 256, 257, 258, 259] = some next ∧
      next.sock.receiveBuffer.pushed = r.sock.receiveBuffer.pushed ++
        ([255, 256, 257, 258, 259, 256].map fun s => (dataPacket P s).toBlock) := by
  obtain ⟨r₁, hstep₁, h₁, hpush₁⟩ := h.ahead (P := P) (s := 256) (i := 1) (by decide) (by decide)
    (by decide) (by decide) rfl
  obtain ⟨r₂, hstep₂, h₂, hpush₂⟩ := h₁.front (P := P) (by decide) rfl rfl
  obtain ⟨r₃, hstep₃, h₃, hpush₃⟩ := h₂.front (P := P) (by decide) rfl rfl
  obtain ⟨r₄, hstep₄, h₄, hpush₄⟩ := h₃.front (P := P) (by decide) rfl rfl
  obtain ⟨r₅, hstep₅, h₅, hpush₅⟩ := h₄.front (P := P) (by decide) rfl rfl
  obtain ⟨r₆, hstep₆, hpush₆⟩ := h₅.front_pair (P := P) (dataPacket P 256) (by decide)
    (by decide) rfl (by simp [dataPacket]) rfl
  refine ⟨r₆, ?_, ?_⟩
  · simp only [Machine.run_cons, Machine.run_nil, hstep₁, Option.bind_some]
    rw [show (receiver P).step r₁ 255 = some r₂ from hstep₂, Option.bind_some,
      show (receiver P).step r₂ 256 = some r₃ from hstep₃, Option.bind_some,
      show (receiver P).step r₃ 257 = some r₄ from hstep₄, Option.bind_some,
      show (receiver P).step r₄ 258 = some r₅ from hstep₅, Option.bind_some,
      show (receiver P).step r₅ 259 = some r₆ from hstep₆, Option.bind_some]
  · rw [hpush₆, hpush₅, hpush₄, hpush₃, hpush₂, hpush₁]
    simp only [List.append_assoc, List.cons_append, List.nil_append]
    rfl

/-- Payloads that tell 256 and 260 apart. -/
def lowByte (s : UInt32) : Bytes := [s.toUInt8]

/-- The block pushed for number 260 is that of 256. -/
theorem not_inOrder : ¬ ∀ (P : UInt32 → Bytes) (arrivals : List UInt32) (r : Receiver),
    arrivals.length < 2 ^ 32 → (receiver P).run ⟨initGbnSocket, []⟩ arrivals = some r →
      r.InOrder P := by
  intro hclaim
  obtain ⟨r, hrun, hstands, hpushed⟩ := run_inOrder lowByte 255 le_rfl
  obtain ⟨next, hrun', hpushed'⟩ := run_overtaken lowByte hstands
  have hshort : ((List.range 255).map UInt32.ofNat ++ [256, 255, 256, 257, 258, 259]).length <
      2 ^ 32 := by
    rw [List.length_append, List.length_map, List.length_range]
    decide
  have hfull := (receiver lowByte).run_append ⟨initGbnSocket, []⟩
    ((List.range 255).map UInt32.ofNat) [256, 255, 256, 257, 258, 259]
  rw [hrun, Option.bind_some, hrun'] at hfull
  have hinOrder := hclaim lowByte _ next hshort hfull
  rw [hpushed] at hpushed'
  have hlength : next.sock.receiveBuffer.pushed.length = 261 := by
    rw [hpushed', List.length_append, List.length_map, List.length_range]
    rfl
  have hcounter : next.sock.receiveWindow.recvCounter.toNat = 261 := by
    rw [← hlength, hinOrder.1, List.length_map, List.length_range]
  have hget : next.sock.receiveBuffer.pushed[260]? = some (dataPacket lowByte 256).toBlock := by
    rw [hpushed', List.getElem?_append_right (by rw [List.length_map, List.length_range]; omega),
      List.length_map, List.length_range]
    rfl
  rw [hinOrder.1, List.getElem?_map, hcounter, List.getElem?_range (by omega)] at hget
  exact absurd hget (by decide)

end NetworkSystems.Gbn
