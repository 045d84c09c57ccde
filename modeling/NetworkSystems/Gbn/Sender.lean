import NetworkSystems.Gbn.SendingWindow

/-!
# The sending side

What a step of the write thread can do, and the invariant of a sending socket: its queue holds the
blocks that were written, its heap holds those that have not been sent, its window describes those
that have been sent last.
-/

namespace NetworkSystems.Gbn

open GbnWindow

/-! ### What a step of the write thread can do -/

inductive Idle (sock : GbnSocket) : WriterState → WriterState → Prop
  | empty (h : sock.sendingWindow.size = 0) : Idle sock .windowEmptyQ .blockOnQueue
  | nonempty (h : sock.sendingWindow.size ≠ 0) : Idle sock .windowEmptyQ .isWinFullQ
  | block : Idle sock .blockOnQueue .sendPacket
  | room (h : sock.sendingWindow.size < 6) : Idle sock .isWinFullQ .sendPacket
  | full : Idle sock .isWinFullQ .waitOnRead
  | signalled : Idle sock .waitOnRead .windowEmptyQ
  | timedOut : Idle sock .waitOnRead .retransmit
  | nothing (h : sock.sendingWindow.size = 0) : Idle sock .retransmit .waitOnRead
  | again (h : sock.sendingWindow.size ≠ 0) :
      Idle sock .retransmit (.retransmitFrom (Fin.ofNat 6 sock.sendingWindow.head.toNat))

def DataBlock.Closing {π : Type} (block : DataBlock π) : Prop := block.flags &&& isClosing ≠ 0

instance {π : Type} (block : DataBlock π) : Decidable block.Closing :=
  inferInstanceAs (Decidable (_ ≠ _))

/-- The socket with the front block of its sending buffer popped. -/
def GbnSocket.popped (sock : GbnSocket) : GbnSocket :=
  { sock with sendingBuffer := sock.sendingBuffer.popChunk }

inductive WriterMove (sock : GbnSocket) (junk : Junk) : GbnSocket → List Datagram → Prop
  | idle {state : WriterState} (h : Idle sock sock.writer state) :
      WriterMove sock junk { sock with writer := state } []
  | closing {block : DataBlock Ref} (hwriter : sock.writer = .sendPacket)
      (hpeek : sock.sendingBuffer.peekChunk = some block) (hclosing : block.Closing) :
      WriterMove sock junk { sock.popped with writer := .closeConnection } []
  | send {block : DataBlock Ref} (hwriter : sock.writer = .sendPacket)
      (hpeek : sock.sendingBuffer.peekChunk = some block) (hopen : ¬ block.Closing) :
      WriterMove sock junk (sock.popped.sendBlock junk block).1 (sock.popped.sendBlock junk block).2
  | resend {i : Fin defaultQueueSize} (hwriter : sock.writer = .retransmitFrom i) :
      WriterMove sock junk (sock.retransmitSlot junk i).1 (sock.retransmitSlot junk i).2
  | eof (hwriter : sock.writer = .closeConnection) :
      WriterMove sock junk { sock with writer := .stopped } [GbnSocket.eofDatagram]

theorem writerMove_of_step {sock next : GbnSocket} {timedOut : Bool} {junk : Junk}
    {out : List Datagram} (h : sock.writerStep timedOut junk = some (next, out)) :
    WriterMove sock junk next out := by
  have idle : ∀ {state}, Idle sock sock.writer state →
      some ({ sock with writer := state }, ([] : List Datagram)) = some (next, out) →
        WriterMove sock junk next out := by
    intro state hidle heq
    obtain ⟨rfl, rfl⟩ := Prod.mk.inj (Option.some.inj heq)
    exact .idle hidle
  rw [GbnSocket.writerStep] at h
  cases hwriter : sock.writer with
  | windowEmptyQ =>
      simp only [hwriter] at h idle
      split at h
      case isTrue hsize => exact idle (.empty hsize) h
      case isFalse hsize => exact idle (.nonempty hsize) h
  | blockOnQueue =>
      simp only [hwriter] at h idle
      obtain ⟨block, -, heq⟩ := Option.map_eq_some_iff.1 h
      exact idle .block (congrArg some heq)
  | sendPacket =>
      simp only [hwriter, GbnSocket.sendPacket] at h
      obtain ⟨block, hpeek, heq⟩ := Option.map_eq_some_iff.1 h
      by_cases hclosing : block.flags &&& isClosing ≠ 0
      · rw [if_pos hclosing] at heq
        obtain ⟨rfl, rfl⟩ := Prod.mk.inj heq
        exact .closing hwriter hpeek hclosing
      · rw [if_neg hclosing] at heq
        obtain ⟨hnext, hout⟩ := Prod.ext_iff.1 heq
        subst hnext hout
        exact .send hwriter hpeek hclosing
  | isWinFullQ =>
      simp only [hwriter] at h idle
      split at h
      case isTrue hroom => exact idle (.room hroom.1) h
      case isFalse => exact idle .full h
  | waitOnRead =>
      simp only [hwriter] at h idle
      split at h
      case isTrue => exact idle .timedOut h
      case isFalse => exact idle .signalled h
  | retransmit =>
      simp only [hwriter] at h idle
      split at h
      case isTrue hsize => exact idle (.nothing hsize) h
      case isFalse hsize => exact idle (.again hsize) h
  | retransmitFrom i =>
      simp only [hwriter] at h
      obtain ⟨hnext, hout⟩ := Prod.ext_iff.1 (Option.some.inj h)
      subst hnext hout
      exact .resend hwriter
  | closeConnection =>
      simp only [hwriter] at h
      obtain ⟨rfl, rfl⟩ := Prod.mk.inj (Option.some.inj h)
      exact .eof hwriter
  | stopped =>
      simp only [hwriter] at h
      cases h

theorem pushed_of_move {sock next : GbnSocket} {junk : Junk} {out : List Datagram}
    (hmove : WriterMove sock junk next out) :
    next.sendingBuffer.pushed = sock.sendingBuffer.pushed := by
  have hpop : sock.popped.sendingBuffer.pushed = sock.sendingBuffer.pushed := by
    rw [GbnSocket.popped, BlockQueue.popChunk]
    split <;> rfl
  cases hmove with
  | idle => rfl
  | closing => exact hpop
  | send => exact hpop
  | resend => rfl
  | eof => rfl

theorem readThread_writer (sock : GbnSocket) (d : Datagram) :
    (sock.readThread d).1.writer = sock.writer := by
  rw [GbnSocket.readThread]
  split
  · rfl
  · cases d.type <;> rfl

theorem readThread_heap (sock : GbnSocket) (d : Datagram) : (sock.readThread d).1.heap = sock.heap := by
  rw [GbnSocket.readThread]
  split
  · rfl
  · cases d.type <;> rfl

/-- The read thread touches the sending window in the ack case only. -/
theorem readThread_sendingWindow (sock : GbnSocket) (d : Datagram) :
    (sock.readThread d).1.sendingWindow = sock.sendingWindow ∨
      d.type = .ack ∧ (sock.readThread d).1.sendingWindow =
        sock.sendingWindow.acknowledge d.seqNumber := by
  rw [GbnSocket.readThread]
  split
  · exact Or.inl rfl
  · cases htype : d.type with
    | ack => exact Or.inr ⟨rfl, rfl⟩
    | _ => exact Or.inl rfl

theorem readThread_pushed (sock : GbnSocket) (incoming : Datagram) :
    ∀ block ∈ (sock.readThread incoming).1.sendingBuffer.pushed,
      block ∈ sock.sendingBuffer.pushed ∨ block = ⟨0, 0, isClosing⟩ := by
  intro block hblock
  rw [GbnSocket.readThread] at hblock
  split at hblock
  · exact Or.inl hblock
  · cases htype : incoming.type <;> rw [htype] at hblock
    case eof => simpa [GbnSocket.receiveEof, BlockQueue.pushChunk] using hblock
    all_goals exact Or.inl hblock

/-! ### The queue and the heap -/

/-- The sending buffer holds the written blocks, then closing markers only. The heap holds the blocks
that have not been popped. -/
structure Queue (sock : GbnSocket) (queued : List Bytes) (closed : Bool) : Prop where
  next : sock.heap.next = queued.length + 1
  blocks : ∀ (i : Nat) (bytes : Bytes), queued[i]? = some bytes →
    sock.sendingBuffer.pushed[i]? = some (⟨i + 1, UInt32.ofNat bytes.length, 0⟩ : DataBlock Ref)
  marks : ∀ (i : Nat) (block : DataBlock Ref), queued.length ≤ i → sock.sendingBuffer.pushed[i]? = some block → block.Closing
  opened : closed = false → sock.sendingBuffer.pushed.length = queued.length
  popped_le : sock.sendingBuffer.popped ≤ sock.sendingBuffer.pushed.length
  live : ∀ (i : Nat) (bytes : Bytes), sock.sendingBuffer.popped ≤ i → queued[i]? = some bytes →
    sock.heap.cell (i + 1) = some bytes
  freed : ∀ i < sock.sendingBuffer.popped, i < queued.length → sock.heap.cell (i + 1) = none
  short : ∀ bytes ∈ queued, bytes.length ≤ defaultPacketSize

theorem Queue.frame {sock next : GbnSocket} {queued : List Bytes} {closed : Bool}
    (h : Queue sock queued closed) (hheap : next.heap = sock.heap)
    (hbuffer : next.sendingBuffer = sock.sendingBuffer) : Queue next queued closed := by
  refine ⟨by rw [hheap]; exact h.next, ?_, ?_, ?_, ?_, ?_, ?_, h.short⟩ <;>
    simp only [hheap, hbuffer]
  · exact h.blocks
  · exact h.marks
  · exact h.opened
  · exact h.popped_le
  · exact h.live
  · exact h.freed

theorem queue_initial : Queue initGbnSocket [] false where
  next := rfl
  blocks := by simp
  marks := by simp [initGbnSocket, BlockQueue.empty]
  opened _ := rfl
  popped_le := le_rfl
  live := by simp
  freed := by simp
  short := by simp

theorem Queue.pushBlock {sock : GbnSocket} {queued : List Bytes} {bytes : Bytes}
    (h : Queue sock queued false) (hshort : bytes.length ≤ defaultPacketSize) :
    Queue (sock.pushBlock bytes) (queued ++ [bytes]) false := by
  have hlen := h.opened rfl
  have hcell : ∀ i : Nat, i + 1 ≠ sock.heap.next →
      (sock.pushBlock bytes).heap.cell (i + 1) = sock.heap.cell (i + 1) :=
    fun i hi => Function.update_of_ne hi _ _
  have hnext := h.next
  refine ⟨?_, ?_, ?_, ?_, ?_, ?_, ?_, ?_⟩
  · simp [GbnSocket.pushBlock, Heap.malloc, h.next]
  · intro i found hi
    simp only [GbnSocket.pushBlock, BlockQueue.pushChunk]
    by_cases hlt : i < queued.length
    · rw [List.getElem?_append_left hlt] at hi
      rw [List.getElem?_append_left (by omega)]
      exact h.blocks i found hi
    · rw [List.getElem?_append_right (by omega)] at hi ⊢
      rw [hlen]
      obtain rfl : i = queued.length := by
        have := (List.getElem?_eq_some_iff.1 hi).1
        rw [List.length_singleton] at this
        omega
      rw [Nat.sub_self] at hi ⊢
      obtain rfl : bytes = found := by simpa using hi
      simp [h.next]
  · intro i block hi hget
    rw [List.length_append, List.length_singleton] at hi
    simp only [GbnSocket.pushBlock, BlockQueue.pushChunk] at hget
    rw [List.getElem?_eq_none (by simp [hlen]; omega)] at hget
    cases hget
  · intro _
    simp [GbnSocket.pushBlock, BlockQueue.pushChunk, hlen]
  · simp only [GbnSocket.pushBlock, BlockQueue.pushChunk, List.length_append, List.length_singleton]
    exact h.popped_le.trans (Nat.le_succ _)
  · intro i found hpopped hi
    by_cases hlt : i < queued.length
    · rw [List.getElem?_append_left hlt] at hi
      rw [hcell i (by omega)]
      exact h.live i found hpopped hi
    · rw [List.getElem?_append_right (by omega)] at hi
      obtain rfl : i = queued.length := by
        have := (List.getElem?_eq_some_iff.1 hi).1
        rw [List.length_singleton] at this
        omega
      rw [Nat.sub_self] at hi
      obtain rfl : bytes = found := by simpa using hi
      simp [GbnSocket.pushBlock, Heap.malloc, h.next]
  · intro i hpopped hi
    have hle := h.popped_le
    change i < sock.sendingBuffer.popped at hpopped
    rw [hcell i (by omega)]
    exact h.freed i hpopped (by omega)
  · intro found hfound
    rcases List.mem_append.1 hfound with hfound | hfound
    · exact h.short found hfound
    · rw [List.mem_singleton.1 hfound]
      exact hshort

theorem Queue.foldl_pushBlock {sock : GbnSocket} {queued blocks : List Bytes}
    (h : Queue sock queued false) (hshort : ∀ bytes ∈ blocks, bytes.length ≤ defaultPacketSize) :
    Queue (blocks.foldl GbnSocket.pushBlock sock) (queued ++ blocks) false := by
  induction blocks generalizing sock queued with
  | nil => simpa using h
  | cons bytes blocks ih =>
      have hpush := h.pushBlock (hshort bytes (by simp))
      have hrest := ih hpush fun b hb => hshort b (by simp [hb])
      rwa [List.append_assoc, List.singleton_append] at hrest

theorem writeBlocks_short (bytes : Bytes) :
    ∀ block ∈ GbnSocket.writeBlocks bytes, block.length ≤ defaultPacketSize := by
  have hwhole : ∀ block ∈ (List.range (bytes.length / defaultPacketSize)).map (fun cntr =>
      (bytes.drop (cntr * defaultPacketSize)).take defaultPacketSize),
      block.length ≤ defaultPacketSize := by
    intro block hblock
    obtain ⟨cntr, -, rfl⟩ := List.mem_map.1 hblock
    exact (List.length_take_le _ _)
  intro block hblock
  rw [GbnSocket.writeBlocks] at hblock
  split at hblock
  · rcases List.mem_append.1 hblock with hblock | hblock
    · exact hwhole block hblock
    · rw [List.mem_singleton.1 hblock, List.length_drop]
      simp only [defaultPacketSize]
      omega
  · exact hwhole block hblock

theorem writeBlocks_pos (bytes : Bytes) :
    ∀ block ∈ GbnSocket.writeBlocks bytes, 0 < block.length := by
  have hwhole : ∀ block ∈ (List.range (bytes.length / defaultPacketSize)).map (fun cntr =>
      (bytes.drop (cntr * defaultPacketSize)).take defaultPacketSize), 0 < block.length := by
    intro block hblock
    obtain ⟨cntr, hcntr, rfl⟩ := List.mem_map.1 hblock
    rw [List.mem_range] at hcntr
    rw [List.length_take, List.length_drop]
    simp only [defaultPacketSize] at hcntr ⊢
    omega
  intro block hblock
  rw [GbnSocket.writeBlocks] at hblock
  split at hblock
  case isTrue hrest =>
    rcases List.mem_append.1 hblock with hblock | hblock
    · exact hwhole block hblock
    · rw [List.mem_singleton.1 hblock, List.length_drop]
      omega
  case isFalse => exact hwhole block hblock

theorem toNat_short {bytes : Bytes} (h : bytes.length ≤ defaultPacketSize) :
    (UInt32.ofNat bytes.length).toNat = bytes.length := by
  simp only [defaultPacketSize] at h
  exact UInt32.toNat_ofNat_of_lt' (by simp only [UInt32.size]; omega)

theorem writeBlocks_nonempty (bytes : Bytes) :
    ∀ block ∈ GbnSocket.writeBlocks bytes, UInt32.ofNat block.length ≠ 0 := by
  intro block hblock hzero
  have hlen := congrArg UInt32.toNat hzero
  rw [toNat_short (writeBlocks_short bytes block hblock)] at hlen
  exact absurd hlen (writeBlocks_pos bytes block hblock).ne'

theorem Queue.pushMark {sock next : GbnSocket} {queued : List Bytes} {closed : Bool}
    {mark : DataBlock Ref} (h : Queue sock queued closed) (hmark : mark.Closing)
    (hheap : next.heap = sock.heap)
    (hbuffer : next.sendingBuffer = sock.sendingBuffer.pushChunk mark) : Queue next queued true := by
  refine ⟨by rw [hheap]; exact h.next, ?_, ?_, nofun, ?_, ?_, ?_, h.short⟩
  · intro i bytes hi
    have hget := h.blocks i bytes hi
    have hlt := (List.getElem?_eq_some_iff.1 hget).1
    rw [hbuffer, BlockQueue.pushChunk, List.getElem?_append_left hlt]
    exact hget
  · intro i block hi hget
    rw [hbuffer, BlockQueue.pushChunk] at hget
    by_cases hlt : i < sock.sendingBuffer.pushed.length
    · rw [List.getElem?_append_left hlt] at hget
      exact h.marks i block hi hget
    · rw [List.getElem?_append_right (by omega)] at hget
      have hmem := List.mem_of_getElem? hget
      rw [List.mem_singleton.1 hmem]
      exact hmark
  · rw [hbuffer]
    simp only [BlockQueue.pushChunk, List.length_append]
    exact h.popped_le.trans (Nat.le_add_right _ _)
  · rw [hbuffer, hheap]
    exact h.live
  · rw [hbuffer, hheap]
    exact h.freed

/-! ### The sender's invariant -/

/-- The slots that the loop of `retransmit` has still to visit hold the `left` packets sent last. -/
structure Visits (w : GbnWindow Ref) (queued : List Bytes) (n : Nat) (i : Fin 6) (left : Nat) :
    Prop where
  pos : 0 < left
  le : left ≤ 6
  sent : left ≤ n
  tail : w.tail.toNat = (i.val + left) % 6
  slots : ∀ j < left, w.packetBuffer (Fin.ofNat 6 (i.val + j)) = sentPacket queued (n - left + j)

/-- The slot behind the one that is visited is the next, unless the loop has come to the tail. -/
theorem Visits.next {w : GbnWindow Ref} {queued : List Bytes} {n left : Nat} {i : Fin 6}
    (h : Visits w queued n i left) (hmore : (Fin.ofNat 6 (i.val + 1)).val ≠ w.tail.toNat) :
    Visits w queued n (Fin.ofNat 6 (i.val + 1)) (left - 1) := by
  have hpos := h.pos
  have hle := h.le
  have hsent := h.sent
  have hnext : (Fin.ofNat 6 (i.val + 1)).val = (i.val + 1) % 6 := rfl
  rw [hnext, h.tail] at hmore
  refine ⟨?_, by omega, by omega, ?_, fun j hj => ?_⟩
  · by_contra hzero
    obtain rfl : left = 1 := by omega
    exact hmore rfl
  · rw [hnext, h.tail]
    omega
  · have hshift : Fin.ofNat 6 ((Fin.ofNat 6 (i.val + 1)).val + j) = Fin.ofNat 6 (i.val + (j + 1)) := by
      apply Fin.ext
      rw [Fin.val_ofNat, Fin.val_ofNat, Fin.val_ofNat]
      omega
    rw [hshift, h.slots (j + 1) (by omega)]
    congr 1
    omega

theorem Visits.first {w : GbnWindow Ref} {queued : List Bytes} {n left : Nat} {i : Fin 6}
    (h : Visits w queued n i left) : w.packetBuffer i = sentPacket queued (n - left) := by
  have hslot := h.slots 0 h.pos
  rwa [Nat.add_zero, Nat.add_zero, show Fin.ofNat 6 i.val = i from Fin.ext (Nat.mod_eq_of_lt i.isLt)] at hslot

/-- From the head on, the loop has the whole window to visit. -/
theorem GbnWindow.Describes.visits {w : GbnWindow Ref} {queued : List Bytes} {n : Nat}
    (h : w.Describes queued n) (hsize : w.size ≠ 0) :
    Visits w queued n (Fin.ofNat 6 w.head.toNat) w.size.toNat := by
  have hval : (Fin.ofNat 6 w.head.toNat).val = w.head.toNat := Nat.mod_eq_of_lt h.head
  refine ⟨Nat.pos_of_ne_zero fun h0 => hsize (UInt8.toNat_inj.1 h0), h.size, h.size_le, ?_, fun j hj => ?_⟩
  · rw [hval]
    exact h.tail
  · rw [hval]
    exact h.slots j hj

/-- What the state of the write thread says about the window. -/
def WriterFits (sock : GbnSocket) (queued : List Bytes) : Prop :=
  match sock.writer with
  | .blockOnQueue => sock.sendingWindow.size.toNat < 6
  | .sendPacket => sock.sendingWindow.size.toNat < 6
  | .retransmitFrom i => ∃ left, Visits sock.sendingWindow queued sock.seqNumber.toNat i left
  | _ => True

def GbnSocket.Closing (sock : GbnSocket) : Prop :=
  sock.writer = .closeConnection ∨ sock.writer = .stopped

/-- The state of a socket that sends the blocks `queued`. -/
structure SenderInv (sock : GbnSocket) (queued : List Bytes) (closed : Bool) : Prop where
  queue : Queue sock queued closed
  window : sock.sendingWindow.Describes queued sock.seqNumber.toNat
  writer : WriterFits sock queued
  sent : sock.seqNumber.toNat ≤ queued.length
  popped : ¬ sock.Closing → sock.sendingBuffer.popped = sock.seqNumber.toNat
  closing : sock.Closing → closed = true

theorem senderInv_initial : SenderInv initGbnSocket [] false where
  queue := queue_initial
  window := describes_zeroed
  writer := trivial
  sent := le_rfl
  popped _ := rfl
  closing h := by rcases h with h | h <;> cases h

/-- What a step of a thread of the sender leaves behind: the invariant, and datagrams that are not
acknowledgements and carry numbers in use. The lower end of the window moves up to `r` at most. The
application may have written or closed, so `queued` and `closed` are those after the step. -/
structure SenderStep (sock next : GbnSocket) (queued : List Bytes) (closed : Bool)
    (out : List Datagram) (r : Nat) : Prop where
  inv : SenderInv next queued closed
  mono : sock.seqNumber.toNat ≤ next.seqNumber.toNat
  low : next.seqNumber.toNat - next.sendingWindow.size.toNat ≤ r
  noAck : ∀ d ∈ out, d.type ≠ .ack
  data : ∀ d ∈ out, d.type = .data → d.seqNumber.toNat < next.seqNumber.toNat
  eof : ∀ d ∈ out, d.type = .eof → next.writer = .stopped
  stopped : sock.writer = .stopped → next.writer = .stopped

section Steps

variable {sock next : GbnSocket} {queued : List Bytes} {closed : Bool} {junk : Junk}
  {out : List Datagram} {r : Nat}

theorem Idle.not_closing {state : WriterState} (h : Idle sock sock.writer state) :
    ¬ sock.Closing ∧ state ≠ .closeConnection ∧ state ≠ .stopped := by
  rw [GbnSocket.Closing]
  cases hwriter : sock.writer <;> rw [hwriter] at h <;> cases h <;> simp

theorem Idle.fits (h : SenderInv sock queued closed) {state : WriterState}
    (hidle : Idle sock sock.writer state) : WriterFits { sock with writer := state } queued := by
  have hwriter := h.writer
  rw [WriterFits] at hwriter
  generalize hold : sock.writer = old at hidle hwriter
  cases hidle with
  | empty hsize => exact (by rw [hsize]; decide : sock.sendingWindow.size.toNat < 6)
  | block => exact hwriter
  | room hroom => exact UInt8.lt_iff_toNat_lt.1 hroom
  | again hsize => exact ⟨_, h.window.visits hsize⟩
  | _ => trivial

theorem senderStep_idle (h : SenderInv sock queued closed) {state : WriterState}
    (hidle : Idle sock sock.writer state)
    (hlow : sock.seqNumber.toNat - sock.sendingWindow.size.toNat ≤ r) :
    SenderStep sock { sock with writer := state } queued closed [] r where
  inv :=
    { queue := h.queue.frame rfl rfl
      window := h.window
      writer := hidle.fits h
      sent := h.sent
      popped := fun _ => h.popped hidle.not_closing.1
      closing := fun hclosing => by
        rcases hclosing with heq | heq
        · exact absurd heq hidle.not_closing.2.1
        · exact absurd heq hidle.not_closing.2.2 }
  mono := le_rfl
  low := hlow
  noAck := by simp
  data := by simp
  eof := by simp
  stopped hstopped := absurd (Or.inr hstopped) hidle.not_closing.1

theorem Queue.pop (h : Queue sock queued closed) {block : DataBlock Ref}
    (hpeek : sock.sendingBuffer.peekChunk = some block)
    (hbuffer : next.sendingBuffer = sock.sendingBuffer.popChunk)
    (hnext : next.heap.next = sock.heap.next)
    (hkept : ∀ i, i ≠ sock.sendingBuffer.popped → next.heap.cell (i + 1) = sock.heap.cell (i + 1))
    (hfreed : sock.sendingBuffer.popped < queued.length →
      next.heap.cell (sock.sendingBuffer.popped + 1) = none) : Queue next queued closed := by
  have hlt := BlockQueue.peekChunk_lt hpeek
  rw [BlockQueue.popChunk_of_peek hpeek] at hbuffer
  refine ⟨hnext.trans h.next, ?_, ?_, ?_, ?_, ?_, ?_, h.short⟩
  · rw [hbuffer]
    exact h.blocks
  · rw [hbuffer]
    exact h.marks
  · rw [hbuffer]
    exact h.opened
  · rw [hbuffer]
    exact hlt
  · intro i bytes hpopped hi
    rw [hbuffer] at hpopped
    change sock.sendingBuffer.popped + 1 ≤ i at hpopped
    rw [hkept i (by omega)]
    exact h.live i bytes (by omega) hi
  · intro i hpopped hi
    rw [hbuffer] at hpopped
    change i < sock.sendingBuffer.popped + 1 at hpopped
    by_cases heq : i = sock.sendingBuffer.popped
    · rw [heq]
      exact hfreed (by omega)
    · rw [hkept i heq]
      exact h.freed i (by omega) hi

/-- The front block is a closing marker exactly when all written blocks have been popped. -/
theorem Queue.closing_iff (h : Queue sock queued closed) {block : DataBlock Ref}
    (hpeek : sock.sendingBuffer.peekChunk = some block) :
    block.Closing ↔ queued.length ≤ sock.sendingBuffer.popped := by
  constructor
  · intro hclosing
    by_contra hlt
    have hget := h.blocks sock.sendingBuffer.popped _ (List.getElem?_eq_getElem (by omega))
    rw [BlockQueue.peekChunk, hget] at hpeek
    rw [← Option.some.inj hpeek] at hclosing
    exact hclosing (by decide : (0 : UInt8) &&& isClosing = 0)
  · intro hle
    exact h.marks _ block hle hpeek

theorem senderStep_closing (h : SenderInv sock queued closed) {block : DataBlock Ref}
    (hwriter : sock.writer = .sendPacket) (hpeek : sock.sendingBuffer.peekChunk = some block)
    (hclosing : block.Closing)
    (hlow : sock.seqNumber.toNat - sock.sendingWindow.size.toNat ≤ r) :
    SenderStep sock { sock.popped with writer := .closeConnection } queued closed [] r := by
  have hend := (h.queue.closing_iff hpeek).1 hclosing
  have hclosed : closed = true := by
    have hlt := BlockQueue.peekChunk_lt hpeek
    by_contra hopen
    have := h.queue.opened (by simpa using hopen)
    omega
  refine ⟨⟨?_, h.window, trivial, h.sent, fun hnot => absurd (Or.inl rfl) hnot, fun _ => hclosed⟩,
    le_rfl, hlow, by simp, by simp, by simp, fun hstopped => by rw [hwriter] at hstopped; cases hstopped⟩
  exact h.queue.pop hpeek rfl rfl (fun _ _ => rfl) fun hlt => absurd hlt (by omega)

/-- The block that `send_packet` takes is the one with the next number, and the packet it builds from
it is the sent packet of that number. -/
theorem SenderInv.front (h : SenderInv sock queued closed) {block : DataBlock Ref}
    (hwriter : sock.writer = .sendPacket) (hpeek : sock.sendingBuffer.peekChunk = some block)
    (hopen : ¬ block.Closing) :
    sock.sendingBuffer.popped = sock.seqNumber.toNat ∧ sock.seqNumber.toNat < queued.length ∧
      (⟨.data, sock.seqNumber, block.len, block.data⟩ : GbnPacket Ref) =
        sentPacket queued sock.seqNumber.toNat := by
  have hpopped := h.popped (by rw [GbnSocket.Closing, hwriter]; simp)
  have hlt : sock.seqNumber.toNat < queued.length := by
    have := mt (h.queue.closing_iff hpeek).2 hopen
    omega
  have hget := h.queue.blocks _ _ (List.getElem?_eq_getElem hlt)
  rw [BlockQueue.peekChunk, hpopped, hget] at hpeek
  obtain rfl := Option.some.inj hpeek
  refine ⟨hpopped, hlt, ?_⟩
  rw [sentPacket, UInt32.ofNat_toNat, List.getD_eq_getElem?_getD, List.getElem?_eq_getElem hlt]
  rfl

theorem senderStep_send (h : SenderInv sock queued closed) (hbound : queued.length < 2 ^ 32)
    {block : DataBlock Ref} (hwriter : sock.writer = .sendPacket)
    (hpeek : sock.sendingBuffer.peekChunk = some block) (hopen : ¬ block.Closing)
    (hlow : sock.seqNumber.toNat - sock.sendingWindow.size.toNat ≤ r) :
    SenderStep sock (sock.popped.sendBlock junk block).1 queued closed
      (sock.popped.sendBlock junk block).2 r := by
  obtain ⟨hpopped, hlt, hpacket⟩ := h.front hwriter hpeek hopen
  have hroom : sock.sendingWindow.size.toNat < 6 := by
    have := h.writer
    rwa [WriterFits, hwriter] at this
  have hseq : (sock.seqNumber + 1).toNat = sock.seqNumber.toNat + 1 := by
    rw [UInt32.toNat_add]
    exact Nat.mod_eq_of_lt (by simpa using by omega)
  have hwindow := h.window.append hroom
  rw [← hpacket] at hwindow
  have hdata : block.data = sock.seqNumber.toNat + 1 := congrArg GbnPacket.payload hpacket
  have hsize : (sock.sendingWindow.append ⟨.data, sock.seqNumber, block.len, block.data⟩).size.toNat =
      sock.sendingWindow.size.toNat + 1 := by
    change (sock.sendingWindow.size + 1).toNat = _
    rw [UInt8.toNat_add]
    exact Nat.mod_eq_of_lt (by simpa using by omega)
  refine ⟨⟨?_, ?_, trivial, ?_, fun _ => ?_, fun hclosing => ?_⟩, ?_, ?_, ?_, ?_, ?_, ?_⟩
  · refine h.queue.pop hpeek rfl rfl (fun i hi => ?_) fun _ => ?_
    · exact Function.update_of_ne (by rw [hdata, ← hpopped]; exact fun heq => hi (Nat.succ.inj heq)) _ _
    · change Function.update sock.heap.cell block.data none (sock.sendingBuffer.popped + 1) = none
      rw [hdata, hpopped, Function.update_self]
  · change (sock.sendingWindow.append _).Describes queued (sock.seqNumber + 1).toNat
    rw [hseq]
    exact hwindow
  · change (sock.seqNumber + 1).toNat ≤ _
    omega
  · change sock.sendingBuffer.popChunk.popped = (sock.seqNumber + 1).toNat
    rw [BlockQueue.popChunk_of_peek hpeek, hseq, ← hpopped]
  · rcases hclosing with heq | heq <;> cases heq
  · change _ ≤ (sock.seqNumber + 1).toNat
    omega
  · change (sock.seqNumber + 1).toNat - (sock.sendingWindow.append
      ⟨.data, sock.seqNumber, block.len, block.data⟩).size.toNat ≤ r
    omega
  · intro d hd
    rw [List.mem_singleton.1 hd]
    simp [GbnSocket.serialize]
  · intro d hd _
    rw [List.mem_singleton.1 hd]
    change sock.seqNumber.toNat < (sock.seqNumber + 1).toNat
    omega
  · intro d hd heof
    rw [List.mem_singleton.1 hd] at heof
    cases heof
  · intro hstopped
    rw [hwriter] at hstopped
    cases hstopped

/-- One pass of the loop of `retransmit`: it sends the first of the packets left to visit, and goes on
with the others. -/
theorem senderStep_resend (h : SenderInv sock queued closed) (hbound : queued.length < 2 ^ 32)
    {i : Fin defaultQueueSize} (hwriter : sock.writer = .retransmitFrom i)
    (hlow : sock.seqNumber.toNat - sock.sendingWindow.size.toNat ≤ r) :
    SenderStep sock (sock.retransmitSlot junk i).1 queued closed (sock.retransmitSlot junk i).2 r := by
  have hfits := h.writer
  rw [WriterFits, hwriter] at hfits
  obtain ⟨left, hvisits⟩ := hfits
  have hsent := h.sent
  have hi : i.val < 6 := i.isLt
  have hleft := hvisits.sent
  have hpos := hvisits.pos
  have hslot := hvisits.first
  have hnot : ¬ sock.Closing := by rw [GbnSocket.Closing, hwriter]; simp
  refine ⟨⟨h.queue.frame rfl rfl, h.window, ?_, h.sent, fun _ => h.popped hnot, ?_⟩, le_rfl, hlow,
    ?_, ?_, ?_, ?_⟩
  · rw [WriterFits]
    simp only [GbnSocket.retransmitSlot]
    by_cases hlast : (Fin.ofNat 6 (i.val + 1)).val = sock.sendingWindow.tail.toNat
    · rw [if_neg (not_not.2 hlast)]
      trivial
    · rw [if_pos hlast]
      exact ⟨left - 1, hvisits.next hlast⟩
  · intro hclosing
    exfalso
    rw [GbnSocket.Closing] at hclosing
    simp only [GbnSocket.retransmitSlot] at hclosing
    split at hclosing <;> rcases hclosing with heq | heq <;> cases heq
  · intro d hd
    rw [List.mem_singleton.1 hd, GbnSocket.serialize, hslot]
    simp [sentPacket]
  · intro d hd _
    rw [List.mem_singleton.1 hd]
    change (sock.sendingWindow.packetBuffer i).seqNumber.toNat < sock.seqNumber.toNat
    rw [hslot, sentPacket_seqNumber (by omega)]
    omega
  · intro d hd heof
    rw [List.mem_singleton.1 hd, GbnSocket.serialize, hslot] at heof
    cases heof
  · intro hstopped
    rw [hwriter] at hstopped
    cases hstopped

theorem SenderInv.writerStep (h : SenderInv sock queued closed) (hbound : queued.length < 2 ^ 32)
    (hlow : sock.seqNumber.toNat - sock.sendingWindow.size.toNat ≤ r)
    (hmove : WriterMove sock junk next out) : SenderStep sock next queued closed out r := by
  cases hmove with
  | idle hidle => exact senderStep_idle h hidle hlow
  | closing hwriter hpeek hclosing => exact senderStep_closing h hwriter hpeek hclosing hlow
  | send hwriter hpeek hopen => exact senderStep_send h hbound hwriter hpeek hopen hlow
  | resend hwriter => exact senderStep_resend h hbound hwriter hlow
  | eof hwriter =>
      refine ⟨⟨h.queue.frame rfl rfl, h.window, trivial, h.sent, fun hnot => absurd (Or.inr rfl) hnot,
        fun _ => h.closing (Or.inl hwriter)⟩, le_rfl, hlow, ?_, ?_, fun _ _ _ => rfl, fun _ => rfl⟩
      · intro d hd
        rw [List.mem_singleton.1 hd]
        simp [GbnSocket.eofDatagram]
      · intro d hd hdata
        rw [List.mem_singleton.1 hd] at hdata
        cases hdata

/-- The window shrinks from its head, which no state of the write thread depends on. -/
theorem WriterFits.acknowledge {s : UInt32} (h : WriterFits sock queued)
    (hsize : (sock.sendingWindow.acknowledge s).size.toNat ≤ sock.sendingWindow.size.toNat) :
    WriterFits { sock with sendingWindow := sock.sendingWindow.acknowledge s } queued := by
  have hkept : (sock.sendingWindow.acknowledge s).packetBuffer = sock.sendingWindow.packetBuffer ∧
      (sock.sendingWindow.acknowledge s).tail = sock.sendingWindow.tail := by
    rw [GbnWindow.acknowledge]
    split <;> exact ⟨rfl, rfl⟩
  rw [WriterFits] at h ⊢
  cases hwriter : sock.writer with
  | blockOnQueue =>
      simp only [hwriter] at h ⊢
      omega
  | sendPacket =>
      simp only [hwriter] at h ⊢
      omega
  | retransmitFrom i =>
      simp only [hwriter] at h ⊢
      obtain ⟨left, hvisits⟩ := h
      exact ⟨left, hvisits.pos, hvisits.le, hvisits.sent, by rw [hkept.2]; exact hvisits.tail,
        by rw [hkept.1]; exact hvisits.slots⟩
  | _ => trivial

/-- The read thread of a socket to which no data is sent keeps the invariant, when the
acknowledgements are for packets that were sent, an empty window takes none, and an EOF arrives only
after the socket has been closed. -/
theorem SenderInv.readThread (h : SenderInv sock queued closed) (hbound : queued.length < 2 ^ 32)
    (hlow : sock.seqNumber.toNat - sock.sendingWindow.size.toNat ≤ r)
    (hr : r ≤ sock.seqNumber.toNat) {d : Datagram} (hdata : d.type ≠ .data)
    (hack : d.type = .ack → (d.seqNumber + 1).toNat ≤ r)
    (hempty : d.type = .ack → sock.sendingWindow.size = 0 →
      sock.sendingWindow.getSendFrameIdDelta d.seqNumber = -2)
    (heof : d.type = .eof → closed = true) :
    SenderStep sock (sock.readThread d).1 queued closed (sock.readThread d).2 r := by
  have hsent := h.sent
  rw [GbnSocket.readThread]
  split
  · exact ⟨⟨h.queue.frame rfl rfl, h.window, h.writer, h.sent, h.popped, h.closing⟩, le_rfl, hlow,
      by simp, by simp, by simp, id⟩
  · cases htype : d.type with
    | ack =>
        obtain ⟨hwindow, hlow', hsize⟩ := h.window.acknowledge (hack htype) hr (by omega) hlow
          (hempty htype)
        exact ⟨⟨h.queue.frame rfl rfl, hwindow, h.writer.acknowledge hsize, h.sent, h.popped,
          h.closing⟩, le_rfl, hlow', by simp, by simp, by simp, id⟩
    | data => exact absurd htype hdata
    | ackEof =>
        exact ⟨⟨h.queue.frame rfl rfl, h.window, h.writer, h.sent, h.popped, h.closing⟩, le_rfl, hlow,
          by simp, by simp, by simp, id⟩
    | eof =>
        obtain rfl := heof htype
        have hmark : DataBlock.Closing (⟨0, 0, isClosing⟩ : DataBlock Ref) := by decide
        exact ⟨⟨h.queue.pushMark hmark rfl rfl,
          h.window, h.writer, h.sent, h.popped, h.closing⟩, le_rfl, hlow,
          by simp [GbnSocket.receiveEof], by simp [GbnSocket.receiveEof],
          by simp [GbnSocket.receiveEof], id⟩
    | uninitialized => exact ⟨h, le_rfl, hlow, by simp, by simp, by simp, id⟩
    | other code => exact ⟨h, le_rfl, hlow, by simp, by simp, by simp, id⟩

theorem foldl_pushBlock_kept (blocks : List Bytes) (sock : GbnSocket) :
    (blocks.foldl GbnSocket.pushBlock sock).sendingWindow = sock.sendingWindow ∧
      (blocks.foldl GbnSocket.pushBlock sock).seqNumber = sock.seqNumber ∧
      (blocks.foldl GbnSocket.pushBlock sock).writer = sock.writer ∧
      (blocks.foldl GbnSocket.pushBlock sock).sendingBuffer.popped = sock.sendingBuffer.popped := by
  induction blocks generalizing sock with
  | nil => exact ⟨rfl, rfl, rfl, rfl⟩
  | cons block blocks ih => exact ih (sock.pushBlock block)

theorem SenderInv.write (h : SenderInv sock queued false) (bytes : Bytes) :
    SenderInv (sock.write bytes) (queued ++ GbnSocket.writeBlocks bytes) false := by
  obtain ⟨hwindow, hseq, hwriter, hpopped⟩ := foldl_pushBlock_kept (GbnSocket.writeBlocks bytes) sock
  have hsent := h.sent
  refine ⟨h.queue.foldl_pushBlock (writeBlocks_short bytes), ?_, ?_, ?_, ?_, ?_⟩
  · rw [GbnSocket.write, hwindow, hseq]
    exact h.window.more h.sent _
  · have hfits := h.writer
    rw [WriterFits] at hfits ⊢
    rw [GbnSocket.write, hwindow, hseq, hwriter]
    cases hstate : sock.writer with
    | blockOnQueue => simpa only [hstate] using hfits
    | sendPacket => simpa only [hstate] using hfits
    | retransmitFrom i =>
        simp only [hstate] at hfits ⊢
        obtain ⟨left, hvisits⟩ := hfits
        refine ⟨left, hvisits.pos, hvisits.le, hvisits.sent, hvisits.tail, fun j hj => ?_⟩
        have := hvisits.sent
        rw [hvisits.slots j hj, sentPacket_append (by omega)]
    | _ => trivial
  · rw [GbnSocket.write, hseq, List.length_append]
    omega
  · rw [GbnSocket.write, GbnSocket.Closing, hwriter, hpopped, hseq]
    exact h.popped
  · rw [GbnSocket.write, GbnSocket.Closing, hwriter]
    exact h.closing

theorem SenderInv.close (h : SenderInv sock queued false) : SenderInv sock.close queued true := by
  rw [GbnSocket.close]
  cases sock.status with
  | opened =>
      have hmark : DataBlock.Closing (⟨0, 0, isClosing⟩ : DataBlock Ref) := by decide
      exact ⟨h.queue.pushMark hmark rfl rfl,
        h.window, h.writer, h.sent, h.popped, fun _ => rfl⟩
  | closed =>
      exact ⟨{ h.queue with opened := nofun }, h.window, h.writer, h.sent, h.popped, fun _ => rfl⟩

theorem SenderInv.step_of_kept {queued' : List Bytes} {closed' : Bool}
    (hinv : SenderInv next queued' closed') (hwindow : next.sendingWindow = sock.sendingWindow)
    (hseq : next.seqNumber = sock.seqNumber) (hwriter : next.writer = sock.writer)
    (hlow : sock.seqNumber.toNat - sock.sendingWindow.size.toNat ≤ r) :
    SenderStep sock next queued' closed' [] r where
  inv := hinv
  mono := by rw [hseq]
  low := by rwa [hwindow, hseq]
  noAck := by simp
  data := by simp
  eof := by simp
  stopped h := hwriter.trans h

theorem SenderInv.write_step (h : SenderInv sock queued false) (bytes : Bytes)
    (hlow : sock.seqNumber.toNat - sock.sendingWindow.size.toNat ≤ r) :
    SenderStep sock (sock.write bytes) (queued ++ GbnSocket.writeBlocks bytes) false [] r :=
  let ⟨hwindow, hseq, hwriter, _⟩ := foldl_pushBlock_kept (GbnSocket.writeBlocks bytes) sock
  (h.write bytes).step_of_kept hwindow hseq hwriter hlow

theorem close_kept (sock : GbnSocket) : sock.close.sendingWindow = sock.sendingWindow ∧
    sock.close.seqNumber = sock.seqNumber ∧ sock.close.writer = sock.writer := by
  rw [GbnSocket.close]
  cases sock.status <;> exact ⟨rfl, rfl, rfl⟩

theorem SenderInv.close_step (h : SenderInv sock queued false)
    (hlow : sock.seqNumber.toNat - sock.sendingWindow.size.toNat ≤ r) :
    SenderStep sock sock.close queued true [] r :=
  let ⟨hwindow, hseq, hwriter⟩ := close_kept sock
  h.close.step_of_kept hwindow hseq hwriter hlow

end Steps

end NetworkSystems.Gbn
