import NetworkSystems.Gbn.FileTransfer

/-!
# Datagrams that are lost

`sendto_` drops a share of the datagrams that it is given. The write thread sends its window again when
no acknowledgement comes, but only from `wait_on_read`: once it goes for the closing marker it sends
nothing a second time, and the EOF it sends once. So whether a transfer can still come to its end
depends on what has reached the network by then.
-/

namespace NetworkSystems.Gbn

/-! ### The network with losses -/

/-- The states from which the write thread goes on without waiting for an acknowledgement. -/
def WriterState.Sends : WriterState → Prop
  | .windowEmptyQ | .blockOnQueue | .sendPacket | .isWinFullQ => True
  | _ => False

instance : DecidablePred WriterState.Sends
  | .windowEmptyQ | .blockOnQueue | .sendPacket | .isWinFullQ => isTrue trivial
  | .waitOnRead | .retransmit | .retransmitFrom _ | .closeConnection | .stopped => isFalse id

namespace Protocol

/-- The step from `s` to `next`, when what it sends is dropped. -/
def dropped (s next : Protocol) : Protocol :=
  { next with toReceiver := s.toReceiver, toSender := s.toSender }

/-- The number of the first packet that is not acknowledged. -/
def low (s : Protocol) : Nat := s.sender.seqNumber.toNat - s.sender.sendingWindow.size.toNat

/-- The packet with the number has reached the network. -/
def OnWay (s : Protocol) (n : Nat) : Prop := ∃ d ∈ s.toReceiver, d.type = .data ∧ d.seqNumber.toNat = n

/-- No packet of the sending window has to be sent again. -/
def WindowOnWay (s : Protocol) : Prop := ∀ n < s.sender.seqNumber.toNat, s.low ≤ n → s.OnWay n

/-- What has been lost is still made good. Behind `gbn_socket_close` a write thread that is not waiting
gets to wait only if the window fills up before the marker is in front. When it has ended, the EOF has to
be on its way. -/
def Recovers (s : Protocol) : Prop :=
  s.closed = true →
    (s.sender.writer.Sends → s.WindowOnWay ∨ s.low + defaultQueueSize ≤ s.queued.length) ∧
    (s.sender.writer = .stopped → s.receiver.readStatus = .closed ∨ ∃ d ∈ s.toReceiver, d.type = .eof)

instance (s : Protocol) (n : Nat) : Decidable (s.OnWay n) :=
  inferInstanceAs (Decidable (∃ d ∈ _, _))

instance (s : Protocol) : Decidable s.WindowOnWay := inferInstanceAs (Decidable (∀ n < _, _))

instance (s : Protocol) : Decidable s.Recovers := inferInstanceAs (Decidable (_ → _ ∧ _))

end Protocol

def FileTransfer.dropped (s next : FileTransfer) : FileTransfer :=
  { next with protocol := s.protocol.dropped next.protocol }

/-- The steps of a transfer, each with whether `sendto_` drops what it sends. -/
def lossyTransfer : Machine FileTransfer (TransferAction × Bool) where
  step s a := (s.step a.1).map fun next => if a.2 then s.dropped next else next

/-- The condition on the steps of a run. It does not say what is dropped. -/
def FileTransfer.KeepsLossy (s : FileTransfer) (a : TransferAction × Bool) : Prop := s.Keeps a.1

instance (s : FileTransfer) (a : TransferAction × Bool) : Decidable (s.KeepsLossy a) :=
  inferInstanceAs (Decidable (s.Keeps a.1))

/-! ### A pass of the read thread -/

inductive ReadMove (sock : GbnSocket) (d : Datagram) : GbnSocket → List Datagram → Prop
  | ended (hclosed : sock.readStatus = .closed) : ReadMove sock d { sock with reading := false } []
  | ack (htype : d.type = .ack) : ReadMove sock d
      { sock with sendingWindow := sock.sendingWindow.acknowledge d.seqNumber } []
  | data (htype : d.type = .data) : ReadMove sock d (sock.receiveData d).1 (sock.receiveData d).2
  | ackEof (htype : d.type = .ackEof) : ReadMove sock d { sock with reading := false } []
  | eof (htype : d.type = .eof) : ReadMove sock d sock.receiveEof.1 sock.receiveEof.2
  | skip : ReadMove sock d sock []

theorem readMove (sock : GbnSocket) (d : Datagram) :
    ReadMove sock d (sock.readThread d).1 (sock.readThread d).2 := by
  rw [GbnSocket.readThread]
  split
  case isTrue hend => exact .ended hend.1
  case isFalse =>
    cases htype : d.type with
    | ack => exact .ack htype
    | data => exact .data htype
    | ackEof => exact .ackEof htype
    | eof => exact .eof htype
    | uninitialized => exact .skip
    | other => exact .skip

/-- What a pass of a read thread leaves alone, and when the thread ends or answers an EOF. -/
structure Answers (sock next : GbnSocket) (d : Datagram) (out : List Datagram) : Prop where
  same : next.seqNumber = sock.seqNumber ∧ next.writer = sock.writer ∧ next.status = sock.status ∧
    next.sendingBuffer.popped = sock.sendingBuffer.popped
  buffer : sock.sendingBuffer.pushed.length ≤ next.sendingBuffer.pushed.length
  reading : next.reading = false → sock.reading = false ∨ sock.readStatus = .closed ∨
    d.type = .ackEof ∨ d.type = .eof
  status : next.readStatus = .closed → sock.readStatus = .closed ∨ d.type = .eof
  mono : sock.readStatus = .closed → next.readStatus = .closed
  eof : d.type = .eof → next.reading = false → next.readStatus = .closed ∨ sock.reading = false
  ackEof : ∀ p ∈ out, p.type = .ackEof → d.type = .eof ∧ next.readStatus = .closed
  noEof : ∀ p ∈ out, p.type ≠ .eof

theorem answers_of_move {sock next : GbnSocket} {d : Datagram} {out : List Datagram}
    (hmove : ReadMove sock d next out) : Answers sock next d out := by
  cases hmove with
  | ended hclosed =>
      exact ⟨⟨rfl, rfl, rfl, rfl⟩, le_rfl, fun _ => Or.inr (Or.inl hclosed), Or.inl, id,
        fun _ _ => Or.inl hclosed, by simp, by simp⟩
  | ack htype =>
      exact ⟨⟨rfl, rfl, rfl, rfl⟩, le_rfl, Or.inl, Or.inl, id, fun _ => Or.inr, by simp, by simp⟩
  | data htype =>
      refine ⟨⟨rfl, rfl, rfl, rfl⟩, le_rfl, Or.inl, Or.inl, id, fun _ => Or.inr, fun p hp hack => ?_,
        fun p hp => ?_⟩
      · rw [List.mem_singleton.1 hp] at hack
        cases hack
      · rw [List.mem_singleton.1 hp]
        simp
  | ackEof htype =>
      refine ⟨⟨rfl, rfl, rfl, rfl⟩, le_rfl, fun _ => Or.inr (Or.inr (Or.inl htype)), Or.inl, id,
        fun heof => ?_, by simp, by simp⟩
      rw [htype] at heof
      cases heof
  | eof htype =>
      refine ⟨⟨rfl, rfl, rfl, rfl⟩, ?_, fun _ => Or.inr (Or.inr (Or.inr htype)), fun _ => Or.inr htype,
        fun _ => rfl, fun _ _ => Or.inl rfl, fun _ _ _ => ⟨htype, rfl⟩, by simp [GbnSocket.receiveEof]⟩
      rw [GbnSocket.receiveEof, BlockQueue.pushChunk, List.length_append]
      exact Nat.le_add_right _ _
  | skip => exact ⟨⟨rfl, rfl, rfl, rfl⟩, le_rfl, Or.inl, Or.inl, id, fun _ => Or.inr, by simp, by simp⟩

/-! ### What the states of the write thread know -/

section Writer

variable {sock next : GbnSocket} {timedOut : Bool} {junk : Junk} {out : List Datagram}

/-- `send_packet` finds a block in the sending buffer. -/
theorem front_of_step (h : sock.writerStep timedOut junk = some (next, out))
    (hnext : next.writer = .sendPacket) :
    next.sendingBuffer.popped < next.sendingBuffer.pushed.length := by
  have hfrom : sock.writer = .blockOnQueue ∨ sock.writer = .isWinFullQ := by
    cases writerMove_of_step h with
    | @idle state hidle =>
        obtain rfl : state = .sendPacket := hnext
        generalize sock.writer = old at hidle ⊢
        cases hidle with
        | block => exact Or.inl rfl
        | room => exact Or.inr rfl
    | resend =>
        simp only [GbnSocket.retransmitSlot] at hnext
        split at hnext <;> cases hnext
    | _ => cases hnext
  rw [GbnSocket.writerStep] at h
  rcases hfrom with hwriter | hwriter
  · simp only [hwriter] at h
    obtain ⟨block, hpeek, heq⟩ := Option.map_eq_some_iff.1 h
    obtain ⟨rfl, -⟩ := Prod.mk.inj heq
    exact BlockQueue.peekChunk_lt hpeek
  · simp only [hwriter] at h
    split at h <;> obtain ⟨rfl, -⟩ := Prod.mk.inj (Option.some.inj h)
    case isTrue hroom => simpa [BlockQueue.isEmpty] using hroom.2
    case isFalse => cases hnext

theorem idle_of_move (h : WriterMove sock junk next out) (hnext : next.writer = .blockOnQueue) :
    next.sendingWindow.size = 0 := by
  cases h with
  | @idle state hidle =>
      obtain rfl : state = .blockOnQueue := hnext
      generalize sock.writer = old at hidle
      cases hidle with
      | empty hsize => exact hsize
  | resend =>
      simp only [GbnSocket.retransmitSlot] at hnext
      split at hnext <;> cases hnext
  | _ => cases hnext

/-- `is_win_full_q` turns to waiting only when the window is full or nothing is queued. -/
theorem full_of_step (h : sock.writerStep timedOut junk = some (next, out))
    (hwriter : sock.writer = .isWinFullQ) (hnext : next.writer = .waitOnRead) :
    ¬ (sock.sendingWindow.size < 6 ∧ ¬ sock.sendingBuffer.isEmpty) := by
  intro hroom
  rw [GbnSocket.writerStep] at h
  simp only [hwriter, if_pos hroom] at h
  obtain ⟨rfl, -⟩ := Prod.mk.inj (Option.some.inj h)
  cases hnext

theorem reading_of_move (h : WriterMove sock junk next out) :
    next.reading = sock.reading ∧ next.readStatus = sock.readStatus := by
  cases h <;> exact ⟨rfl, rfl⟩

end Writer

namespace Protocol

section Invariant

variable {s next : Protocol} {a : Action}

/-- The network only grows. -/
theorem subset_of_step (hstep : s.step a = some next) :
    s.toReceiver ⊆ next.toReceiver ∧ s.toSender ⊆ next.toSender := by
  cases a with
  | write bytes =>
      obtain ⟨-, rfl⟩ : s.closed = false ∧ _ = next := by simpa [Protocol.step] using hstep
      exact ⟨List.Subset.refl _, List.Subset.refl _⟩
  | close =>
      obtain ⟨-, rfl⟩ : s.closed = false ∧ _ = next := by simpa [Protocol.step] using hstep
      exact ⟨List.Subset.refl _, List.Subset.refl _⟩
  | senderWriter timedOut junk =>
      obtain ⟨-, -, rfl⟩ := Option.map_eq_some_iff.1 hstep
      exact ⟨List.subset_append_left _ _, List.Subset.refl _⟩
  | senderRead d =>
      obtain ⟨-, rfl⟩ : _ ∧ _ = next := by
        simpa only [Protocol.step, Option.ite_none_right_eq_some, Option.some.injEq] using hstep
      exact ⟨List.subset_append_left _ _, List.Subset.refl _⟩
  | receiverWriter timedOut junk =>
      obtain ⟨-, -, rfl⟩ := Option.map_eq_some_iff.1 hstep
      exact ⟨List.Subset.refl _, List.subset_append_left _ _⟩
  | receiverRead d =>
      obtain ⟨-, rfl⟩ : _ ∧ _ = next := by
        simpa only [Protocol.step, Option.ite_none_right_eq_some, Option.some.injEq] using hstep
      exact ⟨List.Subset.refl _, List.subset_append_left _ _⟩

/-- What is dropped leaves the joint invariant as it is. -/
theorem CloseInv.dropped (h : s.CloseInv) (hsound : s.Sound a) (hdrained : s.Drained a)
    (hbound : s.queued.length < 2 ^ 32) (hstep : s.step a = some next) :
    (s.dropped next).CloseInv := by
  have hnext := h.step hsound hdrained hbound hstep
  have hinv : (s.dropped next).Inv := by
    rcases h.inv.step_cases hsound hbound hstep with
      ⟨sock, queued, closed, out, hsender, rfl⟩ | ⟨sock, out, hreceiver, rfl⟩
    · have hsilent : SenderStep s.sender sock queued closed [] s.receiver.receiveWindow.recvCounter.toNat :=
        ⟨hsender.inv, hsender.mono, hsender.low, by simp, by simp, by simp, hsender.stopped⟩
      have hnext := h.inv.senderStep hsilent
      rwa [List.append_nil] at hnext
    · have hsilent : ReceiverStep s.receiver sock s.toReceiver [] :=
        ⟨hreceiver.inv, hreceiver.mono, by simp, by simp, by simp, hreceiver.closed⟩
      have hnext := h.inv.receiverStep hsilent
      rwa [List.append_nil] at hnext
  exact ⟨hinv, fun d hd => hnext.carries d ((subset_of_step hstep).1 hd), hnext.closing⟩

theorem readThread_size (h : s.Inv) {d : Datagram} (hsound : s.Sound (.senderRead d))
    (hbound : s.queued.length < 2 ^ 32) (hd : d ∈ s.toSender) :
    (s.sender.readThread d).1.sendingWindow.size.toNat ≤ s.sender.sendingWindow.size.toNat := by
  have hsent := h.sender.sent
  rw [GbnSocket.readThread]
  split
  · exact le_rfl
  · cases htype : d.type with
    | ack => exact (h.sender.window.acknowledge (h.acks d hd htype) h.counter_le (by omega) h.low
        (hsound htype)).2.2
    | _ => exact le_rfl

/-- What the threads wait for: a read thread that has ended has done so for an EOF, behind the last block
is the marker that the sender closes with, and the write thread has a block to send or an empty window. -/
structure Live (s : Protocol) : Prop where
  close : s.CloseInv
  opened : s.sender.status = .opened
  marked : s.closed = true → s.queued.length < s.sender.sendingBuffer.pushed.length
  front : s.sender.writer = .sendPacket →
    s.sender.sendingBuffer.popped < s.sender.sendingBuffer.pushed.length
  idle : s.sender.writer = .blockOnQueue → s.sender.sendingWindow.size = 0
  receiving : s.receiver.reading = false → s.receiver.readStatus = .closed
  sending : s.sender.reading = false ∨ s.sender.readStatus = .closed → s.sender.writer = .stopped
  ackEof : ∀ d ∈ s.toReceiver, d.type = .ackEof → s.receiver.readStatus = .closed
  ackEofBack : ∀ d ∈ s.toSender, d.type = .ackEof → s.sender.writer = .stopped

theorem live_initial : initial.Live where
  close := closeInv_initial
  opened := rfl
  marked := nofun
  front := nofun
  idle := nofun
  receiving := nofun
  sending h := by rcases h with h | h <;> cases h
  ackEof := by simp [initial]
  ackEofBack := by simp [initial]

theorem Live.stopped (h : s.Live) (hclosed : s.receiver.readStatus = .closed) :
    s.sender.writer = .stopped := by
  obtain ⟨-, d, hd, heof⟩ := h.close.inv.receiver.ended hclosed
  exact h.close.inv.eof d hd heof

/-- What a step of the write thread leaves alone, and that it sends no answer to an EOF. -/
structure Emits (sock next : GbnSocket) (out : List Datagram) : Prop where
  running : sock.writer ≠ .stopped
  same : next.reading = sock.reading ∧ next.readStatus = sock.readStatus ∧ next.status = sock.status
  noAckEof : ∀ d ∈ out, d.type ≠ .ackEof

theorem Inv.emits (h : s.Inv) {junk : Junk} {sock : GbnSocket} {out : List Datagram}
    (hmove : WriterMove s.sender junk sock out) : Emits s.sender sock out := by
  cases hmove with
  | idle hidle => exact ⟨fun heq => hidle.not_closing.1 (Or.inr heq), ⟨rfl, rfl, rfl⟩, by simp⟩
  | closing hwriter => exact ⟨by simp [hwriter], ⟨rfl, rfl, rfl⟩, by simp⟩
  | send hwriter =>
      refine ⟨by simp [hwriter], ⟨rfl, rfl, rfl⟩, fun d hd => ?_⟩
      rw [List.mem_singleton.1 hd]
      simp [GbnSocket.serialize]
  | @resend i hwriter =>
      have hfits := h.sender.writer
      rw [WriterFits, hwriter] at hfits
      obtain ⟨left, hvisits⟩ := hfits
      refine ⟨by simp [hwriter], ⟨rfl, rfl, rfl⟩, fun d hd => ?_⟩
      rw [List.mem_singleton.1 hd, GbnSocket.serialize, hvisits.first]
      simp [sentPacket]
  | eof hwriter =>
      refine ⟨by simp [hwriter], ⟨rfl, rfl, rfl⟩, fun d hd => ?_⟩
      rw [List.mem_singleton.1 hd]
      simp [GbnSocket.eofDatagram]

theorem Live.senderWriter (h : s.Live) {timedOut : Bool} {junk : Junk}
    (hstep : s.step (.senderWriter timedOut junk) = some next) (hclose : next.CloseInv) : next.Live := by
  obtain ⟨⟨sock, out⟩, hwriter, rfl⟩ := Option.map_eq_some_iff.1 hstep
  have hmove := writerMove_of_step hwriter
  obtain ⟨hrunning, ⟨hreading, hstatus, hopen⟩, hnoAckEof⟩ := h.close.inv.emits hmove
  refine ⟨hclose, hopen.trans h.opened, fun hclosed => ?_, front_of_step hwriter, idle_of_move hmove,
    h.receiving, fun hend => ?_, fun d hd => ?_,
    fun d hd hack => absurd (h.ackEofBack d hd hack) hrunning⟩
  · rw [pushed_of_move hmove]
    exact h.marked hclosed
  · rw [hreading, hstatus] at hend
    exact absurd (h.sending hend) hrunning
  · rcases List.mem_append.1 hd with hd | hd
    · exact h.ackEof d hd
    · exact fun hack => absurd hack (hnoAckEof d hd)

theorem Live.senderRead (h : s.Live) {d : Datagram} (hsound : s.Sound (.senderRead d))
    (hbound : s.queued.length < 2 ^ 32) (hstep : s.step (.senderRead d) = some next)
    (hclose : next.CloseInv) : next.Live := by
  obtain ⟨⟨hd, -⟩, rfl⟩ : (d ∈ s.toSender ∧ s.sender.reading = true) ∧ _ = next := by
    simpa only [Protocol.step, Option.ite_none_right_eq_some, Option.some.injEq] using hstep
  have hanswers := answers_of_move (readMove s.sender d)
  obtain ⟨-, hwriter, hopen, hpopped⟩ := hanswers.same
  have hstopped : d.type = .eof → s.sender.writer = .stopped := fun heof =>
    h.stopped (h.close.inv.eofBack d hd heof)
  refine ⟨hclose, hopen.trans h.opened, fun hclosed => (h.marked hclosed).trans_le hanswers.buffer,
    fun hsends => ?_, fun hblocks => ?_, h.receiving, fun hend => ?_, fun p hp hack => ?_,
    fun p hp hack => ?_⟩
  · exact (hpopped ▸ h.front (hwriter ▸ hsends)).trans_le hanswers.buffer
  · have hle := readThread_size h.close.inv hsound hbound hd
    rw [h.idle (hwriter ▸ hblocks)] at hle
    exact UInt8.toNat_inj.1 (Nat.le_zero.1 hle)
  · refine hwriter.trans ?_
    rcases hend with hreading | hstatus
    · rcases hanswers.reading hreading with hold | hold | hack | heof
      · exact h.sending (Or.inl hold)
      · exact h.sending (Or.inr hold)
      · exact h.ackEofBack d hd hack
      · exact hstopped heof
    · rcases hanswers.status hstatus with hold | heof
      · exact h.sending (Or.inr hold)
      · exact hstopped heof
  · rcases List.mem_append.1 hp with hp | hp
    · exact h.ackEof p hp hack
    · exact h.close.inv.eofBack d hd (hanswers.ackEof p hp hack).1
  · exact hwriter.trans (h.ackEofBack p hp hack)

theorem Live.receiverWriter (h : s.Live) {timedOut : Bool} {junk : Junk}
    (hstep : s.step (.receiverWriter timedOut junk) = some next) (hclose : next.CloseInv) :
    next.Live := by
  obtain ⟨⟨sock, out⟩, hwriter, rfl⟩ := Option.map_eq_some_iff.1 hstep
  have hmove := writerMove_of_step hwriter
  obtain ⟨hreading, hstatus⟩ := reading_of_move hmove
  have hnoAckEof : ∀ d ∈ out, d.type ≠ .ackEof := by
    cases hmove with
    | idle => simp
    | closing => simp
    | send hw hpeek hopen =>
        exact absurd (h.close.inv.receiver.marks _ (List.mem_of_getElem? hpeek)) hopen
    | @resend i hw => exact absurd hw (h.close.inv.receiver.writer i)
    | eof => simp [GbnSocket.eofDatagram]
  refine ⟨hclose, h.opened, h.marked, h.front, h.idle, fun hend => ?_, h.sending, fun d hd hack => ?_,
    fun d hd hack => ?_⟩
  · exact hstatus.trans (h.receiving (hreading ▸ hend))
  · exact hstatus.trans (h.ackEof d hd hack)
  · rcases List.mem_append.1 hd with hd | hd
    · exact h.ackEofBack d hd hack
    · exact absurd hack (hnoAckEof d hd)

theorem Live.receiverRead (h : s.Live) {d : Datagram} (hstep : s.step (.receiverRead d) = some next)
    (hclose : next.CloseInv) : next.Live := by
  obtain ⟨⟨hd, hreads⟩, rfl⟩ : (d ∈ s.toReceiver ∧ s.receiver.reading = true) ∧ _ = next := by
    simpa only [Protocol.step, Option.ite_none_right_eq_some, Option.some.injEq] using hstep
  have hanswers := answers_of_move (readMove s.receiver d)
  refine ⟨hclose, h.opened, h.marked, h.front, h.idle, fun hend => ?_, h.sending, fun p hp hack => ?_,
    fun p hp hack => ?_⟩
  · rcases hanswers.reading hend with hold | hold | hack | heof
    · exact absurd hold (by simp [hreads])
    · exact hanswers.mono hold
    · exact hanswers.mono (h.ackEof d hd hack)
    · exact (hanswers.eof heof hend).resolve_right (by simp [hreads])
  · exact hanswers.mono (h.ackEof p hp hack)
  · rcases List.mem_append.1 hp with hp | hp
    · exact h.ackEofBack p hp hack
    · exact h.close.inv.eof d hd (hanswers.ackEof p hp hack).1

structure Calls (sock next : GbnSocket) : Prop where
  writer : next.writer = sock.writer
  reading : next.reading = sock.reading
  readStatus : next.readStatus = sock.readStatus
  status : next.status = sock.status
  window : next.sendingWindow = sock.sendingWindow
  popped : next.sendingBuffer.popped = sock.sendingBuffer.popped
  pushed : sock.sendingBuffer.pushed.length ≤ next.sendingBuffer.pushed.length

theorem calls_write (sock : GbnSocket) (bytes : Bytes) : Calls sock (sock.write bytes) := by
  rw [GbnSocket.write]
  generalize GbnSocket.writeBlocks bytes = blocks
  induction blocks generalizing sock with
  | nil => exact ⟨rfl, rfl, rfl, rfl, rfl, rfl, le_rfl⟩
  | cons block blocks ih =>
      obtain ⟨hwriter, hreading, hstatus, hopen, hwindow, hpopped, hpushed⟩ := ih (sock.pushBlock block)
      refine ⟨hwriter, hreading, hstatus, hopen, hwindow, hpopped, le_trans ?_ hpushed⟩
      rw [GbnSocket.pushBlock, BlockQueue.pushChunk, List.length_append]
      exact Nat.le_add_right _ _

theorem calls_close (sock : GbnSocket) : Calls sock sock.close := by
  rw [GbnSocket.close]
  cases hstatus : sock.status with
  | opened => exact ⟨rfl, rfl, rfl, hstatus.symm, rfl, rfl, by simp [BlockQueue.pushChunk]⟩
  | closed => exact ⟨rfl, rfl, rfl, rfl, rfl, rfl, le_rfl⟩

theorem Live.calls (h : s.Live) {sock : GbnSocket} {queued : List Bytes} {closed : Bool}
    (hcalls : Calls s.sender sock)
    (hmarked : closed = true → queued.length < sock.sendingBuffer.pushed.length)
    (hclose : CloseInv { s with sender := sock, queued := queued, closed := closed }) :
    Live { s with sender := sock, queued := queued, closed := closed } where
  close := hclose
  opened := hcalls.status.trans h.opened
  marked := hmarked
  front hsends := (hcalls.popped ▸ h.front (hcalls.writer ▸ hsends)).trans_le hcalls.pushed
  idle hblocks := by
    rw [hcalls.window]
    exact h.idle (hcalls.writer ▸ hblocks)
  receiving := h.receiving
  sending hend := hcalls.writer.trans (h.sending (by rwa [← hcalls.reading, ← hcalls.readStatus]))
  ackEof := h.ackEof
  ackEofBack d hd hack := hcalls.writer.trans (h.ackEofBack d hd hack)

theorem Live.step (h : s.Live) (hsound : s.Sound a) (hdrained : s.Drained a)
    (hbound : s.queued.length < 2 ^ 32) (hstep : s.step a = some next) : next.Live := by
  have hclose := h.close.step hsound hdrained hbound hstep
  cases a with
  | write bytes =>
      obtain ⟨hopen, rfl⟩ : s.closed = false ∧ _ = next := by simpa [Protocol.step] using hstep
      refine h.calls (calls_write s.sender bytes) (fun hclosed => ?_) hclose
      rw [hopen] at hclosed
      cases hclosed
  | close =>
      obtain ⟨hopen, rfl⟩ : s.closed = false ∧ _ = next := by simpa [Protocol.step] using hstep
      refine h.calls (calls_close s.sender) (fun _ => ?_) hclose
      rw [GbnSocket.close, h.opened]
      simp only [BlockQueue.pushChunk, List.length_append, List.length_singleton,
        h.close.inv.sender.queue.opened hopen]
      exact Nat.lt_succ_self _
  | senderWriter timedOut junk => exact h.senderWriter hstep hclose
  | senderRead d => exact h.senderRead hsound hbound hstep hclose
  | receiverWriter timedOut junk => exact h.receiverWriter hstep hclose
  | receiverRead d => exact h.receiverRead hstep hclose

theorem Live.dropped (h : s.Live) (hsound : s.Sound a) (hdrained : s.Drained a)
    (hbound : s.queued.length < 2 ^ 32) (hstep : s.step a = some next) : (s.dropped next).Live := by
  have hnext := h.step hsound hdrained hbound hstep
  obtain ⟨hto, hback⟩ := subset_of_step hstep
  exact ⟨h.close.dropped hsound hdrained hbound hstep, hnext.opened, hnext.marked, hnext.front, hnext.idle,
    hnext.receiving, hnext.sending, fun d hd => hnext.ackEof d (hto hd),
    fun d hd => hnext.ackEofBack d (hback hd)⟩

/-! ### What is lost for good -/

/-- All packets below the receiver's counter have arrived. -/
theorem Inv.onWay (h : s.Inv) {n : Nat} (hn : n < s.receiver.receiveWindow.recvCounter.toNat) :
    s.OnWay n := by
  obtain ⟨blocks, -, hlength, hblocks⟩ := h.receiver.pushed
  obtain ⟨d, ⟨hdata, hseq, hd⟩, -⟩ := hblocks n _ (List.getElem?_eq_getElem (by omega))
  exact ⟨d, hd, hdata, hseq.trans (Nat.zero_add n)⟩

/-- The write thread has come to its last packets and does not wait any more, and one of them has been
lost. -/
structure Forsaken (s : Protocol) : Prop where
  closed : s.closed = true
  sends : s.sender.writer.Sends
  few : s.queued.length < s.low + 6
  lost : ∃ n < s.sender.seqNumber.toNat, ¬ s.OnWay n

theorem Forsaken.size (h : s.Forsaken) (hlive : s.Live) : s.sender.sendingWindow.size ≠ 0 := by
  obtain ⟨n, hn, hlost⟩ := h.lost
  have hlow := hlive.close.inv.low
  have hcount : s.receiver.receiveWindow.recvCounter.toNat ≤ n :=
    not_lt.1 fun hlt => hlost (hlive.close.inv.onWay hlt)
  intro hsize
  rw [hsize] at hlow
  change _ - 0 ≤ _ at hlow
  omega

theorem Forsaken.senderWriter (h : s.Forsaken) (hlive : s.Live) {timedOut : Bool} {junk : Junk}
    (hdrained : s.Drained (.senderWriter timedOut junk)) (hbound : s.queued.length < 2 ^ 32)
    (hstep : s.step (.senderWriter timedOut junk) = some next) : next.Forsaken := by
  obtain ⟨⟨sock, out⟩, hwriter, rfl⟩ := Option.map_eq_some_iff.1 hstep
  have hsize := h.size hlive
  have hsends := h.sends
  have hsent := hlive.close.inv.sender.sent
  have hwindow := hlive.close.inv.sender.window.size_le
  have hfew := h.few
  rw [low] at hfew
  have hlost : ∃ n < s.sender.seqNumber.toNat, ¬ OnWay { s with toReceiver := s.toReceiver ++ [] } n := by
    rw [List.append_nil]
    exact h.lost
  have hdrained : s.WriterDrained junk s.sender.writer := hdrained
  cases writerMove_of_step hwriter with
  | @idle state hidle =>
      generalize hold : s.sender.writer = old at hidle hsends
      cases hidle with
      | empty hzero => exact absurd hzero hsize
      | nonempty => exact ⟨h.closed, trivial, h.few, hlost⟩
      | block => exact absurd (hlive.idle hold) hsize
      | room => exact ⟨h.closed, trivial, h.few, hlost⟩
      | full =>
          -- the window is not full, and the marker is still in the buffer
          have hpopped := hlive.close.inv.sender.popped (by rw [GbnSocket.Closing, hold]; simp)
          have hmarked := hlive.marked h.closed
          refine absurd ⟨UInt8.lt_iff_toNat_lt.2 ?_, ?_⟩ (full_of_step hwriter hold rfl)
          · change _ < 6
            omega
          · rw [BlockQueue.isEmpty, decide_eq_true_eq]
            omega
      | _ => exact absurd hsends id
  | closing hold hpeek hclosing =>
      rw [hold] at hdrained
      exact absurd (hdrained _ hpeek hclosing) hsize
  | @send block hold hpeek hopen =>
      have hlt := (hlive.close.inv.sender.front hold hpeek hopen).2.1
      have hroom : s.sender.sendingWindow.size.toNat < 6 := by
        have hfits := hlive.close.inv.sender.writer
        rwa [WriterFits, hold] at hfits
      have hseq : (s.sender.seqNumber + 1).toNat = s.sender.seqNumber.toNat + 1 := by
        rw [UInt32.toNat_add]
        exact Nat.mod_eq_of_lt (by change _ + 1 < 2 ^ 32; omega)
      have hsize' : (s.sender.sendingWindow.size + 1).toNat = s.sender.sendingWindow.size.toNat + 1 := by
        rw [UInt8.toNat_add]
        exact Nat.mod_eq_of_lt (by change _ + 1 < 256; omega)
      refine ⟨h.closed, trivial, ?_, ?_⟩
      · change s.queued.length < (s.sender.seqNumber + 1).toNat - (s.sender.sendingWindow.size + 1).toNat + 6
        omega
      · obtain ⟨n, hn, hlost⟩ := h.lost
        refine ⟨n, ?_, ?_⟩
        · change n < (s.sender.seqNumber + 1).toNat
          omega
        · rintro ⟨d, hd, hdata, hnumber⟩
          rcases List.mem_append.1 hd with hd | hd
          · exact hlost ⟨d, hd, hdata, hnumber⟩
          · rw [List.mem_singleton.1 hd] at hnumber
            exact hn.ne' hnumber
  | resend hold =>
      rw [hold] at hsends
      exact absurd hsends id
  | eof hold =>
      rw [hold] at hsends
      exact absurd hsends id

theorem Forsaken.step (h : s.Forsaken) (hlive : s.Live) (hsound : s.Sound a) (hdrained : s.Drained a)
    (hbound : s.queued.length < 2 ^ 32) (hstep : s.step a = some next) : next.Forsaken := by
  cases a with
  | write => exact absurd h.closed (by simp only [Protocol.step, Option.ite_none_left_eq_some] at hstep; exact hstep.1)
  | close => exact absurd h.closed (by simp only [Protocol.step, Option.ite_none_left_eq_some] at hstep; exact hstep.1)
  | senderWriter timedOut junk => exact h.senderWriter hlive hdrained hbound hstep
  | senderRead d =>
      obtain ⟨⟨hd, -⟩, rfl⟩ : (d ∈ s.toSender ∧ s.sender.reading = true) ∧ _ = next := by
        simpa only [Protocol.step, Option.ite_none_right_eq_some, Option.some.injEq] using hstep
      obtain ⟨hseq, hwriter, -⟩ := (answers_of_move (readMove s.sender d)).same
      have hle := readThread_size hlive.close.inv hsound hbound hd
      have hfew := h.few
      obtain ⟨n, hn, hlost⟩ := h.lost
      refine ⟨h.closed, ?_, ?_, n, ?_, ?_⟩
      · rw [hwriter]
        exact h.sends
      · rw [low] at hfew
        change s.queued.length < (s.sender.readThread d).1.seqNumber.toNat -
          (s.sender.readThread d).1.sendingWindow.size.toNat + 6
        rw [hseq]
        omega
      · rw [hseq]
        exact hn
      · rintro ⟨p, hp, hdata, hnumber⟩
        rcases List.mem_append.1 hp with hp | hp
        · exact hlost ⟨p, hp, hdata, hnumber⟩
        · exact readThread_noData _ d p hp hdata
  | receiverWriter timedOut junk =>
      obtain ⟨-, -, rfl⟩ := Option.map_eq_some_iff.1 hstep
      exact ⟨h.closed, h.sends, h.few, h.lost⟩
  | receiverRead d =>
      obtain ⟨-, rfl⟩ : (d ∈ s.toReceiver ∧ s.receiver.reading = true) ∧ _ = next := by
        simpa only [Protocol.step, Option.ite_none_right_eq_some, Option.some.injEq] using hstep
      exact ⟨h.closed, h.sends, h.few, h.lost⟩

/-- The write thread has ended, and its EOF has been lost. -/
structure Stranded (s : Protocol) : Prop where
  ended : s.sender.writer = .stopped
  opened : s.receiver.readStatus = .opened
  lost : ∀ d ∈ s.toReceiver, d.type ≠ .eof

theorem Stranded.step (h : s.Stranded) (hlive : s.Live) (hstep : s.step a = some next) : next.Stranded := by
  have hclosed := hlive.close.inv.sender.closing (Or.inr h.ended)
  cases a with
  | write => exact absurd hclosed (by simp only [Protocol.step, Option.ite_none_left_eq_some] at hstep; exact hstep.1)
  | close => exact absurd hclosed (by simp only [Protocol.step, Option.ite_none_left_eq_some] at hstep; exact hstep.1)
  | senderWriter timedOut junk =>
      obtain ⟨_, hwriter, -⟩ := Option.map_eq_some_iff.1 hstep
      rw [GbnSocket.writerStep, h.ended] at hwriter
      cases hwriter
  | senderRead d =>
      obtain ⟨-, rfl⟩ : (d ∈ s.toSender ∧ s.sender.reading = true) ∧ _ = next := by
        simpa only [Protocol.step, Option.ite_none_right_eq_some, Option.some.injEq] using hstep
      have hanswers := answers_of_move (readMove s.sender d)
      exact ⟨hanswers.same.2.1.trans h.ended, h.opened, fun p hp =>
        (List.mem_append.1 hp).elim (h.lost p) (hanswers.noEof p)⟩
  | receiverWriter timedOut junk =>
      obtain ⟨_, hwriter, rfl⟩ := Option.map_eq_some_iff.1 hstep
      exact ⟨h.ended, (reading_of_move (writerMove_of_step hwriter)).2.trans h.opened, h.lost⟩
  | receiverRead d =>
      obtain ⟨⟨hd, -⟩, rfl⟩ : (d ∈ s.toReceiver ∧ s.receiver.reading = true) ∧ _ = next := by
        simpa only [Protocol.step, Option.ite_none_right_eq_some, Option.some.injEq] using hstep
      have hanswers := answers_of_move (readMove s.receiver d)
      refine ⟨h.ended, ?_, h.lost⟩
      cases hstatus : (s.receiver.readThread d).1.readStatus with
      | opened => rfl
      | closed =>
          rcases hanswers.status hstatus with hold | heof
          · exact absurd (h.opened.symm.trans hold) (by simp)
          · exact absurd heof (h.lost d hd)

theorem Live.not_recovers (h : s.Live) : ¬ s.Recovers ↔ s.Forsaken ∨ s.Stranded := by
  constructor
  · intro hnot
    rw [Recovers, Classical.not_imp, not_and_or] at hnot
    obtain ⟨hclosed, hnot | hnot⟩ := hnot
    · rw [Classical.not_imp, not_or, WindowOnWay] at hnot
      obtain ⟨hsends, hnot, hfew⟩ := hnot
      obtain ⟨n, hnot⟩ := Classical.not_forall.1 hnot
      rw [Classical.not_imp, Classical.not_imp] at hnot
      obtain ⟨hn, -, hlost⟩ := hnot
      exact Or.inl ⟨hclosed, hsends, not_le.1 hfew, n, hn, hlost⟩
    · rw [Classical.not_imp, not_or] at hnot
      obtain ⟨hended, hstatus, hlost⟩ := hnot
      refine Or.inr ⟨hended, ?_, fun d hd heof => hlost ⟨d, hd, heof⟩⟩
      cases hread : s.receiver.readStatus with
      | opened => rfl
      | closed => exact absurd hread hstatus
  · rintro (hforsaken | hstranded) hrecovers
    · obtain ⟨n, hn, hlost⟩ := hforsaken.lost
      have hcount : s.receiver.receiveWindow.recvCounter.toNat ≤ n :=
        not_lt.1 fun hlt => hlost (h.close.inv.onWay hlt)
      rcases (hrecovers hforsaken.closed).1 hforsaken.sends with hway | hmany
      · exact hlost (hway n hn (h.close.inv.low.trans hcount))
      · exact absurd hforsaken.few (not_lt.2 hmany)
    · rcases (hrecovers (h.close.inv.sender.closing (Or.inr hstranded.ended))).2 hstranded.ended with
        hclosed | ⟨d, hd, heof⟩
      · exact absurd (hstranded.opened.symm.trans hclosed) (by simp)
      · exact hstranded.lost d hd heof

/-- What is lost for good stays lost, whether the step's datagrams are dropped or not. -/
theorem Live.not_recovers_step (h : s.Live) (hlost : ¬ s.Recovers) (hsound : s.Sound a)
    (hdrained : s.Drained a) (hbound : s.queued.length < 2 ^ 32) (hstep : s.step a = some next) :
    ¬ next.Recovers ∧ ¬ (s.dropped next).Recovers := by
  have hto := (subset_of_step hstep).1
  rw [(h.step hsound hdrained hbound hstep).not_recovers,
    (h.dropped hsound hdrained hbound hstep).not_recovers]
  rcases h.not_recovers.1 hlost with hforsaken | hstranded
  · have hnext := hforsaken.step h hsound hdrained hbound hstep
    obtain ⟨n, hn, hlost⟩ := hnext.lost
    exact ⟨Or.inl hnext, Or.inl ⟨hnext.closed, hnext.sends, hnext.few, n, hn,
      fun ⟨d, hd, hnumber⟩ => hlost ⟨d, hto hd, hnumber⟩⟩⟩
  · have hnext := hstranded.step h hstep
    exact ⟨Or.inr hnext, Or.inr ⟨hnext.ended, hnext.opened, fun d hd => hnext.lost d (hto hd)⟩⟩

end Invariant

end Protocol

/-! ### Transfers with losses -/

namespace Protocol

theorem CloseInv.readStatus_of_closing {s : Protocol} (h : s.CloseInv)
    (hmarker : ∃ block ∈ s.receiver.receiveBuffer.pushed, block.Closing) :
    s.receiver.readStatus = .closed := by
  cases hstatus : s.receiver.readStatus with
  | closed => rfl
  | opened =>
      obtain ⟨block, hblock, hclosing⟩ := hmarker
      obtain ⟨bytes, -, rfl⟩ := List.mem_map.1 ((h.pushed_prefix hstatus).subset hblock)
      exact absurd (by decide : (0 : UInt8) &&& isClosing = 0) hclosing

theorem readStatus_mono {s next : Protocol} {a : Action} (hstep : s.step a = some next)
    (hclosed : s.receiver.readStatus = .closed) : next.receiver.readStatus = .closed := by
  cases a with
  | write bytes =>
      obtain ⟨-, rfl⟩ : s.closed = false ∧ _ = next := by simpa [Protocol.step] using hstep
      exact hclosed
  | close =>
      obtain ⟨-, rfl⟩ : s.closed = false ∧ _ = next := by simpa [Protocol.step] using hstep
      exact hclosed
  | senderWriter timedOut junk =>
      obtain ⟨-, -, rfl⟩ := Option.map_eq_some_iff.1 hstep
      exact hclosed
  | senderRead d =>
      obtain ⟨-, rfl⟩ : _ ∧ _ = next := by
        simpa only [Protocol.step, Option.ite_none_right_eq_some, Option.some.injEq] using hstep
      exact hclosed
  | receiverWriter timedOut junk =>
      obtain ⟨_, hwriter, rfl⟩ := Option.map_eq_some_iff.1 hstep
      exact (reading_of_move (writerMove_of_step hwriter)).2.trans hclosed
  | receiverRead d =>
      obtain ⟨-, rfl⟩ : _ ∧ _ = next := by
        simpa only [Protocol.step, Option.ite_none_right_eq_some, Option.some.injEq] using hstep
      exact (answers_of_move (readMove s.receiver d)).mono hclosed

theorem Live.onlyReads {s : Protocol} (h : s.Live) {sock : ReadingSocket} {ptr : UInt32}
    (hreads : ReadingSocket.OnlyReads ⟨s.receiver, ptr⟩ sock) :
    Live { s with receiver := sock.toGbnSocket } := by
  have hclose := h.close.onlyReads hreads
  obtain ⟨popped, status, heq⟩ := hreads.same
  rw [heq] at hclose ⊢
  exact ⟨hclose, h.opened, h.marked, h.front, h.idle, h.receiving, h.sending, h.ackEof, h.ackEofBack⟩

end Protocol

namespace FileTransfer

/-- The invariants of a transfer whose datagrams may be lost. The server's socket is closed only when
its read thread has received the EOF. -/
structure Going (file : Bytes) (s : FileTransfer) : Prop where
  inv : s.Inv file
  live : s.protocol.Live
  ended : s.protocol.receiver.status = .closed → s.protocol.receiver.readStatus = .closed

section Going

variable {file : Bytes} {s next : FileTransfer}

theorem going_start (file : Bytes) : (start file).Going file := ⟨inv_start file, Protocol.live_initial, nofun⟩

/-- What a call of the server changes in the protocol. -/
theorem Going.onlyReads (h : s.Going file) (hstep : s.server = some next) :
    ∃ sock : ReadingSocket, s.reader.OnlyReads sock ∧
      next.protocol = { s.protocol with receiver := sock.toGbnSocket } ∧
      (sock.status = .closed → s.protocol.receiver.readStatus = .closed) := by
  obtain ⟨bytes, sock, hread, rfl⟩ := h.inv.server_eq hstep
  exact ⟨sock, ReadingSocket.onlyReads hread, rfl, fun hclosed =>
    (ReadingSocket.closing_of_read hread hclosed).elim h.ended h.live.close.readStatus_of_closing⟩

theorem client_eq (hstep : s.client = some next) :
    ∃ a, s.protocol.Sound a ∧ s.protocol.Drained a ∧ s.protocol.step a = some next.protocol ∧
      next.protocol.receiver = s.protocol.receiver := by
  rw [FileTransfer.client] at hstep
  split at hstep <;> obtain ⟨p, hp, rfl⟩ := Option.map_eq_some_iff.1 hstep
  · refine ⟨.close, trivial, trivial, hp, ?_⟩
    obtain ⟨-, rfl⟩ : s.protocol.closed = false ∧ _ = p := by simpa [Protocol.step] using hp
    rfl
  · refine ⟨.write _, trivial, trivial, hp, ?_⟩
    obtain ⟨-, rfl⟩ : s.protocol.closed = false ∧ _ = p := by simpa [Protocol.step] using hp
    rfl

/-- A step is one of the protocol, or a call of the server. -/
theorem Going.step_cases (h : s.Going file) {a : TransferAction} (hkeeps : s.Keeps a)
    (hstep : s.step a = some next) :
    (∃ b, s.protocol.Sound b ∧ s.protocol.Drained b ∧ s.protocol.step b = some next.protocol ∧
      next.protocol.receiver.status = s.protocol.receiver.status) ∨
    ∃ sock : ReadingSocket, s.reader.OnlyReads sock ∧
      next.protocol = { s.protocol with receiver := sock.toGbnSocket } ∧
      (sock.status = .closed → s.protocol.receiver.readStatus = .closed) := by
  cases a with
  | client =>
      obtain ⟨b, hsound, hdrained, hb, hreceiver⟩ := client_eq hstep
      exact Or.inl ⟨b, hsound, hdrained, hb, by rw [hreceiver]⟩
  | server => exact Or.inr (h.onlyReads hstep)
  | thread b =>
      obtain ⟨hb, hstep⟩ := Option.ite_none_right_eq_some.1 hstep
      obtain ⟨p, hp, rfl⟩ := Option.map_eq_some_iff.1 hstep
      exact Or.inl ⟨b, hkeeps.1, hkeeps.2, hp, (Protocol.leaves_of_thread hb hp).status⟩

/-- A call of the server sends nothing. -/
theorem dropped_of_receiver {sock : GbnSocket} (hp : next.protocol = { s.protocol with receiver := sock }) :
    s.dropped next = next := by
  obtain ⟨p, unread, ptr, output, finished⟩ := next
  obtain rfl : p = _ := hp
  rfl

theorem Inv.with_protocol {p : Protocol} (h : s.Inv file) (hp : p.CloseInv)
    (hqueued : p.queued = s.protocol.queued) (hclosed : p.closed = s.protocol.closed)
    (hreceiver : p.receiver = s.protocol.receiver) : Inv file { s with protocol := p } where
  protocol := hp
  client := by
    rw [hqueued]
    exact h.client
  closed := by
    rw [hclosed]
    exact h.closed
  server := h.server.of_same (by rw [reader, hreceiver]; rfl) (by rw [reader, hreceiver]; rfl) rfl
  finished := by
    rw [hreceiver]
    exact h.finished

theorem Going.step (h : s.Going file) (hfile : (GbnSocket.writeBlocks file).length < 2 ^ 32)
    {a : TransferAction} (hkeeps : s.Keeps a) (hstep : s.step a = some next) :
    next.Going file ∧ (s.dropped next).Going file := by
  have hinv := h.inv.step hfile hkeeps hstep
  have hbound := h.inv.length_queued hfile
  rcases h.step_cases hkeeps hstep with
    ⟨b, hsound, hdrained, hb, hstatus⟩ | ⟨sock, hreads, hp, hended⟩
  · have hlive := h.live.dropped hsound hdrained hbound hb
    have hended : next.protocol.receiver.status = .closed → next.protocol.receiver.readStatus = .closed :=
      fun hclosed => Protocol.readStatus_mono hb (h.ended (hstatus ▸ hclosed))
    exact ⟨⟨hinv, h.live.step hsound hdrained hbound hb, hended⟩,
      hinv.with_protocol hlive.close rfl rfl rfl, hlive, hended⟩
  · have hlive : next.protocol.Live := hp ▸ h.live.onlyReads hreads
    refine (and_iff_left_of_imp fun hgoing => (dropped_of_receiver hp).symm ▸ hgoing).2 ⟨hinv, hlive, fun hclosed => ?_⟩
    obtain ⟨_, _, heq⟩ := hreads.same
    rw [hp] at hclosed ⊢
    have hstill : sock.toGbnSocket.readStatus = s.protocol.receiver.readStatus := by
      rw [heq]
      rfl
    exact hstill.trans (hended hclosed)

theorem Going.lossy (h : s.Going file) (hfile : (GbnSocket.writeBlocks file).length < 2 ^ 32)
    {a : TransferAction × Bool} (hkeeps : s.KeepsLossy a) (hstep : lossyTransfer.step s a = some next) :
    next.Going file := by
  obtain ⟨mid, hmid, rfl⟩ := Option.map_eq_some_iff.1 hstep
  have hnext := h.step hfile hkeeps hmid
  split
  · exact hnext.2
  · exact hnext.1

theorem Going.not_recovers (h : s.Going file) (hfile : (GbnSocket.writeBlocks file).length < 2 ^ 32)
    {a : TransferAction × Bool} (hkeeps : s.KeepsLossy a) (hstep : lossyTransfer.step s a = some next)
    (hlost : ¬ s.protocol.Recovers) : ¬ next.protocol.Recovers := by
  obtain ⟨mid, hmid, rfl⟩ := Option.map_eq_some_iff.1 hstep
  rcases h.step_cases hkeeps hmid with
    ⟨b, hsound, hdrained, hb, -⟩ | ⟨sock, hreads, hp, -⟩
  · have hnext := h.live.not_recovers_step hlost hsound hdrained (h.inv.length_queued hfile) hb
    split
    · exact hnext.2
    · exact hnext.1
  · obtain ⟨_, _, heq⟩ := hreads.same
    rw [dropped_of_receiver hp, ite_self, hp, heq]
    exact hlost

/-- The server comes to its end only behind the EOF, and then nothing is missing. -/
theorem Going.recovers_of_finished (h : s.Going file) (hfinished : s.finished = true) :
    s.protocol.Recovers := fun _ =>
  have hclosed := h.ended (h.inv.finished hfinished)
  ⟨fun hsends => absurd hsends (by rw [h.live.stopped hclosed]; exact id), fun _ => Or.inl hclosed⟩

end Going

end FileTransfer

end NetworkSystems.Gbn
