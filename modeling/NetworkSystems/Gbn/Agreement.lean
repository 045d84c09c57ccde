import NetworkSystems.Gbn.Protocol
import NetworkSystems.Gbn.Sender

/-!
# Agreement of the two windows

The joint invariant of the two parties: the sender's window lies between the numbers that the receiver
has pushed and the numbers that have been sent. Two of the code's tests are too weak to keep it. An
empty sending window takes an acknowledgement by the number its head slot happens to hold, and the
receive window loses packets that wait across a multiple of 256. `Sound` is the condition that a step
meets neither.
-/

namespace NetworkSystems.Gbn

open GbnWindow

/-- The sending window describes exactly the packets that are sent and not acknowledged, and all
packets before them have been pushed by the receiver. -/
structure Protocol.WindowAgrees (s : Protocol) : Prop where
  size : s.sender.sendingWindow.size.toNat ≤ defaultQueueSize
  size_le : s.sender.sendingWindow.size.toNat ≤ s.sender.seqNumber.toNat
  tail : s.sender.sendingWindow.tail.toNat =
    (s.sender.sendingWindow.head.toNat + s.sender.sendingWindow.size.toNat) % defaultQueueSize
  slots : ∀ i < s.sender.sendingWindow.size.toNat,
    (s.sender.sendingWindow.frame i).type = .data ∧
      (s.sender.sendingWindow.frame i).seqNumber.toNat =
        s.sender.seqNumber.toNat - s.sender.sendingWindow.size.toNat + i
  pushed : ∀ n < s.sender.seqNumber.toNat - s.sender.sendingWindow.size.toNat,
    ∃ packet ∈ s.toReceiver, packet.type = .data ∧ packet.seqNumber.toNat = n ∧
      s.receiver.receiveBuffer.pushed[n]? = some packet.toBlock

/-- No acknowledgement is taken by an empty sending window, and no packet is accepted across a multiple
of 256. -/
def Protocol.Sound (s : Protocol) : Action → Prop
  | .senderRead d =>
      d.type = .ack → s.sender.sendingWindow.size = 0 →
        s.sender.sendingWindow.getSendFrameIdDelta d.seqNumber = -2
  | .receiverRead d =>
      d.type = .data → s.receiver.receiveWindow.InReceiveRange d.seqNumber →
        d.seqNumber.toNat / 256 = s.receiver.receiveWindow.recvCounter.toNat / 256
  | _ => True

instance : ∀ (s : Protocol) (a : Action), Decidable (s.Sound a)
  | _, .senderRead _ => inferInstanceAs (Decidable (_ → _))
  | _, .receiverRead _ => inferInstanceAs (Decidable (_ → _))
  | _, .write _ => isTrue trivial
  | _, .close => isTrue trivial
  | _, .senderWriter _ _ => isTrue trivial
  | _, .receiverWriter _ _ => isTrue trivial

/-! ### The receiving side -/

/-- The right packet for a number is a data packet with that number that has been sent. -/
def Arrived (sent : List Datagram) (n : Nat) (packet : Datagram) : Prop :=
  packet.type = .data ∧ packet.seqNumber.toNat = n ∧ packet ∈ sent

theorem Arrived.mono {sent more : List Datagram} {n : Nat} {packet : Datagram}
    (h : Arrived sent n packet) : Arrived (sent ++ more) n packet :=
  ⟨h.1, h.2.1, List.mem_append_left _ h.2.2⟩

/-- The state of a socket that only receives, when `sent` are the datagrams sent to it. -/
structure ReceiverInv (sock : GbnSocket) (sent : List Datagram) : Prop where
  window : Holds (Arrived sent) sock.receiveWindow
  pushed : ∃ blocks, sock.receiveBuffer.pushed =
      blocks ++ (if sock.readStatus = .closed then [GbnSocket.closingMarker] else []) ∧
    blocks.length = sock.receiveWindow.recvCounter.toNat ∧ Delivers (Arrived sent) 0 blocks
  empty : sock.sendingWindow.size = 0
  writer : ∀ i, sock.writer ≠ .retransmitFrom i
  marks : ∀ block ∈ sock.sendingBuffer.pushed, block.Closing
  marked : sock.sendingBuffer.pushed ≠ [] → sock.readStatus = .closed
  closing : sock.Closing → sock.readStatus = .closed
  ended : sock.readStatus = .closed → sock.reading = false ∧ ∃ d ∈ sent, d.type = .eof

theorem receiverInv_initial : ReceiverInv initGbnSocket [] where
  window := holds_zeroed
  pushed := ⟨[], rfl, rfl, delivers_nil⟩
  empty := rfl
  writer _ := by simp [initGbnSocket]
  marks := by simp [initGbnSocket, BlockQueue.empty]
  marked h := absurd rfl h
  closing h := by rcases h with h | h <;> cases h
  ended h := by cases h

theorem ReceiverInv.more {sock : GbnSocket} {sent : List Datagram} (h : ReceiverInv sock sent)
    (more : List Datagram) : ReceiverInv sock (sent ++ more) where
  window := h.window.mono fun _ _ hp => hp.mono
  pushed :=
    let ⟨blocks, hpushed, hlength, hblocks⟩ := h.pushed
    ⟨blocks, hpushed, hlength, hblocks.mono fun _ _ hp => hp.mono⟩
  empty := h.empty
  writer := h.writer
  marks := h.marks
  marked := h.marked
  closing := h.closing
  ended hclosed :=
    let ⟨hreading, d, hd, heof⟩ := h.ended hclosed
    ⟨hreading, d, List.mem_append_left _ hd, heof⟩

theorem ReceiverInv.counter_le {sock : GbnSocket} {sent : List Datagram} (h : ReceiverInv sock sent)
    {n : Nat} (hsent : ∀ d ∈ sent, d.type = .data → d.seqNumber.toNat < n) :
    sock.receiveWindow.recvCounter.toNat ≤ n := by
  obtain ⟨blocks, -, hlength, hblocks⟩ := h.pushed
  by_contra hlt
  have hlast : blocks.length - 1 < blocks.length := by omega
  obtain ⟨packet, ⟨hdata, hseq, hmem⟩, -⟩ :=
    hblocks _ _ (List.getElem?_eq_getElem hlast)
  have := hsent packet hmem hdata
  omega

/-- What a step of a thread of the receiver leaves behind: the invariant, acknowledgements of what has
been pushed, and no data. -/
structure ReceiverStep (sock next : GbnSocket) (sent out : List Datagram) : Prop where
  inv : ReceiverInv next sent
  mono : sock.receiveWindow.recvCounter.toNat ≤ next.receiveWindow.recvCounter.toNat
  noData : ∀ d ∈ out, d.type ≠ .data
  acks : ∀ d ∈ out, d.type = .ack →
    (d.seqNumber + 1).toNat ≤ next.receiveWindow.recvCounter.toNat
  eof : ∀ d ∈ out, d.type = .eof → next.readStatus = .closed
  closed : sock.readStatus = .closed → next.readStatus = .closed

section Steps

variable {sock next : GbnSocket} {sent out : List Datagram} {junk : Junk}

theorem ReceiverInv.writerStep (h : ReceiverInv sock sent) (hmove : WriterMove sock junk next out) :
    ReceiverStep sock next sent out := by
  cases hmove with
  | @idle state hidle =>
      refine ⟨⟨h.window, h.pushed, h.empty, fun i heq => ?_, h.marks, h.marked, fun hclosing => ?_,
        h.ended⟩, le_rfl, by simp, by simp, by simp, id⟩
      · have heq : state = .retransmitFrom i := heq
        subst heq
        generalize sock.writer = old at hidle
        cases hidle with
        | again hsize => exact hsize h.empty
      · rcases hclosing with heq | heq
        · exact absurd heq hidle.not_closing.2.1
        · exact absurd heq hidle.not_closing.2.2
  | @closing block hwriter hpeek hclosing =>
      have hpop := BlockQueue.popChunk_of_peek hpeek
      have hpushed : sock.popped.sendingBuffer.pushed = sock.sendingBuffer.pushed := by
        rw [GbnSocket.popped, hpop]
      refine ⟨⟨h.window, h.pushed, h.empty, fun i => by simp, ?_, ?_, fun _ => h.marked ?_, h.ended⟩,
        le_rfl, by simp, by simp, by simp, id⟩
      · intro b hb
        exact h.marks b (hpushed ▸ hb)
      · intro hne
        exact h.marked fun heq => hne (hpushed.trans heq)
      · exact List.ne_nil_of_mem (List.mem_of_getElem? hpeek)
  | @send block hwriter hpeek hopen =>
      exact absurd (h.marks block (List.mem_of_getElem? hpeek)) hopen
  | @resend i hwriter => exact absurd hwriter (h.writer i)
  | eof hwriter =>
      refine ⟨⟨h.window, h.pushed, h.empty, fun i => by simp, h.marks, h.marked,
        fun _ => h.closing (Or.inl hwriter), h.ended⟩, le_rfl, ?_, ?_, ?_, id⟩
      · intro d hd
        rw [List.mem_singleton.1 hd]
        simp [GbnSocket.eofDatagram]
      · intro d hd hack
        rw [List.mem_singleton.1 hd] at hack
        cases hack
      · exact fun _ _ _ => h.closing (Or.inl hwriter)

theorem ReceiverInv.receiveData (h : ReceiverInv sock sent) {d : Datagram} (hd : d ∈ sent)
    (hdata : d.type = .data) (hopen : sock.readStatus = .opened)
    (hpage : sock.receiveWindow.InReceiveRange d.seqNumber →
      d.seqNumber.toNat / 256 = sock.receiveWindow.recvCounter.toNat / 256) :
    ReceiverStep sock (sock.receiveData d).1 sent (sock.receiveData d).2 := by
  have haccept : Holds _ (sock.receiveWindow.accept d) :=
    h.window.accept (fun _ => ⟨hdata, rfl, hd⟩) hpage
  obtain ⟨hwindow, hcount, hblocks⟩ := haccept.removeFront defaultQueueSize
  have hcounter : (sock.receiveWindow.accept d).recvCounter = sock.receiveWindow.recvCounter := by
    rw [GbnWindow.accept]
    split <;> rfl
  rw [hcounter] at hcount hblocks
  obtain ⟨blocks, hpushed, hlength, hdelivered⟩ := h.pushed
  have hopen' : ¬ sock.readStatus = .closed := by rw [hopen]; simp
  rw [if_neg hopen', List.append_nil] at hpushed
  refine ⟨⟨hwindow, ⟨_, ?_, ?_, hdelivered.append (by simpa only [Nat.zero_add, hlength] using hblocks)⟩,
    h.empty, h.writer, h.marks, h.marked, h.closing, h.ended⟩, ?_, ?_, ?_, ?_, id⟩
  · have hstill : ¬ (sock.receiveData d).1.readStatus = .closed := hopen'
    rw [if_neg hstill, List.append_nil, ← hpushed]
    exact foldl_pushChunk _ _
  · simp only [GbnSocket.receiveData, List.length_append, hlength, hcount]
  · simp only [GbnSocket.receiveData, hcount]
    omega
  · intro p hp
    rw [List.mem_singleton.1 hp]
    simp
  · intro p hp _
    rw [List.mem_singleton.1 hp, UInt32.sub_add_cancel]
    rfl
  · intro p hp heof
    rw [List.mem_singleton.1 hp] at heof
    cases heof

theorem ReceiverInv.readThread (h : ReceiverInv sock sent) {d : Datagram} (hd : d ∈ sent)
    (hreading : sock.reading = true) (hack : d.type ≠ .ack)
    (hpage : d.type = .data → sock.receiveWindow.InReceiveRange d.seqNumber →
      d.seqNumber.toNat / 256 = sock.receiveWindow.recvCounter.toNat / 256) :
    ReceiverStep sock (sock.readThread d).1 sent (sock.readThread d).2 := by
  have hopen : sock.readStatus = .opened := by
    cases hstatus : sock.readStatus with
    | opened => rfl
    | closed => rw [(h.ended hstatus).1] at hreading; cases hreading
  have hopen' : ¬ sock.readStatus = .closed := by rw [hopen]; simp
  have same : ReceiverStep sock sock sent [] :=
    ⟨h, le_rfl, by simp, by simp, by simp, id⟩
  rw [GbnSocket.readThread, if_neg fun hend => hopen' hend.1]
  cases htype : d.type with
  | ack => exact absurd htype hack
  | data => exact h.receiveData hd htype hopen (hpage htype)
  | ackEof =>
      exact ⟨⟨h.window, h.pushed, h.empty, h.writer, h.marks, h.marked, h.closing,
        fun hclosed => absurd hclosed hopen'⟩, le_rfl, by simp, by simp, by simp, id⟩
  | eof =>
      obtain ⟨blocks, hpushed, hlength, hdelivered⟩ := h.pushed
      rw [if_neg hopen', List.append_nil] at hpushed
      refine ⟨⟨h.window, ⟨blocks, ?_, hlength, hdelivered⟩, h.empty, h.writer, ?_, fun _ => rfl,
        fun _ => rfl, fun _ => ⟨rfl, d, hd, htype⟩⟩, le_rfl, by simp [GbnSocket.receiveEof],
        by simp [GbnSocket.receiveEof], by simp [GbnSocket.receiveEof], fun _ => rfl⟩
      · simp [GbnSocket.receiveEof, BlockQueue.pushChunk, hpushed]
      · intro block hblock
        simp only [GbnSocket.receiveEof, BlockQueue.pushChunk] at hblock
        rcases List.mem_append.1 hblock with hblock | hblock
        · exact h.marks block hblock
        · rw [List.mem_singleton.1 hblock, DataBlock.Closing]
          decide
  | uninitialized => exact same
  | other code => exact same

end Steps

/-! ### Both sides -/

structure Protocol.Inv (s : Protocol) : Prop where
  sender : SenderInv s.sender s.queued s.closed
  receiver : ReceiverInv s.receiver s.toReceiver
  low : s.sender.seqNumber.toNat - s.sender.sendingWindow.size.toNat ≤
    s.receiver.receiveWindow.recvCounter.toNat
  noAck : ∀ d ∈ s.toReceiver, d.type ≠ .ack
  data : ∀ d ∈ s.toReceiver, d.type = .data → d.seqNumber.toNat < s.sender.seqNumber.toNat
  eof : ∀ d ∈ s.toReceiver, d.type = .eof → s.sender.writer = .stopped
  noData : ∀ d ∈ s.toSender, d.type ≠ .data
  acks : ∀ d ∈ s.toSender, d.type = .ack →
    (d.seqNumber + 1).toNat ≤ s.receiver.receiveWindow.recvCounter.toNat
  eofBack : ∀ d ∈ s.toSender, d.type = .eof → s.receiver.readStatus = .closed

namespace Protocol

theorem inv_initial : initial.Inv where
  sender := senderInv_initial
  receiver := receiverInv_initial
  low := Nat.le_of_eq rfl
  noAck := by simp [initial]
  data := by simp [initial]
  eof := by simp [initial]
  noData := by simp [initial]
  acks := by simp [initial]
  eofBack := by simp [initial]

theorem Inv.counter_le {s : Protocol} (h : s.Inv) :
    s.receiver.receiveWindow.recvCounter.toNat ≤ s.sender.seqNumber.toNat :=
  h.receiver.counter_le h.data

theorem Inv.senderStep {s : Protocol} (h : s.Inv) {next : GbnSocket} {queued : List Bytes}
    {closed : Bool} {out : List Datagram}
    (hstep : SenderStep s.sender next queued closed out s.receiver.receiveWindow.recvCounter.toNat) :
    Inv { s with
      sender := next, queued := queued, closed := closed, toReceiver := s.toReceiver ++ out } where
  sender := hstep.inv
  receiver := h.receiver.more out
  low := hstep.low
  noAck d hd := (List.mem_append.1 hd).elim (h.noAck d) (hstep.noAck d)
  data d hd hdata := (List.mem_append.1 hd).elim
    (fun hold => (h.data d hold hdata).trans_le hstep.mono) (fun hnew => hstep.data d hnew hdata)
  eof d hd heof := (List.mem_append.1 hd).elim
    (fun hold => hstep.stopped (h.eof d hold heof)) (fun hnew => hstep.eof d hnew heof)
  noData := h.noData
  acks := h.acks
  eofBack := h.eofBack

theorem Inv.receiverStep {s : Protocol} (h : s.Inv) {next : GbnSocket} {out : List Datagram}
    (hstep : ReceiverStep s.receiver next s.toReceiver out) :
    Inv { s with receiver := next, toSender := s.toSender ++ out } where
  sender := h.sender
  receiver := hstep.inv
  low := h.low.trans hstep.mono
  noAck := h.noAck
  data := h.data
  eof := h.eof
  noData d hd := (List.mem_append.1 hd).elim (h.noData d) (hstep.noData d)
  acks d hd hack := (List.mem_append.1 hd).elim
    (fun hold => (h.acks d hold hack).trans hstep.mono) (fun hnew => hstep.acks d hnew hack)
  eofBack d hd heof := (List.mem_append.1 hd).elim
    (fun hold => hstep.closed (h.eofBack d hold heof)) (fun hnew => hstep.eof d hnew heof)

/-- Once the receiver's read thread has seen an EOF, the sending application has closed. -/
theorem Inv.closed_of_readStatus {s : Protocol} (h : s.Inv) (hclosed : s.receiver.readStatus = .closed) :
    s.closed = true := by
  obtain ⟨-, d, hd, heof⟩ := h.receiver.ended hclosed
  exact h.sender.closing (Or.inr (h.eof d hd heof))

/-- Every step is one of the sender, in which the application may have queued blocks, or one of the
receiver. -/
theorem Inv.step_cases {s next : Protocol} {a : Action} (h : s.Inv) (hsound : s.Sound a)
    (hbound : s.queued.length < 2 ^ 32) (hstep : s.step a = some next) :
    (∃ sock queued closed out,
      SenderStep s.sender sock queued closed out s.receiver.receiveWindow.recvCounter.toNat ∧
        next = { s with
          sender := sock, queued := queued, closed := closed, toReceiver := s.toReceiver ++ out }) ∨
    ∃ sock out, ReceiverStep s.receiver sock s.toReceiver out ∧
      next = { s with receiver := sock, toSender := s.toSender ++ out } := by
  cases a with
  | write bytes =>
      obtain ⟨hopen, rfl⟩ : s.closed = false ∧ _ = next := by
        simpa [Protocol.step] using hstep
      have hsender := h.sender
      rw [hopen] at hsender
      refine Or.inl ⟨_, _, false, [], hsender.write_step bytes h.low, ?_⟩
      rw [List.append_nil, hopen]
  | close =>
      obtain ⟨hopen, rfl⟩ : s.closed = false ∧ _ = next := by
        simpa [Protocol.step] using hstep
      have hsender := h.sender
      rw [hopen] at hsender
      refine Or.inl ⟨_, _, true, [], hsender.close_step h.low, ?_⟩
      rw [List.append_nil]
  | senderWriter timedOut junk =>
      obtain ⟨⟨sock, out⟩, hwriter, rfl⟩ := Option.map_eq_some_iff.1 hstep
      exact Or.inl ⟨sock, s.queued, s.closed, out,
        h.sender.writerStep hbound h.low (writerMove_of_step hwriter), rfl⟩
  | senderRead d =>
      obtain ⟨⟨hd, -⟩, rfl⟩ : (d ∈ s.toSender ∧ s.sender.reading = true) ∧ _ = next := by
        simpa only [Protocol.step, Option.ite_none_right_eq_some, Option.some.injEq] using hstep
      exact Or.inl ⟨_, _, _, _, h.sender.readThread hbound h.low h.counter_le (h.noData d hd)
        (h.acks d hd) hsound fun heof => h.closed_of_readStatus (h.eofBack d hd heof), rfl⟩
  | receiverWriter timedOut junk =>
      obtain ⟨⟨sock, out⟩, hwriter, rfl⟩ := Option.map_eq_some_iff.1 hstep
      exact Or.inr ⟨sock, out, h.receiver.writerStep (writerMove_of_step hwriter), rfl⟩
  | receiverRead d =>
      obtain ⟨⟨hd, hreading⟩, rfl⟩ : (d ∈ s.toReceiver ∧ s.receiver.reading = true) ∧ _ = next := by
        simpa only [Protocol.step, Option.ite_none_right_eq_some, Option.some.injEq] using hstep
      exact Or.inr ⟨_, _, h.receiver.readThread hd hreading (h.noAck d hd) hsound, rfl⟩

theorem Inv.step {s next : Protocol} {a : Action} (h : s.Inv) (hsound : s.Sound a)
    (hbound : s.queued.length < 2 ^ 32) (hstep : s.step a = some next) : next.Inv := by
  rcases h.step_cases hsound hbound hstep with
    ⟨sock, queued, closed, out, hsender, rfl⟩ | ⟨sock, out, hreceiver, rfl⟩
  · exact h.senderStep hsender
  · exact h.receiverStep hreceiver

theorem Inv.counter_mono {s next : Protocol} {a : Action} (h : s.Inv) (hsound : s.Sound a)
    (hbound : s.queued.length < 2 ^ 32) (hstep : s.step a = some next) :
    s.receiver.receiveWindow.recvCounter.toNat ≤ next.receiver.receiveWindow.recvCounter.toNat := by
  rcases h.step_cases hsound hbound hstep with
    ⟨sock, queued, closed, out, -, rfl⟩ | ⟨sock, out, hreceiver, rfl⟩
  · exact le_rfl
  · exact hreceiver.mono

theorem length_queued_mono {s next : Protocol} {a : Action} (hstep : s.step a = some next) :
    s.queued.length ≤ next.queued.length := by
  cases a with
  | write bytes =>
      obtain ⟨-, rfl⟩ : s.closed = false ∧ _ = next := by simpa [Protocol.step] using hstep
      simp
  | close =>
      obtain ⟨-, rfl⟩ : s.closed = false ∧ _ = next := by simpa [Protocol.step] using hstep
      exact le_rfl
  | senderWriter timedOut junk =>
      obtain ⟨-, -, rfl⟩ := Option.map_eq_some_iff.1 hstep
      exact le_rfl
  | senderRead d =>
      obtain ⟨-, rfl⟩ : _ ∧ _ = next := by
        simpa only [Protocol.step, Option.ite_none_right_eq_some, Option.some.injEq] using hstep
      exact le_rfl
  | receiverWriter timedOut junk =>
      obtain ⟨-, -, rfl⟩ := Option.map_eq_some_iff.1 hstep
      exact le_rfl
  | receiverRead d =>
      obtain ⟨-, rfl⟩ : _ ∧ _ = next := by
        simpa only [Protocol.step, Option.ite_none_right_eq_some, Option.some.injEq] using hstep
      exact le_rfl

/-- The invariant holds at the end of every run whose steps are sound, while the numbers of the queued
blocks fit in 32 bits. -/
theorem inv_of_sound {actions : List Action} {s : Protocol}
    (hsound : protocol.Within Sound initial actions) (hrun : protocol.run initial actions = some s)
    (hbound : s.queued.length < 2 ^ 32) : s.Inv :=
  protocol.invariant_of_within (I := fun s => s.queued.length < 2 ^ 32 → s.Inv)
    (fun _ _ _ hinv hC hstep hnext =>
      have hlt := (length_queued_mono hstep).trans_lt hnext
      (hinv hlt).step hC hlt hstep)
    (fun _ => inv_initial) hsound hrun hbound

theorem Inv.windowAgrees {s : Protocol} (h : s.Inv) : s.WindowAgrees where
  size := h.sender.window.size
  size_le := h.sender.window.size_le
  tail := h.sender.window.tail
  slots i hi := by
    have hle := h.sender.window.size_le
    have hlt := s.sender.seqNumber.toNat_lt
    rw [h.sender.window.slots i hi]
    exact ⟨rfl, sentPacket_seqNumber (by omega)⟩
  pushed n hn := by
    obtain ⟨blocks, hpushed, hlength, hblocks⟩ := h.receiver.pushed
    have hlow := h.low
    have hget := List.getElem?_eq_getElem (l := blocks) (i := n) (by omega)
    obtain ⟨packet, ⟨hdata, hseq, hmem⟩, hblock⟩ := hblocks n _ hget
    refine ⟨packet, hmem, hdata, hseq.trans (Nat.zero_add n), ?_⟩
    rw [hpushed, List.getElem?_append_left (by omega), hget, hblock]
    rfl

end Protocol

/-! ### The sending window in every run -/

/-- **The sending window describes what is sent and not acknowledged**, in every state that sound steps
reach. -/
theorem windowAgrees_of_sound (actions : List Action) (s : Protocol)
    (hsound : protocol.Within Protocol.Sound Protocol.initial actions)
    (hrun : protocol.run Protocol.initial actions = some s) (hbound : s.queued.length < 2 ^ 32) :
    s.WindowAgrees :=
  (Protocol.inv_of_sound hsound hrun hbound).windowAgrees

def acknowledgedRun : List Action :=
  [.write [7], .senderWriter false fun _ _ => 0, .senderWriter false fun _ _ => 0,
    .senderWriter false fun _ _ => 0, .receiverRead ⟨.data, 0, 1, [7]⟩, .senderRead ⟨.ack, 0, 0, []⟩]

theorem windowAgrees_of_sound_acknowledged : ∃ s,
    protocol.run Protocol.initial acknowledgedRun = some s ∧ s.WindowAgrees :=
  ⟨_, rfl, windowAgrees_of_sound acknowledgedRun _ (by decide) rfl (by decide)⟩

/-- The acknowledgement arrives a second time. The window is empty, and the slot at its head still holds
the 0 of `calloc`, so the size drops below zero. -/
theorem not_windowAgrees : ¬ ∀ (actions : List Action) (s : Protocol),
    protocol.run Protocol.initial actions = some s → s.queued.length < 2 ^ 32 → s.WindowAgrees := by
  intro hclaim
  have hsize := (hclaim (acknowledgedRun ++ [.senderRead ⟨.ack, 0, 0, []⟩]) _ rfl (by decide)).size
  exact absurd hsize (by decide)

end NetworkSystems.Gbn
