import NetworkSystems.Gbn.Agreement

/-!
# Closing a connection

When the write thread takes the closing marker off the sending buffer it sends the EOF packet at once,
whatever is still in the sending window, and ends. Nobody retransmits from then on, so a packet that is
lost stays lost. Closing loses nothing in runs where the window is empty at that point. A second
condition is on memory: `send_packet` frees a payload right after its first transmission, so what a
retransmission carries depends on what the allocator has left there.
-/

namespace NetworkSystems.Gbn

/-- The block that a written block should arrive as. -/
def receivedBlock (bytes : Bytes) : DataBlock Bytes := ⟨bytes, UInt32.ofNat bytes.length, 0⟩

/-- Whenever the receive buffer holds a closing marker, all blocks that were written have been pushed
before it. -/
def Protocol.Lossless (s : Protocol) : Prop :=
  ∀ before after, s.receiver.receiveBuffer.pushed = before ++ GbnSocket.closingMarker :: after →
    (s.queued.map receivedBlock).Sublist before

/-- The condition on a step of the write thread, by its state: the closing marker leaves the sending
buffer only when the sending window is empty, and a retransmission finds the freed payload unchanged. -/
def Protocol.WriterDrained (s : Protocol) (junk : Junk) : WriterState → Prop
  | .sendPacket =>
      ∀ block ∈ s.sender.sendingBuffer.peekChunk, block.Closing → s.sender.sendingWindow.size = 0
  | .retransmitFrom i =>
      (s.sender.serialize junk (s.sender.sendingWindow.packetBuffer i)).payload =
        s.queued.getD (s.sender.sendingWindow.packetBuffer i).seqNumber.toNat []
  | _ => True

/-- The sender closes with an empty window and retransmits what it has sent. -/
def Protocol.Drained (s : Protocol) : Action → Prop
  | .senderWriter _ junk => s.WriterDrained junk s.sender.writer
  | _ => True

instance (s : Protocol) (junk : Junk) : ∀ state, Decidable (s.WriterDrained junk state)
  | .sendPacket => inferInstanceAs (Decidable (∀ block ∈ _, _))
  | .retransmitFrom _ => inferInstanceAs (Decidable (_ = _))
  | .windowEmptyQ => isTrue trivial
  | .blockOnQueue => isTrue trivial
  | .isWinFullQ => isTrue trivial
  | .waitOnRead => isTrue trivial
  | .retransmit => isTrue trivial
  | .closeConnection => isTrue trivial
  | .stopped => isTrue trivial

instance (s : Protocol) : ∀ a : Action, Decidable (s.Drained a)
  | .senderWriter _ junk => inferInstanceAs (Decidable (s.WriterDrained junk s.sender.writer))
  | .write _ => isTrue trivial
  | .close => isTrue trivial
  | .senderRead _ => isTrue trivial
  | .receiverWriter _ _ => isTrue trivial
  | .receiverRead _ => isTrue trivial

/-! ### What the datagrams carry -/

/-- A data packet carries the block that its number stands for. -/
def Carries (queued : List Bytes) (d : Datagram) : Prop :=
  d.type = .data → ∃ bytes, queued[d.seqNumber.toNat]? = some bytes ∧ d.toBlock = receivedBlock bytes

theorem Carries.more {queued : List Bytes} {d : Datagram} (h : Carries queued d) (more : List Bytes) :
    Carries (queued ++ more) d := fun hdata =>
  let ⟨bytes, hget, hblock⟩ := h hdata
  ⟨bytes, by rw [List.getElem?_append_left (List.getElem?_eq_some_iff.1 hget).1]; exact hget, hblock⟩

theorem readThread_noData (sock : GbnSocket) (d : Datagram) :
    ∀ reply ∈ (sock.readThread d).2, reply.type ≠ .data := by
  rw [GbnSocket.readThread]
  split
  · simp
  · cases d.type <;> simp [GbnSocket.receiveData, GbnSocket.receiveEof]

section Sender

variable {sock next : GbnSocket} {queued : List Bytes} {closed : Bool} {junk : Junk}
  {out : List Datagram}

theorem SenderInv.carries_send (h : SenderInv sock queued closed) {block : DataBlock Ref}
    (hwriter : sock.writer = .sendPacket) (hpeek : sock.sendingBuffer.peekChunk = some block)
    (hopen : ¬ block.Closing) : ∀ d ∈ (sock.popped.sendBlock junk block).2, Carries queued d := by
  obtain ⟨hpopped, hlt, hpacket⟩ := h.front hwriter hpeek hopen
  intro d hd _
  rw [List.mem_singleton.1 hd]
  have hget := List.getElem?_eq_getElem hlt
  have hcell := h.queue.live _ _ hpopped.le hget
  refine ⟨queued[sock.seqNumber.toNat], hget, ?_⟩
  have hdata : block.data = sock.seqNumber.toNat + 1 := congrArg GbnPacket.payload hpacket
  have hlen : block.len = UInt32.ofNat queued[sock.seqNumber.toNat].length := by
    have := congrArg GbnPacket.size hpacket
    rwa [sentPacket, List.getD_eq_getElem?_getD, hget] at this
  have hshort := h.queue.short _ (List.getElem_mem hlt)
  have hread : sock.heap.read junk block.data block.len.toNat = queued[sock.seqNumber.toNat] := by
    rw [Heap.read, hdata, hcell, hlen,
      UInt32.toNat_ofNat_of_lt' (by simp only [defaultPacketSize] at hshort; simp only [UInt32.size]; omega)]
    exact List.take_length
  rw [GbnPacket.toBlock, receivedBlock, ← hlen]
  exact congrArg (fun bytes => (⟨bytes, block.len, 0⟩ : DataBlock Bytes)) hread

/-- What the write thread sends are the blocks that were written, if the freed payloads that it reads are
unchanged. -/
theorem SenderInv.carries_writer (h : SenderInv sock queued closed) (hbound : queued.length < 2 ^ 32)
    (hmove : WriterMove sock junk next out)
    (hmemory : ∀ i, sock.writer = .retransmitFrom i →
      (sock.serialize junk (sock.sendingWindow.packetBuffer i)).payload =
        queued.getD (sock.sendingWindow.packetBuffer i).seqNumber.toNat []) :
    ∀ d ∈ out, Carries queued d := by
  cases hmove with
  | idle => simp
  | closing => simp
  | send hwriter hpeek hopen => exact h.carries_send hwriter hpeek hopen
  | @resend i hwriter =>
      have hfits := h.writer
      rw [WriterFits, hwriter] at hfits
      obtain ⟨left, hvisits⟩ := hfits
      have hslot := hvisits.first
      have hsent := h.sent
      have hpos := hvisits.pos
      have hle := hvisits.sent
      have hlt : sock.seqNumber.toNat - left < queued.length := by omega
      have hseq : (sock.sendingWindow.packetBuffer i).seqNumber.toNat = sock.seqNumber.toNat - left := by
        rw [hslot, sentPacket_seqNumber (by omega)]
      have hpayload := hmemory i hwriter
      intro d hd _
      rw [List.mem_singleton.1 hd]
      refine ⟨queued[sock.seqNumber.toNat - left], ?_, ?_⟩
      · exact (congrArg (queued[·]?) hseq).trans (List.getElem?_eq_getElem hlt)
      · rw [hseq, List.getD_eq_getElem?_getD, List.getElem?_eq_getElem hlt, Option.getD_some] at hpayload
        rw [GbnPacket.toBlock, hpayload, receivedBlock]
        congr 1
        change (sock.sendingWindow.packetBuffer i).size = _
        rw [hslot, sentPacket, List.getD_eq_getElem?_getD, List.getElem?_eq_getElem hlt]
        rfl
  | eof =>
      intro d hd hdata
      rw [List.mem_singleton.1 hd] at hdata
      cases hdata

/-- The write thread turns to closing when everything that was written is acknowledged. -/
theorem SenderInv.closing_writer (h : SenderInv sock queued closed)
    (hmove : WriterMove sock junk next out)
    (hdrained : sock.writer = .sendPacket → ∀ block ∈ sock.sendingBuffer.peekChunk,
      block.Closing → sock.sendingWindow.size = 0) (hclosing : next.Closing) :
    sock.Closing ∨ queued.length ≤ sock.seqNumber.toNat - sock.sendingWindow.size.toNat := by
  cases hmove with
  | idle hidle =>
      rcases hclosing with heq | heq
      · exact absurd heq hidle.not_closing.2.1
      · exact absurd heq hidle.not_closing.2.2
  | closing hwriter hpeek hblock =>
      have hsize := hdrained hwriter _ hpeek hblock
      have hend := (h.queue.closing_iff hpeek).1 hblock
      rw [h.popped (by rw [GbnSocket.Closing, hwriter]; simp)] at hend
      exact Or.inr (by rw [hsize]; exact hend)
  | send => rcases hclosing with heq | heq <;> cases heq
  | resend =>
      rw [GbnSocket.Closing] at hclosing
      simp only [GbnSocket.retransmitSlot] at hclosing
      split at hclosing <;> rcases hclosing with heq | heq <;> cases heq
  | eof hwriter => exact Or.inl (Or.inl hwriter)

end Sender

/-! ### Runs -/

/-- The joint invariant, with what the data packets carry, and with everything delivered by the time
the write thread closes. -/
structure Protocol.CloseInv (s : Protocol) : Prop where
  inv : s.Inv
  carries : ∀ d ∈ s.toReceiver, Carries s.queued d
  closing : s.sender.Closing →
    s.queued.length ≤ s.receiver.receiveWindow.recvCounter.toNat

namespace Protocol

theorem closeInv_initial : initial.CloseInv where
  inv := inv_initial
  carries := by simp [initial]
  closing h := by rcases h with h | h <;> cases h

theorem CloseInv.step {s next : Protocol} {a : Action} (h : s.CloseInv) (hsound : s.Sound a)
    (hdrained : s.Drained a) (hbound : s.queued.length < 2 ^ 32) (hstep : s.step a = some next) :
    next.CloseInv := by
  have hinv := h.inv.step hsound hbound hstep
  have hmono := h.inv.counter_mono hsound hbound hstep
  cases a with
  | write bytes =>
      obtain ⟨hopen, rfl⟩ : s.closed = false ∧ _ = next := by simpa [Protocol.step] using hstep
      refine ⟨hinv, fun d hd => (h.carries d hd).more _, fun hclosing => ?_⟩
      exact absurd (hinv.sender.closing hclosing) (by rw [hopen]; simp)
  | close =>
      obtain ⟨-, rfl⟩ : s.closed = false ∧ _ = next := by simpa [Protocol.step] using hstep
      refine ⟨hinv, h.carries, fun hclosing => h.closing ?_⟩
      rwa [GbnSocket.Closing, (close_kept s.sender).2.2] at hclosing
  | senderWriter timedOut junk =>
      obtain ⟨⟨sock, out⟩, hwriter, rfl⟩ := Option.map_eq_some_iff.1 hstep
      have hmove := writerMove_of_step hwriter
      have hdrained : s.WriterDrained junk s.sender.writer := hdrained
      have hcarries := h.inv.sender.carries_writer hbound hmove fun i hi => by
        rwa [hi] at hdrained
      refine ⟨hinv, fun d hd => (List.mem_append.1 hd).elim (h.carries d) (hcarries d),
        fun hclosing => ?_⟩
      rcases h.inv.sender.closing_writer hmove (fun hi => by rwa [hi] at hdrained) hclosing
        with hold | hall
      · exact h.closing hold
      · exact hall.trans h.inv.low
  | senderRead d =>
      obtain ⟨-, rfl⟩ : (d ∈ s.toSender ∧ s.sender.reading = true) ∧ _ = next := by
        simpa only [Protocol.step, Option.ite_none_right_eq_some, Option.some.injEq] using hstep
      refine ⟨hinv, fun p hp => (List.mem_append.1 hp).elim (h.carries p) fun hnew hdata =>
        absurd hdata (readThread_noData _ d p hnew), fun hclosing => h.closing ?_⟩
      rwa [GbnSocket.Closing, readThread_writer] at hclosing
  | receiverWriter timedOut junk =>
      obtain ⟨_, _, rfl⟩ := Option.map_eq_some_iff.1 hstep
      exact ⟨hinv, h.carries, fun hclosing => (h.closing hclosing).trans hmono⟩
  | receiverRead d =>
      obtain ⟨-, rfl⟩ : (d ∈ s.toReceiver ∧ s.receiver.reading = true) ∧ _ = next := by
        simpa only [Protocol.step, Option.ite_none_right_eq_some, Option.some.injEq] using hstep
      exact ⟨hinv, h.carries, fun hclosing => (h.closing hclosing).trans hmono⟩

/-- Once the receiver has seen the EOF, it has pushed exactly the written blocks and the marker. -/
theorem CloseInv.pushed_eq {s : Protocol} (h : s.CloseInv) (hclosed : s.receiver.readStatus = .closed) :
    s.receiver.receiveBuffer.pushed = s.queued.map receivedBlock ++ [GbnSocket.closingMarker] := by
  obtain ⟨blocks, hpushed, hlength, hblocks⟩ := h.inv.receiver.pushed
  rw [if_pos hclosed] at hpushed
  obtain ⟨-, d, hd, heof⟩ := h.inv.receiver.ended hclosed
  have hall := h.closing (Or.inr (h.inv.eof d hd heof))
  have hle := h.inv.counter_le
  have hsent := h.inv.sender.sent
  rw [hpushed]
  congr 1
  refine List.ext_getElem? fun n => ?_
  by_cases hlt : n < blocks.length
  · obtain ⟨packet, ⟨hdata, hseq, hmem⟩, hblock⟩ := hblocks n _ (List.getElem?_eq_getElem hlt)
    obtain ⟨bytes, hget, hcarried⟩ := h.carries packet hmem hdata
    rw [hseq, Nat.zero_add] at hget
    rw [List.getElem?_eq_getElem hlt, hblock, List.getElem?_map, hget, Option.map_some, ← hcarried]
    rfl
  · rw [List.getElem?_eq_none (by omega), List.getElem?_eq_none (by rw [List.length_map]; omega)]

theorem CloseInv.lossless {s : Protocol} (h : s.CloseInv) : s.Lossless := by
  intro before after hsplit
  obtain ⟨blocks, hpushed, -, hblocks⟩ := h.inv.receiver.pushed
  have hopen : ∀ block ∈ blocks, block ≠ GbnSocket.closingMarker := by
    intro block hblock heq
    obtain ⟨n, hn⟩ := List.getElem?_of_mem hblock
    obtain ⟨packet, -, hmade⟩ := hblocks n block hn
    exact absurd (hmade.symm.trans heq) (by simp [GbnSocket.closingMarker, isClosing])
  cases hstatus : s.receiver.readStatus with
  | opened =>
      rw [if_neg (by rw [hstatus]; simp), List.append_nil] at hpushed
      exact absurd rfl (hopen _ (by rw [← hpushed, hsplit]; simp))
  | closed =>
      have hfull := h.pushed_eq hstatus
      rw [if_pos hstatus] at hpushed
      have hsame := List.append_cancel_right (hpushed.symm.trans hfull)
      rw [hfull, List.append_eq_append_iff] at hsplit
      rcases hsplit with ⟨middle, hbefore, -⟩ | ⟨middle, hqueued, hmarker⟩
      · rw [hbefore]
        exact List.sublist_append_left _ _
      · cases middle with
        | nil => rw [hqueued, List.append_nil]
        | cons block middle =>
            rw [List.cons_append, List.cons.injEq] at hmarker
            refine absurd hmarker.1.symm (hopen block ?_)
            rw [hsame, hqueued]
            simp

end Protocol

/-- **Closing loses nothing**, in every run that closes with an empty window. -/
theorem lossless_of_drained (actions : List Action) (s : Protocol)
    (hwithin : protocol.Within (fun s a => s.Sound a ∧ s.Drained a) Protocol.initial actions)
    (hrun : protocol.run Protocol.initial actions = some s) (hbound : s.queued.length < 2 ^ 32) :
    s.Lossless :=
  (protocol.invariant_of_within (I := fun s => s.queued.length < 2 ^ 32 → s.CloseInv)
    (fun _ _ _ hinv hC hstep hnext =>
      have hlt := (Protocol.length_queued_mono hstep).trans_lt hnext
      (hinv hlt).step hC.1 hC.2 hlt hstep)
    (fun _ => Protocol.closeInv_initial) hwithin hrun hbound).lossless

/-- The steps by which the connection is closed and the EOF arrives, when the write thread is about to
ask for room in the window. -/
def closing : List Action :=
  [.close, .senderWriter false fun _ _ => 0, .senderWriter false fun _ _ => 0,
    .senderWriter false fun _ _ => 0, .receiverRead GbnSocket.eofDatagram]

/-- A block is written, sent, pushed and acknowledged, and then the connection is closed. -/
theorem lossless_of_drained_acknowledged : ∃ s,
    protocol.run Protocol.initial (acknowledgedRun ++ closing) = some s ∧
      s.receiver.readStatus = .closed ∧ s.Lossless :=
  ⟨_, rfl, rfl, lossless_of_drained (acknowledgedRun ++ closing) _ (by decide) rfl (by decide)⟩

/-- The only data packet is lost. The write thread sends the EOF right behind it. -/
theorem not_lossless : ¬ ∀ (actions : List Action) (s : Protocol),
    protocol.run Protocol.initial actions = some s → s.Lossless := by
  intro hclaim
  have hlossless := hclaim (acknowledgedRun.take 4 ++ closing) _ rfl
  exact absurd (hlossless [] [] rfl) (by decide)

end NetworkSystems.Gbn
