import NetworkSystems.Gbn.Close

/-!
# Retransmissions

The block on the sending buffer and the packet in the sending window share one payload. `send_packet`
frees it as soon as the packet has been sent for the first time, and the window keeps the pointer. So
in every state that can be reached no slot of the window refers to memory that is allocated, and what a
retransmission carries is up to the allocator. The law that retransmissions repeat the first datagram
holds only as long as there is nothing to retransmit.
-/

namespace NetworkSystems.Gbn

/-- The payload of every packet in the sending window is still allocated. -/
def Protocol.PayloadsPresent (s : Protocol) : Prop :=
  ∀ i < s.sender.sendingWindow.size.toNat,
    (s.sender.heap.cell (s.sender.sendingWindow.frame i).payload).isSome

/-- The first data packet with the given number that was sent. -/
def Protocol.firstSent (s : Protocol) (seqNumber : UInt32) : Option Datagram :=
  s.toReceiver.find? fun d => d.type = .data ∧ d.seqNumber = seqNumber

/-- Whatever freed memory contains, to send a packet of the sending window again is to send its first
datagram again. -/
def Protocol.Repeats (s : Protocol) : Prop :=
  ∀ i < s.sender.sendingWindow.size.toNat, ∀ junk,
    s.firstSent (s.sender.sendingWindow.frame i).seqNumber =
      some (s.sender.serialize junk (s.sender.sendingWindow.frame i))

/-- The step does not send a block of data. -/
def Protocol.SendsNoData (s : Protocol) : Action → Prop
  | .senderWriter _ _ =>
      s.sender.writer = .sendPacket → ∀ block ∈ s.sender.sendingBuffer.peekChunk, block.Closing
  | _ => True

instance (s : Protocol) : Decidable s.PayloadsPresent := inferInstanceAs (Decidable (∀ i < _, _))

instance (s : Protocol) : ∀ a : Action, Decidable (s.SendsNoData a)
  | .senderWriter _ _ => inferInstanceAs (Decidable (_ → _))
  | .write _ | .close | .senderRead _ | .receiverWriter _ _ | .receiverRead _ => isTrue trivial

/-! ### The pointers of the window -/

/-- No slot of the sending window refers to allocated memory, and `malloc` will not return a pointer that
is in use. A block of data is not empty. -/
structure Dangling (sock : GbnSocket) : Prop where
  freed : ∀ i, sock.heap.cell (sock.sendingWindow.packetBuffer i).payload = none
  old : ∀ i, (sock.sendingWindow.packetBuffer i).payload < sock.heap.next
  queued : ∀ block ∈ sock.sendingBuffer.pushed,
    block.data < sock.heap.next ∧ (block.Closing ∨ block.len ≠ 0)

theorem dangling_initial : Dangling initGbnSocket where
  freed _ := rfl
  old _ := Nat.one_pos
  queued := by simp [initGbnSocket, BlockQueue.empty]

section Steps

variable {sock next : GbnSocket} {junk : Junk} {out : List Datagram}

theorem Dangling.kept (h : Dangling sock) (hheap : next.heap = sock.heap)
    (hslots : next.sendingWindow.packetBuffer = sock.sendingWindow.packetBuffer)
    (hpushed : ∀ block ∈ next.sendingBuffer.pushed,
      block ∈ sock.sendingBuffer.pushed ∨ block = ⟨0, 0, isClosing⟩) : Dangling next where
  freed i := by
    rw [hheap, hslots]
    exact h.freed i
  old i := by
    rw [hheap, hslots]
    exact h.old i
  queued block hblock := by
    rw [hheap]
    rcases hpushed block hblock with hold | rfl
    · exact h.queued block hold
    · exact ⟨(Nat.zero_le _).trans_lt (h.old 0), Or.inl (by decide)⟩

theorem Dangling.pushBlock (h : Dangling sock) {bytes : Bytes} (hlen : UInt32.ofNat bytes.length ≠ 0) :
    Dangling (sock.pushBlock bytes) where
  freed i := by
    have hne : (sock.sendingWindow.packetBuffer i).payload ≠ sock.heap.next := (h.old i).ne
    exact (Function.update_of_ne hne _ _).trans (h.freed i)
  old i := Nat.lt_succ_of_lt (h.old i)
  queued block hblock := by
    rcases List.mem_append.1 hblock with hblock | hblock
    · exact ⟨Nat.lt_succ_of_lt (h.queued block hblock).1, (h.queued block hblock).2⟩
    · rw [List.mem_singleton.1 hblock]
      exact ⟨Nat.lt_succ_self _, Or.inr hlen⟩

theorem Dangling.write (h : Dangling sock) (bytes : Bytes) : Dangling (sock.write bytes) := by
  have hfold : ∀ (blocks : List Bytes) (sock : GbnSocket), Dangling sock →
      (∀ block ∈ blocks, UInt32.ofNat block.length ≠ 0) →
        Dangling (blocks.foldl GbnSocket.pushBlock sock) := by
    intro blocks
    induction blocks with
    | nil => exact fun _ hsock _ => hsock
    | cons block blocks ih =>
        intro sock hsock hblocks
        exact ih _ (hsock.pushBlock (hblocks block (by simp))) fun b hb => hblocks b (by simp [hb])
  exact hfold _ sock h (writeBlocks_nonempty bytes)

theorem Dangling.close (h : Dangling sock) : Dangling sock.close := by
  rw [GbnSocket.close]
  cases sock.status with
  | opened =>
      exact h.kept rfl rfl fun block hblock => by
        simpa [BlockQueue.pushChunk] using hblock
  | closed => exact h

theorem Dangling.writer (h : Dangling sock) (hmove : WriterMove sock junk next out) :
    Dangling next := by
  have hpushed := pushed_of_move hmove
  cases hmove with
  | idle => exact h.kept rfl rfl fun _ => Or.inl
  | closing => exact h.kept rfl rfl fun _ hb => Or.inl (hpushed ▸ hb)
  | @send block hwriter hpeek hopen =>
      have hmem : block ∈ sock.sendingBuffer.pushed := List.mem_of_getElem? hpeek
      have hslot : ∀ i, ((sock.popped.sendBlock junk block).1.sendingWindow.packetBuffer i).payload =
          block.data ∨ ((sock.popped.sendBlock junk block).1.sendingWindow.packetBuffer i).payload =
            (sock.sendingWindow.packetBuffer i).payload := by
        intro i
        simp only [GbnSocket.sendBlock, GbnWindow.append, Function.update_apply]
        split
        · exact Or.inl rfl
        · exact Or.inr rfl
      refine ⟨fun i => ?_, fun i => ?_, fun b hb => ?_⟩
      · change Function.update sock.heap.cell block.data none _ = none
        rcases hslot i with heq | heq <;> rw [heq, Function.update_apply]
        · rw [if_pos rfl]
        · rw [h.freed i, ite_self]
      · rcases hslot i with heq | heq <;> rw [heq]
        · exact (h.queued block hmem).1
        · exact h.old i
      · exact h.queued b (hpushed ▸ hb)
  | resend => exact h.kept rfl rfl fun _ => Or.inl
  | eof => exact h.kept rfl rfl fun _ => Or.inl

theorem Dangling.read (h : Dangling sock) (incoming : Datagram) :
    Dangling (sock.readThread incoming).1 := by
  have hpushed := readThread_pushed sock incoming
  rw [GbnSocket.readThread] at hpushed ⊢
  split at hpushed
  case isTrue hclosed =>
    rw [if_pos hclosed]
    exact h.kept rfl rfl hpushed
  case isFalse hopen =>
    rw [if_neg hopen]
    cases htype : incoming.type <;> rw [htype] at hpushed
    case ack => exact h.kept rfl (GbnWindow.acknowledge_slots _ _) hpushed
    all_goals exact h.kept rfl rfl hpushed

end Steps

theorem Dangling.step {s next : Protocol} {a : Action} (h : Dangling s.sender)
    (hstep : s.step a = some next) : Dangling next.sender := by
  cases a with
  | write bytes =>
      obtain ⟨-, rfl⟩ : s.closed = false ∧ _ = next := by simpa [Protocol.step] using hstep
      exact h.write bytes
  | close =>
      obtain ⟨-, rfl⟩ : s.closed = false ∧ _ = next := by simpa [Protocol.step] using hstep
      exact h.close
  | senderWriter timedOut junk =>
      obtain ⟨⟨sock, out⟩, hwriter, rfl⟩ := Option.map_eq_some_iff.1 hstep
      exact h.writer (writerMove_of_step hwriter)
  | senderRead datagram =>
      obtain ⟨-, hnext⟩ := Option.ite_none_right_eq_some.1 hstep
      obtain rfl := Option.some.inj hnext
      exact h.read datagram
  | receiverWriter timedOut junk =>
      obtain ⟨⟨sock, out⟩, -, rfl⟩ := Option.map_eq_some_iff.1 hstep
      exact h
  | receiverRead datagram =>
      obtain ⟨-, hnext⟩ := Option.ite_none_right_eq_some.1 hstep
      obtain rfl := Option.some.inj hnext
      exact h

theorem Protocol.payloadsPresent_iff_empty {s : Protocol} (h : Dangling s.sender) :
    s.PayloadsPresent ↔ s.sender.sendingWindow.size = 0 := by
  constructor
  · intro hpresent
    by_contra hne
    have hpos : 0 < s.sender.sendingWindow.size.toNat :=
      Nat.pos_of_ne_zero fun hzero => hne (UInt8.toNat_inj.1 hzero)
    have hsome := hpresent 0 hpos
    rw [GbnWindow.frame, h.freed] at hsome
    cases hsome
  · intro hzero i hi
    rw [hzero] at hi
    exact absurd hi (Nat.not_lt_zero i)

/-- In every reachable state the law holds exactly if there is nothing to retransmit. -/
theorem payloadsPresent_iff_empty_of_run {actions : List Action} {s : Protocol}
    (hrun : protocol.run Protocol.initial actions = some s) :
    s.PayloadsPresent ↔ s.sender.sendingWindow.size = 0 :=
  Protocol.payloadsPresent_iff_empty
    (protocol.invariant (I := fun s => Dangling s.sender) (fun _ _ _ hinv hstep => hinv.step hstep)
      dangling_initial hrun)

/-! ### Runs that send no data -/

/-- The packets that end a connection. -/
def GbnPacket.Control {π : Type} (d : GbnPacket π) : Prop := d.type = .eof ∨ d.type = .ackEof

/-- A socket that has never sent a block. -/
structure Silent (sock : GbnSocket) : Prop where
  window : sock.sendingWindow = .zeroed 0
  idle : ∀ i, sock.writer ≠ .retransmitFrom i

theorem silent_initial : Silent initGbnSocket := ⟨rfl, fun _ => by simp [initGbnSocket]⟩

section Silence

variable {sock next : GbnSocket} {junk : Junk} {out : List Datagram} {incoming : Datagram}

theorem Silent.writer (h : Silent sock) (hmove : WriterMove sock junk next out)
    (hclosing : sock.writer = .sendPacket → ∀ block ∈ sock.sendingBuffer.peekChunk, block.Closing) :
    Silent next ∧ ∀ d ∈ out, d.Control := by
  cases hmove with
  | @idle state hidle =>
      refine ⟨⟨h.window, fun i heq => ?_⟩, by simp⟩
      have hstate : state = .retransmitFrom i := heq
      subst hstate
      generalize hold : sock.writer = old at hidle
      cases hidle with
      | again hsize =>
          rw [h.window] at hsize
          exact hsize rfl
  | closing => exact ⟨⟨h.window, fun _ => by simp⟩, by simp⟩
  | send hwriter hpeek hopen => exact absurd (hclosing hwriter _ hpeek) hopen
  | resend hwriter => exact absurd hwriter (h.idle _)
  | eof =>
      refine ⟨⟨h.window, fun _ => by simp⟩, fun d hd => ?_⟩
      rw [List.mem_singleton.1 hd]
      exact Or.inl rfl

theorem Silent.read (h : Silent sock) (hcontrol : incoming.Control) :
    Silent (sock.readThread incoming).1 ∧ ∀ d ∈ (sock.readThread incoming).2, d.Control := by
  rw [GbnSocket.readThread]
  split
  · exact ⟨⟨h.window, h.idle⟩, by simp⟩
  · rcases hcontrol with htype | htype <;> rw [htype]
    · refine ⟨⟨h.window, h.idle⟩, fun d hd => ?_⟩
      rw [List.mem_singleton.1 hd]
      exact Or.inr rfl
    · exact ⟨⟨h.window, h.idle⟩, by simp⟩

end Silence

/-- Nobody has sent a block, and only the end of the connection is in flight. -/
structure Protocol.Silence (s : Protocol) : Prop where
  dangling : Dangling s.sender
  sender : Silent s.sender
  receiver : Silent s.receiver
  marks : ∀ block ∈ s.receiver.sendingBuffer.pushed, block.Closing
  toReceiver : ∀ d ∈ s.toReceiver, d.Control
  toSender : ∀ d ∈ s.toSender, d.Control

theorem Protocol.silence_initial : initial.Silence where
  dangling := dangling_initial
  sender := silent_initial
  receiver := silent_initial
  marks := by simp [initial, initGbnSocket, BlockQueue.empty]
  toReceiver := by simp [initial]
  toSender := by simp [initial]

theorem Protocol.Silence.step {s next : Protocol} {a : Action} (h : s.Silence)
    (hnothing : s.SendsNoData a) (hstep : s.step a = some next) : next.Silence := by
  have hdangling := h.dangling.step hstep
  cases a with
  | write bytes =>
      obtain ⟨-, rfl⟩ : s.closed = false ∧ _ = next := by simpa [Protocol.step] using hstep
      obtain ⟨hwindow, -, hwriter, -⟩ :=
        foldl_pushBlock_kept (GbnSocket.writeBlocks bytes) s.sender
      refine ⟨hdangling, ⟨hwindow.trans h.sender.window, fun i => ?_⟩, h.receiver, h.marks,
        h.toReceiver, h.toSender⟩
      exact hwriter.trans_ne (h.sender.idle i)
  | close =>
      obtain ⟨-, rfl⟩ : s.closed = false ∧ _ = next := by simpa [Protocol.step] using hstep
      obtain ⟨hwindow, -, hwriter⟩ := close_kept s.sender
      refine ⟨hdangling, ⟨hwindow.trans h.sender.window, fun i => ?_⟩, h.receiver, h.marks,
        h.toReceiver, h.toSender⟩
      exact hwriter.trans_ne (h.sender.idle i)
  | senderWriter timedOut junk =>
      obtain ⟨⟨sock, out⟩, hwriter, rfl⟩ := Option.map_eq_some_iff.1 hstep
      obtain ⟨hsender, hout⟩ := h.sender.writer (writerMove_of_step hwriter) hnothing
      exact ⟨hdangling, hsender, h.receiver, h.marks,
        fun d hd => (List.mem_append.1 hd).elim (h.toReceiver d) (hout d), h.toSender⟩
  | senderRead datagram =>
      obtain ⟨⟨hmem, -⟩, hnext⟩ := Option.ite_none_right_eq_some.1 hstep
      obtain rfl := Option.some.inj hnext
      obtain ⟨hsender, hout⟩ := h.sender.read (h.toSender datagram hmem)
      exact ⟨hdangling, hsender, h.receiver, h.marks,
        fun d hd => (List.mem_append.1 hd).elim (h.toReceiver d) (hout d), h.toSender⟩
  | receiverWriter timedOut junk =>
      obtain ⟨⟨sock, out⟩, hwriter, rfl⟩ := Option.map_eq_some_iff.1 hstep
      have hmove := writerMove_of_step hwriter
      obtain ⟨hreceiver, hout⟩ := h.receiver.writer hmove fun _ block hpeek =>
        h.marks block (List.mem_of_getElem? hpeek)
      exact ⟨hdangling, h.sender, hreceiver, fun block hb => h.marks block (pushed_of_move hmove ▸ hb),
        h.toReceiver, fun d hd => (List.mem_append.1 hd).elim (h.toSender d) (hout d)⟩
  | receiverRead datagram =>
      obtain ⟨⟨hmem, -⟩, hnext⟩ := Option.ite_none_right_eq_some.1 hstep
      obtain rfl := Option.some.inj hnext
      obtain ⟨hreceiver, hout⟩ := h.receiver.read (h.toReceiver datagram hmem)
      refine ⟨hdangling, h.sender, hreceiver, fun block hb => ?_, h.toReceiver,
        fun d hd => (List.mem_append.1 hd).elim (h.toSender d) (hout d)⟩
      rcases readThread_pushed s.receiver datagram block hb with hb | rfl
      · exact h.marks block hb
      · decide

/-- After the first block has been sent, the window holds one packet with a payload that is not empty. -/
theorem Protocol.Silence.first {s next : Protocol} {a : Action} (h : s.Silence)
    (hsends : ¬ s.SendsNoData a) (hstep : s.step a = some next) :
    next.sender.sendingWindow.size = 1 ∧ (next.sender.sendingWindow.frame 0).size ≠ 0 := by
  cases a with
  | senderWriter timedOut junk =>
      obtain ⟨⟨sock, out⟩, hwriter, rfl⟩ := Option.map_eq_some_iff.1 hstep
      obtain ⟨hstate, block, hpeek, hopen⟩ : s.sender.writer = .sendPacket ∧
          ∃ block ∈ s.sender.sendingBuffer.peekChunk, ¬ block.Closing := by
        simpa [SendsNoData] using hsends
      cases writerMove_of_step hwriter with
      | idle hidle =>
          rw [hstate] at hidle
          cases hidle
      | closing _ hpeek' hclosing =>
          obtain rfl := Option.some.inj (hpeek.symm.trans hpeek')
          exact absurd hclosing hopen
      | send _ hpeek' =>
          obtain rfl := Option.some.inj (hpeek.symm.trans hpeek')
          have hlen := (h.dangling.queued block (List.mem_of_getElem? hpeek)).2.resolve_left hopen
          have hwindow : s.sender.popped.sendingWindow = .zeroed 0 := h.sender.window
          rw [GbnSocket.sendBlock, hwindow]
          exact ⟨rfl, hlen⟩
      | resend hwriter' => exact absurd (hstate.symm.trans hwriter') (by simp)
      | eof hwriter' => exact absurd (hstate.symm.trans hwriter') (by simp)
  | _ => exact absurd trivial hsends

theorem Protocol.Silence.payloadsPresent {s : Protocol} (h : s.Silence) : s.PayloadsPresent :=
  (payloadsPresent_iff_empty h.dangling).2 (congrArg GbnWindow.size h.sender.window)

theorem Protocol.Silence.repeats {s : Protocol} (h : s.Silence) : s.Repeats := by
  intro i hi
  rw [h.sender.window] at hi
  exact absurd hi (Nat.not_lt_zero i)

/-- Two contents of the freed memory make two datagrams. -/
theorem Protocol.not_repeats {s : Protocol} (h : Dangling s.sender)
    (hone : s.sender.sendingWindow.size = 1) (hsize : (s.sender.sendingWindow.frame 0).size ≠ 0) :
    ¬ s.Repeats := by
  intro hrepeats
  have hpos : 0 < s.sender.sendingWindow.size.toNat := by
    rw [hone]
    decide
  have hsame : s.sender.serialize (fun _ _ => 0) (s.sender.sendingWindow.frame 0) =
      s.sender.serialize (fun _ _ => 1) (s.sender.sendingWindow.frame 0) :=
    Option.some.inj ((hrepeats 0 hpos _).symm.trans (hrepeats 0 hpos _))
  have hpayload := congrArg GbnPacket.payload hsame
  simp only [GbnSocket.serialize, GbnWindow.frame, Heap.read, h.freed] at hpayload
  have hlen : 0 < (s.sender.sendingWindow.frame 0).size.toNat :=
    Nat.pos_of_ne_zero fun hzero => hsize (UInt32.toNat_inj.1 hzero)
  exact absurd (List.map_inj_left.1 hpayload 0 (List.mem_range.2 hlen)) (by decide)

theorem Protocol.throughout_iff_sendsNoData {P : Protocol → Prop} (hsilence : ∀ s, s.Silence → P s)
    (hfirst : ∀ s, Dangling s.sender → s.sender.sendingWindow.size = 1 →
      (s.sender.sendingWindow.frame 0).size ≠ 0 → ¬ P s) {actions : List Action} {s : Protocol}
    (hrun : protocol.run initial actions = some s) :
    protocol.Throughout P initial actions ↔ protocol.Within SendsNoData initial actions := by
  refine protocol.throughout_iff_within (fun _ _ _ hinv _ _ hC hstep => hinv.step hC hstep)
    (fun s a t hinv _ _ hstep => ⟨fun hP => ?_, fun hC => hsilence t (hinv.step hC hstep)⟩)
    silence_initial (hsilence _ silence_initial) (protocol.within_true _ _) hrun
  by_contra hsends
  obtain ⟨hone, hsize⟩ := hinv.first hsends hstep
  exact hfirst t (hinv.dangling.step hstep) hone hsize hP

/-- **Retransmissions repeat the original datagram** exactly in the runs that send no data: in all other
runs there is a state in which the payload of a packet in the window has been freed, and in which the
datagram of a retransmission depends on what that memory contains. -/
theorem repeats_iff_sendsNoData (actions : List Action) (s : Protocol)
    (hrun : protocol.run Protocol.initial actions = some s) :
    (protocol.Throughout Protocol.PayloadsPresent Protocol.initial actions ↔
      protocol.Within Protocol.SendsNoData Protocol.initial actions) ∧
    (protocol.Throughout Protocol.Repeats Protocol.initial actions ↔
      protocol.Within Protocol.SendsNoData Protocol.initial actions) := by
  refine ⟨Protocol.throughout_iff_sendsNoData (fun _ h => h.payloadsPresent) ?_ hrun,
    Protocol.throughout_iff_sendsNoData (fun _ h => h.repeats)
      (fun _ h hone hsize => Protocol.not_repeats h hone hsize) hrun⟩
  intro s h hone _ hpresent
  rw [Protocol.payloadsPresent_iff_empty h, hone] at hpresent
  exact absurd hpresent (by decide)

/-- The connection is closed without anything having been sent. -/
theorem repeats_iff_sendsNoData_closed :
    protocol.Throughout Protocol.PayloadsPresent Protocol.initial
        (.senderWriter false (fun _ _ => 0) :: closing) ∧
      protocol.Throughout Protocol.Repeats Protocol.initial
        (.senderWriter false (fun _ _ => 0) :: closing) :=
  have hiff := repeats_iff_sendsNoData (.senderWriter false (fun _ _ => 0) :: closing) _ rfl
  ⟨hiff.1.2 (by decide), hiff.2.2 (by decide)⟩

/-- One byte is sent, the wait expires and the byte is sent again. The freed memory contains something
else by then. -/
theorem not_repeats : (¬ ∀ (actions : List Action) (s : Protocol),
    protocol.run Protocol.initial actions = some s → s.PayloadsPresent) ∧
    ¬ ∀ (actions : List Action) (s : Protocol), protocol.run Protocol.initial actions = some s →
      ∀ d ∈ s.toReceiver, d.type = .data → s.firstSent d.seqNumber = some d := by
  constructor
  · intro hclaim
    exact absurd (hclaim (acknowledgedRun.take 4) _ rfl) (by decide)
  · intro hclaim
    have hresent := hclaim (acknowledgedRun.take 4 ++ [.senderWriter true fun _ _ => 0,
      .senderWriter true fun _ _ => 0, .senderWriter true fun _ _ => 0,
      .senderWriter true fun _ _ => 9]) _ rfl ⟨.data, 0, 1, [9]⟩ (by decide) rfl
    exact absurd hresent (by decide)

end NetworkSystems.Gbn
