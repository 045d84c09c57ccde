import NetworkSystems.Gbn.Loss

/-!
# Progress

A transfer whose losses can still be made good can be brought to its end. From `wait_on_read` the write
thread sends its window once more; the network delivers the packets in order, and the last of them a
second time, which the receiver answers with a fresh acknowledgement; the write thread finds its window
empty and sends the next block, and behind the last block it closes. Every step of this keeps the
conditions on a run.
-/

namespace NetworkSystems.Gbn

namespace Protocol

/-- A step of a thread that keeps the conditions on a run. -/
def Continues (s : Protocol) (a : Action) : Prop := a.OfThread ∧ s.Sound a ∧ s.Drained a

def Continuation (s t : Protocol) : Prop := protocol.Reaches Continues s t ∧ t.Live

section Way

variable {s : Protocol}

theorem Live.continues (h : s.Live) (hbound : s.queued.length < 2 ^ 32) {a : Action} {next : Protocol}
    (ha : s.Continues a) (hstep : s.step a = some next) : s.Continuation next :=
  ⟨.single ha hstep, h.step ha.2.1 ha.2.2 hbound hstep⟩

theorem Live.stays (h : s.Live) : s.Continuation s := ⟨.refl, h⟩

theorem Continuation.trans {t u : Protocol} (h : s.Continuation t) (h' : t.Continuation u) :
    s.Continuation u := ⟨h.1.trans h'.1, h'.2⟩

/-! ### The packets of the window arrive -/

theorem Live.opened_of_running (h : s.Live) (hrunning : s.sender.writer ≠ .stopped) :
    s.receiver.readStatus = .opened := by
  cases hstatus : s.receiver.readStatus with
  | opened => rfl
  | closed => exact absurd (h.stopped hstatus) hrunning

/-- A data packet on the network is delivered, if it is not in the receiver's window or in front of it. -/
theorem Live.receive (h : s.Live) (hbound : s.queued.length < 2 ^ 32)
    (hrunning : s.sender.writer ≠ .stopped) {d : Datagram} (hd : d ∈ s.toReceiver) (hdata : d.type = .data)
    (hpage : s.receiver.receiveWindow.InReceiveRange d.seqNumber →
      d.seqNumber.toNat / 256 = s.receiver.receiveWindow.recvCounter.toNat / 256) :
    s.Continuation { s with
        receiver := (s.receiver.receiveData d).1
        toSender := s.toSender ++ (s.receiver.receiveData d).2 } ∧
      s.receiver.receiveWindow.recvCounter.toNat ≤
        (s.receiver.receiveData d).1.receiveWindow.recvCounter.toNat := by
  have hopen := h.opened_of_running hrunning
  have hreading : s.receiver.reading = true := by
    cases hreads : s.receiver.reading with
    | true => rfl
    | false => exact absurd (hopen.symm.trans (h.receiving hreads)) (by simp)
  have hstep : s.step (.receiverRead d) = some { s with
      receiver := (s.receiver.readThread d).1, toSender := s.toSender ++ (s.receiver.readThread d).2 } :=
    if_pos ⟨hd, hreading⟩
  have hsound : s.Sound (.receiverRead d) := fun _ => hpage
  have hmono := h.close.inv.counter_mono hsound hbound hstep
  have hnext := h.continues hbound (a := .receiverRead d) ⟨trivial, hsound, trivial⟩ hstep
  rw [readThread_data hopen hdata] at hnext hmono
  exact ⟨hnext, hmono⟩

theorem Live.deliver (h : s.Live) (hbound : s.queued.length + 5 < 2 ^ 32)
    (hrunning : s.sender.writer ≠ .stopped) (hway : s.OnWay s.receiver.receiveWindow.recvCounter.toNat) :
    ∃ t, s.Continuation t ∧ t.sender = s.sender ∧ t.queued = s.queued ∧ t.closed = s.closed ∧
      t.toReceiver = s.toReceiver ∧
      s.receiver.receiveWindow.recvCounter.toNat < t.receiver.receiveWindow.recvCounter.toNat := by
  obtain ⟨d, hd, hdata, hnumber⟩ := hway
  have hseq : d.seqNumber = s.receiver.receiveWindow.recvCounter := UInt32.toNat_inj.1 hnumber
  have hopen := h.opened_of_running hrunning
  obtain ⟨hnext, -⟩ := h.receive (by omega) hrunning hd hdata fun _ => by rw [hseq]
  refine ⟨_, hnext, rfl, rfl, rfl, rfl, ?_⟩
  have hsent := h.close.inv.sender.sent
  have hlt := h.close.inv.data d hd hdata
  have hrange : s.receiver.receiveWindow.InReceiveRange d.seqNumber := by
    rw [hseq]
    refine ⟨UInt32.le_refl _, ?_⟩
    rw [UInt32.lt_iff_toNat_lt, UInt32.toNat_add]
    change _ < (_ + 6) % 2 ^ 32
    omega
  obtain ⟨w, -, -, -, -, -, hpushed⟩ :=
    receiveData_front d hseq hrange (by rw [hdata]; simp)
  -- both counters tell how many blocks have been pushed
  obtain ⟨blocks, hblocks, hlength, -⟩ := h.close.inv.receiver.pushed
  obtain ⟨blocks', hblocks', hlength', -⟩ := hnext.2.close.inv.receiver.pushed
  rw [if_neg (by rw [hopen]; simp), List.append_nil] at hblocks
  rw [if_neg (by change s.receiver.readStatus ≠ _; rw [hopen]; simp), List.append_nil] at hblocks'
  rw [← hlength, ← hlength', ← hblocks, ← hblocks']
  change _ < (s.receiver.receiveData d).1.receiveBuffer.pushed.length
  rw [hpushed, List.length_append, List.length_cons]
  omega

theorem Live.catchUp (h : s.Live) (hbound : s.queued.length + 5 < 2 ^ 32)
    (hrunning : s.sender.writer ≠ .stopped) (hway : s.WindowOnWay) :
    ∃ t, s.Continuation t ∧ t.sender = s.sender ∧ t.queued = s.queued ∧ t.closed = s.closed ∧
      t.toReceiver = s.toReceiver ∧ t.receiver.receiveWindow.recvCounter = s.sender.seqNumber := by
  obtain ⟨t, hreach, ⟨hlive, hsender, hqueued, hclosed, hto⟩, hcount⟩ :=
    protocol.exists_reaches_of_measure (C := Continues)
      (I := fun t => t.Live ∧ t.sender = s.sender ∧ t.queued = s.queued ∧ t.closed = s.closed ∧
        t.toReceiver = s.toReceiver)
      (P := fun t => t.receiver.receiveWindow.recvCounter = s.sender.seqNumber)
      (fun t => s.sender.seqNumber.toNat - t.receiver.receiveWindow.recvCounter.toNat)
      (fun t ht hne => by
        obtain ⟨hlive, hsender, hqueued, hclosed, hto⟩ := ht
        have hle := hlive.close.inv.counter_le
        have hlow := hlive.close.inv.low
        rw [hsender] at hle hlow
        have hne' : t.receiver.receiveWindow.recvCounter.toNat ≠ s.sender.seqNumber.toNat :=
          fun heq => hne (UInt32.toNat_inj.1 heq)
        have hwaiting : t.OnWay t.receiver.receiveWindow.recvCounter.toNat := by
          rw [OnWay, hto]
          exact hway _ (by omega) hlow
        obtain ⟨u, hreach, hsender', hqueued', hclosed', hto', hlt⟩ :=
          hlive.deliver (by rwa [hqueued]) (by rwa [hsender]) hwaiting
        refine ⟨u, hreach.1, ⟨hreach.2, hsender'.trans hsender, hqueued'.trans hqueued,
          hclosed'.trans hclosed, hto'.trans hto⟩, ?_⟩
        omega)
      ⟨h, rfl, rfl, rfl, rfl⟩
  exact ⟨t, ⟨hreach, hlive⟩, hsender, hqueued, hclosed, hto, hcount⟩

/-! ### The window becomes empty -/

/-- The last packet arrives once more, and is acknowledged once more. -/
theorem Live.askAgain (h : s.Live) (hbound : s.queued.length < 2 ^ 32)
    (hrunning : s.sender.writer ≠ .stopped) (hway : s.WindowOnWay)
    (hsize : s.sender.sendingWindow.size ≠ 0)
    (hcount : s.receiver.receiveWindow.recvCounter = s.sender.seqNumber) :
    ∃ t, s.Continuation t ∧ t.sender = s.sender ∧ t.queued = s.queued ∧ t.closed = s.closed ∧
      ∃ d ∈ t.toSender, d.type = .ack ∧ d.seqNumber + 1 = s.sender.seqNumber := by
  have hle := h.close.inv.sender.window.size_le
  have hpos : 0 < s.sender.sendingWindow.size.toNat :=
    Nat.pos_of_ne_zero fun h0 => hsize (UInt8.toNat_inj.1 h0)
  obtain ⟨d, hd, hdata, hnumber⟩ := hway (s.sender.seqNumber.toNat - 1) (by omega) (by rw [low]; omega)
  have hbehind : ¬ s.receiver.receiveWindow.InReceiveRange d.seqNumber := by
    rw [GbnWindow.InReceiveRange, hcount, UInt32.le_iff_toNat_le]
    omega
  obtain ⟨hnext, hmono⟩ := h.receive hbound hrunning hd hdata fun hrange => absurd hrange hbehind
  refine ⟨_, hnext, rfl, rfl, rfl, _, List.mem_append_right _ (List.mem_singleton_self _), rfl, ?_⟩
  change (s.receiver.receiveData d).1.receiveWindow.recvCounter - 1 + 1 = _
  rw [UInt32.sub_add_cancel]
  -- the counter cannot have moved on
  refine UInt32.toNat_inj.1 (le_antisymm hnext.2.close.inv.counter_le ?_)
  rwa [hcount] at hmono

theorem Live.acknowledge (h : s.Live) (hbound : s.queued.length + 5 < 2 ^ 32)
    (hrunning : s.sender.writer ≠ .stopped) (hnonempty : s.sender.sendingWindow.size ≠ 0)
    {d : Datagram} (hd : d ∈ s.toSender) (hack : d.type = .ack)
    (hseq : d.seqNumber + 1 = s.sender.seqNumber) :
    ∃ t, s.Continuation t ∧ t.queued = s.queued ∧ t.closed = s.closed ∧
      t.sender.writer = s.sender.writer ∧ t.sender.seqNumber = s.sender.seqNumber ∧
      t.sender.sendingBuffer = s.sender.sendingBuffer ∧ t.sender.sendingWindow.size = 0 := by
  have hwindow := h.close.inv.sender.window
  have hsent := h.close.inv.sender.sent
  have hpos : 0 < s.sender.sendingWindow.size.toNat :=
    Nat.pos_of_ne_zero fun h0 => hnonempty (UInt8.toNat_inj.1 h0)
  have hle := hwindow.size_le
  have hnumber : d.seqNumber.toNat + 1 = s.sender.seqNumber.toNat := by
    have hlast : d.seqNumber = s.sender.seqNumber - 1 := by
      rw [← hseq, UInt32.add_sub_cancel]
    have hone : (1 : UInt32) ≤ s.sender.seqNumber := by
      rw [UInt32.le_iff_toNat_le]
      change 1 ≤ _
      omega
    rw [hlast, UInt32.toNat_sub_of_le _ _ hone]
    change _ - 1 + 1 = _
    omega
  have hreading : s.sender.reading = true := by
    cases hreads : s.sender.reading with
    | true => rfl
    | false => exact absurd (h.sending (Or.inl hreads)) hrunning
  have hopen : ¬ (s.sender.readStatus = .closed ∧ s.sender.receiveWindow.size = 0) :=
    fun hend => hrunning (h.sending (Or.inr hend.1))
  have hthread : s.sender.readThread d =
      ({ s.sender with sendingWindow := s.sender.sendingWindow.acknowledge d.seqNumber }, []) := by
    rw [GbnSocket.readThread, if_neg hopen, hack]
  have hstep : s.step (.senderRead d) = some { s with
      sender := (s.sender.readThread d).1, toReceiver := s.toReceiver ++ (s.sender.readThread d).2 } :=
    if_pos ⟨hd, hreading⟩
  have hnext := h.continues (by omega) (a := .senderRead d)
    ⟨trivial, fun _ hsize => absurd hsize hnonempty, trivial⟩ hstep
  refine ⟨_, hnext, rfl, rfl, by simp only [hthread], by simp only [hthread], by simp only [hthread], ?_⟩
  simp only [hthread]
  have hfront : (s.sender.sendingWindow.frame 0).seqNumber.toNat =
      s.sender.seqNumber.toNat - s.sender.sendingWindow.size.toNat := by
    rw [hwindow.slots 0 hpos, sentPacket_seqNumber (by omega), Nat.add_zero]
  have hlow : (s.sender.sendingWindow.frame 0).seqNumber ≤ d.seqNumber := by
    rw [UInt32.le_iff_toNat_le]
    omega
  have hsix := hwindow.size
  have hhigh : d.seqNumber < (s.sender.sendingWindow.frame 0).seqNumber + 6 := by
    rw [UInt32.lt_iff_toNat_lt, UInt32.toNat_add]
    change _ < (_ + 6) % 2 ^ 32
    omega
  have hdelta : s.sender.sendingWindow.getSendFrameIdDelta d.seqNumber =
      ((s.sender.sendingWindow.size.toNat - 1 : Nat) : Int) := by
    rw [GbnWindow.getSendFrameIdDelta]
    simp only [hlow, hhigh, if_true]
    rw [UInt32.toNat_sub_of_le _ _ hlow]
    congr 1
    omega
  obtain ⟨-, hsize, -⟩ := GbnWindow.acknowledge_inside hdelta (by omega) hwindow.head hsix
  refine UInt8.toNat_inj.1 (hsize.trans ?_)
  change _ = 0
  omega

/-- When all packets of the window have reached the network, the window can be emptied. -/
theorem Live.clear (h : s.Live) (hbound : s.queued.length + 5 < 2 ^ 32)
    (hrunning : s.sender.writer ≠ .stopped) (hway : s.WindowOnWay) :
    ∃ t, s.Continuation t ∧ t.queued = s.queued ∧ t.closed = s.closed ∧
      t.sender.writer = s.sender.writer ∧ t.sender.seqNumber = s.sender.seqNumber ∧
      t.sender.sendingBuffer = s.sender.sendingBuffer ∧ t.sender.sendingWindow.size = 0 := by
  by_cases hsize : s.sender.sendingWindow.size = 0
  · exact ⟨s, h.stays, rfl, rfl, rfl, rfl, rfl, hsize⟩
  · obtain ⟨t, hto, hsender, hqueued, hclosed, hreached, hcount⟩ := h.catchUp hbound hrunning hway
    have hway' : t.WindowOnWay := by
      rw [WindowOnWay, low, hsender]
      simp only [OnWay, hreached]
      exact hway
    obtain ⟨u, hto', hsender', hqueued', hclosed', d, hd, hack, hseq⟩ := hto.2.askAgain
      (by rw [hqueued]; omega) (by rwa [hsender]) hway' (by rwa [hsender]) (by rw [hcount, hsender])
    rw [hsender] at hsender' hseq
    obtain ⟨v, hto'', hrest⟩ := hto'.2.acknowledge (by rwa [hqueued', hqueued]) (by rwa [hsender'])
      (by rwa [hsender']) hd hack (by rwa [hsender'])
    rw [hqueued', hqueued, hclosed', hclosed, hsender'] at hrest
    exact ⟨v, hto.trans (hto'.trans hto''), hrest⟩

/-! ### The write thread sends its window again -/

/-- Memory in which the freed payloads are as they were. -/
def keptJunk (queued : List Bytes) : Junk := fun ref k => (queued.getD (ref - 1) []).getD k 0

theorem range_getD (bytes : Bytes) : (List.range bytes.length).map (fun k => bytes.getD k 0) = bytes := by
  refine List.ext_getElem (by rw [List.length_map, List.length_range]) fun n hn hn' => ?_
  rw [List.getElem_map, List.getElem_range, List.getD_eq_getElem?_getD, List.getElem?_eq_getElem hn',
    Option.getD_some]

theorem OnWay.mono {t : Protocol} {n : Nat} (h : s.OnWay n) (hsub : s.toReceiver ⊆ t.toReceiver) :
    t.OnWay n :=
  let ⟨d, hd, hnumber⟩ := h
  ⟨d, hsub hd, hnumber⟩

theorem Live.drained_keptJunk (h : s.Live) (hbound : s.queued.length < 2 ^ 32) {left : Nat} {i : Fin 6}
    (hwriter : s.sender.writer = .retransmitFrom i)
    (hvisits : Visits s.sender.sendingWindow s.queued s.sender.seqNumber.toNat i left) :
    s.Drained (.senderWriter false (keptJunk s.queued)) := by
  change s.WriterDrained _ s.sender.writer
  rw [hwriter]
  change (s.sender.serialize _ (s.sender.sendingWindow.packetBuffer i)).payload = _
  have hsent := h.close.inv.sender.sent
  have hle := hvisits.sent
  have hpos := hvisits.pos
  have hlt : s.sender.seqNumber.toNat - left < s.queued.length := by omega
  have hpopped := h.close.inv.sender.popped (by rw [GbnSocket.Closing, hwriter]; simp)
  have hfreed := h.close.inv.sender.queue.freed (s.sender.seqNumber.toNat - left) (by omega) hlt
  have hshort := h.close.inv.sender.queue.short _ (List.getElem_mem hlt)
  rw [GbnSocket.serialize, hvisits.first, sentPacket_seqNumber (by omega)]
  simp only [sentPacket, Heap.read, hfreed, List.getD_eq_getElem?_getD, List.getElem?_eq_getElem hlt,
    Option.getD_some]
  rw [toNat_short hshort]
  refine Eq.trans ?_ (range_getD _)
  refine congrArg (List.map · _) (funext fun k => ?_)
  simp only [keptJunk, Nat.add_sub_cancel, List.getD_eq_getElem?_getD, List.getElem?_eq_getElem hlt,
    Option.getD_some]

/-- The loop of `retransmit` sends the packets that it has still to visit. -/
theorem Live.leaveLoop (h : s.Live) (hbound : s.queued.length < 2 ^ 32) {left : Nat} {i : Fin 6}
    (hwriter : s.sender.writer = .retransmitFrom i)
    (hvisits : Visits s.sender.sendingWindow s.queued s.sender.seqNumber.toNat i left) :
    ∃ t, s.Continuation t ∧ t.queued = s.queued ∧ t.closed = s.closed ∧
      t.sender = { s.sender with writer := .waitOnRead } ∧ s.toReceiver ⊆ t.toReceiver ∧
      ∀ n < s.sender.seqNumber.toNat, s.sender.seqNumber.toNat - left ≤ n → t.OnWay n := by
  induction left generalizing s i with
  | zero => exact absurd hvisits.pos (Nat.lt_irrefl 0)
  | succ left ih =>
      have hle := hvisits.sent
      have hstep : s.step (.senderWriter false (keptJunk s.queued)) = some { s with
          sender := (s.sender.retransmitSlot (keptJunk s.queued) i).1
          toReceiver := s.toReceiver ++ (s.sender.retransmitSlot (keptJunk s.queued) i).2 } := by
        rw [Protocol.step, GbnSocket.writerStep, hwriter]
        rfl
      have hnext := h.continues hbound (a := .senderWriter false (keptJunk s.queued))
        ⟨trivial, trivial, h.drained_keptJunk hbound hwriter hvisits⟩ hstep
      have hfirst : OnWay { s with
          sender := (s.sender.retransmitSlot (keptJunk s.queued) i).1
          toReceiver := s.toReceiver ++ (s.sender.retransmitSlot (keptJunk s.queued) i).2 }
          (s.sender.seqNumber.toNat - (left + 1)) := by
        have hlt := s.sender.seqNumber.toNat_lt
        refine ⟨_, List.mem_append_right _ (List.mem_singleton_self _), ?_, ?_⟩
        · rw [GbnSocket.serialize, hvisits.first]
          rfl
        · change (s.sender.sendingWindow.packetBuffer i).seqNumber.toNat = _
          rw [hvisits.first, sentPacket_seqNumber (by omega)]
      by_cases hlast : (Fin.ofNat 6 (i.val + 1)).val = s.sender.sendingWindow.tail.toNat
      · have hone : left = 0 := by
          have htail := hvisits.tail
          have hsix := hvisits.le
          rw [Fin.val_ofNat] at hlast
          omega
        refine ⟨_, hnext, rfl, rfl, ?_, List.subset_append_left _ _, fun n hn hge => ?_⟩
        · simp only [GbnSocket.retransmitSlot, hlast, ne_eq, not_true_eq_false, if_false]
        · obtain rfl : n = s.sender.seqNumber.toNat - (left + 1) := by omega
          exact hfirst
      · have hgoes : (s.sender.retransmitSlot (keptJunk s.queued) i).1 =
            { s.sender with writer := .retransmitFrom (Fin.ofNat 6 (i.val + 1)) } := by
          simp only [GbnSocket.retransmitSlot, ne_eq, hlast, not_false_eq_true, if_true]
        obtain ⟨t, hreach, hqueued, hclosed, hsender, hsub, hway⟩ :=
          ih hnext.2 hbound (congrArg GbnSocket.writer hgoes) (by
            simp only [hgoes]
            exact hvisits.next hlast)
        refine ⟨t, hnext.trans hreach, hqueued, hclosed, by rw [hsender]; rfl,
          List.Subset.trans (List.subset_append_left _ _) hsub, fun n hn hge => ?_⟩
        by_cases heq : n = s.sender.seqNumber.toNat - (left + 1)
        · rw [heq]
          exact hfirst.mono hsub
        · exact hway n hn (by change s.sender.seqNumber.toNat - left ≤ n; omega)

def withWriter (s : Protocol) (state : WriterState) : Protocol :=
  { s with sender := { s.sender with writer := state } }

/-- A step of the write thread that takes no block and sends nothing. -/
theorem Live.turn (h : s.Live) (hbound : s.queued.length < 2 ^ 32) (timedOut : Bool) (state : WriterState)
    (hsend : s.sender.writer ≠ .sendPacket) (hloop : ∀ i, s.sender.writer ≠ .retransmitFrom i)
    (hstep : s.sender.writerStep timedOut (keptJunk []) = some ({ s.sender with writer := state }, [])) :
    s.Continuation (s.withWriter state) := by
  have hdrained : s.Drained (.senderWriter timedOut (keptJunk [])) := by
    change s.WriterDrained _ s.sender.writer
    cases hwriter : s.sender.writer with
    | sendPacket => exact absurd hwriter hsend
    | retransmitFrom i => exact absurd hwriter (hloop i)
    | _ => trivial
  refine h.continues hbound (a := .senderWriter timedOut (keptJunk [])) ⟨trivial, trivial, hdrained⟩ ?_
  rw [Protocol.step, hstep, Option.map_some, List.append_nil]
  rfl

theorem Live.resend (h : s.Live) (hbound : s.queued.length < 2 ^ 32) (hwriter : s.sender.writer = .waitOnRead) :
    ∃ t, s.Continuation t ∧ t.queued = s.queued ∧ t.closed = s.closed ∧ t.sender = s.sender ∧
      t.WindowOnWay := by
  by_cases hsize : s.sender.sendingWindow.size = 0
  · refine ⟨s, h.stays, rfl, rfl, rfl, fun n hn hge => ?_⟩
    rw [low, hsize] at hge
    exact absurd hn (not_lt.2 hge)
  · have hexpired : s.Continuation (s.withWriter .retransmit) :=
      h.turn hbound true .retransmit (by simp [hwriter]) (by simp [hwriter])
        (by rw [GbnSocket.writerStep, hwriter]; rfl)
    have hloop : s.Continuation
        (s.withWriter (.retransmitFrom (Fin.ofNat 6 s.sender.sendingWindow.head.toNat))) := by
      refine hexpired.trans (hexpired.2.turn hbound false _ (by simp [withWriter]) (by simp [withWriter]) ?_)
      rw [GbnSocket.writerStep]
      exact if_neg hsize
    have hvisits := h.close.inv.sender.window.visits hsize
    obtain ⟨t, hto, hqueued, hclosed, hsender, -, hway⟩ := hloop.2.leaveLoop hbound rfl hvisits
    have hsame : t.sender = s.sender := by
      rw [hsender]
      change { s.sender with writer := .waitOnRead } = s.sender
      rw [← hwriter]
    refine ⟨t, hloop.trans hto, hqueued, hclosed, hsame, fun n hn hge => hway n ?_ ?_⟩
    · rwa [hsame] at hn
    · rwa [low, hsame] at hge

/-! ### The write thread goes on -/

/-- The front block is one of the data, if enough blocks are left or the marker is not there yet. -/
theorem Live.front_open (h : s.Live) (hwriter : s.sender.writer = .sendPacket)
    (hmore : s.closed = true → s.low + 6 ≤ s.queued.length) :
    ∃ block, s.sender.sendingBuffer.peekChunk = some block ∧ ¬ block.Closing := by
  have hlt := h.front hwriter
  have hpopped := h.close.inv.sender.popped (by rw [GbnSocket.Closing, hwriter]; simp)
  have hroom : s.sender.sendingWindow.size.toNat < 6 := by
    have hfits := h.close.inv.sender.writer
    rwa [WriterFits, hwriter] at hfits
  have hpeek := List.getElem?_eq_getElem hlt
  refine ⟨_, hpeek, fun hclosing => ?_⟩
  have hend := (h.close.inv.sender.queue.closing_iff hpeek).1 hclosing
  cases hclosed : s.closed with
  | true =>
      have hmany := hmore hclosed
      rw [low] at hmany
      omega
  | false =>
      have hpushed := h.close.inv.sender.queue.opened hclosed
      omega

/-- One block more is in the window, and on its way. -/
structure Sent (s t : Protocol) : Prop where
  queued : t.queued = s.queued
  closed : t.closed = s.closed
  writer : t.sender.writer = .isWinFullQ
  seqNumber : t.sender.seqNumber.toNat = s.sender.seqNumber.toNat + 1
  size : t.sender.sendingWindow.size.toNat = s.sender.sendingWindow.size.toNat + 1
  onWay : s.WindowOnWay → t.WindowOnWay

theorem Live.sendBlock (h : s.Live) (hbound : s.queued.length < 2 ^ 32)
    (hwriter : s.sender.writer = .sendPacket) {block : DataBlock Ref}
    (hpeek : s.sender.sendingBuffer.peekChunk = some block) (hopen : ¬ block.Closing) :
    ∃ t, s.Continuation t ∧ s.Sent t := by
  have hlt := (h.close.inv.sender.front hwriter hpeek hopen).2.1
  have hroom : s.sender.sendingWindow.size.toNat < 6 := by
    have hfits := h.close.inv.sender.writer
    rwa [WriterFits, hwriter] at hfits
  have hdrained : s.Drained (.senderWriter false (keptJunk [])) := by
    change s.WriterDrained _ s.sender.writer
    rw [hwriter]
    intro found hfound hclosing
    rw [Option.mem_def, hpeek, Option.some.injEq] at hfound
    exact absurd (hfound ▸ hclosing) hopen
  have hstep : s.step (.senderWriter false (keptJunk [])) = some { s with
      sender := (s.sender.popped.sendBlock (keptJunk []) block).1
      toReceiver := s.toReceiver ++ (s.sender.popped.sendBlock (keptJunk []) block).2 } := by
    rw [Protocol.step, GbnSocket.writerStep, hwriter]
    simp only [GbnSocket.sendPacket, hpeek, Option.map_some]
    rw [if_neg (show ¬ block.flags &&& isClosing ≠ 0 from hopen)]
    rfl
  have hseq : (s.sender.seqNumber + 1).toNat = s.sender.seqNumber.toNat + 1 := by
    rw [UInt32.toNat_add]
    exact Nat.mod_eq_of_lt (by change _ + 1 < 2 ^ 32; omega)
  have hsize : (s.sender.sendingWindow.size + 1).toNat = s.sender.sendingWindow.size.toNat + 1 := by
    rw [UInt8.toNat_add]
    exact Nat.mod_eq_of_lt (by change _ + 1 < 256; omega)
  refine ⟨_, h.continues hbound (a := .senderWriter false (keptJunk [])) ⟨trivial, trivial, hdrained⟩ hstep,
    rfl, rfl, rfl, hseq, hsize, fun hway n hn hge => ?_⟩
  change n < (s.sender.seqNumber + 1).toNat at hn
  change (s.sender.seqNumber + 1).toNat - (s.sender.sendingWindow.size + 1).toNat ≤ n at hge
  by_cases hlast : n = s.sender.seqNumber.toNat
  · exact ⟨_, List.mem_append_right _ (List.mem_singleton_self _), rfl, hlast.symm⟩
  · exact (hway n (by omega) (by rw [low]; omega)).mono (List.subset_append_left _ _)

theorem Live.takeMarker (h : s.Live) (hbound : s.queued.length < 2 ^ 32)
    (hwriter : s.sender.writer = .sendPacket) (hsize : s.sender.sendingWindow.size = 0)
    {block : DataBlock Ref} (hpeek : s.sender.sendingBuffer.peekChunk = some block)
    (hclosing : block.Closing) :
    ∃ t, s.Continuation t ∧ t.queued = s.queued ∧ t.closed = s.closed ∧
      t.sender.writer = .closeConnection := by
  have hdrained : s.Drained (.senderWriter false (keptJunk [])) := by
    change s.WriterDrained _ s.sender.writer
    rw [hwriter]
    exact fun _ _ _ => hsize
  have hstep : s.step (.senderWriter false (keptJunk [])) = some { s with
      sender := { s.sender.popped with writer := .closeConnection }
      toReceiver := s.toReceiver ++ [] } := by
    rw [Protocol.step, GbnSocket.writerStep, hwriter]
    simp only [GbnSocket.sendPacket, hpeek, Option.map_some]
    rw [if_pos (show block.flags &&& isClosing ≠ 0 from hclosing)]
    rfl
  exact ⟨_, h.continues hbound (a := .senderWriter false (keptJunk [])) ⟨trivial, trivial, hdrained⟩ hstep,
    rfl, rfl, rfl⟩

/-- From `is_win_full_q` the write thread sends until the window is full or nothing is queued. -/
theorem Live.fill (h : s.Live) (hbound : s.queued.length < 2 ^ 32)
    (hwriter : s.sender.writer = .isWinFullQ) (hmore : s.closed = true → s.low + 6 ≤ s.queued.length) :
    ∃ t, s.Continuation t ∧ t.queued = s.queued ∧ t.closed = s.closed ∧ t.sender.writer = .waitOnRead := by
  obtain ⟨left, hleft⟩ : ∃ left, left = 6 - s.sender.sendingWindow.size.toNat := ⟨_, rfl⟩
  induction left generalizing s with
  | zero =>
      have hfull : ¬ (s.sender.sendingWindow.size < 6 ∧ ¬ s.sender.sendingBuffer.isEmpty) := by
        intro hroom
        have hlt := UInt8.lt_iff_toNat_lt.1 hroom.1
        change _ < 6 at hlt
        omega
      exact ⟨_, h.turn hbound false .waitOnRead (by simp [hwriter]) (by simp [hwriter])
        (by rw [GbnSocket.writerStep, hwriter]; exact if_neg hfull), rfl, rfl, rfl⟩
  | succ left ih =>
      by_cases hroom : s.sender.sendingWindow.size < 6 ∧ ¬ s.sender.sendingBuffer.isEmpty
      · have hturn : s.Continuation (s.withWriter .sendPacket) :=
          h.turn hbound false .sendPacket (by simp [hwriter]) (by simp [hwriter])
            (by rw [GbnSocket.writerStep, hwriter]; exact if_pos hroom)
        obtain ⟨block, hpeek, hopen⟩ := hturn.2.front_open rfl hmore
        obtain ⟨t, hto, hsent⟩ := hturn.2.sendBlock hbound rfl hpeek hopen
        have hseq : t.sender.seqNumber.toNat = s.sender.seqNumber.toNat + 1 := hsent.seqNumber
        have hsize : t.sender.sendingWindow.size.toNat = s.sender.sendingWindow.size.toNat + 1 := hsent.size
        have hqueued : t.queued = s.queued := hsent.queued
        have hclosed : t.closed = s.closed := hsent.closed
        obtain ⟨u, hto', hqueued', hclosed', hwaits⟩ := ih hto.2 (by rwa [hqueued]) hsent.writer
          (fun hend => by
            have hmany := hmore (hclosed ▸ hend)
            rw [low] at hmany ⊢
            rw [hqueued]
            omega)
          (by omega)
        exact ⟨u, hturn.trans (hto.trans hto'), hqueued'.trans hqueued, hclosed'.trans hclosed, hwaits⟩
      · exact ⟨_, h.turn hbound false .waitOnRead (by simp [hwriter]) (by simp [hwriter])
          (by rw [GbnSocket.writerStep, hwriter]; exact if_neg hroom), rfl, rfl, rfl⟩

/-- The write thread gets to wait for acknowledgements. -/
theorem Live.toWait (h : s.Live) (hbound : s.queued.length < 2 ^ 32) (hclosing : ¬ s.sender.Closing)
    (hsize : s.sender.sendingWindow.size ≠ 0)
    (hmore : s.closed = true → s.sender.writer.Sends → s.low + 6 ≤ s.queued.length) :
    ∃ t, s.Continuation t ∧ t.queued = s.queued ∧ t.closed = s.closed ∧ t.sender.writer = .waitOnRead := by
  cases hwriter : s.sender.writer with
  | windowEmptyQ =>
      rw [hwriter] at hmore
      have hturn : s.Continuation (s.withWriter .isWinFullQ) :=
        h.turn hbound false _ (by simp [hwriter]) (by simp [hwriter])
          (by rw [GbnSocket.writerStep, hwriter]; exact if_neg hsize)
      obtain ⟨t, hto, hrest⟩ := hturn.2.fill hbound rfl fun hend => hmore hend trivial
      exact ⟨t, hturn.trans hto, hrest⟩
  | blockOnQueue => exact absurd (h.idle hwriter) hsize
  | sendPacket =>
      rw [hwriter] at hmore
      obtain ⟨block, hpeek, hopen⟩ := h.front_open hwriter fun hend => hmore hend trivial
      obtain ⟨t, hto, hsent⟩ := h.sendBlock hbound hwriter hpeek hopen
      obtain ⟨u, hto', hqueued, hclosed, hwaits⟩ := hto.2.fill (by rwa [hsent.queued]) hsent.writer fun hend => by
        have hmany := hmore (hsent.closed ▸ hend) trivial
        have hseq := hsent.seqNumber
        have hgrown := hsent.size
        rw [low] at hmany ⊢
        rw [hsent.queued]
        omega
      exact ⟨u, hto.trans hto', hqueued.trans hsent.queued, hclosed.trans hsent.closed, hwaits⟩
  | isWinFullQ =>
      rw [hwriter] at hmore
      exact h.fill hbound hwriter fun hend => hmore hend trivial
  | waitOnRead => exact ⟨s, h.stays, rfl, rfl, hwriter⟩
  | retransmit =>
      have hloop : s.Continuation
          (s.withWriter (.retransmitFrom (Fin.ofNat 6 s.sender.sendingWindow.head.toNat))) :=
        h.turn hbound false _ (by simp [hwriter]) (by simp [hwriter])
          (by rw [GbnSocket.writerStep, hwriter]; exact if_neg hsize)
      obtain ⟨t, hto, hqueued, hclosed, hsender, -⟩ :=
        hloop.2.leaveLoop hbound rfl (h.close.inv.sender.window.visits hsize)
      exact ⟨t, hloop.trans hto, hqueued, hclosed, by rw [hsender]⟩
  | retransmitFrom i =>
      have hfits := h.close.inv.sender.writer
      rw [WriterFits, hwriter] at hfits
      obtain ⟨left, hvisits⟩ := hfits
      obtain ⟨t, hto, hqueued, hclosed, hsender, -⟩ := h.leaveLoop hbound hwriter hvisits
      exact ⟨t, hto, hqueued, hclosed, by rw [hsender]⟩
  | closeConnection => exact absurd (Or.inl hwriter) hclosing
  | stopped => exact absurd (Or.inr hwriter) hclosing

/-- Everything that was sent is acknowledged, and the write thread goes on. -/
structure Settled (s : Protocol) : Prop where
  empty : s.sender.sendingWindow.size = 0
  going : ¬ s.sender.Closing

theorem Live.settle (h : s.Live) (hbound : s.queued.length + 5 < 2 ^ 32) (hclosing : ¬ s.sender.Closing)
    (hrecovers : s.Recovers) :
    ∃ t, s.Continuation t ∧ t.queued = s.queued ∧ t.closed = s.closed ∧ t.Settled := by
  by_cases hway : s.WindowOnWay
  · obtain ⟨t, hto, hqueued, hclosed, hwriter, -, -, hsize⟩ :=
      h.clear hbound (fun hend => hclosing (Or.inr hend)) hway
    exact ⟨t, hto, hqueued, hclosed, hsize, by rwa [GbnSocket.Closing, hwriter]⟩
  · have hsize : s.sender.sendingWindow.size ≠ 0 := by
      intro hzero
      refine hway fun n hn hge => ?_
      rw [low, hzero] at hge
      exact absurd hn (not_lt.2 hge)
    obtain ⟨t, hto, hqueued, hclosed, hwaits⟩ := h.toWait (by omega) hclosing hsize
      fun hend hsends => ((hrecovers hend).1 hsends).resolve_left hway
    obtain ⟨u, hto', hqueued', hclosed', hsender, hway'⟩ := hto.2.resend (by rw [hqueued]; omega) hwaits
    have hwaits' : u.sender.writer = .waitOnRead := by rwa [hsender]
    obtain ⟨v, hto'', hqueued'', hclosed'', hwriter, -, -, hempty⟩ :=
      hto'.2.clear (by rwa [hqueued', hqueued]) (by simp [hwaits']) hway'
    exact ⟨v, hto.trans (hto'.trans hto''), hqueued''.trans (hqueued'.trans hqueued),
      hclosed''.trans (hclosed'.trans hclosed), hempty, by simp [GbnSocket.Closing, hwriter, hwaits']⟩

theorem Live.toSend (h : s.Live) (hbound : s.queued.length < 2 ^ 32) (hsettled : s.Settled)
    {block : DataBlock Ref} (hpeek : s.sender.sendingBuffer.peekChunk = some block) :
    ∃ t, s.Continuation t ∧ t.queued = s.queued ∧ t.closed = s.closed ∧
      t.sender = { s.sender with writer := .sendPacket } := by
  have hsize := hsettled.empty
  have fromBlock : ∀ {s : Protocol}, s.Live → s.queued.length < 2 ^ 32 →
      s.sender.sendingBuffer.peekChunk = some block → s.sender.writer = .blockOnQueue →
      s.Continuation (s.withWriter .sendPacket) := fun h hbound hpeek hwriter =>
    h.turn hbound false .sendPacket (by simp [hwriter]) (by simp [hwriter])
      (by rw [GbnSocket.writerStep, hwriter]; simp only [hpeek, Option.map_some])
  have fromEmpty : ∀ {s : Protocol}, s.Live → s.queued.length < 2 ^ 32 →
      s.sender.sendingBuffer.peekChunk = some block → s.sender.sendingWindow.size = 0 →
      s.sender.writer = .windowEmptyQ → s.Continuation (s.withWriter .sendPacket) := by
    intro s h hbound hpeek hsize hwriter
    have hturn : s.Continuation (s.withWriter .blockOnQueue) :=
      h.turn hbound false .blockOnQueue (by simp [hwriter]) (by simp [hwriter])
        (by rw [GbnSocket.writerStep, hwriter]; exact if_pos hsize)
    exact hturn.trans (fromBlock hturn.2 hbound hpeek rfl)
  have fromWait : ∀ {s : Protocol}, s.Live → s.queued.length < 2 ^ 32 →
      s.sender.sendingBuffer.peekChunk = some block → s.sender.sendingWindow.size = 0 →
      s.sender.writer = .waitOnRead → s.Continuation (s.withWriter .sendPacket) := by
    intro s h hbound hpeek hsize hwriter
    have hturn : s.Continuation (s.withWriter .windowEmptyQ) :=
      h.turn hbound false .windowEmptyQ (by simp [hwriter]) (by simp [hwriter])
        (by rw [GbnSocket.writerStep, hwriter]; rfl)
    exact hturn.trans (fromEmpty hturn.2 hbound hpeek hsize rfl)
  cases hwriter : s.sender.writer with
  | windowEmptyQ => exact ⟨_, fromEmpty h hbound hpeek hsize hwriter, rfl, rfl, rfl⟩
  | blockOnQueue => exact ⟨_, fromBlock h hbound hpeek hwriter, rfl, rfl, rfl⟩
  | sendPacket => exact ⟨s, h.stays, rfl, rfl, by rw [← hwriter]⟩
  | isWinFullQ =>
      have hroom : s.sender.sendingWindow.size < 6 ∧ ¬ s.sender.sendingBuffer.isEmpty := by
        have hlt := BlockQueue.peekChunk_lt hpeek
        refine ⟨by rw [hsize]; decide, ?_⟩
        rw [BlockQueue.isEmpty, decide_eq_true_eq]
        omega
      exact ⟨_, h.turn hbound false .sendPacket (by simp [hwriter]) (by simp [hwriter])
        (by rw [GbnSocket.writerStep, hwriter]; exact if_pos hroom), rfl, rfl, rfl⟩
  | waitOnRead => exact ⟨_, fromWait h hbound hpeek hsize hwriter, rfl, rfl, rfl⟩
  | retransmit =>
      have hturn : s.Continuation (s.withWriter .waitOnRead) :=
        h.turn hbound false .waitOnRead (by simp [hwriter]) (by simp [hwriter])
          (by rw [GbnSocket.writerStep, hwriter]; exact if_pos hsize)
      exact ⟨_, hturn.trans (fromWait hturn.2 hbound hpeek hsize rfl), rfl, rfl, rfl⟩
  | retransmitFrom i =>
      have hfits := h.close.inv.sender.writer
      rw [WriterFits, hwriter] at hfits
      obtain ⟨left, hvisits⟩ := hfits
      obtain ⟨t, hto, hqueued, hclosed, hsender, -⟩ := h.leaveLoop hbound hwriter hvisits
      have hrest := fromWait hto.2 (by rwa [hqueued]) (by rwa [hsender]) (by rwa [hsender]) (by rw [hsender])
      exact ⟨_, hto.trans hrest, hqueued, hclosed, by rw [withWriter, hsender]⟩
  | closeConnection => exact absurd (Or.inl hwriter) hsettled.going
  | stopped => exact absurd (Or.inr hwriter) hsettled.going

/-- One block more is sent, or the marker is taken, once everything before it is acknowledged. -/
theorem Live.advance (h : s.Live) (hbound : s.queued.length + 5 < 2 ^ 32) (hclosed : s.closed = true)
    (hsettled : s.Settled) :
    ∃ t, s.Continuation t ∧ t.queued = s.queued ∧ t.closed = true ∧
      (t.sender.writer = .closeConnection ∨
        t.Settled ∧ t.sender.seqNumber.toNat = s.sender.seqNumber.toNat + 1) := by
  -- the marker is behind the last block, so there is a block to take
  have hlt : s.sender.sendingBuffer.popped < s.sender.sendingBuffer.pushed.length := by
    rw [h.close.inv.sender.popped hsettled.going]
    exact h.close.inv.sender.sent.trans_lt (h.marked hclosed)
  obtain ⟨block, hpeek⟩ : ∃ block, s.sender.sendingBuffer.peekChunk = some block :=
    ⟨_, List.getElem?_eq_getElem hlt⟩
  obtain ⟨t, hto, hqueued, hclosed', hsender⟩ := h.toSend (by omega) hsettled hpeek
  have hpeek' : t.sender.sendingBuffer.peekChunk = some block := by rw [hsender]; exact hpeek
  have hsize : t.sender.sendingWindow.size = 0 := by rw [hsender]; exact hsettled.empty
  have hbound' : t.queued.length < 2 ^ 32 := by rw [hqueued]; omega
  by_cases hclosing : block.Closing
  · obtain ⟨u, hto', hqueued', hclosed'', hends⟩ :=
      hto.2.takeMarker hbound' (by rw [hsender]) hsize hpeek' hclosing
    exact ⟨u, hto.trans hto', hqueued'.trans hqueued, hclosed''.trans (hclosed'.trans hclosed), Or.inl hends⟩
  · obtain ⟨u, hto', hsent⟩ := hto.2.sendBlock hbound' (by rw [hsender]) hpeek' hclosing
    have hway : t.WindowOnWay := fun n hn hge => by
      rw [low, hsize] at hge
      exact absurd hn (not_lt.2 hge)
    have hwriter := hsent.writer
    obtain ⟨v, hto'', hqueued'', hclosed'', hwriter', hseq, -, hempty⟩ :=
      hto'.2.clear (by rwa [hsent.queued, hqueued]) (by simp [hwriter]) (hsent.onWay hway)
    refine ⟨v, hto.trans (hto'.trans hto''), hqueued''.trans (hsent.queued.trans hqueued),
      hclosed''.trans (hsent.closed.trans (hclosed'.trans hclosed)),
      Or.inr ⟨⟨hempty, by simp [GbnSocket.Closing, hwriter', hwriter]⟩, ?_⟩⟩
    rw [hseq, hsent.seqNumber, hsender]

theorem Live.finish (h : s.Live) (hbound : s.queued.length < 2 ^ 32) (hclosing : s.sender.Closing)
    (hrecovers : s.Recovers) : ∃ t, s.Continuation t ∧ t.receiver.readStatus = .closed := by
  have fromStopped : ∀ {s : Protocol}, s.Live → s.queued.length < 2 ^ 32 → s.sender.writer = .stopped →
      (s.receiver.readStatus = .closed ∨ ∃ d ∈ s.toReceiver, d.type = .eof) →
      ∃ t, s.Continuation t ∧ t.receiver.readStatus = .closed := by
    intro s h hbound hwriter hends
    cases hstatus : s.receiver.readStatus with
    | closed => exact ⟨s, h.stays, hstatus⟩
    | opened =>
        obtain ⟨d, hd, heof⟩ := hends.resolve_left (by simp [hstatus])
        have hreading : s.receiver.reading = true := by
          cases hreads : s.receiver.reading with
          | true => rfl
          | false => exact absurd (hstatus.symm.trans (h.receiving hreads)) (by simp)
        have hstep : s.step (.receiverRead d) = some { s with
            receiver := (s.receiver.readThread d).1
            toSender := s.toSender ++ (s.receiver.readThread d).2 } := if_pos ⟨hd, hreading⟩
        refine ⟨_, h.continues hbound (a := .receiverRead d)
          ⟨trivial, fun hdata => absurd (hdata.symm.trans heof) (by simp), trivial⟩ hstep, ?_⟩
        have hopen : ¬ (s.receiver.readStatus = .closed ∧ s.receiver.receiveWindow.size = 0) := by
          simp [hstatus]
        simp only [GbnSocket.readThread, if_neg hopen, heof]
        rfl
  rcases hclosing with hwriter | hwriter
  · have hdrained : s.Drained (.senderWriter false (keptJunk [])) := by
      change s.WriterDrained _ s.sender.writer
      rw [hwriter]
      trivial
    have hstep : s.step (.senderWriter false (keptJunk [])) = some { s with
        sender := { s.sender with writer := .stopped }
        toReceiver := s.toReceiver ++ [GbnSocket.eofDatagram] } := by
      rw [Protocol.step, GbnSocket.writerStep, hwriter]
      rfl
    have hnext := h.continues hbound (a := .senderWriter false (keptJunk []))
      ⟨trivial, trivial, hdrained⟩ hstep
    obtain ⟨t, hreach, hend⟩ := fromStopped hnext.2 hbound rfl
      (Or.inr ⟨_, List.mem_append_right _ (List.mem_singleton_self _), rfl⟩)
    exact ⟨t, hnext.trans hreach, hend⟩
  · exact fromStopped h hbound hwriter
      ((hrecovers (h.close.inv.sender.closing (Or.inr hwriter))).2 hwriter)

theorem Live.complete (h : s.Live) (hbound : s.queued.length + 5 < 2 ^ 32) (hclosed : s.closed = true)
    (hsettled : s.Settled) : ∃ t, s.Continuation t ∧ t.receiver.readStatus = .closed := by
  obtain ⟨t, hreach, ⟨hlive, hqueued, hclosed', hstate⟩, hend⟩ :=
    protocol.exists_reaches_of_measure (C := Continues)
    (I := fun t => t.Live ∧ t.queued = s.queued ∧ t.closed = true ∧
      (t.sender.writer = .closeConnection ∨ t.Settled))
    (P := fun t => t.sender.writer = .closeConnection)
    (fun t => if t.sender.writer = .closeConnection then 0 else t.queued.length - t.sender.seqNumber.toNat + 1)
    (fun t ht hgoing => by
      obtain ⟨hlive, hqueued, hclosed, hstate⟩ := ht
      obtain ⟨u, hreach, hqueued', hclosed', hends⟩ :=
        hlive.advance (by rwa [hqueued]) hclosed (hstate.resolve_left hgoing)
      refine ⟨u, hreach.1, ⟨hreach.2, hqueued'.trans hqueued, hclosed', hends.imp_right And.left⟩, ?_⟩
      have hsent := hreach.2.close.inv.sender.sent
      simp only [if_neg hgoing]
      rcases hends with hend | ⟨hsettled, hseq⟩
      · rw [if_pos hend]
        exact Nat.succ_pos _
      · rw [if_neg fun hend => hsettled.going (Or.inl hend), hqueued', hseq]
        rw [hqueued', hseq] at hsent
        omega)
    ⟨h, rfl, hclosed, Or.inr hsettled⟩
  obtain ⟨u, hreach', hend'⟩ := hlive.finish (by rw [hqueued]; omega) (Or.inl hend) fun _ =>
    ⟨fun hsends => absurd hsends (by rw [hend]; exact id), fun hstopped => by rw [hend] at hstopped; cases hstopped⟩
  exact ⟨u, Continuation.trans ⟨hreach, hlive⟩ hreach', hend'⟩

end Way

end Protocol

/-! ### The transfer comes to its end -/

namespace FileTransfer

section Way

variable {file : Bytes} {s next : FileTransfer}

theorem Going.reaches (h : s.Going file) (hfile : (GbnSocket.writeBlocks file).length < 2 ^ 32)
    (hreach : lossyTransfer.Reaches KeepsLossy s next) :
    next.Going file ∧ (¬ s.protocol.Recovers → ¬ next.protocol.Recovers) := by
  obtain ⟨as, hwithin, hrun⟩ := hreach
  exact lossyTransfer.invariant_of_within
    (I := fun t => t.Going file ∧ (¬ s.protocol.Recovers → ¬ t.protocol.Recovers))
    (fun _ _ _ hI hC hstep => ⟨hI.1.lossy hfile hC hstep, fun hlost =>
      hI.1.not_recovers hfile hC hstep (hI.2 hlost)⟩) ⟨h, id⟩ hwithin hrun

/-- A step whose datagrams are not dropped. -/
theorem reaches_step {a : TransferAction} (hkeeps : s.Keeps a) (hstep : s.step a = some next) :
    lossyTransfer.Reaches KeepsLossy s next := by
  have hlossy : s.KeepsLossy (a, false) := hkeeps
  refine .single hlossy ?_
  change (s.step a).map _ = _
  rw [hstep]
  rfl

theorem reaches_of_protocol {p : Protocol}
    (h : NetworkSystems.Gbn.protocol.Reaches Protocol.Continues s.protocol p) :
    lossyTransfer.Reaches KeepsLossy s { s with protocol := p } := by
  obtain ⟨as, hwithin, hrun⟩ := h
  induction as generalizing s with
  | nil =>
      obtain rfl := Option.some.inj hrun
      exact .refl
  | cons a as ih =>
      obtain ⟨mid, hmid, hrest⟩ := NetworkSystems.Gbn.protocol.run_cons_eq_some.1 hrun
      obtain ⟨⟨ha, hsound, hdrained⟩, hwithin⟩ := hwithin
      have hkeeps : s.Keeps (.thread a) := ⟨hsound, hdrained⟩
      have hstep : s.step (.thread a) = some { s with protocol := mid } := by
        rw [FileTransfer.step, if_pos ha]
        exact congrArg (Option.map _) hmid
      exact (reaches_step hkeeps hstep).trans
        (ih (s := { s with protocol := mid }) (hwithin mid hmid) hrest)

/-- The client writes the rest of its file and closes. -/
theorem Going.close (h : s.Going file) (hfile : (GbnSocket.writeBlocks file).length < 2 ^ 32)
    (hsettled : s.protocol.Settled) :
    ∃ t, lossyTransfer.Reaches KeepsLossy s t ∧ (t.Going file ∧ t.protocol.Settled) ∧
      t.protocol.closed = true := by
  refine lossyTransfer.exists_reaches_of_measure
    (fun s => if s.protocol.closed then 0 else s.unread.length + 1) (fun s hs hopen => ?_) ⟨h, hsettled⟩
  obtain ⟨h, hsettled⟩ := hs
  have hopen : s.protocol.closed = false := Bool.eq_false_iff.2 hopen
  have hto : ∀ {t}, s.client = some t → Protocol.Calls s.protocol.sender t.protocol.sender →
      lossyTransfer.Reaches KeepsLossy s t ∧ t.Going file ∧ t.protocol.Settled := fun {t} ht hcalls =>
    have hkeeps : s.Keeps .client := trivial
    have hreach := reaches_step hkeeps ht
    ⟨hreach, (h.reaches hfile hreach).1, by rw [hcalls.window]; exact hsettled.empty,
      by rw [GbnSocket.Closing, hcalls.writer]; exact hsettled.going⟩
  simp only [hopen, Bool.false_eq_true, if_false]
  by_cases hnil : s.unread = []
  · obtain ⟨hreach, hgoing⟩ := hto (t := { s with
        protocol := { s.protocol with sender := s.protocol.sender.close, closed := true } }) (by
      rw [FileTransfer.client, if_pos hnil]
      exact congrArg (Option.map _) (if_neg (by simp [hopen]))) (Protocol.calls_close _)
    exact ⟨_, hreach, hgoing, Nat.succ_pos _⟩
  · obtain ⟨hreach, hgoing⟩ := hto (t := { s with
        protocol := { s.protocol with
          sender := s.protocol.sender.write (s.unread.take readSize)
          queued := s.protocol.queued ++ GbnSocket.writeBlocks (s.unread.take readSize) }
        unread := s.unread.drop readSize }) (by
      rw [FileTransfer.client, if_neg hnil]
      exact congrArg (Option.map _) (if_neg (by simp [hopen]))) (Protocol.calls_write _ _)
    refine ⟨_, hreach, hgoing, ?_⟩
    have hpos := List.length_pos_iff.2 hnil
    simp only [hopen, Bool.false_eq_true, if_false, List.length_drop]
    change s.unread.length - 8192 + 1 < _
    omega

/-- The EOF is brought to the receiver. -/
theorem Going.deliver (h : s.Going file) (hfile : (GbnSocket.writeBlocks file).length + 5 < 2 ^ 32)
    (hrecovers : s.protocol.Recovers) :
    ∃ t, lossyTransfer.Reaches KeepsLossy s t ∧ t.Going file ∧ t.protocol.receiver.readStatus = .closed := by
  have hlt : (GbnSocket.writeBlocks file).length < 2 ^ 32 := by omega
  have hbound : ∀ {t : FileTransfer}, t.Going file → t.protocol.queued.length + 5 < 2 ^ 32 := fun ht => by
    have hle := ht.inv.queued_prefix.length_le
    omega
  by_cases hclosing : s.protocol.sender.Closing
  · obtain ⟨p, hp, hread⟩ := h.live.finish (h.inv.length_queued hlt) hclosing hrecovers
    have hreach := reaches_of_protocol hp.1
    exact ⟨_, hreach, (h.reaches hlt hreach).1, hread⟩
  · obtain ⟨p, hp, -, -, hsettled⟩ := h.live.settle (hbound h) hclosing hrecovers
    have hreach := reaches_of_protocol hp.1
    obtain ⟨t, hreach', ⟨hgoing, hsettled'⟩, hclosed⟩ :=
      Going.close (h.reaches hlt hreach).1 hlt hsettled
    obtain ⟨q, hq, hread⟩ := hgoing.live.complete (hbound hgoing) hclosed hsettled'
    have hreach'' := reaches_of_protocol hq.1
    exact ⟨_, hreach.trans (hreach'.trans hreach''), (hgoing.reaches hlt hreach'').1, hread⟩

theorem Going.serve (h : s.Going file) (hfile : (GbnSocket.writeBlocks file).length < 2 ^ 32)
    (hclosed : s.protocol.receiver.readStatus = .closed) (hrest : ¬ readSize ∣ file.length) :
    ∃ t, lossyTransfer.Reaches KeepsLossy s t ∧ t.Going file ∧ t.finished = true := by
  obtain ⟨t, hreach, ⟨hgoing, -⟩, hend⟩ := lossyTransfer.exists_reaches_of_measure (C := KeepsLossy)
    (I := fun s => s.Going file ∧ s.protocol.receiver.readStatus = .closed)
    (P := fun s => s.finished = true)
    (fun s => if s.finished then 0 else file.length - s.output.length + 1) (fun s hs hrunning => by
      obtain ⟨h, hclosed⟩ := hs
      have hrunning : s.finished = false := Bool.eq_false_iff.2 hrunning
      obtain ⟨bytes, sock, hread⟩ := h.inv.server.exists_read (h.inv.pushed_eq hclosed) hrest
      obtain ⟨t, ht, houtput, hfinished⟩ : ∃ t, s.server = some t ∧ t.output = s.output ++ bytes ∧
          t.finished = decide (bytes = []) := by
        rw [FileTransfer.server, if_neg (by simp [hrunning]), hread, Option.map_some]
        exact ⟨_, rfl, rfl, rfl⟩
      have hkeeps : s.Keeps .server := trivial
      have hreach := reaches_step hkeeps ht
      have hgoing := (h.reaches hfile hreach).1
      have hstill : t.protocol.receiver.readStatus = .closed := by
        obtain ⟨sock, hreads, hp, -⟩ := h.onlyReads ht
        obtain ⟨_, _, hsame⟩ := hreads.same
        rw [hp, hsame]
        exact hclosed
      refine ⟨t, hreach, ⟨hgoing, hstill⟩, ?_⟩
      simp only [hrunning, Bool.false_eq_true, if_false]
      by_cases hnil : bytes = []
      · rw [hfinished, decide_eq_true hnil, if_pos rfl]
        exact Nat.succ_pos _
      · have hle := hgoing.inv.server.output_prefix.length_le
        have hpos := List.length_pos_iff.2 hnil
        rw [houtput, List.length_append] at hle
        rw [hfinished, decide_eq_false hnil, if_neg Bool.false_ne_true, houtput, List.length_append]
        omega)
    ⟨h, hclosed⟩
  exact ⟨t, hreach, hgoing, hend⟩

end Way

end FileTransfer

/-- The first transmission of the only packet is dropped. -/
def droppedPacket : List (TransferAction × Bool) :=
  [(.client, false), (.thread (.senderWriter false fun _ _ => 0), false),
    (.thread (.senderWriter false fun _ _ => 0), false), (.thread (.senderWriter false fun _ _ => 0), true)]

/-- The packet is delivered and acknowledged, and then the EOF is dropped. -/
def droppedEof : List (TransferAction × Bool) :=
  (oneByteTransfer.take 9).map (·, false) ++ [(.thread (.senderWriter false fun _ _ => 0), true)]

end NetworkSystems.Gbn
