import NetworkSystems.Gbn.Close

/-!
# Waking the write thread

The two threads of one socket at the granularity of the mutex `_m_mutex`. `init_gbn_socket` locks it, so
the write thread holds it except inside `pthread_cond_timedwait`, and the ack case, which updates the
window first, has to wait for that call before it can signal. A signal that comes when the wait has
expired and the mutex is not yet taken back wakes nobody. The write thread does not look at the window
again: it goes on to `retransmit`, and if the window has become empty, back to `wait_on_read`, where
nothing is left to wake it.
-/

namespace NetworkSystems.Gbn

/-- Where the write thread is in `pthread_cond_timedwait`. -/
inductive TimedWait
  /-- Not in the call. It holds the mutex. -/
  | running
  | waiting
  /-- Woken by a signal. It has not taken the mutex back. -/
  | signalled
  /-- The time is over. It has not taken the mutex back. -/
  | expired
  deriving DecidableEq

/-- A socket, its two threads, and the datagrams on their way to it. -/
structure WaitForAck where
  sock : GbnSocket
  wait : TimedWait
  /-- The ack case has updated the window and has not signalled yet. -/
  poking : Bool
  network : List Datagram

/-- The ack case finds the packet in the window, so it will poke the writer. -/
def GbnSocket.Pokes (sock : GbnSocket) (incoming : Datagram) : Prop :=
  ¬ (sock.readStatus = .closed ∧ sock.receiveWindow.size = 0) ∧ incoming.type = .ack ∧
    sock.sendingWindow.getSendFrameIdDelta incoming.seqNumber + 1 ≠ -1

instance (sock : GbnSocket) (incoming : Datagram) : Decidable (sock.Pokes incoming) :=
  inferInstanceAs (Decidable (_ ∧ _))

namespace WaitForAck

inductive Action
  | write (bytes : Bytes)
  | close
  /-- A datagram from the peer enters the network. -/
  | arrive (datagram : Datagram)
  | lose (datagram : Datagram)
  /-- A state function of the write thread other than `wait_on_read`. -/
  | writer (junk : Junk)
  /-- `wait_on_read` releases the mutex. -/
  | release
  | expire
  /-- `wait_on_read` takes the mutex back and returns the next state. -/
  | reacquire (junk : Junk)
  /-- A pass of the read thread, in the ack case up to the signal. -/
  | read (datagram : Datagram)
  /-- The ack case locks the mutex, signals and unlocks. -/
  | signal

def initial : WaitForAck := ⟨initGbnSocket, .running, false, []⟩

def step (s : WaitForAck) : Action → Option WaitForAck
  | .write bytes => some { s with sock := s.sock.write bytes }
  | .close => some { s with sock := s.sock.close }
  | .arrive datagram => some { s with network := datagram :: s.network }
  | .lose datagram =>
      if s.network.contains datagram then some { s with network := s.network.erase datagram } else none
  | .writer junk =>
      if s.wait = .running ∧ s.sock.writer ≠ .waitOnRead then
        (s.sock.writerStep false junk).map fun next => { s with sock := next.1 }
      else none
  | .release =>
      if s.wait = .running ∧ s.sock.writer = .waitOnRead then some { s with wait := .waiting }
      else none
  | .expire => if s.wait = .waiting then some { s with wait := .expired } else none
  | .reacquire junk =>
      if s.wait = .signalled ∨ s.wait = .expired then
        (s.sock.writerStep (s.wait = .expired) junk).map fun next =>
          { s with sock := next.1, wait := .running }
      else none
  | .read datagram =>
      if ¬ s.poking ∧ s.network.contains datagram ∧ s.sock.reading then
        some { s with
          sock := (s.sock.readThread datagram).1
          poking := s.sock.Pokes datagram
          network := s.network.erase datagram }
      else none
  | .signal =>
      if s.poking ∧ s.wait ≠ .running then
        some { s with poking := false, wait := if s.wait = .waiting then .signalled else s.wait }
      else none

end WaitForAck

def waitForAck : Machine WaitForAck WaitForAck.Action := ⟨WaitForAck.step⟩

/-- `wait_on_read`, and `retransmit` with its loop. -/
def WriterState.Awaits : WriterState → Prop
  | .waitOnRead => True
  | .retransmit => True
  | .retransmitFrom _ => True
  | _ => False

/-- The write thread waits for an acknowledgement of nothing, and there is nobody to wake it. -/
structure WaitForAck.Stuck (s : WaitForAck) : Prop where
  writer : s.sock.writer.Awaits
  empty : s.sock.sendingWindow.size = 0
  noAck : ∀ datagram ∈ s.network, datagram.type ≠ .ack
  noStep : s.poking = false
  noWake : s.wait ≠ .signalled

/-- The signal does not fall between the end of the wait and the return of the mutex when the window is
empty. -/
def WaitForAck.Heard (s : WaitForAck) : WaitForAck.Action → Prop
  | .signal => s.wait = .expired → s.sock.sendingWindow.size ≠ 0
  | _ => True

instance (s : WaitForAck) : ∀ a, Decidable (s.Heard a)
  | .signal => inferInstanceAs (Decidable (_ → _))
  | .write _ | .close | .arrive _ | .lose _ | .writer _ | .release | .expire | .reacquire _
  | .read _ => isTrue trivial

/-! ### What a poke is for -/

/-- What the states of the write thread rely on, unless they are about to be woken: it stays with a full
or an empty window only where it has seen that. -/
def WriterState.Unpoked (size : UInt8) : WriterState → Prop
  | .blockOnQueue => size = 0
  | .sendPacket => size < 6
  | .isWinFullQ => size ≠ 0
  | .waitOnRead => size ≠ 0
  | .retransmit => size ≠ 0
  | .retransmitFrom _ => size ≠ 0
  | _ => True

theorem WriterState.Awaits.unpoked {state : WriterState} {size : UInt8} (h : state.Awaits) :
    state.Unpoked size ↔ size ≠ 0 := by
  cases state <;> first | exact Iff.rfl | exact absurd h id

theorem unpoked_of_move {sock next : GbnSocket} {junk : Junk} {out : List Datagram}
    (hmove : WriterMove sock junk next out) (h : sock.writer.Unpoked sock.sendingWindow.size) :
    next.writer.Unpoked next.sendingWindow.size := by
  cases hmove with
  | @idle state hidle =>
      change state.Unpoked sock.sendingWindow.size
      cases hwriter : sock.writer <;> rw [hwriter] at hidle h <;> cases hidle
      case windowEmptyQ.empty hsize => exact hsize
      case windowEmptyQ.nonempty hsize => exact hsize
      case blockOnQueue.block =>
        have hsize : sock.sendingWindow.size = 0 := h
        change sock.sendingWindow.size < 6
        rw [hsize]
        decide
      case isWinFullQ.room hsize => exact hsize
      case isWinFullQ.full => exact h
      case waitOnRead.signalled => trivial
      case waitOnRead.timedOut => exact h
      case retransmit.nothing hsize => exact absurd hsize h
      case retransmit.again hsize => exact hsize
  | closing => trivial
  | send hwriter =>
      rw [hwriter] at h
      have hroom : sock.sendingWindow.size.toNat < 6 := UInt8.lt_iff_toNat_lt.1 h
      change sock.sendingWindow.size + 1 ≠ 0
      intro hzero
      have := congrArg UInt8.toNat hzero
      rw [UInt8.toNat_add] at this
      simp at this
      omega
  | resend hwriter =>
      rw [hwriter] at h
      rw [GbnSocket.retransmitSlot]
      dsimp only
      split <;> exact h
  | eof => trivial

theorem readThread_window {sock : GbnSocket} {incoming : Datagram} (h : ¬ sock.Pokes incoming) :
    (sock.readThread incoming).1.sendingWindow = sock.sendingWindow := by
  rw [GbnSocket.readThread]
  split
  case isTrue => rfl
  case isFalse hopen =>
    cases htype : incoming.type with
    | ack =>
        apply GbnWindow.acknowledge_of_outside
        by_contra hne
        exact h ⟨hopen, htype, fun heq => hne (by omega)⟩
    | _ => rfl

namespace WaitForAck

variable {s t : WaitForAck} {a : Action}

/-- While the mutex is released the write thread is in `wait_on_read`, and in a state that relies on
something it has seen, it is right or about to be poked. -/
structure Inv (s : WaitForAck) : Prop where
  waits : s.wait ≠ .running → s.sock.writer = .waitOnRead
  poked : s.poking = false → s.wait ≠ .signalled → s.sock.writer.Unpoked s.sock.sendingWindow.size

theorem inv_initial : initial.Inv := ⟨fun h => absurd rfl h, fun _ _ => trivial⟩

theorem Inv.not_stuck (h : s.Inv) : ¬ s.Stuck := fun hstuck =>
  hstuck.writer.unpoked.1 (h.poked hstuck.noStep hstuck.noWake) hstuck.empty

inductive Moves (s : WaitForAck) (a : Action) : WaitForAck → Prop
  /-- The state of the write thread and its window stay as they are. -/
  | aside {t : WaitForAck} (hwriter : t.sock.writer = s.sock.writer)
      (hwindow : t.sock.sendingWindow = s.sock.sendingWindow)
      (hseq : t.sock.seqNumber = s.sock.seqNumber) (hwait : t.wait = s.wait)
      (hpoking : t.poking = s.poking)
      (hnetwork : ∀ datagram ∈ t.network, datagram ∈ s.network ∨ a = .arrive datagram) : Moves s a t
  | acked {t : WaitForAck} {datagram : Datagram} (hmem : datagram ∈ s.network)
      (hpokes : s.sock.Pokes datagram) (hwriter : t.sock.writer = s.sock.writer)
      (hwait : t.wait = s.wait) (hpoking : t.poking = true) : Moves s a t
  | writer {junk : Junk} {next : GbnSocket} {out : List Datagram} (hwait : s.wait = .running)
      (hwriter : s.sock.writer ≠ .waitOnRead)
      (hmove : WriterMove s.sock junk next out) : Moves s a { s with sock := next }
  | release (hwait : s.wait = .running) (hwriter : s.sock.writer = .waitOnRead) :
      Moves s a { s with wait := .waiting }
  | expire (hwait : s.wait = .waiting) : Moves s a { s with wait := .expired }
  | woken (hwait : s.wait = .signalled) :
      Moves s a { s with sock := { s.sock with writer := .windowEmptyQ }, wait := .running }
  | timedOut (hwait : s.wait = .expired) :
      Moves s a { s with sock := { s.sock with writer := .retransmit }, wait := .running }
  | signal (hpoking : s.poking = true) (hwait : s.wait = .waiting) :
      Moves s a { s with poking := false, wait := .signalled }
  /-- Nobody waits on the condition any more. -/
  | late (ha : a = .signal) (hpoking : s.poking = true)
      (hwait : s.wait = .signalled ∨ s.wait = .expired) : Moves s a { s with poking := false }

theorem readThread_seqNumber (sock : GbnSocket) (incoming : Datagram) :
    (sock.readThread incoming).1.seqNumber = sock.seqNumber := by
  rw [GbnSocket.readThread]
  split
  · rfl
  · cases incoming.type <;> rfl

theorem step_moves (hwaits : s.wait ≠ .running → s.sock.writer = .waitOnRead)
    (hstep : s.step a = some t) : s.Moves a t := by
  cases a with
  | write bytes =>
      obtain rfl := Option.some.inj hstep
      obtain ⟨hwindow, hseq, hwriter, -⟩ :=
        foldl_pushBlock_kept (GbnSocket.writeBlocks bytes) s.sock
      exact .aside hwriter hwindow hseq rfl rfl fun _ => Or.inl
  | close =>
      obtain rfl := Option.some.inj hstep
      obtain ⟨hwindow, hseq, hwriter⟩ := close_kept s.sock
      exact .aside hwriter hwindow hseq rfl rfl fun _ => Or.inl
  | arrive datagram =>
      obtain rfl := Option.some.inj hstep
      refine .aside rfl rfl rfl rfl rfl fun d hd => ?_
      rcases List.mem_cons.1 hd with rfl | hd
      · exact Or.inr rfl
      · exact Or.inl hd
  | lose datagram =>
      obtain ⟨-, hnext⟩ := Option.ite_none_right_eq_some.1 hstep
      obtain rfl := Option.some.inj hnext
      exact .aside rfl rfl rfl rfl rfl fun d hd => Or.inl (List.mem_of_mem_erase hd)
  | writer junk =>
      obtain ⟨⟨hwait, hstate⟩, hnext⟩ := Option.ite_none_right_eq_some.1 hstep
      obtain ⟨⟨next, out⟩, hwriter, rfl⟩ := Option.map_eq_some_iff.1 hnext
      exact .writer hwait hstate (writerMove_of_step hwriter)
  | release =>
      obtain ⟨⟨hwait, hwriter⟩, hnext⟩ := Option.ite_none_right_eq_some.1 hstep
      obtain rfl := Option.some.inj hnext
      exact .release hwait hwriter
  | expire =>
      obtain ⟨hwait, hnext⟩ := Option.ite_none_right_eq_some.1 hstep
      obtain rfl := Option.some.inj hnext
      exact .expire hwait
  | reacquire junk =>
      obtain ⟨hwait, hnext⟩ := Option.ite_none_right_eq_some.1 hstep
      obtain ⟨⟨next, out⟩, hwriter, rfl⟩ := Option.map_eq_some_iff.1 hnext
      have hstate : s.sock.writer = .waitOnRead := hwaits (by rcases hwait with h | h <;> simp [h])
      rw [GbnSocket.writerStep, hstate] at hwriter
      rcases hwait with hwait | hwait <;> simp only [hwait, reduceCtorEq, decide_false, decide_true,
        Bool.false_eq_true, if_true, if_false, Option.some.injEq, Prod.mk.injEq] at hwriter
      · obtain ⟨rfl, -⟩ := hwriter
        exact .woken hwait
      · obtain ⟨rfl, -⟩ := hwriter
        exact .timedOut hwait
  | read datagram =>
      obtain ⟨⟨hquiet, hmem, -⟩, hnext⟩ := Option.ite_none_right_eq_some.1 hstep
      obtain rfl := Option.some.inj hnext
      by_cases hpokes : s.sock.Pokes datagram
      · exact .acked (List.contains_iff_mem.1 hmem) hpokes (readThread_writer _ _) rfl (decide_eq_true hpokes)
      · refine .aside (readThread_writer _ _) (readThread_window hpokes) (readThread_seqNumber _ _)
          rfl ?_ fun d hd => Or.inl (List.mem_of_mem_erase hd)
        exact (decide_eq_false hpokes).trans (Bool.eq_false_iff.2 hquiet).symm
  | signal =>
      obtain ⟨⟨hpoking, hwait⟩, hnext⟩ := Option.ite_none_right_eq_some.1 hstep
      obtain rfl := Option.some.inj hnext
      by_cases hwaiting : s.wait = .waiting
      · rw [if_pos hwaiting]
        exact .signal hpoking hwaiting
      · rw [if_neg hwaiting]
        refine .late rfl hpoking ?_
        cases hw : s.wait <;> simp_all

theorem Inv.step (h : s.Inv) (hheard : s.Heard a) (hstep : s.step a = some t) : t.Inv := by
  cases step_moves h.waits hstep with
  | aside hwriter hwindow _ hwait hpoking =>
      refine ⟨fun hne => ?_, fun hquiet hne => ?_⟩
      · rw [hwriter]
        exact h.waits (hwait ▸ hne)
      · rw [hwriter, hwindow]
        exact h.poked (hpoking ▸ hquiet) (hwait ▸ hne)
  | acked _ _ hwriter hwait hpoking =>
      refine ⟨fun hne => ?_, fun hquiet _ => absurd (hquiet.symm.trans hpoking) (by simp)⟩
      rw [hwriter]
      exact h.waits (hwait ▸ hne)
  | writer hwait _ hmove =>
      exact ⟨fun hne => absurd hwait hne, fun hquiet hne => unpoked_of_move hmove (h.poked hquiet hne)⟩
  | release hwait hwriter =>
      exact ⟨fun _ => hwriter, fun hquiet _ => h.poked hquiet (by simp [hwait])⟩
  | expire hwait =>
      exact ⟨fun _ => h.waits (by simp [hwait]), fun hquiet _ => h.poked hquiet (by simp [hwait])⟩
  | woken => exact ⟨fun hne => absurd rfl hne, fun _ _ => trivial⟩
  | timedOut hwait =>
      refine ⟨fun hne => absurd rfl hne, fun hquiet _ => ?_⟩
      have hunpoked := h.poked hquiet (by simp [hwait])
      rw [h.waits (by simp [hwait])] at hunpoked
      exact hunpoked
  | signal hpoking hwait =>
      exact ⟨fun _ => h.waits (by simp [hwait]), fun _ hne => absurd rfl hne⟩
  | late ha hpoking hwait =>
      subst ha
      have hstate := h.waits (by rcases hwait with hw | hw <;> simp [hw])
      refine ⟨fun _ => hstate, fun _ hne => ?_⟩
      change s.sock.writer.Unpoked _
      rw [hstate]
      exact hheard (hwait.resolve_left hne)

/-- The two threads alone, with nothing arriving, can bring the write thread back to the state in which it
takes new data. -/
inductive GetsBack : WaitForAck → Prop
  | here {s : WaitForAck} (hwriter : s.sock.writer = .windowEmptyQ) : GetsBack s
  | writer {s t : WaitForAck} (junk : Junk) (hstep : s.step (.writer junk) = some t) (h : GetsBack t) :
      GetsBack s
  | release {s t : WaitForAck} (hstep : s.step .release = some t) (h : GetsBack t) : GetsBack s
  | reacquire {s t : WaitForAck} (junk : Junk) (hstep : s.step (.reacquire junk) = some t)
      (h : GetsBack t) : GetsBack s
  | signal {s t : WaitForAck} (hstep : s.step .signal = some t) (h : GetsBack t) : GetsBack s

theorem GetsBack.of_signalled (hwait : s.wait = .signalled) (hwriter : s.sock.writer = .waitOnRead)
    (junk : Junk) : s.GetsBack :=
  .reacquire junk (t := ⟨{ s.sock with writer := .windowEmptyQ }, .running, s.poking, s.network⟩)
    (by simp [WaitForAck.step, GbnSocket.writerStep, hwait, hwriter]) (.here rfl)

theorem GetsBack.of_waiting (hwait : s.wait = .waiting) (hwriter : s.sock.writer = .waitOnRead)
    (hpoking : s.poking = true) (junk : Junk) : s.GetsBack := by
  have hstep : s.step .signal = some { s with poking := false, wait := .signalled } := by
    simp [WaitForAck.step, hwait, hpoking]
  exact .signal hstep (.of_signalled rfl hwriter junk)

theorem GetsBack.of_running (hwait : s.wait = .running) (hwriter : s.sock.writer = .waitOnRead)
    (hpoking : s.poking = true) (junk : Junk) : s.GetsBack := by
  have hstep : s.step .release = some { s with wait := .waiting } := by
    simp [WaitForAck.step, hwait, hwriter]
  exact .release hstep (.of_waiting rfl hwriter hpoking junk)

theorem GetsBack.of_retransmit (hwait : s.wait = .running) (hwriter : s.sock.writer = .retransmit)
    (hempty : s.sock.sendingWindow.size = 0) (hpoking : s.poking = true) (junk : Junk) : s.GetsBack := by
  have hstep : s.step (.writer junk) =
      some { s with sock := { s.sock with writer := .waitOnRead } } := by
    simp [WaitForAck.step, GbnSocket.writerStep, hwait, hwriter, hempty]
  exact .writer junk hstep (.of_running hwait rfl hpoking junk)

/-- When everything is acknowledged, the write thread gets back from `wait_on_read` and `retransmit`. -/
theorem Inv.getsBack (h : s.Inv)
    (hwriter : s.sock.writer = .waitOnRead ∨ s.sock.writer = .retransmit)
    (hempty : s.sock.sendingWindow.size = 0) (junk : Junk) : s.GetsBack := by
  have hawaits : s.sock.writer.Awaits := by rcases hwriter with hw | hw <;> rw [hw] <;> trivial
  have hpoking : s.wait ≠ .signalled → s.poking = true := fun hne => by
    by_contra hquiet
    exact hawaits.unpoked.1 (h.poked (Bool.eq_false_iff.2 hquiet) hne) hempty
  cases hwait : s.wait with
  | running =>
      rcases hwriter with hwriter | hwriter
      · exact .of_running hwait hwriter (hpoking (by simp [hwait])) junk
      · exact .of_retransmit hwait hwriter hempty (hpoking (by simp [hwait])) junk
  | waiting => exact .of_waiting hwait (h.waits (by simp [hwait])) (hpoking (by simp [hwait])) junk
  | signalled => exact .of_signalled hwait (h.waits (by simp [hwait])) junk
  | expired =>
      have hstep : s.step (.reacquire junk) =
          some { s with sock := { s.sock with writer := .retransmit }, wait := .running } := by
        simp [WaitForAck.step, GbnSocket.writerStep, hwait, h.waits (by simp [hwait])]
      exact .reacquire junk hstep (.of_retransmit rfl rfl hempty (hpoking (by simp [hwait])) junk)

/-! ### A signal that nobody hears -/

theorem awaits_of_move {sock next : GbnSocket} {junk : Junk} {out : List Datagram}
    (hmove : WriterMove sock junk next out) (h : sock.writer.Awaits) (hne : sock.writer ≠ .waitOnRead) :
    next.writer.Awaits ∧ next.sendingWindow = sock.sendingWindow ∧
      next.seqNumber = sock.seqNumber := by
  cases hmove with
  | @idle state hidle =>
      refine ⟨?_, rfl, rfl⟩
      cases hwriter : sock.writer <;> rw [hwriter] at hidle h hne <;> cases hidle
      case retransmit.nothing => trivial
      case retransmit.again => trivial
      case waitOnRead.signalled => exact absurd rfl hne
      case waitOnRead.timedOut => trivial
      all_goals exact absurd h id
  | closing hwriter =>
      rw [hwriter] at h
      exact absurd h id
  | send hwriter =>
      rw [hwriter] at h
      exact absurd h id
  | resend =>
      refine ⟨?_, rfl, rfl⟩
      rw [GbnSocket.retransmitSlot]
      dsimp only
      split <;> trivial
  | eof hwriter =>
      rw [hwriter] at h
      exact absurd h id

/-- Only an acknowledgement that is yet to come can change anything for a write thread that is stuck, and
what is written meanwhile is not sent. -/
theorem Stuck.step (h : s.Stuck) (hwaits : s.wait ≠ .running → s.sock.writer = .waitOnRead)
    (hstep : s.step a = some t) (harrive : ∀ datagram, a = .arrive datagram → datagram.type ≠ .ack) :
    t.Stuck ∧ (t.wait ≠ .running → t.sock.writer = .waitOnRead) ∧
      t.sock.seqNumber = s.sock.seqNumber := by
  have hempty := h.empty
  cases step_moves hwaits hstep with
  | aside hwriter hwindow hseq hwait hpoking hnetwork =>
      refine ⟨⟨by rw [hwriter]; exact h.writer, by rw [hwindow]; exact hempty, fun d hd => ?_,
        hpoking.trans h.noStep, by rw [hwait]; exact h.noWake⟩, ?_, hseq⟩
      · rcases hnetwork d hd with hd | ha
        · exact h.noAck d hd
        · exact harrive d ha
      · rw [hwriter, hwait]
        exact hwaits
  | acked hmem hpokes => exact absurd hpokes.2.1 (h.noAck _ hmem)
  | writer hwait hstate hmove =>
      obtain ⟨hawaits, hwindow, hseq⟩ := awaits_of_move hmove h.writer hstate
      refine ⟨⟨hawaits, ?_, h.noAck, h.noStep, h.noWake⟩, fun hne => absurd hwait hne, hseq⟩
      rw [hwindow]
      exact hempty
  | release hwait hwriter =>
      exact ⟨⟨h.writer, hempty, h.noAck, h.noStep, by simp⟩, fun _ => hwriter, rfl⟩
  | expire hwait =>
      exact ⟨⟨h.writer, hempty, h.noAck, h.noStep, by simp⟩, fun _ => hwaits (by simp [hwait]), rfl⟩
  | woken hwait => exact absurd hwait h.noWake
  | timedOut => exact ⟨⟨trivial, hempty, h.noAck, h.noStep, by simp⟩, fun hne => absurd rfl hne, rfl⟩
  | signal hpoking => exact absurd (hpoking.symm.trans h.noStep) (by simp)
  | late _ hpoking => exact absurd (hpoking.symm.trans h.noStep) (by simp)

/-- So it remains, however much is written and however often the wait expires. -/
theorem Stuck.run {actions : List Action} (h : s.Stuck)
    (hwaits : s.wait ≠ .running → s.sock.writer = .waitOnRead)
    (hwithin : waitForAck.Within
      (fun _ a => ∀ datagram, a = .arrive datagram → datagram.type ≠ .ack) s actions)
    (hrun : waitForAck.run s actions = some t) : t.Stuck ∧ t.sock.seqNumber = s.sock.seqNumber := by
  have hend := waitForAck.invariant_of_within
    (I := fun u => u.Stuck ∧ (u.wait ≠ .running → u.sock.writer = .waitOnRead) ∧
      u.sock.seqNumber = s.sock.seqNumber)
    (fun u a v hu harrive hstep =>
      have ⟨hstuck, hwaits', hseq⟩ := hu.1.step hu.2.1 hstep harrive
      ⟨hstuck, hwaits', hseq.trans hu.2.2⟩)
    ⟨h, hwaits, rfl⟩ hwithin hrun
  exact ⟨hend.1, hend.2.2⟩

/-- A signal that comes too late for an empty window leaves the write thread stuck. -/
theorem Inv.stuck_of_unheard (h : s.Inv) (hheard : ¬ s.Heard .signal)
    (hnetwork : ∀ datagram ∈ s.network, datagram.type ≠ .ack) (hstep : s.step .signal = some t) :
    t.Stuck := by
  obtain ⟨hwait, hempty⟩ : s.wait = .expired ∧ s.sock.sendingWindow.size = 0 := by
    simpa [Heard] using hheard
  obtain ⟨-, hnext⟩ := Option.ite_none_right_eq_some.1 hstep
  obtain rfl := Option.some.inj hnext
  have hwriter := h.waits (by simp [hwait])
  exact ⟨by rw [hwriter]; trivial, hempty, hnetwork, rfl, by simp [hwait]⟩

end WaitForAck

/-- **The writer never gets stuck on an empty window**, in every run in which no signal comes between
the end of the wait and the return of the mutex when the window is empty. -/
theorem never_stuck_of_heard (actions : List WaitForAck.Action)
    (hwithin : waitForAck.Within WaitForAck.Heard WaitForAck.initial actions) :
    waitForAck.Throughout (fun s => ¬ s.Stuck) WaitForAck.initial actions :=
  waitForAck.throughout_of_within (fun _ _ _ hinv hheard hstep => hinv.step hheard hstep)
    (fun _ hinv => hinv.not_stuck) WaitForAck.inv_initial hwithin

/-- The steps of the write thread that send one byte and end in `wait_on_read` with the mutex released. -/
def sendOne : List WaitForAck.Action :=
  [.write [7], .writer fun _ _ => 0, .writer fun _ _ => 0, .writer fun _ _ => 0,
    .writer fun _ _ => 0, .release]

/-- The acknowledgement of the first packet. -/
def ackZero : Datagram := ⟨.ack, 0, 0, []⟩

/-- The wait expires once and the packet is sent again. Then it is acknowledged in time. -/
theorem never_stuck_of_heard_retransmitted : ∃ s,
    waitForAck.run WaitForAck.initial (sendOne ++ [.expire, .reacquire fun _ _ => 0, .writer fun _ _ => 0,
      .writer fun _ _ => 0, .release, .arrive ackZero, .read ackZero, .signal,
      .reacquire fun _ _ => 0]) = some s ∧
    s.sock.sendingWindow.size = 0 ∧ s.sock.writer = .windowEmptyQ ∧
    waitForAck.Throughout (fun s => ¬ s.Stuck) WaitForAck.initial (sendOne ++ [.expire,
      .reacquire fun _ _ => 0, .writer fun _ _ => 0, .writer fun _ _ => 0, .release, .arrive ackZero,
      .read ackZero, .signal, .reacquire fun _ _ => 0]) :=
  ⟨_, rfl, rfl, rfl, never_stuck_of_heard _ (by decide)⟩

def WaitForAck.Acknowledges (s : WaitForAck) (datagram : Datagram) : Prop :=
  datagram.type = .ack ∧ ∃ i < s.sock.sendingWindow.size.toNat,
    (s.sock.sendingWindow.frame i).seqNumber = datagram.seqNumber

/-- Whatever arrives or is read acknowledges a packet in the sending window. -/
def WaitForAck.CorrectAck (s : WaitForAck) : WaitForAck.Action → Prop
  | .arrive datagram => s.Acknowledges datagram
  | .read datagram => s.Acknowledges datagram
  | _ => True

instance (s : WaitForAck) (datagram : Datagram) : Decidable (s.Acknowledges datagram) :=
  inferInstanceAs (Decidable (_ ∧ _))

instance (s : WaitForAck) : ∀ a, Decidable (s.CorrectAck a)
  | .arrive datagram => inferInstanceAs (Decidable (s.Acknowledges datagram))
  | .read datagram => inferInstanceAs (Decidable (s.Acknowledges datagram))
  | .write _ | .close | .lose _ | .writer _ | .release | .expire | .reacquire _ | .signal =>
      isTrue trivial

/-- The packet arrives and is acknowledged while the wait expires. The window is emptied, the signal is
sent before the write thread has taken the mutex back, and nobody hears it. -/
theorem not_never_stuck : ¬ ∀ actions : List WaitForAck.Action,
    waitForAck.Within WaitForAck.CorrectAck WaitForAck.initial actions →
      waitForAck.Throughout (fun s => ¬ s.Stuck) WaitForAck.initial actions := by
  intro hclaim
  have hstuck := (hclaim (sendOne ++ [.arrive ackZero, .expire, .read ackZero, .signal])
    (by decide)).last rfl
  exact hstuck ⟨trivial, rfl, by decide, rfl, by decide⟩

end NetworkSystems.Gbn
