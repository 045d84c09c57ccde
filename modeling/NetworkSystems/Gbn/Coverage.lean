import NetworkSystems.Gbn.Sender
import NetworkSystems.Lib.Machine

/-!
# The loop of a retransmission

`retransmit` reads the head once and then goes from slot to slot until it comes to the tail, while the
read thread takes acknowledgements and moves the head. Head and tail are the same slot in an empty window
and in a full one, and the loop tests behind a pass: it makes as many passes as there were packets at its
start, and what has been acknowledged meanwhile is sent all the same.
-/

namespace NetworkSystems.Gbn

/-- A socket in the loop of `retransmit`, with what the loop has handed to `sendto`. -/
structure Resending where
  sock : GbnSocket
  sent : List Datagram

/-- A pass of the loop, or a pass of the read thread between two of them. -/
inductive ResendStep
  | pass (junk : Junk)
  | read (incoming : Datagram)

namespace Resending

def Running (s : Resending) : Prop := ∃ i, s.sock.writer = .retransmitFrom i

def step (s : Resending) : ResendStep → Option Resending
  | .pass junk =>
      match s.sock.writer with
      | .retransmitFrom i =>
          let passed := s.sock.retransmitSlot junk i
          some ⟨passed.1, s.sent ++ passed.2⟩
      | _ => none
  | .read incoming =>
      if s.sock.reading then some { s with sock := (s.sock.readThread incoming).1 } else none

/-- An acknowledgement is one of a packet that is in the window. -/
def AcksPacket (s : Resending) : ResendStep → Prop
  | .pass _ => True
  | .read incoming => incoming.type = .ack →
      ∃ d < s.sock.sendingWindow.size.toNat,
        incoming.seqNumber = (s.sock.sendingWindow.frame d).seqNumber

end Resending

def resending : Machine Resending ResendStep := ⟨Resending.step⟩

/-- The representation of a sending window: as many packets as its size says, with consecutive numbers,
from the head up to the tail. -/
structure GbnWindow.Consecutive (w : GbnWindow Ref) : Prop where
  head : w.head.toNat < 6
  size : w.size.toNat ≤ defaultQueueSize
  tail : w.tail.toNat = (w.head.toNat + w.size.toNat) % 6
  numbers : ∀ i < w.size.toNat, (w.frame i).seqNumber = (w.frame 0).seqNumber + UInt32.ofNat i

/-- What the loop has done for the packets that were in the window when it started: it has sent them once
each and in their order, up to where it stands, and it goes on until it has sent the last one. -/
structure Resent (sock : GbnSocket) (s : Resending) : Prop where
  bounded : s.sent.length ≤ sock.sendingWindow.size.toNat
  inOrder : ∀ k < s.sent.length, ∃ junk,
    s.sent[k]? = some (sock.serialize junk (sock.sendingWindow.frame k))
  running : s.Running ↔ s.sent.length < sock.sendingWindow.size.toNat
  enabled : s.Running → ∀ junk, (s.step (.pass junk)).isSome

/-- The packets that are in the window are among those that were in it and have been sent. -/
def Covered (sock : GbnSocket) (s : Resending) : Prop :=
  ∀ i < s.sock.sendingWindow.size.toNat, ∃ k < s.sent.length,
    s.sock.sendingWindow.frame i = sock.sendingWindow.frame k

namespace GbnWindow

variable {w : GbnWindow Ref}

/-- The window after an acknowledgement starts behind the packet that was acknowledged. -/
theorem Consecutive.acknowledge (h : w.Consecutive) {s : UInt32} {d : Nat} (hd : d < w.size.toNat)
    (hs : s = (w.frame d).seqNumber) :
    (w.acknowledge s).Consecutive ∧
      ∃ a, a + (w.acknowledge s).size.toNat = w.size.toNat ∧
        ∀ i, (w.acknowledge s).frame i = w.frame (a + i) := by
  rcases w.getSendFrameIdDelta_cases s with hout | ⟨e, he, hdelta, hseq, hbound⟩
  · rw [acknowledge_of_outside hout]
    exact ⟨h, 0, Nat.zero_add _, fun i => by rw [Nat.zero_add]⟩
  · have hsize := h.size
    simp only [defaultQueueSize] at hsize
    -- the test finds the packet at its own offset
    have hoffset : e = d := by
      have hlt := (w.frame 0).seqNumber.toNat_lt
      have hof : (UInt32.ofNat d).toNat = d :=
        UInt32.toNat_ofNat_of_lt' (by simp only [UInt32.size]; omega)
      rw [hs, h.numbers d hd, UInt32.toNat_add, hof] at hseq
      omega
    subst hoffset
    obtain ⟨hhead', hsize', htail, hframe⟩ := acknowledge_inside hdelta hd h.head hsize
    have hhead := h.head
    refine ⟨⟨by omega, by simp only [defaultQueueSize]; omega, ?_, fun i hi => ?_⟩, e + 1, by omega,
      hframe⟩
    · rw [htail, hhead', hsize', h.tail]
      omega
    · rw [hframe, hframe, h.numbers _ (by omega), Nat.add_zero, h.numbers (e + 1) (by omega),
        UInt32.add_assoc, ← UInt32.ofNat_add]

theorem ofNat_slot_succ (w : GbnWindow Ref) (k : Nat) :
    Fin.ofNat 6 ((w.slot k).val + 1) = w.slot (k + 1) := by
  apply Fin.ext
  rw [Fin.val_ofNat, slot_val, slot_val]
  omega

theorem Consecutive.slot_eq_tail (h : w.Consecutive) {k : Nat} (hk : k < w.size.toNat) :
    (w.slot (k + 1)).val = w.tail.toNat ↔ k + 1 = w.size.toNat := by
  have hhead := h.head
  have hsize := h.size
  simp only [defaultQueueSize] at hsize
  rw [slot_val, h.tail]
  omega

end GbnWindow

/-- Where the loop stands, whatever the read thread does. -/
structure Resending.Stands (sock : GbnSocket) (s : Resending) : Prop where
  slots : s.sock.sendingWindow.packetBuffer = sock.sendingWindow.packetBuffer
  tail : s.sock.sendingWindow.tail = sock.sendingWindow.tail
  heap : s.sock.heap = sock.heap
  inOrder : ∀ k < s.sent.length, ∃ junk,
    s.sent[k]? = some (sock.serialize junk (sock.sendingWindow.frame k))
  place : s.sent.length < sock.sendingWindow.size.toNat ∧
      s.sock.writer = .retransmitFrom (sock.sendingWindow.slot s.sent.length) ∨
    s.sent.length = sock.sendingWindow.size.toNat ∧ s.sock.writer = .waitOnRead

/-- What is left of the window, when only its packets are acknowledged. -/
structure Resending.Left (sock : GbnSocket) (s : Resending) : Prop where
  consecutive : s.sock.sendingWindow.Consecutive
  frames : ∃ a, a + s.sock.sendingWindow.size.toNat = sock.sendingWindow.size.toNat ∧
    ∀ i, s.sock.sendingWindow.frame i = sock.sendingWindow.frame (a + i)

section Loop

variable {sock : GbnSocket} {s t : Resending} {a : ResendStep}

theorem acknowledge_tail (w : GbnWindow Ref) (seqNumber : UInt32) :
    (w.acknowledge seqNumber).tail = w.tail := by
  rw [GbnWindow.acknowledge]
  split <;> rfl

namespace Resending

theorem stands_start (hpos : 1 ≤ sock.sendingWindow.size.toNat) : Stands sock
    ⟨{ sock with writer := .retransmitFrom (Fin.ofNat 6 sock.sendingWindow.head.toNat) }, []⟩ where
  slots := rfl
  tail := rfl
  heap := rfl
  inOrder k hk := absurd hk (Nat.not_lt_zero k)
  place := Or.inl ⟨hpos, rfl⟩

theorem Stands.read (h : Stands sock s) (incoming : Datagram) :
    Stands sock { s with sock := (s.sock.readThread incoming).1 } := by
  have hwriter := readThread_writer s.sock incoming
  have hheap := readThread_heap s.sock incoming
  refine ⟨?_, ?_, hheap.trans h.heap, h.inOrder, ?_⟩
  · rcases readThread_sendingWindow s.sock incoming with hsame | ⟨-, hack⟩
    · rw [hsame, h.slots]
    · rw [hack, GbnWindow.acknowledge_slots, h.slots]
  · rcases readThread_sendingWindow s.sock incoming with hsame | ⟨-, hack⟩
    · rw [hsame, h.tail]
    · rw [hack, acknowledge_tail, h.tail]
  · rw [hwriter]
    exact h.place

/-- A pass sends the next packet, and is the last one exactly if that was the last packet. -/
theorem Stands.pass (h : Stands sock s) (hwindow : sock.sendingWindow.Consecutive)
    (hmore : s.sent.length < sock.sendingWindow.size.toNat) (junk : Junk) :
    Stands sock ⟨(s.sock.retransmitSlot junk (sock.sendingWindow.slot s.sent.length)).1,
      s.sent ++ (s.sock.retransmitSlot junk (sock.sendingWindow.slot s.sent.length)).2⟩ := by
  have hout : (s.sock.retransmitSlot junk (sock.sendingWindow.slot s.sent.length)).2 =
      [sock.serialize junk (sock.sendingWindow.frame s.sent.length)] := by
    rw [GbnSocket.retransmitSlot, GbnSocket.serialize, h.slots, h.heap]
    rfl
  have hlength : (s.sent ++ (s.sock.retransmitSlot junk
      (sock.sendingWindow.slot s.sent.length)).2).length = s.sent.length + 1 := by
    rw [hout, List.length_append, List.length_singleton]
  refine ⟨h.slots, h.tail, h.heap, fun k hk => ?_, ?_⟩
  · change k < (s.sent ++ _).length at hk
    change ∃ junk, (s.sent ++ _)[k]? = _
    rw [hlength] at hk
    rw [hout]
    rcases Nat.lt_succ_iff_lt_or_eq.1 hk with hlow | rfl
    · rw [List.getElem?_append_left hlow]
      exact h.inOrder k hlow
    · exact ⟨junk, List.getElem?_concat_length⟩
  · change (s.sent ++ _).length < _ ∧ _ = WriterState.retransmitFrom (GbnWindow.slot _ (s.sent ++ _).length) ∨
      (s.sent ++ _).length = _ ∧ _
    rw [hlength]
    have hend := hwindow.slot_eq_tail hmore
    simp only [GbnSocket.retransmitSlot, GbnWindow.ofNat_slot_succ, h.tail]
    by_cases hlast : s.sent.length + 1 = sock.sendingWindow.size.toNat
    · exact Or.inr ⟨hlast, if_neg (not_not.2 (hend.2 hlast))⟩
    · exact Or.inl ⟨by omega, if_pos (hend.not.2 hlast)⟩

theorem Stands.step (h : Stands sock s) (hwindow : sock.sendingWindow.Consecutive)
    (hstep : s.step a = some t) : Stands sock t := by
  cases a with
  | pass junk =>
      rcases h.place with ⟨hmore, hwriter⟩ | ⟨-, hwriter⟩
      · rw [Resending.step, hwriter] at hstep
        exact Option.some.inj hstep ▸ h.pass hwindow hmore junk
      · rw [Resending.step, hwriter] at hstep
        cases hstep
  | read incoming =>
      obtain ⟨-, hnext⟩ := Option.ite_none_right_eq_some.1 hstep
      exact Option.some.inj hnext ▸ h.read incoming

theorem Left.step (h : Left sock s) (hvalid : s.AcksPacket a) (hstep : s.step a = some t) :
    Left sock t := by
  have hsame : t.sock.sendingWindow = s.sock.sendingWindow → Left sock t := by
    intro heq
    obtain ⟨acked, hsize, hframe⟩ := h.frames
    exact ⟨heq ▸ h.consecutive, acked, heq ▸ hsize, heq ▸ hframe⟩
  cases a with
  | pass junk =>
      rw [Resending.step] at hstep
      split at hstep
      case h_1 => exact hsame (Option.some.inj hstep ▸ rfl)
      case h_2 => cases hstep
  | read incoming =>
      obtain ⟨-, hnext⟩ := Option.ite_none_right_eq_some.1 hstep
      obtain rfl := Option.some.inj hnext
      rcases readThread_sendingWindow s.sock incoming with hkept | ⟨htype, hack⟩
      · exact hsame hkept
      · obtain ⟨d, hd, hnumber⟩ := hvalid htype
        obtain ⟨hconsecutive, more, hmore, hframe'⟩ := h.consecutive.acknowledge hd hnumber
        obtain ⟨acked, hsize, hframe⟩ := h.frames
        rw [← hack] at hconsecutive hmore hframe'
        refine ⟨hconsecutive, acked + more, ?_, fun i => ?_⟩
        · change _ + (s.sock.readThread incoming).1.sendingWindow.size.toNat = _
          omega
        · change (s.sock.readThread incoming).1.sendingWindow.frame i = _
          rw [hframe', hframe, Nat.add_assoc]

theorem Stands.running_iff (h : Stands sock s) :
    s.Running ↔ s.sent.length < sock.sendingWindow.size.toNat := by
  rcases h.place with ⟨hmore, hwriter⟩ | ⟨hall, hwriter⟩
  · exact iff_of_true ⟨_, hwriter⟩ hmore
  · refine iff_of_false ?_ hall.not_lt
    rintro ⟨i, hi⟩
    rw [hwriter] at hi
    cases hi

theorem Stands.resent (h : Stands sock s) : Resent sock s := by
  refine ⟨?_, h.inOrder, h.running_iff, ?_⟩
  · exact h.place.elim (fun hmore => hmore.1.le) fun hall => hall.1.le
  · rintro ⟨i, hi⟩ junk
    rw [Resending.step, hi]
    rfl

end Resending

end Loop

/-- **A retransmission covers the window**: whatever is read meanwhile, each packet that was in the window
is sent once and in order, in as many passes as there were packets. If only packets of the window are
acknowledged, those that are left at the end are among them. -/
theorem retransmit_covers (sock : GbnSocket) (timedOut : Bool) (junk : Junk)
    (hwindow : sock.sendingWindow.Consecutive) (hpos : 1 ≤ sock.sendingWindow.size.toNat)
    (hwriter : sock.writer = .retransmit) :
    ∃ start, sock.writerStep timedOut junk = some (start, []) ∧
      ∀ steps s, resending.run ⟨start, []⟩ steps = some s →
        Resent sock s ∧
        (resending.Within Resending.AcksPacket ⟨start, []⟩ steps → ¬ s.Running → Covered sock s) := by
  have hne : sock.sendingWindow.size ≠ 0 := by
    intro hzero
    rw [hzero] at hpos
    exact absurd hpos (by decide)
  refine ⟨{ sock with writer := .retransmitFrom (Fin.ofNat 6 sock.sendingWindow.head.toNat) }, ?_, ?_⟩
  · rw [GbnSocket.writerStep, hwriter]
    exact if_neg hne
  intro steps s hrun
  have hstands : Resending.Stands sock s :=
    resending.invariant (fun _ _ _ h hstep => h.step hwindow hstep) (Resending.stands_start hpos) hrun
  refine ⟨hstands.resent, fun hwithin hended i hi => ?_⟩
  have hleft : Resending.Left sock s :=
    resending.invariant_of_within (fun _ _ _ h hvalid hstep => h.step hvalid hstep)
      ⟨hwindow, 0, Nat.zero_add _, fun i => by rw [Nat.zero_add]⟩ hwithin hrun
  obtain ⟨acked, hsize, hframe⟩ := hleft.frames
  have hall := hstands.running_iff.not.1 hended
  exact ⟨acked + i, by omega, hframe i⟩

/-- A socket with a full window, whose packets 7 to 12 start in slot 2. -/
def fullSocket (writer : WriterState) : GbnSocket :=
  { initGbnSocket with
    writer := writer
    sendingWindow :=
      ⟨2, 2, 6, 0, fun i => ⟨.data, UInt32.ofNat (7 + (i.val + 4) % 6), 1, i.val + 1⟩⟩ }

/-- Between the first two passes the first two of the six packets are acknowledged. -/
def acknowledgedMeanwhile : List ResendStep :=
  [.pass fun _ _ => 0, .read ⟨.ack, 8, 0, []⟩, .pass fun _ _ => 0]

theorem retransmit_covers_full : ∃ s,
    resending.run ⟨fullSocket (.retransmitFrom 2), []⟩ acknowledgedMeanwhile = some s ∧
      Resent (fullSocket .retransmit) s := by
  obtain ⟨start, hstart, hruns⟩ := retransmit_covers (fullSocket .retransmit) true (fun _ _ => 0)
    ⟨by decide, by decide, by decide, by decide⟩ (by decide) rfl
  have hsocket : start = fullSocket (.retransmitFrom 2) := (Prod.mk.inj (Option.some.inj hstart)).1.symm
  have hrun : (resending.run ⟨fullSocket (.retransmitFrom 2), []⟩ acknowledgedMeanwhile).isSome := rfl
  obtain ⟨s, hs⟩ := Option.isSome_iff_exists.1 hrun
  exact ⟨s, hs, (hruns acknowledgedMeanwhile s (hsocket ▸ hs)).1⟩

end NetworkSystems.Gbn
