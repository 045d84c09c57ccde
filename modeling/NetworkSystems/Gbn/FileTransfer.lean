import NetworkSystems.Gbn.ServerLoop

/-!
# The transfer of a file

The two programs around the sockets. The client reads its file in chunks of two packets, writes each of
them to its socket and closes behind the last one. The server appends what each of its calls returns to
its output, until a call returns nothing. Between them run the threads of both sockets and the network.
-/

namespace NetworkSystems.Gbn

abbrev readSize : Nat := 4096 <<< 1

structure FileTransfer where
  protocol : Protocol
  /-- What `fread` has not returned yet. -/
  unread : Bytes
  /-- The cursor of the server's socket. -/
  currentBlockPtr : UInt32
  /-- What the server has written to its output file. -/
  output : Bytes
  /-- The loop of the server has ended. -/
  finished : Bool

/-- Who moves: the `main` of one of the programs, or a thread of one of the sockets. -/
inductive TransferAction
  | client
  | server
  | thread (a : Action)

/-- The step is one of a thread or of the network, and not a call of the application. -/
def Action.OfThread : Action → Prop
  | .write _ => False
  | .close => False
  | _ => True

instance : ∀ a : Action, Decidable a.OfThread
  | .write _ => isFalse id
  | .close => isFalse id
  | .senderWriter _ _ => isTrue trivial
  | .senderRead _ => isTrue trivial
  | .receiverWriter _ _ => isTrue trivial
  | .receiverRead _ => isTrue trivial

namespace FileTransfer

/-- The programs before their first step. -/
def start (file : Bytes) : FileTransfer := ⟨.initial, file, 0, [], false⟩

/-- The server's socket with its cursor. -/
def reader (s : FileTransfer) : ReadingSocket := ⟨s.protocol.receiver, s.currentBlockPtr⟩

/-- The next chunk of the client's file, or `gbn_socket_close` behind the last one. -/
def client (s : FileTransfer) : Option FileTransfer :=
  if s.unread = [] then (s.protocol.step .close).map fun p => { s with protocol := p }
  else (s.protocol.step (.write (s.unread.take readSize))).map fun p =>
    { s with protocol := p, unread := s.unread.drop readSize }

/-- The next call of the server, with `gbn_socket_close` when it has returned nothing. -/
def server (s : FileTransfer) : Option FileTransfer :=
  if s.finished then none
  else (s.reader.gbnSocketRead defaultBufSize).map fun (bytes, sock) =>
    { s with
      protocol := { s.protocol with
        receiver := if bytes = [] then sock.toGbnSocket.close else sock.toGbnSocket }
      currentBlockPtr := sock.currentBlockPtr
      output := s.output ++ bytes
      finished := decide (bytes = []) }

def step (s : FileTransfer) : TransferAction → Option FileTransfer
  | .client => s.client
  | .server => s.server
  | .thread a =>
      if a.OfThread then (s.protocol.step a).map fun p => { s with protocol := p } else none

/-- The step is none of those that lose a packet or a payload. -/
def Keeps (s : FileTransfer) : TransferAction → Prop
  | .thread a => s.protocol.Sound a ∧ s.protocol.Drained a
  | _ => True

instance : ∀ (s : FileTransfer) (a : TransferAction), Decidable (s.Keeps a)
  | _, .thread _ => inferInstanceAs (Decidable (_ ∧ _))
  | _, .client => isTrue trivial
  | _, .server => isTrue trivial

end FileTransfer

def fileTransfer : Machine FileTransfer TransferAction := ⟨FileTransfer.step⟩

/-! ### What is queued and what arrives -/

section Queued

variable {file a b : Bytes}

/-- Whole packets are cut off first. -/
theorem writeBlocks_append (h : 4096 ∣ a.length) :
    GbnSocket.writeBlocks (a ++ b) = GbnSocket.writeBlocks a ++ GbnSocket.writeBlocks b := by
  obtain ⟨m, hm⟩ := h
  have hlength := length_writeBlocks a
  refine List.ext_getElem? fun n => ?_
  by_cases hn : n < m
  · rw [List.getElem?_append_left (by omega), getElem?_writeBlocks, getElem?_writeBlocks,
      if_pos (by rw [List.length_append]; omega), if_pos (by omega),
      List.drop_append_of_le_length (by omega), List.take_append_of_le_length
        (by rw [List.length_drop]; omega)]
  · have hdrop : (a ++ b).drop (n * 4096) = b.drop ((n - m) * 4096) := by
      rw [List.drop_append, List.drop_of_length_le (by omega), List.nil_append]
      congr 1
      omega
    rw [List.getElem?_append_right (by omega), getElem?_writeBlocks, getElem?_writeBlocks,
      List.length_append, hdrop, show (GbnSocket.writeBlocks a).length = m by omega]
    have hiff : n * 4096 < a.length + b.length ↔ (n - m) * 4096 < b.length := by omega
    simp only [hiff]

theorem writeBlocks_take (file : Bytes) (k : Nat) :
    GbnSocket.writeBlocks (file.take (k * 4096)) <+: GbnSocket.writeBlocks file := by
  by_cases hle : k * 4096 ≤ file.length
  · have hdvd : 4096 ∣ (file.take (k * 4096)).length := ⟨k, by rw [List.length_take]; omega⟩
    have happend := writeBlocks_append (b := file.drop (k * 4096)) hdvd
    rw [List.take_append_drop] at happend
    rw [happend]
    exact List.prefix_append _ _
  · rw [List.take_of_length_le (by omega)]

end Queued

namespace Protocol

theorem CloseInv.pushed_prefix {s : Protocol} (h : s.CloseInv) (hopen : s.receiver.readStatus = .opened) :
    s.receiver.receiveBuffer.pushed <+: s.queued.map receivedBlock := by
  obtain ⟨blocks, hpushed, -, hblocks⟩ := h.inv.receiver.pushed
  rw [if_neg (by rw [hopen]; simp), List.append_nil] at hpushed
  rw [hpushed, List.prefix_iff_getElem?]
  intro n hn
  obtain ⟨packet, ⟨hdata, hseq, hmem⟩, hblock⟩ := hblocks n _ (List.getElem?_eq_getElem hn)
  obtain ⟨bytes, hget, hcarried⟩ := h.carries packet hmem hdata
  rw [hseq, Nat.zero_add] at hget
  rw [List.getElem?_map, hget, Option.map_some, hblock, ← hcarried]
  rfl

theorem CloseInv.onlyReads {s : Protocol} (h : s.CloseInv) {sock : ReadingSocket} {ptr : UInt32}
    (hreads : ReadingSocket.OnlyReads ⟨s.receiver, ptr⟩ sock) :
    CloseInv { s with receiver := sock.toGbnSocket } := by
  obtain ⟨popped, status, heq⟩ := hreads.same
  rw [heq]
  obtain ⟨⟨hsender, hreceiver, hlow, hnoAck, hdata, heof, hnoData, hacks, heofBack⟩, hcarries, hclosing⟩ := h
  exact ⟨⟨hsender, ⟨hreceiver.window, hreceiver.pushed, hreceiver.empty, hreceiver.writer,
    hreceiver.marks, hreceiver.marked, hreceiver.closing, hreceiver.ended⟩, hlow, hnoAck, hdata, heof,
    hnoData, hacks, heofBack⟩, hcarries, hclosing⟩

/-- What a step of a thread leaves to the applications: what they have queued, and where they read. -/
structure Leaves (s next : Protocol) : Prop where
  queued : next.queued = s.queued
  closed : next.closed = s.closed
  status : next.receiver.status = s.receiver.status
  popped : next.receiver.receiveBuffer.popped = s.receiver.receiveBuffer.popped

theorem writerMove_reads {sock next : GbnSocket} {junk : Junk} {out : List Datagram}
    (hmove : WriterMove sock junk next out) :
    next.status = sock.status ∧ next.receiveBuffer = sock.receiveBuffer := by
  cases hmove <;> exact ⟨rfl, rfl⟩

theorem popped_foldl_pushChunk (blocks : List (DataBlock Bytes)) (q : BlockQueue Bytes) :
    (blocks.foldl BlockQueue.pushChunk q).popped = q.popped := by
  induction blocks generalizing q with
  | nil => rfl
  | cons block blocks ih => exact ih (q.pushChunk block)

theorem readThread_reads (sock : GbnSocket) (d : Datagram) :
    (sock.readThread d).1.status = sock.status ∧
      (sock.readThread d).1.receiveBuffer.popped = sock.receiveBuffer.popped := by
  rw [GbnSocket.readThread]
  split
  · exact ⟨rfl, rfl⟩
  · cases d.type with
    | data => exact ⟨rfl, popped_foldl_pushChunk _ _⟩
    | _ => exact ⟨rfl, rfl⟩

theorem leaves_of_thread {s next : Protocol} {a : Action} (ha : a.OfThread)
    (hstep : s.step a = some next) : s.Leaves next := by
  cases a with
  | write => exact absurd ha id
  | close => exact absurd ha id
  | senderWriter timedOut junk =>
      obtain ⟨-, -, rfl⟩ := Option.map_eq_some_iff.1 hstep
      exact ⟨rfl, rfl, rfl, rfl⟩
  | senderRead d =>
      obtain ⟨-, rfl⟩ : _ ∧ _ = next := by
        simpa only [Protocol.step, Option.ite_none_right_eq_some, Option.some.injEq] using hstep
      exact ⟨rfl, rfl, rfl, rfl⟩
  | receiverWriter timedOut junk =>
      obtain ⟨_, hwriter, rfl⟩ := Option.map_eq_some_iff.1 hstep
      obtain ⟨hstatus, hbuffer⟩ := writerMove_reads (writerMove_of_step hwriter)
      exact ⟨rfl, rfl, hstatus, congrArg BlockQueue.popped hbuffer⟩
  | receiverRead d =>
      obtain ⟨-, rfl⟩ : _ ∧ _ = next := by
        simpa only [Protocol.step, Option.ite_none_right_eq_some, Option.some.injEq] using hstep
      obtain ⟨hstatus, hpopped⟩ := readThread_reads s.receiver d
      exact ⟨rfl, rfl, hstatus, hpopped⟩

end Protocol

namespace FileTransfer

/-- The invariant of a transfer: the protocol's, with the chunks of the file queued in order, and the
server's output as far as its calls have come. -/
structure Inv (file : Bytes) (s : FileTransfer) : Prop where
  protocol : s.protocol.CloseInv
  client : ∃ k, s.unread = file.drop (2 * k * 4096) ∧
    s.protocol.queued = GbnSocket.writeBlocks (file.take (2 * k * 4096))
  closed : s.protocol.closed = true → s.unread = []
  server : Serves file s.reader s.output
  finished : s.finished = true → s.protocol.receiver.status = .closed

section Inv

variable {file : Bytes} {s next : FileTransfer} {a : TransferAction}

theorem inv_start (file : Bytes) : (start file).Inv file where
  protocol := Protocol.closeInv_initial
  client := ⟨0, rfl, by rw [Nat.mul_zero, Nat.zero_mul, List.take_zero]; rfl⟩
  closed := nofun
  server := .start 0 rfl rfl rfl (Nat.zero_le _) (by rw [Nat.mul_zero, Nat.zero_mul, List.take_zero]; rfl)
  finished := nofun

theorem Inv.queued_prefix (h : s.Inv file) : s.protocol.queued <+: GbnSocket.writeBlocks file := by
  obtain ⟨k, -, hqueued⟩ := h.client
  rw [hqueued]
  exact writeBlocks_take file (2 * k)

/-- Once the client has closed, the whole file is queued. -/
theorem Inv.queued_eq (h : s.Inv file) (hclosed : s.protocol.closed = true) :
    s.protocol.queued = GbnSocket.writeBlocks file := by
  obtain ⟨k, hunread, hqueued⟩ := h.client
  have hnil := h.closed hclosed
  rw [hqueued, List.take_of_length_le]
  exact List.drop_eq_nil_iff.1 (hunread.symm.trans hnil)

/-- When the end of the stream has arrived, so has everything else. -/
theorem Inv.pushed_eq (h : s.Inv file) (hclosed : s.protocol.receiver.readStatus = .closed) :
    s.protocol.receiver.receiveBuffer.pushed = fileBlocks file ++ [GbnSocket.closingMarker] := by
  rw [h.protocol.pushed_eq hclosed, h.queued_eq (h.protocol.inv.closed_of_readStatus hclosed)]
  rfl

theorem Inv.holds (h : s.Inv file) : s.reader.Holds file := by
  cases hstatus : s.protocol.receiver.readStatus with
  | opened =>
      refine (h.protocol.pushed_prefix hstatus).trans ?_
      exact (h.queued_prefix.map receivedBlock).trans (List.prefix_append _ _)
  | closed =>
      have hpushed := h.pushed_eq hstatus
      rw [ReadingSocket.Holds]
      exact hpushed ▸ List.prefix_refl _

theorem Inv.length_queued (h : s.Inv file) (hfile : (GbnSocket.writeBlocks file).length < 2 ^ 32) :
    s.protocol.queued.length < 2 ^ 32 := h.queued_prefix.length_le.trans_lt hfile

theorem close_of_closed {sock : GbnSocket} (hclosed : sock.status = .closed) : sock.close = sock := by
  rw [GbnSocket.close, hclosed]

theorem Inv.client_step (h : s.Inv file) (hfile : (GbnSocket.writeBlocks file).length < 2 ^ 32)
    (hstep : s.client = some next) : next.Inv file := by
  have hbound := h.length_queued hfile
  obtain ⟨k, hunread, hqueued⟩ := h.client
  rw [FileTransfer.client] at hstep
  split at hstep
  case isTrue hnil =>
    obtain ⟨p, hp, rfl⟩ := Option.map_eq_some_iff.1 hstep
    have hprotocol := h.protocol.step (a := .close) trivial trivial hbound hp
    obtain ⟨-, rfl⟩ : s.protocol.closed = false ∧ _ = p := by simpa [Protocol.step] using hp
    exact ⟨hprotocol, ⟨k, hunread, hqueued⟩, fun _ => hnil, h.server, h.finished⟩
  case isFalse hne =>
    obtain ⟨p, hp, rfl⟩ := Option.map_eq_some_iff.1 hstep
    have hprotocol := h.protocol.step (a := .write _) trivial trivial hbound hp
    obtain ⟨hopen, rfl⟩ : s.protocol.closed = false ∧ _ = p := by simpa [Protocol.step] using hp
    have hlt : 2 * k * 4096 < file.length := by
      rw [hunread, List.drop_eq_nil_iff] at hne
      omega
    have hnext : 2 * (k + 1) * 4096 = 2 * k * 4096 + 2 * 4096 := by
      rw [Nat.left_distrib 2 k 1, Nat.right_distrib (2 * k) 2 4096]
    refine ⟨hprotocol, ⟨k + 1, ?_, ?_⟩, fun hclosed => ?_, h.server, h.finished⟩
    · change s.unread.drop (2 * 4096) = _
      rw [hunread, List.drop_drop, hnext]
    · change s.protocol.queued ++ GbnSocket.writeBlocks (s.unread.take (2 * 4096)) = _
      have hdvd : 4096 ∣ (file.take (2 * k * 4096)).length :=
        ⟨2 * k, by rw [List.length_take]; omega⟩
      rw [hqueued, hunread, ← writeBlocks_append hdvd, ← List.take_add, hnext]
    · exact absurd (hopen.symm.trans hclosed) (by decide)

/-- A call of the server reads, and that is all: where it returns nothing, the socket is closed already. -/
theorem Inv.server_eq (h : s.Inv file) (hstep : s.server = some next) :
    ∃ bytes sock, s.reader.gbnSocketRead defaultBufSize = some (bytes, sock) ∧
      next = { s with
        protocol := { s.protocol with receiver := sock.toGbnSocket }
        currentBlockPtr := sock.currentBlockPtr
        output := s.output ++ bytes
        finished := decide (bytes = []) } := by
  rw [FileTransfer.server] at hstep
  split at hstep
  case isTrue => cases hstep
  case isFalse =>
    obtain ⟨⟨bytes, sock⟩, hread, rfl⟩ := Option.map_eq_some_iff.1 hstep
    have hsame : (if bytes = [] then sock.toGbnSocket.close else sock.toGbnSocket) =
        sock.toGbnSocket := by
      split
      case isTrue hnil => exact close_of_closed ((h.server.read h.holds hread).2 hnil)
      case isFalse => rfl
    exact ⟨bytes, sock, hread, by simp only [hsame]⟩

theorem Inv.server_step (h : s.Inv file) (hstep : s.server = some next) : next.Inv file := by
  obtain ⟨bytes, sock, hread, rfl⟩ := h.server_eq hstep
  obtain ⟨hserves, hclosed⟩ := h.server.read h.holds hread
  have hprotocol := h.protocol.onlyReads (ReadingSocket.onlyReads hread)
  exact ⟨hprotocol, h.client, h.closed, hserves, fun hend => hclosed (of_decide_eq_true hend)⟩

theorem Inv.step (h : s.Inv file) (hfile : (GbnSocket.writeBlocks file).length < 2 ^ 32)
    (hkeeps : s.Keeps a) (hstep : s.step a = some next) : next.Inv file := by
  cases a with
  | client => exact h.client_step hfile hstep
  | server => exact h.server_step hstep
  | thread a =>
      obtain ⟨ha, hstep⟩ := Option.ite_none_right_eq_some.1 hstep
      obtain ⟨p, hp, rfl⟩ := Option.map_eq_some_iff.1 hstep
      have hleaves := Protocol.leaves_of_thread ha hp
      refine ⟨h.protocol.step hkeeps.1 hkeeps.2 (h.length_queued hfile) hp, ?_, ?_, ?_, ?_⟩
      · rw [hleaves.queued]
        exact h.client
      · rw [hleaves.closed]
        exact h.closed
      · exact h.server.of_same hleaves.status hleaves.popped rfl
      · rw [hleaves.status]
        exact h.finished

/-- The loop of the server ends with the whole file, and only for a file that is not made of whole
chunks. -/
theorem Inv.of_finished (h : s.Inv file) (hfinished : s.finished = true) :
    s.output = file ∧ ¬ readSize ∣ file.length := by
  have hclosed : s.reader.status = .closed := h.finished hfinished
  cases h.server with
  | start _ hopen => exact absurd (hclosed.symm.trans hopen) nofun
  | middle _ hopen => exact absurd (hclosed.symm.trans hopen) nofun
  | ended _ houtput hrest => exact ⟨houtput, hrest⟩

end Inv

end FileTransfer

/-- A file of one byte, from the first step of the client to the end of the server's loop. -/
def oneByteTransfer : List TransferAction :=
  [.client, .thread (.senderWriter false fun _ _ => 0), .thread (.senderWriter false fun _ _ => 0),
    .thread (.senderWriter false fun _ _ => 0), .thread (.receiverRead ⟨.data, 0, 1, [9]⟩),
    .thread (.senderRead ⟨.ack, 0, 0, []⟩), .client, .thread (.senderWriter false fun _ _ => 0),
    .thread (.senderWriter false fun _ _ => 0), .thread (.senderWriter false fun _ _ => 0),
    .thread (.receiverRead GbnSocket.eofDatagram), .server, .server]

end NetworkSystems.Gbn
