import NetworkSystems.Gbn.Codec
import NetworkSystems.Gbn.Ring
import NetworkSystems.Gbn.Sender

/-!
# What is written

`gbn_socket_write` with its counters in `uint32_t`, and what it leaves in the sending queue: blocks that
together are the input, none of them empty and none larger than a packet. Every packet of the write thread
is made from such a block, so it fits the buffer that it is serialized into.
-/

namespace NetworkSystems.Gbn

namespace GbnSocket

/-- Copy `len` bytes behind the cursor to the heap and push them on the sending buffer. -/
def pushChunk (sock : GbnSocket) (cursor : Bytes) (len : UInt32) : GbnSocket :=
  { sock with
    heap := sock.heap.malloc (cursor.take len.toNat)
    sendingBuffer := sock.sendingBuffer.pushChunk ⟨sock.heap.next, len, 0⟩ }

/-- The loop over the whole blocks that are left, and the cursor after it. -/
def writeWhole : Nat → GbnSocket → Bytes → GbnSocket × Bytes
  | 0, sock, cursor => (sock, cursor)
  | left + 1, sock, cursor =>
      writeWhole left (sock.pushChunk cursor 4096) (cursor.drop defaultPacketSize)

/-- `gbn_socket_write`, on a buffer of at least `len` bytes. -/
def gbnSocketWrite (sock : GbnSocket) (bytes : Bytes) (len : UInt32) : GbnSocket × Int32 :=
  let wholeBlocks := len / 4096
  let whole := writeWhole wholeBlocks.toNat sock bytes
  if wholeBlocks * 4096 < len then
    let finalLen := len - wholeBlocks * 4096
    (whole.1.pushChunk whole.2 finalLen, (wholeBlocks * 4096 + finalLen).toInt32)
  else (whole.1, (wholeBlocks * 4096 + 0).toInt32)

end GbnSocket

/-- What a write of all these bytes does to the socket, and what it returns. -/
structure Written (sock : GbnSocket) (bytes : Bytes) (blocks : List (DataBlock Ref))
    (result : GbnSocket × Int32) : Prop where
  queue : result.1.sendingBuffer =
    { sock.sendingBuffer with pushed := sock.sendingBuffer.pushed ++ blocks }
  flags : ∀ block ∈ blocks, block.flags = 0
  len : ∀ block ∈ blocks, 1 ≤ block.len.toNat ∧ block.len.toNat ≤ defaultPacketSize
  contents : ∀ junk, (blocks.map fun block =>
    result.1.heap.read junk block.data block.len.toNat).flatten = bytes
  older : ∀ ref < sock.heap.next, result.1.heap.cell ref = sock.heap.cell ref
  returned : result.2.toInt = bytes.length

/-! ### The blocks -/

theorem flatten_whole (bytes : Bytes) (n : Nat) :
    ((List.range n).map fun cntr =>
      (bytes.drop (cntr * defaultPacketSize)).take defaultPacketSize).flatten =
        bytes.take (n * defaultPacketSize) := by
  induction n with
  | zero => rw [Nat.zero_mul, List.take_zero]; rfl
  | succ n ih =>
      rw [List.range_succ, List.map_append, List.flatten_append, ih, Nat.succ_mul, List.take_add]
      exact congrArg _ (List.append_nil _)

theorem flatten_writeBlocks (bytes : Bytes) : (GbnSocket.writeBlocks bytes).flatten = bytes := by
  rw [GbnSocket.writeBlocks]
  split
  case isTrue =>
    rw [List.flatten_append, flatten_whole, List.flatten_cons, List.flatten_nil, List.append_nil,
      List.take_append_drop]
  case isFalse hwhole =>
    rw [flatten_whole, List.take_of_length_le (Nat.le_of_not_lt hwhole)]

theorem length_writeBlocks (bytes : Bytes) :
    (GbnSocket.writeBlocks bytes).length = (bytes.length + 4095) / 4096 := by
  rw [GbnSocket.writeBlocks]
  simp only [defaultPacketSize]
  split
  case isTrue =>
    rw [List.length_append, List.length_map, List.length_range, List.length_singleton]
    omega
  case isFalse =>
    rw [List.length_map, List.length_range]
    omega

/-- The blocks as they are queued, from the next pointer on. -/
def pushedBlocks (next : Nat) : List Bytes → List (DataBlock Ref)
  | [] => []
  | bytes :: rest => ⟨next, UInt32.ofNat bytes.length, 0⟩ :: pushedBlocks (next + 1) rest

theorem length_pushedBlocks (next : Nat) (blocks : List Bytes) :
    (pushedBlocks next blocks).length = blocks.length := by
  induction blocks generalizing next with
  | nil => rfl
  | cons bytes rest ih => rw [pushedBlocks, List.length_cons, ih, List.length_cons]

theorem mem_pushedBlocks {next : Nat} {blocks : List Bytes} {block : DataBlock Ref}
    (h : block ∈ pushedBlocks next blocks) :
    block.flags = 0 ∧ ∃ bytes ∈ blocks, block.len = UInt32.ofNat bytes.length := by
  induction blocks generalizing next with
  | nil => cases h
  | cons bytes rest ih =>
      rw [pushedBlocks, List.mem_cons] at h
      rcases h with rfl | h
      · exact ⟨rfl, bytes, List.mem_cons_self .., rfl⟩
      · obtain ⟨hflags, found, hmem, hlen⟩ := ih h
        exact ⟨hflags, found, List.mem_cons_of_mem _ hmem, hlen⟩

section Pushed

variable {sock : GbnSocket} {junk : Junk}

theorem pushed_foldl_pushBlock (blocks : List Bytes) (sock : GbnSocket) :
    (blocks.foldl GbnSocket.pushBlock sock).sendingBuffer =
      { sock.sendingBuffer with
        pushed := sock.sendingBuffer.pushed ++ pushedBlocks sock.heap.next blocks } := by
  induction blocks generalizing sock with
  | nil => rw [pushedBlocks, List.append_nil]; rfl
  | cons bytes rest ih =>
      rw [List.foldl_cons, ih, pushedBlocks]
      simp only [GbnSocket.pushBlock, BlockQueue.pushChunk, Heap.malloc, List.append_assoc,
        List.singleton_append]

theorem cell_foldl_pushBlock (blocks : List Bytes) {ref : Ref} (h : ref < sock.heap.next) :
    (blocks.foldl GbnSocket.pushBlock sock).heap.cell ref = sock.heap.cell ref := by
  induction blocks generalizing sock with
  | nil => rfl
  | cons bytes rest ih =>
      rw [List.foldl_cons, ih (Nat.lt_succ_of_lt h)]
      exact Function.update_of_ne h.ne _ _

/-- Behind the pointers of the queued blocks are the bytes that were written. -/
theorem read_pushedBlocks {blocks : List Bytes} (sock : GbnSocket)
    (hshort : ∀ bytes ∈ blocks, bytes.length ≤ defaultPacketSize) :
    (pushedBlocks sock.heap.next blocks).map (fun block =>
      (blocks.foldl GbnSocket.pushBlock sock).heap.read junk block.data block.len.toNat) = blocks := by
  induction blocks generalizing sock with
  | nil => rfl
  | cons bytes rest ih =>
      rw [pushedBlocks, List.map_cons, List.foldl_cons]
      have hcell : (rest.foldl GbnSocket.pushBlock (sock.pushBlock bytes)).heap.cell sock.heap.next =
          some bytes := by
        rw [cell_foldl_pushBlock rest (Nat.lt_succ_self sock.heap.next)]
        exact Function.update_self ..
      apply congr (congrArg List.cons _) (ih (sock.pushBlock bytes) fun b hb => hshort b (by simp [hb]))
      simp only [Heap.read, hcell]
      rw [toNat_short (hshort bytes (List.mem_cons_self ..)), List.take_length]

theorem pushChunk_eq {cursor : Bytes} {len : UInt32} (h : len.toNat ≤ cursor.length) :
    sock.pushChunk cursor len = sock.pushBlock (cursor.take len.toNat) := by
  rw [GbnSocket.pushChunk, GbnSocket.pushBlock, List.length_take_of_le h, UInt32.ofNat_toNat]

theorem writeWhole_eq (n : Nat) (sock : GbnSocket) {cursor : Bytes}
    (h : n * defaultPacketSize ≤ cursor.length) :
    GbnSocket.writeWhole n sock cursor =
      (((List.range n).map fun cntr =>
        (cursor.drop (cntr * defaultPacketSize)).take defaultPacketSize).foldl GbnSocket.pushBlock sock,
        cursor.drop (n * defaultPacketSize)) := by
  induction n generalizing sock cursor with
  | zero => rw [Nat.zero_mul, List.drop_zero]; rfl
  | succ n ih =>
      rw [Nat.succ_mul] at h
      have hfull : (4096 : UInt32).toNat ≤ cursor.length := by
        change defaultPacketSize ≤ _
        omega
      have hrest : n * defaultPacketSize ≤ (cursor.drop defaultPacketSize).length := by
        rw [List.length_drop]
        exact Nat.le_sub_of_add_le h
      rw [GbnSocket.writeWhole, pushChunk_eq hfull, ih _ hrest,
        List.range_succ_eq_map, List.map_cons, List.foldl_cons, List.map_map, Nat.zero_mul,
        List.drop_zero, List.drop_drop, Nat.add_comm, Nat.succ_mul]
      simp only [Function.comp_def, List.drop_drop, Nat.succ_mul, Nat.add_comm]
      rfl

end Pushed

/-! ### The counters -/

theorem toNat_whole (len : UInt32) : (len / 4096 * 4096).toNat = len.toNat / 4096 * 4096 := by
  have hlt := len.toNat_lt
  rw [UInt32.toNat_mul, UInt32.toNat_div]
  change len.toNat / 4096 * 4096 % 2 ^ 32 = _
  omega

theorem whole_le (len : UInt32) : len / 4096 * 4096 ≤ len := by
  rw [UInt32.le_iff_toNat_le, toNat_whole]
  omega

theorem toNat_rest (len : UInt32) :
    (len - len / 4096 * 4096).toNat = len.toNat - len.toNat / 4096 * 4096 := by
  rw [UInt32.toNat_sub_of_le _ _ (whole_le len), toNat_whole]

theorem toInt_toInt32 {len : UInt32} (h : len.toNat < 2 ^ 31) : len.toInt32.toInt = len.toNat := by
  change len.toBitVec.toInt = _
  rw [BitVec.toInt_eq_toNat_of_lt]
  · rfl
  · change 2 * len.toNat < 2 ^ 32
    omega

theorem gbnSocketWrite_eq (sock : GbnSocket) {bytes : Bytes} (h : bytes.length < 2 ^ 32) :
    sock.gbnSocketWrite bytes (UInt32.ofNat bytes.length) =
      (sock.write bytes, (UInt32.ofNat bytes.length).toInt32) := by
  have hlen : (UInt32.ofNat bytes.length).toNat = bytes.length := UInt32.toNat_ofNat_of_lt' h
  have hdiv : (UInt32.ofNat bytes.length / 4096).toNat = bytes.length / defaultPacketSize := by
    rw [UInt32.toNat_div, hlen]
    rfl
  have hwhole := writeWhole_eq (bytes.length / defaultPacketSize) sock (Nat.div_mul_le_self ..)
  have htest : UInt32.ofNat bytes.length / 4096 * 4096 < UInt32.ofNat bytes.length ↔
      bytes.length / defaultPacketSize * defaultPacketSize < bytes.length := by
    rw [UInt32.lt_iff_toNat_lt, toNat_whole, hlen]
  rw [GbnSocket.gbnSocketWrite, GbnSocket.write, GbnSocket.writeBlocks, hdiv, hwhole]
  simp only [htest]
  split
  case isTrue hrest =>
    have hall : (UInt32.ofNat bytes.length - UInt32.ofNat bytes.length / 4096 * 4096).toNat =
        (bytes.drop (bytes.length / defaultPacketSize * defaultPacketSize)).length := by
      rw [toNat_rest, hlen, List.length_drop]
    rw [pushChunk_eq hall.le, hall, List.take_length, List.foldl_append, UInt32.add_comm,
      UInt32.sub_add_cancel]
    rfl
  case isFalse hrest =>
    have heq : UInt32.ofNat bytes.length / 4096 * 4096 = UInt32.ofNat bytes.length :=
      UInt32.le_antisymm (whole_le _) (UInt32.not_lt.1 (htest.not.2 hrest))
    rw [heq, UInt32.add_zero]

/-! ### The queue with room -/

/-- A producer that finds room for all its blocks pushes them one behind the other. -/
theorem Fifo.run_pushes {ι β : Type} [DecidableEq ι] {s : Shared ι β} {i : ι} {blocks : List β}
    (h : Fifo s) (hidle : s.producers i = none)
    (hroom : s.queue.size.toNat + blocks.length ≤ queueCapacity) :
    ∃ t, (sharedQueue ι β).run s (blocks.map (.push i)) = some t ∧ Fifo t ∧
      t.pushed = s.pushed ++ blocks ∧ t.popped = s.popped := by
  induction blocks generalizing s with
  | nil => exact ⟨s, rfl, h, (List.append_nil _).symm, rfl⟩
  | cons block rest ih =>
      rw [List.length_cons] at hroom
      have hsize : s.queue.size ≠ 128 := by
        intro hfull
        rw [hfull] at hroom
        exact absurd hroom (by simp)
      have hstep : (sharedQueue ι β).step s (.push i block) = some (s.doPush block) := by
        change s.step (.push i block) = _
        rw [Shared.step, hidle]
        exact if_neg hsize
      have hnext := h.doPush hsize block
      have hlength : s.pushed.length + 1 = s.popped.length + (s.doPush block).queue.size.toNat := by
        rw [← List.length_singleton (a := block), ← List.length_append]
        exact hnext.length
      have hbefore := h.length
      obtain ⟨t, hrun, hfifo, hpushed, hpopped⟩ := ih hnext hidle (by omega)
      refine ⟨t, (sharedQueue ι β).run_cons_eq_some.2 ⟨_, hstep, hrun⟩, hfifo, ?_, hpopped⟩
      rw [hpushed]
      exact (List.append_assoc ..).trans (congrArg _ (List.singleton_append ..))

theorem exists_written (sock : GbnSocket) {bytes : Bytes} (h : bytes.length < 2 ^ 31) :
    ∃ blocks, blocks.length = (bytes.length + 4095) / 4096 ∧
      Written sock bytes blocks (sock.gbnSocketWrite bytes (UInt32.ofNat bytes.length)) := by
  refine ⟨pushedBlocks sock.heap.next (GbnSocket.writeBlocks bytes), ?_, ?_⟩
  · rw [length_pushedBlocks, length_writeBlocks]
  rw [gbnSocketWrite_eq sock (h.trans (by decide))]
  refine ⟨pushed_foldl_pushBlock _ sock, fun block hmem => (mem_pushedBlocks hmem).1, ?_, fun junk => ?_,
    fun ref href => cell_foldl_pushBlock _ href, ?_⟩
  · intro block hmem
    obtain ⟨-, found, hfound, hlen⟩ := mem_pushedBlocks hmem
    have hshort := writeBlocks_short bytes found hfound
    rw [hlen, toNat_short hshort]
    exact ⟨writeBlocks_pos bytes found hfound, hshort⟩
  · rw [GbnSocket.write, read_pushedBlocks sock (writeBlocks_short bytes), flatten_writeBlocks]
  · have hlen : (UInt32.ofNat bytes.length).toNat = bytes.length :=
      UInt32.toNat_ofNat_of_lt' (h.trans (by decide))
    rw [toInt_toInt32 (by rwa [hlen]), hlen]

/-! ### The packets of the write thread -/

/-- What can happen to a socket: the calls of the application, and the steps of the two threads. -/
inductive SocketStep
  | write (bytes : Bytes) (len : UInt32)
  | close
  | writer (timedOut : Bool) (junk : Junk)
  | read (incoming : Datagram)

namespace GbnSocket

def step (sock : GbnSocket) : SocketStep → Option GbnSocket
  | .write bytes len => some (sock.gbnSocketWrite bytes len).1
  | .close => some sock.close
  | .writer timedOut junk => (sock.writerStep timedOut junk).map Prod.fst
  | .read incoming => if sock.reading then some (sock.readThread incoming).1 else none

/-- The packets that the write thread builds in the step, and hands to `gbn_socket_serialize`. -/
def built (sock : GbnSocket) : SocketStep → List Datagram
  | .writer timedOut junk => (sock.writerStep timedOut junk).elim [] Prod.snd
  | _ => []

end GbnSocket

def loneSocket : Machine GbnSocket SocketStep := ⟨GbnSocket.step⟩

/-- No block of the queue and no packet of the sending window is larger than a packet may be. -/
structure Short (sock : GbnSocket) : Prop where
  queued : ∀ block ∈ sock.sendingBuffer.pushed, block.len.toNat ≤ defaultPacketSize
  window : ∀ i, (sock.sendingWindow.packetBuffer i).size.toNat ≤ defaultPacketSize

section Short

variable {sock next : GbnSocket} {junk : Junk} {out : List Datagram}

theorem short_initial : Short initGbnSocket where
  queued block h := by cases h
  window _ := Nat.zero_le _

theorem Short.pushChunk (h : Short sock) (cursor : Bytes) {len : UInt32}
    (hlen : len.toNat ≤ defaultPacketSize) : Short (sock.pushChunk cursor len) := by
  refine ⟨fun block hblock => ?_, h.window⟩
  rcases List.mem_append.1 hblock with hblock | hblock
  · exact h.queued block hblock
  · rwa [List.mem_singleton.1 hblock]

theorem Short.writeWhole (h : Short sock) (n : Nat) (cursor : Bytes) :
    Short (GbnSocket.writeWhole n sock cursor).1 := by
  induction n generalizing sock cursor with
  | zero => exact h
  | succ n ih => exact ih (h.pushChunk cursor le_rfl) _

theorem Short.gbnSocketWrite (h : Short sock) (bytes : Bytes) (len : UInt32) :
    Short (sock.gbnSocketWrite bytes len).1 := by
  rw [GbnSocket.gbnSocketWrite]
  split
  case isTrue =>
    apply (h.writeWhole _ bytes).pushChunk
    rw [toNat_rest]
    simp only [defaultPacketSize]
    omega
  case isFalse => exact h.writeWhole _ bytes

theorem Short.kept (h : Short sock)
    (hslots : next.sendingWindow.packetBuffer = sock.sendingWindow.packetBuffer)
    (hpushed : ∀ block ∈ next.sendingBuffer.pushed,
      block ∈ sock.sendingBuffer.pushed ∨ block = ⟨0, 0, isClosing⟩) : Short next := by
  refine ⟨fun block hblock => ?_, fun i => ?_⟩
  · rcases hpushed block hblock with hold | rfl
    · exact h.queued block hold
    · exact Nat.zero_le _
  · rw [hslots]
    exact h.window i

theorem Short.writer (h : Short sock) (hmove : WriterMove sock junk next out) :
    Short next ∧ ∀ d ∈ out, d.size.toNat ≤ defaultPacketSize := by
  have hpushed : ∀ block ∈ next.sendingBuffer.pushed,
      block ∈ sock.sendingBuffer.pushed ∨ block = ⟨0, 0, isClosing⟩ := by
    rw [pushed_of_move hmove]
    exact fun _ => Or.inl
  cases hmove with
  | idle => exact ⟨h.kept rfl hpushed, by simp⟩
  | closing => exact ⟨h.kept rfl hpushed, by simp⟩
  | @send block _ hpeek =>
      have hlen := h.queued block (List.mem_of_getElem? hpeek)
      refine ⟨⟨fun b hb => ?_, fun i => ?_⟩, fun d hd => ?_⟩
      · rcases hpushed b hb with hold | rfl
        · exact h.queued b hold
        · exact Nat.zero_le _
      · change (Function.update sock.sendingWindow.packetBuffer _ _ i).size.toNat ≤ _
        rw [Function.update_apply]
        split
        · exact hlen
        · exact h.window i
      · rw [List.mem_singleton.1 hd]
        exact hlen
  | @resend i =>
      refine ⟨h.kept rfl hpushed, fun d hd => ?_⟩
      rw [List.mem_singleton.1 hd]
      exact h.window i
  | eof =>
      refine ⟨h.kept rfl hpushed, fun d hd => ?_⟩
      rw [List.mem_singleton.1 hd]
      exact Nat.zero_le _

theorem Short.read (h : Short sock) (incoming : Datagram) : Short (sock.readThread incoming).1 := by
  refine h.kept ?_ (readThread_pushed sock incoming)
  rw [GbnSocket.readThread]
  split
  · rfl
  · cases incoming.type with
    | ack => exact GbnWindow.acknowledge_slots _ _
    | _ => rfl

theorem Short.step {a : SocketStep} (h : Short sock) (hstep : sock.step a = some next) : Short next := by
  cases a with
  | write bytes len => exact Option.some.inj hstep ▸ h.gbnSocketWrite bytes len
  | close =>
      obtain rfl := Option.some.inj hstep
      rw [GbnSocket.close]
      cases sock.status with
      | opened => exact h.kept rfl fun block hblock => by simpa [BlockQueue.pushChunk] using hblock
      | closed => exact h
  | writer timedOut junk =>
      obtain ⟨⟨sock', out⟩, hwriter, rfl⟩ := Option.map_eq_some_iff.1 hstep
      exact (h.writer (writerMove_of_step hwriter)).1
  | read incoming =>
      obtain ⟨-, hnext⟩ := Option.ite_none_right_eq_some.1 hstep
      exact Option.some.inj hnext ▸ h.read incoming

theorem Short.built (h : Short sock) (a : SocketStep) :
    ∀ d ∈ sock.built a, d.size.toNat ≤ defaultPacketSize := by
  cases a with
  | writer timedOut junk =>
      intro d hd
      cases hwriter : sock.writerStep timedOut junk with
      | none =>
          rw [GbnSocket.built, hwriter] at hd
          cases hd
      | some moved =>
          rw [GbnSocket.built, hwriter] at hd
          exact (h.writer (writerMove_of_step hwriter)).2 d hd
  | _ => exact fun d hd => by cases hd

end Short

/-- **`gbn_socket_write` loses and changes nothing**: with room in the queue its blocks are pushed behind
those that are there, and they are the input. No packet that the write thread builds fails the assertion
of `gbn_socket_serialize`. -/
theorem write_loses_nothing :
    (∀ (sock : GbnSocket) (bytes : Bytes), bytes.length < 2 ^ 31 →
      ∃ blocks, Written sock bytes blocks (sock.gbnSocketWrite bytes (UInt32.ofNat bytes.length)) ∧
        ∀ (ι : Type) [DecidableEq ι] (s : Shared ι (DataBlock Ref)) (i : ι), Fifo s →
          s.blockQueue = sock.sendingBuffer → s.producers i = none →
          s.queue.size.toNat + (bytes.length + 4095) / 4096 ≤ queueCapacity →
          ∃ t, (sharedQueue ι (DataBlock Ref)).run s (blocks.map (.push i)) = some t ∧ Fifo t ∧
            t.blockQueue = (sock.gbnSocketWrite bytes (UInt32.ofNat bytes.length)).1.sendingBuffer) ∧
    ∀ (host : ByteOrder) (steps : List SocketStep),
      ∀ d ∈ loneSocket.trace GbnSocket.built initGbnSocket steps,
        (gbnSocketSerialize host d (UInt32.ofNat serializeSize)).isSome := by
  constructor
  · intro sock bytes hlen
    obtain ⟨blocks, hcount, hwritten⟩ := exists_written sock hlen
    refine ⟨blocks, hwritten, fun ι _ s i hfifo hqueue hidle hroom => ?_⟩
    obtain ⟨t, hrun, hnext, hpushed, hpopped⟩ := hfifo.run_pushes hidle (hcount ▸ hroom)
    refine ⟨t, hrun, hnext, ?_⟩
    rw [hwritten.queue, ← hqueue, Shared.blockQueue, hpushed, hpopped]
    rfl
  · intro host steps d hd
    have hshort := loneSocket.forall_mem_trace (P := fun d => d.size.toNat ≤ defaultPacketSize)
      (fun _ _ _ h hstep => Short.step h hstep) (fun _ a h => Short.built h a) short_initial steps d hd
    rw [gbnSocketSerialize, if_pos]
    · rfl
    · exact Nat.add_le_add_right hshort serializeOverhead

/-- Three bytes go into the empty queue as one block. -/
theorem write_loses_nothing_three : ∃ blocks,
    Written initGbnSocket [1, 2, 3] blocks (initGbnSocket.gbnSocketWrite [1, 2, 3] 3) ∧
      ∃ t, (sharedQueue Unit (DataBlock Ref)).run .initial (blocks.map (.push ())) = some t ∧ Fifo t := by
  obtain ⟨blocks, hwritten, hpush⟩ := write_loses_nothing.1 initGbnSocket [1, 2, 3] (by decide)
  obtain ⟨t, hrun, hfifo, -⟩ := hpush Unit .initial () fifo_initial rfl rfl (by decide)
  exact ⟨blocks, hwritten, t, hrun, hfifo⟩

end NetworkSystems.Gbn
