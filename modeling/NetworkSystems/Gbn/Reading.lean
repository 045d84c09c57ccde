import NetworkSystems.Lib.Machine
import NetworkSystems.Gbn.Socket

/-!
# Reading from a socket

`gbn_socket_read` takes its bytes from the blocks of the receive buffer and keeps a cursor into the first
of them. The bytes that are still to be read are those of the blocks behind the cursor. Every call moves
the cursor by as many bytes as it returns, but it copies from the start of the first block and not from
the cursor.
-/

namespace NetworkSystems.Gbn

/-- A `gbn_socket_t` with the cursor into the first block of its receive buffer. -/
structure ReadingSocket extends GbnSocket where
  currentBlockPtr : UInt32

namespace ReadingSocket

/-- Free the first block and pop it. -/
def popBlock (sock : ReadingSocket) : ReadingSocket :=
  { sock with receiveBuffer := sock.receiveBuffer.popChunk }

/-- The loop of `gbn_socket_read`, with the number of bytes that are still wanted: what it copies, and the
socket after it. `none` means that it waits for a block. -/
def readLoop (sock : ReadingSocket) (want : Nat) : Option (Bytes × ReadingSocket) :=
  if want = 0 then some ([], sock)
  else
    match _h : sock.receiveBuffer.peekChunk with
    | none => none
    | some block =>
        if block.flags &&& isClosing ≠ 0 then some ([], { sock with status := .closed })
        else if block.len.toNat ≤ want then
          (readLoop sock.popBlock (want - block.len.toNat)).map fun more =>
            (block.data.take block.len.toNat ++ more.1, more.2)
        else some (block.data.take want, { sock with currentBlockPtr := UInt32.ofNat want })
termination_by sock.receiveBuffer.pushed.length - sock.receiveBuffer.popped
decreasing_by
  have := BlockQueue.peekChunk_lt _h
  simp only [popBlock, BlockQueue.popChunk_of_peek _h]
  omega

/-- How many bytes of the first block a call reads: the smaller one of what is asked for and what is left
of the block. -/
def bytesRead (sock : ReadingSocket) (block : DataBlock Bytes) (len : UInt32) : UInt32 :=
  if block.len - sock.currentBlockPtr < len then block.len - sock.currentBlockPtr else len

/-- `gbn_socket_read`: the bytes it returns, and the socket after it. `none` means that it waits for a
block. -/
def gbnSocketRead (sock : ReadingSocket) (len : UInt32) : Option (Bytes × ReadingSocket) :=
  if sock.status = .closed then some ([], sock)
  else
    sock.receiveBuffer.peekChunk.bind fun block =>
      let bytesRead := sock.bytesRead block len
      let bytes := block.data.take bytesRead.toNat
      if bytesRead ≠ len then
        (readLoop { sock.popBlock with currentBlockPtr := 0 } (len.toNat - bytesRead.toNat)).map
          fun more => (bytes ++ more.1, more.2)
      else some (bytes, { sock with currentBlockPtr := sock.currentBlockPtr + bytesRead })

end ReadingSocket

/-! ### The bytes behind the cursor -/

structure DataBlock.Carries (block : DataBlock Bytes) : Prop where
  len : block.len.toNat = block.data.length
  nonempty : block.data ≠ []
  flags : block.flags &&& isClosing = 0

instance (block : DataBlock Bytes) : Decidable block.Carries :=
  decidable_of_iff (block.len.toNat = block.data.length ∧ block.data ≠ [] ∧ block.flags &&& isClosing = 0)
    ⟨fun h => ⟨h.1, h.2.1, h.2.2⟩, fun h => ⟨h.len, h.nonempty, h.flags⟩⟩

def streamOf (blocks : List (DataBlock Bytes)) : Bytes := blocks.flatMap DataBlock.data

@[simp] theorem streamOf_cons (block : DataBlock Bytes) (blocks : List (DataBlock Bytes)) :
    streamOf (block :: blocks) = block.data ++ streamOf blocks := List.flatMap_cons

namespace ReadingSocket

def blocks (sock : ReadingSocket) : List (DataBlock Bytes) :=
  sock.receiveBuffer.pushed.drop sock.receiveBuffer.popped

def rest (sock : ReadingSocket) : Bytes := (streamOf sock.blocks).drop sock.currentBlockPtr.toNat

/-- The bytes from the start of the first block are those from the cursor, as far as a call reads in this
block. -/
def InPlace (sock : ReadingSocket) (len : UInt32) : Prop :=
  ∀ block, sock.blocks.head? = some block →
    block.data.take (sock.bytesRead block len).toNat =
      (block.data.drop sock.currentBlockPtr.toNat).take (sock.bytesRead block len).toNat

theorem inPlace_iff {sock : ReadingSocket} {block : DataBlock Bytes}
    (hhead : sock.blocks.head? = some block) (len : UInt32) : sock.InPlace len ↔
      block.data.take (sock.bytesRead block len).toNat =
        (block.data.drop sock.currentBlockPtr.toNat).take (sock.bytesRead block len).toNat :=
  ⟨fun hall => hall block hhead, fun heq _ hb => Option.some.inj (hhead.symm.trans hb) ▸ heq⟩

instance (sock : ReadingSocket) (len : UInt32) : Decidable (sock.InPlace len) :=
  match h : sock.blocks.head? with
  | none => isTrue fun _ hb => nomatch h.symm.trans hb
  | some _ => decidable_of_iff' _ (inPlace_iff h len)

/-- The cursor is in the first block, and all blocks hold data or are the marker of the end. -/
structure Ready (sock : ReadingSocket) : Prop where
  popped_le : sock.receiveBuffer.popped ≤ sock.receiveBuffer.pushed.length
  ptr_le : ∀ block, sock.blocks.head? = some block → sock.currentBlockPtr ≤ block.len
  ptr_eq : sock.blocks = [] → sock.currentBlockPtr = 0
  carries : ∀ block ∈ sock.blocks, block.Carries ∨ block = GbnSocket.closingMarker

/-- How a call ends that was to read a number of bytes: it has read all of them, or it has met the marker
and closed the socket. -/
structure Reads (sock sock' : ReadingSocket) (count want : Nat) : Prop where
  ready : sock'.Ready
  pushed : sock'.receiveBuffer.pushed = sock.receiveBuffer.pushed
  ends : count = want ∧ sock'.status = sock.status ∨
    count < want ∧ sock'.status = .closed ∧ sock'.blocks.head? = some GbnSocket.closingMarker

section Read

variable {sock sock' : ReadingSocket} {block : DataBlock Bytes} {blocks : List (DataBlock Bytes)}
  {bytes : Bytes} {want : Nat} {len : UInt32}

theorem peekChunk_eq (sock : ReadingSocket) : sock.receiveBuffer.peekChunk = sock.blocks.head? := by
  rw [ReadingSocket.blocks, List.head?_drop]
  rfl

theorem readLoop_of_peek (hwant : want ≠ 0) (hpeek : sock.receiveBuffer.peekChunk = some block) :
    sock.readLoop want =
      if block.flags &&& isClosing ≠ 0 then some ([], { sock with status := .closed })
      else if block.len.toNat ≤ want then
        (sock.popBlock.readLoop (want - block.len.toNat)).map fun more =>
          (block.data.take block.len.toNat ++ more.1, more.2)
      else some (block.data.take want, { sock with currentBlockPtr := UInt32.ofNat want }) := by
  rw [ReadingSocket.readLoop, if_neg hwant]
  split
  case h_1 hnone =>
    rw [hpeek] at hnone
    cases hnone
  case h_2 found hfound =>
    rw [hpeek] at hfound
    rw [Option.some.inj hfound]

theorem blocks_of_pop (sock' : ReadingSocket) (hblocks : sock.blocks = block :: blocks)
    (hpop : sock'.receiveBuffer = sock.receiveBuffer.popChunk) :
    sock'.blocks = blocks ∧ sock'.receiveBuffer.pushed = sock.receiveBuffer.pushed ∧
      sock'.receiveBuffer.popped ≤ sock'.receiveBuffer.pushed.length := by
  have hpeek : sock.receiveBuffer.peekChunk = some block := by
    rw [peekChunk_eq, hblocks, List.head?_cons]
  have hlt := BlockQueue.peekChunk_lt hpeek
  rw [ReadingSocket.blocks, hpop, BlockQueue.popChunk_of_peek hpeek]
  refine ⟨?_, rfl, hlt⟩
  rw [← List.drop_drop]
  change sock.blocks.drop 1 = blocks
  rw [hblocks, List.drop_one, List.tail_cons]

theorem rest_of_start (sock : ReadingSocket) (hptr : sock.currentBlockPtr = 0) :
    sock.rest = streamOf sock.blocks := by
  rw [rest, hptr]
  rfl

theorem Ready.carries_of_flags (h : sock.Ready) (hhead : sock.blocks.head? = some block)
    (hflags : block.flags &&& isClosing = 0) : block.Carries := by
  refine (h.carries block (List.mem_of_head? hhead)).resolve_right fun heq => ?_
  rw [heq] at hflags
  exact absurd hflags (by decide)

theorem Ready.next (h : sock.Ready) (hblocks : sock.blocks = block :: blocks)
    (hpop : sock'.receiveBuffer = sock.receiveBuffer.popChunk) (hptr : sock'.currentBlockPtr = 0) :
    sock'.Ready := by
  obtain ⟨hnext, -, hle⟩ := blocks_of_pop sock' hblocks hpop
  refine ⟨hle, fun _ _ => ?_, fun _ => hptr, fun b hb => ?_⟩
  · rw [hptr]
    exact UInt32.zero_le
  · rw [hnext] at hb
    exact h.carries b (hblocks ▸ List.mem_cons_of_mem _ hb)

/-- The loop starts at the start of a block, and copies the bytes behind the cursor. -/
theorem Ready.readLoop (h : sock.Ready) (hptr : sock.currentBlockPtr = 0)
    (hread : sock.readLoop want = some (bytes, sock')) :
    sock.Reads sock' bytes.length want ∧ sock.rest = bytes ++ sock'.rest := by
  fun_induction ReadingSocket.readLoop sock want generalizing bytes with
  | case1 sock =>
      cases hread
      exact ⟨⟨h, rfl, Or.inl ⟨rfl, rfl⟩⟩, rfl⟩
  | case2 => cases hread
  | case3 sock want hwant block hpeek hflags =>
      cases hread
      rw [peekChunk_eq] at hpeek
      have hmarker : block = GbnSocket.closingMarker :=
        (h.carries block (List.mem_of_head? hpeek)).resolve_left fun hcarries => hflags hcarries.flags
      exact ⟨⟨⟨h.popped_le, h.ptr_le, h.ptr_eq, h.carries⟩, rfl,
        Or.inr ⟨Nat.pos_of_ne_zero hwant, rfl, hmarker ▸ hpeek⟩⟩, rfl⟩
  | case4 sock want hwant block hpeek hflags hle ih =>
      rw [peekChunk_eq] at hpeek
      obtain ⟨blocks, hblocks⟩ := List.head?_eq_some_iff.1 hpeek
      have hcarries := h.carries_of_flags hpeek (not_not.1 hflags)
      have hlen := hcarries.len
      obtain ⟨hnext, hsame, -⟩ := blocks_of_pop sock.popBlock hblocks rfl
      obtain ⟨⟨more, last⟩, hrest, heq⟩ := Option.map_eq_some_iff.1 hread
      obtain ⟨rfl, rfl⟩ := Prod.mk.inj heq
      obtain ⟨⟨hready, hpushed, hends⟩, hstream⟩ := ih (h.next hblocks rfl hptr) hptr hrest
      rw [rest_of_start sock.popBlock hptr, hnext] at hstream
      have hdata : block.data.take block.len.toNat = block.data := by rw [hlen, List.take_length]
      simp only [hdata, List.length_append]
      rw [rest_of_start sock hptr, hblocks, streamOf_cons, hstream, List.append_assoc]
      refine ⟨⟨hready, hpushed.trans hsame, ?_⟩, rfl⟩
      rcases hends with ⟨hcount, hstatus⟩ | ⟨hcount, hstatus, hhead⟩
      · exact Or.inl ⟨by omega, hstatus⟩
      · exact Or.inr ⟨by omega, hstatus, hhead⟩
  | case5 sock want hwant block hpeek hflags hlt =>
      rw [peekChunk_eq] at hpeek
      obtain ⟨blocks, hblocks⟩ := List.head?_eq_some_iff.1 hpeek
      have hlen := (h.carries_of_flags hpeek (not_not.1 hflags)).len
      have hsize := block.len.toNat_lt
      obtain ⟨rfl, rfl⟩ := Prod.mk.inj (Option.some.inj hread)
      have hwantEq : (UInt32.ofNat want).toNat = want := UInt32.toNat_ofNat_of_lt' (by
        simp only [UInt32.size]; omega)
      refine ⟨⟨⟨h.popped_le, fun b hb => ?_, fun hnil => ?_, h.carries⟩, rfl, Or.inl ⟨?_, rfl⟩⟩, ?_⟩
      · obtain rfl := Option.some.inj (hpeek.symm.trans hb)
        rw [UInt32.le_iff_toNat_le, hwantEq]
        omega
      · exact absurd (hblocks.symm.trans hnil) (by simp)
      · rw [List.length_take]
        omega
      · rw [rest_of_start sock hptr, rest]
        change streamOf sock.blocks = _ ++ (streamOf sock.blocks).drop (UInt32.ofNat want).toNat
        rw [hwantEq, hblocks, streamOf_cons, List.drop_append_of_le_length (by omega), ← List.append_assoc,
          List.take_append_drop]

theorem Ready.length_eq (h : sock.Ready) (hmem : block ∈ sock.blocks) :
    block.len.toNat = block.data.length := by
  rcases h.carries block hmem with hcarries | rfl
  · exact hcarries.len
  · rfl

theorem bytesRead_toNat (hle : sock.currentBlockPtr ≤ block.len) (len : UInt32) :
    (sock.bytesRead block len).toNat = min len.toNat (block.len.toNat - sock.currentBlockPtr.toNat) := by
  have hsub := UInt32.toNat_sub_of_le _ _ hle
  rw [bytesRead]
  split
  case isTrue hlt =>
    rw [UInt32.lt_iff_toNat_lt, hsub] at hlt
    omega
  case isFalse hge =>
    rw [UInt32.lt_iff_toNat_lt, hsub] at hge
    omega

/-- A call on an open socket moves the cursor by as many bytes as it returns. They are the bytes behind
the cursor exactly if the first block is read in place. -/
theorem Ready.read (h : sock.Ready) (hopen : sock.status = .opened)
    (hread : sock.gbnSocketRead len = some (bytes, sock')) :
    sock.Reads sock' bytes.length len.toNat ∧ ∃ front, sock.rest = front ++ sock'.rest ∧
      front.length = bytes.length ∧ (bytes = front ↔ sock.InPlace len) := by
  rw [gbnSocketRead, if_neg (by rw [hopen]; exact nofun), Option.bind_eq_some_iff] at hread
  obtain ⟨block, hpeek, hread⟩ := hread
  rw [peekChunk_eq] at hpeek
  obtain ⟨blocks, hblocks⟩ := List.head?_eq_some_iff.1 hpeek
  have hlen := h.length_eq (List.mem_of_head? hpeek)
  have hle := h.ptr_le block hpeek
  have hcount := bytesRead_toNat hle len
  rw [UInt32.le_iff_toNat_le] at hle
  have hplace := inPlace_iff hpeek len
  have hrest : sock.rest = block.data.drop sock.currentBlockPtr.toNat ++ streamOf blocks := by
    rw [rest, hblocks, streamOf_cons, List.drop_append_of_le_length (by omega)]
  by_cases hall : sock.bytesRead block len = len
  · simp only [hall, ne_eq, not_true_eq_false, if_false, Option.some.injEq, Prod.mk.injEq] at hread
    obtain ⟨rfl, rfl⟩ := hread
    rw [hall] at hplace hcount
    have hptr : (sock.currentBlockPtr + len).toNat = sock.currentBlockPtr.toNat + len.toNat := by
      have := block.len.toNat_lt
      rw [UInt32.toNat_add, Nat.mod_eq_of_lt (by omega)]
    refine ⟨⟨⟨h.popped_le, fun b hb => ?_, fun hnil => ?_, h.carries⟩, rfl, Or.inl ⟨?_, rfl⟩⟩,
      (block.data.drop sock.currentBlockPtr.toNat).take len.toNat, ?_, ?_, hplace.symm⟩
    · obtain rfl := Option.some.inj (hpeek.symm.trans hb)
      rw [UInt32.le_iff_toNat_le, hptr]
      omega
    · exact absurd (hblocks.symm.trans hnil) (by simp)
    · rw [List.length_take]
      omega
    · rw [hrest, rest]
      change _ = _ ++ (streamOf sock.blocks).drop (sock.currentBlockPtr + len).toNat
      rw [hptr, hblocks, streamOf_cons, List.drop_append_of_le_length (by omega), ← List.append_assoc,
        ← List.drop_drop, List.take_append_drop]
    · simp only [List.length_take, List.length_drop]
      omega
  · have hlt : (sock.bytesRead block len).toNat < len.toNat := by
      have hne : (sock.bytesRead block len).toNat ≠ len.toNat := fun heq => hall (UInt32.toNat_inj.1 heq)
      omega
    simp only [ne_eq, hall, not_false_eq_true, if_true, Option.map_eq_some_iff, Prod.mk.injEq] at hread
    obtain ⟨⟨more, last⟩, hloop, rfl, rfl⟩ := hread
    obtain ⟨hnext, hsame, -⟩ :=
      blocks_of_pop { sock.popBlock with currentBlockPtr := 0 } hblocks rfl
    obtain ⟨⟨hready, hpushed, hends⟩, hstream⟩ := (h.next hblocks rfl rfl).readLoop rfl hloop
    have hwhole : (block.data.drop sock.currentBlockPtr.toNat).take (sock.bytesRead block len).toNat =
        block.data.drop sock.currentBlockPtr.toNat :=
      List.take_of_length_le (by rw [List.length_drop]; omega)
    have hlength : (block.data.take (sock.bytesRead block len).toNat ++ more).length =
        (sock.bytesRead block len).toNat + more.length := by
      rw [List.length_append, List.length_take]
      omega
    rw [rest_of_start _ rfl, hnext] at hstream
    rw [hwhole] at hplace
    refine ⟨⟨hready, hpushed.trans hsame, ?_⟩,
      block.data.drop sock.currentBlockPtr.toNat ++ more, ?_, ?_, ?_⟩
    · rw [hlength]
      rcases hends with ⟨hmore, hstatus⟩ | ⟨hmore, hstatus, hhead⟩
      · exact Or.inl ⟨by omega, hstatus⟩
      · exact Or.inr ⟨by omega, hstatus, hhead⟩
    · rw [hrest, hstream, List.append_assoc]
    · rw [hlength, List.length_append, List.length_drop]
      omega
    · rw [hplace, List.append_cancel_right_eq]

end Read

def pushChunk (sock : ReadingSocket) (block : DataBlock Bytes) : ReadingSocket :=
  { sock with receiveBuffer := sock.receiveBuffer.pushChunk block }

section Push

variable {sock : ReadingSocket} {block : DataBlock Bytes}

theorem Ready.blocks_pushChunk (h : sock.Ready) (block : DataBlock Bytes) :
    (sock.pushChunk block).blocks = sock.blocks ++ [block] :=
  List.drop_append_of_le_length h.popped_le

theorem Ready.pushChunk (h : sock.Ready) (hblock : block.Carries ∨ block = GbnSocket.closingMarker) :
    (sock.pushChunk block).Ready := by
  have hblocks := h.blocks_pushChunk block
  refine ⟨h.popped_le.trans ?_, fun b hb => ?_, fun hnil => ?_, fun b hb => ?_⟩
  · simp only [ReadingSocket.pushChunk, BlockQueue.pushChunk, List.length_append]
    exact Nat.le_add_right _ _
  · rw [hblocks] at hb
    cases hold : sock.blocks with
    | nil =>
        change sock.currentBlockPtr ≤ b.len
        rw [h.ptr_eq hold]
        exact UInt32.zero_le
    | cons first more =>
        rw [hold, List.cons_append, List.head?_cons] at hb
        exact h.ptr_le b (by rw [hold, List.head?_cons, hb])
  · rw [hblocks] at hnil
    simp at hnil
  · rw [hblocks] at hb
    rcases List.mem_append.1 hb with hb | hb
    · exact h.carries b hb
    · exact List.mem_singleton.1 hb ▸ hblock

theorem Ready.ptr_le_length (h : sock.Ready) :
    sock.currentBlockPtr.toNat ≤ (streamOf sock.blocks).length := by
  cases hblocks : sock.blocks with
  | nil => rw [h.ptr_eq hblocks]; exact Nat.zero_le _
  | cons first more =>
      have hle := h.ptr_le first (by rw [hblocks, List.head?_cons])
      have hlen := h.length_eq (show first ∈ sock.blocks by rw [hblocks]; exact List.mem_cons_self)
      rw [UInt32.le_iff_toNat_le] at hle
      rw [streamOf_cons, List.length_append]
      omega

theorem Ready.rest_pushChunk (h : sock.Ready) : (sock.pushChunk block).rest = sock.rest ++ block.data := by
  rw [rest, h.blocks_pushChunk block, streamOf, List.flatMap_append, List.flatMap_singleton]
  exact List.drop_append_of_le_length h.ptr_le_length

theorem peekChunk_pushChunk {first : DataBlock Bytes} (h : sock.receiveBuffer.peekChunk = some first)
    (block : DataBlock Bytes) : (sock.pushChunk block).receiveBuffer.peekChunk = some first := by
  have hlt := BlockQueue.peekChunk_lt h
  exact (List.getElem?_append_left hlt).trans h

theorem popBlock_pushChunk {first : DataBlock Bytes} (h : sock.receiveBuffer.peekChunk = some first)
    (block : DataBlock Bytes) : (sock.pushChunk block).popBlock = sock.popBlock.pushChunk block := by
  have hpop := BlockQueue.popChunk_of_peek h
  have hpop' := BlockQueue.popChunk_of_peek (peekChunk_pushChunk h block)
  rw [popBlock, popBlock, hpop', hpop]
  rfl

theorem readLoop_pushChunk {sock' : ReadingSocket} {want : Nat} {bytes : Bytes}
    (h : sock.readLoop want = some (bytes, sock')) (block : DataBlock Bytes) :
    (sock.pushChunk block).readLoop want = some (bytes, sock'.pushChunk block) := by
  fun_induction readLoop sock want generalizing bytes with
  | case1 sock =>
      cases h
      rw [readLoop, if_pos rfl]
  | case2 => cases h
  | case3 sock want hwant first hpeek hflags =>
      cases h
      rw [readLoop_of_peek hwant (peekChunk_pushChunk hpeek block), if_pos hflags]
      rfl
  | case4 sock want hwant first hpeek hflags hle ih =>
      obtain ⟨⟨more, last⟩, hmore, heq⟩ := Option.map_eq_some_iff.1 h
      obtain ⟨rfl, rfl⟩ := Prod.mk.inj heq
      rw [readLoop_of_peek hwant (peekChunk_pushChunk hpeek block), if_neg hflags, if_pos hle,
        popBlock_pushChunk hpeek, ih hmore]
      rfl
  | case5 sock want hwant first hpeek hflags hlt =>
      cases h
      rw [readLoop_of_peek hwant (peekChunk_pushChunk hpeek block), if_neg hflags, if_neg hlt]
      rfl

/-- A block that is pushed while a call goes on makes no difference to what the call returns, so a call
can be one step. -/
theorem read_pushChunk {sock' : ReadingSocket} {len : UInt32} {bytes : Bytes}
    (h : sock.gbnSocketRead len = some (bytes, sock')) (block : DataBlock Bytes) :
    (sock.pushChunk block).gbnSocketRead len = some (bytes, sock'.pushChunk block) := by
  by_cases hclosed : sock.status = .closed
  · rw [gbnSocketRead, if_pos hclosed] at h
    cases h
    have hclosed' : (sock.pushChunk block).status = .closed := hclosed
    rw [gbnSocketRead, if_pos hclosed']
  · rw [gbnSocketRead, if_neg hclosed, Option.bind_eq_some_iff] at h
    obtain ⟨first, hpeek, hread⟩ := h
    have hcount : (sock.pushChunk block).bytesRead first len = sock.bytesRead first len := rfl
    have hclosed' : ¬ (sock.pushChunk block).status = .closed := hclosed
    rw [gbnSocketRead, if_neg hclosed', peekChunk_pushChunk hpeek block, Option.bind_some]
    simp only [hcount, popBlock_pushChunk hpeek]
    by_cases hall : sock.bytesRead first len = len
    · simp only [hall, ne_eq, not_true_eq_false, if_false] at hread ⊢
      cases hread
      rfl
    · simp only [ne_eq, hall, not_false_eq_true, if_true] at hread ⊢
      obtain ⟨⟨more, last⟩, hmore, heq⟩ := Option.map_eq_some_iff.1 hread
      cases heq
      have hloop := readLoop_pushChunk hmore block
      exact congrArg (Option.map _) hloop

end Push

end ReadingSocket

/-! ### A run of calls -/

/-- What happens to a receive buffer: the read thread pushes a block, or the application makes a call. -/
inductive ReadAction
  | push (block : DataBlock Bytes)
  | read (len : UInt32)

/-- A socket, and what each of the calls so far has returned. -/
structure Reading where
  sock : ReadingSocket
  returned : List Bytes

/-- The read thread and the application at a socket. A call that has to wait takes its step when the
blocks that it waits for have been pushed. -/
def reading : Machine Reading ReadAction where
  step r a :=
    match a with
    | .push block => some { r with sock := r.sock.pushChunk block }
    | .read len => (r.sock.gbnSocketRead len).map fun result => ⟨result.2, r.returned ++ [result.1]⟩

namespace Reading

def initial : Reading := ⟨⟨initGbnSocket, 0⟩, []⟩

def Streams (r : Reading) : Prop := r.returned.flatten <+: streamOf r.sock.receiveBuffer.pushed

instance (r : Reading) : Decidable r.Streams := inferInstanceAs (Decidable (_ <+: _))

def PushesData (_ : Reading) (a : ReadAction) : Prop := ∀ block, a = .push block → block.Carries

def ReadsInPlace (r : Reading) (a : ReadAction) : Prop := ∀ len, a = .read len → r.sock.InPlace len

theorem readsInPlace_read {r : Reading} {len : UInt32} :
    r.ReadsInPlace (.read len) ↔ r.sock.InPlace len :=
  ⟨fun hall => hall len rfl, fun hin _ heq => ReadAction.read.inj heq ▸ hin⟩

instance (r : Reading) (a : ReadAction) : Decidable (r.ReadsInPlace a) :=
  match a with
  | .push _ => isTrue nofun
  | .read _ => decidable_of_iff' _ readsInPlace_read

/-- The bytes in front of the cursor: as many as have been returned. -/
structure Behind (r : Reading) (front : Bytes) : Prop where
  stream : streamOf r.sock.receiveBuffer.pushed = front ++ r.sock.rest
  length : front.length = r.returned.flatten.length

section Run

variable {r next : Reading} {a : ReadAction} {front bytes : Bytes} {sock' : ReadingSocket} {len : UInt32}

/-- The part in front of the cursor tells whether the calls have returned the stream. -/
theorem Behind.streams_iff (h : r.Behind front) : r.Streams ↔ r.returned.flatten = front := by
  rw [Streams, h.stream]
  constructor
  · intro hpre
    exact (List.prefix_of_prefix_length_le hpre (List.prefix_append _ _) h.length.ge).eq_of_length
      h.length.symm
  · rintro rfl
    exact List.prefix_append _ _

theorem Behind.read (h : r.Behind front) (hready : r.sock.Ready) (hopen : r.sock.status = .opened)
    (hread : r.sock.gbnSocketRead len = some (bytes, sock')) :
    r.sock.Reads sock' bytes.length len.toNat ∧
      ∃ more, Behind ⟨sock', r.returned ++ [bytes]⟩ (front ++ more) ∧ (bytes = more ↔ r.sock.InPlace len) := by
  obtain ⟨hreads, more, hrest, hmore, hplace⟩ := hready.read hopen hread
  refine ⟨hreads, more, ⟨?_, ?_⟩, hplace⟩
  · change streamOf sock'.receiveBuffer.pushed = _
    rw [hreads.pushed, h.stream, hrest, List.append_assoc]
  · rw [List.flatten_append, List.length_append, List.length_append, h.length, hmore,
      List.flatten_singleton]

structure Inv (r : Reading) : Prop where
  ready : r.sock.Ready
  opened : r.sock.status = .opened
  carries : ∀ block ∈ r.sock.receiveBuffer.pushed, block.Carries
  behind : ∃ front, r.Behind front

theorem inv_initial : initial.Inv where
  ready := ⟨Nat.le_refl _, nofun, fun _ => rfl, nofun⟩
  opened := rfl
  carries := nofun
  behind := ⟨[], rfl, rfl⟩

theorem Inv.step (h : r.Inv) (hdata : PushesData r a) (hstep : reading.step r a = some next) :
    next.Inv ∧ (next.Streams ↔ r.Streams ∧ ReadsInPlace r a) := by
  obtain ⟨front, hfront⟩ := h.behind
  cases a with
  | push block =>
      obtain rfl := Option.some.inj hstep
      have hblock := hdata block rfl
      have hbehind : Behind ⟨r.sock.pushChunk block, r.returned⟩ front := by
        refine ⟨?_, hfront.length⟩
        change streamOf (r.sock.receiveBuffer.pushed ++ [block]) = front ++ (r.sock.pushChunk block).rest
        rw [h.ready.rest_pushChunk, ← List.append_assoc, ← hfront.stream, streamOf, List.flatMap_append,
          List.flatMap_singleton]
        rfl
      refine ⟨⟨h.ready.pushChunk (Or.inl hblock), h.opened, fun b hb => ?_, front, hbehind⟩, ?_⟩
      · rcases List.mem_append.1 hb with hb | hb
        · exact h.carries b hb
        · exact List.mem_singleton.1 hb ▸ hblock
      · have hplace : ReadsInPlace r (.push block) := nofun
        rw [hbehind.streams_iff, hfront.streams_iff, and_iff_left hplace]
  | read len =>
      obtain ⟨⟨bytes, sock'⟩, hread, rfl⟩ := Option.map_eq_some_iff.1 hstep
      obtain ⟨⟨hready, hpushed, hends⟩, more, hbehind, hplace⟩ := hfront.read h.ready h.opened hread
      have hcarries : ∀ block ∈ sock'.receiveBuffer.pushed, block.Carries := hpushed ▸ h.carries
      have hopen : sock'.status = .opened := by
        rcases hends with ⟨-, hstatus⟩ | ⟨-, -, hmarker⟩
        · exact hstatus.trans h.opened
        · have hmem := List.mem_of_mem_drop (List.mem_of_head? hmarker)
          exact absurd (hcarries _ hmem).flags (by decide)
      refine ⟨⟨hready, hopen, hcarries, front ++ more, hbehind⟩, ?_⟩
      rw [hbehind.streams_iff, hfront.streams_iff, readsInPlace_read, ← hplace, List.flatten_append,
        List.flatten_singleton]
      exact ⟨fun heq => List.append_inj heq hfront.length.symm, fun heq => by rw [heq.1, heq.2]⟩

end Run

end Reading

/-- **When the calls return the stream**: after any pushes of data and any calls, exactly if every call
has read its first block in place. -/
theorem streams_iff_readsInPlace (actions : List ReadAction) (r : Reading)
    (hblocks : ∀ block, .push block ∈ actions → block.Carries)
    (hrun : reading.run .initial actions = some r) :
    r.Streams ↔ reading.Within Reading.ReadsInPlace .initial actions := by
  have hdata : reading.Within Reading.PushesData .initial actions :=
    reading.within_of_forall (fun a ha r => show r.PushesData a from
      fun block heq => hblocks block (heq ▸ ha)) _
  refine (reading.last_iff_within (fun _ _ _ hI hD hstep => (Reading.Inv.step hI hD hstep).1)
    (fun _ _ _ hI hD hstep => (Reading.Inv.step hI hD hstep).2) Reading.inv_initial hdata hrun).trans ?_
  exact and_iff_right List.nil_prefix

/-- Two blocks that are read whole, by one call each. -/
theorem streams_iff_readsInPlace_whole : ∃ r, reading.run .initial
    [.push ⟨[1, 2], 2, 0⟩, .read 2, .push ⟨[3], 1, 0⟩, .read 1] = some r ∧ r.Streams := by
  obtain ⟨r, hrun⟩ := Option.isSome_iff_exists.1 (show (reading.run .initial
    [.push ⟨[1, 2], 2, 0⟩, .read 2, .push ⟨[3], 1, 0⟩, .read 1]).isSome = true by decide +kernel)
  refine ⟨r, hrun, (streams_iff_readsInPlace _ r (fun block hmem => ?_) hrun).2 (by decide +kernel)⟩
  simp only [List.mem_cons, List.not_mem_nil, ReadAction.push.injEq, reduceCtorEq, or_false, false_or]
    at hmem
  rcases hmem with rfl | rfl <;> decide

/-- A block that is read byte by byte: the first byte comes twice. -/
theorem not_streams : ¬ ∀ (actions : List ReadAction) (r : Reading),
    (∀ block, .push block ∈ actions → block.Carries) →
      reading.run .initial actions = some r → r.Streams := by
  intro hclaim
  have hstreams := hclaim [.push ⟨[1, 2], 2, 0⟩, .read 1, .read 1] _ (fun block hmem => ?_) rfl
  · exact absurd hstreams (by decide)
  · simp only [List.mem_cons, List.not_mem_nil, ReadAction.push.injEq, reduceCtorEq, or_false] at hmem
    rw [hmem]
    decide

end NetworkSystems.Gbn
