import NetworkSystems.Gbn.Close
import NetworkSystems.Gbn.EndOfStream
import NetworkSystems.Gbn.Writing

/-!
# The loop of the server

The server reads into a buffer of the size of one packet, so a call meets a block at its start or at its
end. A call at the start of a whole block leaves the block in the buffer with the cursor at its end. The
next call pops that block and takes the one behind it. So the calls go through the blocks in pairs, and
whether the marker is met by the loop of `gbn_socket_read` depends on where the file ends in such a pair.
-/

namespace NetworkSystems.Gbn

abbrev defaultBufSize : UInt32 := 4096

/-- The blocks of a file as they arrive. -/
def fileBlocks (file : Bytes) : List (DataBlock Bytes) :=
  (GbnSocket.writeBlocks file).map receivedBlock

/-! ### The blocks of a file -/

section Blocks

variable {file : Bytes} {n : Nat} {block : DataBlock Bytes}

theorem getElem?_writeBlocks (file : Bytes) (n : Nat) :
    (GbnSocket.writeBlocks file)[n]? =
      if n * 4096 < file.length then some ((file.drop (n * 4096)).take 4096) else none := by
  have hlength := length_writeBlocks file
  by_cases hlt : n * 4096 < file.length
  · rw [if_pos hlt]
    have hn : n < (GbnSocket.writeBlocks file).length := by omega
    rw [GbnSocket.writeBlocks] at hlength ⊢
    simp only [defaultPacketSize] at hlength ⊢
    have hwhole : ∀ m < file.length / 4096, ((List.range (file.length / 4096)).map fun cntr =>
        (file.drop (cntr * 4096)).take 4096)[m]? = some ((file.drop (m * 4096)).take 4096) := by
      intro m hm
      rw [List.getElem?_map, List.getElem?_range hm, Option.map_some]
    split
    case isTrue hrest =>
      by_cases hm : n < file.length / 4096
      · rw [List.getElem?_append_left (by rwa [List.length_map, List.length_range]), hwhole n hm]
      · have heq : n = file.length / 4096 := by omega
        rw [List.getElem?_append_right (by rw [List.length_map, List.length_range]; omega), heq,
          List.length_map, List.length_range, Nat.sub_self, List.getElem?_cons_zero,
          List.take_of_length_le (by rw [List.length_drop]; omega)]
    case isFalse hrest => exact hwhole n (by omega)
  · rw [if_neg hlt]
    exact List.getElem?_eq_none (by omega)

theorem length_fileBlocks (file : Bytes) : (fileBlocks file).length = (file.length + 4095) / 4096 := by
  rw [fileBlocks, List.length_map, length_writeBlocks]

/-- What is in the receive buffer at a place: a block of the file, or the marker behind the last one. -/
inductive BlockAt (file : Bytes) (n : Nat) (block : DataBlock Bytes) : Prop
  | data (hlt : n * 4096 < file.length) (hdata : block.data = (file.drop (n * 4096)).take 4096)
      (hlen : block.len.toNat = min 4096 (file.length - n * 4096)) (hflags : block.flags = 0)
  | marker (hle : file.length ≤ n * 4096) (hlast : n = (fileBlocks file).length)
      (hblock : block = GbnSocket.closingMarker)

theorem blockAt (h : (fileBlocks file ++ [GbnSocket.closingMarker])[n]? = some block) :
    BlockAt file n block := by
  have hlength := length_fileBlocks file
  by_cases hlt : n * 4096 < file.length
  · rw [List.getElem?_append_left (by omega), fileBlocks, List.getElem?_map, getElem?_writeBlocks,
      if_pos hlt, Option.map_some] at h
    obtain rfl := Option.some.inj h
    refine .data hlt rfl ?_ rfl
    change (UInt32.ofNat ((file.drop (n * 4096)).take 4096).length).toNat = _
    rw [List.length_take, List.length_drop]
    exact UInt32.toNat_ofNat_of_lt' (by simp only [UInt32.size]; omega)
  · have hn := (List.getElem?_eq_some_iff.1 h).1
    rw [List.length_append, List.length_singleton] at hn
    have hlast : n = (fileBlocks file).length := by omega
    rw [List.getElem?_append_right (by omega), hlast, Nat.sub_self, List.getElem?_cons_zero] at h
    exact .marker (by omega) hlast (Option.some.inj h).symm

end Blocks

/-! ### A call of the server -/

namespace ReadingSocket

/-- A call changes the cursor, the status and what has been popped. -/
structure OnlyReads (sock sock' : ReadingSocket) : Prop where
  same : ∃ popped status, sock'.toGbnSocket =
    { sock.toGbnSocket with receiveBuffer := ⟨sock.receiveBuffer.pushed, popped⟩, status := status }

theorem OnlyReads.refl (sock : ReadingSocket) : sock.OnlyReads sock := ⟨_, _, rfl⟩

theorem OnlyReads.of_same {sock mid sock' : ReadingSocket} (hsame : mid.toGbnSocket = sock.toGbnSocket)
    (h : mid.OnlyReads sock') : sock.OnlyReads sock' := by
  obtain ⟨popped, status, heq⟩ := h.same
  exact ⟨popped, status, by rw [heq, hsame]⟩

theorem popBlock_pushed (sock : ReadingSocket) :
    sock.popBlock.receiveBuffer.pushed = sock.receiveBuffer.pushed := by
  change sock.receiveBuffer.popChunk.pushed = _
  rw [BlockQueue.popChunk]
  split <;> rfl

theorem OnlyReads.pop {sock sock' : ReadingSocket} (h : sock.popBlock.OnlyReads sock') :
    sock.OnlyReads sock' := by
  obtain ⟨popped, status, heq⟩ := h.same
  rw [popBlock_pushed] at heq
  exact ⟨popped, status, heq⟩

theorem onlyReads_readLoop {sock sock' : ReadingSocket} {want : Nat} {bytes : Bytes}
    (h : sock.readLoop want = some (bytes, sock')) : sock.OnlyReads sock' := by
  fun_induction readLoop sock want generalizing bytes with
  | case1 =>
      cases h
      exact .refl _
  | case2 => cases h
  | case3 =>
      cases h
      exact ⟨_, _, rfl⟩
  | case4 sock want hwant block hpeek hflags hle ih =>
      obtain ⟨more, hmore, heq⟩ := Option.map_eq_some_iff.1 h
      cases heq
      exact (ih hmore).pop
  | case5 =>
      cases h
      exact ⟨_, _, rfl⟩

theorem onlyReads {sock sock' : ReadingSocket} {len : UInt32} {bytes : Bytes}
    (h : sock.gbnSocketRead len = some (bytes, sock')) : sock.OnlyReads sock' := by
  by_cases hclosed : sock.status = .closed
  · rw [gbnSocketRead, if_pos hclosed] at h
    cases h
    exact .refl sock
  · rw [gbnSocketRead, if_neg hclosed, Option.bind_eq_some_iff] at h
    obtain ⟨block, hpeek, hread⟩ := h
    by_cases hall : sock.bytesRead block len = len
    · simp only [hall, ne_eq, not_true_eq_false, if_false] at hread
      cases hread
      exact ⟨_, _, rfl⟩
    · simp only [ne_eq, hall, not_false_eq_true, if_true] at hread
      obtain ⟨more, hmore, heq⟩ := Option.map_eq_some_iff.1 hread
      cases heq
      have hsame : ({ sock.popBlock with currentBlockPtr := 0 } : ReadingSocket).toGbnSocket =
          sock.popBlock.toGbnSocket := rfl
      exact OnlyReads.pop ((onlyReads_readLoop hmore).of_same hsame)

/-- The blocks of the file have been pushed as far as they have arrived. -/
def Holds (sock : ReadingSocket) (file : Bytes) : Prop :=
  sock.receiveBuffer.pushed <+: fileBlocks file ++ [GbnSocket.closingMarker]

section Call

variable {file bytes : Bytes} {sock sock' : ReadingSocket} {n want : Nat} {block : DataBlock Bytes}

theorem Holds.blockAt (h : sock.Holds file) (hpeek : sock.receiveBuffer.peekChunk = some block) :
    BlockAt file sock.receiveBuffer.popped block := by
  have hlt := BlockQueue.peekChunk_lt hpeek
  obtain ⟨rest, hrest⟩ := h
  refine NetworkSystems.Gbn.blockAt ?_
  rw [← hrest, List.getElem?_append_left hlt]
  exact hpeek

theorem readLoop_of_empty (hwant : want ≠ 0) (hpeek : sock.receiveBuffer.peekChunk = none) :
    sock.readLoop want = none := by
  rw [readLoop, if_neg hwant]
  split
  case h_1 => rfl
  case h_2 found hfound =>
    rw [hpeek] at hfound
    cases hfound

/-- A loop that is at the start of a block takes the block, if there is one of the right size. Else it
takes what is left of the file and meets the marker. -/
structure Takes (file : Bytes) (n : Nat) (sock sock' : ReadingSocket) (bytes : Bytes) : Prop where
  bytes : bytes = (file.drop (n * 4096)).take 4096
  ends : (n + 1) * 4096 ≤ file.length ∧ sock' = sock.popBlock ∧ sock'.receiveBuffer.popped = n + 1 ∨
    file.length < (n + 1) * 4096 ∧ sock'.status = .closed

theorem Holds.readLoop (h : sock.Holds file) (hpopped : sock.receiveBuffer.popped = n)
    (hwant : 0 < want ∧ want ≤ 4096) (hmore : n * 4096 < file.length → want = 4096)
    (hread : sock.readLoop want = some (bytes, sock')) : Takes file n sock sock' bytes := by
  have hne : want ≠ 0 := by omega
  cases hpeek : sock.receiveBuffer.peekChunk with
  | none =>
      rw [readLoop_of_empty hne hpeek] at hread
      cases hread
  | some block =>
      rw [readLoop_of_peek hne hpeek] at hread
      have hat := h.blockAt hpeek
      rw [hpopped] at hat
      cases hat with
      | marker hle hlast hblock =>
          rw [hblock, if_pos (by decide)] at hread
          cases hread
          refine ⟨?_, Or.inr ⟨by omega, rfl⟩⟩
          rw [List.drop_of_length_le hle, List.take_nil]
      | data hlt hdata hlen hflags =>
          have hwhole : block.data.take block.len.toNat = block.data := by
            rw [hlen, hdata]
            refine List.take_of_length_le ?_
            rw [List.length_take, List.length_drop]
          have hwant' := hmore hlt
          rw [if_neg (by rw [hflags]; decide), if_pos (by omega), hwhole] at hread
          obtain ⟨⟨rest, last⟩, hrest, heq⟩ := Option.map_eq_some_iff.1 hread
          obtain ⟨rfl, rfl⟩ := Prod.mk.inj heq
          have hpop : sock.popBlock.receiveBuffer = { sock.receiveBuffer with popped := n + 1 } := by
            rw [← hpopped]
            exact BlockQueue.popChunk_of_peek hpeek
          by_cases hfull : (n + 1) * 4096 ≤ file.length
          · rw [show want - block.len.toNat = 0 by omega, ReadingSocket.readLoop, if_pos rfl] at hrest
            cases hrest
            exact ⟨by rw [List.append_nil, hdata], Or.inl ⟨hfull, rfl, by rw [hpop]⟩⟩
          · -- behind a block that is not whole there is only the marker
            have hne' : want - block.len.toNat ≠ 0 := by omega
            have hholds : sock.popBlock.Holds file := by
              rw [Holds, hpop]
              exact h
            cases hpeek' : sock.popBlock.receiveBuffer.peekChunk with
            | none =>
                rw [readLoop_of_empty hne' hpeek'] at hrest
                cases hrest
            | some next =>
                have hat' := hholds.blockAt hpeek'
                rw [hpop] at hat'
                cases hat' with
                | data hlt' =>
                    change (n + 1) * 4096 < _ at hlt'
                    omega
                | marker hle' hlast' hnext =>
                    rw [readLoop_of_peek hne' hpeek', hnext, if_pos (by decide)] at hrest
                    cases hrest
                    exact ⟨by rw [List.append_nil, hdata], Or.inr ⟨by omega, rfl⟩⟩

end Call

end ReadingSocket

/-! ### All calls of the server -/

/-- How far the calls have come that returned `output`: the cursor is at the start of the first block of
a pair, or at its end, or the socket is closed. -/
inductive Serves (file : Bytes) (sock : ReadingSocket) (output : Bytes) : Prop
  | start (i : Nat) (hopen : sock.status = .opened) (hpopped : sock.receiveBuffer.popped = 2 * i)
      (hptr : sock.currentBlockPtr = 0) (hle : 2 * i * 4096 ≤ file.length)
      (houtput : output = file.take (2 * i * 4096))
  | middle (i : Nat) (hopen : sock.status = .opened) (hpopped : sock.receiveBuffer.popped = 2 * i)
      (hptr : sock.currentBlockPtr = 4096) (hle : (2 * i + 1) * 4096 ≤ file.length)
      (houtput : output = file.take ((2 * i + 1) * 4096))
  | ended (hclosed : sock.status = .closed) (houtput : output = file)
      (hrest : ¬ 8192 ∣ file.length)

namespace Serves

variable {file output bytes : Bytes} {sock sock' : ReadingSocket}

theorem take_append_take (file : Bytes) (n : Nat) :
    file.take (n * 4096) ++ (file.drop (n * 4096)).take 4096 = file.take ((n + 1) * 4096) := by
  rw [Nat.succ_mul, List.take_add]

theorem read_of_opened {len : UInt32} (hopen : sock.status = .opened)
    (hread : sock.gbnSocketRead len = some (bytes, sock')) :
    ∃ block, sock.receiveBuffer.peekChunk = some block ∧
      (sock.bytesRead block len = len ∧ bytes = block.data.take len.toNat ∧
        sock' = { sock with currentBlockPtr := sock.currentBlockPtr + len } ∨
      sock.bytesRead block len ≠ len ∧ ∃ more,
        ReadingSocket.readLoop { sock.popBlock with currentBlockPtr := 0 }
          (len.toNat - (sock.bytesRead block len).toNat) = some (more, sock') ∧
        bytes = block.data.take (sock.bytesRead block len).toNat ++ more) := by
  rw [ReadingSocket.gbnSocketRead, if_neg (by simp [hopen]), Option.bind_eq_some_iff] at hread
  obtain ⟨block, hpeek, hread⟩ := hread
  refine ⟨block, hpeek, ?_⟩
  by_cases hall : sock.bytesRead block len = len
  · simp only [hall, ne_eq, not_true_eq_false, if_false] at hread
    cases hread
    exact Or.inl ⟨hall, rfl, rfl⟩
  · simp only [ne_eq, hall, not_false_eq_true, if_true] at hread
    obtain ⟨⟨more, last⟩, hmore, heq⟩ := Option.map_eq_some_iff.1 hread
    cases heq
    exact Or.inr ⟨hall, more, hmore, rfl⟩

theorem Holds.popped (h : sock.Holds file) {block : DataBlock Bytes}
    (hpeek : sock.receiveBuffer.peekChunk = some block) (sock' : ReadingSocket)
    (hpop : sock'.receiveBuffer = sock.receiveBuffer.popChunk) :
    sock'.Holds file ∧ sock'.receiveBuffer.popped = sock.receiveBuffer.popped + 1 := by
  rw [BlockQueue.popChunk_of_peek hpeek] at hpop
  rw [ReadingSocket.Holds, hpop]
  exact ⟨h, rfl⟩

theorem read_start {i : Nat} (hopen : sock.status = .opened)
    (hpopped : sock.receiveBuffer.popped = 2 * i) (hptr : sock.currentBlockPtr = 0)
    (hle : 2 * i * 4096 ≤ file.length) (hholds : sock.Holds file)
    (hread : sock.gbnSocketRead defaultBufSize = some (bytes, sock')) :
    Serves file sock' (file.take (2 * i * 4096) ++ bytes) ∧ (bytes = [] → sock'.status = .closed) := by
  have hsize : defaultBufSize.toNat = 4096 := rfl
  obtain ⟨block, hpeek, hcases⟩ := read_of_opened hopen hread
  have hat := hholds.blockAt hpeek
  have hptrle : sock.currentBlockPtr ≤ block.len := by
    rw [hptr]
    exact UInt32.zero_le
  have hcount := ReadingSocket.bytesRead_toNat hptrle defaultBufSize
  rw [hptr] at hcount
  change _ = min 4096 (block.len.toNat - 0) at hcount
  rw [Nat.sub_zero] at hcount
  obtain ⟨hnext, hpopped'⟩ := Holds.popped hholds hpeek { sock.popBlock with currentBlockPtr := 0 } rfl
  rw [hpopped] at hat hpopped'
  cases hat with
  | data hlt hdata hlen hflags =>
      have hlength : block.data.length = min 4096 (file.length - 2 * i * 4096) := by
        rw [hdata, List.length_take, List.length_drop]
      have hwhole : ∀ k, block.data.length ≤ k → block.data.take k = block.data :=
        fun k => List.take_of_length_le
      have hfull : sock.bytesRead block defaultBufSize = defaultBufSize →
          (2 * i + 1) * 4096 ≤ file.length := by
        intro hall
        rw [hall, hsize] at hcount
        clear hle
        omega
      rcases hcases with ⟨hall, rfl, rfl⟩ | ⟨hshort, more, hmore, rfl⟩
      · rw [hwhole defaultBufSize.toNat (by omega)]
        refine ⟨.middle i hopen hpopped (by rw [hptr]; rfl) (hfull hall) ?_, fun hnil => ?_⟩
        · rw [hdata, take_append_take]
        · rw [hnil, List.length_nil] at hlength
          omega
      · have hrest : file.length < (2 * i + 1) * 4096 := by
          by_contra hge
          exact hshort (UInt32.toNat_inj.1 (by omega))
        obtain ⟨hbytes, hends⟩ := hnext.readLoop hpopped'
          (by change 0 < 4096 - _ ∧ 4096 - _ ≤ 4096; omega) (fun hlt' => by omega) hmore
        obtain ⟨-, hclosed⟩ := hends.resolve_left fun hfull => by omega
        rw [List.drop_of_length_le (by omega), List.take_nil] at hbytes
        refine ⟨.ended hclosed ?_ (by omega), fun _ => hclosed⟩
        rw [hbytes, List.append_nil, hwhole _ (by omega), hdata, take_append_take,
          List.take_of_length_le hrest.le]
  | marker hend hlast hblock =>
      -- the marker is popped, and nothing is pushed behind it
      have hnone : ReadingSocket.readLoop { sock.popBlock with currentBlockPtr := 0 } 4096 = none := by
        refine ReadingSocket.readLoop_of_empty (by decide) ?_
        refine Option.eq_none_iff_forall_not_mem.2 fun found hfound => ?_
        have hat := hnext.blockAt hfound
        rw [hpopped'] at hat
        cases hat with
        | data hlt => omega
        | marker _ hlast' => omega
      rw [hblock] at hcount
      change _ = min 4096 0 at hcount
      rcases hcases with ⟨hall, -⟩ | ⟨-, more, hmore, -⟩
      · rw [hblock] at hall
        rw [hall] at hcount
        cases hcount
      · rw [hblock, hcount] at hmore
        exact absurd (hnone.symm.trans hmore) (by simp)

theorem read_middle {i : Nat} (hopen : sock.status = .opened)
    (hpopped : sock.receiveBuffer.popped = 2 * i) (hptr : sock.currentBlockPtr = 4096)
    (hle : (2 * i + 1) * 4096 ≤ file.length) (hholds : sock.Holds file)
    (hread : sock.gbnSocketRead defaultBufSize = some (bytes, sock')) :
    Serves file sock' (file.take ((2 * i + 1) * 4096) ++ bytes) ∧
      (bytes = [] → sock'.status = .closed) := by
  obtain ⟨block, hpeek, hcases⟩ := read_of_opened hopen hread
  have hat := hholds.blockAt hpeek
  obtain ⟨hnext, hpopped'⟩ := Holds.popped hholds hpeek { sock.popBlock with currentBlockPtr := 0 } rfl
  rw [hpopped] at hat hpopped'
  cases hat with
  | marker hend => omega
  | data hlt hdata hlen hflags =>
      have hptrle : sock.currentBlockPtr ≤ block.len := by
        rw [hptr, UInt32.le_iff_toNat_le]
        change 4096 ≤ _
        omega
      have hcount := ReadingSocket.bytesRead_toNat hptrle defaultBufSize
      rw [hptr] at hcount
      change _ = min 4096 (block.len.toNat - 4096) at hcount
      have hzero : (sock.bytesRead block defaultBufSize).toNat = 0 := by omega
      rcases hcases with ⟨hall, -⟩ | ⟨-, more, hmore, rfl⟩
      · rw [hall] at hzero
        cases hzero
      · rw [hzero] at hmore ⊢
        rw [List.take_zero, List.nil_append]
        obtain ⟨hbytes, hends⟩ := hnext.readLoop hpopped' (by decide) (fun _ => rfl) hmore
        have hlength : more.length = min 4096 (file.length - (2 * i + 1) * 4096) := by
          rw [hbytes, List.length_take, List.length_drop]
        rw [hbytes, take_append_take, ← hbytes]
        rcases hends with ⟨hfull, rfl, hpopped''⟩ | ⟨hrest, hclosed⟩
        · refine ⟨.start (i + 1) hopen hpopped'' rfl hfull rfl, fun hnil => ?_⟩
          rw [hnil, List.length_nil] at hlength
          omega
        · exact ⟨.ended hclosed (List.take_of_length_le hrest.le) (by omega), fun _ => hclosed⟩

theorem read (h : Serves file sock output) (hholds : sock.Holds file)
    (hread : sock.gbnSocketRead defaultBufSize = some (bytes, sock')) :
    Serves file sock' (output ++ bytes) ∧ (bytes = [] → sock'.status = .closed) := by
  cases h with
  | start i hopen hpopped hptr hle houtput =>
      rw [houtput]
      exact read_start hopen hpopped hptr hle hholds hread
  | middle i hopen hpopped hptr hle houtput =>
      rw [houtput]
      exact read_middle hopen hpopped hptr hle hholds hread
  | ended hclosed houtput hrest =>
      rw [ReadingSocket.gbnSocketRead, if_pos hclosed] at hread
      cases hread
      rw [List.append_nil]
      exact ⟨.ended hclosed houtput hrest, fun _ => hclosed⟩

/-- With all blocks and the marker in the buffer, no call waits, unless the file ends with a pair. -/
theorem exists_read (h : Serves file sock output)
    (hall : sock.receiveBuffer.pushed = fileBlocks file ++ [GbnSocket.closingMarker])
    (hrest : ¬ 8192 ∣ file.length) :
    ∃ bytes sock', sock.gbnSocketRead defaultBufSize = some (bytes, sock') := by
  have hlength := length_fileBlocks file
  have hmem : sock.receiveBuffer.popped ≤ (fileBlocks file).length →
      GbnSocket.closingMarker ∈ sock.blocks := by
    intro hle
    rw [ReadingSocket.blocks, hall, List.drop_append_of_le_length hle]
    exact List.mem_append_right _ List.mem_cons_self
  have hfront : sock.receiveBuffer.popped * 4096 < file.length →
      sock.blocks.head? ≠ some GbnSocket.closingMarker := by
    intro hlt hhead
    have hholds : sock.Holds file := by rw [ReadingSocket.Holds, hall]
    rw [← ReadingSocket.peekChunk_eq] at hhead
    cases hholds.blockAt hhead with
    | marker hle => omega
    | data _ _ _ hflags => exact absurd hflags (by decide)
  have hcall : sock.receiveBuffer.popped * 4096 < file.length →
      ∃ bytes sock', sock.gbnSocketRead defaultBufSize = some (bytes, sock') := by
    intro hlt
    obtain ⟨bytes, sock', hread, -⟩ :=
      ReadingSocket.exists_read (hmem (by omega)) (hfront hlt) defaultBufSize
    exact ⟨bytes, sock', hread⟩
  cases h with
  | start i _ hpopped _ hle => exact hcall (by omega)
  | middle i _ hpopped _ hle => exact hcall (by omega)
  | ended hclosed => exact ⟨[], sock, by rw [ReadingSocket.gbnSocketRead, if_pos hclosed]⟩

theorem of_same (h : Serves file sock output) (hstatus : sock'.status = sock.status)
    (hpopped : sock'.receiveBuffer.popped = sock.receiveBuffer.popped)
    (hptr : sock'.currentBlockPtr = sock.currentBlockPtr) : Serves file sock' output := by
  cases h with
  | start i hopen hat hstart hle houtput =>
      exact .start i (hstatus.trans hopen) (hpopped.trans hat) (hptr.trans hstart) hle houtput
  | middle i hopen hat hend hle houtput =>
      exact .middle i (hstatus.trans hopen) (hpopped.trans hat) (hptr.trans hend) hle houtput
  | ended hclosed houtput hrest => exact .ended (hstatus.trans hclosed) houtput hrest

theorem output_prefix (h : Serves file sock output) : output <+: file := by
  cases h with
  | start _ _ _ _ _ houtput => exact houtput ▸ List.take_prefix _ _
  | middle _ _ _ _ _ houtput => exact houtput ▸ List.take_prefix _ _
  | ended _ houtput => exact houtput ▸ List.prefix_refl _

end Serves

namespace ReadingSocket

/-- A call closes the socket only when it has met a marker. -/
theorem closing_of_readLoop {sock sock' : ReadingSocket} {want : Nat} {bytes : Bytes}
    (h : sock.readLoop want = some (bytes, sock')) (hclosed : sock'.status = .closed) :
    sock.status = .closed ∨ ∃ block ∈ sock.receiveBuffer.pushed, block.Closing := by
  fun_induction readLoop sock want generalizing bytes with
  | case1 =>
      cases h
      exact Or.inl hclosed
  | case2 => cases h
  | case3 sock want hwant block hpeek hflags => exact Or.inr ⟨block, List.mem_of_getElem? hpeek, hflags⟩
  | case4 sock want hwant block hpeek hflags hle ih =>
      obtain ⟨more, hmore, heq⟩ := Option.map_eq_some_iff.1 h
      cases heq
      rw [← popBlock_pushed]
      exact ih hmore
  | case5 =>
      cases h
      exact Or.inl hclosed

theorem closing_of_read {sock sock' : ReadingSocket} {len : UInt32} {bytes : Bytes}
    (h : sock.gbnSocketRead len = some (bytes, sock')) (hclosed : sock'.status = .closed) :
    sock.status = .closed ∨ ∃ block ∈ sock.receiveBuffer.pushed, block.Closing := by
  cases hstatus : sock.status with
  | closed => exact Or.inl rfl
  | opened =>
      obtain ⟨block, hpeek, ⟨-, -, rfl⟩ | ⟨-, more, hmore, -⟩⟩ := Serves.read_of_opened hstatus h
      · exact absurd (hstatus.symm.trans hclosed) (by simp)
      · rcases closing_of_readLoop hmore hclosed with hold | hmarker
        · exact absurd (hstatus.symm.trans hold) (by simp)
        · exact Or.inr (popBlock_pushed sock ▸ hmarker)

end ReadingSocket

end NetworkSystems.Gbn
