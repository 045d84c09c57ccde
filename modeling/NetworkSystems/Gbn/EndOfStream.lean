import NetworkSystems.Gbn.Reading

/-!
# The end of a stream

When the sender has closed, the read thread pushes a marker behind the data, and nothing after it. A call
that comes to the marker in the loop of `gbn_socket_read` closes the socket and leaves the marker where it
is. A call for which the marker is the first block pops it like a block of data, and then waits for a block
that never comes.
-/

namespace NetworkSystems.Gbn

namespace ReadingSocket

section Marker

variable {sock : ReadingSocket} {blocks : List (DataBlock Bytes)} {block : DataBlock Bytes}
  {len : UInt32}

theorem marker_mem_of_pop {sock' : ReadingSocket} (hmem : GbnSocket.closingMarker ∈ sock.blocks)
    (hhead : sock.blocks.head? = some block) (hne : block ≠ GbnSocket.closingMarker)
    (hpop : sock'.receiveBuffer = sock.receiveBuffer.popChunk) :
    GbnSocket.closingMarker ∈ sock'.blocks := by
  obtain ⟨blocks, hblocks⟩ := List.head?_eq_some_iff.1 hhead
  rw [(blocks_of_pop sock' hblocks hpop).1]
  rw [hblocks] at hmem
  exact (List.mem_cons.1 hmem).resolve_left fun heq => hne heq.symm

theorem exists_head (hmem : GbnSocket.closingMarker ∈ sock.blocks) :
    ∃ block, sock.receiveBuffer.peekChunk = some block := by
  rw [peekChunk_eq]
  exact Option.isSome_iff_exists.1 (List.isSome_head?.2 (List.ne_nil_of_mem hmem))

theorem exists_readLoop (hmem : GbnSocket.closingMarker ∈ sock.blocks) (want : Nat) :
    ∃ bytes sock', sock.readLoop want = some (bytes, sock') ∧
      GbnSocket.closingMarker ∈ sock'.blocks := by
  fun_induction ReadingSocket.readLoop sock want with
  | case1 sock => exact ⟨[], sock, rfl, hmem⟩
  | case2 sock want hwant hpeek =>
      obtain ⟨block, hblock⟩ := exists_head hmem
      rw [hpeek] at hblock
      cases hblock
  | case3 sock want hwant block hpeek hflags => exact ⟨[], _, rfl, hmem⟩
  | case4 sock want hwant block hpeek hflags hle ih =>
      have hne : block ≠ GbnSocket.closingMarker := by
        rintro rfl
        exact hflags (by decide)
      obtain ⟨more, last, hmore, hlast⟩ :=
        ih (marker_mem_of_pop hmem ((peekChunk_eq sock).symm.trans hpeek) hne rfl)
      exact ⟨_, last, by rw [hmore]; rfl, hlast⟩
  | case5 sock want hwant block hpeek hflags hlt => exact ⟨_, _, rfl, hmem⟩

/-- A call does not wait as long as there is a marker that is not in front, and does not pass it. -/
theorem exists_read (hmem : GbnSocket.closingMarker ∈ sock.blocks)
    (hfront : sock.blocks.head? ≠ some GbnSocket.closingMarker) (len : UInt32) :
    ∃ bytes sock', sock.gbnSocketRead len = some (bytes, sock') ∧
      GbnSocket.closingMarker ∈ sock'.blocks := by
  rw [gbnSocketRead]
  split
  case isTrue => exact ⟨[], sock, rfl, hmem⟩
  case isFalse =>
    obtain ⟨block, hpeek⟩ := exists_head hmem
    have hhead := (peekChunk_eq sock).symm.trans hpeek
    have hne : block ≠ GbnSocket.closingMarker := by
      rintro rfl
      exact hfront hhead
    simp only [hpeek, Option.bind_some]
    split
    case isTrue hshort =>
      have hnext : GbnSocket.closingMarker ∈ blocks { sock.popBlock with currentBlockPtr := 0 } :=
        marker_mem_of_pop hmem hhead hne rfl
      obtain ⟨more, last, hmore, hlast⟩ :=
        exists_readLoop hnext (len.toNat - (sock.bytesRead block len).toNat)
      exact ⟨_, last, by rw [hmore]; rfl, hlast⟩
    case isFalse => exact ⟨_, _, rfl, hmem⟩

/-- A call that has only the marker in front of it waits for ever. -/
theorem Ready.read_marker (h : sock.Ready) (hopen : sock.status = .opened)
    (hblocks : sock.blocks = [GbnSocket.closingMarker]) (hlen : len ≠ 0) :
    sock.gbnSocketRead len = none := by
  have hhead : sock.blocks.head? = some GbnSocket.closingMarker := by rw [hblocks, List.head?_cons]
  have hcount := bytesRead_toNat (h.ptr_le _ hhead) len
  change _ = min len.toNat (0 - sock.currentBlockPtr.toNat) at hcount
  have hpos : len.toNat ≠ 0 := fun h0 => hlen (UInt32.toNat_inj.1 h0)
  have hne : sock.bytesRead GbnSocket.closingMarker len ≠ len := by
    intro heq
    rw [heq] at hcount
    omega
  have hempty := (blocks_of_pop { sock.popBlock with currentBlockPtr := 0 } hblocks rfl).1
  rw [gbnSocketRead, if_neg (by rw [hopen]; simp), peekChunk_eq, hhead, Option.bind_some]
  simp only [if_pos hne]
  rw [ReadingSocket.readLoop, if_neg (by omega)]
  split
  case h_1 => rfl
  case h_2 block hpeek =>
    rw [peekChunk_eq, hempty] at hpeek
    cases hpeek

end Marker

end ReadingSocket

namespace Reading

/-- A socket to which the blocks have been pushed, and behind them the marker of the end. -/
def delivered (blocks : List (DataBlock Bytes)) : Reading :=
  ⟨⟨{ initGbnSocket with receiveBuffer := ⟨blocks ++ [GbnSocket.closingMarker], 0⟩ }, 0⟩, []⟩

/-- How a call is to end. It returns with the marker still in the buffer. If it returns less than it was
asked for, all bytes of the data have been returned and the socket is closed. At a closed socket it returns
nothing. -/
structure MeetsEnd (r : Reading) (len : UInt32) (bytes : Bytes) (next : Reading) : Prop where
  returned : next.returned = r.returned ++ [bytes]
  marker : GbnSocket.closingMarker ∈ next.sock.blocks
  short : bytes.length < len.toNat →
    next.returned.flatten.length = (streamOf next.sock.receiveBuffer.pushed).length ∧
      next.sock.status = .closed
  closed : r.sock.status = .closed → bytes = [] ∧ next.sock.status = .closed

/-- What is asked of a step. -/
def Meets (r : Reading) (a : ReadAction) (next : Reading) : Prop :=
  ∀ len, a = .read len → ∃ bytes, r.MeetsEnd len bytes next

/-- No call waits, and all end as they are to end. -/
def AllMeetEnd (blocks : List (DataBlock Bytes)) (lens : List UInt32) : Prop :=
  (∃ r, reading.run (delivered blocks) (lens.map .read) = some r) ∧
    reading.EveryStep Meets (delivered blocks) (lens.map .read)

/-- The marker is not the first block of an open socket. -/
def DataInFront (r : Reading) (_ : ReadAction) : Prop :=
  r.sock.status = .opened → r.sock.blocks.head? ≠ some GbnSocket.closingMarker

instance (r : Reading) (a : ReadAction) : Decidable (r.DataInFront a) :=
  inferInstanceAs (Decidable (_ → _))

/-- The steps are calls that ask for something. -/
def AsksFor (_ : Reading) (a : ReadAction) : Prop := ∃ len, a = .read len ∧ len ≠ 0

structure EndInv (blocks : List (DataBlock Bytes)) (r : Reading) : Prop where
  ready : r.sock.Ready
  pushed : r.sock.receiveBuffer.pushed = blocks ++ [GbnSocket.closingMarker]
  marker : GbnSocket.closingMarker ∈ r.sock.blocks
  behind : ∃ front, r.Behind front
  closed : r.sock.status = .closed → r.sock.blocks.head? = some GbnSocket.closingMarker

section Run

variable {blocks : List (DataBlock Bytes)} {r next : Reading} {a : ReadAction} {lens : List UInt32}

theorem endInv_delivered (hblocks : ∀ block ∈ blocks, block.Carries) :
    (delivered blocks).EndInv blocks where
  ready := by
    refine ⟨Nat.zero_le _, fun _ _ => UInt32.zero_le, fun _ => rfl, fun block hmem => ?_⟩
    rcases List.mem_append.1 hmem with hmem | hmem
    · exact Or.inl (hblocks block hmem)
    · exact Or.inr (List.mem_singleton.1 hmem)
  pushed := rfl
  marker := List.mem_append_right _ List.mem_cons_self
  behind := ⟨[], rfl, rfl⟩
  closed := nofun

theorem EndInv.blocks_of_head (h : r.EndInv blocks) (hblocks : ∀ block ∈ blocks, block.Carries)
    (hhead : r.sock.blocks.head? = some GbnSocket.closingMarker) :
    r.sock.blocks = [GbnSocket.closingMarker] := by
  have hmarker : ¬ GbnSocket.closingMarker.Carries := fun hcarries => absurd hcarries.flags (by decide)
  have hdrop : r.sock.blocks = (blocks ++ [GbnSocket.closingMarker]).drop r.sock.receiveBuffer.popped := by
    rw [← h.pushed]
    rfl
  have hge : blocks.length ≤ r.sock.receiveBuffer.popped := by
    by_contra hlt
    rw [hdrop, List.head?_drop, List.getElem?_append_left (by omega)] at hhead
    exact hmarker (hblocks _ (List.mem_of_getElem? hhead))
  rw [List.drop_append, List.drop_of_length_le hge, List.nil_append] at hdrop
  have hzero : r.sock.receiveBuffer.popped - blocks.length = 0 := by
    by_contra hpos
    rw [List.drop_of_length_le (by simp only [List.length_singleton]; omega)] at hdrop
    rw [hdrop] at hhead
    cases hhead
  rw [hdrop, hzero, List.drop_zero]

theorem EndInv.dataInFront (h : r.EndInv blocks) (hblocks : ∀ block ∈ blocks, block.Carries)
    (hask : r.AsksFor a) (hstep : reading.step r a = some next) : r.DataInFront a := by
  obtain ⟨len, rfl, hlen⟩ := hask
  obtain ⟨result, hread, -⟩ := Option.map_eq_some_iff.1 hstep
  intro hopen hhead
  rw [h.ready.read_marker hopen (h.blocks_of_head hblocks hhead) hlen] at hread
  cases hread

theorem EndInv.all_returned (h : r.EndInv blocks) (hblocks : ∀ block ∈ blocks, block.Carries)
    (hhead : r.sock.blocks.head? = some GbnSocket.closingMarker) :
    r.returned.flatten.length = (streamOf r.sock.receiveBuffer.pushed).length := by
  obtain ⟨front, hstream, hlength⟩ := h.behind
  have hrest : r.sock.rest = [] := by
    rw [ReadingSocket.rest, h.blocks_of_head hblocks hhead]
    exact List.drop_nil
  rw [hstream, hrest, List.append_nil, hlength]

theorem step_read {len : UInt32} {bytes : Bytes} {sock' : ReadingSocket}
    (hread : r.sock.gbnSocketRead len = some (bytes, sock')) :
    reading.step r (.read len) = some ⟨sock', r.returned ++ [bytes]⟩ :=
  congrArg (Option.map _) hread

theorem EndInv.exists_step (h : r.EndInv blocks) (hblocks : ∀ block ∈ blocks, block.Carries)
    (hask : r.AsksFor a) (hfront : r.DataInFront a) :
    ∃ next, reading.step r a = some next ∧ next.EndInv blocks ∧ r.Meets a next := by
  obtain ⟨len, rfl, -⟩ := hask
  obtain ⟨front, hbehind⟩ := h.behind
  have hmeets : ∀ next bytes, r.MeetsEnd len bytes next → r.Meets (.read len) next := by
    rintro next bytes hend len' ⟨⟩
    exact ⟨bytes, hend⟩
  cases hstatus : r.sock.status with
  | closed =>
      have hread : r.sock.gbnSocketRead len = some ([], r.sock) := by
        rw [ReadingSocket.gbnSocketRead, if_pos hstatus]
      have hinv : EndInv blocks ⟨r.sock, r.returned ++ [[]]⟩ := by
        refine ⟨h.ready, h.pushed, h.marker, ⟨front, hbehind.stream, ?_⟩, h.closed⟩
        rw [List.flatten_append, List.flatten_singleton, List.append_nil]
        exact hbehind.length
      refine ⟨⟨r.sock, r.returned ++ [[]]⟩, step_read hread, hinv, hmeets _ [] ?_⟩
      exact ⟨rfl, h.marker, fun _ => ⟨hinv.all_returned hblocks (h.closed hstatus), hstatus⟩,
        fun _ => ⟨rfl, hstatus⟩⟩
  | opened =>
      obtain ⟨bytes, sock', hread, hmarker⟩ := ReadingSocket.exists_read h.marker (hfront hstatus) len
      obtain ⟨⟨hready, hpushed, hends⟩, more, hbehind', -⟩ := hbehind.read h.ready hstatus hread
      have hshort : sock'.status = .closed → sock'.blocks.head? = some GbnSocket.closingMarker := by
        intro hclosed
        rcases hends with ⟨-, hsame⟩ | ⟨-, -, hhead⟩
        · rw [hclosed, hstatus] at hsame
          cases hsame
        · exact hhead
      have hinv : EndInv blocks ⟨sock', r.returned ++ [bytes]⟩ :=
        ⟨hready, hpushed.trans h.pushed, hmarker, ⟨front ++ more, hbehind'⟩, hshort⟩
      refine ⟨⟨sock', r.returned ++ [bytes]⟩, step_read hread, hinv, hmeets _ bytes ?_⟩
      refine ⟨rfl, hmarker, fun hlt => ?_, fun hclosed => absurd (hstatus.symm.trans hclosed) (by simp)⟩
      rcases hends with ⟨hcount, -⟩ | ⟨-, hclosed, hhead⟩
      · omega
      · exact ⟨hinv.all_returned hblocks hhead, hclosed⟩

end Run

end Reading

/-- **When all calls meet the end of the stream**: exactly if no call on the open socket finds the marker
as its first block. -/
theorem allMeetEnd_iff_dataInFront (blocks : List (DataBlock Bytes)) (lens : List UInt32)
    (hblocks : ∀ block ∈ blocks, block.Carries) (hlens : ∀ len ∈ lens, len ≠ 0) :
    Reading.AllMeetEnd blocks lens ↔
      reading.Within Reading.DataInFront (.delivered blocks) (lens.map .read) := by
  have hinv := Reading.endInv_delivered hblocks
  have hask : reading.Within Reading.AsksFor (.delivered blocks) (lens.map .read) := by
    refine reading.within_of_forall (fun a ha r => ?_) _
    obtain ⟨len, hlen, rfl⟩ := List.mem_map.1 ha
    exact ⟨len, rfl, hlens len hlen⟩
  have hkeep : ∀ r a next, r.EndInv blocks → r.AsksFor a → reading.step r a = some next →
      next.EndInv blocks ∧ r.Meets a next ∧ r.DataInFront a := by
    intro r a next hI hA hstep
    have hfront := hI.dataInFront hblocks hA hstep
    obtain ⟨next', hstep', hnext⟩ := hI.exists_step hblocks hA hfront
    obtain rfl := Option.some.inj (hstep.symm.trans hstep')
    exact ⟨hnext.1, hnext.2, hfront⟩
  have hevery := fun r hrun => reading.everyStep_iff_within (t := r) (Q := Reading.Meets)
    (fun r a next hI hA hstep => (hkeep r a next hI hA hstep).1)
    (fun r a next hI hA hstep => iff_of_true (hkeep r a next hI hA hstep).2.1
      (hkeep r a next hI hA hstep).2.2) hinv hask hrun
  constructor
  · rintro ⟨⟨r, hrun⟩, hall⟩
    exact (hevery r hrun).1 hall
  · intro hwithin
    obtain ⟨r, hrun⟩ := reading.exists_run (I := Reading.EndInv blocks)
      (C := fun r a => r.AsksFor a ∧ r.DataInFront a) (fun r a hI hC => by
        obtain ⟨next, hstep, hnext, -⟩ := hI.exists_step hblocks hC.1 hC.2
        exact ⟨next, hstep, hnext⟩) hinv (hask.and hwithin)
    exact ⟨⟨r, hrun⟩, (hevery r hrun).2 hwithin⟩

/-- A block that is read whole, and a second call. -/
theorem allMeetEnd_iff_dataInFront_whole : Reading.AllMeetEnd [⟨[1, 2], 2, 0⟩] [2, 1] :=
  (allMeetEnd_iff_dataInFront [⟨[1, 2], 2, 0⟩] [2, 1] (by decide) (by simp)).2 (by decide +kernel)

/-- Two blocks of one byte that one call reads: the next call waits for ever. -/
theorem not_allMeetEnd : ¬ ∀ (blocks : List (DataBlock Bytes)) (lens : List UInt32),
    (∀ block ∈ blocks, block.Carries) → (∀ len ∈ lens, len ≠ 0) → Reading.AllMeetEnd blocks lens := by
  intro hclaim
  obtain ⟨⟨r, hrun⟩, -⟩ := hclaim [⟨[1], 1, 0⟩, ⟨[2], 1, 0⟩] [2, 1] (by decide) (by simp)
  have hwaits : (reading.run (.delivered [⟨[1], 1, 0⟩, ⟨[2], 1, 0⟩]) ([2, 1].map .read)).isNone = true := by
    decide +kernel
  rw [hrun] at hwaits
  cases hwaits

end NetworkSystems.Gbn
