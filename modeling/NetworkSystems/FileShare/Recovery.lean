import NetworkSystems.FileShare.Server
import NetworkSystems.FileShare.Grammar

/-!
# After a malformed record

`connection_callback` drops a record that `read_file_stat` rejects, and reads the next word wherever the
reader has left the stream. The reader gives up on the byte that it rejects, so what is left of the line is
read as commands. A line that ends inside the owner or the host is not rejected at its newline: the loops
of these fields go on into the lines behind it.
-/

namespace NetworkSystems.FileShare

/-- A line that `read_file_stat` rejects. -/
structure Malformed (line : Bytes) : Prop where
  newline : (0x0a : UInt8) ∉ line
  rejected : (readFileStat ⟨line ++ [0x0a], false⟩).1 = none

/-- The thread drops the line and stands at what follows it. -/
def Recovers (c : Session) (line rest : Bytes) : Prop :=
  ∃ eof, (eof = true → rest = []) ∧
    ({ c with asfile := ⟨line ++ 0x0a :: rest, false⟩ } : Session).dispatch =
      { c with asfile := ⟨rest, eof⟩ }

/-- A line that ends inside the owner or the host: the field is as long as the buffer, or the stream ends
with it. -/
def CutField (field rest : Bytes) : Prop :=
  (0x3a : UInt8) ∉ field ∧
    (field.length = bufLen - 1 ∨ field.length < bufLen - 1 ∧ rest = [])

/-- A line that the reader rejects at its newline: it ends inside the name or the size, or inside one of the
fields behind them. -/
inductive StopsAtNewline (rest : Bytes) : Bytes → Prop
  | name {line : Bytes} (hslash : (0x2f : UInt8) ∉ line) (hlength : line.length ≤ bufLen - 1) :
      StopsAtNewline rest line
  | size {name size : Bytes} (hname : name.length ≤ bufLen - 1 ∧ (0x2f : UInt8) ∉ name)
      (hsize : ∀ ch ∈ size, ch ≠ 0x3a ∧ 0x30 ≤ ch ∧ ch < 0x40) :
      StopsAtNewline rest (name ++ 0x2f :: size)
  | owner {name size owner : Bytes} (hname : name.length ≤ bufLen - 1 ∧ (0x2f : UInt8) ∉ name)
      (hsize : ∀ ch ∈ size, ch ≠ 0x3a ∧ 0x30 ≤ ch ∧ ch < 0x40) (howner : CutField owner rest) :
      StopsAtNewline rest (name ++ 0x2f :: (size ++ 0x3a :: owner))
  | host {name size owner host : Bytes} (hname : name.length ≤ bufLen - 1 ∧ (0x2f : UInt8) ∉ name)
      (hsize : ∀ ch ∈ size, ch ≠ 0x3a ∧ 0x30 ≤ ch ∧ ch < 0x40)
      (howner : owner.length ≤ bufLen - 1 ∧ (0x3a : UInt8) ∉ owner) (hhost : CutField host rest) :
      StopsAtNewline rest (name ++ 0x2f :: (size ++ 0x3a :: (owner ++ 0x3a :: host)))

/-! ### The loops on a line -/

theorem exists_split_at {α : Type} {list : List α} {count : Nat} (h : count < list.length) :
    ∃ front a back, list = front ++ a :: back ∧ front.length = count :=
  ⟨list.take count, list[count], list.drop (count + 1),
    by rw [← List.drop_eq_getElem_cons h, List.take_append_drop],
    by rw [List.length_take]; omega⟩

theorem exists_first_not {α : Type} {p : α → Prop} {list : List α} (h : ¬ ∀ a ∈ list, p a) :
    ∃ front a back, list = front ++ a :: back ∧ (∀ b ∈ front, p b) ∧ ¬ p a := by
  induction list with
  | nil => exact absurd nofun h
  | cons a list ih =>
      by_cases ha : p a
      · obtain ⟨front, b, back, rfl, hfront, hb⟩ := ih fun hall => h (List.forall_mem_cons.2 ⟨ha, hall⟩)
        exact ⟨a :: front, b, back, rfl, List.forall_mem_cons.2 ⟨ha, hfront⟩, hb⟩
      · exact ⟨[], a, list, rfl, nofun, ha⟩

section Loops

variable {room : Nat} {front line bytes rest : Bytes} {size : UInt64}

theorem readName_tooLong (hroom : room < front.length)
    (hfront : ∀ ch ∈ front, ch ≠ 0x2f ∧ ch ≠ 0x0a) (bytes : Bytes) :
    ∃ left, readName room (front ++ bytes) = (.tooLong, ⟨left ++ bytes, false⟩) := by
  obtain ⟨front, ch, left, rfl, rfl⟩ := exists_split_at hroom
  obtain ⟨hslash, hnewline⟩ := hfront ch (by simp)
  refine ⟨left, ?_⟩
  rw [List.append_assoc, ← Nat.zero_add front.length,
    readName_append fun c hc => hfront c (List.mem_append_left _ hc), List.cons_append,
    readName_full hslash hnewline]
  rfl

theorem readField_tooLong (hroom : room < front.length) (hfront : (0x3a : UInt8) ∉ front) (bytes : Bytes) :
    ∃ left, readField room (front ++ bytes) = (none, ⟨left ++ bytes, false⟩) ∧
      left.length + room + 1 = front.length := by
  obtain ⟨front, ch, left, rfl, rfl⟩ := exists_split_at hroom
  rw [List.mem_append, List.mem_cons, not_or, not_or] at hfront
  refine ⟨left, ?_, by simp only [List.length_append, List.length_cons]; omega⟩
  rw [List.append_assoc, ← Nat.zero_add front.length, readField_append hfront.1, List.cons_append,
    readField_full fun heq => hfront.2.1 heq.symm]
  rfl

theorem readField_eof (hroom : front.length ≤ room) (hfront : (0x3a : UInt8) ∉ front) :
    readField room front = (some front, ⟨[], true⟩) := by
  have hread := readField_append hfront (room - front.length) []
  rw [Nat.sub_add_cancel hroom, List.append_nil] at hread
  rw [hread, readField]
  simp

theorem readNumber_newline (hfront : ∀ ch ∈ front, ch ≠ 0x3a ∧ 0x30 ≤ ch ∧ ch < 0x40) :
    readNumber 0x3a 0 (front ++ 0x0a :: rest) = (none, ⟨rest, false⟩) := by
  rw [readNumber_append hfront, readNumber, if_neg (by decide), if_pos (by decide)]

theorem readField_length_lt (hbytes : bytes ≠ []) (room : Nat) :
    (readField room bytes).2.bytes.length < bytes.length := by
  obtain ⟨ch, bytes, rfl⟩ := List.exists_cons_of_ne_nil hbytes
  rw [readField.eq_def]
  dsimp only
  split
  · simp
  · cases room with
    | zero => simp
    | succ room =>
        have hle := readField_length room bytes
        rcases hread : readField room bytes with ⟨_ | content, fd⟩ <;>
          simp only [hread, List.length_cons] at hle ⊢ <;> omega

end Loops

section Line

variable {line rest : Bytes}

theorem readName_line (hline : (0x0a : UInt8) ∉ line) (room : Nat) (rest : Bytes) :
    ((0x2f : UInt8) ∉ line ∧ line.length ≤ room) ∨
    (∃ name more, line = name ++ 0x2f :: more ∧ name.length ≤ room ∧ (0x2f : UInt8) ∉ name) ∨
    ∃ left, readName room (line ++ 0x0a :: rest) = (.tooLong, ⟨left ++ 0x0a :: rest, false⟩) := by
  by_cases hslash : (0x2f : UInt8) ∈ line
  · obtain ⟨name, more, rfl, hname⟩ := List.eq_append_cons_of_mem hslash
    by_cases hlength : name.length ≤ room
    · exact Or.inr (Or.inl ⟨name, more, rfl, hlength, hname⟩)
    · obtain ⟨left, hread⟩ := readName_tooLong (Nat.lt_of_not_le hlength) (fun ch hch =>
        ⟨ne_of_mem_of_not_mem hch hname, ne_of_mem_of_not_mem (List.mem_append_left _ hch) hline⟩)
        (0x2f :: (more ++ 0x0a :: rest))
      refine Or.inr (Or.inr ⟨left ++ 0x2f :: more, ?_⟩)
      simpa only [List.append_assoc, List.cons_append] using hread
  · by_cases hlength : line.length ≤ room
    · exact Or.inl ⟨hslash, hlength⟩
    · exact Or.inr (Or.inr (readName_tooLong (Nat.lt_of_not_le hlength) (fun ch hch =>
        ⟨ne_of_mem_of_not_mem hch hslash, ne_of_mem_of_not_mem hch hline⟩) (0x0a :: rest)))

/-- A number loop takes the whole line, or comes to its delimiter, or gives up inside the line. -/
theorem readNumber_line (delimiter : UInt8) (line rest : Bytes) :
    (∀ ch ∈ line, ch ≠ delimiter ∧ 0x30 ≤ ch ∧ ch < 0x40) ∨
    (∃ digits more, line = digits ++ delimiter :: more ∧
      ∀ ch ∈ digits, ch ≠ delimiter ∧ 0x30 ≤ ch ∧ ch < 0x40) ∨
    ∃ left, readNumber delimiter 0 (line ++ 0x0a :: rest) = (none, ⟨left ++ 0x0a :: rest, false⟩) := by
  by_cases hall : ∀ ch ∈ line, ch ≠ delimiter ∧ 0x30 ≤ ch ∧ ch < 0x40
  · exact Or.inl hall
  · obtain ⟨digits, ch, more, rfl, hdigits, hch⟩ := exists_first_not hall
    by_cases hdelimiter : ch = delimiter
    · exact Or.inr (Or.inl ⟨digits, more, by rw [hdelimiter], hdigits⟩)
    · have hinvalid : ch < 0x30 ∨ 0x40 ≤ ch := by
        by_contra hvalid
        rw [not_or, UInt8.not_lt, UInt8.not_le] at hvalid
        exact hch ⟨hdelimiter, hvalid⟩
      refine Or.inr (Or.inr ⟨more, ?_⟩)
      rw [List.append_assoc, readNumber_append hdigits, List.cons_append, readNumber, if_neg hdelimiter,
        if_pos hinvalid]

/-- The loop of the owner or the host comes to a colon, or the line cuts the field, or the loop gives up
inside the line or reads on behind it. -/
theorem readField_line (line rest : Bytes) :
    (∃ field more, line = field ++ 0x3a :: more ∧
      field.length ≤ bufLen - 1 ∧ (0x3a : UInt8) ∉ field) ∨
    CutField line rest ∨
    (∃ left, readField (bufLen - 1) (line ++ 0x0a :: rest) = (none, ⟨left ++ 0x0a :: rest, false⟩)) ∨
    (readField (bufLen - 1) (line ++ 0x0a :: rest)).2.bytes.length < rest.length := by
  by_cases hcolon : (0x3a : UInt8) ∈ line
  · obtain ⟨field, more, rfl, hfield⟩ := List.eq_append_cons_of_mem hcolon
    by_cases hlength : field.length ≤ bufLen - 1
    · exact Or.inl ⟨field, more, rfl, hlength, hfield⟩
    · obtain ⟨left, hread, -⟩ := readField_tooLong (Nat.lt_of_not_le hlength) hfield
        (0x3a :: (more ++ 0x0a :: rest))
      refine Or.inr (Or.inr (Or.inl ⟨left ++ 0x3a :: more, ?_⟩))
      simpa only [List.append_assoc, List.cons_append] using hread
  · rcases Nat.lt_trichotomy line.length (bufLen - 1) with hlt | heq | hgt
    · by_cases hrest : rest = []
      · exact Or.inr (Or.inl ⟨hcolon, Or.inr ⟨hlt, hrest⟩⟩)
      · refine Or.inr (Or.inr (Or.inr ?_))
        have hfront : (0x3a : UInt8) ∉ line ++ [0x0a] := by
          rw [List.mem_append, not_or]
          exact ⟨hcolon, by decide⟩
        have hroom : (line ++ [0x0a]).length ≤ bufLen - 1 := by
          rw [List.length_append]
          exact hlt
        rw [List.append_cons, ← Nat.sub_add_cancel hroom, readField_append hfront]
        exact readField_length_lt hrest _
    · exact Or.inr (Or.inl ⟨hcolon, Or.inl heq⟩)
    · obtain ⟨left, hread, -⟩ := readField_tooLong hgt hcolon (0x0a :: rest)
      exact Or.inr (Or.inr (Or.inl ⟨left, hread⟩))

end Line

/-! ### The reader on a line -/

section Line

variable {line rest : Bytes}

/-- A reader that leaves exactly what follows a malformed line has stopped at its newline. -/
theorem Malformed.stops (h : Malformed line)
    (hbytes : (readFileStatEnd ⟨line ++ 0x0a :: rest, false⟩).2.2.bytes = rest) :
    StopsAtNewline rest line := by
  have hleft : ∀ {left : Bytes}, left ++ 0x0a :: rest ≠ rest := by
    intro left heq
    have := congrArg List.length heq
    simp only [List.length_append, List.length_cons] at this
    omega
  rcases readName_line h.newline (bufLen - 1) rest with ⟨hslash, hlength⟩ | ⟨name, more, rfl, hname⟩ |
    ⟨left, hread⟩
  · exact .name hslash hlength
  · have hmore : (0x0a : UInt8) ∉ more := fun hmem => h.newline (by simp [hmem])
    have hchars : ∀ ch ∈ name, ch ≠ 0x2f ∧ ch ≠ 0x0a := fun ch hch =>
      ⟨ne_of_mem_of_not_mem hch hname.2, ne_of_mem_of_not_mem (List.mem_append_left _ hch) h.newline⟩
    have hnameRead : readName (bufLen - 1) (name ++ 0x2f :: more ++ 0x0a :: rest) =
        (.name name, ⟨more ++ 0x0a :: rest, false⟩) := by
      rw [List.append_assoc]
      exact readName_slash hname.1 hchars _
    rcases readNumber_line 0x3a more rest with hsize | ⟨size, more, rfl, hsize⟩ | ⟨left, hread⟩
    · exact .size hname hsize
    · have hsizeRead : readNumber 0x3a 0 (size ++ 0x3a :: more ++ 0x0a :: rest) =
          (some (numberOf size), ⟨more ++ 0x0a :: rest, false⟩) := by
        rw [List.append_assoc]
        exact readNumber_delimiter hsize _
      rcases readField_line more rest with ⟨owner, more, rfl, howner⟩ | hcut | ⟨left, hread⟩ | hpast
      · have hownerRead : readField (bufLen - 1) (owner ++ 0x3a :: more ++ 0x0a :: rest) =
            (some owner, ⟨more ++ 0x0a :: rest, false⟩) := by
          rw [List.append_assoc]
          exact readField_colon howner.1 howner.2 _
        rcases readField_line more rest with ⟨host, more, rfl, hhost⟩ | hcut | ⟨left, hread⟩ | hpast
        · have hhostRead : readField (bufLen - 1) (host ++ 0x3a :: more ++ 0x0a :: rest) =
              (some host, ⟨more ++ 0x0a :: rest, false⟩) := by
            rw [List.append_assoc]
            exact readField_colon hhost.1 hhost.2 _
          rcases readNumber_line 0x0a more rest with hport | ⟨port, more, rfl, -⟩ | ⟨left, hread⟩
          · have haccepts : Accepts (name ++ 0x2f :: (size ++ 0x3a :: (owner ++ 0x3a :: (host ++
                0x3a :: more))) ++ [0x0a]) name size owner host more [] :=
              ⟨by simp only [List.append_assoc, List.cons_append], ⟨hname.1, hchars⟩, hsize, howner, hhost,
                hport⟩
            have hsome := h.rejected
            rw [readFileStat, haccepts.read] at hsome
            cases hsome
          · exact absurd (by simp) h.newline
          · rw [readFileStatEnd_of_port _ hnameRead hsizeRead hownerRead hhostRead hread] at hbytes
            exact absurd hbytes hleft
        · exact .host hname hsize howner hcut
        · rw [readFileStatEnd_of_host _ hnameRead hsizeRead hownerRead hread] at hbytes
          exact absurd hbytes hleft
        · have hle := readFileStatEnd_host_length ⟨_, false⟩ hnameRead hsizeRead hownerRead
          rw [hbytes] at hle
          exact absurd hle (Nat.not_le_of_lt hpast)
      · exact .owner hname hsize hcut
      · rw [readFileStatEnd_of_owner _ hnameRead hsizeRead hread] at hbytes
        exact absurd hbytes hleft
      · have hle := readFileStatEnd_owner_length ⟨_, false⟩ hnameRead hsizeRead
        rw [hbytes] at hle
        exact absurd hle (Nat.not_le_of_lt hpast)
    · rw [readFileStatEnd_of_size _ hnameRead hread] at hbytes
      exact absurd hbytes hleft
  · rw [readFileStatEnd_of_tooLong _ hread] at hbytes
    exact absurd hbytes hleft

/-- A field that is cut is rejected at the newline, or runs into the end of the stream. -/
theorem CutField.read {field : Bytes} (h : CutField field rest) :
    readField (bufLen - 1) (field ++ 0x0a :: rest) = (none, ⟨rest, false⟩) ∨
      rest = [] ∧ readField (bufLen - 1) (field ++ 0x0a :: rest) = (some (field ++ [0x0a]), ⟨[], true⟩) := by
  have hfront : (0x3a : UInt8) ∉ field ++ [0x0a] := by
    rw [List.mem_append, not_or]
    exact ⟨h.1, by decide⟩
  have hlength : (field ++ [0x0a]).length = field.length + 1 := List.length_append
  rw [List.append_cons]
  rcases h.2 with hfull | ⟨hlt, rfl⟩
  · have hroom : bufLen - 1 < (field ++ [0x0a]).length := by omega
    obtain ⟨left, hread, hcount⟩ := readField_tooLong hroom hfront rest
    have hnil : left = [] := List.length_eq_zero_iff.1 (by omega)
    rw [hnil] at hread
    exact Or.inl hread
  · rw [List.append_nil]
    exact Or.inr ⟨rfl, readField_eof (by omega) hfront⟩

theorem StopsAtNewline.read (h : StopsAtNewline rest line) (hline : (0x0a : UInt8) ∉ line) :
    ∃ eof, (eof = true → rest = []) ∧
      readFileStat ⟨line ++ 0x0a :: rest, false⟩ = (none, ⟨rest, eof⟩) := by
  have hchars : ∀ {name : Bytes}, (0x2f : UInt8) ∉ name → (0x0a : UInt8) ∉ name →
      ∀ ch ∈ name, ch ≠ 0x2f ∧ ch ≠ 0x0a := fun hslash hnewline ch hch =>
    ⟨ne_of_mem_of_not_mem hch hslash, ne_of_mem_of_not_mem hch hnewline⟩
  rw [readFileStat]
  cases h with
  | name hslash hlength =>
      refine ⟨false, by simp, ?_⟩
      rw [readFileStatEnd_of_line _ (readName_newline hlength (hchars hslash hline))]
  | size hname hsize =>
      rw [List.mem_append, not_or] at hline
      have hread : readNumber 0x3a 0 (_ ++ 0x0a :: rest) = (none, ⟨rest, false⟩) :=
        readNumber_newline hsize
      refine ⟨false, by simp, ?_⟩
      rw [List.append_assoc, List.cons_append,
        readFileStatEnd_of_size _ (readName_slash hname.1 (hchars hname.2 hline.1) _) hread]
  | owner hname hsize howner =>
      rw [List.mem_append, not_or] at hline
      simp only [List.append_assoc, List.cons_append]
      rcases howner.read with hread | ⟨rfl, hread⟩
      · refine ⟨false, by simp, ?_⟩
        rw [readFileStatEnd_of_owner _ (readName_slash hname.1 (hchars hname.2 hline.1) _)
          (readNumber_delimiter hsize _) hread]
      · refine ⟨true, fun _ => rfl, ?_⟩
        rw [readFileStatEnd]
        simp only [readName_slash hname.1 (hchars hname.2 hline.1), readNumber_delimiter hsize, hread]
        rfl
  | host hname hsize howner hhost =>
      rw [List.mem_append, not_or] at hline
      simp only [List.append_assoc, List.cons_append]
      rcases hhost.read with hread | ⟨rfl, hread⟩
      · refine ⟨false, by simp, ?_⟩
        rw [readFileStatEnd_of_host _ (readName_slash hname.1 (hchars hname.2 hline.1) _)
          (readNumber_delimiter hsize _) (readField_colon howner.1 howner.2 _) hread]
      · refine ⟨true, fun _ => rfl, ?_⟩
        rw [readFileStatEnd]
        simp only [readName_slash hname.1 (hchars hname.2 hline.1), readNumber_delimiter hsize,
          readField_colon howner.1 howner.2, hread]
        rfl

end Line

/-! ### The thread -/

section Dispatch

variable (c : Session) {fd : File}

/-- However the record is read, the thread goes on where the reader has left the stream. -/
theorem Session.asfile_dispatch (hword : cString c.word = ascii ['N', 'E', 'W', 'F', 'I', 'L', 'E']) :
    c.dispatch.asfile = (readFileStat c.asfile).2 := by
  rw [dispatch, hword, if_neg (by decide), if_pos rfl]
  rcases readFileStat c.asfile with ⟨_ | tmp, asfile⟩
  · rfl
  · simp only
    split <;> rfl

theorem Session.dispatch_rejected (hword : cString c.word = ascii ['N', 'E', 'W', 'F', 'I', 'L', 'E'])
    (hread : readFileStat c.asfile = (none, fd)) : c.dispatch = { c with asfile := fd } := by
  rw [dispatch, hword, if_neg (by decide), if_pos rfl, hread]

end Dispatch

/-- **When a thread recovers from a malformed record**: exactly if the line is one that the reader rejects
at its newline. -/
theorem recovers_iff_stopsAtNewline (c : Session) (line rest : Bytes)
    (hword : cString c.word = ascii ['N', 'E', 'W', 'F', 'I', 'L', 'E']) (hline : Malformed line) :
    Recovers c line rest ↔ StopsAtNewline rest line := by
  constructor
  · rintro ⟨eof, -, hdispatch⟩
    have hasfile := Session.asfile_dispatch { c with asfile := ⟨line ++ 0x0a :: rest, false⟩ } hword
    rw [hdispatch] at hasfile
    exact hline.stops (congrArg File.bytes hasfile.symm)
  · intro hstops
    obtain ⟨eof, heof, hread⟩ := hstops.read hline.newline
    exact ⟨eof, heof, Session.dispatch_rejected _ hword hread⟩

def newFile : Session :=
  { Session.start [] [] with word := ascii ['N', 'E', 'W', 'F', 'I', 'L', 'E'] ++ [0] }

/-- A line without a slash. -/
theorem recovers_iff_stopsAtNewline_word :
    Recovers newFile (ascii ['x']) (ascii ['L', 'I', 'S', 'T', '\n']) :=
  (recovers_iff_stopsAtNewline newFile (ascii ['x']) (ascii ['L', 'I', 'S', 'T', '\n']) (by decide +kernel)
    ⟨by decide +kernel, by decide +kernel⟩).2 (.name (by decide +kernel) (by decide +kernel))

/-- Of the record `x/y LIST` the word `LIST` is left, and is the next command. -/
theorem not_recovers : ¬ ∀ (c : Session) (line rest : Bytes),
    cString c.word = ascii ['N', 'E', 'W', 'F', 'I', 'L', 'E'] → Malformed line → Recovers c line rest := by
  intro hclaim
  obtain ⟨eof, -, hdispatch⟩ := hclaim newFile (ascii ['x', '/', 'y', ' ', 'L', 'I', 'S', 'T']) []
    (by decide +kernel) ⟨by decide +kernel, by decide +kernel⟩
  have hasfile := congrArg (fun c => c.asfile.bytes) hdispatch
  change _ = ([] : Bytes) at hasfile
  exact absurd hasfile (by decide +kernel)

end NetworkSystems.FileShare
