import NetworkSystems.FileShare.FileStat

/-!
# The buffer of the record reader

`read_file_stat_end` once more, with its 1024-byte buffer: every store goes to an index of the buffer, every
string is read from it up to a zero. A store or a read out of range has no result. The reader has a result
on every stream, the one of the reader on lists, and what it takes for a record ends where it should.
-/

namespace NetworkSystems.FileShare

/-- `char buf[ BUF_LEN ]` -/
abbrev RecordBuffer : Type := Vector UInt8 bufLen

namespace RecordBuffer

/-- `buf[pos] = ch` -/
def store (buf : RecordBuffer) (pos : Nat) (ch : UInt8) : Option RecordBuffer :=
  if h : pos < bufLen then some (buf.set pos ch) else none

/-- The string in the buffer. `none` is a buffer without a zero, of which the library reads past the end. -/
def string (buf : RecordBuffer) : Option Bytes :=
  if 0 ∈ buf.toList then some (cString buf.toList) else none

/-- `buf[buf_pos ++] = 0`, and the copy that `strdup` makes of the string. -/
def terminate (buf : RecordBuffer) (pos : Nat) : Option (RecordBuffer × Bytes) :=
  (buf.store pos 0).bind fun buf => buf.string.map fun s => (buf, s)

end RecordBuffer

open RecordBuffer

/-- How the loop over the file name ends: with the name in the buffer up to `pos`, at a newline with what
is stored through `end`, or too long. -/
inductive NameStop
  | name (buf : RecordBuffer) (pos : Nat)
  | newline (last : Bool)
  | tooLong

/-- The loop that reads the file name into the buffer. -/
def nameLoop (buf : RecordBuffer) (pos : Nat) : Bytes → Option (NameStop × File)
  | [] => some (.name buf pos, ⟨[], true⟩)
  | ch :: bytes =>
      if ch = 0x2f then some (.name buf pos, ⟨bytes, false⟩)
      else if ch = 0x0a then
        (buf.terminate pos).map fun line =>
          (.newline (decide (line.2 = ascii ['E', 'N', 'D'])), ⟨bytes, false⟩)
      else if bufLen - 1 ≤ pos then some (.tooLong, ⟨bytes, false⟩)
      else (buf.store pos ch).bind fun buf => nameLoop buf (pos + 1) bytes

/-- The loops that read the owner and the host into the buffer. The inner `none` is a field that is too
long. -/
def fieldLoop (buf : RecordBuffer) (pos : Nat) : Bytes → Option (Option (RecordBuffer × Nat) × File)
  | [] => some (some (buf, pos), ⟨[], true⟩)
  | ch :: bytes =>
      if ch = 0x3a then some (some (buf, pos), ⟨bytes, false⟩)
      else if bufLen - 1 ≤ pos then some (none, ⟨bytes, false⟩)
      else (buf.store pos ch).bind fun buf => fieldLoop buf (pos + 1) bytes

/-- A field from `buf_pos = 0` to the copy of its string. -/
def bufferedField (buf : RecordBuffer) (fd : File) : Option (Option (RecordBuffer × Bytes) × File) :=
  (fieldLoop buf 0 fd.bytes).bind fun
    | (none, fd) => some (none, fd)
    | (some (buf, pos), fd) => (buf.terminate pos).map fun field => (some field, fd)

/-- `read_file_stat_end` on the buffer. -/
def bufferedReadFileStatEnd (buf : RecordBuffer) (fd : File) : Option (Option FileStat × Bool × File) :=
  (nameLoop buf 0 fd.bytes).bind fun
    | (.newline last, fd) => some (none, last, fd)
    | (.tooLong, fd) => some (none, false, fd)
    | (.name buf pos, fd) =>
      (buf.terminate pos).bind fun (buf, fileName) =>
        match readNumber 0x3a 0 fd.bytes with
        | (none, fd) => some (none, false, fd)
        | (some fileSize, fd) =>
          (bufferedField buf fd).bind fun
            | (none, fd) => some (none, false, fd)
            | (some (buf, owner), fd) =>
              (bufferedField buf fd).bind fun
                | (none, fd) => some (none, false, fd)
                | (some (_, hostName), fd) =>
                  match readNumber 0x0a 0 fd.bytes with
                  | (none, fd) => some (none, false, fd)
                  | (some port, fd) =>
                    if fd.eof then some (none, false, fd)
                    else some (some ⟨fileName, fileSize, owner, hostName, port.toUInt16⟩, false, fd)

/-! ### Stores and strings -/

theorem cString_append_zero (content mem : Bytes) : cString (content ++ 0 :: mem) = cString content := by
  induction content with
  | nil => rfl
  | cons ch content ih =>
      rw [cString] at ih ⊢
      rw [cString, List.cons_append, List.takeWhile_cons, List.takeWhile_cons, ih]
      rfl

namespace RecordBuffer

theorem store_isPrefix {buf : RecordBuffer} {content : Bytes} (hcontent : content <+: buf.toList)
    (hroom : content.length < bufLen) (ch : UInt8) :
    ∃ next, buf.store content.length ch = some next ∧ content ++ [ch] <+: next.toList := by
  refine ⟨buf.set content.length ch, dif_pos hroom, ?_⟩
  obtain ⟨rest, hrest⟩ := hcontent
  have hlength := congrArg List.length hrest
  rw [List.length_append, Vector.length_toList] at hlength
  cases rest with
  | nil =>
      rw [List.length_nil] at hlength
      omega
  | cons old rest =>
      refine ⟨rest, ?_⟩
      rw [Vector.toList_set, ← hrest, List.set_append_right _ _ (Nat.le_refl _), Nat.sub_self,
        List.set_cons_zero, List.append_assoc]
      rfl

theorem lt_bufLen_of_room {pos room : Nat} (h : pos + room = bufLen - 1) : pos < bufLen := by
  simp only [bufLen] at h ⊢
  omega

theorem store_of_room {buf : RecordBuffer} {front : Bytes} (hfront : front <+: buf.toList) {room : Nat}
    (hroom : front.length + (room + 1) = bufLen - 1) (ch : UInt8) :
    ∃ next, buf.store front.length ch = some next ∧ front ++ [ch] <+: next.toList ∧
      (front ++ [ch]).length + room = bufLen - 1 := by
  obtain ⟨next, hstore, hnext⟩ := store_isPrefix hfront (lt_bufLen_of_room hroom) ch
  refine ⟨next, hstore, hnext, ?_⟩
  rw [List.length_append, List.length_singleton]
  omega

theorem string_of_isPrefix {buf : RecordBuffer} {content : Bytes} (hcontent : content ++ [0] <+: buf.toList) :
    buf.string = some (cString content) := by
  obtain ⟨rest, hrest⟩ := hcontent
  rw [List.append_assoc] at hrest
  rw [string, ← hrest, if_pos (by simp)]
  exact congrArg some (cString_append_zero content rest)

theorem terminate_of_isPrefix {buf : RecordBuffer} {content : Bytes} (hcontent : content <+: buf.toList)
    (hroom : content.length < bufLen) :
    ∃ next, buf.terminate content.length = some (next, cString content) := by
  obtain ⟨next, hstore, hnext⟩ := store_isPrefix hcontent hroom 0
  refine ⟨next, ?_⟩
  rw [terminate, hstore, Option.bind_some, string_of_isPrefix hnext, Option.map_some]

end RecordBuffer

/-! ### The loops -/

inductive NameStop.Agrees : NameStop → NameEnd → Prop
  | name {buf : RecordBuffer} {content : Bytes} (hcontent : content <+: buf.toList)
      (hpos : content.length < bufLen) : Agrees (.name buf content.length) (.name content)
  | newline {content : Bytes} :
      Agrees (.newline (decide (cString content = ascii ['E', 'N', 'D']))) (.line content)
  | tooLong : Agrees .tooLong .tooLong

theorem NameStop.agrees_name {buf : RecordBuffer} {front : Bytes} (hfront : front <+: buf.toList)
    (hpos : front.length < bufLen) :
    (NameStop.name buf front.length).Agrees ((NameEnd.name []).prepend front) := by
  rw [NameEnd.prepend, List.append_nil]
  exact .name hfront hpos

theorem NameEnd.prepend_prepend (front back : Bytes) (stop : NameEnd) :
    (stop.prepend back).prepend front = stop.prepend (front ++ back) := by
  cases stop with
  | name content => exact congrArg NameEnd.name (List.append_assoc front back content).symm
  | line content => exact congrArg NameEnd.line (List.append_assoc front back content).symm
  | tooLong => rfl

theorem nameLoop_agrees {buf : RecordBuffer} {front : Bytes} (hfront : front <+: buf.toList)
    {room : Nat} (hroom : front.length + room = bufLen - 1) (bytes : Bytes) :
    ∃ stop, nameLoop buf front.length bytes = some (stop, (readName room bytes).2) ∧
      stop.Agrees ((readName room bytes).1.prepend front) := by
  induction bytes generalizing buf front room with
  | nil =>
      have hpos := lt_bufLen_of_room hroom
      simp only [nameLoop, readName]
      exact ⟨_, rfl, NameStop.agrees_name hfront hpos⟩
  | cons ch bytes ih =>
      have hpos := lt_bufLen_of_room hroom
      rw [nameLoop]
      by_cases hslash : ch = 0x2f
      · have hread := @readName_slash [] room (Nat.zero_le room) (by simp) bytes
        rw [List.nil_append] at hread
        rw [if_pos hslash, hslash, hread]
        exact ⟨_, rfl, NameStop.agrees_name hfront hpos⟩
      rw [if_neg hslash]
      by_cases hnewline : ch = 0x0a
      · obtain ⟨next, hline⟩ := terminate_of_isPrefix hfront hpos
        have hread := @readName_newline [] bytes room (Nat.zero_le room) (by simp)
        rw [List.nil_append] at hread
        rw [if_pos hnewline, hnewline, hread, hline, Option.map_some]
        refine ⟨_, rfl, ?_⟩
        rw [NameEnd.prepend, List.append_nil]
        exact .newline
      rw [if_neg hnewline]
      cases room with
      | zero =>
          rw [if_pos (by omega), readName_full hslash hnewline]
          exact ⟨_, rfl, .tooLong⟩
      | succ room =>
          obtain ⟨next, hstore, hnext, hless⟩ := store_of_room hfront hroom ch
          have hread : readName (room + 1) (ch :: bytes) =
              ((readName room bytes).1.prepend [ch], (readName room bytes).2) :=
            @readName_append [ch] (by simpa using ⟨hslash, hnewline⟩) room bytes
          obtain ⟨stop, hloop, hagrees⟩ := ih hnext hless
          rw [List.length_append, List.length_singleton] at hloop
          rw [← NameEnd.prepend_prepend] at hagrees
          rw [if_neg (by omega), hstore, Option.bind_some, hloop, hread]
          exact ⟨stop, rfl, hagrees⟩

inductive FieldAgrees : Option (RecordBuffer × Nat) → Option Bytes → Prop
  | field {buf : RecordBuffer} {content : Bytes} (hcontent : content <+: buf.toList)
      (hpos : content.length < bufLen) : FieldAgrees (some (buf, content.length)) (some content)
  | tooLong : FieldAgrees none none

theorem fieldLoop_agrees {buf : RecordBuffer} {front : Bytes} (hfront : front <+: buf.toList)
    {room : Nat} (hroom : front.length + room = bufLen - 1) (bytes : Bytes) :
    ∃ field, fieldLoop buf front.length bytes = some (field, (readField room bytes).2) ∧
      FieldAgrees field ((readField room bytes).1.map (front ++ ·)) := by
  induction bytes generalizing buf front room with
  | nil =>
      have hpos := lt_bufLen_of_room hroom
      simp only [fieldLoop, readField]
      refine ⟨_, rfl, ?_⟩
      rw [Option.map_some, List.append_nil]
      exact .field hfront hpos
  | cons ch bytes ih =>
      have hpos := lt_bufLen_of_room hroom
      rw [fieldLoop]
      by_cases hcolon : ch = 0x3a
      · have hread := @readField_colon [] room (Nat.zero_le room) (by simp) bytes
        rw [List.nil_append] at hread
        rw [if_pos hcolon, hcolon, hread]
        refine ⟨_, rfl, ?_⟩
        rw [Option.map_some, List.append_nil]
        exact .field hfront hpos
      rw [if_neg hcolon]
      cases room with
      | zero =>
          rw [if_pos (by omega), readField_full hcolon]
          exact ⟨_, rfl, .tooLong⟩
      | succ room =>
          obtain ⟨next, hstore, hnext, hless⟩ := store_of_room hfront hroom ch
          have hread : readField (room + 1) (ch :: bytes) =
              ((readField room bytes).1.map ([ch] ++ ·), (readField room bytes).2) :=
            @readField_append [ch] (by simpa using fun heq => hcolon heq.symm) room bytes
          obtain ⟨field, hloop, hagrees⟩ := ih hnext hless
          rw [List.length_append, List.length_singleton] at hloop
          rw [if_neg (by omega), hstore, Option.bind_some, hloop, hread]
          refine ⟨field, rfl, ?_⟩
          rw [Option.map_map]
          simpa only [Function.comp_def, List.append_assoc] using hagrees

/-- A field is read whatever the buffer holds, and its string is the one that was read. -/
theorem bufferedField_eq (buf : RecordBuffer) (fd : File) :
    ∃ next, bufferedField buf fd = some ((readField (bufLen - 1) fd.bytes).1.map
      fun content => (next, cString content), (readField (bufLen - 1) fd.bytes).2) := by
  obtain ⟨field, hloop, hagrees⟩ :=
    @fieldLoop_agrees buf [] (List.nil_prefix) (bufLen - 1) (Nat.zero_add _) fd.bytes
  rw [List.length_nil] at hloop
  rw [bufferedField, hloop, Option.bind_some]
  generalize readField (bufLen - 1) fd.bytes = read at hagrees ⊢
  rcases read with ⟨_ | content, fd₁⟩
  · cases hagrees with
    | tooLong => exact ⟨buf, rfl⟩
  · cases hagrees with
    | field hcontent hpos =>
        obtain ⟨next, hterminate⟩ := terminate_of_isPrefix hcontent hpos
        refine ⟨next, ?_⟩
        simp only [List.nil_append] at hterminate ⊢
        rw [hterminate]
        rfl

/-- The reader on the buffer is the reader on lists: it always has a result, whatever the buffer holds at
first. -/
theorem bufferedReadFileStatEnd_eq (buf : RecordBuffer) (fd : File) :
    bufferedReadFileStatEnd buf fd = some (readFileStatEnd fd) := by
  obtain ⟨stop, hloop, hagrees⟩ :=
    @nameLoop_agrees buf [] (List.nil_prefix) (bufLen - 1) (Nat.zero_add _) fd.bytes
  rw [List.length_nil] at hloop
  rw [bufferedReadFileStatEnd, hloop, Option.bind_some, readFileStatEnd]
  generalize readName (bufLen - 1) fd.bytes = read at hagrees ⊢
  rcases read with ⟨fileName | line | _, fd₁⟩
  case line =>
    cases hagrees with
    | newline => rfl
  case tooLong =>
    cases hagrees with
    | tooLong => rfl
  case name =>
    cases hagrees with
    | name hcontent hpos =>
        obtain ⟨buf₂, hterminate⟩ := terminate_of_isPrefix hcontent hpos
        simp only [List.nil_append] at hterminate ⊢
        simp only [hterminate, Option.bind_some]
        rcases readNumber 0x3a 0 fd₁.bytes with ⟨_ | fileSize, fd₂⟩
        · rfl
        obtain ⟨buf₃, howner⟩ := bufferedField_eq buf₂ fd₂
        simp only [howner, Option.bind_some]
        rcases readField (bufLen - 1) fd₂.bytes with ⟨_ | owner, fd₃⟩
        · rfl
        obtain ⟨buf₄, hhost⟩ := bufferedField_eq buf₃ fd₃
        simp only [Option.map_some, hhost, Option.bind_some]
        rcases readField (bufLen - 1) fd₃.bytes with ⟨_ | host, fd₄⟩
        · rfl
        simp only [Option.map_some]
        rcases readNumber 0x0a 0 fd₄.bytes with ⟨_ | port, fd₅⟩
        · rfl
        exact (apply_ite some _ _ _).symm

/-! ### Where a record ends -/

/-- The bytes behind the first delimiter. -/
def after (delimiter : UInt8) : Bytes → Option Bytes
  | [] => none
  | ch :: bytes => if ch = delimiter then some bytes else after delimiter bytes

/-- The bytes behind the newline that ends a record: the first one behind the third colon behind the slash
of the name. -/
def afterRecord (bytes : Bytes) : Option Bytes :=
  (after 0x2f bytes).bind fun size => (after 0x3a size).bind fun owner =>
    (after 0x3a owner).bind fun host => (after 0x3a host).bind fun port => after 0x0a port

theorem after_delimiter {delimiter : UInt8} {front : Bytes} (hfront : delimiter ∉ front) (rest : Bytes) :
    after delimiter (front ++ delimiter :: rest) = some rest := by
  induction front with
  | nil => rw [List.nil_append, after, if_pos rfl]
  | cons ch front ih =>
      rw [List.mem_cons, not_or] at hfront
      rw [List.cons_append, after, if_neg fun heq => hfront.1 heq.symm]
      exact ih hfront.2

theorem Accepts.afterRecord {bytes name size owner host port rest : Bytes}
    (h : Accepts bytes name size owner host port rest) : afterRecord bytes = some rest := by
  have hname : (0x2f : UInt8) ∉ name := fun hmem => (h.name.2 _ hmem).1 rfl
  have hsize : (0x3a : UInt8) ∉ size := fun hmem => (h.size _ hmem).1 rfl
  have hport : (0x0a : UInt8) ∉ port := fun hmem => (h.port _ hmem).1 rfl
  rw [FileShare.afterRecord, h.split, after_delimiter hname, Option.bind_some, after_delimiter hsize,
    Option.bind_some, after_delimiter h.owner.2, Option.bind_some, after_delimiter h.host.2,
    Option.bind_some, after_delimiter hport]

/-- **The reader is safe**: on every stream, whatever the buffer holds at first, it stores and reads in its
buffer only and comes to a result. The result is `NULL` if the stream ends before the record does, and a
record has been read exactly through its newline. -/
theorem bufferedReadFileStatEnd_safe (buf : RecordBuffer) (fd : File) :
    ∃ stat last fd', bufferedReadFileStatEnd buf fd = some (stat, last, fd') ∧
      (afterRecord fd.bytes = none → stat = none) ∧
        (stat ≠ none → afterRecord fd.bytes = some fd'.bytes) := by
  rcases hread : readFileStatEnd fd with ⟨stat, last, fd'⟩
  have hrecord : stat ≠ none → afterRecord fd.bytes = some fd'.bytes := by
    intro hstat
    obtain ⟨s, hs⟩ := Option.ne_none_iff_exists'.1 hstat
    rw [hs] at hread
    obtain ⟨-, name, size, owner, host, port, haccepts, -⟩ := readFileStatEnd_eq_some hread
    exact haccepts.afterRecord
  refine ⟨stat, last, fd', by rw [bufferedReadFileStatEnd_eq, hread], ?_, hrecord⟩
  intro hends
  by_contra hstat
  have hsome := hrecord hstat
  rw [hends] at hsome
  cases hsome

end NetworkSystems.FileShare
