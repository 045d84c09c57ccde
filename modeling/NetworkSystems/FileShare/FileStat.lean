import NetworkSystems.FileShare.Trie
import Mathlib.Data.List.TakeWhile
import Mathlib.Tactic.IntervalCases

/-!
# The record of a file

The line that describes a shared file, `name/size:owner:host:port`, as `write_file_stat` prints it and
`read_file_stat_end` parses it from a buffered stream. A string is the list of its bytes, without the
terminator.
-/

namespace NetworkSystems.FileShare

/-- A string literal of the source. -/
def ascii (chars : List Char) : Bytes := chars.map fun ch => UInt8.ofNat ch.toNat

/-- The string that starts at a pointer. -/
def cString (mem : Bytes) : Bytes := mem.takeWhile (· ≠ 0)

theorem cString_append {s : Bytes} (h : (0 : UInt8) ∉ s) (mem : Bytes) : cString (s ++ 0 :: mem) = s := by
  rw [cString, List.takeWhile_append_of_pos, List.takeWhile_cons_of_neg (by simp), List.append_nil]
  intro ch hch
  simpa using ne_of_mem_of_not_mem hch h

theorem cString_eq_self {s : Bytes} (h : (0 : UInt8) ∉ s) : cString s = s := by
  refine List.takeWhile_eq_self_iff.2 fun ch hch => ?_
  simpa using ne_of_mem_of_not_mem hch h

structure FileStat where
  fileName : Bytes
  fileSize : UInt64
  owner : Bytes
  hostName : Bytes
  port : UInt16
  deriving DecidableEq

/-- A `FILE*` that is read: the bytes still to come, and whether a read has met the end. -/
structure File where
  bytes : Bytes
  eof : Bool
  deriving DecidableEq

abbrev bufLen : Nat := 1024

/-! ### Reading -/

/-- What ends the loop that reads the file name: the slash or the end of the file, a newline, or too many
bytes. -/
inductive NameEnd
  | name (content : Bytes)
  | line (content : Bytes)
  | tooLong
  deriving DecidableEq

/-- The loop that reads the file name, with the room left in the buffer. -/
def readName : Nat → Bytes → NameEnd × File
  | _, [] => (.name [], ⟨[], true⟩)
  | room, ch :: bytes =>
      if ch = 0x2f then (.name [], ⟨bytes, false⟩)
      else if ch = 0x0a then (.line [], ⟨bytes, false⟩)
      else
        match room with
        | 0 => (.tooLong, ⟨bytes, false⟩)
        | room + 1 =>
            match readName room bytes with
            | (.name content, file) => (.name (ch :: content), file)
            | (.line content, file) => (.line (ch :: content), file)
            | (.tooLong, file) => (.tooLong, file)

/-- The loops that read the owner and the host, up to a colon. `none` is a field that is too long. -/
def readField : Nat → Bytes → Option Bytes × File
  | _, [] => (some [], ⟨[], true⟩)
  | room, ch :: bytes =>
      if ch = 0x3a then (some [], ⟨bytes, false⟩)
      else
        match room with
        | 0 => (none, ⟨bytes, false⟩)
        | room + 1 =>
            match readField room bytes with
            | (some content, file) => (some (ch :: content), file)
            | (none, file) => (none, file)

/-- The loops that read the size and the port, up to the delimiter. `none` is an invalid character. -/
def readNumber (delimiter : UInt8) : UInt64 → Bytes → Option UInt64 × File
  | size, [] => (some size, ⟨[], true⟩)
  | size, ch :: bytes =>
      if ch = delimiter then (some size, ⟨bytes, false⟩)
      else if ch < 0x30 ∨ 0x40 ≤ ch then (none, ⟨bytes, false⟩)
      else readNumber delimiter (size * 10 + (ch - 0x30).toUInt64) bytes

/-- `read_file_stat_end`: the record or `NULL`, what is stored through `end`, and the stream after it. -/
def readFileStatEnd (fd : File) : Option FileStat × Bool × File :=
  match readName (bufLen - 1) fd.bytes with
  | (.line content, fd) => (none, decide (cString content = ascii ['E', 'N', 'D']), fd)
  | (.tooLong, fd) => (none, false, fd)
  | (.name fileName, fd) =>
    match readNumber 0x3a 0 fd.bytes with
    | (none, fd) => (none, false, fd)
    | (some fileSize, fd) =>
      match readField (bufLen - 1) fd.bytes with
      | (none, fd) => (none, false, fd)
      | (some owner, fd) =>
        match readField (bufLen - 1) fd.bytes with
        | (none, fd) => (none, false, fd)
        | (some hostName, fd) =>
          match readNumber 0x0a 0 fd.bytes with
          | (none, fd) => (none, false, fd)
          | (some port, fd) =>
            if fd.eof then (none, false, fd)
            else
              (some ⟨cString fileName, fileSize, cString owner, cString hostName, port.toUInt16⟩,
                false, fd)

def readFileStat (fd : File) : Option FileStat × File :=
  let result := readFileStatEnd fd
  (result.1, result.2.2)

/-! ### Where the reader gives up -/

section Stages

variable {fd₁ fd₂ fd₃ fd₄ fd₅ : File} {line name owner host : Bytes} {size : UInt64}

theorem readFileStatEnd_of_line (fd : File)
    (hname : readName (bufLen - 1) fd.bytes = (.line line, fd₁)) :
    readFileStatEnd fd = (none, decide (cString line = ascii ['E', 'N', 'D']), fd₁) := by
  rw [readFileStatEnd, hname]

theorem readFileStatEnd_of_tooLong (fd : File)
    (hname : readName (bufLen - 1) fd.bytes = (.tooLong, fd₁)) :
    readFileStatEnd fd = (none, false, fd₁) := by
  rw [readFileStatEnd, hname]

theorem readFileStatEnd_of_size (fd : File)
    (hname : readName (bufLen - 1) fd.bytes = (.name name, fd₁))
    (hsize : readNumber 0x3a 0 fd₁.bytes = (none, fd₂)) :
    readFileStatEnd fd = (none, false, fd₂) := by
  rw [readFileStatEnd]
  simp only [hname, hsize]

theorem readFileStatEnd_of_owner (fd : File)
    (hname : readName (bufLen - 1) fd.bytes = (.name name, fd₁))
    (hsize : readNumber 0x3a 0 fd₁.bytes = (some size, fd₂))
    (howner : readField (bufLen - 1) fd₂.bytes = (none, fd₃)) :
    readFileStatEnd fd = (none, false, fd₃) := by
  rw [readFileStatEnd]
  simp only [hname, hsize, howner]

theorem readFileStatEnd_of_host (fd : File)
    (hname : readName (bufLen - 1) fd.bytes = (.name name, fd₁))
    (hsize : readNumber 0x3a 0 fd₁.bytes = (some size, fd₂))
    (howner : readField (bufLen - 1) fd₂.bytes = (some owner, fd₃))
    (hhost : readField (bufLen - 1) fd₃.bytes = (none, fd₄)) :
    readFileStatEnd fd = (none, false, fd₄) := by
  rw [readFileStatEnd]
  simp only [hname, hsize, howner, hhost]

theorem readFileStatEnd_of_port (fd : File)
    (hname : readName (bufLen - 1) fd.bytes = (.name name, fd₁))
    (hsize : readNumber 0x3a 0 fd₁.bytes = (some size, fd₂))
    (howner : readField (bufLen - 1) fd₂.bytes = (some owner, fd₃))
    (hhost : readField (bufLen - 1) fd₃.bytes = (some host, fd₄))
    (hport : readNumber 0x0a 0 fd₄.bytes = (none, fd₅)) :
    readFileStatEnd fd = (none, false, fd₅) := by
  rw [readFileStatEnd]
  simp only [hname, hsize, howner, hhost, hport]

/-! ### Reading consumes -/

theorem readName_length (room : Nat) (bytes : Bytes) :
    (readName room bytes).2.bytes.length ≤ bytes.length := by
  fun_induction readName room bytes <;> simp_all <;> omega

theorem readField_length (room : Nat) (bytes : Bytes) :
    (readField room bytes).2.bytes.length ≤ bytes.length := by
  fun_induction readField room bytes <;> simp_all <;> omega

theorem readNumber_length (delimiter : UInt8) (size : UInt64) (bytes : Bytes) :
    (readNumber delimiter size bytes).2.bytes.length ≤ bytes.length := by
  fun_induction readNumber delimiter size bytes <;> simp_all
  omega

theorem readFileStatEnd_host_length (fd : File)
    (hname : readName (bufLen - 1) fd.bytes = (.name name, fd₁))
    (hsize : readNumber 0x3a 0 fd₁.bytes = (some size, fd₂))
    (howner : readField (bufLen - 1) fd₂.bytes = (some owner, fd₃)) :
    (readFileStatEnd fd).2.2.bytes.length ≤ (readField (bufLen - 1) fd₃.bytes).2.bytes.length := by
  rcases hhost : readField (bufLen - 1) fd₃.bytes with ⟨_ | host, fd₄⟩
  · rw [readFileStatEnd_of_host fd hname hsize howner hhost]
  · have hport := readNumber_length 0x0a 0 fd₄.bytes
    rcases hread : readNumber 0x0a 0 fd₄.bytes with ⟨_ | port, fd₅⟩ <;> rw [hread] at hport
    · rwa [readFileStatEnd_of_port fd hname hsize howner hhost hread]
    · rw [readFileStatEnd]
      simp only [hname, hsize, howner, hhost, hread]
      split <;> exact hport

theorem readFileStatEnd_owner_length (fd : File)
    (hname : readName (bufLen - 1) fd.bytes = (.name name, fd₁))
    (hsize : readNumber 0x3a 0 fd₁.bytes = (some size, fd₂)) :
    (readFileStatEnd fd).2.2.bytes.length ≤ (readField (bufLen - 1) fd₂.bytes).2.bytes.length := by
  rcases howner : readField (bufLen - 1) fd₂.bytes with ⟨_ | owner, fd₃⟩
  · rw [readFileStatEnd_of_owner fd hname hsize howner]
  · exact (readFileStatEnd_host_length fd hname hsize howner).trans (readField_length _ _)

theorem readFileStatEnd_size_length (fd : File)
    (hname : readName (bufLen - 1) fd.bytes = (.name name, fd₁)) :
    (readFileStatEnd fd).2.2.bytes.length ≤ (readNumber 0x3a 0 fd₁.bytes).2.bytes.length := by
  rcases hsize : readNumber 0x3a 0 fd₁.bytes with ⟨_ | size, fd₂⟩
  · rw [readFileStatEnd_of_size fd hname hsize]
  · exact (readFileStatEnd_owner_length fd hname hsize).trans (readField_length _ _)

theorem readFileStatEnd_length (fd : File) : (readFileStatEnd fd).2.2.bytes.length ≤ fd.bytes.length := by
  have hle := readName_length (bufLen - 1) fd.bytes
  rcases hname : readName (bufLen - 1) fd.bytes with ⟨name | line | _, fd₁⟩ <;> rw [hname] at hle
  case name => exact ((readFileStatEnd_size_length fd hname).trans (readNumber_length _ _ _)).trans hle
  case line => rwa [readFileStatEnd_of_line fd hname]
  case tooLong => rwa [readFileStatEnd_of_tooLong fd hname]

end Stages

/-! ### Writing -/

/-- `%lu` and `%u` -/
def decimal (n : Nat) : Bytes := ascii (Nat.toDigits 10 n)

/-- The line of a record, before `snprintf` cuts it. -/
def FileStat.line (filestat : FileStat) : Bytes :=
  filestat.fileName ++ 0x2f :: (decimal filestat.fileSize.toNat ++
    0x3a :: (filestat.owner ++ 0x3a :: (filestat.hostName ++
      0x3a :: (decimal filestat.port.toNat ++ [0x0a]))))

/-- `write_file_stat`: the bytes it writes. -/
def writeFileStat (filestat : FileStat) : Bytes := filestat.line.take 2047

/-! ### What is written is read back -/

/-- What the name loop returns with more of the name in front of its bytes. -/
def NameEnd.prepend (front : Bytes) : NameEnd → NameEnd
  | .name content => .name (front ++ content)
  | .line content => .line (front ++ content)
  | .tooLong => .tooLong

theorem readName_append {front : Bytes} (hfront : ∀ ch ∈ front, ch ≠ 0x2f ∧ ch ≠ 0x0a) (room : Nat)
    (bytes : Bytes) : readName (room + front.length) (front ++ bytes) =
      ((readName room bytes).1.prepend front, (readName room bytes).2) := by
  induction front with
  | nil =>
      rw [List.nil_append, List.length_nil, Nat.add_zero]
      rcases readName room bytes with ⟨content | content | _, fd⟩ <;> rfl
  | cons ch front ih =>
      obtain ⟨hslash, hnewline⟩ := hfront ch (by simp)
      rw [List.length_cons, ← Nat.add_assoc, List.cons_append, readName, if_neg hslash, if_neg hnewline]
      simp only [ih fun c hc => hfront c (List.mem_cons_of_mem _ hc)]
      rcases readName room bytes with ⟨content | content | _, fd⟩ <;> rfl

theorem readField_append {front : Bytes} (hfront : (0x3a : UInt8) ∉ front) (room : Nat) (bytes : Bytes) :
    readField (room + front.length) (front ++ bytes) =
      ((readField room bytes).1.map (front ++ ·), (readField room bytes).2) := by
  induction front with
  | nil =>
      rw [List.nil_append, List.length_nil, Nat.add_zero]
      rcases readField room bytes with ⟨_ | content, fd⟩ <;> rfl
  | cons ch front ih =>
      rw [List.mem_cons, not_or] at hfront
      rw [List.length_cons, ← Nat.add_assoc, List.cons_append, readField,
        if_neg fun heq => hfront.1 heq.symm]
      simp only [ih hfront.2]
      rcases readField room bytes with ⟨_ | content, fd⟩ <;> rfl

theorem readName_slash {name : Bytes} {room : Nat} (hroom : name.length ≤ room)
    (hname : ∀ ch ∈ name, ch ≠ 0x2f ∧ ch ≠ 0x0a) (rest : Bytes) :
    readName room (name ++ 0x2f :: rest) = (.name name, ⟨rest, false⟩) := by
  rw [← Nat.sub_add_cancel hroom, readName_append hname, readName.eq_def]
  simp [NameEnd.prepend]

theorem readName_newline {front rest : Bytes} {room : Nat} (hroom : front.length ≤ room)
    (hfront : ∀ ch ∈ front, ch ≠ 0x2f ∧ ch ≠ 0x0a) :
    readName room (front ++ 0x0a :: rest) = (.line front, ⟨rest, false⟩) := by
  rw [← Nat.sub_add_cancel hroom, readName_append hfront, readName.eq_def]
  simp [NameEnd.prepend]

theorem readName_full {ch : UInt8} (hslash : ch ≠ 0x2f) (hnewline : ch ≠ 0x0a) (bytes : Bytes) :
    readName 0 (ch :: bytes) = (.tooLong, ⟨bytes, false⟩) := by
  rw [readName, if_neg hslash, if_neg hnewline]

theorem readField_full {ch : UInt8} (hcolon : ch ≠ 0x3a) (bytes : Bytes) :
    readField 0 (ch :: bytes) = (none, ⟨bytes, false⟩) := by
  rw [readField, if_neg hcolon]

theorem readField_colon {field : Bytes} {room : Nat} (hroom : field.length ≤ room)
    (hfield : (0x3a : UInt8) ∉ field) (rest : Bytes) :
    readField room (field ++ 0x3a :: rest) = (some field, ⟨rest, false⟩) := by
  rw [← Nat.sub_add_cancel hroom, readField_append hfield, readField.eq_def]
  simp

/-- The value that the size loop gives to a string of digits. -/
def numberOf (digits : Bytes) : UInt64 :=
  digits.foldl (fun size ch => size * 10 + (ch - 0x30).toUInt64) 0

theorem readNumber_append {delimiter : UInt8} {digits : Bytes}
    (hdigits : ∀ ch ∈ digits, ch ≠ delimiter ∧ 0x30 ≤ ch ∧ ch < 0x40) (size : UInt64) (bytes : Bytes) :
    readNumber delimiter size (digits ++ bytes) = readNumber delimiter
      (digits.foldl (fun size ch => size * 10 + (ch - 0x30).toUInt64) size) bytes := by
  induction digits generalizing size with
  | nil => rfl
  | cons ch digits ih =>
      obtain ⟨hne, hlow, hhigh⟩ := hdigits ch (by simp)
      have hvalid : ¬ (ch < 0x30 ∨ 0x40 ≤ ch) := by
        rw [not_or, UInt8.not_lt, UInt8.not_le]
        exact ⟨hlow, hhigh⟩
      rw [List.cons_append, readNumber, if_neg hne, if_neg hvalid, List.foldl_cons]
      exact ih (fun c hc => hdigits c (List.mem_cons_of_mem _ hc)) _

theorem readNumber_delimiter {delimiter : UInt8} {digits : Bytes}
    (hdigits : ∀ ch ∈ digits, ch ≠ delimiter ∧ 0x30 ≤ ch ∧ ch < 0x40) (rest : Bytes) :
    readNumber delimiter 0 (digits ++ delimiter :: rest) = (some (numberOf digits), ⟨rest, false⟩) := by
  rw [readNumber_append hdigits, readNumber, if_pos rfl]
  rfl

theorem digit_accepted {delimiter ch : UInt8} (hdelimiter : delimiter < 0x30 ∨ 0x3a ≤ delimiter)
    (hch : 0x30 ≤ ch ∧ ch < 0x3a) : ch ≠ delimiter ∧ 0x30 ≤ ch ∧ ch < 0x40 := by
  simp only [UInt8.lt_iff_toNat_lt, UInt8.le_iff_toNat_le] at hdelimiter hch ⊢
  have h30 : (0x30 : UInt8).toNat = 0x30 := rfl
  have h3a : (0x3a : UInt8).toNat = 0x3a := rfl
  have h40 : (0x40 : UInt8).toNat = 0x40 := rfl
  refine ⟨?_, by omega, by omega⟩
  rintro rfl
  omega

theorem digitChar_byte {d : Nat} (hd : d < 10) :
    (UInt8.ofNat (Nat.digitChar d).toNat).toNat = 0x30 + d := by
  interval_cases d <;> rfl

theorem decimal_step {n : Nat} (hn : 10 ≤ n) :
    decimal n = decimal (n / 10) ++ ascii [Nat.digitChar (n % 10)] := by
  rw [decimal, decimal, Nat.toDigits_of_base_le (by omega) hn, ascii, List.map_append]
  rfl

theorem decimal_of_lt {n : Nat} (hn : n < 10) : decimal n = ascii [Nat.digitChar n] := by
  rw [decimal, Nat.toDigits_of_lt_base hn]

theorem decimal_digits (n : Nat) : ∀ ch ∈ decimal n, 0x30 ≤ ch ∧ ch < 0x3a := by
  have hdigit : ∀ d < 10, ∀ ch ∈ ascii [Nat.digitChar d], 0x30 ≤ ch ∧ ch < 0x3a := by
    intro d hd ch hch
    rw [ascii, List.map_singleton, List.mem_singleton] at hch
    have hval := digitChar_byte hd
    rw [← hch] at hval
    have h30 : (0x30 : UInt8).toNat = 0x30 := rfl
    have h3a : (0x3a : UInt8).toNat = 0x3a := rfl
    rw [UInt8.le_iff_toNat_le, UInt8.lt_iff_toNat_lt]
    omega
  induction n using Nat.strongRecOn with
  | ind n ih =>
      by_cases hn : n < 10
      · rw [decimal_of_lt hn]
        exact hdigit n hn
      · rw [decimal_step (by omega)]
        intro ch hch
        rcases List.mem_append.1 hch with hch | hch
        · exact ih (n / 10) (by omega) ch hch
        · exact hdigit (n % 10) (by omega) ch hch

theorem numberOf_decimal (n : Nat) : numberOf (decimal n) = UInt64.ofNat n := by
  have hdigit : ∀ d < 10, (UInt8.ofNat (Nat.digitChar d).toNat - 0x30).toUInt64 = UInt64.ofNat d := by
    intro d hd
    interval_cases d <;> rfl
  induction n using Nat.strongRecOn with
  | ind n ih =>
      by_cases hn : n < 10
      · rw [decimal_of_lt hn, numberOf, ascii, List.map_singleton, List.foldl_cons, List.foldl_nil,
          hdigit n hn, UInt64.zero_mul, UInt64.zero_add]
      · have hprefix := ih (n / 10) (by omega)
        rw [numberOf] at hprefix
        rw [decimal_step (by omega), numberOf, List.foldl_append, hprefix, ascii, List.map_singleton,
          List.foldl_cons, List.foldl_nil, hdigit (n % 10) (by omega)]
        rw [show (10 : UInt64) = UInt64.ofNat 10 from rfl, ← UInt64.ofNat_mul, ← UInt64.ofNat_add]
        congr 1
        omega

theorem readNumber_decimal (delimiter : UInt8) (hdelimiter : delimiter < 0x30 ∨ 0x3a ≤ delimiter)
    (n : Nat) (rest : Bytes) :
    readNumber delimiter 0 (decimal n ++ delimiter :: rest) =
      (some (UInt64.ofNat n), ⟨rest, false⟩) := by
  rw [readNumber_delimiter fun ch hch => digit_accepted hdelimiter (decimal_digits n ch hch),
    numberOf_decimal]

/-- A record whose fields the reader keeps: names without the delimiters, none of them too long. -/
structure FileStat.Readable (s : FileStat) : Prop where
  fileName : s.fileName.length ≤ bufLen - 1 ∧
    ∀ ch ∈ s.fileName, ch ≠ 0x2f ∧ ch ≠ 0x0a ∧ ch ≠ 0
  owner : s.owner.length ≤ bufLen - 1 ∧ ∀ ch ∈ s.owner, ch ≠ 0x3a ∧ ch ≠ 0
  hostName : s.hostName.length ≤ bufLen - 1 ∧ ∀ ch ∈ s.hostName, ch ≠ 0x3a ∧ ch ≠ 0

theorem FileStat.Readable.read_line {s : FileStat} (h : s.Readable) (rest : Bytes) (eof : Bool) :
    readFileStatEnd ⟨s.line ++ rest, eof⟩ = (some s, false, ⟨rest, false⟩) := by
  have hline : s.line ++ rest =
      s.fileName ++ 0x2f :: (decimal s.fileSize.toNat ++ 0x3a :: (s.owner ++ 0x3a :: (s.hostName ++
        0x3a :: (decimal s.port.toNat ++ 0x0a :: rest)))) := by
    rw [FileStat.line]
    simp only [List.append_assoc, List.cons_append, List.nil_append]
  have hname := readName_slash h.fileName.1 (fun ch hch => ⟨(h.fileName.2 ch hch).1,
    (h.fileName.2 ch hch).2.1⟩)
  have howner := readField_colon h.owner.1 fun hmem => (h.owner.2 _ hmem).1 rfl
  have hhost := readField_colon h.hostName.1 fun hmem => (h.hostName.2 _ hmem).1 rfl
  rw [readFileStatEnd, hline]
  simp only [hname, readNumber_decimal 0x3a (by decide), howner, hhost,
    readNumber_decimal 0x0a (by decide),
    cString_eq_self fun hmem => (h.fileName.2 _ hmem).2.2 rfl,
    cString_eq_self fun hmem => (h.owner.2 _ hmem).2 rfl,
    cString_eq_self fun hmem => (h.hostName.2 _ hmem).2 rfl]
  simp

/-- A record that the codec carries: names without the delimiters, none of them too long. -/
structure FileStat.Encodable (s : FileStat) : Prop where
  fileName : s.fileName.length ≤ bufLen - 1 ∧
    ∀ ch ∈ s.fileName, ch ≠ 0x2f ∧ ch ≠ 0x0a ∧ ch ≠ 0
  owner : s.owner.length ≤ bufLen - 1 ∧ ∀ ch ∈ s.owner, ch ≠ 0x3a ∧ ch ≠ 0
  hostName : s.hostName.length ≤ bufLen - 1 ∧ ∀ ch ∈ s.hostName, ch ≠ 0x3a ∧ ch ≠ 0
  line : s.line.length ≤ 2047

theorem FileStat.Encodable.readable {s : FileStat} (h : s.Encodable) : s.Readable where
  fileName := h.fileName
  owner := h.owner
  hostName := h.hostName

/-- The codec's round trip: the record comes back, and exactly its line is consumed. -/
theorem FileStat.Encodable.read_write {s : FileStat} (h : s.Encodable) (rest : Bytes) (eof : Bool) :
    readFileStat ⟨writeFileStat s ++ rest, eof⟩ = (some s, ⟨rest, false⟩) := by
  rw [writeFileStat, List.take_of_length_le h.line, readFileStat, h.readable.read_line]

/-! ### What the reader accepts -/

section Delimiter

variable {α : Type} {delimiter : α} {front front' back back' : List α}

theorem delimited_append (hfront : delimiter ∉ front)
    (heq : front ++ back = front' ++ delimiter :: back') :
    ∃ mid, front' = front ++ mid ∧ back = mid ++ delimiter :: back' := by
  rcases List.append_eq_append_iff.1 heq with ⟨mid, hfront', hback⟩ | ⟨mid, hfront', hback⟩
  · exact ⟨mid, hfront', hback⟩
  · cases mid with
    | nil => exact ⟨[], by rw [hfront', List.append_nil, List.append_nil], hback.symm⟩
    | cons ch mid =>
        obtain ⟨rfl, -⟩ := List.cons.inj hback
        exact absurd (hfront' ▸ by simp) hfront

theorem delimited_inj (hfront : delimiter ∉ front) (hfront' : delimiter ∉ front')
    (heq : front ++ delimiter :: back = front' ++ delimiter :: back') :
    front' = front ∧ back' = back := by
  obtain ⟨mid, rfl, hback⟩ := delimited_append hfront heq
  cases mid with
  | nil => exact ⟨List.append_nil _, (List.cons.inj hback).2.symm⟩
  | cons ch mid =>
      obtain ⟨rfl, -⟩ := List.cons.inj hback
      exact absurd (by simp) hfront'

end Delimiter

theorem readName_eq_name {room : Nat} {bytes content : Bytes} {fd : File}
    (h : readName room bytes = (.name content, fd)) :
    (content.length ≤ room ∧ ∀ ch ∈ content, ch ≠ 0x2f ∧ ch ≠ 0x0a) ∧
      (bytes = content ++ 0x2f :: fd.bytes ∨ fd = ⟨[], true⟩) := by
  induction bytes generalizing room content with
  | nil =>
      rw [readName, Prod.mk.injEq] at h
      obtain ⟨hcontent, rfl⟩ := h
      obtain rfl := NameEnd.name.inj hcontent
      exact ⟨⟨Nat.zero_le _, nofun⟩, Or.inr rfl⟩
  | cons ch bytes ih =>
      rw [readName.eq_def] at h
      dsimp only at h
      by_cases hslash : ch = 0x2f
      · rw [if_pos hslash, Prod.mk.injEq] at h
        obtain ⟨hcontent, rfl⟩ := h
        obtain rfl := NameEnd.name.inj hcontent
        exact ⟨⟨Nat.zero_le _, nofun⟩, Or.inl (by rw [hslash, List.nil_append])⟩
      · rw [if_neg hslash] at h
        by_cases hline : ch = 0x0a
        · rw [if_pos hline] at h
          cases h
        · rw [if_neg hline] at h
          cases room with
          | zero => cases h
          | succ room =>
              rcases hrest : readName room bytes with ⟨nameEnd, file⟩
              simp only [hrest] at h
              cases nameEnd with
              | line => cases h
              | tooLong => cases h
              | name rest =>
                  obtain ⟨hcontent, rfl⟩ := Prod.mk.inj h
                  obtain rfl := NameEnd.name.inj hcontent
                  obtain ⟨⟨hlength, hchars⟩, hbytes⟩ := ih hrest
                  refine ⟨⟨Nat.succ_le_succ hlength, ?_⟩, ?_⟩
                  · rintro c (_ | ⟨_, hc⟩)
                    · exact ⟨hslash, hline⟩
                    · exact hchars c hc
                  · exact hbytes.imp (congrArg (ch :: ·)) id

theorem readField_eq_some {room : Nat} {bytes content : Bytes} {fd : File}
    (h : readField room bytes = (some content, fd)) :
    (content.length ≤ room ∧ (0x3a : UInt8) ∉ content) ∧
      (bytes = content ++ 0x3a :: fd.bytes ∨ fd = ⟨[], true⟩) := by
  induction bytes generalizing room content with
  | nil =>
      rw [readField, Prod.mk.injEq] at h
      obtain ⟨hcontent, rfl⟩ := h
      obtain rfl := Option.some.inj hcontent
      exact ⟨⟨Nat.zero_le _, List.not_mem_nil⟩, Or.inr rfl⟩
  | cons ch bytes ih =>
      rw [readField.eq_def] at h
      dsimp only at h
      by_cases hcolon : ch = 0x3a
      · rw [if_pos hcolon, Prod.mk.injEq] at h
        obtain ⟨hcontent, rfl⟩ := h
        obtain rfl := Option.some.inj hcontent
        exact ⟨⟨Nat.zero_le _, List.not_mem_nil⟩, Or.inl (by rw [hcolon, List.nil_append])⟩
      · rw [if_neg hcolon] at h
        cases room with
        | zero => cases h
        | succ room =>
            rcases hrest : readField room bytes with ⟨_ | rest, file⟩
            · simp only [hrest] at h
              cases h
            · simp only [hrest] at h
              obtain ⟨hcontent, rfl⟩ := Prod.mk.inj h
              obtain rfl := Option.some.inj hcontent
              obtain ⟨⟨hlength, hchars⟩, hbytes⟩ := ih hrest
              refine ⟨⟨Nat.succ_le_succ hlength, ?_⟩, hbytes.imp (congrArg (ch :: ·)) id⟩
              rw [List.mem_cons, not_or]
              exact ⟨fun heq => hcolon heq.symm, hchars⟩

theorem readNumber_eq_some {delimiter : UInt8} {start size : UInt64} {bytes : Bytes} {fd : File}
    (h : readNumber delimiter start bytes = (some size, fd)) :
    fd = ⟨[], true⟩ ∨ ∃ digits, bytes = digits ++ delimiter :: fd.bytes ∧ fd.eof = false ∧
      ∀ ch ∈ digits, ch ≠ delimiter ∧ 0x30 ≤ ch ∧ ch < 0x40 := by
  induction bytes generalizing start with
  | nil =>
      rw [readNumber, Prod.mk.injEq] at h
      exact Or.inl h.2.symm
  | cons ch bytes ih =>
      rw [readNumber] at h
      by_cases hdelimiter : ch = delimiter
      · rw [if_pos hdelimiter, Prod.mk.injEq] at h
        obtain ⟨-, rfl⟩ := h
        exact Or.inr ⟨[], by rw [hdelimiter, List.nil_append], rfl, nofun⟩
      · rw [if_neg hdelimiter] at h
        by_cases hinvalid : ch < 0x30 ∨ 0x40 ≤ ch
        · rw [if_pos hinvalid] at h
          cases h
        · rw [if_neg hinvalid] at h
          rw [not_or, UInt8.not_lt, UInt8.not_le] at hinvalid
          refine (ih h).imp_right ?_
          rintro ⟨digits, rfl, heof, hdigits⟩
          refine ⟨ch :: digits, rfl, heof, ?_⟩
          rintro c (_ | ⟨_, hc⟩)
          · exact ⟨hdelimiter, hinvalid⟩
          · exact hdigits c hc

/-- Bytes that the reader takes for a record, field by field, with the bytes behind it. -/
structure Accepts (bytes name size owner host port rest : Bytes) : Prop where
  split : bytes = name ++ 0x2f :: (size ++ 0x3a :: (owner ++ 0x3a :: (host ++ 0x3a :: (port ++
    0x0a :: rest))))
  name : name.length ≤ bufLen - 1 ∧ ∀ ch ∈ name, ch ≠ 0x2f ∧ ch ≠ 0x0a
  size : ∀ ch ∈ size, ch ≠ 0x3a ∧ 0x30 ≤ ch ∧ ch < 0x40
  owner : owner.length ≤ bufLen - 1 ∧ (0x3a : UInt8) ∉ owner
  host : host.length ≤ bufLen - 1 ∧ (0x3a : UInt8) ∉ host
  port : ∀ ch ∈ port, ch ≠ 0x0a ∧ 0x30 ≤ ch ∧ ch < 0x40

theorem readFileStatEnd_eq_some {fd fd' : File} {stat : FileStat} {last : Bool}
    (h : readFileStatEnd fd = (some stat, last, fd')) :
    (last = false ∧ fd'.eof = false) ∧ ∃ name size owner host port,
      Accepts fd.bytes name size owner host port fd'.bytes ∧
        stat.fileName = cString name ∧ stat.owner = cString owner ∧ stat.hostName = cString host := by
  rw [readFileStatEnd] at h
  rcases hname : readName (bufLen - 1) fd.bytes with ⟨nameEnd, fd₁⟩
  rw [hname] at h
  cases nameEnd with
  | line => cases h
  | tooLong => cases h
  | name name =>
      rcases hsize : readNumber 0x3a 0 fd₁.bytes with ⟨_ | size, fd₂⟩ <;> simp only [hsize] at h
      · cases h
      rcases howner : readField (bufLen - 1) fd₂.bytes with ⟨_ | owner, fd₃⟩ <;> simp only [howner] at h
      · cases h
      rcases hhost : readField (bufLen - 1) fd₃.bytes with ⟨_ | host, fd₄⟩ <;> simp only [hhost] at h
      · cases h
      rcases hport : readNumber 0x0a 0 fd₄.bytes with ⟨_ | port, fd₅⟩ <;> simp only [hport] at h
      · cases h
      split at h
      case isTrue => cases h
      case isFalse heof =>
        simp only [Prod.mk.injEq, Option.some.injEq] at h
        obtain ⟨rfl, rfl, rfl⟩ := h
        -- a read that met the end would have left nothing for the reads after it
        have hmore : ∀ {fd : File} {front back : Bytes} {ch : UInt8}, fd.bytes = front ++ ch :: back →
            fd ≠ ⟨[], true⟩ := by
          rintro _ _ _ _ hbytes rfl
          simp at hbytes
        obtain ⟨portDigits, hportSplit, -, hportDigits⟩ :=
          (readNumber_eq_some hport).resolve_left fun heq => heof (by rw [heq])
        obtain ⟨hhostField, hhostSplit⟩ := readField_eq_some hhost
        have hhostSplit := hhostSplit.resolve_right (hmore hportSplit)
        obtain ⟨hownerField, hownerSplit⟩ := readField_eq_some howner
        have hownerSplit := hownerSplit.resolve_right (hmore hhostSplit)
        obtain ⟨sizeDigits, hsizeSplit, -, hsizeDigits⟩ :=
          (readNumber_eq_some hsize).resolve_left (hmore hownerSplit)
        obtain ⟨hnameField, hnameSplit⟩ := readName_eq_name hname
        have hnameSplit := hnameSplit.resolve_right (hmore hsizeSplit)
        refine ⟨⟨rfl, Bool.eq_false_of_not_eq_true heof⟩, name, sizeDigits, owner, host, portDigits,
          ⟨?_, hnameField, hsizeDigits, hownerField, hhostField, hportDigits⟩, rfl, rfl, rfl⟩
        rw [hnameSplit, hsizeSplit, hownerSplit, hhostSplit, hportSplit]

theorem readFileStatEnd_of_readFileStat {fd fd' : File} {stat : FileStat}
    (h : readFileStat fd = (some stat, fd')) : ∃ last, readFileStatEnd fd = (some stat, last, fd') := by
  rw [readFileStat, Prod.mk.injEq] at h
  exact ⟨(readFileStatEnd fd).2.1, by rw [← h.1, ← h.2]⟩

end NetworkSystems.FileShare
