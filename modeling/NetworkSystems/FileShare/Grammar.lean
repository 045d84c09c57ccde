import NetworkSystems.FileShare.FileStat
import Mathlib.Data.List.Induction

/-!
# The grammar of a record

A record line is `name/size:owner:host:port` with decimal numbers for the size and the port. The loops of
`read_file_stat_end` take every such line, and they also take lines that are not of this form: the test
for a digit lets the six bytes behind `9` pass, a number may be empty, and its value is not bounded.
-/

namespace NetworkSystems.FileShare

/-- The number that a string of digits denotes. -/
def numeral (digits : Bytes) : Nat := digits.foldl (fun n ch => n * 10 + (ch.toNat - 0x30)) 0

/-- A decimal number below a bound. -/
structure Numeral (digits : Bytes) (bound : Nat) : Prop where
  nonempty : digits ≠ []
  digit : ∀ ch ∈ digits, 0x30 ≤ ch ∧ ch < 0x3a
  lt : numeral digits < bound

/-- Bytes that start with the line of a record, with its two numbers and what follows the line. -/
structure RecordLine (bytes : Bytes) (stat : FileStat) (size port rest : Bytes) : Prop where
  split : bytes = stat.fileName ++ 0x2f :: (size ++ 0x3a :: (stat.owner ++ 0x3a :: (stat.hostName ++
    0x3a :: (port ++ 0x0a :: rest))))
  fileName : stat.fileName.length ≤ 1023 ∧ ∀ ch ∈ stat.fileName, ch ≠ 0x2f ∧ ch ≠ 0x0a
  size : Numeral size (2 ^ 64) ∧ stat.fileSize.toNat = numeral size
  owner : stat.owner.length ≤ 1023 ∧ (0x3a : UInt8) ∉ stat.owner
  hostName : stat.hostName.length ≤ 1023 ∧ (0x3a : UInt8) ∉ stat.hostName
  port : Numeral port (2 ^ 16) ∧ stat.port.toNat = numeral port

/-- A record is returned exactly if the stream starts with its line. -/
def ReadsGrammar (bytes : Bytes) : Prop :=
  ∀ stat, (readFileStatEnd ⟨bytes, false⟩).1 = some stat ↔
    ∃ size port rest, RecordLine bytes stat size port rest

/-! ### Numbers -/

theorem digit_toUInt64 {ch : UInt8} (hch : 0x30 ≤ ch) :
    (ch - 0x30).toUInt64 = UInt64.ofNat (ch.toNat - 0x30) := by
  have hlt := ch.toNat_lt
  have hsub := UInt8.toNat_sub_of_le ch 0x30 hch
  change _ = ch.toNat - 0x30 at hsub
  rw [← UInt64.toNat_inj, UInt8.toNat_toUInt64, hsub,
    UInt64.toNat_ofNat_of_lt' (by simp only [UInt64.size]; omega)]

theorem numberOf_eq {digits : Bytes} (hdigits : ∀ ch ∈ digits, 0x30 ≤ ch) :
    numberOf digits = UInt64.ofNat (numeral digits) := by
  induction digits using List.reverseRecOn with
  | nil => rfl
  | append_singleton digits ch ih =>
      have hinit := ih fun c hc => hdigits c (List.mem_append_left _ hc)
      have hlast := digit_toUInt64 (hdigits ch (by simp))
      rw [numberOf, numeral] at hinit
      rw [numberOf, numeral, List.foldl_append, List.foldl_append, hinit]
      simp only [List.foldl_cons, List.foldl_nil]
      rw [hlast, UInt64.ofNat_add, UInt64.ofNat_mul]
      rfl

theorem Numeral.accepted {digits : Bytes} {bound : Nat} (h : Numeral digits bound) {delimiter : UInt8}
    (hdelimiter : delimiter < 0x30 ∨ 0x3a ≤ delimiter) :
    ∀ ch ∈ digits, ch ≠ delimiter ∧ 0x30 ≤ ch ∧ ch < 0x40 :=
  fun ch hch => digit_accepted hdelimiter (h.digit ch hch)

theorem Numeral.size_toNat {digits : Bytes} (h : Numeral digits (2 ^ 64)) :
    (numberOf digits).toNat = numeral digits := by
  rw [numberOf_eq fun ch hch => (h.digit ch hch).1, UInt64.toNat_ofNat_of_lt' h.lt]

theorem Numeral.port_toNat {digits : Bytes} (h : Numeral digits (2 ^ 16)) :
    (numberOf digits).toUInt16.toNat = numeral digits := by
  have hlt := h.lt
  rw [numberOf_eq fun ch hch => (h.digit ch hch).1, UInt64.toNat_toUInt16,
    UInt64.toNat_ofNat_of_lt' (by simp only [UInt64.size]; omega), Nat.mod_eq_of_lt hlt]

/-! ### What is accepted is read -/

section Accepts

variable {bytes name size owner host port rest name' size' owner' host' port' rest' : Bytes}

theorem Accepts.read (h : Accepts bytes name size owner host port rest) (eof : Bool) :
    readFileStatEnd ⟨bytes, eof⟩ = (some ⟨cString name, numberOf size, cString owner, cString host,
      (numberOf port).toUInt16⟩, false, ⟨rest, false⟩) := by
  rw [readFileStatEnd, h.split]
  simp only [readName_slash h.name.1 h.name.2, readNumber_delimiter h.size,
    readField_colon h.owner.1 h.owner.2, readField_colon h.host.1 h.host.2,
    readNumber_delimiter h.port]
  rfl

theorem Accepts.unique (h : Accepts bytes name size owner host port rest)
    (h' : Accepts bytes name' size' owner' host' port' rest') :
    name' = name ∧ size' = size ∧ owner' = owner ∧ host' = host ∧ port' = port ∧ rest' = rest := by
  obtain ⟨hname, heq⟩ := delimited_inj (fun hmem => (h.name.2 _ hmem).1 rfl)
    (fun hmem => (h'.name.2 _ hmem).1 rfl) (h.split.symm.trans h'.split)
  obtain ⟨hsize, heq⟩ := delimited_inj (fun hmem => (h.size _ hmem).1 rfl)
    (fun hmem => (h'.size _ hmem).1 rfl) heq.symm
  obtain ⟨howner, heq⟩ := delimited_inj h.owner.2 h'.owner.2 heq.symm
  obtain ⟨hhost, heq⟩ := delimited_inj h.host.2 h'.host.2 heq.symm
  obtain ⟨hport, hrest⟩ := delimited_inj (fun hmem => (h.port _ hmem).1 rfl)
    (fun hmem => (h'.port _ hmem).1 rfl) heq.symm
  exact ⟨hname, hsize, howner, hhost, hport, hrest⟩

theorem RecordLine.accepts {stat : FileStat} (h : RecordLine bytes stat size port rest) :
    Accepts bytes stat.fileName size stat.owner stat.hostName port rest where
  split := h.split
  name := h.fileName
  size := h.size.1.accepted (by decide)
  owner := h.owner
  host := h.hostName
  port := h.port.1.accepted (by decide)

/-- The record of a line that is accepted, when its numbers are those of the grammar. -/
theorem Accepts.recordLine (h : Accepts bytes name size owner host port rest)
    (hsize : Numeral size (2 ^ 64)) (hport : Numeral port (2 ^ 16)) :
    RecordLine bytes ⟨name, numberOf size, owner, host, (numberOf port).toUInt16⟩ size port rest :=
  ⟨h.split, h.name, ⟨hsize, hsize.size_toNat⟩, h.owner, h.host, hport, hport.port_toNat⟩

theorem Accepts.cString_eq (h : Accepts bytes name size owner host port rest) (hnul : 0 ∉ bytes) :
    cString name = name ∧ cString owner = owner ∧ cString host = host := by
  rw [h.split] at hnul
  simp only [List.mem_append, List.mem_cons, not_or] at hnul
  exact ⟨cString_eq_self hnul.1, cString_eq_self hnul.2.2.2.2.1, cString_eq_self hnul.2.2.2.2.2.2.1⟩

theorem RecordLine.read {stat : FileStat} (h : RecordLine bytes stat size port rest)
    (hnul : 0 ∉ bytes) : (readFileStatEnd ⟨bytes, false⟩).1 = some stat := by
  obtain ⟨hname, howner, hhost⟩ := h.accepts.cString_eq hnul
  have hsize : numberOf size = stat.fileSize :=
    UInt64.toNat_inj.1 (h.size.1.size_toNat.trans h.size.2.symm)
  have hport : (numberOf port).toUInt16 = stat.port :=
    UInt16.toNat_inj.1 (h.port.1.port_toNat.trans h.port.2.symm)
  rw [h.accepts.read, hname, howner, hhost, hsize, hport]

end Accepts

/-! ### The codec and the grammar -/

/-- **The codec's round trip**: a record that is written is read back, whatever follows it, and exactly its
line is consumed. -/
theorem readFileStatEnd_writeFileStat (s : FileStat) (h : s.Encodable) (rest : Bytes) :
    readFileStatEnd ⟨writeFileStat s ++ rest, false⟩ = (some s, false, ⟨rest, false⟩) := by
  rw [writeFileStat, List.take_of_length_le h.line]
  exact h.readable.read_line rest false

theorem readFileStatEnd_writeFileStat_song :
    readFileStatEnd ⟨writeFileStat ⟨[97], 12, [98], [], 80⟩ ++ [1, 2], false⟩ =
      (some ⟨[97], 12, [98], [], 80⟩, false, ⟨[1, 2], false⟩) :=
  readFileStatEnd_writeFileStat ⟨[97], 12, [98], [], 80⟩
    ⟨by decide +kernel, by decide +kernel, by decide +kernel, by decide +kernel⟩ [1, 2]

/-- **When the reader accepts the grammar**: exactly if every line at the start of the stream that its
loops take has numbers of the grammar. -/
theorem readsGrammar_iff_numerals (bytes : Bytes) (hnul : 0 ∉ bytes) :
    ReadsGrammar bytes ↔ ∀ name size owner host port rest,
      Accepts bytes name size owner host port rest → Numeral size (2 ^ 64) ∧ Numeral port (2 ^ 16) := by
  constructor
  · intro hreads name size owner host port rest haccepts
    have hstat := congrArg Prod.fst (haccepts.read false)
    obtain ⟨size', port', rest', hline⟩ := (hreads _).1 hstat
    obtain ⟨-, rfl, -, -, rfl, -⟩ := haccepts.unique hline.accepts
    exact ⟨hline.size.1, hline.port.1⟩
  · intro hnumerals stat
    constructor
    · intro hstat
      have hsome : readFileStatEnd ⟨bytes, false⟩ = (some stat, (readFileStatEnd ⟨bytes, false⟩).2) :=
        Prod.ext hstat rfl
      obtain ⟨-, name, size, owner, host, port, haccepts, -⟩ := readFileStatEnd_eq_some hsome
      obtain ⟨hsize, hport⟩ := hnumerals _ _ _ _ _ _ haccepts
      obtain ⟨hname, howner, hhost⟩ := haccepts.cString_eq hnul
      rw [haccepts.read, hname, howner, hhost] at hstat
      obtain rfl := Option.some.inj hstat
      exact ⟨size, port, _, haccepts.recordLine hsize hport⟩
    · rintro ⟨size, port, rest, hline⟩
      exact hline.read hnul

/-- The line `x/5:o:h:80`. -/
theorem readsGrammar_iff_numerals_line :
    ReadsGrammar (ascii ['x', '/', '5', ':', 'o', ':', 'h', ':', '8', '0', '\n']) := by
  refine (readsGrammar_iff_numerals _ (by decide +kernel)).2 fun name size owner host port rest haccepts => ?_
  have hline : Accepts (ascii ['x', '/', '5', ':', 'o', ':', 'h', ':', '8', '0', '\n']) (ascii ['x'])
      (ascii ['5']) (ascii ['o']) (ascii ['h']) (ascii ['8', '0']) [] :=
    ⟨rfl, by decide +kernel, by decide +kernel, by decide +kernel, by decide +kernel, by decide +kernel⟩
  obtain ⟨-, rfl, -, -, rfl, -⟩ := hline.unique haccepts
  exact ⟨⟨by decide +kernel, by decide +kernel, by decide +kernel⟩, by decide +kernel,
    by decide +kernel, by decide +kernel⟩

/-- In `x/5;:o:h:80` the size is not a number. -/
theorem not_readsGrammar : ¬ ∀ bytes : Bytes, 0 ∉ bytes → ReadsGrammar bytes := by
  intro hclaim
  have haccepts : Accepts (ascii ['x', '/', '5', ';', ':', 'o', ':', 'h', ':', '8', '0', '\n'])
      (ascii ['x']) (ascii ['5', ';']) (ascii ['o']) (ascii ['h']) (ascii ['8', '0']) [] :=
    ⟨rfl, by decide +kernel, by decide +kernel, by decide +kernel, by decide +kernel, by decide +kernel⟩
  obtain ⟨size, port, rest, hline⟩ :=
    (hclaim _ (by decide +kernel) _).1 (congrArg Prod.fst (haccepts.read false))
  obtain ⟨-, rfl, -⟩ := haccepts.unique hline.accepts
  exact absurd hline.size.1.digit (by decide +kernel)

end NetworkSystems.FileShare
