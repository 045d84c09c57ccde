import NetworkSystems.FileShare.FileMap

/-!
# The answer to `LIST`

The server writes one line for each record and then `END`, and `list_files` reads records until it gets
none. There is no length in front of a line. `write_file_stat` cuts a line at 2047 bytes, and a record
whose line is cut does not come back: the reader takes what follows for the rest of the line, and the
address of another peer, or the slash of another record, stands where it cannot stand.
-/

namespace NetworkSystems.FileShare

def inetNtoa (addr : Fin 4 → UInt8) : Bytes :=
  decimal (addr 0).toNat ++ 0x2e :: (decimal (addr 1).toNat ++ 0x2e :: (decimal (addr 2).toNat ++
    0x2e :: decimal (addr 3).toNat))

/-- A record that a connection puts into the file map: `read_file_stat` has read it, its host name is the
address of the peer, and `trie_put` can walk its file name. -/
def Received (stat : FileStat) : Prop :=
  Key stat.fileName ∧ ∃ fd fd' tmp addr, readFileStat fd = (some tmp, fd') ∧
    stat = { tmp with hostName := inetNtoa addr }

/-- The answer to `LIST`. -/
def listAnswer (fileMap : TrieT FileStat) : Option Bytes :=
  (trieIterate (fun _ => fileMap) printitr []).map (· ++ ascii ['E', 'N', 'D', '\n'])

/-- The loop of `list_files`: the table, the records that it prints, and the stream. -/
def listLoop : Nat → TrieT FileStat → File → Option (TrieT FileStat × List FileStat × File)
  | 0, _, _ => none
  | fuel + 1, files, asFile =>
      match readFileStatEnd asFile with
      | (some stat, false, asFile) =>
          (triePut files (stat.fileName ++ [0]) (some stat)).bind fun files =>
            (listLoop fuel files asFile).map fun result => (result.1, stat :: result.2.1, result.2.2)
      | (_, _, asFile) => some (files, [], asFile)

/-- `list_files`. Every record takes at least one byte of the stream. -/
def listFiles (files : TrieT FileStat) (asFile : File) :
    Option (TrieT FileStat × List FileStat × File) :=
  listLoop (asFile.bytes.length + 1) files asFile

/-- `list_files` turns the answer, whatever follows it, into the records of the file map, and stops right
behind it. -/
def Transfers (fileMap files : TrieT FileStat) (rest : Bytes) : Prop :=
  ∃ answer files', listAnswer fileMap = some answer ∧
    listFiles files ⟨answer ++ rest, false⟩ = some (files', fileMap.elements, ⟨rest, false⟩)

/-! ### The loop -/

theorem Accepts.length_lt {bytes name size owner host port rest : Bytes}
    (h : Accepts bytes name size owner host port rest) : rest.length < bytes.length := by
  rw [h.split]
  simp only [List.length_append, List.length_cons]
  omega

theorem listLoop_of_length {fuel : Nat} {files : TrieT FileStat} {asFile : File}
    (hfuel : asFile.bytes.length < fuel) : listLoop fuel files asFile = listFiles files asFile := by
  rw [listFiles]
  generalize hlength : asFile.bytes.length + 1 = enough
  have henough : asFile.bytes.length < enough := by omega
  clear hlength
  induction fuel generalizing enough files asFile with
  | zero => omega
  | succ fuel ih =>
      cases enough with
      | zero => omega
      | succ enough =>
          rw [listLoop, listLoop]
          split
          case h_1 stat rest heq =>
            obtain ⟨-, _, _, _, _, _, haccepts, -⟩ := readFileStatEnd_eq_some heq
            have hlt := haccepts.length_lt
            congr 1
            funext files
            rw [ih (by omega) enough (by omega)]
          case h_2 => rfl

section Loop

variable {files : TrieT FileStat} {asFile rest : File} {stat : FileStat} {last : Bool}

theorem listFiles_record (h : readFileStatEnd asFile = (some stat, false, rest)) :
    listFiles files asFile = (triePut files (stat.fileName ++ [0]) (some stat)).bind fun files =>
      (listFiles files rest).map fun result => (result.1, stat :: result.2.1, result.2.2) := by
  obtain ⟨-, _, _, _, _, _, haccepts, -⟩ := readFileStatEnd_eq_some h
  rw [listFiles, listLoop, h]
  simp only [listLoop_of_length haccepts.length_lt]

theorem listFiles_end (h : readFileStatEnd asFile = (none, last, rest)) :
    listFiles files asFile = some (files, [], rest) := by
  rw [listFiles, listLoop, h]

end Loop

/-- The loop returns with one record more than its first read leaves, and never with more of the stream
than there was. -/
theorem listFiles_inv {files files' : TrieT FileStat} {asFile asFile' : File} {rows : List FileStat}
    (h : listFiles files asFile = some (files', rows, asFile')) :
    asFile'.bytes.length ≤ asFile.bytes.length ∧
      ∀ stat rows', rows = stat :: rows' → ∃ mid rest, readFileStatEnd asFile = (some stat, false, rest) ∧
        listFiles mid rest = some (files', rows', asFile') := by
  generalize hlength : asFile.bytes.length = length
  induction length using Nat.strongRecOn generalizing files asFile rows with
  | ind length ih =>
      rcases hread : readFileStatEnd asFile with ⟨_ | stat, last, rest⟩
      · rw [listFiles_end hread, Option.some.injEq] at h
        cases h
        have hle := readFileStatEnd_length asFile
        rw [hread] at hle
        exact ⟨hlength ▸ hle, nofun⟩
      · obtain ⟨⟨rfl, -⟩, _, _, _, _, _, haccepts, -⟩ := readFileStatEnd_eq_some hread
        have hlt := haccepts.length_lt
        rw [listFiles_record hread] at h
        obtain ⟨mid, -, h⟩ := Option.bind_eq_some_iff.1 h
        obtain ⟨result, hresult, h⟩ := Option.map_eq_some_iff.1 h
        cases h
        have hle := (ih _ (by omega) hresult rfl).1
        refine ⟨by omega, fun stat' rows' hrows => ?_⟩
        obtain ⟨rfl, rfl⟩ := List.cons.inj hrows
        exact ⟨mid, rest, rfl, hresult⟩

/-! ### Lines that are not cut -/

theorem readFileStatEnd_end (rest : Bytes) :
    readFileStatEnd ⟨ascii ['E', 'N', 'D', '\n'] ++ rest, false⟩ = (none, true, ⟨rest, false⟩) := by
  rfl

/-- The records of an answer come back when no line is cut, and each is put into the table. -/
theorem listFiles_answer {rows : List FileStat}
    (hrows : ∀ stat ∈ rows, stat.Readable ∧ Key stat.fileName ∧ stat.line.length ≤ 2047)
    (files : TrieT FileStat) (rest : Bytes) :
    ∃ files', listFiles files ⟨rows.flatMap writeFileStat ++ ascii ['E', 'N', 'D', '\n'] ++ rest, false⟩ =
        some (files', rows, ⟨rest, false⟩) ∧
      files'.find = FileMap.puts files.find rows := by
  induction rows generalizing files with
  | nil => exact ⟨files, listFiles_end (readFileStatEnd_end rest), rfl⟩
  | cons stat rows ih =>
      obtain ⟨hreadable, hkey, hline⟩ := hrows stat (by simp)
      obtain ⟨mid, hput⟩ := put_of_key files hkey [] (some stat)
      obtain ⟨files', hrest, hfind⟩ := ih (fun s hs => hrows s (List.mem_cons_of_mem _ hs)) mid
      have hread := hreadable.read_line
        (rows.flatMap writeFileStat ++ ascii ['E', 'N', 'D', '\n'] ++ rest) false
      refine ⟨files', ?_, ?_⟩
      · rw [List.flatMap_cons, writeFileStat, List.take_of_length_le hline, List.append_assoc,
          List.append_assoc, ← List.append_assoc (rows.flatMap _), listFiles_record hread, hput,
          Option.bind_some, hrest]
        rfl
      · have hmid : mid.find = Function.update files.find stat.fileName (some stat) := by
          funext key
          rw [(find_of_put hput).2, keyOf_append hkey, Function.update_apply]
        rw [hfind, hmid]
        rfl

/-! ### What a received record looks like -/

theorem cString_length_le (mem : Bytes) : (cString mem).length ≤ mem.length :=
  (List.takeWhile_sublist _).length_le

theorem mem_of_mem_cString {mem : Bytes} {ch : UInt8} (h : ch ∈ cString mem) : ch ∈ mem ∧ ch ≠ 0 :=
  ⟨(List.takeWhile_sublist _).subset h, fun heq => not_mem_cString mem (heq ▸ h)⟩

theorem inetNtoa_chars (addr : Fin 4 → UInt8) :
    ∀ ch ∈ inetNtoa addr, ch = 0x2e ∨ 0x30 ≤ ch ∧ ch < 0x3a := by
  intro ch hch
  simp only [inetNtoa, List.mem_append, List.mem_cons] at hch
  rcases hch with hch | hch | hch | hch | hch | hch | hch
  · exact Or.inr (decimal_digits _ ch hch)
  · exact Or.inl hch
  · exact Or.inr (decimal_digits _ ch hch)
  · exact Or.inl hch
  · exact Or.inr (decimal_digits _ ch hch)
  · exact Or.inl hch
  · exact Or.inr (decimal_digits _ ch hch)

theorem decimal_length {n width : Nat} (hwidth : 0 < width) (h : n < 10 ^ width) :
    (decimal n).length ≤ width := by
  rw [decimal, ascii, List.length_map]
  exact (Nat.length_toDigits_le_iff (by omega) hwidth).2 h

theorem inetNtoa_length (addr : Fin 4 → UInt8) : (inetNtoa addr).length ≤ 15 := by
  have hbyte : ∀ b : UInt8, (decimal b.toNat).length ≤ 3 := fun b =>
    decimal_length (by omega) (b.toNat_lt.trans_le (by decide))
  have h₀ := hbyte (addr 0)
  have h₁ := hbyte (addr 1)
  have h₂ := hbyte (addr 2)
  have h₃ := hbyte (addr 3)
  simp only [inetNtoa, List.length_append, List.length_cons]
  omega

theorem inetNtoa_notMem (addr : Fin 4 → UInt8) {ch : UInt8} (hdot : ch ≠ 0x2e)
    (hdigit : ¬ (0x30 ≤ ch ∧ ch < 0x3a)) : ch ∉ inetNtoa addr := fun hmem =>
  (inetNtoa_chars addr ch hmem).elim hdot hdigit

theorem Received.readable {stat : FileStat} (h : Received stat) : stat.Readable := by
  obtain ⟨-, fd, fd', tmp, addr, hread, rfl⟩ := h
  obtain ⟨last, hread⟩ := readFileStatEnd_of_readFileStat hread
  obtain ⟨-, name, size, owner, host, port, haccepts, hname, howner, -⟩ := readFileStatEnd_eq_some hread
  refine ⟨⟨?_, fun ch hch => ?_⟩, ⟨?_, fun ch hch => ?_⟩, ⟨?_, fun ch hch => ⟨?_, ?_⟩⟩⟩
  · change tmp.fileName.length ≤ _
    rw [hname]
    exact (cString_length_le name).trans haccepts.name.1
  · change ch ∈ tmp.fileName at hch
    rw [hname] at hch
    obtain ⟨hmem, hzero⟩ := mem_of_mem_cString hch
    exact ⟨(haccepts.name.2 ch hmem).1, (haccepts.name.2 ch hmem).2, hzero⟩
  · change tmp.owner.length ≤ _
    rw [howner]
    exact (cString_length_le owner).trans haccepts.owner.1
  · change ch ∈ tmp.owner at hch
    rw [howner] at hch
    obtain ⟨hmem, hzero⟩ := mem_of_mem_cString hch
    exact ⟨fun heq => haccepts.owner.2 (heq ▸ hmem), hzero⟩
  · exact (inetNtoa_length addr).trans (by simp [bufLen])
  · rintro rfl
    exact inetNtoa_notMem addr (by decide) (by decide) hch
  · rintro rfl
    exact inetNtoa_notMem addr (by decide) (by decide) hch

/-! ### Where the reader stands after a cut -/

def PortAt (bytes rest : Bytes) : Prop :=
  ∃ port, bytes = port ++ 0x0a :: rest ∧ ∀ ch ∈ port, 0x30 ≤ ch ∧ ch < 0x40

/-- The reader takes the bytes for the given host name and a port, up to `rest`. -/
def HostAt (hostName bytes rest : Bytes) : Prop :=
  ∃ host back, bytes = host ++ 0x3a :: back ∧ (0x3a : UInt8) ∉ host ∧ cString host = hostName ∧
    PortAt back rest

/-- The reader takes the bytes for the given owner and host name and a port, up to `rest`. -/
def OwnerAt (owner hostName bytes rest : Bytes) : Prop :=
  ∃ field back, bytes = field ++ 0x3a :: back ∧ (0x3a : UInt8) ∉ field ∧ cString field = owner ∧
    HostAt hostName back rest

section Cut

variable {owner hostName bytes rest front back : Bytes}

theorem PortAt.length_lt (h : PortAt bytes rest) : rest.length < bytes.length := by
  obtain ⟨port, rfl, -⟩ := h
  simp only [List.length_append, List.length_cons]
  omega

theorem HostAt.length_lt (h : HostAt hostName bytes rest) : rest.length < bytes.length := by
  obtain ⟨host, back, rfl, -, -, hport⟩ := h
  have hlt := hport.length_lt
  simp only [List.length_append, List.length_cons]
  omega

theorem not_portAt (hfront : (0x0a : UInt8) ∉ front) {ch : UInt8}
    (hch : ch ≠ 0x0a ∧ ¬ (0x30 ≤ ch ∧ ch < 0x40)) : ¬ PortAt (front ++ ch :: back) rest := by
  rintro ⟨port, heq, hport⟩
  obtain ⟨mid, rfl, hback⟩ := delimited_append hfront heq
  cases mid with
  | nil => exact hch.1 (List.cons.inj hback).1
  | cons c mid =>
      obtain ⟨rfl, -⟩ := List.cons.inj hback
      exact hch.2 (hport ch (by simp))

/-- A field that goes on into the line of another record ends in its name, or behind its size. -/
theorem field_of_line {name size field more : Bytes} (hfront : ∀ ch ∈ front, ch ≠ 0x3a ∧ ch ≠ 0)
    (hname : (0 : UInt8) ∉ name) (hsize : ∀ ch ∈ size, 0x30 ≤ ch ∧ ch < 0x3a)
    (hfield : (0x3a : UInt8) ∉ field)
    (heq : front ++ (name ++ 0x2f :: (size ++ 0x3a :: back)) = field ++ 0x3a :: more) :
    (∃ pre post, name = pre ++ 0x3a :: post ∧ more = post ++ 0x2f :: (size ++ 0x3a :: back)) ∨
      cString field = front ++ (name ++ 0x2f :: size) ∧ more = back := by
  obtain ⟨mid, rfl, hmid⟩ := delimited_append (fun h => (hfront _ h).1 rfl) heq
  have hmidColon : (0x3a : UInt8) ∉ mid := fun h => hfield (List.mem_append_right front h)
  by_cases hmem : (0x3a : UInt8) ∈ name
  · obtain ⟨pre, post, rfl, hpre⟩ := List.eq_append_cons_of_mem hmem
    rw [List.append_assoc, List.cons_append] at hmid
    obtain ⟨-, rfl⟩ := delimited_inj hpre hmidColon hmid
    exact Or.inl ⟨pre, post, rfl, rfl⟩
  · have hlong : (0x3a : UInt8) ∉ name ++ 0x2f :: size := by
      rw [List.mem_append, List.mem_cons]
      rintro (h | h | h)
      · exact hmem h
      · exact absurd h (by decide)
      · exact absurd (hsize _ h) (by decide)
    rw [← List.cons_append, ← List.append_assoc] at hmid
    obtain ⟨rfl, rfl⟩ := delimited_inj hlong hmidColon hmid
    refine Or.inr ⟨cString_eq_self ?_, rfl⟩
    simp only [List.mem_append, List.mem_cons]
    rintro (h | h | h | h)
    · exact (hfront _ h).2 rfl
    · exact hname h
    · exact absurd h (by decide)
    · exact absurd (hsize _ h) (by decide)

theorem not_hostAt {name size : Bytes} (hhost : (0x2f : UInt8) ∉ hostName)
    (hfront : ∀ ch ∈ front, ch ≠ 0x3a ∧ ch ≠ 0) (hname : ∀ ch ∈ name, ch ≠ 0x0a ∧ ch ≠ 0)
    (hsize : ∀ ch ∈ size, 0x30 ≤ ch ∧ ch < 0x3a) :
    ¬ HostAt hostName (front ++ (name ++ 0x2f :: (size ++ 0x3a :: back))) rest := by
  rintro ⟨host, more, heq, hcolon, rfl, hport⟩
  rcases field_of_line hfront (fun h => (hname _ h).2 rfl) hsize hcolon heq with
    ⟨pre, post, rfl, rfl⟩ | ⟨hstring, -⟩
  · exact not_portAt (fun h => (hname _ (List.mem_append_right _ (List.mem_cons_of_mem _ h))).1 rfl)
      (by decide) hport
  · exact hhost (hstring ▸ by simp)

/-- Nor can it stand for the rest of an owner: its slash would be in the host name, or its address where
the port is. -/
theorem not_ownerAt {name size : Bytes} (hlength : owner.length ≤ bufLen - 1)
    (hhost : (0x2f : UInt8) ∉ hostName) (hfront : ∀ ch ∈ front, ch ≠ 0x3a ∧ ch ≠ 0)
    (hname : ∀ ch ∈ name, ch ≠ 0x0a ∧ ch ≠ 0) (hsize : ∀ ch ∈ size, 0x30 ≤ ch ∧ ch < 0x3a)
    (hback : front.length + name.length ≤ bufLen - 1 → ∃ owner' byte more, (0x3a : UInt8) ∉ owner' ∧
      back = owner' ++ 0x3a :: (decimal byte ++ 0x2e :: more)) :
    ¬ OwnerAt owner hostName (front ++ (name ++ 0x2f :: (size ++ 0x3a :: back))) rest := by
  rintro ⟨field, behind, heq, hcolon, rfl, hhostAt⟩
  rcases field_of_line hfront (fun h => (hname _ h).2 rfl) hsize hcolon heq with
    ⟨pre, post, rfl, rfl⟩ | ⟨hstring, rfl⟩
  · have hnil : ∀ ch ∈ ([] : Bytes), ch ≠ 0x3a ∧ ch ≠ 0 := nofun
    exact not_hostAt hhost hnil
      (fun ch h => hname ch (List.mem_append_right _ (List.mem_cons_of_mem _ h))) hsize hhostAt
  · rw [hstring, List.length_append, List.length_append] at hlength
    obtain ⟨owner', byte, more, howner, rfl⟩ := hback (by omega)
    obtain ⟨host, port, heq, hhostColon, -, hport⟩ := hhostAt
    obtain ⟨-, rfl⟩ := delimited_inj howner hhostColon heq
    exact not_portAt (fun h => absurd (decimal_digits byte _ h) (by decide)) (by decide) hport

theorem field_of_end {field more : Bytes} (hfront : (0x3a : UInt8) ∉ front)
    (heq : front ++ (ascii ['E', 'N', 'D', '\n'] ++ rest) = field ++ 0x3a :: more) :
    more.length < rest.length := by
  rw [← List.append_assoc] at heq
  obtain ⟨mid, -, rfl⟩ := delimited_append (by simp [hfront, ascii]) heq
  simp only [List.length_append, List.length_cons]
  omega

end Cut

/-! ### Lines that are cut -/

/-- What the line of a record has behind the size. -/
def FileStat.fields (stat : FileStat) : Bytes :=
  stat.owner ++ 0x3a :: (stat.hostName ++ 0x3a :: (decimal stat.port.toNat ++ [0x0a]))

theorem FileStat.line_fields (stat : FileStat) :
    stat.line = stat.fileName ++ 0x2f :: (decimal stat.fileSize.toNat ++ 0x3a :: stat.fields) := rfl

theorem FileStat.Readable.writeFileStat {stat : FileStat} (h : stat.Readable) :
    ∃ kept, FileShare.writeFileStat stat =
        stat.fileName ++ 0x2f :: (decimal stat.fileSize.toNat ++ 0x3a :: stat.fields.take kept) ∧
      2025 ≤ kept + stat.fileName.length ∧
      (2047 < stat.line.length → kept < stat.fields.length) := by
  have hsize : (decimal stat.fileSize.toNat).length ≤ 20 :=
    decimal_length (by omega) (stat.fileSize.toNat_lt.trans_le (by decide))
  have hname : stat.fileName.length ≤ 1023 := h.fileName.1
  refine ⟨2045 - stat.fileName.length - (decimal stat.fileSize.toNat).length, ?_, by omega, ?_⟩
  · rw [FileShare.writeFileStat, FileStat.line_fields, List.take_append, List.take_of_length_le (by omega),
      show 2047 - stat.fileName.length = 2046 - stat.fileName.length + 1 by omega, List.take_succ_cons,
      List.take_append, List.take_of_length_le (by omega),
      show 2046 - stat.fileName.length - (decimal stat.fileSize.toNat).length =
        2045 - stat.fileName.length - (decimal stat.fileSize.toNat).length + 1 by omega,
      List.take_succ_cons]
  · rw [FileStat.line_fields]
    simp only [List.length_append, List.length_cons]
    omega

/-- A line that is cut and yet read back as its record: the reader stands in the owner, in the host name
or in the port when what follows the line begins. -/
theorem FileStat.Readable.read_cut {stat : FileStat} (h : stat.Readable) (hlong : 2047 < stat.line.length)
    {more : Bytes} {eof last : Bool} {fd : File}
    (hread : readFileStatEnd ⟨FileShare.writeFileStat stat ++ more, eof⟩ = (some stat, last, fd)) :
    ∃ front, (∀ ch ∈ front, ch ≠ 0x3a ∧ ch ≠ 0) ∧
      (1002 ≤ front.length ∧ OwnerAt stat.owner stat.hostName (front ++ more) fd.bytes ∨
        HostAt stat.hostName (front ++ more) fd.bytes ∨
        (0x0a : UInt8) ∉ front ∧ PortAt (front ++ more) fd.bytes) := by
  obtain ⟨kept, hwrite, hkept, hcut⟩ := h.writeFileStat
  have hcut := hcut hlong
  have hname : stat.fileName.length ≤ 1023 := h.fileName.1
  obtain ⟨-, name, size, owner, host, port, haccepts, -, howner, hhost⟩ := readFileStatEnd_eq_some hread
  have hsplit := haccepts.split
  rw [hwrite] at hsplit
  simp only [List.append_assoc, List.cons_append] at hsplit
  obtain ⟨-, hbehind⟩ := delimited_inj (fun hmem => (h.fileName.2 _ hmem).1 rfl)
    (fun hmem => (haccepts.name.2 _ hmem).1 rfl) hsplit
  obtain ⟨-, hfields⟩ := delimited_inj
    (fun hmem => absurd (decimal_digits stat.fileSize.toNat _ hmem) (by decide))
    (fun hmem => (haccepts.size _ hmem).1 rfl) hbehind.symm
  have hport : PortAt (port ++ 0x0a :: fd.bytes) fd.bytes :=
    ⟨port, rfl, fun ch hch => (haccepts.port ch hch).2⟩
  have hhostAt : HostAt stat.hostName (host ++ 0x3a :: (port ++ 0x0a :: fd.bytes)) fd.bytes :=
    ⟨host, _, rfl, haccepts.host.2, hhost.symm, hport⟩
  rcases Nat.lt_or_ge stat.owner.length kept with howned | howned
  · -- the owner is complete
    obtain ⟨kept, rfl⟩ : ∃ k, kept = stat.owner.length + (k + 1) := ⟨kept - stat.owner.length - 1, by omega⟩
    rw [FileStat.fields, List.take_append, List.take_of_length_le (by omega), Nat.add_sub_cancel_left,
      List.take_succ_cons, List.append_assoc, List.cons_append] at hfields
    obtain ⟨-, hfields⟩ := delimited_inj (fun hmem => (h.owner.2 _ hmem).1 rfl) haccepts.owner.2 hfields.symm
    rcases Nat.lt_or_ge stat.hostName.length kept with hhosted | hhosted
    · -- so is the host name, and at least the newline is missing
      obtain ⟨kept, rfl⟩ : ∃ k, kept = stat.hostName.length + (k + 1) :=
        ⟨kept - stat.hostName.length - 1, by omega⟩
      rw [List.take_append, List.take_of_length_le (by omega), Nat.add_sub_cancel_left,
        List.take_succ_cons, List.append_assoc, List.cons_append] at hfields
      obtain ⟨-, hfields⟩ := delimited_inj (fun hmem => (h.hostName.2 _ hmem).1 rfl) haccepts.host.2
        hfields.symm
      rw [FileStat.fields] at hcut
      simp only [List.length_append, List.length_cons, List.length_nil] at hcut
      rw [List.take_append_of_le_length (by omega)] at hfields
      have hdigits : ∀ ch ∈ (decimal stat.port.toNat).take kept, 0x30 ≤ ch ∧ ch < 0x3a := fun ch hch =>
        decimal_digits _ ch (List.mem_of_mem_take hch)
      refine ⟨(decimal stat.port.toNat).take kept, fun ch hch => ⟨?_, ?_⟩, Or.inr (Or.inr ⟨?_, ?_⟩)⟩
      · rintro rfl
        exact absurd (hdigits _ hch) (by decide)
      · rintro rfl
        exact absurd (hdigits _ hch) (by decide)
      · exact fun hch => absurd (hdigits _ hch) (by decide)
      · exact hfields ▸ hport
    · refine ⟨stat.hostName.take kept, fun ch hch => h.hostName.2 ch (List.mem_of_mem_take hch),
        Or.inr (Or.inl ?_)⟩
      rw [List.take_append_of_le_length hhosted] at hfields
      exact hfields ▸ hhostAt
  · refine ⟨stat.owner.take kept, fun ch hch => h.owner.2 ch (List.mem_of_mem_take hch), Or.inl ⟨?_, ?_⟩⟩
    · rw [List.length_take]
      omega
    · rw [FileStat.fields, List.take_append_of_le_length howned] at hfields
      exact ⟨owner, _, hfields.symm, haccepts.owner.2, howner.symm, hhostAt⟩

theorem Received.hostName {stat : FileStat} (h : Received stat) : ∃ addr, stat.hostName = inetNtoa addr := by
  obtain ⟨-, _, _, _, addr, -, rfl⟩ := h
  exact ⟨addr, rfl⟩

theorem Received.slash_notMem {stat : FileStat} (h : Received stat) : (0x2f : UInt8) ∉ stat.hostName := by
  obtain ⟨addr, heq⟩ := h.hostName
  rw [heq]
  exact inetNtoa_notMem addr (by decide) (by decide)

theorem Received.fields_length {stat : FileStat} (h : Received stat) : stat.fields.length ≤ 1046 := by
  obtain ⟨addr, heq⟩ := h.hostName
  have howner : stat.owner.length ≤ 1023 := h.readable.owner.1
  have hhost := inetNtoa_length addr
  have hport : (decimal stat.port.toNat).length ≤ 5 :=
    decimal_length (by omega) (stat.port.toNat_lt.trans_le (by decide))
  rw [FileStat.fields, heq]
  simp only [List.length_append, List.length_cons, List.length_nil]
  omega

theorem not_read_cut {stat next : FileStat} (h : Received stat) (hnext : Received next)
    (hlong : 2047 < stat.line.length) (more : Bytes) (eof last : Bool) (fd : File) :
    readFileStatEnd ⟨writeFileStat stat ++ (writeFileStat next ++ more), eof⟩ ≠ (some stat, last, fd) := by
  intro hread
  obtain ⟨front, hfront, hat⟩ := h.readable.read_cut hlong hread
  obtain ⟨kept, hwrite, hkept, -⟩ := hnext.readable.writeFileStat
  have hname : ∀ ch ∈ next.fileName, ch ≠ 0x0a ∧ ch ≠ 0 := fun ch hch =>
    (hnext.readable.fileName.2 ch hch).2
  have hsize := decimal_digits next.fileSize.toNat
  rw [hwrite] at hat
  simp only [List.append_assoc, List.cons_append] at hat
  rcases hat with ⟨hlength, howner⟩ | hhost | ⟨hline, hport⟩
  · obtain ⟨addr, haddr⟩ := hnext.hostName
    refine not_ownerAt h.readable.owner.1 h.slash_notMem hfront hname hsize (fun hshort => ?_) howner
    -- the name of the next record is short here, so its own line is not cut
    have hfields := hnext.fields_length
    have : front.length + next.fileName.length ≤ 1023 := hshort
    rw [List.take_of_length_le (by omega), FileStat.fields, haddr, inetNtoa]
    simp only [List.append_assoc, List.cons_append]
    exact ⟨next.owner, (addr 0).toNat, _, fun hmem => (hnext.readable.owner.2 _ hmem).1 rfl, rfl⟩
  · exact not_hostAt h.slash_notMem hfront hname hsize hhost
  · rw [← List.append_assoc] at hport
    refine not_portAt (fun hmem => ?_) (by decide) hport
    rcases List.mem_append.1 hmem with hmem | hmem
    · exact hline hmem
    · exact (hname _ hmem).1 rfl

/-- A cut line in front of `END` is read back as its record only from what follows the answer. -/
theorem read_cut_end {stat : FileStat} (h : Received stat) (hlong : 2047 < stat.line.length)
    {rest : Bytes} {eof last : Bool} {fd : File}
    (hread : readFileStatEnd ⟨writeFileStat stat ++ (ascii ['E', 'N', 'D', '\n'] ++ rest), eof⟩ =
      (some stat, last, fd)) : fd.bytes.length < rest.length := by
  obtain ⟨front, hfront, hat⟩ := h.readable.read_cut hlong hread
  rcases hat with ⟨-, howner⟩ | hhost | ⟨hline, hport⟩
  · obtain ⟨field, more, heq, -, -, hhost⟩ := howner
    have hmore := field_of_end (fun hmem => (hfront _ hmem).1 rfl) heq
    exact hhost.length_lt.trans hmore
  · obtain ⟨field, more, heq, -, -, hport⟩ := hhost
    have hmore := field_of_end (fun hmem => (hfront _ hmem).1 rfl) heq
    exact hport.length_lt.trans hmore
  · exact absurd hport (not_portAt hline (by decide))

theorem line_length_le_of_listFiles {rows : List FileStat} (hrows : ∀ stat ∈ rows, Received stat)
    {files files' : TrieT FileStat} {rest : Bytes}
    (h : listFiles files ⟨rows.flatMap writeFileStat ++ ascii ['E', 'N', 'D', '\n'] ++ rest, false⟩ =
      some (files', rows, ⟨rest, false⟩)) : ∀ stat ∈ rows, stat.line.length ≤ 2047 := by
  induction rows generalizing files with
  | nil => nofun
  | cons stat rows ih =>
      have hstat := hrows stat (by simp)
      rw [List.flatMap_cons, List.append_assoc, List.append_assoc] at h
      obtain ⟨mid, fd, hread, hrest⟩ := (listFiles_inv h).2 stat rows rfl
      have hle := (listFiles_inv hrest).1
      rcases Nat.lt_or_ge 2047 stat.line.length with hlong | hshort
      · cases rows with
        | nil => exact absurd (read_cut_end hstat hlong hread) (by simpa using hle)
        | cons next rows =>
            rw [List.flatMap_cons, List.append_assoc] at hread
            exact absurd hread (not_read_cut hstat (hrows next (by simp)) hlong _ _ _ _)
      · rw [writeFileStat, List.take_of_length_le hshort, hstat.readable.read_line] at hread
        cases hread
        rw [← List.append_assoc] at hrest
        rintro s (_ | ⟨_, hs⟩)
        · exact hshort
        · exact ih (fun s hs => hrows s (List.mem_cons_of_mem _ hs)) hrest s hs

theorem listAnswer_eq (fileMap : TrieT FileStat) :
    listAnswer fileMap = some (fileMap.elements.flatMap writeFileStat ++ ascii ['E', 'N', 'D', '\n']) := by
  rw [listAnswer, trieIterate_printitr]
  rfl

theorem mem_elements {α : Type} {t : TrieT α} {val : α} :
    val ∈ t.elements ↔ ∃ key, t.find key = some val := by
  rw [TrieT.elements, List.mem_filterMap]
  constructor
  · rintro ⟨key, -, hkey⟩
    exact ⟨key, hkey⟩
  · rintro ⟨key, hkey⟩
    exact ⟨key, mem_slots_of_find hkey, hkey⟩

/-- **`LIST` transfers the whole registry** exactly when no line is longer than 2047 bytes. -/
theorem transfers_iff_short (fileMap files : TrieT FileStat) (rest : Bytes)
    (hreceived : ∀ key stat, fileMap.find key = some stat → Received stat) :
    Transfers fileMap files rest ↔ ∀ key stat, fileMap.find key = some stat → stat.line.length ≤ 2047 := by
  have hrows : ∀ stat ∈ fileMap.elements, Received stat := fun stat hstat =>
    let ⟨key, hkey⟩ := mem_elements.1 hstat
    hreceived key stat hkey
  constructor
  · rintro ⟨answer, files', hanswer, hlist⟩ key stat hkey
    obtain rfl := Option.some.inj ((listAnswer_eq fileMap).symm.trans hanswer)
    exact line_length_le_of_listFiles hrows hlist stat (mem_elements.2 ⟨key, hkey⟩)
  · intro hshort
    have hsent : ∀ stat ∈ fileMap.elements,
        stat.Readable ∧ Key stat.fileName ∧ stat.line.length ≤ 2047 := by
      intro stat hstat
      obtain ⟨key, hkey⟩ := mem_elements.1 hstat
      exact ⟨(hrows stat hstat).readable, (hrows stat hstat).1, hshort key stat hkey⟩
    obtain ⟨files', hlist, -⟩ := listFiles_answer hsent files rest
    exact ⟨_, files', listAnswer_eq fileMap, hlist⟩

def oneFile (stat : FileStat) : TrieT FileStat :=
  (triePut .zeroed (stat.fileName ++ [0]) (some stat)).getD .zeroed

theorem oneFile_find {stat : FileStat} (h : Key stat.fileName) (key : Bytes) :
    (oneFile stat).find key = if key = stat.fileName then some stat else none := by
  obtain ⟨t, hput⟩ := put_of_key .zeroed h [] (some stat)
  rw [oneFile, hput, Option.getD_some, (find_of_put hput).2, keyOf_append h, TrieT.find_zeroed]

theorem received_of_readable {stat : FileStat} (hkey : Key stat.fileName) (h : stat.Readable)
    {addr : Fin 4 → UInt8} (haddr : stat.hostName = inetNtoa addr) : Received stat := by
  refine ⟨hkey, ⟨stat.line ++ [], false⟩, ⟨[], false⟩, stat, addr, ?_, by rw [← haddr]⟩
  rw [readFileStat, h.read_line]

theorem received_oneFile {stat : FileStat} (h : Received stat) (key : Bytes) (found : FileStat)
    (hkey : (oneFile stat).find key = some found) : Received found := by
  rw [oneFile_find h.1] at hkey
  split at hkey
  case isTrue => exact Option.some.inj hkey ▸ h
  case isFalse => cases hkey

def loopback (i : Fin 4) : UInt8 := if i = 0 then 127 else if i = 3 then 1 else 0

/-- A record with a file name and an owner of the given lengths. -/
def recordOf (nameLength ownerLength : Nat) : FileStat :=
  ⟨List.replicate nameLength 0x61, 0, List.replicate ownerLength 0x62, inetNtoa loopback, 80⟩

theorem received_recordOf {nameLength ownerLength : Nat} (hpos : 0 < nameLength) (hname : nameLength ≤ 1023)
    (howner : ownerLength ≤ 1023) : Received (recordOf nameLength ownerLength) := by
  refine received_of_readable ⟨?_, fun ch hch => ?_⟩ ⟨⟨?_, fun ch hch => ?_⟩, ⟨?_, fun ch hch => ?_⟩, ?_⟩ rfl
  · simpa [recordOf] using hpos.ne'
  · rw [List.eq_of_mem_replicate (List.mem_of_mem_tail hch)]
    decide
  · simpa [recordOf] using hname
  · rw [List.eq_of_mem_replicate hch]
    decide
  · simpa [recordOf] using howner
  · rw [List.eq_of_mem_replicate hch]
    decide
  · change (inetNtoa loopback).length ≤ _ ∧ ∀ ch ∈ inetNtoa loopback, _
    decide +kernel

theorem recordOf_line_length (nameLength ownerLength : Nat) :
    (recordOf nameLength ownerLength).line.length = nameLength + ownerLength + 17 := by
  have hsize : (decimal (0 : UInt64).toNat).length = 1 := by decide
  have hhost : (inetNtoa loopback).length = 9 := by decide
  have hport : (decimal (80 : UInt16).toNat).length = 2 := by decide
  simp only [recordOf, FileStat.line, List.length_append, List.length_cons, List.length_nil,
    List.length_replicate, hsize, hhost, hport]
  omega

theorem transfers_iff_short_ten : Transfers (oneFile (recordOf 10 10)) .zeroed [] := by
  have hreceived := received_recordOf (show 0 < 10 by decide) (show 10 ≤ 1023 by decide) (show 10 ≤ 1023 by decide)
  refine (transfers_iff_short (oneFile (recordOf 10 10)) .zeroed [] (received_oneFile hreceived)).2
    fun key stat hkey => ?_
  rw [oneFile_find hreceived.1] at hkey
  split at hkey
  case isTrue =>
    obtain rfl := Option.some.inj hkey
    rw [recordOf_line_length]
    decide
  case isFalse => cases hkey

/-- A file name and an owner of 1023 bytes make a line of 2063 bytes. -/
theorem not_transfers : ¬ ∀ (fileMap files : TrieT FileStat) (rest : Bytes),
    (∀ key stat, fileMap.find key = some stat → Received stat) → Transfers fileMap files rest := by
  intro hclaim
  have hreceived := received_recordOf (show 0 < 1023 by decide) (show 1023 ≤ 1023 by decide)
    (show 1023 ≤ 1023 by decide)
  have hall := received_oneFile hreceived
  obtain ⟨answer, files', hanswer, hlist⟩ := hclaim (oneFile (recordOf 1023 1023)) .zeroed [] hall
  obtain rfl := Option.some.inj ((listAnswer_eq _).symm.trans hanswer)
  have hshort := line_length_le_of_listFiles
    (fun stat hstat => let ⟨key, hkey⟩ := mem_elements.1 hstat; hall key stat hkey) hlist
    (recordOf 1023 1023) (mem_elements.2 ⟨_, (oneFile_find hreceived.1 _).trans (if_pos rfl)⟩)
  rw [recordOf_line_length] at hshort
  omega

/-! ### The registry of a server -/

theorem Session.command_ipasstr (c : Session) : c.command.ipasstr = c.ipasstr := by
  rw [Session.command]
  split
  · rfl
  · rw [Session.dispatch]
    split
    · rfl
    · split
      · split
        · rfl
        · split <;> rfl
      · split
        · rfl
        · split <;> rfl

section Reachable

variable {n : Nat} {s next : Server n} {i : Fin n}

/-- All records are received, those that are about to be put as well. -/
structure Server.ReceivedInv (s : Server n) : Prop where
  ipasstr : ∀ i, ∃ addr, (s.sessions i).ipasstr = inetNtoa addr
  put : ∀ i stat, (s.sessions i).pc = .put stat → Key stat.fileName → Received stat
  held : ∀ key stat, s.fileMap.find key = some stat → Received stat

theorem Server.ReceivedInv.quiet (h : s.ReceivedInv) (next : Server n) {c : Session}
    (hmap : next.fileMap = s.fileMap) (hsessions : next.sessions = Function.update s.sessions i c)
    (hipasstr : c.ipasstr = (s.sessions i).ipasstr)
    (hput : ∀ stat, c.pc = .put stat → Key stat.fileName → Received stat) : next.ReceivedInv := by
  refine ⟨fun j => ?_, fun j stat hj => ?_, hmap ▸ h.held⟩
  · rw [hsessions]
    by_cases hji : j = i
    · rw [hji, Function.update_self, hipasstr]
      exact h.ipasstr i
    · rw [Function.update_of_ne hji]
      exact h.ipasstr j
  · rw [hsessions] at hj
    by_cases hji : j = i
    · rw [hji, Function.update_self] at hj
      exact hput stat hj
    · rw [Function.update_of_ne hji] at hj
      exact h.put j stat hj

theorem Server.ReceivedInv.step (h : s.ReceivedInv) (hinv : s.RegistryInv) (hstep : s.step i = some next) :
    next.ReceivedInv := by
  cases Server.step_moves hstep with
  | command hpc =>
      refine h.quiet _ rfl rfl (Session.command_ipasstr _) fun stat hput hkey => ⟨hkey, ?_⟩
      obtain ⟨fd, fd', tmp, hread, rfl, -⟩ := Session.command_put hpc hput
      obtain ⟨addr, haddr⟩ := h.ipasstr i
      exact ⟨fd, fd', tmp, addr, hread, by rw [haddr]⟩
  | @contains found => exact h.quiet _ rfl rfl rfl fun stat hput => by cases found <;> cases hput
  | insert => exact h.quiet _ rfl rfl rfl nofun
  | @put stat fileMap hpc hput =>
      have hname := (hinv.put i stat hpc).1
      have hfind := find_of_putStat hname hput
      refine { h.quiet (s.setSession i { s.sessions i with pc := .command }) rfl rfl rfl nofun with
        held := fun key found hkey => ?_ }
      rw [hfind] at hkey
      split at hkey
      case isTrue =>
        have hwalk := (find_of_put hput).1
        rw [keyOf_terminated_of_put hname hput] at hwalk
        exact Option.some.inj hkey ▸ h.put i stat hpc hwalk
      case isFalse => exact h.held key found hkey
  | list => exact h.quiet _ rfl rfl rfl nofun
  | deregister hpc hiterate =>
      obtain ⟨-, hfind⟩ := hinv.filed.of_iterate hiterate
      refine { h.quiet (s.setSession i { s.sessions i with pc := .remove }) rfl rfl rfl nofun with
        held := fun key found hkey => h.held key found ?_ }
      exact (Option.filter_eq_some_iff.1 ((hfind key).symm.trans hkey)).1
  | remove => exact h.quiet _ rfl rfl rfl nofun

theorem receivedInv_initial (bytes : Fin n → Bytes) (addr : Fin n → Fin 4 → UInt8) :
    (Server.initial bytes fun i => inetNtoa (addr i)).ReceivedInv where
  ipasstr i := ⟨addr i, rfl⟩
  put i stat h := by cases h
  held key stat h := by
    rw [show (Server.initial bytes fun i => inetNtoa (addr i)).fileMap.find key = none from
      TrieT.find_zeroed key] at h
    cases h

theorem received_of_run (bytes : Fin n → Bytes) (addr : Fin n → Fin 4 → UInt8) (schedule : List (Fin n))
    (hrun : (server n).run (.initial bytes fun i => inetNtoa (addr i)) schedule = some s) :
    ∀ key stat, s.fileMap.find key = some stat → Received stat :=
  ((server n).invariant (I := fun s => s.ReceivedInv ∧ s.RegistryInv)
    (fun _ _ _ h hstep => ⟨h.1.step h.2 hstep, h.2.step hstep⟩)
    ⟨receivedInv_initial bytes addr, registryInv_initial bytes _⟩ hrun).1.held

end Reachable

end NetworkSystems.FileShare
