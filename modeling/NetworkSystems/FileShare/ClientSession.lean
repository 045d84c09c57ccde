import NetworkSystems.FileShare.Registry

/-!
# A complete client session

What a client writes to the server from its start to its exit, and what is left when the server has
processed it. The client's name crosses the connection as a word of `REGISTER` and `DEREGISTER`, which
ends at white space and is cut at 127 bytes, and as the owner field of the records, which ends at a
colon. When the name comes through both unchanged, nothing is left.
-/

namespace NetworkSystems.FileShare

/-! ### What the client writes -/

/-- A directory entry, with the size that `stat` finds, if it succeeds. -/
structure Dirent where
  name : Bytes
  stat : Option UInt64

def initState (name : Bytes) : Bytes :=
  (ascii ['R', 'E', 'G', 'I', 'S', 'T', 'E', 'R', ' '] ++ name ++ ascii ['\n']).take 1023

def writeStats (name : Bytes) (port : UInt16) (fileName : Bytes) (size : UInt64) : Bytes :=
  ascii ['N', 'E', 'W', 'F', 'I', 'L', 'E', ' '] ++
    writeFileStat ⟨fileName, size, name, [], port⟩

def postFiles (name : Bytes) (port : UInt16) (dir : List Dirent) : Bytes :=
  dir.flatMap fun ent =>
    match ent.stat with
    | some size => writeStats name port ent.name size
    | none => []

def exitClient (name : Bytes) : Bytes :=
  (ascii ['D', 'E', 'R', 'E', 'G', 'I', 'S', 'T', 'E', 'R', ' '] ++ name ++ ascii ['\n']).take 2047

/-- All bytes of a session. -/
def clientSession (name : Bytes) (port : UInt16) (dir : List Dirent) : Bytes :=
  initState name ++ (postFiles name port dir ++ exitClient name)

/-- A name that `main` accepts and that fits in the buffer of `init_state`. -/
def Argument (name : Bytes) : Prop := name ≠ [] ∧ (0 : UInt8) ∉ name ∧ name.length ≤ 1013

instance (name : Bytes) : Decidable (Argument name) := inferInstanceAs (Decidable (_ ∧ _))

/-- What a directory entry can hold, on one line. -/
def EntryName (fileName : Bytes) : Prop :=
  fileName ≠ [] ∧ fileName.length ≤ 255 ∧ ∀ ch ∈ fileName, ch ≠ 0x2f ∧ ch ≠ 0x0a ∧ ch ≠ 0

instance (fileName : Bytes) : Decidable (EntryName fileName) := inferInstanceAs (Decidable (_ ∧ _))

/-- An ordinary file name: what a directory entry can hold, on one line and, after the first byte, in
ASCII. -/
def Ordinary (fileName : Bytes) : Prop :=
  fileName ≠ [] ∧ fileName.length ≤ 255 ∧ (∀ ch ∈ fileName, ch ≠ 0x2f ∧ ch ≠ 0x0a ∧ ch ≠ 0) ∧
    ∀ ch ∈ fileName.tail, ch < 0x80

instance (fileName : Bytes) : Decidable (Ordinary fileName) := inferInstanceAs (Decidable (_ ∧ _))

/-- The server processes what connection `i` sends, alone and to the end, and then none of the posted
files is in the file map and the name is not in the set. -/
def LeavesNothing {n : Nat} (s : Server n) (i : Fin n) (name : Bytes) (dir : List Dirent) : Prop :=
  ∃ t, (server n).Repeats i s t ∧ (t.sessions i).pc = .closed ∧
    (∀ ent ∈ dir, ent.stat ≠ none → t.fileMap.find ent.name = none) ∧ t.clientSet.find name = none

/-! ### Names that survive -/

/-- A name that is one word, one field and a key of the trie: at most 127 bytes, no white space and no
colon, no 0xff, and ASCII after the first byte. -/
def Plain (name : Bytes) : Prop :=
  name ≠ [] ∧ name.length ≤ 127 ∧
    (∀ ch ∈ name, isspace ch = false ∧ ch ≠ 0xff ∧ ch ≠ 0x3a ∧ ch ≠ 0) ∧ ∀ ch ∈ name.tail, ch < 0x80

instance (name : Bytes) : Decidable (Plain name) := inferInstanceAs (Decidable (_ ∧ _))

/-- A name that `read_word` reads back: at most 127 bytes, no white space, no 0xff. -/
def Word (name : Bytes) : Prop :=
  name.length ≤ 127 ∧ ∀ ch ∈ name, isspace ch = false ∧ ch ≠ 0xff ∧ ch ≠ 0

instance (name : Bytes) : Decidable (Word name) := inferInstanceAs (Decidable (_ ∧ _))

theorem Plain.word {name : Bytes} (h : Plain name) : Word name :=
  ⟨h.2.1, fun ch hch => ⟨(h.2.2.1 ch hch).1, (h.2.2.1 ch hch).2.1, (h.2.2.1 ch hch).2.2.2⟩⟩

theorem Word.zero_notMem {name : Bytes} (h : Word name) : (0 : UInt8) ∉ name := fun hmem =>
  (h.2 0 hmem).2.2 rfl

theorem Plain.key {name : Bytes} (h : Plain name) : Key name :=
  ⟨h.1, fun ch hch => ⟨(h.2.2.1 ch (List.mem_of_mem_tail hch)).2.2.2, h.2.2.2 ch hch⟩⟩

theorem Plain.colon_notMem {name : Bytes} (h : Plain name) : (0x3a : UInt8) ∉ name := fun hmem =>
  (h.2.2.1 _ hmem).2.2.1 rfl

theorem Ordinary.entryName {fileName : Bytes} (h : Ordinary fileName) : EntryName fileName :=
  ⟨h.1, h.2.1, h.2.2.1⟩

theorem Ordinary.key {fileName : Bytes} (h : Ordinary fileName) : Key fileName :=
  ⟨h.1, fun ch hch => ⟨(h.2.2.1 ch (List.mem_of_mem_tail hch)).2.2, h.2.2.2 ch hch⟩⟩

theorem readWord_space {word : Bytes} {room : Nat} (hroom : word.length ≤ room)
    (hword : ∀ ch ∈ word, isspace ch = false ∧ ch ≠ 0xff) {space : UInt8} (hspace : isspace space = true)
    (rest : Bytes) : readWord room (word ++ space :: rest) = (word, ⟨rest, false⟩) := by
  induction word generalizing room with
  | nil => cases room <;> rw [List.nil_append, readWord, if_pos (Or.inl hspace)]
  | cons ch word ih =>
      obtain ⟨hgraph, hff⟩ := hword ch (by simp)
      cases room with
      | zero => simp at hroom
      | succ room =>
          rw [List.cons_append, readWord, if_neg (by simp [hgraph, hff])]
          simp only [ih (by simpa using hroom) fun c hc => hword c (List.mem_cons_of_mem _ hc)]

theorem Word.readWord {name : Bytes} (h : Word name) (rest : Bytes) :
    readWord 127 (name ++ 0x0a :: rest) = (name, ⟨rest, false⟩) :=
  readWord_space h.1 (fun ch hch => ⟨(h.2 ch hch).1, (h.2 ch hch).2.1⟩) (by decide) rest

theorem encodable_posted {name fileName : Bytes} (hname : Word name) (hcolon : (0x3a : UInt8) ∉ name)
    (hfile : EntryName fileName) (size : UInt64) (port : UInt16) :
    FileStat.Encodable ⟨fileName, size, name, [], port⟩ where
  fileName := ⟨hfile.2.1.trans (by simp [bufLen]), hfile.2.2⟩
  owner := ⟨hname.1.trans (by simp [bufLen]), fun ch hch =>
    ⟨fun heq => hcolon (heq ▸ hch), (hname.2 ch hch).2.2⟩⟩
  hostName := ⟨by simp, by simp⟩
  line := by
    have hsize : (decimal size.toNat).length ≤ 20 := by
      rw [decimal, ascii, List.length_map]
      exact (Nat.length_toDigits_le_iff (by omega) (by omega)).2
        (size.toNat_lt.trans_le (by decide))
    have hport : (decimal port.toNat).length ≤ 5 := by
      rw [decimal, ascii, List.length_map]
      exact (Nat.length_toDigits_le_iff (by omega) (by omega)).2
        (port.toNat_lt.trans_le (by decide))
    have := hname.1
    have := hfile.2.1
    simp only [FileStat.line, List.length_append, List.length_cons, List.length_nil]
    omega

/-! ### The steps of a session alone -/

section Steps

variable {n : Nat} {s : Server n} {i : Fin n} {c : Session} {name mem : Bytes}

theorem step_command (hc : s.sessions i = c) (hpc : c.pc = .command) :
    ∃ t, (server n).step s i = some t ∧ t.sessions i = c.command ∧ t.fileMap = s.fileMap ∧
      t.clientSet = s.clientSet := by
  refine ⟨s.setSession i c.command, ?_, s.setSession_self i _, rfl, rfl⟩
  change s.step i = _
  rw [Server.step]
  simp only [hc, hpc]

theorem step_contains (hc : s.sessions i = c) (hpc : c.pc = .contains)
    (hword : c.word = name ++ 0 :: mem) (hname : Key name) (hfree : s.clientSet.find name = none) :
    ∃ t, (server n).step s i = some t ∧ t.sessions i = { c with pc := .insert } ∧
      t.fileMap = s.fileMap ∧ t.clientSet = s.clientSet := by
  have hlookup : trieSetContains s.clientSet c.word = some false := by
    rw [trieSetContains, hword, get_of_key _ hname, hfree]
    rfl
  refine ⟨s.setSession i { c with pc := .insert }, ?_, s.setSession_self i _, rfl, rfl⟩
  change s.step i = _
  rw [Server.step]
  simp only [hc, hpc, hlookup]
  rfl

theorem step_insert (hc : s.sessions i = c) (hpc : c.pc = .insert)
    (hword : c.word = name ++ 0 :: mem) (hname : Key name) :
    ∃ t, (server n).step s i = some t ∧ t.sessions i = { c with pc := .command } ∧
      t.fileMap = s.fileMap := by
  obtain ⟨set, hput⟩ := put_of_key s.clientSet hname mem (some ())
  have hstep : (server n).step s i = some
      { s.setSession i { c with pc := .command } with
        clientSet := set
        log := s.log ++ [.registered i (keyOf c.word)] } := by
    change s.step i = _
    rw [Server.step]
    simp only [hc, hpc, hword, trieSetInsert, hput]
    rfl
  exact ⟨_, hstep, s.setSession_self i _, rfl⟩

theorem step_put {stat : FileStat} (hc : s.sessions i = c) (hpc : c.pc = .put stat)
    (hname : Key stat.fileName) :
    ∃ t, (server n).step s i = some t ∧ t.sessions i = { c with pc := .command } ∧
      t.clientSet = s.clientSet ∧ ∀ key, t.fileMap.find key =
        if key = stat.fileName then some stat else s.fileMap.find key := by
  obtain ⟨fileMap, hput⟩ := put_of_key s.fileMap hname [] (some stat)
  have hstep : (server n).step s i = some
      { s.setSession i { c with pc := .command } with fileMap := fileMap } := by
    change s.step i = _
    rw [Server.step]
    simp only [hc, hpc, hput]
    rfl
  refine ⟨_, hstep, s.setSession_self i _, rfl, fun key => ?_⟩
  rw [← keyOf_append hname []]
  exact (find_of_put hput).2 key

theorem step_deregister (hinv : s.RegistryInv) (hc : s.sessions i = c) (hpc : c.pc = .deregister) :
    ∃ t, (server n).step s i = some t ∧ t.sessions i = { c with pc := .remove } ∧
      ∀ key, t.fileMap.find key =
        (s.fileMap.find key).filter fun stat => stat.owner ≠ cString c.word := by
  obtain ⟨fileMap, hiterate, -, -, hfind⟩ := hinv.filed.deregister (cString c.word)
  have hstep : (server n).step s i = some
      { s.setSession i { c with pc := .remove } with fileMap := fileMap } := by
    change s.step i = _
    rw [Server.step]
    simp only [hc, hpc, hiterate]
    rfl
  exact ⟨_, hstep, s.setSession_self i _, hfind⟩

theorem step_remove (hc : s.sessions i = c) (hpc : c.pc = .remove)
    (hword : c.word = name ++ 0 :: mem) (hname : Key name) :
    ∃ t, (server n).step s i = some t ∧ t.sessions i = { c with pc := .closed } ∧
      t.fileMap = s.fileMap ∧ t.clientSet.find name = none := by
  obtain ⟨set, hput⟩ := put_of_key s.clientSet hname mem none
  have hstep : (server n).step s i = some
      { s.setSession i { c with pc := .closed } with
        clientSet := set
        log := s.log ++ [.deregistered i (keyOf c.word)] } := by
    change s.step i = _
    rw [Server.step]
    simp only [hc, hpc, hword, trieSetRemove, hput]
    rfl
  refine ⟨_, hstep, s.setSession_self i _, rfl, ?_⟩
  change set.find name = none
  rw [(find_of_put hput).2, keyOf_append hname, if_pos rfl]

end Steps

/-! ### Reading the client's lines -/

section Lines

variable {c : Session} {name word rest : Bytes}

theorem cString_store (h : (0 : UInt8) ∉ word) (mem : Bytes) : cString (store word mem) = word :=
  cString_append h _

theorem command_of_word {space : UInt8} (hspace : isspace space = true)
    (hfile : c.asfile = ⟨word ++ space :: rest, false⟩) (hword : Word word) :
    c.command = Session.dispatch { c with asfile := ⟨rest, false⟩, word := store word c.word } := by
  rw [Session.command, hfile, if_neg (by simp), Session.readWord, hfile]
  simp only [readWord_space hword.1 (fun ch hch => ⟨(hword.2 ch hch).1, (hword.2 ch hch).2.1⟩) hspace
    rest]

theorem readWord_name (hname : Word name) (hfile : c.asfile = ⟨name ++ 0x0a :: rest, false⟩) :
    c.readWord.asfile = ⟨rest, false⟩ ∧ ∃ mem, c.readWord.word = name ++ 0 :: mem := by
  rw [Session.readWord, hfile, hname.readWord]
  exact ⟨rfl, _, rfl⟩

theorem command_register (hname : Word name) (hfile : c.asfile = ⟨initState name ++ rest, false⟩) :
    c.command.pc = .contains ∧ c.command.asfile = ⟨rest, false⟩ ∧
      ∃ mem, c.command.word = name ++ 0 :: mem := by
  have hshort := hname.1
  have hbytes : initState name ++ rest =
      ascii ['R', 'E', 'G', 'I', 'S', 'T', 'E', 'R'] ++ 0x20 :: (name ++ 0x0a :: rest) := by
    rw [initState, List.take_of_length_le (by simp [ascii]; omega)]
    simp [ascii]
  rw [hbytes] at hfile
  rw [command_of_word (by decide) hfile (by decide +kernel), Session.dispatch,
    if_pos (cString_store (by decide) _)]
  exact ⟨rfl, readWord_name hname rfl⟩

theorem command_deregister (hname : Word name) (hfile : c.asfile = ⟨exitClient name ++ rest, false⟩) :
    c.command.pc = .deregister ∧ c.command.asfile = ⟨rest, false⟩ ∧
      ∃ mem, c.command.word = name ++ 0 :: mem := by
  have hshort := hname.1
  have hbytes : exitClient name ++ rest =
      ascii ['D', 'E', 'R', 'E', 'G', 'I', 'S', 'T', 'E', 'R'] ++ 0x20 :: (name ++ 0x0a :: rest) := by
    rw [exitClient, List.take_of_length_le (by simp [ascii]; omega)]
    simp [ascii]
  rw [hbytes] at hfile
  have hword : cString (store (ascii ['D', 'E', 'R', 'E', 'G', 'I', 'S', 'T', 'E', 'R']) c.word) =
      ascii ['D', 'E', 'R', 'E', 'G', 'I', 'S', 'T', 'E', 'R'] := cString_store (by decide) _
  rw [command_of_word (by decide) hfile (by decide +kernel), Session.dispatch]
  simp only [hword]
  rw [if_neg (by decide), if_neg (by decide), if_neg (by decide), if_pos trivial]
  exact ⟨rfl, readWord_name hname rfl⟩

theorem command_list (hfile : c.asfile = ⟨ascii ['L', 'I', 'S', 'T', '\n'] ++ rest, false⟩) :
    c.command.pc = .list ∧ c.command.asfile = ⟨rest, false⟩ := by
  have hbytes : ascii ['L', 'I', 'S', 'T', '\n'] ++ rest = ascii ['L', 'I', 'S', 'T'] ++ 0x0a :: rest := by
    simp [ascii]
  rw [hbytes] at hfile
  have hword : cString (store (ascii ['L', 'I', 'S', 'T']) c.word) = ascii ['L', 'I', 'S', 'T'] :=
    cString_store (by decide) _
  rw [command_of_word (by decide) hfile (by decide +kernel), Session.dispatch]
  simp only [hword]
  rw [if_neg (by decide), if_neg (by decide), if_pos trivial]
  exact ⟨rfl, rfl⟩

theorem command_end (hfile : c.asfile = ⟨[], false⟩) :
    c.command.pc = c.pc ∧ c.command.asfile = ⟨[], true⟩ := by
  have hread : FileShare.readWord 127 [] = ([], ⟨[], true⟩) := rfl
  have hword : cString (store [] c.word) = [] := cString_store (by decide) _
  rw [Session.command, hfile, if_neg (by simp), Session.readWord, hfile, hread, Session.dispatch]
  simp only [hword]
  rw [if_neg (by decide), if_neg (by decide), if_neg (by decide), if_neg (by decide)]
  exact ⟨rfl, rfl⟩

/-- A posted record is read back and is put, unless it is one of the two directory entries. -/
theorem command_newfile {fileName : Bytes} {port : UInt16} {size : UInt64}
    (hrecord : FileStat.Encodable ⟨fileName, size, name, [], port⟩)
    (hbytes : c.asfile = ⟨writeStats name port fileName size ++ rest, false⟩) (hpc : c.pc = .command) :
    c.command.asfile = ⟨rest, false⟩ ∧
      c.command.pc = if fileName ≠ ascii ['.'] ∧ fileName ≠ ascii ['.', '.'] then
        .put ⟨fileName, size, name, c.ipasstr, port⟩ else .command := by
  have hline : writeStats name port fileName size ++ rest =
      ascii ['N', 'E', 'W', 'F', 'I', 'L', 'E'] ++
        0x20 :: (writeFileStat ⟨fileName, size, name, [], port⟩ ++ rest) := by
    rw [writeStats]
    simp [ascii]
  rw [hline] at hbytes
  have hread := hrecord.read_write rest false
  have hword : cString (store (ascii ['N', 'E', 'W', 'F', 'I', 'L', 'E']) c.word) =
      ascii ['N', 'E', 'W', 'F', 'I', 'L', 'E'] := cString_store (by decide) _
  rw [command_of_word (by decide) hbytes (by decide +kernel), Session.dispatch]
  simp only [hword, hread]
  rw [if_neg (by decide), if_pos trivial]
  by_cases hdots : fileName ≠ ascii ['.'] ∧ fileName ≠ ascii ['.', '.']
  · rw [if_pos hdots, if_pos hdots]
    exact ⟨rfl, rfl⟩
  · rw [if_neg hdots, if_neg hdots]
    exact ⟨rfl, hpc⟩

end Lines

/-! ### The parts of a session -/

section Session

variable {n : Nat} {s : Server n} {i : Fin n} {name stream : Bytes}

/-- Connection `i` is about to read a command from the given stream. -/
def Server.Awaits (s : Server n) (i : Fin n) (stream : Bytes) : Prop :=
  (s.sessions i).pc = .command ∧ (s.sessions i).asfile = ⟨stream, false⟩

theorem awaits_postFiles_cons {port : UInt16} {ent : Dirent} {dir : List Dirent} :
    s.Awaits i (postFiles name port (ent :: dir) ++ stream) ↔
      s.Awaits i ((match ent.stat with
        | some size => writeStats name port ent.name size
        | none => []) ++ (postFiles name port dir ++ stream)) := by
  rw [postFiles, List.flatMap_cons, List.append_assoc]
  rfl

theorem repeats_initState (hname : Word name) (hkey : Key name)
    (hawaits : s.Awaits i (initState name ++ stream)) (hfree : s.clientSet.find name = none) :
    ∃ t, (server n).Repeats i s t ∧ t.Awaits i stream := by
  obtain ⟨hpc, hfile, mem, hword⟩ := command_register hname hawaits.2
  obtain ⟨s₁, hstep₁, hc₁, -, hset₁⟩ := step_command rfl hawaits.1
  obtain ⟨s₂, hstep₂, hc₂, -, -⟩ := step_contains hc₁ hpc hword hkey (hset₁ ▸ hfree)
  obtain ⟨s₃, hstep₃, hc₃, -⟩ := step_insert hc₂ rfl hword hkey
  refine ⟨s₃, .head hstep₁ (.head hstep₂ (.head hstep₃ .refl)), ?_, ?_⟩
  · rw [hc₃]
  · rw [hc₃]
    exact hfile

theorem repeats_writeStats {fileName : Bytes} {port : UInt16} {size : UInt64}
    (hrecord : FileStat.Encodable ⟨fileName, size, name, [], port⟩) (hkey : Key fileName)
    (hawaits : s.Awaits i (writeStats name port fileName size ++ stream)) :
    ∃ t, (server n).Repeats i s t ∧ t.Awaits i stream ∧
      ∀ key, t.fileMap.find key =
        if key = fileName ∧ fileName ≠ ascii ['.'] ∧ fileName ≠ ascii ['.', '.'] then
          some ⟨fileName, size, name, (s.sessions i).ipasstr, port⟩
        else s.fileMap.find key := by
  obtain ⟨hread, hpc⟩ := command_newfile hrecord hawaits.2 hawaits.1
  obtain ⟨s₁, hstep₁, hc₁, hmap₁, -⟩ := step_command rfl hawaits.1
  by_cases hdots : fileName ≠ ascii ['.'] ∧ fileName ≠ ascii ['.', '.']
  · rw [if_pos hdots] at hpc
    obtain ⟨s₂, hstep₂, hc₂, -, hfind₂⟩ := step_put hc₁ hpc hkey
    refine ⟨s₂, .head hstep₁ (.head hstep₂ .refl), ⟨by rw [hc₂], by rw [hc₂]; exact hread⟩, fun key => ?_⟩
    rw [hfind₂, hmap₁]
    by_cases hkey : key = fileName
    · rw [if_pos hkey, if_pos ⟨hkey, hdots⟩]
    · rw [if_neg hkey, if_neg fun h => hkey h.1]
  · rw [if_neg hdots] at hpc
    refine ⟨s₁, .head hstep₁ .refl, ⟨hc₁ ▸ hpc, hc₁ ▸ hread⟩, fun key => ?_⟩
    rw [if_neg fun h => hdots h.2, hmap₁]

/-- The files of a directory: afterwards each that was posted is bound to a record of the owner, or is one
of the two directory entries. Records of the owner stay records of the owner. -/
theorem repeats_postFiles {port : UInt16} {dir : List Dirent}
    (hrecord : ∀ ent ∈ dir, ∀ size, ent.stat = some size →
      FileStat.Encodable ⟨ent.name, size, name, [], port⟩ ∧ Key ent.name)
    (hawaits : s.Awaits i (postFiles name port dir ++ stream)) :
    ∃ t, (server n).Repeats i s t ∧ t.Awaits i stream ∧
      (∀ key stat, s.fileMap.find key = some stat → stat.owner = name →
        ∃ stat', t.fileMap.find key = some stat' ∧ stat'.owner = name) ∧
      ∀ ent ∈ dir, ent.stat ≠ none → ent.name ≠ ascii ['.'] ∧ ent.name ≠ ascii ['.', '.'] →
        ∃ stat, t.fileMap.find ent.name = some stat ∧ stat.owner = name := by
  induction dir generalizing s with
  | nil => exact ⟨s, .refl, hawaits, fun key stat hkey howner => ⟨stat, hkey, howner⟩, by simp⟩
  | cons ent dir ih =>
      obtain ⟨hent, hrest⟩ := List.forall_mem_cons.1 hrecord
      rw [awaits_postFiles_cons] at hawaits
      cases hstat : ent.stat with
      | none =>
          simp only [hstat, List.nil_append] at hawaits
          obtain ⟨t, hrun, ht, hkept, hposted⟩ := ih hrest hawaits
          refine ⟨t, hrun, ht, hkept, fun e he hsome hdots => ?_⟩
          rcases List.mem_cons.1 he with rfl | he
          · exact absurd hstat hsome
          · exact hposted e he hsome hdots
      | some size =>
          simp only [hstat] at hawaits
          obtain ⟨mid, hrun, hmid, hfind⟩ := repeats_writeStats (hent size hstat).1 (hent size hstat).2 hawaits
          obtain ⟨t, hrun', ht, hkept, hposted⟩ := ih hrest hmid
          refine ⟨t, hrun.trans hrun', ht, fun key stat hkey howner => ?_, fun e he hsome hdots => ?_⟩
          · by_cases hput : key = ent.name ∧ ent.name ≠ ascii ['.'] ∧ ent.name ≠ ascii ['.', '.']
            · exact hkept key _ ((hfind key).trans (if_pos hput)) rfl
            · exact hkept key stat ((hfind key).trans ((if_neg hput).trans hkey)) howner
          · rcases List.mem_cons.1 he with rfl | he
            · exact hkept e.name _ ((hfind e.name).trans (if_pos ⟨rfl, hdots⟩)) rfl
            · exact hposted e he hsome hdots

theorem repeats_exitClient (hinv : s.RegistryInv) (hname : Word name) (hkey : Key name)
    (hawaits : s.Awaits i (exitClient name)) :
    ∃ t, (server n).Repeats i s t ∧ (t.sessions i).pc = .closed ∧ t.clientSet.find name = none ∧
      ∀ key, t.fileMap.find key = (s.fileMap.find key).filter fun stat => stat.owner ≠ name := by
  have hfile : (s.sessions i).asfile = ⟨exitClient name ++ [], false⟩ := by
    rw [List.append_nil]
    exact hawaits.2
  obtain ⟨hpc, -, mem, hword⟩ := command_deregister hname hfile
  obtain ⟨s₁, hstep₁, hc₁, hmap₁, -⟩ := step_command rfl hawaits.1
  have hinv₁ : s₁.RegistryInv := hinv.step hstep₁
  obtain ⟨s₂, hstep₂, hc₂, hfind₂⟩ := step_deregister hinv₁ hc₁ hpc
  obtain ⟨s₃, hstep₃, hc₃, hmap₃, hset₃⟩ := step_remove hc₂ rfl hword hkey
  refine ⟨s₃, .head hstep₁ (.head hstep₂ (.head hstep₃ .refl)), by rw [hc₃], hset₃, fun key => ?_⟩
  rw [hmap₃, hfind₂, hmap₁, hword, cString_append hname.zero_notMem]

/-! ### What a session to the end says of its names -/

theorem step_closed (h : (s.sessions i).pc = .closed) : (server n).step s i = none := by
  change s.step i = none
  rw [Server.step]
  simp only [h]

theorem next_of_closed {t : Server n} (hrun : (server n).Repeats i s t)
    (hclosed : (t.sessions i).pc = .closed) (hpc : (s.sessions i).pc ≠ .closed) :
    ∃ next, s.step i = some next ∧ (server n).Repeats i next t :=
  hrun.next fun heq => hpc (heq ▸ hclosed)

/-- The trie has walked the name when it has put it in the set, and the connection goes on only when the
name was free. -/
theorem registered_of_closed {t : Server n} (hname : Word name) (hne : name ≠ [])
    (hawaits : s.Awaits i (initState name ++ stream)) (hrun : (server n).Repeats i s t)
    (hclosed : (t.sessions i).pc = .closed) (hgone : t.clientSet.find name = none) :
    s.clientSet.find name = none ∧ Key name ∧ ∃ mid, (server n).Repeats i mid t ∧ mid.Awaits i stream := by
  have hnul : (0 : UInt8) ∉ name.tail := fun hmem => hname.zero_notMem (List.mem_of_mem_tail hmem)
  obtain ⟨hpc, hfile, mem, hword⟩ := command_register hname hawaits.2
  obtain ⟨s₁, hstep₁, hc₁, -, hset₁⟩ := step_command rfl hawaits.1
  obtain ⟨_, hstep, hrun₁⟩ := next_of_closed hrun hclosed (by rw [hawaits.1]; nofun)
  obtain rfl := Option.some.inj (hstep₁.symm.trans hstep)
  obtain ⟨s₂, hstep₂, hrun₂⟩ := next_of_closed hrun₁ hclosed (by rw [hc₁, hpc]; nofun)
  rw [Server.step] at hstep₂
  simp only [hc₁, hpc] at hstep₂
  obtain ⟨found, hfound, rfl⟩ := Option.map_eq_some_iff.1 hstep₂
  obtain ⟨v, hget, rfl⟩ := Option.map_eq_some_iff.1 hfound
  have hfind := find_of_get hget
  rw [hword, keyOf_of_notMem hne hnul, hset₁] at hfind
  cases v with
  | some u =>
      have heq : _ = t := Machine.Repeats.unique .refl hrun₂ (step_closed (by rw [Server.setSession_self]; rfl))
        (step_closed hclosed)
      rw [← heq] at hgone
      cases hgone.symm.trans ((congrArg (TrieT.find · name) hset₁).trans hfind)
  | none =>
      obtain ⟨s₃, hstep₃, hrun₃⟩ := next_of_closed hrun₂ hclosed (by rw [Server.setSession_self]; simp)
      rw [Server.step] at hstep₃
      simp only [Server.setSession_self, Option.isSome_none, Bool.false_eq_true, if_false] at hstep₃
      obtain ⟨set, hput, rfl⟩ := Option.map_eq_some_iff.1 hstep₃
      have hkey := (find_of_put hput).1
      rw [hword, keyOf_of_notMem hne hnul] at hkey
      refine ⟨hfind, hkey, _, hrun₃, ?_, ?_⟩
      · dsimp only
        rw [Server.setSession_self]
      · dsimp only
        rw [Server.setSession_self]
        exact hfile

theorem posted_of_closed {t : Server n} {port : UInt16} {dir : List Dirent}
    (hrecord : ∀ ent ∈ dir, ∀ size, ent.stat = some size →
      FileStat.Encodable ⟨ent.name, size, name, [], port⟩)
    (hne : ∀ ent ∈ dir, ent.name ≠ [])
    (hawaits : s.Awaits i (postFiles name port dir ++ stream)) (hrun : (server n).Repeats i s t)
    (hclosed : (t.sessions i).pc = .closed) : ∀ ent ∈ dir, ent.stat ≠ none → Key ent.name := by
  induction dir generalizing s with
  | nil => nofun
  | cons ent dir ih =>
      obtain ⟨hent, hrest⟩ := List.forall_mem_cons.1 hrecord
      obtain ⟨hne, hnes⟩ := List.forall_mem_cons.1 hne
      rw [awaits_postFiles_cons] at hawaits
      rw [List.forall_mem_cons]
      cases hstat : ent.stat with
      | none =>
          simp only [hstat, List.nil_append] at hawaits
          exact ⟨fun hsome => absurd rfl hsome, ih hrest hnes hawaits hrun⟩
      | some size =>
          simp only [hstat] at hawaits
          have hencodable := hent size hstat
          obtain ⟨hread, hpc⟩ := command_newfile hencodable hawaits.2 hawaits.1
          obtain ⟨s₁, hstep₁, hc₁, -, -⟩ := step_command rfl hawaits.1
          obtain ⟨_, hstep, hrun₁⟩ := next_of_closed hrun hclosed (by rw [hawaits.1]; nofun)
          obtain rfl := Option.some.inj (hstep₁.symm.trans hstep)
          by_cases hdots : ent.name ≠ ascii ['.'] ∧ ent.name ≠ ascii ['.', '.']
          · rw [if_pos hdots] at hpc
            obtain ⟨s₂, hstep₂, hrun₂⟩ := next_of_closed hrun₁ hclosed (by rw [hc₁, hpc]; nofun)
            rw [Server.step] at hstep₂
            simp only [hc₁, hpc] at hstep₂
            obtain ⟨fileMap, hput, rfl⟩ := Option.map_eq_some_iff.1 hstep₂
            have hkey := (find_of_put hput).1
            rw [keyOf_of_notMem hne fun hmem =>
              (hencodable.fileName.2 0 (List.mem_of_mem_tail hmem)).2.2 rfl] at hkey
            refine ⟨fun _ => hkey, ih hrest hnes ⟨?_, ?_⟩ hrun₂⟩
            · dsimp only
              rw [Server.setSession_self]
            · dsimp only
              rw [Server.setSession_self]
              exact hread
          · rw [if_neg hdots] at hpc
            refine ⟨fun _ => ?_, ih hrest hnes ⟨hc₁ ▸ hpc, hc₁ ▸ hread⟩ hrun₁⟩
            rw [not_and_or, not_not, not_not] at hdots
            rcases hdots with heq | heq
            · rw [heq]
              decide +kernel
            · rw [heq]
              decide +kernel

end Session

/-- The name comes through: it is free, a word, and a key of the set, and where an entry is posted it is a
field as well, and the name of the entry a key of the map. -/
structure Survives {n : Nat} (s : Server n) (name : Bytes) (dir : List Dirent) : Prop where
  free : s.clientSet.find name = none
  word : Word name
  key : Key name
  field : ∀ ent ∈ dir, ent.stat ≠ none → (0x3a : UInt8) ∉ name
  file : ∀ ent ∈ dir, ent.stat ≠ none → Key ent.name

section Whole

variable {n : Nat} {s : Server n} {i : Fin n} {name ipasstr : Bytes} {port : UInt16} {dir : List Dirent}

theorem awaits_clientSession (hsession : s.sessions i = .start (clientSession name port dir) ipasstr) :
    s.Awaits i (initState name ++ (postFiles name port dir ++ exitClient name)) := by
  rw [Server.Awaits, hsession]
  exact ⟨rfl, rfl⟩

theorem encodable_of_field (hname : Word name) (hfield : ∀ ent ∈ dir, ent.stat ≠ none → (0x3a : UInt8) ∉ name)
    (hdir : ∀ ent ∈ dir, EntryName ent.name) :
    ∀ ent ∈ dir, ∀ size, ent.stat = some size → FileStat.Encodable ⟨ent.name, size, name, [], port⟩ :=
  fun ent hent size hstat =>
    encodable_posted hname (hfield ent hent (hstat ▸ Option.some_ne_none _)) (hdir ent hent) size port

theorem Survives.leavesNothing (h : Survives s name dir) (hreach : s.Reachable)
    (hsession : s.sessions i = .start (clientSession name port dir) ipasstr)
    (hdir : ∀ ent ∈ dir, EntryName ent.name) : LeavesNothing s i name dir := by
  obtain ⟨s₁, hrun₁, hawaits₁⟩ := repeats_initState h.word h.key (awaits_clientSession hsession) h.free
  obtain ⟨s₂, hrun₂, hawaits₂, -, hposted⟩ := repeats_postFiles (fun ent hent size hstat =>
    ⟨encodable_of_field h.word h.field hdir ent hent size hstat,
      h.file ent hent (hstat ▸ Option.some_ne_none _)⟩) hawaits₁
  have hinv : s₂.RegistryInv := (hrun₁.trans hrun₂).invariant
    (fun _ _ _ hinv hstep => hinv.step hstep) hreach.registryInv
  obtain ⟨t, hrun₃, hclosed, hset, hfind⟩ := repeats_exitClient hinv h.word h.key hawaits₂
  refine ⟨t, (hrun₁.trans hrun₂).trans hrun₃, hclosed, fun ent hent hstat => ?_, hset⟩
  rw [hfind]
  by_cases hdots : ent.name ≠ ascii ['.'] ∧ ent.name ≠ ascii ['.', '.']
  · obtain ⟨stat, hstat, howner⟩ := hposted ent hent hstat hdots
    rw [hstat, Option.filter_some_neg (by simpa using howner)]
  · rw [not_and_or, not_not, not_not] at hdots
    rcases hdots with heq | heq
    · rw [heq, hinv.filed.dots.1]
      rfl
    · rw [heq, hinv.filed.dots.2]
      rfl

theorem survives_of_leavesNothing (hsession : s.sessions i = .start (clientSession name port dir) ipasstr)
    (hdir : ∀ ent ∈ dir, EntryName ent.name) (hne : name ≠ []) (hname : Word name)
    (hfield : ∀ ent ∈ dir, ent.stat ≠ none → (0x3a : UInt8) ∉ name) (h : LeavesNothing s i name dir) :
    Survives s name dir := by
  obtain ⟨t, hrun, hclosed, -, hgone⟩ := h
  obtain ⟨hfree, hkey, mid, hrun, hawaits⟩ :=
    registered_of_closed hname hne (awaits_clientSession hsession) hrun hclosed hgone
  exact ⟨hfree, hname, hkey, hfield, posted_of_closed (encodable_of_field hname hfield hdir)
    (fun ent hent => (hdir ent hent).1) hawaits hrun hclosed⟩

end Whole

/-- **When a complete session leaves nothing behind**: if the name comes through, and only then among the
names that are read back as words and have no colon where an entry is posted. -/
theorem leavesNothing_iff_survives {n : Nat} (s : Server n) (i : Fin n) (name ipasstr : Bytes)
    (port : UInt16) (dir : List Dirent) (hreach : s.Reachable)
    (hsession : s.sessions i = .start (clientSession name port dir) ipasstr)
    (hdir : ∀ ent ∈ dir, EntryName ent.name) (hname : Argument name) :
    (Survives s name dir → LeavesNothing s i name dir) ∧
      (Word name → (∀ ent ∈ dir, ent.stat ≠ none → (0x3a : UInt8) ∉ name) →
        (LeavesNothing s i name dir ↔ Survives s name dir)) :=
  ⟨fun h => h.leavesNothing hreach hsession hdir, fun hword hfield =>
    ⟨survives_of_leavesNothing hsession hdir hname.1 hword hfield,
      fun h => h.leavesNothing hreach hsession hdir⟩⟩

/-- A server to which one client connects for a session, with one file of five bytes in its directory. -/
def oneSession (name : Bytes) : Server 1 :=
  .initial (fun _ => clientSession name 80 [⟨ascii ['x'], some 5⟩]) fun _ => []

/-- The name `ab` with a file, and the name `a:b` with an entry that `stat` does not find. -/
theorem leavesNothing_iff_survives_ab :
    LeavesNothing (oneSession (ascii ['a', 'b'])) 0 (ascii ['a', 'b']) [⟨ascii ['x'], some 5⟩] ∧
      LeavesNothing (.initial (fun _ : Fin 1 => clientSession (ascii ['a', ':', 'b']) 80 [⟨[0x78, 0xe9], none⟩])
        fun _ => []) 0 (ascii ['a', ':', 'b']) [⟨[0x78, 0xe9], none⟩] :=
  ⟨(leavesNothing_iff_survives (oneSession (ascii ['a', 'b'])) 0 (ascii ['a', 'b']) [] 80
      [⟨ascii ['x'], some 5⟩] ⟨_, _, [], rfl⟩ rfl (by decide +kernel) (by decide +kernel)).1
      ⟨rfl, by decide +kernel, by decide +kernel, by decide +kernel, by decide +kernel⟩,
    (leavesNothing_iff_survives _ 0 (ascii ['a', ':', 'b']) [] 80 [⟨[0x78, 0xe9], none⟩] ⟨_, _, [], rfl⟩ rfl
      (by decide +kernel) (by decide +kernel)).1
      ⟨rfl, by decide +kernel, by decide +kernel, by decide +kernel, by decide +kernel⟩⟩

/-- The name `a b` is registered and deregistered as `a`, while the record of its file has the owner
`a b` and stays. -/
theorem not_leavesNothing : ¬ ∀ (n : Nat) (s : Server n) (i : Fin n) (name ipasstr : Bytes)
    (port : UInt16) (dir : List Dirent), s.Reachable →
      s.sessions i = .start (clientSession name port dir) ipasstr →
      (∀ ent ∈ dir, Ordinary ent.name) → Argument name →
      (∀ key stat, s.fileMap.find key = some stat → stat.owner ≠ name) →
      s.clientSet.find name = none → LeavesNothing s i name dir := by
  intro hclaim
  obtain ⟨t, hrun, hclosed, hgone, -⟩ := hclaim 1 (oneSession (ascii ['a', ' ', 'b'])) 0
    (ascii ['a', ' ', 'b']) [] 80 [⟨ascii ['x'], some 5⟩] ⟨_, _, [], rfl⟩ rfl (by decide +kernel) (by decide +kernel)
    (fun key stat hkey => absurd (TrieT.find_zeroed key) (by
      rw [show (TrieT.zeroed : TrieT FileStat).find key = some stat from hkey]; simp)) rfl
  obtain ⟨u, hu⟩ : ∃ u, (server 1).run (oneSession (ascii ['a', ' ', 'b'])) (List.replicate 9 0) = some u :=
    ⟨_, rfl⟩
  have hend : ((server 1).run (oneSession (ascii ['a', ' ', 'b'])) (List.replicate 9 0)).map
      (fun u => ((u.sessions 0).pc, u.fileMap.find (ascii ['x']))) =
        some (.closed, some ⟨ascii ['x'], 5, ascii ['a', ' ', 'b'], [], 80⟩) := by decide
  rw [hu, Option.map_some, Option.some.injEq, Prod.mk.injEq] at hend
  have htu : t = u := hrun.unique ⟨9, hu⟩ (step_closed hclosed) (step_closed hend.1)
  have hfound := hgone ⟨ascii ['x'], some 5⟩ (by simp) (by simp)
  rw [htu, hend.2] at hfound
  cases hfound

end NetworkSystems.FileShare
