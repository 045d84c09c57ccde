import NetworkSystems.FileShare.Departure
import NetworkSystems.FileShare.Listing
import NetworkSystems.FileShare.Transfer

/-!
# The client program

`run_client` calls one state function after the other. What the client writes to the server is decided by
its name, its directory and the lines that are typed, whatever comes back, so it is the script of a
participant. The client returns exactly when it has been told to exit; at the end of its input it prompts
for ever.
-/

namespace NetworkSystems.FileShare

/-! ### What is typed -/

/-- What `wait_for_input` takes a line for. -/
inductive Input
  | ls
  | get
  | exit
  | unknown
  deriving DecidableEq

def input (line : Bytes) : Input :=
  if cString line = ascii ['l', 's', '\n'] then .ls
  else if (cString line).take 4 = ascii ['g', 'e', 't', ' '] then .get
  else if cString line = ascii ['e', 'x', 'i', 't', '\n'] then .exit
  else .unknown

/-- The file name that is asked for, without the newline. -/
def filenameOf (line : Bytes) : Bytes :=
  let filename := (cString line).drop 4
  if filename.getLast? = some 0x0a then filename.dropLast else filename

/-- The commands that typed lines make the client send. -/
def typed : List Bytes → List Command
  | [] => []
  | line :: stdin =>
      match input line with
      | .ls => .list :: typed stdin
      | .exit => [.deregister]
      | _ => typed stdin

def posts (dir : List Dirent) : List Command :=
  dir.filterMap fun ent => ent.stat.map (.newfile ent.name)

/-- What each `write` for a command writes. -/
def Participant.writes (p : Participant) : Command → List Bytes
  | .register => [initState p.name]
  | .newfile fileName size =>
      [ascii ['N', 'E', 'W', 'F', 'I', 'L', 'E', ' '],
        writeFileStat ⟨fileName, size, p.name, [], p.port⟩]
  | .list => [ascii ['L', 'I', 'S', 'T', '\n']]
  | .deregister => [exitClient p.name]

theorem Participant.flatten_writes (p : Participant) (command : Command) :
    (p.writes command).flatten = p.command command := by
  cases command <;> simp [writes, Participant.command, writeStats]

theorem Participant.flatten_flatMap_writes (p : Participant) (commands : List Command) :
    (commands.flatMap p.writes).flatten = p.stream commands := by
  rw [stream, List.flatten_eq_flatMap, List.flatMap_assoc]
  simp only [← List.flatten_eq_flatMap, p.flatten_writes]

/-! ### The state functions -/

def File.arrive (fd : File) (more : Bytes) : File := { fd with bytes := fd.bytes ++ more }

@[simp] theorem File.arrive_bytes (fd : File) (more : Bytes) : (fd.arrive more).bytes = fd.bytes ++ more := rfl

@[simp] theorem File.arrive_eof (fd : File) (more : Bytes) : (fd.arrive more).eof = fd.eof := rfl

/-- The state functions. `reading` is `list_files` after it has asked for the list. -/
inductive ClientState
  | initState
  | postFiles
  | waitForInput
  | listFiles
  | reading
  | exitClient
  deriving DecidableEq

/-- A client: the state function that is called next, if there is one, the fields of `client_t`, what the
directory has, the lines that are still to be read, what each `write` has written to the server, and the
contents of the files. -/
structure ClientT where
  state : Option ClientState
  name : Bytes
  port : UInt16
  dir : List Dirent
  stdin : List Bytes
  fd : List Bytes
  asFile : File
  files : TrieT FileStat
  disk : Bytes → Option Bytes

/-- Who accepts a connection: the client's own listener, or that of a peer with the given files. -/
inductive Listener
  | own
  | peer (files : Bytes → Option Bytes)

def Listener.files (disk : Bytes → Option Bytes) : Listener → Bytes → Option Bytes
  | own => disk
  | peer files => files

/-- What is behind the line in its buffer, whether `fopen` succeeds, how the bytes of a transfer arrive in
both directions, and what is in the four bytes of `len`. -/
structure Chance where
  mem : Bytes
  opens : Bool
  toPeer : Nat → Nat
  fromPeer : Nat → Nat
  stale : Bytes
  stale_length : stale.length = 4

/-- The transfer of `wait_for_input`, and what the files are after it. `fopen` empties the file before the
peer is asked for it. -/
def getFile (disk : Bytes → Option Bytes) (connect : Bytes → UInt16 → Option Listener) (chance : Chance)
    (filename : Bytes) (fs : FileStat) : Option (Bytes → Option Bytes) :=
  match connect fs.hostName fs.port with
  | none => some disk
  | some listener =>
      if chance.opens then
        let opened := Function.update disk filename (some [])
        (get (listener.files opened) filename chance.toPeer chance.fromPeer chance.stale).map fun result =>
          Function.update opened filename (some result.1)
      else some disk

namespace ClientT

def getCommand (c : ClientT) (connect : Bytes → UInt16 → Option Listener) (chance : Chance) (line : Bytes) :
    Option (Bytes → Option Bytes) :=
  (trieGet c.files (filenameOf line ++ 0 :: chance.mem)).bind fun fs =>
    match fs with
    | some fs => getFile c.disk connect chance (filenameOf line) fs
    | none => some c.disk

/-- `wait_for_input`. At the end of the input `getline` fails. -/
def waitForInput (c : ClientT) (connect : Bytes → UInt16 → Option Listener) (chance : Chance) :
    Option ClientT :=
  match c.stdin with
  | [] => some c
  | line :: stdin =>
      match input line with
      | .ls => some { c with stdin := stdin, state := some .listFiles }
      | .get => (c.getCommand connect chance line).map fun disk => { c with stdin := stdin, disk := disk }
      | .exit => some { c with stdin := stdin, state := some .exitClient }
      | .unknown => some { c with stdin := stdin }

/-- The calls of `write` in `post_files`. -/
def postWrites (c : ClientT) : List Bytes :=
  c.dir.flatMap fun ent =>
    match ent.stat with
    | some size =>
        [ascii ['N', 'E', 'W', 'F', 'I', 'L', 'E', ' '],
          writeFileStat ⟨ent.name, size, c.name, [], c.port⟩]
    | none => []

/-- One call of a state function, with the server's end of the connection closed or not. A read that would
need bytes that are not there waits, unless there will be none, and then there is no step. -/
def call (c : ClientT) (hup : Bool) (connect : Bytes → UInt16 → Option Listener) (chance : Chance) :
    Option ClientT :=
  match c.state with
  | none => none
  | some .initState =>
      some { c with fd := c.fd ++ [initState c.name], files := .zeroed, state := some .postFiles }
  | some .postFiles => some { c with fd := c.fd ++ c.postWrites, state := some .waitForInput }
  | some .waitForInput => c.waitForInput connect chance
  | some .listFiles =>
      some { c with fd := c.fd ++ [ascii ['L', 'I', 'S', 'T', '\n']], state := some .reading }
  | some .reading =>
      (listFiles c.files c.asFile).bind fun result =>
        if result.2.2.eof ∧ hup = false then none
        else some { c with files := result.1, asFile := result.2.2, state := some .waitForInput }
  | some .exitClient => some { c with fd := c.fd ++ [exitClient c.name], state := none }

def arrive (c : ClientT) (bytes : Bytes) : ClientT := { c with asFile := c.asFile.arrive bytes }

inductive Moves (c : ClientT) (hup : Bool) (connect : Bytes → UInt16 → Option Listener) (chance : Chance) :
    ClientT → Prop
  | initState (hstate : c.state = some .initState) : Moves c hup connect chance
      { c with fd := c.fd ++ [initState c.name], files := .zeroed, state := some .postFiles }
  | postFiles (hstate : c.state = some .postFiles) : Moves c hup connect chance
      { c with fd := c.fd ++ c.postWrites, state := some .waitForInput }
  | prompt (hstate : c.state = some .waitForInput) (hstdin : c.stdin = []) : Moves c hup connect chance c
  | ls {line : Bytes} {stdin : List Bytes} (hstate : c.state = some .waitForInput)
      (hstdin : c.stdin = line :: stdin) (hline : input line = .ls) :
      Moves c hup connect chance { c with stdin := stdin, state := some .listFiles }
  | get {line : Bytes} {stdin : List Bytes} {disk : Bytes → Option Bytes}
      (hstate : c.state = some .waitForInput) (hstdin : c.stdin = line :: stdin) (hline : input line = .get)
      (hdisk : c.getCommand connect chance line = some disk) :
      Moves c hup connect chance { c with stdin := stdin, disk := disk }
  | exit {line : Bytes} {stdin : List Bytes} (hstate : c.state = some .waitForInput)
      (hstdin : c.stdin = line :: stdin) (hline : input line = .exit) :
      Moves c hup connect chance { c with stdin := stdin, state := some .exitClient }
  | unknown {line : Bytes} {stdin : List Bytes} (hstate : c.state = some .waitForInput)
      (hstdin : c.stdin = line :: stdin) (hline : input line = .unknown) :
      Moves c hup connect chance { c with stdin := stdin }
  | listFiles (hstate : c.state = some .listFiles) : Moves c hup connect chance
      { c with fd := c.fd ++ [ascii ['L', 'I', 'S', 'T', '\n']], state := some .reading }
  | reading {files : TrieT FileStat} {rows : List FileStat} {asFile : File}
      (hstate : c.state = some .reading) (hread : listFiles c.files c.asFile = some (files, rows, asFile))
      (hend : asFile.eof = true → hup = true) :
      Moves c hup connect chance
        { c with files := files, asFile := asFile, state := some .waitForInput }
  | exitClient (hstate : c.state = some .exitClient) : Moves c hup connect chance
      { c with fd := c.fd ++ [exitClient c.name], state := none }

section Call

variable {c next : ClientT} {hup : Bool} {connect : Bytes → UInt16 → Option Listener} {chance : Chance}

theorem moves_of_call (hcall : c.call hup connect chance = some next) : c.Moves hup connect chance next := by
  rw [call] at hcall
  cases hstate : c.state with
  | none =>
      simp only [hstate] at hcall
      cases hcall
  | some state =>
      cases state with
      | initState =>
          simp only [hstate, Option.some.injEq] at hcall
          exact hcall ▸ .initState hstate
      | postFiles =>
          simp only [hstate, Option.some.injEq] at hcall
          exact hcall ▸ .postFiles hstate
      | waitForInput =>
          simp only [hstate] at hcall
          rw [waitForInput] at hcall
          cases hstdin : c.stdin with
          | nil =>
              simp only [hstdin, Option.some.injEq] at hcall
              exact hcall ▸ .prompt hstate hstdin
          | cons line stdin =>
              cases hline : input line with
              | ls =>
                  simp only [hstdin, hline, Option.some.injEq] at hcall
                  exact hcall ▸ .ls hstate hstdin hline
              | get =>
                  simp only [hstdin, hline] at hcall
                  obtain ⟨disk, hdisk, rfl⟩ := Option.map_eq_some_iff.1 hcall
                  exact .get hstate hstdin hline hdisk
              | exit =>
                  simp only [hstdin, hline, Option.some.injEq] at hcall
                  exact hcall ▸ .exit hstate hstdin hline
              | unknown =>
                  simp only [hstdin, hline, Option.some.injEq] at hcall
                  exact hcall ▸ .unknown hstate hstdin hline
      | listFiles =>
          simp only [hstate, Option.some.injEq] at hcall
          exact hcall ▸ .listFiles hstate
      | reading =>
          simp only [hstate] at hcall
          obtain ⟨⟨files, rows, asFile⟩, hread, hcall⟩ := Option.bind_eq_some_iff.1 hcall
          split at hcall
          case isTrue => cases hcall
          case isFalse hblocked =>
            simp only [not_and, Bool.not_eq_false] at hblocked
            obtain rfl := Option.some.inj hcall
            exact .reading hstate hread hblocked
      | exitClient =>
          simp only [hstate, Option.some.injEq] at hcall
          exact hcall ▸ .exitClient hstate

end Call

end ClientT

/-! ### What the client sends -/

/-- What a client is started with, and the lines that are typed. -/
structure User where
  name : Bytes
  port : UInt16
  dir : List Dirent
  stdin : List Bytes
  disk : Bytes → Option Bytes

def User.script (u : User) : List Command := .register :: (posts u.dir ++ typed u.stdin)

def User.participant (u : User) : Participant := ⟨u.name, u.port, u.script⟩

namespace ClientT

def start (u : User) : ClientT where
  state := some .initState
  name := u.name
  port := u.port
  dir := u.dir
  stdin := u.stdin
  fd := []
  asFile := ⟨[], false⟩
  files := .zeroed
  disk := u.disk

def sends (c : ClientT) : List Command :=
  match c.state with
  | some .initState => [.register]
  | some .postFiles => posts c.dir
  | some .listFiles => [.list]
  | some .exitClient => [.deregister]
  | _ => []

def todo (c : ClientT) : List Command :=
  match c.state with
  | none => []
  | some .initState => .register :: (posts c.dir ++ typed c.stdin)
  | some .postFiles => posts c.dir ++ typed c.stdin
  | some .waitForInput => typed c.stdin
  | some .listFiles => .list :: typed c.stdin
  | some .reading => typed c.stdin
  | some .exitClient => [.deregister]

/-- The calls that are left at most, as long as there is input. -/
def toGo (c : ClientT) : ℕ :=
  3 * c.stdin.length +
    match c.state with
    | none => 0
    | some .initState => 2
    | some .postFiles => 1
    | some .waitForInput => 0
    | some .listFiles => 2
    | some .reading => 1
    | some .exitClient => 1

theorem deregister_notMem_posts (dir : List Dirent) : .deregister ∉ posts dir := by
  intro hmem
  obtain ⟨ent, -, hent⟩ := List.mem_filterMap.1 hmem
  obtain ⟨size, -, heq⟩ := Option.map_eq_some_iff.1 hent
  cases heq

theorem postWrites_eq {c : ClientT} {p : Participant} (hname : c.name = p.name) (hport : c.port = p.port) :
    c.postWrites = (posts c.dir).flatMap p.writes := by
  rw [postWrites, posts, hname, hport]
  induction c.dir with
  | nil => rfl
  | cons ent dir ih =>
      rw [List.flatMap_cons, ih]
      cases hstat : ent.stat with
      | none => rw [List.filterMap_cons_none (by rw [hstat]; rfl), List.nil_append]
      | some size => rw [List.filterMap_cons_some (by rw [hstat]; rfl), List.flatMap_cons, Participant.writes]

section Moves

variable {c next : ClientT} {hup : Bool} {connect : Bytes → UInt16 → Option Listener} {chance : Chance}

theorem Moves.running (h : c.Moves hup connect chance next) : c.state ≠ none := by
  cases h <;> simp [*]

theorem Moves.same (h : c.Moves hup connect chance next) : next.name = c.name ∧ next.port = c.port := by
  cases h <;> exact ⟨rfl, rfl⟩

theorem Moves.stdin_suffix (h : c.Moves hup connect chance next) : next.stdin <:+ c.stdin := by
  cases h with
  | ls _ hstdin | get _ hstdin | exit _ hstdin | unknown _ hstdin =>
      rw [hstdin]
      exact List.suffix_cons _ _
  | _ => exact List.suffix_refl _

theorem Moves.asFile_eq (h : c.Moves hup connect chance next) (hstate : c.state ≠ some .reading) :
    next.asFile = c.asFile := by
  cases h with
  | reading h => exact absurd h hstate
  | _ => rfl

theorem Moves.of_reading (h : c.Moves hup connect chance next) (hstate : c.state = some .reading) :
    ∃ files rows asFile, FileShare.listFiles c.files c.asFile = some (files, rows, asFile) ∧
      (asFile.eof = true → hup = true) ∧
      next = { c with files := files, asFile := asFile, state := some .waitForInput } := by
  cases h with
  | reading h hread hend => exact ⟨_, _, _, hread, hend, rfl⟩
  | _ => simp_all

theorem Moves.of_listFiles (h : c.Moves hup connect chance next) (hstate : c.state = some .listFiles) :
    next = { c with fd := c.fd ++ [ascii ['L', 'I', 'S', 'T', '\n']], state := some .reading } := by
  cases h with
  | listFiles => rfl
  | _ => simp_all

theorem Moves.todo_eq (h : c.Moves hup connect chance next) : c.todo = c.sends ++ next.todo := by
  cases h with
  | initState hstate => simp [todo, sends, hstate]
  | postFiles hstate => simp [todo, sends, hstate]
  | prompt hstate => simp [sends, hstate]
  | ls hstate hstdin hline => simp [todo, sends, hstate, hstdin, typed, hline]
  | get hstate hstdin hline => simp [todo, sends, hstate, hstdin, typed, hline]
  | exit hstate hstdin hline => simp [todo, sends, hstate, hstdin, typed, hline]
  | unknown hstate hstdin hline => simp [todo, sends, hstate, hstdin, typed, hline]
  | listFiles hstate => simp [todo, sends, hstate]
  | reading hstate => simp [todo, sends, hstate]
  | exitClient hstate => simp [todo, sends, hstate]

theorem Moves.fd_eq (h : c.Moves hup connect chance next) {p : Participant} (hname : c.name = p.name)
    (hport : c.port = p.port) : next.fd = c.fd ++ c.sends.flatMap p.writes := by
  cases h with
  | initState hstate => simp [sends, hstate, Participant.writes, hname]
  | postFiles hstate => simp only [sends, hstate, postWrites_eq hname hport]
  | listFiles hstate => simp [sends, hstate, Participant.writes]
  | exitClient hstate => simp [sends, hstate, Participant.writes, hname]
  | _ => simp [sends, *]

theorem Moves.farewell (h : c.Moves hup connect chance next) :
    .deregister ∈ c.sends ↔ next.state = none := by
  cases h with
  | initState hstate => simp [sends, hstate]
  | postFiles hstate => simp [sends, hstate, deregister_notMem_posts]
  | listFiles hstate => simp [sends, hstate]
  | exitClient hstate => simp [sends, hstate]
  | _ => simp [sends, *]

/-- Every call but the prompt at the end of the input leaves less to do. -/
theorem Moves.toGo_lt (h : c.Moves hup connect chance next) :
    next.toGo < c.toGo ∨ c.state = some .waitForInput ∧ c.stdin = [] := by
  cases h with
  | prompt hstate hstdin => exact Or.inr ⟨hstate, hstdin⟩
  | initState hstate => simp [toGo, hstate]
  | postFiles hstate => simp [toGo, hstate]
  | listFiles hstate => simp [toGo, hstate]
  | reading hstate => simp [toGo, hstate]
  | exitClient hstate => simp [toGo, hstate]
  | ls hstate hstdin | get hstate hstdin | exit hstate hstdin | unknown hstate hstdin =>
      left
      simp only [toGo, hstate, hstdin, List.length_cons]
      omega

end Moves

end ClientT

/-! ### Runs -/

/-- Bytes come from the server, or `run_client` calls a state function. -/
inductive ClientStep
  | arrive (bytes : Bytes)
  | call (hup : Bool) (connect : Bytes → UInt16 → Option Listener) (chance : Chance)

def ClientStep.isCall : ClientStep → Bool
  | arrive _ => false
  | call _ _ _ => true

def runClient : Machine ClientT ClientStep where
  step c
    | .arrive bytes => some (c.arrive bytes)
    | .call hup connect chance => c.call hup connect chance

/-- What the client has sent and what it has still to send are its script, and it has sent its farewell
exactly if it has returned. -/
structure User.Tells (u : User) (c : ClientT) : Prop where
  name : c.name = u.name
  port : c.port = u.port
  stdin : c.stdin <:+ u.stdin
  sent : ∃ sent, u.script = sent ++ c.todo ∧ c.fd = sent.flatMap u.participant.writes ∧
    (.deregister ∈ sent ↔ c.state = none)

theorem User.tells_start (u : User) : u.Tells (.start u) where
  name := rfl
  port := rfl
  stdin := List.suffix_refl _
  sent := ⟨[], rfl, rfl, by simp [ClientT.start]⟩

namespace User.Tells

variable {u : User} {c next : ClientT} {a : ClientStep}

theorem call {hup : Bool} {connect : Bytes → UInt16 → Option Listener} {chance : Chance} (h : u.Tells c)
    (hmove : c.Moves hup connect chance next) : u.Tells next := by
  obtain ⟨sent, hscript, hfd, hfarewell⟩ := h.sent
  have hrunning : .deregister ∉ sent := fun hmem => hmove.running (hfarewell.1 hmem)
  refine ⟨hmove.same.1.trans h.name, hmove.same.2.trans h.port, hmove.stdin_suffix.trans h.stdin,
    sent ++ c.sends, ?_, ?_, ?_⟩
  · rw [hscript, hmove.todo_eq, List.append_assoc]
  · rw [hmove.fd_eq (p := u.participant) h.name h.port, hfd, List.flatMap_append]
  · rw [List.mem_append, or_iff_right hrunning, hmove.farewell]

theorem step (h : u.Tells c) (hstep : runClient.step c a = some next) : u.Tells next := by
  cases a with
  | arrive bytes =>
      obtain rfl := Option.some.inj hstep
      exact ⟨h.name, h.port, h.stdin, h.sent⟩
  | call hup connect chance => exact h.call (ClientT.moves_of_call hstep)

theorem toGo_lt {hup : Bool} {connect : Bytes → UInt16 → Option Listener} {chance : Chance} (h : u.Tells c)
    (hexit : .deregister ∈ u.script) (hmove : c.Moves hup connect chance next) : next.toGo < c.toGo := by
  apply hmove.toGo_lt.resolve_right
  rintro ⟨hstate, hstdin⟩
  obtain ⟨sent, hscript, -, hfarewell⟩ := h.sent
  have hdone : c.todo = [] := by simp [ClientT.todo, hstate, hstdin, typed]
  rw [hscript, hdone, List.append_nil, hfarewell, hstate] at hexit
  cases hexit

theorem calls_le {steps : List ClientStep} (h : u.Tells c) (hexit : .deregister ∈ u.script)
    (hrun : runClient.run c steps = some next) : steps.countP ClientStep.isCall + next.toGo ≤ c.toGo := by
  induction steps generalizing c with
  | nil =>
      obtain rfl := Option.some.inj hrun
      exact Nat.le_of_eq (Nat.zero_add _)
  | cons step steps ih =>
      obtain ⟨mid, hmid, hrest⟩ := runClient.run_cons_eq_some.1 hrun
      have hle := ih (h.step hmid) hrest
      cases step with
      | arrive bytes =>
          obtain rfl := Option.some.inj hmid
          rw [List.countP_cons_of_neg (by simp [ClientStep.isCall])]
          exact hle
      | call hup connect chance =>
          have hlt := h.toGo_lt hexit (ClientT.moves_of_call hmid)
          rw [List.countP_cons_of_pos rfl]
          omega

end User.Tells

/-- **The client sends its script.** Whatever comes from the server and from the peers, what it has written
is what a beginning of its script writes. It has returned exactly when it has sent all of a script with a
farewell, and if its script has one, it makes at most `3 * lines + 2` calls. -/
theorem runClient_sends_script (u : User) (steps : List ClientStep) (c : ClientT)
    (hrun : runClient.run (.start u) steps = some c) :
    (∃ sent, sent <+: u.script ∧ c.fd = sent.flatMap u.participant.writes ∧
      (c.state = none ↔ .deregister ∈ u.script ∧ sent = u.script)) ∧
    (.deregister ∈ u.script → steps.countP ClientStep.isCall ≤ 3 * u.stdin.length + 2) := by
  have htells : u.Tells c :=
    runClient.invariant (fun _ _ _ h hstep => h.step hstep) u.tells_start hrun
  obtain ⟨sent, hscript, hfd, hfarewell⟩ := htells.sent
  refine ⟨⟨sent, ⟨c.todo, hscript.symm⟩, hfd, ?_⟩, fun hexit => ?_⟩
  · constructor
    · intro hstate
      have hall : sent = u.script := by rw [hscript, ClientT.todo, hstate, List.append_nil]
      exact ⟨hall ▸ hfarewell.2 hstate, hall⟩
    · rintro ⟨hexit, rfl⟩
      exact hfarewell.1 hexit
  · exact (Nat.le_add_right _ _).trans (u.tells_start.calls_le hexit hrun)

/-- A user `a` with a file `x` of five bytes, who lists the files and leaves. -/
def leaving : User where
  name := ascii ['a']
  port := 80
  dir := [⟨ascii ['x'], some 5⟩]
  stdin := [ascii ['l', 's', '\n'], ascii ['e', 'x', 'i', 't', '\n']]
  disk _ := none

def Chance.none : Chance := ⟨[], false, fun _ => 1, fun _ => 4, [0, 0, 0, 0], rfl⟩

def ClientStep.alone : ClientStep := .call false (fun _ _ => Option.none) .none

def staying : List ClientStep :=
  [.alone, .alone, .alone, .alone, .arrive (ascii ['E', 'N', 'D', '\n']), .alone, .alone, .alone]

theorem runClient_sends_script_leaving : ∃ c, runClient.run (.start leaving) staying = some c ∧
    c.state = none ∧ (∃ sent, sent <+: leaving.script ∧ c.fd = sent.flatMap leaving.participant.writes ∧
      (c.state = none ↔ .deregister ∈ leaving.script ∧ sent = leaving.script)) :=
  ⟨_, rfl, rfl, (runClient_sends_script leaving staying _ rfl).1⟩

end NetworkSystems.FileShare
