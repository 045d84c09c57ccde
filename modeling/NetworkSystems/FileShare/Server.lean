import NetworkSystems.Lib.Machine
import NetworkSystems.FileShare.FileStat
import NetworkSystems.FileShare.Iterate

/-!
# The server

Every connection runs `connection_callback` in a thread of its own. The threads share the file map and
the set of client names, and touch them only in the critical sections of the `_safe` functions, so a step
of the model is one critical section, or what a thread does on its own up to the next one: reading a
command and its arguments. A label is the connection that moves.

An access outside the trie's arrays has no result, so a thread that is about to make one has no step.
-/

namespace NetworkSystems.FileShare

/-- `isspace`, in the C locale. -/
def isspace (ch : UInt8) : Bool := ch = 0x20 ∨ 0x09 ≤ ch ∧ ch ≤ 0x0d

/-- The loop of `read_word`, with the room left. The byte 0xff read into a `char` is -1, as the end of the
file is. The byte that does not fit is consumed. -/
def readWord : Nat → Bytes → Bytes × File
  | _, [] => ([], ⟨[], true⟩)
  | room, ch :: bytes =>
      if isspace ch ∨ ch = 0xff then ([], ⟨bytes, false⟩)
      else
        match room with
        | 0 => ([], ⟨bytes, false⟩)
        | room + 1 =>
            let rest := readWord room bytes
            (ch :: rest.1, rest.2)

/-- A word stored in a buffer, with what it leaves of the buffer's former content. -/
def store (content mem : Bytes) : Bytes := content ++ 0 :: mem.drop (content.length + 1)

/-- Where the thread of a connection stands: the critical section it enters next, reading a command, or
done. -/
inductive Pc
  | command
  | contains
  | insert
  | put (stat : FileStat)
  | list
  | deregister
  | remove
  | closed
  deriving DecidableEq

/-- A connection: its input stream, the peer's address as `inet_ntoa` prints it, the buffer `word`, what
has been written to the peer, and the thread's position. -/
structure Session where
  asfile : File
  ipasstr : Bytes
  word : Bytes
  written : Bytes
  pc : Pc
  deriving DecidableEq

/-- A connection that is accepted, over which the peer will send the given bytes. -/
def Session.start (bytes ipasstr : Bytes) : Session := ⟨⟨bytes, false⟩, ipasstr, [], [], .command⟩

/-- `read_word( asfile, word, 128 )` -/
def Session.readWord (c : Session) : Session :=
  let result := FileShare.readWord 127 c.asfile.bytes
  { c with asfile := result.2, word := store result.1 c.word }

/-- The arguments of a command that has been read, and the critical section that it enters. -/
def Session.dispatch (c : Session) : Session :=
  if cString c.word = ascii ['R', 'E', 'G', 'I', 'S', 'T', 'E', 'R'] then
    { c.readWord with pc := .contains }
  else if cString c.word = ascii ['N', 'E', 'W', 'F', 'I', 'L', 'E'] then
    match readFileStat c.asfile with
    | (none, asfile) => { c with asfile := asfile }
    | (some tmp, asfile) =>
        if tmp.fileName ≠ ascii ['.'] ∧ tmp.fileName ≠ ascii ['.', '.'] then
          { c with asfile := asfile, pc := .put { tmp with hostName := c.ipasstr } }
        else { c with asfile := asfile }
  else if cString c.word = ascii ['L', 'I', 'S', 'T'] then { c with pc := .list }
  else if cString c.word = ascii ['D', 'E', 'R', 'E', 'G', 'I', 'S', 'T', 'E', 'R'] then
    { c.readWord with pc := .deregister }
  else c

/-- One pass of the loop of `connection_callback`, up to its critical section. -/
def Session.command (c : Session) : Session :=
  if c.asfile.eof then { c with pc := .closed } else c.readWord.dispatch

/-! ### The set of client names -/

def trieSetContains (set : TrieT Unit) (key : Bytes) : Option Bool :=
  (trieGet set key).map Option.isSome

def trieSetInsert (set : TrieT Unit) (key : Bytes) : Option (TrieT Unit) := triePut set key (some ())

def trieSetRemove (set : TrieT Unit) (key : Bytes) : Option (TrieT Unit) := triePut set key none

/-! ### The shared state -/

/-- A change of the set of client names, by the connection that made it. -/
inductive Event
  | registered (session : Nat) (name : Bytes)
  | deregistered (session : Nat) (name : Bytes)
  deriving DecidableEq

structure Server (n : Nat) where
  sessions : Fin n → Session
  fileMap : TrieT FileStat
  clientSet : TrieT Unit
  log : List Event

def printitr (element : FileStat) (written : Bytes) : Option Bytes :=
  some (written ++ writeFileStat element)

def deregisterItr (name : Bytes) (element : FileStat) (fileMap : TrieT FileStat) :
    Option (TrieT FileStat) :=
  if element.owner = name then triePut fileMap (element.fileName ++ [0]) none else some fileMap

namespace Server

variable {n : Nat}

def initial (bytes ipasstr : Fin n → Bytes) : Server n where
  sessions i := .start (bytes i) (ipasstr i)
  fileMap := .zeroed
  clientSet := .zeroed
  log := []

def setSession (s : Server n) (i : Fin n) (c : Session) : Server n :=
  { s with sessions := Function.update s.sessions i c }

/-- One step of the thread of connection `i`. Its stream is closed after a `DEREGISTER`, and what the loop
would do with a closed stream is undefined, so the thread is taken to end there. -/
def step (s : Server n) (i : Fin n) : Option (Server n) :=
  let c := s.sessions i
  match c.pc with
  | .command => some (s.setSession i c.command)
  | .contains =>
      (trieSetContains s.clientSet c.word).map fun found =>
        s.setSession i { c with pc := if found then .closed else .insert }
  | .insert =>
      (trieSetInsert s.clientSet c.word).map fun set =>
        { s.setSession i { c with pc := .command } with
          clientSet := set
          log := s.log ++ [.registered i (keyOf c.word)] }
  | .put stat =>
      (triePut s.fileMap (stat.fileName ++ [0]) (some stat)).map fun fileMap =>
        { s.setSession i { c with pc := .command } with fileMap := fileMap }
  | .list =>
      (trieIterate (fun _ => s.fileMap) printitr c.written).map fun written =>
        s.setSession i
          { c with written := written ++ ascii ['E', 'N', 'D', '\n'], pc := .command }
  | .deregister =>
      (trieIterate id (deregisterItr (cString c.word)) s.fileMap).map fun fileMap =>
        { s.setSession i { c with pc := .remove } with fileMap := fileMap }
  | .remove =>
      (trieSetRemove s.clientSet c.word).map fun set =>
        { s.setSession i { c with pc := .closed } with
          clientSet := set
          log := s.log ++ [.deregistered i (keyOf c.word)] }
  | .closed => none

inductive Moves (s : Server n) (i : Fin n) : Server n → Prop
  | command (hpc : (s.sessions i).pc = .command) : Moves s i (s.setSession i (s.sessions i).command)
  | contains {found : Bool} (hpc : (s.sessions i).pc = .contains)
      (hfound : trieSetContains s.clientSet (s.sessions i).word = some found) :
      Moves s i (s.setSession i { s.sessions i with pc := if found then .closed else .insert })
  | insert {set : TrieT Unit} (hpc : (s.sessions i).pc = .insert)
      (hset : trieSetInsert s.clientSet (s.sessions i).word = some set) :
      Moves s i { s.setSession i { s.sessions i with pc := .command } with
        clientSet := set
        log := s.log ++ [.registered i (keyOf (s.sessions i).word)] }
  | put {stat : FileStat} {fileMap : TrieT FileStat} (hpc : (s.sessions i).pc = .put stat)
      (hput : triePut s.fileMap (stat.fileName ++ [0]) (some stat) = some fileMap) :
      Moves s i { s.setSession i { s.sessions i with pc := .command } with fileMap := fileMap }
  | list {written : Bytes} (hpc : (s.sessions i).pc = .list)
      (hwritten : trieIterate (fun _ => s.fileMap) printitr (s.sessions i).written = some written) :
      Moves s i (s.setSession i
        { s.sessions i with written := written ++ ascii ['E', 'N', 'D', '\n'], pc := .command })
  | deregister {fileMap : TrieT FileStat} (hpc : (s.sessions i).pc = .deregister)
      (hiterate : trieIterate id (deregisterItr (cString (s.sessions i).word)) s.fileMap = some fileMap) :
      Moves s i { s.setSession i { s.sessions i with pc := .remove } with fileMap := fileMap }
  | remove {set : TrieT Unit} (hpc : (s.sessions i).pc = .remove)
      (hset : trieSetRemove s.clientSet (s.sessions i).word = some set) :
      Moves s i { s.setSession i { s.sessions i with pc := .closed } with
        clientSet := set
        log := s.log ++ [.deregistered i (keyOf (s.sessions i).word)] }

theorem step_moves {s next : Server n} {i : Fin n} (hstep : s.step i = some next) : s.Moves i next := by
  rw [step] at hstep
  cases hpc : (s.sessions i).pc with
  | command =>
      simp only [hpc, Option.some.injEq] at hstep
      exact hstep ▸ .command hpc
  | contains =>
      simp only [hpc] at hstep
      obtain ⟨found, hfound, rfl⟩ := Option.map_eq_some_iff.1 hstep
      exact .contains hpc hfound
  | insert =>
      simp only [hpc] at hstep
      obtain ⟨set, hset, rfl⟩ := Option.map_eq_some_iff.1 hstep
      exact .insert hpc hset
  | put stat =>
      simp only [hpc] at hstep
      obtain ⟨fileMap, hput, rfl⟩ := Option.map_eq_some_iff.1 hstep
      exact .put hpc hput
  | list =>
      simp only [hpc] at hstep
      obtain ⟨written, hwritten, rfl⟩ := Option.map_eq_some_iff.1 hstep
      exact .list hpc hwritten
  | deregister =>
      simp only [hpc] at hstep
      obtain ⟨fileMap, hiterate, rfl⟩ := Option.map_eq_some_iff.1 hstep
      exact .deregister hpc hiterate
  | remove =>
      simp only [hpc] at hstep
      obtain ⟨set, hset, rfl⟩ := Option.map_eq_some_iff.1 hstep
      exact .remove hpc hset
  | closed =>
      simp only [hpc] at hstep
      cases hstep

@[simp] theorem setSession_self (s : Server n) (i : Fin n) (c : Session) :
    (s.setSession i c).sessions i = c := by simp only [setSession, Function.update_self]

theorem setSession_of_ne (s : Server n) {i j : Fin n} (h : j ≠ i) (c : Session) :
    (s.setSession i c).sessions j = s.sessions j := by
  simp only [setSession, Function.update_of_ne h]

section Moves

variable {s next : Server n} {i j : Fin n}

theorem Moves.sessions_of_ne (h : s.Moves i next) (hji : j ≠ i) : next.sessions j = s.sessions j := by
  cases h <;> exact s.setSession_of_ne hji _

/-- A thread that does not read a command leaves its stream, and has nothing to put nor to deregister. -/
theorem Moves.sessions_self (h : s.Moves i next) :
    (s.sessions i).pc = .command ∧ next.sessions i = (s.sessions i).command ∨
      (next.sessions i).asfile = (s.sessions i).asfile ∧
        (∀ stat, (next.sessions i).pc ≠ .put stat) ∧ (next.sessions i).pc ≠ .deregister := by
  cases h with
  | command hpc => exact Or.inl ⟨hpc, s.setSession_self i _⟩
  | @contains found =>
      rw [setSession_self]
      exact Or.inr ⟨rfl, by cases found <;> simp, by cases found <;> simp⟩
  | list =>
      rw [setSession_self]
      exact Or.inr ⟨rfl, nofun, nofun⟩
  | _ =>
      right
      dsimp only
      rw [setSession_self]
      exact ⟨rfl, nofun, nofun⟩

end Moves

end Server

def server (n : Nat) : Machine (Server n) (Fin n) := ⟨Server.step⟩

end NetworkSystems.FileShare
