import NetworkSystems.FileShare.Linked
import Mathlib.Algebra.BigOperators.Fin
import Mathlib.Algebra.Order.BigOperators.Group.Finset

/-!
# Sessions come to an end

A client and its thread never wait for each other: until the client has returned and the thread has ended,
one of the two can go on. If all clients are told to exit, every step uses up something that is bounded from
the start, so everybody leaves, and then nothing is left at the server.
-/

namespace NetworkSystems.FileShare

/-- The files that are asked for have names that the trie can walk. -/
def User.Asks (u : User) : Prop := ∀ line ∈ u.stdin, input line = .get → Key (filenameOf line)

instance (u : User) : Decidable u.Asks := inferInstanceAs (Decidable (∀ line ∈ u.stdin, _ → _))

def Sharing.Ended {n : ℕ} (s : Sharing n) (i : Fin n) : Prop :=
  (s.clients i).state = none ∧ (s.server.sessions i).pc = .closed

instance {n : ℕ} (s : Sharing n) (i : Fin n) : Decidable (s.Ended i) := inferInstanceAs (Decidable (_ ∧ _))

/-! ### Calls that do not wait -/

section Get

variable {filename : Bytes}

theorem exists_get (hname : Ordinary filename) (files : Bytes → Option Bytes) (toPeer fromPeer : Nat → Nat)
    (stale : Bytes) : ∃ result, get files filename toPeer fromPeer stale = some result := by
  obtain ⟨-, hlength, hchars, -⟩ := hname
  have hrequest : fileRequest filename = filename ++ [0x0a] := by
    rw [fileRequest, List.take_of_length_le]
    rw [List.length_append, List.length_singleton]
    omega
  have hline : readFname 8191 ⟨filename ++ [0x0a], toPeer⟩ = some filename :=
    readFname_line (by omega) (fun hmem => (hchars _ hmem).2.1 rfl) toPeer
  rw [get, hrequest, peerListener, hline, Option.map_some, Option.map_some]
  exact ⟨_, rfl⟩

theorem exists_getFile (hname : Ordinary filename) (disk : Bytes → Option Bytes)
    (connect : Bytes → UInt16 → Option Listener) (chance : Chance) (fs : FileStat) :
    ∃ disk', getFile disk connect chance filename fs = some disk' := by
  rw [getFile]
  cases connect fs.hostName fs.port with
  | none => exact ⟨disk, rfl⟩
  | some listener =>
      cases chance.opens with
      | false => exact ⟨disk, rfl⟩
      | true =>
          obtain ⟨result, hget⟩ := exists_get hname
            (listener.files (Function.update disk filename (some []))) chance.toPeer chance.fromPeer chance.stale
          simp only [if_true, hget, Option.map_some]
          exact ⟨_, rfl⟩

end Get

namespace ClientT

variable {c : ClientT} {hup : Bool} {connect : Bytes → UInt16 → Option Listener} {chance : Chance}

theorem exists_getCommand {line : Bytes} (hkey : Key (filenameOf line))
    (hfound : ∀ fs, c.files.find (filenameOf line) = some fs → Ordinary (filenameOf line)) :
    ∃ disk, c.getCommand connect chance line = some disk := by
  rw [getCommand, get_of_key _ hkey, Option.bind_some]
  cases hfind : c.files.find (filenameOf line) with
  | none => exact ⟨c.disk, rfl⟩
  | some fs => exact exists_getFile (hfound fs hfind) _ _ _ _

/-- A client that has not returned can go on, if it is not about to read what has not come. -/
theorem exists_call (hstate : c.state ≠ none)
    (hget : ∀ line ∈ c.stdin, input line = .get → ∃ disk, c.getCommand connect chance line = some disk)
    (hread : c.state = some .reading → ∃ files rows asFile,
      FileShare.listFiles c.files c.asFile = some (files, rows, asFile) ∧ asFile.eof = false) :
    ∃ next, c.call hup connect chance = some next := by
  obtain ⟨state, hstate⟩ := Option.ne_none_iff_exists'.1 hstate
  rw [call, hstate]
  cases state with
  | initState | postFiles | listFiles | exitClient => exact ⟨_, rfl⟩
  | waitForInput =>
      dsimp only
      rw [waitForInput]
      cases hstdin : c.stdin with
      | nil => exact ⟨c, rfl⟩
      | cons line stdin =>
          cases hline : input line with
          | ls | exit | unknown => simp only [hline, Option.some.injEq, exists_eq']
          | get =>
              obtain ⟨disk, hdisk⟩ := hget line (by simp [hstdin]) hline
              simp only [hline, hdisk, Option.map_some, Option.some.injEq, exists_eq']
  | reading =>
      obtain ⟨files, rows, asFile, hlist, heof⟩ := hread hstate
      simp only [hlist, heof, Option.bind_some, Bool.false_eq_true, false_and, if_false, Option.some.injEq,
        exists_eq']

end ClientT

namespace Sharing.Inv

variable {n : ℕ} {users : Fin n → User} {addr : Fin n → Fin 4 → UInt8} {s next : Sharing n} {i : Fin n}

/-- A name under which a client has a record is the name of a posted file. -/
theorem ordinary_of_table (h : s.Inv users addr) (hu : ∀ j, (users j).Valid) {key : Bytes} {stat : FileStat}
    (hkey : (s.clients i).files.find key = some stat) : Ordinary key := by
  obtain ⟨rfl, j, fileName, size, hmem, rfl⟩ := h.tables i key stat hkey
  exact (hu j).ordinary hmem

theorem exists_clientStep (h : s.Inv users addr) (hu : ∀ j, (users j).Valid) (hasks : ∀ j, (users j).Asks)
    {taken pending : List Command} {answers : List (List FileStat)}
    (hlinked : Linked users addr s i taken pending answers) (hstate : (s.clients i).state ≠ none)
    (hanswers : (s.clients i).state = some .reading → answers ≠ []) (chance : Chance) :
    ∃ next, s.clientStep i chance = some next := by
  have hget : ∀ line ∈ (s.clients i).stdin, input line = .get →
      ∃ disk, (s.clients i).getCommand (s.connect i) chance line = some disk := fun line hline hget =>
    ClientT.exists_getCommand (hasks i line (hlinked.tells.stdin.subset hline) hget) fun fs hfs =>
      h.ordinary_of_table hu hfs
  have hread : (s.clients i).state = some .reading → ∃ files rows asFile,
      listFiles (s.clients i).files (s.clients i).asFile = some (files, rows, asFile) ∧ asFile.eof = false := by
    intro hreading
    obtain ⟨rows, answers, rfl⟩ := List.exists_cons_of_ne_nil (hanswers hreading)
    obtain ⟨files, hlist, -⟩ := listFiles_answer
      (fun stat hstat => (hlinked.genuine rows List.mem_cons_self stat hstat).readable hu) (s.clients i).files
      (answers.flatMap answerOf)
    rw [hlinked.asFile, List.flatMap_cons, answerOf, hlist]
    exact ⟨files, rows, _, rfl, rfl⟩
  obtain ⟨c, hcall⟩ := ClientT.exists_call hstate hget hread
  exact ⟨_, by rw [Sharing.clientStep, hcall, Option.map_some]⟩

theorem exists_serverStep (h : s.Inv users addr) (hu : ∀ j, (users j).Valid) {taken pending : List Command}
    {answers : List (List FileStat)} (hlinked : Linked users addr s i taken pending answers)
    (hbusy : (s.server.sessions i).pc = .command → pending ≠ []) (hopen : (s.server.sessions i).pc ≠ .closed) :
    ∃ next, s.serverStep i = some next := by
  obtain ⟨t, hstep, heof⟩ := exists_step (hu i) (hlinked.orderly (hu i)).ordinary hlinked.thread.stands
    hlinked.thread.asfile h.registry (fun hpc => hlinked.thread.free (Or.inr (Or.inl hpc))) hbusy hopen
  rw [Sharing.serverStep, hstep, Option.bind_some, heof, if_neg (by simp)]
  exact ⟨_, rfl⟩

theorem ended_or_moves (h : s.Inv users addr) (hu : ∀ j, (users j).Valid) (hasks : ∀ j, (users j).Asks)
    (i : Fin n) : s.Ended i ∨ (∃ next, s.serverStep i = some next) ∨
      ∀ chance, ∃ next, s.clientStep i chance = some next := by
  obtain ⟨taken, pending, answers, hlinked⟩ := h.linked i
  by_cases hstate : (s.clients i).state = none
  · by_cases hclosed : (s.server.sessions i).pc = .closed
    · exact Or.inl ⟨hstate, hclosed⟩
    · right
      left
      refine h.exists_serverStep hu hlinked (fun hpc hnil => ?_) hclosed
      -- the farewell has been sent, and has not been read
      have hmem := hlinked.returned_iff.1 hstate
      rw [hnil, List.append_nil] at hmem
      exact hlinked.thread.stands.stays hpc hmem
  · right
    by_cases hwaits : (s.clients i).state = some .reading ∧ answers = []
    · -- the question has not been answered yet
      obtain ⟨hreading, rfl⟩ := hwaits
      have hasked := hlinked.asked
      rw [if_pos hreading, List.length_nil] at hasked
      left
      refine h.exists_serverStep hu hlinked (fun hpc hnil => ?_) fun hclosed => ?_
      · rw [hnil, hpc] at hasked
        cases hasked
      · exact hstate (hlinked.of_farewell (hlinked.thread.stands.farewell (Or.inr hclosed))).2
    · right
      exact h.exists_clientStep hu hasks hlinked hstate fun hreading hnil => hwaits ⟨hreading, hnil⟩

end Sharing.Inv

/-! ### What is left to do -/

/-- The steps that are left for the command that a thread has read. -/
def Pc.left : Pc → ℕ
  | .command | .closed => 0
  | .insert | .put _ | .list | .remove => 1
  | .contains | .deregister => 2

theorem Pc.left_le (pc : Pc) : pc.left ≤ 2 := by
  cases pc <;> simp [left]

theorem Participant.five_le_command (p : Participant) (command : Command) : 5 ≤ (p.command command).length := by
  cases command with
  | register =>
      simp only [Participant.command, initState, ascii, List.length_take, List.length_append, List.length_map,
        List.length_cons]
      omega
  | newfile fileName size =>
      simp only [Participant.command, writeStats, ascii, List.length_append, List.length_map, List.length_cons]
      omega
  | list => exact Nat.le_refl 5
  | deregister =>
      simp only [Participant.command, exitClient, ascii, List.length_take, List.length_append, List.length_map,
        List.length_cons]
      omega

/-- Reading uses up bytes, and every other step of a thread comes nearer to the next command. -/
theorem Served.left_lt {n : ℕ} {u : User} {s t : Server n} {i : Fin n}
    {taken pending taken' pending' : List Command} {more : Bytes}
    (h : Served u s t i taken pending taken' pending' more)
    (hfile : (s.sessions i).asfile = ⟨u.participant.stream pending ++ more, false⟩) :
    (t.sessions i).asfile.bytes.length + (t.sessions i).pc.left <
      (s.sessions i).asfile.bytes.length + (s.sessions i).pc.left := by
  rw [h.asfile, hfile]
  cases h.serves with
  | @read _ command hpc =>
      have hbytes := u.participant.five_le_command command
      have hleft := (t.sessions i).pc.left_le
      rw [hpc]
      simp only [Participant.stream, List.flatMap_cons, List.length_append]
      omega
  | contains hpc hnext | insert hpc hnext | put hpc hnext | list hpc hnext | deregister hpc hnext
  | remove hpc hnext =>
      rw [hpc, hnext]
      exact Nat.add_lt_add_left (Nat.lt_succ_self _) _

/-- The bytes that are to be sent and to be read, the steps for the present command, and the calls. -/
def Sharing.left {n : ℕ} (users : Fin n → User) (s : Sharing n) (i : Fin n) : ℕ :=
  (s.server.sessions i).asfile.bytes.length + (s.server.sessions i).pc.left +
    ((users i).participant.stream (s.clients i).todo).length + (s.clients i).toGo

section Left

variable {n : ℕ} {users : Fin n → User} {addr : Fin n → Fin 4 → UInt8} {s next : Sharing n} {i j : Fin n}

theorem left_of_same (hsession : next.server.sessions j = s.server.sessions j)
    (hclient : next.clients j = s.clients j) : next.left users j = s.left users j := by
  rw [Sharing.left, Sharing.left, hsession, hclient]

theorem left_serverStep (h : s.Inv users addr) (hu : ∀ j, (users j).Valid) (hstep : s.serverStep i = some next) :
    next.left users i < s.left users i ∧ ∀ j, j ≠ i → next.left users j = s.left users j := by
  obtain ⟨taken, pending, answers, hlinked⟩ := h.linked i
  obtain ⟨taken', pending', hserved, -⟩ := hlinked.serve (hu i) h.registry h.genuine_elements hstep
  have hlt := hserved.left_lt hlinked.thread.asfile
  obtain ⟨t, hmove, -, rfl⟩ := Sharing.serverStep_eq_some hstep
  constructor
  · rw [Sharing.left, Sharing.left]
    dsimp only
    rw [Function.update_self]
    exact Nat.add_lt_add_right (Nat.add_lt_add_right hlt _) _
  · intro j hji
    exact left_of_same ((Server.step_moves hmove).sessions_of_ne hji) (Function.update_of_ne hji _ _)

theorem left_clientStep (h : s.Inv users addr) (hexit : .deregister ∈ (users i).script) {chance : Chance}
    (hstep : s.clientStep i chance = some next) :
    next.left users i < s.left users i ∧ ∀ j, j ≠ i → next.left users j = s.left users j := by
  obtain ⟨taken, pending, answers, hlinked⟩ := h.linked i
  obtain ⟨c, hmove, rfl⟩ := Sharing.clientStep_eq_some hstep
  have hstream := congrArg List.length (Sharing.stream_todo hlinked.tells hmove)
  have hlt := hlinked.tells.toGo_lt hexit hmove
  constructor
  · rw [Sharing.left, Sharing.left]
    dsimp only
    rw [Function.update_self, Server.setSession_self]
    rw [List.length_append] at hstream
    simp only [Session.receive, File.arrive_bytes, List.length_append]
    omega
  · intro j hji
    exact left_of_same (Server.setSession_of_ne _ hji _) (Function.update_of_ne hji _ _)

/-- Every step uses something up. -/
theorem left_step (h : s.Inv users addr) (hu : ∀ j, (users j).Valid)
    (hexit : ∀ j, .deregister ∈ (users j).script) {a : SharingStep n} (hstep : (sharing n).step s a = some next) :
    ∑ i, next.left users i < ∑ i, s.left users i := by
  obtain ⟨i, hlt, hsame⟩ : ∃ i, next.left users i < s.left users i ∧
      ∀ j, j ≠ i → next.left users j = s.left users j := by
    cases a with
    | server i => exact ⟨i, left_serverStep h hu hstep⟩
    | client i chance => exact ⟨i, left_clientStep h (hexit i) hstep⟩
  refine Finset.sum_lt_sum (fun j _ => ?_) ⟨i, Finset.mem_univ i, hlt⟩
  by_cases hji : j = i
  · exact hji ▸ hlt.le
  · exact (hsame j hji).le

end Left

/-- The bytes that a client sends, and its calls. -/
def User.work (u : User) : ℕ := (u.participant.stream u.script).length + 3 * u.stdin.length + 2

theorem couple_asks : ∀ i, (couple i).Asks := by decide +kernel

/-- Both clients do all that they are told to, and their threads follow. -/
def passing : List (SharingStep 2) :=
  asking ++ .client asker .none :: answering ++ [.client asker .none, .client asker .none, .client poster .none,
    .client asker .none, .server asker, .server asker, .client poster .none, .server poster, .server asker,
    .server poster, .client poster .none, .client poster .none, .client poster .none, .server poster,
    .server poster, .server poster]

end NetworkSystems.FileShare
