import NetworkSystems.FileShare.Threads

/-!
# Interrupts

`sigint_handler` writes the farewell at once, wherever the client is. Between two commands that is as good
as leaving. Between the two writes of `write_stats` the farewell is behind the word `NEWFILE`, so the server
takes it for a record, and the client stays registered when its thread has ended.
-/

namespace NetworkSystems.FileShare

/-- What `main` copies into `SERVER_NAME`. -/
def serverName (name : Bytes) : Bytes := name.take 1024

/-- What `sigint_handler` writes. -/
def sigintHandler (serverName : Bytes) : Bytes :=
  (ascii ['D', 'E', 'R', 'E', 'G', 'I', 'S', 'T', 'E', 'R', ' '] ++ serverName ++ ascii ['\n']).take 2047

/-- The first of the two writes of `write_stats`. -/
def newfileWord : Bytes := ascii ['N', 'E', 'W', 'F', 'I', 'L', 'E', ' ']

/-- A client runs its script, or is interrupted after some of its writes. -/
inductive Ending
  | script
  | sigint (count : ℕ)

def User.writes (u : User) : List Bytes := u.script.flatMap u.participant.writes

/-- All that the server gets from a client. -/
def User.sent (u : User) : Ending → Bytes
  | .script => u.participant.stream u.script
  | .sigint count => (u.writes.take count).flatten ++ sigintHandler (serverName u.name)

/-- The client says goodbye, and not within a record. -/
def User.Parts (u : User) : Ending → Prop
  | .script => .deregister ∈ u.script
  | .sigint count => (u.writes.take count).getLast? ≠ some newfileWord

/-! ### What an interrupted client has written -/

/-- The beginning of a list of blocks is some of the blocks, and perhaps a part of the next one. -/
theorem take_flatMap {α β : Type} (f : α → List β) (xs : List α) (count : ℕ) : ∃ front back,
    xs = front ++ back ∧ ((xs.flatMap f).take count = front.flatMap f ∨
      ∃ x rest part, back = x :: rest ∧ 0 < part ∧ part < (f x).length ∧
        (xs.flatMap f).take count = front.flatMap f ++ (f x).take part) := by
  induction xs generalizing count with
  | nil => exact ⟨[], [], rfl, Or.inl List.take_nil⟩
  | cons x xs ih =>
      by_cases hcount : count < (f x).length
      · refine ⟨[], x :: xs, rfl, ?_⟩
        rw [List.flatMap_cons, List.take_append_of_le_length hcount.le]
        rcases Nat.eq_zero_or_pos count with rfl | hpos
        · exact Or.inl rfl
        · exact Or.inr ⟨x, xs, count, rfl, hpos, hcount, rfl⟩
      · obtain ⟨front, back, rfl, htake⟩ := ih (count - (f x).length)
        refine ⟨x :: front, back, rfl, ?_⟩
        rw [List.flatMap_cons, List.take_append, List.take_of_length_le (Nat.le_of_not_lt hcount),
          List.flatMap_cons]
        rcases htake with htake | ⟨y, rest, part, hback, hpos, hlt, htake⟩
        · exact Or.inl (by rw [htake])
        · exact Or.inr ⟨y, rest, part, hback, hpos, hlt, by rw [htake, List.append_assoc]⟩

section Writes

variable {u : User}

theorem take_writes (p : Participant) {command : Command} {part : ℕ} (hpos : 0 < part)
    (hpart : part < (p.writes command).length) :
    (∃ fileName size, command = .newfile fileName size) ∧ (p.writes command).take part = [newfileWord] := by
  cases command with
  | newfile fileName size =>
      obtain rfl : part = 1 := by
        rw [Participant.writes, List.length_cons, List.length_singleton] at hpart
        omega
      exact ⟨⟨fileName, size, rfl⟩, rfl⟩
  | register | list | deregister =>
      rw [Participant.writes, List.length_singleton] at hpart
      omega

/-- No command ends with the word. -/
theorem getLast?_writes (hu : u.Valid) {command : Command}
    (hordinary : ∀ fileName size, command = .newfile fileName size → Ordinary fileName) :
    ∃ last, (u.participant.writes command).getLast? = some last ∧ last ≠ newfileWord := by
  cases command with
  | register => exact ⟨_, rfl, by simp [initState, ascii, newfileWord]⟩
  | newfile fileName size =>
      refine ⟨_, rfl, fun heq => ?_⟩
      have hline := (encodable_posted hu.name.word hu.name.colon_notMem (hordinary fileName size rfl).entryName
        size u.port).line
      rw [writeFileStat] at heq
      change List.take 2047 (FileStat.line ⟨fileName, size, u.name, [], u.port⟩) = newfileWord at heq
      rw [List.take_of_length_le hline] at heq
      have hslash : (0x2f : UInt8) ∈ newfileWord := by simp [← heq, FileStat.line]
      revert hslash
      decide
  | list => exact ⟨_, rfl, by decide⟩
  | deregister => exact ⟨_, rfl, by simp [exitClient, ascii, newfileWord]⟩

theorem getLast?_flatMap_writes (hu : u.Valid) {commands : List Command} (horderly : Orderly commands) :
    (commands.flatMap u.participant.writes).getLast? ≠ some newfileWord := by
  rcases List.eq_nil_or_concat commands with rfl | ⟨front, command, rfl⟩
  · simp
  · have hordinary : ∀ fileName size, command = .newfile fileName size → Ordinary fileName :=
      fun fileName size heq => horderly.ordinary fileName size (by simp [heq])
    obtain ⟨last, hlast, hne⟩ := getLast?_writes hu hordinary
    rw [List.concat_eq_append, List.flatMap_append, List.flatMap_singleton, List.getLast?_append, hlast]
    simpa using hne

/-- What the server gets is some commands, and perhaps the farewell as the line of a record. They hold a
farewell exactly if the client says goodbye. -/
inductive Sends (u : User) (ending : Ending) : List Command → Bytes → Prop
  | parts {commands : List Command} (hparts : u.Parts ending) (hmem : .deregister ∈ commands) :
      Sends u ending commands []
  | remains {commands : List Command} {more : Bytes} (hparts : ¬ u.Parts ending)
      (hmem : .deregister ∉ commands) (hregister : .register ∈ commands)
      (hmore : more = [] ∨ more = newfileWord ++ exitClient u.name) : Sends u ending commands more

theorem sigintHandler_eq (hname : Plain u.name) : sigintHandler (serverName u.name) = exitClient u.name := by
  rw [serverName, List.take_of_length_le (hname.2.1.trans (by decide)), sigintHandler, exitClient]

theorem Orderly.concat {commands : List Command} (h : Orderly commands) : Orderly (commands ++ [.deregister]) where
  first front rest heq := by
    rcases List.eq_nil_or_concat rest with rfl | ⟨rest', last, rfl⟩
    · have hlast := (List.append_inj' heq rfl).2
      cases hlast
    · have hsplit : commands ++ [.deregister] = (front ++ .register :: rest') ++ [last] := by
        rw [heq]
        simp
      exact h.first front rest' (List.append_inj' hsplit rfl).1
  ordinary fileName size hmem := h.ordinary fileName size (by simpa using hmem)

theorem exists_sends (hu : u.Valid) (ending : Ending) : ∃ commands more,
    u.sent ending = u.participant.stream commands ++ more ∧ Orderly commands ∧ Sends u ending commands more := by
  cases ending with
  | script =>
      refine ⟨u.script, [], (List.append_nil _).symm, hu.orderly, ?_⟩
      by_cases hmem : .deregister ∈ u.script
      · exact .parts hmem hmem
      · exact .remains hmem hmem List.mem_cons_self (Or.inl rfl)
  | sigint count =>
      obtain ⟨front, back, hscript, htake⟩ := take_flatMap u.participant.writes u.script count
      have hfront : Orderly front := (hscript ▸ hu.orderly).of_append
      rw [User.sent, sigintHandler_eq hu.name, User.writes]
      rcases htake with htake | ⟨command, rest, part, rfl, hpos, hpart, htake⟩
      · refine ⟨front ++ [.deregister], [], ?_, hfront.concat, .parts ?_ (by simp)⟩
        · rw [htake, Participant.flatten_flatMap_writes, List.append_nil, Participant.stream, Participant.stream,
            List.flatMap_append, List.flatMap_singleton]
          rfl
        · rw [User.Parts, User.writes, htake]
          exact getLast?_flatMap_writes hu hfront
      · obtain ⟨⟨fileName, size, rfl⟩, hword⟩ := take_writes u.participant hpos hpart
        rw [hword] at htake
        refine ⟨front, newfileWord ++ exitClient u.name, ?_, hfront, .remains ?_ ?_ ?_ (Or.inr rfl)⟩
        · rw [htake, List.flatten_append, Participant.flatten_flatMap_writes, List.flatten_singleton,
            List.append_assoc]
        · rw [User.Parts, User.writes, htake, not_not, List.getLast?_concat]
        · intro hmem
          obtain ⟨before, after, rfl⟩ := List.append_of_mem hmem
          have hlast : after ++ .newfile fileName size :: rest = [] := deregister_of_script (by
            rw [hscript, List.append_assoc, List.cons_append])
          simp at hlast
        · apply register_mem hscript
          rintro rfl
          cases hscript

end Writes

/-! ### The thread of an interrupted client -/

/-- The farewell of a client without a slash in its name is one line of a record that is none. -/
theorem command_garbled {c : Session} {name : Bytes} (hname : Plain name) (hslash : (0x2f : UInt8) ∉ name)
    (hpc : c.pc = .command) (hfile : c.asfile = ⟨newfileWord ++ exitClient name, false⟩) :
    c.command.pc = .command ∧ c.command.asfile = ⟨[], false⟩ := by
  have hshort := hname.2.1
  have hbytes : newfileWord ++ exitClient name = ascii ['N', 'E', 'W', 'F', 'I', 'L', 'E'] ++ 0x20 ::
      (ascii ['D', 'E', 'R', 'E', 'G', 'I', 'S', 'T', 'E', 'R', ' '] ++ name ++ 0x0a :: []) := by
    rw [exitClient, List.take_of_length_le (by simp [ascii]; omega)]
    simp [ascii, newfileWord]
  have hfront : ∀ ch ∈ ascii ['D', 'E', 'R', 'E', 'G', 'I', 'S', 'T', 'E', 'R', ' '] ++ name,
      ch ≠ 0x2f ∧ ch ≠ 0x0a := by
    have hfarewell : ∀ ch ∈ ascii ['D', 'E', 'R', 'E', 'G', 'I', 'S', 'T', 'E', 'R', ' '],
        ch ≠ 0x2f ∧ ch ≠ 0x0a := by decide +kernel
    intro ch hch
    rcases List.mem_append.1 hch with hch | hch
    · exact hfarewell ch hch
    · refine ⟨fun heq => hslash (heq ▸ hch), fun heq => ?_⟩
      have hspace := (hname.2.2.1 ch hch).1
      rw [heq] at hspace
      cases hspace
  have hread : readFileStat ⟨ascii ['D', 'E', 'R', 'E', 'G', 'I', 'S', 'T', 'E', 'R', ' '] ++ name ++ 0x0a :: [],
      false⟩ = (none, ⟨[], false⟩) := by
    rw [readFileStat, readFileStatEnd_of_line _ (readName_newline (by simp [ascii, bufLen]; omega) hfront)]
  have hword : cString (store (ascii ['N', 'E', 'W', 'F', 'I', 'L', 'E']) c.word) =
      ascii ['N', 'E', 'W', 'F', 'I', 'L', 'E'] := cString_store (by decide) _
  rw [hbytes] at hfile
  rw [command_of_word (by decide) hfile (by decide +kernel), Session.dispatch]
  simp only [hword, hread]
  rw [if_neg (by decide), if_pos trivial]
  exact ⟨hpc, rfl⟩

/-- The thread has come to the end of its stream, and its client is still registered. -/
structure Lost {n : ℕ} (u : User) (s : Server n) (i : Fin n) : Prop where
  pc : (s.sessions i).pc = .command ∨ (s.sessions i).pc = .closed
  bytes : (s.sessions i).asfile.bytes = []
  registered : s.clientSet.find u.name = some ()

/-- Where the thread of a client is that has sent what it sends with this ending. -/
inductive Hears {n : ℕ} (u : User) (ending : Ending) (s : Server n) (i : Fin n) : Prop
  | reading {taken pending : List Command} {more : Bytes} (hthread : Thread u s i taken pending more)
      (horderly : Orderly (taken ++ pending)) (hsends : Sends u ending (taken ++ pending) more)
  | lost (hparts : ¬ u.Parts ending) (hlost : Lost u s i)

section Step

variable {n : ℕ} {u : User} {ending : Ending} {s t : Server n} {i : Fin n}

theorem Lost.step (h : Lost u s i) (hstep : s.step i = some t) :
    Lost u t i ∧ t.fileMap = s.fileMap ∧ t.clientSet = s.clientSet := by
  rcases h.pc with hpc | hpc
  · obtain ⟨t', hstep', hc, hmap, hset⟩ := step_command rfl hpc
    obtain rfl : t' = t := Option.some.inj (hstep'.symm.trans hstep)
    have hcommand : ((s.sessions i).command.pc = .command ∨ (s.sessions i).command.pc = .closed) ∧
        (s.sessions i).command.asfile.bytes = [] := by
      cases heof : (s.sessions i).asfile.eof with
      | false =>
          have hfile : (s.sessions i).asfile = ⟨[], false⟩ := by rw [← h.bytes, ← heof]
          obtain ⟨hsame, hend⟩ := command_end hfile
          exact ⟨Or.inl (hsame.trans hpc), by rw [hend]⟩
      | true =>
          rw [Session.command, if_pos heof]
          exact ⟨Or.inr rfl, h.bytes⟩
    rw [← hc] at hcommand
    exact ⟨⟨hcommand.1, hcommand.2, hset ▸ h.registered⟩, hmap, hset⟩
  · cases (step_closed hpc).symm.trans hstep

/-- A thread that has nothing more to read but a garbled farewell loses its client. -/
theorem Thread.lost {taken : List Command} {more : Bytes} (h : Thread u s i taken [] more) (hu : u.Valid)
    (hslash : (0x2f : UInt8) ∉ u.name) (hpc : (s.sessions i).pc = .command) (hmem : .register ∈ taken)
    (hmore : more = [] ∨ more = newfileWord ++ exitClient u.name) (hstep : s.step i = some t) :
    Lost u t i ∧ t.fileMap = s.fileMap ∧ t.clientSet = s.clientSet := by
  obtain ⟨t', hstep', hc, hmap, hset⟩ := step_command rfl hpc
  obtain rfl : t' = t := Option.some.inj (hstep'.symm.trans hstep)
  have hregistered := h.registered hmem (by simp [hpc]) (by simp [hpc]) (by simp [hpc])
  have hfile := h.asfile
  rw [Participant.stream, List.flatMap_nil, List.nil_append] at hfile
  have hcommand : (s.sessions i).command.pc = .command ∧ (s.sessions i).command.asfile.bytes = [] := by
    rcases hmore with rfl | rfl
    · obtain ⟨hsame, hend⟩ := command_end hfile
      exact ⟨hsame.trans hpc, by rw [hend]⟩
    · obtain ⟨hsame, hend⟩ := command_garbled hu.name hslash hpc hfile
      exact ⟨hsame, by rw [hend]⟩
  rw [← hc] at hcommand
  exact ⟨⟨Or.inl hcommand.1, hcommand.2, hset ▸ hregistered⟩, hmap, hset⟩

/-- What the step of one thread changes for the others. -/
structure Touches (u : User) (s t : Server n) : Prop where
  names : ∀ name, name ≠ u.name → t.clientSet.find name = s.clientSet.find name
  records : ∀ key stat, t.fileMap.find key = some stat → stat.owner ≠ u.name → s.fileMap.find key = some stat

theorem Touches.of_same (hmap : t.fileMap = s.fileMap) (hset : t.clientSet = s.clientSet) : Touches u s t where
  names name _ := by rw [hset]
  records key stat hkey _ := hmap ▸ hkey

theorem Hears.step (h : Hears u ending s i) (hu : u.Valid) (hslash : (0x2f : UInt8) ∉ u.name)
    (hinv : s.RegistryInv) (hstep : s.step i = some t) : Hears u ending t i ∧ Touches u s t := by
  cases h with
  | lost hparts hlost =>
      obtain ⟨hlost, hmap, hset⟩ := hlost.step hstep
      exact ⟨.lost hparts hlost, .of_same hmap hset⟩
  | @reading taken pending more hthread horderly hsends =>
      by_cases hend : (s.sessions i).pc = .command ∧ pending = []
      · obtain ⟨hpc, rfl⟩ := hend
        have hstays := hthread.stands.stays hpc
        rw [List.append_nil] at hsends
        cases hsends with
        | parts hparts hmem => exact absurd hmem hstays
        | remains hparts hmem hregister hmore =>
            obtain ⟨hlost, hmap, hset⟩ := hthread.lost hu hslash hpc hregister hmore hstep
            exact ⟨.lost hparts hlost, .of_same hmap hset⟩
      · obtain ⟨taken', pending', hserved, hnext⟩ :=
          hthread.step hu horderly hinv (fun hpc hnil => hend ⟨hpc, hnil⟩) hstep
        refine ⟨.reading hnext (hserved.order ▸ horderly) (hserved.order ▸ hsends), ?_, ?_⟩
        · exact fun name hname => hserved.serves.clientSet_of_ne hname
        · intro key stat hkey howner
          rcases hserved.serves.listed hkey with hold | ⟨fileName, size, -, rfl⟩
          · exact hold
          · exact absurd rfl howner

theorem Hears.frame {v : User} (h : Hears u ending s i) (hsession : t.sessions i = s.sessions i)
    (hname : u.name ≠ v.name) (htouches : Touches v s t) : Hears u ending t i := by
  have hset := htouches.names u.name hname
  cases h with
  | lost hparts hlost =>
      exact .lost hparts ⟨hsession ▸ hlost.pc, hsession ▸ hlost.bytes, hset.trans hlost.registered⟩
  | reading hthread horderly hsends =>
      refine .reading (hthread.frame hsession hset fun key stat hkey howner => ?_) horderly hsends
      exact htouches.records key stat hkey (howner ▸ hname)

end Step

theorem hears_of_run {n : ℕ} {users : Fin n → User} {ends : Fin n → Ending} {ipasstr : Fin n → Bytes}
    (hu : ∀ j, (users j).Valid) (hslash : ∀ j, (0x2f : UInt8) ∉ (users j).name)
    (hnames : Function.Injective fun j => (users j).name) {schedule : List (Fin n)} {s : Server n}
    (hrun : (server n).run (.initial (fun j => (users j).sent (ends j)) ipasstr) schedule = some s) :
    ∀ j, Hears (users j) (ends j) s j := by
  have hstart : (Server.initial (fun j => (users j).sent (ends j)) ipasstr).RegistryInv ∧
      ∀ j, Hears (users j) (ends j) (.initial (fun j => (users j).sent (ends j)) ipasstr) j := by
    refine ⟨registryInv_initial _ _, fun j => ?_⟩
    obtain ⟨commands, more, hsent, horderly, hsends⟩ := exists_sends (hu j) (ends j)
    exact .reading (.initial hsent) horderly hsends
  have hinv : ∀ s i t, (s.RegistryInv ∧ ∀ j, Hears (users j) (ends j) s j) → (server n).step s i = some t →
      t.RegistryInv ∧ ∀ j, Hears (users j) (ends j) t j := by
    intro s i t hs hstep
    refine ⟨hs.1.step hstep, fun j => ?_⟩
    obtain ⟨hself, htouches⟩ := (hs.2 i).step (hu i) (hslash i) hs.1 hstep
    by_cases hji : j = i
    · exact hji ▸ hself
    · exact (hs.2 j).frame ((Server.step_moves hstep).sessions_of_ne hji) (fun heq => hji (hnames heq)) htouches
  exact ((server n).invariant hinv hstart hrun).2

/-- **An interrupt leaves nothing behind exactly if it is not within a record.** However the threads of the
clients interleave, of which each runs its script or is interrupted at any time: when the thread of a client
has ended, the client's name is free and none of its records is listed, if the client has said goodbye and
its last write before that was not the word of a record, and else its name is still registered. -/
theorem leaves_nothing_iff {n : ℕ} (users : Fin n → User) (ends : Fin n → Ending) (ipasstr : Fin n → Bytes)
    (hu : ∀ j, (users j).Valid) (hslash : ∀ j, (0x2f : UInt8) ∉ (users j).name)
    (hnames : Function.Injective fun j => (users j).name) (schedule : List (Fin n)) (s : Server n)
    (hrun : (server n).run (.initial (fun j => (users j).sent (ends j)) ipasstr) schedule = some s) (i : Fin n)
    (hend : (s.sessions i).pc = .closed) :
    ((users i).Parts (ends i) ↔ s.clientSet.find (users i).name = none ∧
      ∀ key stat, s.fileMap.find key = some stat → stat.owner ≠ (users i).name) ∧
    (¬ (users i).Parts (ends i) ↔ s.clientSet.find (users i).name = some ()) := by
  cases hears_of_run hu hslash hnames hrun i with
  | lost hparts hlost => simp [hparts, hlost.registered]
  | reading hthread horderly hsends =>
      have hfarewell := hthread.stands.farewell (Or.inr hend)
      have habsent := hthread.absent hend
      cases hsends with
      | parts hparts hmem => simpa [hparts, habsent] using hthread.gone (Or.inr hend)
      | remains hparts hmem => exact absurd (List.mem_append_left _ hfarewell) hmem

/-- The client is interrupted after the word of its record, or after the record. -/
theorem leaves_nothing_iff_leaving :
    (∃ s, (server 1).run (.initial (fun _ => leaving.sent (.sigint 2)) fun _ => []) (List.replicate 6 0) = some s ∧
      (s.sessions 0).pc = .closed ∧ s.clientSet.find leaving.name = some ()) ∧
    ∃ s, (server 1).run (.initial (fun _ => leaving.sent (.sigint 3)) fun _ => []) (List.replicate 8 0) = some s ∧
      (s.sessions 0).pc = .closed ∧ s.clientSet.find leaving.name = none := by
  have hwithin : ((server 1).run (.initial (fun _ => leaving.sent (.sigint 2)) fun _ => [])
    (List.replicate 6 0)).map (fun s => decide ((s.sessions 0).pc = .closed)) = some true := by decide +kernel
  have hafter : ((server 1).run (.initial (fun _ => leaving.sent (.sigint 3)) fun _ => [])
    (List.replicate 8 0)).map (fun s => decide ((s.sessions 0).pc = .closed)) = some true := by decide +kernel
  obtain ⟨s, hrun, hs⟩ := Option.map_eq_some_iff.1 hwithin
  obtain ⟨t, hrun', ht⟩ := Option.map_eq_some_iff.1 hafter
  have hs := of_decide_eq_true hs
  have ht := of_decide_eq_true ht
  have hgarbled : ¬ leaving.Parts (.sigint 2) := by
    rw [User.Parts, not_not]
    decide +kernel
  have hparts : leaving.Parts (.sigint 3) := by
    rw [User.Parts]
    decide +kernel
  refine ⟨⟨s, hrun, hs, ?_⟩, t, hrun', ht, ?_⟩
  · exact (leaves_nothing_iff (fun _ => leaving) (fun _ => .sigint 2) _ (fun _ => leaving_valid) (fun _ => by decide)
      (fun _ _ _ => Subsingleton.elim _ _) _ s hrun 0 hs).2.1 hgarbled
  · exact ((leaves_nothing_iff (fun _ => leaving) (fun _ => .sigint 3) _ (fun _ => leaving_valid)
      (fun _ => by decide) (fun _ _ _ => Subsingleton.elim _ _) _ t hrun' 0 ht).1.1 hparts).1

end NetworkSystems.FileShare
