import NetworkSystems.FileShare.Sharing

/-!
# The thread of a client

A thread reads the commands of one client in order. Where it stands is decided by the commands that it
has read, and each of its steps either reads a command or does the part of a command that touches the file
map, the set of names or the answer to the client.
-/

namespace NetworkSystems.FileShare

/-- The name is plain, and so are the names of the files that are posted. -/
structure User.Valid (u : User) : Prop where
  name : Plain u.name
  dir : ∀ ent ∈ u.dir, ent.stat ≠ none → Ordinary ent.name

theorem leaving_valid : leaving.Valid where
  name := by decide +kernel
  dir := by decide +kernel

theorem couple_valid : ∀ i, (couple i).Valid
  | 0 => leaving_valid
  | 1 => ⟨by decide +kernel, by decide +kernel⟩

theorem couple_names : Function.Injective fun i => (couple i).name := by
  intro i j
  revert i j
  decide

def User.record (u : User) (fileName : Bytes) (size : UInt64) (ipasstr : Bytes) : FileStat :=
  ⟨fileName, size, u.name, ipasstr, u.port⟩

def answerOf (rows : List FileStat) : Bytes := rows.flatMap writeFileStat ++ ascii ['E', 'N', 'D', '\n']

/-! ### Scripts -/

section Script

variable {u : User} {commands : List Command}

theorem mem_posts {dir : List Dirent} {command : Command} :
    command ∈ posts dir ↔ ∃ ent ∈ dir, ∃ size, ent.stat = some size ∧ command = .newfile ent.name size := by
  rw [posts, List.mem_filterMap]
  refine exists_congr fun ent => and_congr_right fun _ => ?_
  rw [Option.map_eq_some_iff]
  exact exists_congr fun size => and_congr_right fun _ => eq_comm

theorem mem_typed {stdin : List Bytes} {command : Command} (h : command ∈ typed stdin) :
    command = .list ∨ command = .deregister := by
  fun_induction typed stdin with
  | case1 => cases h
  | case2 line stdin hline ih =>
      rcases List.mem_cons.1 h with heq | hmem
      · exact Or.inl heq
      · exact ih hmem
  | case3 => exact Or.inr (List.mem_singleton.1 h)
  | case4 line stdin hls hexit ih => exact ih h

theorem User.Valid.ordinary (h : u.Valid) {fileName : Bytes} {size : UInt64}
    (hmem : .newfile fileName size ∈ u.script) : Ordinary fileName := by
  rw [script, List.mem_cons, List.mem_append] at hmem
  rcases hmem with heq | hmem | hmem
  · cases heq
  · obtain ⟨ent, hent, size, hstat, heq⟩ := mem_posts.1 hmem
    obtain ⟨rfl, -⟩ := Command.newfile.inj heq
    exact h.dir ent hent (by simp [hstat])
  · rcases mem_typed hmem with heq | heq <;> cases heq

theorem User.Valid.participant (h : u.Valid) : u.participant.Valid where
  name := h.name.word
  record _ size hmem := encodable_posted h.name.word h.name.colon_notMem (h.ordinary hmem).entryName size u.port

theorem register_of_script {taken rest : List Command} (h : u.script = taken ++ .register :: rest) :
    taken = [] := by
  cases taken with
  | nil => rfl
  | cons command taken =>
      have hmem : .register ∈ posts u.dir ++ typed u.stdin := by
        rw [(List.cons.inj h).2]
        simp
      rcases List.mem_append.1 hmem with hmem | hmem
      · obtain ⟨ent, -, size, -, heq⟩ := mem_posts.1 hmem
        cases heq
      · rcases mem_typed hmem with heq | heq <;> cases heq

theorem register_mem {taken rest : List Command} (h : u.script = taken ++ rest) (htaken : taken ≠ []) :
    .register ∈ taken := by
  obtain ⟨command, taken, rfl⟩ := List.exists_cons_of_ne_nil htaken
  rw [← (List.cons.inj h).1]
  exact List.mem_cons_self

theorem deregister_of_typed {stdin : List Bytes} {taken rest : List Command}
    (h : typed stdin = taken ++ .deregister :: rest) : rest = [] := by
  fun_induction typed stdin generalizing taken with
  | case1 => simp at h
  | case2 line stdin hline ih =>
      cases taken with
      | nil => cases h
      | cons command taken => exact ih (List.cons.inj h).2
  | case3 =>
      cases taken with
      | nil => exact (List.cons.inj h).2.symm
      | cons command taken => simp at h
  | case4 line stdin hls hexit ih => exact ih h

theorem deregister_of_script {taken rest : List Command} (h : u.script = taken ++ .deregister :: rest) :
    rest = [] := by
  cases taken with
  | nil => cases h
  | cons command taken =>
      have htail : posts u.dir ++ typed u.stdin = taken ++ .deregister :: rest := (List.cons.inj h).2
      rcases List.append_eq_append_iff.1 htail with ⟨front, rfl, htyped⟩ | ⟨back, hposts, hrest⟩
      · exact deregister_of_typed htyped
      · cases back with
        | nil =>
          have htyped : typed u.stdin = [] ++ .deregister :: rest := hrest.symm
          exact deregister_of_typed htyped
        | cons command back =>
            obtain ⟨rfl, -⟩ := List.cons.inj hrest
            exact absurd (by rw [hposts]; simp) (ClientT.deregister_notMem_posts u.dir)

end Script

/-! ### Where a thread stands -/

/-- Where the thread of a connection stands when it has read the given commands of its client. -/
inductive Stands (u : User) : List Command → Session → Prop
  | command {taken : List Command} {c : Session} (hpc : c.pc = .command) (hstays : .deregister ∉ taken) :
      Stands u taken c
  | contains {taken : List Command} {c : Session} (hpc : c.pc = .contains) (hstays : .deregister ∉ taken)
      (hword : ∃ mem, c.word = u.name ++ 0 :: mem) :
      Stands u (taken ++ [.register]) c
  | insert {taken : List Command} {c : Session} (hpc : c.pc = .insert) (hstays : .deregister ∉ taken)
      (hword : ∃ mem, c.word = u.name ++ 0 :: mem) :
      Stands u (taken ++ [.register]) c
  | put {taken : List Command} {c : Session} {fileName : Bytes} {size : UInt64}
      (hpc : c.pc = .put (u.record fileName size c.ipasstr)) (hstays : .deregister ∉ taken) :
      Stands u (taken ++ [.newfile fileName size]) c
  | list {taken : List Command} {c : Session} (hpc : c.pc = .list) (hstays : .deregister ∉ taken) :
      Stands u (taken ++ [.list]) c
  | deregister {taken : List Command} {c : Session} (hpc : c.pc = .deregister)
      (hword : ∃ mem, c.word = u.name ++ 0 :: mem) : Stands u (taken ++ [.deregister]) c
  | remove {taken : List Command} {c : Session} (hpc : c.pc = .remove)
      (hword : ∃ mem, c.word = u.name ++ 0 :: mem) : Stands u (taken ++ [.deregister]) c
  | closed {taken : List Command} {c : Session} (hpc : c.pc = .closed) : Stands u (taken ++ [.deregister]) c

theorem Stands.of_same {u : User} {taken : List Command} {c c' : Session} (h : Stands u taken c)
    (hpc : c'.pc = c.pc) (hword : c'.word = c.word) (hip : c'.ipasstr = c.ipasstr) : Stands u taken c' := by
  cases h with
  | command h hstays => exact .command (hpc.trans h) hstays
  | contains h hstays hname => exact .contains (hpc.trans h) hstays (hword ▸ hname)
  | insert h hstays hname => exact .insert (hpc.trans h) hstays (hword ▸ hname)
  | put h hstays => exact .put (hip ▸ hpc.trans h) hstays
  | list h hstays => exact .list (hpc.trans h) hstays
  | deregister h hname => exact .deregister (hpc.trans h) (hword ▸ hname)
  | remove h hname => exact .remove (hpc.trans h) (hword ▸ hname)
  | closed h => exact .closed (hpc.trans h)

theorem Stands.stays {u : User} {taken : List Command} {c : Session} (h : Stands u taken c)
    (hpc : c.pc = .command) : .deregister ∉ taken := by
  cases h <;> simp_all

theorem Stands.registered {u : User} {taken : List Command} {c : Session} (h : Stands u taken c)
    (hpc : c.pc = .insert) : .register ∈ taken := by
  cases h <;> simp_all

theorem Stands.farewell {u : User} {taken : List Command} {c : Session} (h : Stands u taken c)
    (hpc : c.pc = .remove ∨ c.pc = .closed) : .deregister ∈ taken := by
  cases h <;> simp_all

/-- What one step of a thread does, to which it has read `taken` of the commands and has `pending` before
it. -/
inductive Serves {n : ℕ} (u : User) (s t : Server n) (i : Fin n) :
    List Command → List Command → List Command → List Command → Prop
  | read {taken pending : List Command} {command : Command} (hpc : (s.sessions i).pc = .command)
      (hlist : (t.sessions i).pc = .list ↔ command = .list)
      (hregister : (t.sessions i).pc = .contains ∨ (t.sessions i).pc = .insert → command = .register)
      (hcontains : command = .register → (t.sessions i).pc = .contains)
      (hnext : (t.sessions i).pc ≠ .remove ∧ (t.sessions i).pc ≠ .closed)
      (hmap : t.fileMap = s.fileMap) (hset : t.clientSet = s.clientSet)
      (hwritten : (t.sessions i).written = (s.sessions i).written) :
      Serves u s t i taken (command :: pending) (taken ++ [command]) pending
  | contains {taken pending : List Command} (hpc : (s.sessions i).pc = .contains)
      (hnext : (t.sessions i).pc = .insert) (hmap : t.fileMap = s.fileMap) (hset : t.clientSet = s.clientSet)
      (hwritten : (t.sessions i).written = (s.sessions i).written) :
      Serves u s t i taken pending taken pending
  | insert {taken pending : List Command} (hpc : (s.sessions i).pc = .insert)
      (hnext : (t.sessions i).pc = .command) (hmap : t.fileMap = s.fileMap)
      (hset : ∀ key, t.clientSet.find key = if key = u.name then some () else s.clientSet.find key)
      (hwritten : (t.sessions i).written = (s.sessions i).written) :
      Serves u s t i taken pending taken pending
  | put {taken pending : List Command} {fileName : Bytes} {size : UInt64}
      (hpc : (s.sessions i).pc = .put (u.record fileName size (s.sessions i).ipasstr))
      (hnext : (t.sessions i).pc = .command) (hmem : .newfile fileName size ∈ taken)
      (hmap : ∀ key, t.fileMap.find key = if key = fileName then
        some (u.record fileName size (s.sessions i).ipasstr) else s.fileMap.find key)
      (hset : t.clientSet = s.clientSet) (hwritten : (t.sessions i).written = (s.sessions i).written) :
      Serves u s t i taken pending taken pending
  | list {taken pending : List Command} (hpc : (s.sessions i).pc = .list)
      (hnext : (t.sessions i).pc = .command) (hmap : t.fileMap = s.fileMap) (hset : t.clientSet = s.clientSet)
      (hwritten : (t.sessions i).written = (s.sessions i).written ++ answerOf s.fileMap.elements) :
      Serves u s t i taken pending taken pending
  | deregister {taken pending : List Command} (hpc : (s.sessions i).pc = .deregister)
      (hnext : (t.sessions i).pc = .remove)
      (hmap : ∀ key, t.fileMap.find key = (s.fileMap.find key).filter fun stat => stat.owner ≠ u.name)
      (hset : t.clientSet = s.clientSet) (hwritten : (t.sessions i).written = (s.sessions i).written) :
      Serves u s t i taken pending taken pending
  | remove {taken pending : List Command} (hpc : (s.sessions i).pc = .remove)
      (hnext : (t.sessions i).pc = .closed) (hmap : t.fileMap = s.fileMap)
      (hset : ∀ key, t.clientSet.find key = if key = u.name then none else s.clientSet.find key)
      (hwritten : (t.sessions i).written = (s.sessions i).written) :
      Serves u s t i taken pending taken pending

section Serves

variable {n : ℕ} {u : User} {s t : Server n} {i : Fin n} {taken pending taken' pending' : List Command}

theorem Serves.written_eq (h : Serves u s t i taken pending taken' pending') :
    (t.sessions i).written = (s.sessions i).written ++
      if (s.sessions i).pc = .list then answerOf s.fileMap.elements else [] := by
  cases h <;> simp [*]

theorem Serves.count_list (h : Serves u s t i taken pending taken' pending') :
    pending'.count .list + (if (t.sessions i).pc = .list then 1 else 0) = pending.count .list := by
  cases h with
  | @read _ command hpc hlist =>
      by_cases hcommand : command = .list
      · rw [if_pos (hlist.2 hcommand), hcommand, List.count_cons_self]
      · rw [if_neg fun hpc => hcommand (hlist.1 hpc), List.count_cons_of_ne hcommand, Nat.add_zero]
  | _ => simp [*]

theorem Serves.clientSet_of_ne (h : Serves u s t i taken pending taken' pending') {name : Bytes}
    (hname : name ≠ u.name) : t.clientSet.find name = s.clientSet.find name := by
  cases h with
  | insert hpc hnext hmap hset => rw [hset, if_neg hname]
  | remove hpc hnext hmap hset => rw [hset, if_neg hname]
  | _ => simp [*]

/-- What is listed after a step was listed before it, or is a record that its client has posted. -/
theorem Serves.listed (h : Serves u s t i taken pending taken' pending') {key : Bytes} {stat : FileStat}
    (hkey : t.fileMap.find key = some stat) : s.fileMap.find key = some stat ∨
      ∃ fileName size, .newfile fileName size ∈ taken ∧ stat = u.record fileName size (s.sessions i).ipasstr := by
  cases h with
  | put hpc hnext hmem hmap =>
      rw [hmap] at hkey
      split at hkey
      case isTrue => exact Or.inr ⟨_, _, hmem, (Option.some.inj hkey).symm⟩
      case isFalse => exact Or.inl hkey
  | deregister hpc hnext hmap =>
      rw [hmap, Option.filter_eq_some_iff] at hkey
      exact Or.inl hkey.1
  | read _ _ _ _ _ hmap | contains _ _ hmap | insert _ _ hmap | list _ _ hmap | remove _ _ hmap =>
      exact Or.inl (hmap ▸ hkey)

theorem Serves.present (h : Serves u s t i taken pending taken' pending')
    (hpresent : (∃ key stat, s.fileMap.find key = some stat ∧ stat.owner = u.name) ∨
      (∃ stat, (s.sessions i).pc = .put stat) → s.clientSet.find u.name = some ())
    (hremove : (s.sessions i).pc = .remove → ∀ key stat, s.fileMap.find key = some stat → stat.owner ≠ u.name)
    {key : Bytes} {stat : FileStat} (hkey : t.fileMap.find key = some stat) (howner : stat.owner = u.name) :
    t.clientSet.find u.name = some () := by
  cases h with
  | insert hpc hnext hmap hset => rw [hset, if_pos rfl]
  | put hpc hnext hmem hmap hset =>
      rw [hset]
      exact hpresent (Or.inr ⟨_, hpc⟩)
  | deregister hpc hnext hmap hset =>
      rw [hmap, Option.filter_eq_some_iff] at hkey
      rw [hset]
      exact hpresent (Or.inl ⟨key, stat, hkey.1, howner⟩)
  | remove hpc hnext hmap hset => exact absurd howner (hremove hpc key stat (hmap ▸ hkey))
  | read _ _ _ _ _ hmap hset | contains _ _ hmap hset | list _ _ hmap hset =>
      rw [hset]
      exact hpresent (Or.inl ⟨key, stat, hmap ▸ hkey, howner⟩)

/-- A thread that comes to its end removes the records of its client, and then the name. -/
theorem Serves.leaves (h : Serves u s t i taken pending taken' pending') :
    ((t.sessions i).pc = .remove → ∀ key stat, t.fileMap.find key = some stat → stat.owner ≠ u.name) ∧
      ((t.sessions i).pc = .closed → (s.sessions i).pc = .remove ∧ t.fileMap = s.fileMap ∧
        t.clientSet.find u.name = none) := by
  cases h with
  | read _ _ _ _ hnext => exact ⟨fun hpc => absurd hpc hnext.1, fun hpc => absurd hpc hnext.2⟩
  | deregister hpc hnext hmap =>
      refine ⟨fun _ key stat hkey => ?_, by simp [hnext]⟩
      rw [hmap, Option.filter_eq_some_iff] at hkey
      exact of_decide_eq_true hkey.2
  | remove hpc hnext hmap hset => exact ⟨by simp [hnext], fun _ => ⟨hpc, hmap, by rw [hset, if_pos rfl]⟩⟩
  | contains _ hnext | insert _ hnext | put _ hnext | list _ hnext => simp [hnext]

end Serves

theorem Session.command_written (c : Session) : c.command.written = c.written := by
  rw [Session.command]
  split
  · rfl
  · rw [Session.dispatch]
    split
    · rfl
    · split
      · split
        · rfl
        · split <;> rfl
      · split
        · rfl
        · split <;> rfl

theorem stands_command {u : User} {c : Session} {taken pending : List Command} {command : Command} {more : Bytes}
    (hu : u.Valid) (hordinary : ∀ fileName size, command = .newfile fileName size → Ordinary fileName)
    (hpc : c.pc = .command) (hstays : .deregister ∉ taken)
    (hfile : c.asfile = ⟨u.participant.stream (command :: pending) ++ more, false⟩) :
    Stands u (taken ++ [command]) c.command ∧
      c.command.asfile = ⟨u.participant.stream pending ++ more, false⟩ ∧
      (c.command.pc = .list ↔ command = .list) ∧
      (c.command.pc = .contains ∨ c.command.pc = .insert → command = .register) ∧
      (command = .register → c.command.pc = .contains) ∧
      c.command.pc ≠ .remove ∧ c.command.pc ≠ .closed := by
  have hip := c.command_ipasstr
  rw [Participant.stream, List.flatMap_cons, List.append_assoc] at hfile
  change c.asfile = ⟨u.participant.command command ++ (u.participant.stream pending ++ more), false⟩ at hfile
  cases command with
  | register =>
      obtain ⟨hpc', hrest, hword⟩ := command_register hu.name.word hfile
      exact ⟨.contains hpc' hstays hword, hrest, by simp [hpc'], fun _ => rfl, fun _ => hpc', by simp [hpc']⟩
  | newfile fileName size =>
      obtain ⟨hrest, hpc'⟩ := command_newfile
        (encodable_posted hu.name.word hu.name.colon_notMem (hordinary fileName size rfl).entryName size u.port) hfile hpc
      split at hpc'
      case isTrue =>
        rw [← hip] at hpc'
        exact ⟨.put hpc' hstays, hrest, by simp [hpc'], by simp [hpc'], by simp, by simp [hpc']⟩
      case isFalse =>
        exact ⟨.command hpc' (by simpa using hstays), hrest, by simp [hpc'], by simp [hpc'], by simp, by simp [hpc']⟩
  | list =>
      obtain ⟨hpc', hrest⟩ := command_list hfile
      exact ⟨.list hpc' hstays, hrest, by simp [hpc'], by simp [hpc'], by simp, by simp [hpc']⟩
  | deregister =>
      obtain ⟨hpc', hrest, hword⟩ := command_deregister hu.name.word hfile
      exact ⟨.deregister hpc' hword, hrest, by simp [hpc'], by simp [hpc'], by simp, by simp [hpc']⟩

/-- What one step of the thread does, and where it leaves it. There is `more` behind the commands. -/
structure Served {n : ℕ} (u : User) (s t : Server n) (i : Fin n)
    (taken pending taken' pending' : List Command) (more : Bytes) : Prop where
  serves : Serves u s t i taken pending taken' pending'
  order : taken' ++ pending' = taken ++ pending
  stands : Stands u taken' (t.sessions i)
  asfile : (t.sessions i).asfile = ⟨u.participant.stream pending' ++ more, false⟩
  ipasstr : (t.sessions i).ipasstr = (s.sessions i).ipasstr

theorem session_of_pc {c c' : Session} {pc : Pc} (h : c' = { c with pc := pc }) :
    c'.pc = pc ∧ c'.asfile = c.asfile ∧ c'.ipasstr = c.ipasstr ∧ c'.word = c.word ∧
      c'.written = c.written := by
  subst h
  exact ⟨rfl, rfl, rfl, rfl, rfl⟩

section Step

variable {n : ℕ} {u : User} {s t : Server n} {i : Fin n} {taken pending : List Command} {more : Bytes}

theorem served_of_step (hu : u.Valid)
    (hordinary : ∀ fileName size, .newfile fileName size ∈ taken ++ pending → Ordinary fileName)
    (hstands : Stands u taken (s.sessions i))
    (hfile : (s.sessions i).asfile = ⟨u.participant.stream pending ++ more, false⟩) (hinv : s.RegistryInv)
    (hfree : (s.sessions i).pc = .contains → s.clientSet.find u.name = none)
    (hbusy : (s.sessions i).pc = .command → pending ≠ []) (hstep : s.step i = some t) :
    ∃ taken' pending', Served u s t i taken pending taken' pending' more := by
  have hkey := hu.name.key
  rw [Server.step] at hstep
  cases hstands with
  | command hpc hstays =>
      simp only [hpc, Option.some.injEq] at hstep
      subst hstep
      obtain ⟨command, pending, rfl⟩ := List.exists_cons_of_ne_nil (hbusy hpc)
      obtain ⟨hstands, hrest, hlist, hregister, hcontains, hnext⟩ := stands_command hu
        (fun fileName size heq => hordinary fileName size (by simp [heq])) hpc hstays hfile
      refine ⟨taken ++ [command], pending, ?_, by simp, ?_, ?_, ?_⟩
      · exact .read hpc (by rwa [Server.setSession_self]) (by rwa [Server.setSession_self])
          (by rwa [Server.setSession_self]) (by rwa [Server.setSession_self]) rfl rfl
          (by rw [Server.setSession_self, Session.command_written])
      · rwa [Server.setSession_self]
      · rwa [Server.setSession_self]
      · rw [Server.setSession_self, Session.command_ipasstr]
  | contains hpc hstays hword =>
      obtain ⟨mem, heq⟩ := hword
      have hfound : trieSetContains s.clientSet (s.sessions i).word = some false := by
        rw [trieSetContains, heq, get_of_key _ hkey, hfree hpc]
        rfl
      simp only [hpc, hfound, Option.map_some, Option.some.injEq] at hstep
      subst hstep
      obtain ⟨hnext, hrest, hip, hsame, hwritten⟩ :=
        session_of_pc (s.setSession_self i { s.sessions i with pc := if false then .closed else .insert })
      refine ⟨_, pending, .contains hpc hnext rfl rfl hwritten, rfl, ?_,
        hrest.trans hfile, hip⟩
      exact .insert hnext hstays ⟨mem, hsame.trans heq⟩
  | insert hpc hstays hword =>
      obtain ⟨mem, heq⟩ := hword
      simp only [hpc] at hstep
      obtain ⟨set, hset, rfl⟩ := Option.map_eq_some_iff.1 hstep
      obtain ⟨hnext, hrest, hip, hsame, hwritten⟩ :=
        session_of_pc (s.setSession_self i { s.sessions i with pc := .command })
      have hfind : ∀ key, set.find key = if key = u.name then some () else s.clientSet.find key := by
        intro key
        rw [← keyOf_append hkey, ← heq]
        exact (find_of_put hset).2 key
      exact ⟨_, pending, .insert hpc hnext rfl hfind hwritten, rfl,
        .command hnext (by simpa using hstays), hrest.trans hfile,
        hip⟩
  | put hpc hstays =>
      simp only [hpc] at hstep
      obtain ⟨fileMap, hput, rfl⟩ := Option.map_eq_some_iff.1 hstep
      obtain ⟨hnext, hrest, hip, hsame, hwritten⟩ :=
        session_of_pc (s.setSession_self i { s.sessions i with pc := .command })
      exact ⟨_, pending, .put hpc hnext (by simp) (find_of_putStat (hinv.put i _ hpc).1 hput) rfl
          hwritten, rfl,
        .command hnext (by simpa using hstays), hrest.trans hfile,
        hip⟩
  | list hpc hstays =>
      simp only [hpc, trieIterate_printitr, Option.map_some, Option.some.injEq] at hstep
      subst hstep
      let c : Session := { s.sessions i with
        written := (s.sessions i).written ++ s.fileMap.elements.flatMap writeFileStat ++
          ascii ['E', 'N', 'D', '\n'] }
      obtain ⟨hnext, hrest, hip, -, hwritten⟩ :=
        session_of_pc (c := c) (s.setSession_self i { c with pc := .command })
      exact ⟨_, pending, .list hpc hnext rfl rfl (hwritten.trans (List.append_assoc _ _ _)), rfl,
        .command hnext (by simpa using hstays), hrest.trans hfile, hip⟩
  | deregister hpc hword =>
      obtain ⟨mem, heq⟩ := hword
      simp only [hpc] at hstep
      obtain ⟨fileMap, hiterate, rfl⟩ := Option.map_eq_some_iff.1 hstep
      obtain ⟨hnext, hrest, hip, hsame, hwritten⟩ :=
        session_of_pc (s.setSession_self i { s.sessions i with pc := .remove })
      have hname : cString (s.sessions i).word = u.name := by
        rw [heq, cString_append hu.name.word.zero_notMem]
      rw [hname] at hiterate
      exact ⟨_, pending, .deregister hpc hnext (hinv.filed.of_iterate hiterate).2 rfl
          hwritten, rfl,
        .remove hnext ⟨mem, hsame.trans heq⟩,
        hrest.trans hfile, hip⟩
  | remove hpc hword =>
      obtain ⟨mem, heq⟩ := hword
      simp only [hpc] at hstep
      obtain ⟨set, hset, rfl⟩ := Option.map_eq_some_iff.1 hstep
      obtain ⟨hnext, hrest, hip, hsame, hwritten⟩ :=
        session_of_pc (s.setSession_self i { s.sessions i with pc := .closed })
      have hfind : ∀ key, set.find key = if key = u.name then none else s.clientSet.find key := by
        intro key
        rw [← keyOf_append hkey, ← heq]
        exact (find_of_put hset).2 key
      exact ⟨_, pending, .remove hpc hnext rfl hfind hwritten, rfl, .closed hnext,
        hrest.trans hfile, hip⟩
  | closed hpc =>
      simp only [hpc] at hstep
      cases hstep

/-- A thread that has something to read, or is not about to read, has a step and does not wait. -/
theorem exists_step (hu : u.Valid)
    (hordinary : ∀ fileName size, .newfile fileName size ∈ taken ++ pending → Ordinary fileName)
    (hstands : Stands u taken (s.sessions i))
    (hfile : (s.sessions i).asfile = ⟨u.participant.stream pending ++ more, false⟩) (hinv : s.RegistryInv)
    (hfree : (s.sessions i).pc = .contains → s.clientSet.find u.name = none)
    (hbusy : (s.sessions i).pc = .command → pending ≠ []) (hopen : (s.sessions i).pc ≠ .closed) :
    ∃ t, s.step i = some t ∧ (t.sessions i).asfile.eof = false := by
  have hkey := hu.name.key
  have heof : (s.sessions i).asfile.eof = false := by rw [hfile]
  cases hstands with
  | command hpc hstays =>
      obtain ⟨command, rest, rfl⟩ := List.exists_cons_of_ne_nil (hbusy hpc)
      obtain ⟨t, hstep, hc, -⟩ := step_command rfl hpc
      refine ⟨t, hstep, ?_⟩
      rw [hc, (stands_command hu (fun fileName size heq => hordinary fileName size (by simp [heq])) hpc hstays
        hfile).2.1]
  | contains hpc hstays hword =>
      obtain ⟨mem, hword⟩ := hword
      obtain ⟨t, hstep, hc, -⟩ := step_contains rfl hpc hword hkey (hfree hpc)
      exact ⟨t, hstep, by rw [hc]; exact heof⟩
  | insert hpc hstays hword =>
      obtain ⟨mem, hword⟩ := hword
      obtain ⟨t, hstep, hc, -⟩ := step_insert rfl hpc hword hkey
      exact ⟨t, hstep, by rw [hc]; exact heof⟩
  | @put taken _ fileName size hpc hstays =>
      have hname : Key fileName := (hordinary fileName size (by simp)).key
      obtain ⟨t, hstep, hc, -⟩ := step_put rfl hpc hname
      exact ⟨t, hstep, by rw [hc]; exact heof⟩
  | list hpc hstays =>
      rw [Server.step]
      simp only [hpc, trieIterate_printitr, Option.map_some]
      exact ⟨_, rfl, by rw [Server.setSession_self]; exact heof⟩
  | deregister hpc hword =>
      obtain ⟨t, hstep, hc, -⟩ := step_deregister hinv rfl hpc
      exact ⟨t, hstep, by rw [hc]; exact heof⟩
  | remove hpc hword =>
      obtain ⟨mem, hword⟩ := hword
      obtain ⟨t, hstep, hc, -⟩ := step_remove rfl hpc hword hkey
      exact ⟨t, hstep, by rw [hc]; exact heof⟩
  | closed hpc => exact absurd hpc hopen

end Step

/-! ### The client at the server -/

/-- Commands that register at most first, and post files with ordinary names. -/
structure Orderly (commands : List Command) : Prop where
  first : ∀ front rest, commands = front ++ .register :: rest → front = []
  ordinary : ∀ fileName size, .newfile fileName size ∈ commands → Ordinary fileName

theorem User.Valid.orderly {u : User} (h : u.Valid) : Orderly u.script where
  first _ _ := register_of_script
  ordinary _ _ := h.ordinary

theorem Orderly.of_append {commands rest : List Command} (h : Orderly (commands ++ rest)) : Orderly commands where
  first front back heq := h.first front (back ++ rest) (by rw [heq, List.append_assoc, List.cons_append])
  ordinary fileName size hmem := h.ordinary fileName size (List.mem_append_left _ hmem)

/-- A client at the server. Its thread has read `taken`, and has `pending` and then `more` before it. The
client's name is in the set from the registration to the farewell, and at the end no record of the client is
listed. -/
structure Thread {n : ℕ} (u : User) (s : Server n) (i : Fin n) (taken pending : List Command) (more : Bytes) :
    Prop where
  stands : Stands u taken (s.sessions i)
  asfile : (s.sessions i).asfile = ⟨u.participant.stream pending ++ more, false⟩
  free : .register ∉ taken ∨ (s.sessions i).pc = .contains ∨ (s.sessions i).pc = .insert →
    s.clientSet.find u.name = none
  registered : .register ∈ taken → (s.sessions i).pc ≠ .contains → (s.sessions i).pc ≠ .insert →
    (s.sessions i).pc ≠ .closed → s.clientSet.find u.name = some ()
  gone : (s.sessions i).pc = .remove ∨ (s.sessions i).pc = .closed →
    ∀ key stat, s.fileMap.find key = some stat → stat.owner ≠ u.name
  absent : (s.sessions i).pc = .closed → s.clientSet.find u.name = none

namespace Thread

variable {n : ℕ} {u : User} {s t : Server n} {i : Fin n} {taken pending : List Command} {more : Bytes}

theorem initial {bytes ipasstr : Fin n → Bytes} (hbytes : bytes i = u.participant.stream pending ++ more) :
    Thread u (.initial bytes ipasstr) i [] pending more where
  stands := .command rfl (by simp)
  asfile := by rw [← hbytes]; rfl
  free _ := TrieT.find_zeroed _
  registered h := by cases h
  gone _ key stat h := by cases (TrieT.find_zeroed key).symm.trans h
  absent _ := TrieT.find_zeroed _

theorem step (h : Thread u s i taken pending more) (hu : u.Valid) (horderly : Orderly (taken ++ pending))
    (hinv : s.RegistryInv) (hbusy : (s.sessions i).pc = .command → pending ≠ []) (hstep : s.step i = some t) :
    ∃ taken' pending', Served u s t i taken pending taken' pending' more ∧ Thread u t i taken' pending' more := by
  obtain ⟨taken', pending', hserved⟩ := served_of_step hu horderly.ordinary h.stands h.asfile hinv
    (fun hpc => h.free (Or.inr (Or.inl hpc))) hbusy hstep
  refine ⟨taken', pending', hserved, ?_⟩
  constructor
  case stands => exact hserved.stands
  case asfile => exact hserved.asfile
  case free =>
    intro hcase
    cases hserved.serves with
    | read hpc hlist hregister hcontains hother hmap hset =>
        rw [hset]
        refine h.free (Or.inl fun hmem => ?_)
        rcases hcase with hnot | hnext
        · exact hnot (List.mem_append_left _ hmem)
        · have hfirst := horderly.first taken pending' (by rw [hregister hnext])
          rw [hfirst] at hmem
          cases hmem
    | contains hpc hnext hmap hset =>
        rw [hset]
        exact h.free (Or.inr (Or.inl hpc))
    | insert hpc hnext =>
        refine absurd (h.stands.registered hpc) ?_
        simpa [hnext] using hcase
    | put hpc hnext hmem hmap hset | list hpc hnext hmap hset | deregister hpc hnext hmap hset =>
        rw [hset]
        exact h.free (Or.inl (by simpa [hnext] using hcase))
    | remove hpc hnext hmap hset => rw [hset, if_pos rfl]
  case registered =>
    intro hmem hcontains hinsert hclosed
    cases hserved.serves with
    | read hpc hlist hregister hfirst hother hmap hset =>
        rw [hset]
        rcases List.mem_append.1 hmem with hmem | hmem
        · exact h.registered hmem (by simp [hpc]) (by simp [hpc]) (by simp [hpc])
        · exact absurd (hfirst (List.mem_singleton.1 hmem).symm) hcontains
    | contains hpc hnext => exact absurd hnext hinsert
    | insert hpc hnext hmap hset => rw [hset, if_pos rfl]
    | put hpc hnext hposted hmap hset | list hpc hnext hmap hset | deregister hpc hnext hmap hset =>
        rw [hset]
        exact h.registered hmem (by simp [hpc]) (by simp [hpc]) (by simp [hpc])
    | remove hpc hnext => exact absurd hnext hclosed
  case gone =>
    intro hpc key stat hkey
    rcases hpc with hpc | hpc
    · exact hserved.serves.leaves.1 hpc key stat hkey
    · obtain ⟨hold, hmap, -⟩ := hserved.serves.leaves.2 hpc
      exact h.gone (Or.inl hold) key stat (hmap ▸ hkey)
  case absent => exact fun hpc => (hserved.serves.leaves.2 hpc).2.2

/-- What others do leaves the client as it is, if they do not post its records. -/
theorem frame (h : Thread u s i taken pending more) (hsession : t.sessions i = s.sessions i)
    (hset : t.clientSet.find u.name = s.clientSet.find u.name)
    (hmap : ∀ key stat, t.fileMap.find key = some stat → stat.owner = u.name → s.fileMap.find key = some stat) :
    Thread u t i taken pending more where
  stands := hsession ▸ h.stands
  asfile := hsession ▸ h.asfile
  free := by
    rw [hsession, hset]
    exact h.free
  registered := by
    rw [hsession, hset]
    exact h.registered
  gone hpc key stat hkey howner := h.gone (hsession ▸ hpc) key stat (hmap key stat hkey howner) howner
  absent hpc := by
    rw [hset]
    exact h.absent (hsession ▸ hpc)

theorem receive (h : Thread u s i taken pending []) (commands : List Command) :
    Thread u (s.setSession i ((s.sessions i).receive (u.participant.stream commands))) i taken
      (pending ++ commands) [] := by
  have hsession := s.setSession_self i ((s.sessions i).receive (u.participant.stream commands))
  constructor
  case stands =>
    rw [hsession]
    exact h.stands.of_same rfl rfl rfl
  case asfile =>
    rw [hsession, Session.receive, h.asfile, List.append_nil, List.append_nil, Participant.stream,
      Participant.stream, Participant.stream, List.flatMap_append]
    rfl
  all_goals rw [hsession]
  case free => exact h.free
  case registered => exact h.registered
  case gone => exact h.gone
  case absent => exact h.absent

end Thread

end NetworkSystems.FileShare
