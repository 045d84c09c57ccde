import NetworkSystems.FileShare.ClientSession
import NetworkSystems.FileShare.FileMap

/-!
# Departures

Many clients post files and leave. A name is bound to the record of the client that posted it last, and
`DEREGISTER` removes the records of one owner, so a name stays in the file map as long as its last poster
does.
-/

namespace NetworkSystems.FileShare

/-! ### Clients -/

/-- A command that a client sends. -/
inductive Command
  | register
  | newfile (fileName : Bytes) (size : UInt64)
  | list
  | deregister
  deriving DecidableEq

/-- A client: its name, the port of its listener, and the commands of its session. -/
structure Participant where
  name : Bytes
  port : UInt16
  commands : List Command

def Participant.command (p : Participant) : Command → Bytes
  | .register => initState p.name
  | .newfile fileName size => writeStats p.name p.port fileName size
  | .list => ascii ['L', 'I', 'S', 'T', '\n']
  | .deregister => exitClient p.name

def Participant.stream (p : Participant) (commands : List Command) : Bytes :=
  commands.flatMap p.command

/-- The name is a word, and the records are within the limits of the codec. -/
structure Participant.Valid (p : Participant) : Prop where
  name : Word p.name
  record : ∀ fileName size, .newfile fileName size ∈ p.commands →
    FileStat.Encodable ⟨fileName, size, p.name, [], p.port⟩

/-! ### The session of a client -/

def connected {n : Nat} (clients : Fin n → Participant) (ipasstr : Fin n → Bytes) : Server n :=
  .initial (fun i => (clients i).stream (clients i).commands) ipasstr

/-- The connection has still some of the client's commands to read, puts records of the client, and
deregisters the client. -/
structure Session.Follows (c : Session) (p : Participant) : Prop where
  asfile : c.asfile = ⟨[], true⟩ ∨
    ∃ commands, commands ⊆ p.commands ∧ c.asfile = ⟨p.stream commands, false⟩
  put : ∀ stat, c.pc = .put stat → stat.owner = p.name
  deregister : c.pc = .deregister → cString c.word = p.name

section Step

variable {c : Session} {p : Participant}

theorem Session.Follows.of_asfile {pc : Pc} (hpc : c.pc = pc) (hput : ∀ stat, pc ≠ .put stat)
    (hderegister : pc ≠ .deregister) (hasfile : c.asfile = ⟨[], true⟩ ∨
      ∃ commands, commands ⊆ p.commands ∧ c.asfile = ⟨p.stream commands, false⟩) : c.Follows p where
  asfile := hasfile
  put stat h := absurd (hpc.symm.trans h) (hput stat)
  deregister h := absurd (hpc.symm.trans h) hderegister

theorem Session.Follows.command (h : c.Follows p) (hp : p.Valid) (hpc : c.pc = .command) :
    c.command.Follows p := by
  rcases h.asfile with hend | ⟨commands, hcommands, hfile⟩
  · have hcommand : c.command = { c with pc := .closed } := by
      rw [Session.command, hend, if_pos rfl]
    rw [hcommand]
    exact .of_asfile rfl (by simp) (by simp) (Or.inl hend)
  · cases commands with
    | nil =>
        obtain ⟨hpc', hend⟩ := command_end hfile
        exact .of_asfile (hpc'.trans hpc) (by simp) (by simp) (Or.inl hend)
    | cons command commands =>
        obtain ⟨hcommand, hrest⟩ := List.cons_subset.1 hcommands
        rw [Participant.stream, List.flatMap_cons] at hfile
        change c.asfile = ⟨p.command command ++ p.stream commands, false⟩ at hfile
        cases command with
        | register =>
            obtain ⟨hpc', hnext, -⟩ := command_register hp.name hfile
            exact .of_asfile hpc' (by simp) (by simp) (Or.inr ⟨commands, hrest, hnext⟩)
        | newfile fileName size =>
            obtain ⟨hnext, hpc'⟩ := command_newfile (hp.record fileName size hcommand) hfile hpc
            refine ⟨Or.inr ⟨commands, hrest, hnext⟩, fun stat hput => ?_, fun hput => ?_⟩
            · rw [hpc'] at hput
              split at hput
              case isTrue => rw [← Pc.put.inj hput]
              case isFalse => cases hput
            · rw [hpc'] at hput
              split at hput <;> cases hput
        | list =>
            obtain ⟨hpc', hnext⟩ := command_list hfile
            exact .of_asfile hpc' (by simp) (by simp) (Or.inr ⟨commands, hrest, hnext⟩)
        | deregister =>
            obtain ⟨hpc', hnext, mem, hword⟩ := command_deregister hp.name hfile
            refine ⟨Or.inr ⟨commands, hrest, hnext⟩, fun stat hput => ?_, fun _ => ?_⟩
            · cases hpc'.symm.trans hput
            · rw [hword, cString_append hp.name.zero_notMem]

variable {n : Nat} {clients : Fin n → Participant} {s next : Server n} {i : Fin n}

theorem follows_initial (ipasstr : Fin n → Bytes) (i : Fin n) :
    ((connected clients ipasstr).sessions i).Follows (clients i) where
  asfile := Or.inr ⟨(clients i).commands, List.Subset.refl _, rfl⟩
  put stat hpc := by cases hpc
  deregister hpc := by cases hpc

/-- Every connection goes on serving its own client. -/
theorem Server.follows_step (hclients : ∀ i, (clients i).Valid)
    (h : ∀ i, (s.sessions i).Follows (clients i)) (hstep : s.step i = some next) :
    ∀ j, (next.sessions j).Follows (clients j) := by
  intro j
  by_cases hji : j = i
  · subst hji
    rcases (Server.step_moves hstep).sessions_self with ⟨hpc, hself⟩ | ⟨hasfile, hput, hderegister⟩
    · rw [hself]
      exact (h j).command (hclients j) hpc
    · exact .of_asfile rfl hput hderegister (hasfile ▸ (h j).asfile)
  · rw [(Server.step_moves hstep).sessions_of_ne hji]
    exact h j

end Step

/-! ### What has happened -/

/-- The operations on the file map in the order in which they took place, each with its connection. -/
def history {n : Nat} (s : Server n) (schedule : List (Fin n)) : List (Fin n × MapOp) :=
  (server n).trace (fun s i => (s.ops i).map (Prod.mk i)) s schedule

theorem history_map_snd {n : Nat} (s : Server n) (schedule : List (Fin n)) :
    (history s schedule).map Prod.snd = (server n).trace Server.ops s schedule := by
  rw [history, Machine.map_trace]
  congr 1
  funext s i
  rw [List.map_map]
  exact List.map_id _

section History

variable {n : Nat} (ops : List (Fin n × MapOp)) (i : Fin n) (fileName : Bytes)

def Posted : Prop := ∃ stat, stat.fileName = fileName ∧ (i, .newfile stat) ∈ ops

def Departed : Prop := ∃ name, (i, .deregister name) ∈ ops

/-- The last post of the file name is by connection `i`. -/
def PostedLast : Prop :=
  ∃ before stat after, ops = before ++ (i, .newfile stat) :: after ∧ stat.fileName = fileName ∧
    ∀ j stat', (j, .newfile stat') ∈ after → stat'.fileName ≠ fileName

variable {ops i fileName}

theorem exists_postedLast (h : Posted ops i fileName) : ∃ j, PostedLast ops j fileName := by
  induction ops generalizing i with
  | nil =>
      obtain ⟨stat, -, hmem⟩ := h
      cases hmem
  | cons op ops ih =>
      by_cases hlater : ∃ j, Posted ops j fileName
      · obtain ⟨j, hposted⟩ := hlater
        obtain ⟨k, before, stat, after, rfl, hname, hafter⟩ := ih hposted
        exact ⟨k, op :: before, stat, after, rfl, hname, hafter⟩
      · obtain ⟨stat, hname, hmem⟩ := h
        rcases List.mem_cons.1 hmem with rfl | hmem
        · exact ⟨i, [], stat, ops, rfl, hname, fun j stat' hmem' hname' =>
            hlater ⟨j, stat', hname', hmem'⟩⟩
        · exact absurd ⟨i, stat, hname, hmem⟩ hlater

end History

/-- A binding stays under operations that neither post its name nor deregister its owner. -/
theorem fileMapMachine_keeps {m m' : FileMap} {ops : List MapOp} {key : Bytes} {stat : FileStat}
    (hkey : m key = some stat) (hnewfile : ∀ stat', .newfile stat' ∈ ops → stat'.fileName ≠ key)
    (hderegister : .deregister stat.owner ∉ ops) (hrun : fileMapMachine.run m ops = some m') :
    m' key = some stat := by
  refine fileMapMachine.invariant_of_within (I := fun m => m key = some stat)
    (C := fun _ op => (∀ stat', op = .newfile stat' → stat'.fileName ≠ key) ∧ op ≠ .deregister stat.owner)
    (fun m op next hm hop hstep => ?_) hkey (fileMapMachine.within_of_forall (fun op hop _ => ?_) m) hrun
  · cases op with
    | newfile stat' =>
        obtain rfl := Option.some.inj hstep
        rw [Function.update_of_ne (hop.1 stat' rfl).symm]
        exact hm
    | list elements =>
        rw [fileMapMachine_list_some hstep]
        exact hm
    | deregister name =>
        obtain rfl := Option.some.inj hstep
        have howner : stat.owner ≠ name := fun heq => hop.2 (by rw [heq])
        change (m key).filter (fun stat => decide (stat.owner ≠ name)) = some stat
        rw [hm, Option.filter_some_pos (by simpa using howner)]
  · exact ⟨fun stat' heq => hnewfile stat' (heq ▸ hop), fun heq => hderegister (heq ▸ hop)⟩

theorem run_history {n : Nat} {clients : Fin n → Participant} {ipasstr : Fin n → Bytes}
    {schedule : List (Fin n)} {s : Server n}
    (hrun : (server n).run (connected clients ipasstr) schedule = some s) :
    fileMapMachine.run (fun _ => none) ((history (connected clients ipasstr) schedule).map Prod.snd) =
      some s.fileMap.find := by
  have hempty : (connected clients ipasstr).fileMap.find = fun _ => none :=
    funext fun key => TrieT.find_zeroed key
  obtain ⟨m, hm, -, rfl⟩ := (server_simulates n).run ⟨registryInv_initial _ ipasstr, hempty⟩ hrun
  rw [history_map_snd]
  exact hm

section Clients

variable {n : Nat} {clients : Fin n → Participant} {s : Server n}

theorem owner_of_history (hclients : ∀ i, (clients i).Valid) (ipasstr : Fin n → Bytes)
    (schedule : List (Fin n)) :
    ∀ op ∈ history (connected clients ipasstr) schedule,
      (∀ stat, op.2 = .newfile stat → stat.owner = (clients op.1).name) ∧
        ∀ name, op.2 = .deregister name → name = (clients op.1).name := by
  refine (server n).forall_mem_trace (I := fun s => ∀ i, (s.sessions i).Follows (clients i))
    (fun _ _ _ h hstep => Server.follows_step hclients h hstep) (fun s i h op hop => ?_)
    (follows_initial ipasstr) schedule
  obtain ⟨op', hop', rfl⟩ := List.mem_map.1 hop
  rw [Server.ops] at hop'
  split at hop'
  case h_1 stat hpc =>
    obtain rfl := List.mem_singleton.1 hop'
    exact ⟨fun stat' heq => MapOp.newfile.inj heq ▸ (h i).put stat hpc, by simp⟩
  case h_2 =>
    obtain rfl := List.mem_singleton.1 hop'
    exact ⟨by simp, by simp⟩
  case h_3 hpc =>
    obtain rfl := List.mem_singleton.1 hop'
    exact ⟨by simp, fun name heq => MapOp.deregister.inj heq ▸ (h i).deregister hpc⟩
  case h_4 => cases hop'

/-- **A departure unlists no file of another client** unless the one who leaves has posted its name last:
the name of a file that some client has posted stays in the file map while that client and the last poster
of the name are there. -/
theorem listed_of_lastPoster (clients : Fin n → Participant) (ipasstr : Fin n → Bytes)
    (schedule : List (Fin n)) (hnames : Function.Injective fun i => (clients i).name)
    (hclients : ∀ i, (clients i).Valid)
    (hrun : (server n).run (connected clients ipasstr) schedule = some s) (i : Fin n) (fileName : Bytes)
    (hposted : Posted (history (connected clients ipasstr) schedule) i fileName)
    (hstays : ¬ Departed (history (connected clients ipasstr) schedule) i)
    (hlast : ∀ j, j ≠ i → PostedLast (history (connected clients ipasstr) schedule) j fileName →
      ¬ Departed (history (connected clients ipasstr) schedule) j) :
    ∃ stat, s.fileMap.find fileName = some stat := by
  have howner := owner_of_history hclients ipasstr schedule
  have hm := run_history hrun
  revert howner hm hposted hstays hlast
  generalize history (connected clients ipasstr) schedule = ops
  intro hposted hstays hlast howner hm
  obtain ⟨j, hpostedLast⟩ := exists_postedLast hposted
  have hthere : ¬ Departed ops j := by
    by_cases hji : j = i
    · exact hji ▸ hstays
    · exact hlast j hji hpostedLast
  obtain ⟨before, stat, after, rfl, rfl, hafter⟩ := hpostedLast
  have hstat : stat.owner = (clients j).name := (howner (j, .newfile stat) (by simp)).1 stat rfl
  rw [List.map_append, List.map_cons, Machine.run_append] at hm
  obtain ⟨mid, -, hrest⟩ := Option.bind_eq_some_iff.1 hm
  obtain ⟨bound, hbound, hrest⟩ := fileMapMachine.run_cons_eq_some.1 hrest
  obtain rfl := Option.some.inj hbound
  refine ⟨stat, fileMapMachine_keeps (Function.update_self _ _ _) (fun stat' hmem => ?_) (fun hmem => ?_)
    hrest⟩
  · obtain ⟨⟨k, op⟩, hop, rfl⟩ := List.mem_map.1 hmem
    exact hafter k stat' hop
  · obtain ⟨⟨k, op⟩, hop, heq⟩ := List.mem_map.1 hmem
    obtain rfl : op = .deregister stat.owner := heq
    have hk : stat.owner = (clients k).name := (howner (k, .deregister stat.owner) (by simp [hop])).2 _ rfl
    obtain rfl : k = j := hnames (hk.symm.trans hstat)
    exact hthere ⟨stat.owner, by simp [hop]⟩

end Clients

/-- A client that registers, posts a file `x`, and may deregister. -/
def posting (name : Bytes) (rest : List Command) : Participant :=
  ⟨name, 80, .register :: .newfile (ascii ['x']) 5 :: rest⟩

theorem valid_posting {name : Bytes} (hname : Plain name) {rest : List Command}
    (hrest : ∀ fileName size, .newfile fileName size ∉ rest) : (posting name rest).Valid where
  name := hname.word
  record fileName size hmem := by
    have hx : fileName = ascii ['x'] := by
      simp only [posting, List.mem_cons, reduceCtorEq, Command.newfile.injEq, false_or] at hmem
      exact hmem.elim And.left fun h => absurd h (hrest fileName size)
    subst hx
    exact encodable_posted hname.word hname.colon_notMem (by decide +kernel) size 80

def posters (i : Fin 2) : Participant :=
  if i = 0 then posting (ascii ['a']) [] else posting (ascii ['b']) [.deregister]

theorem posters_names : Function.Injective fun i => (posters i).name := by
  intro i j
  revert i j
  decide

theorem posters_valid (i : Fin 2) : (posters i).Valid := by
  match i with
  | 0 => exact valid_posting (by decide +kernel) nofun
  | 1 => exact valid_posting (by decide +kernel) (by simp)

/-- The client that leaves posts `x` first, and the other one after it. -/
theorem listed_of_lastPoster_overtaken : ∃ s,
    (server 2).run (connected posters fun _ => []) [1, 1, 1, 1, 1, 0, 0, 0, 0, 0, 1, 1, 1] = some s ∧
      Event.deregistered 1 (posters 1).name ∈ s.log ∧ ∃ stat, s.fileMap.find (ascii ['x']) = some stat := by
  have hend : ((server 2).run (connected posters fun _ => []) [1, 1, 1, 1, 1, 0, 0, 0, 0, 0, 1, 1, 1]).map
      (fun s => decide (Event.deregistered 1 (posters 1).name ∈ s.log)) = some true := by decide +kernel
  obtain ⟨s, hrun, hleft⟩ := Option.map_eq_some_iff.1 hend
  have hops : history (connected posters fun _ => []) [1, 1, 1, 1, 1, 0, 0, 0, 0, 0, 1, 1, 1] =
      [(1, .newfile ⟨ascii ['x'], 5, ascii ['b'], [], 80⟩),
        (0, .newfile ⟨ascii ['x'], 5, ascii ['a'], [], 80⟩), (1, .deregister (ascii ['b']))] := by
    decide +kernel
  refine ⟨s, hrun, of_decide_eq_true hleft, listed_of_lastPoster posters (fun _ => [])
    [1, 1, 1, 1, 1, 0, 0, 0, 0, 0, 1, 1, 1] posters_names posters_valid hrun 0 (ascii ['x']) ?_ ?_ ?_⟩
  · rw [hops]
    exact ⟨⟨ascii ['x'], 5, ascii ['a'], [], 80⟩, rfl, by simp⟩
  · rw [hops]
    rintro ⟨name, hmem⟩
    simp at hmem
  · rw [hops]
    rintro j hj ⟨before, stat, after, heq, -, hafter⟩ -
    -- behind the post of `b` there is that of `a`
    match before with
    | [] =>
        rw [← (List.cons.inj heq).2] at hafter
        exact hafter 0 ⟨ascii ['x'], 5, ascii ['a'], [], 80⟩ List.mem_cons_self rfl
    | [_] => exact hj (congrArg Prod.fst (List.cons.inj (List.cons.inj heq).2).1).symm
    | [_, _] => cases congrArg Prod.snd (List.cons.inj (List.cons.inj (List.cons.inj heq).2).2).1
    | _ :: _ :: _ :: _ => cases (List.append_ne_nil_of_right_ne_nil _ (List.cons_ne_nil _ _)
        (List.cons.inj (List.cons.inj (List.cons.inj heq).2).2).2.symm)

/-- When the client that leaves has posted `x` after the other one, it is not listed any more. -/
theorem not_listed : ¬ ∀ (n : Nat) (clients : Fin n → Participant) (ipasstr : Fin n → Bytes)
    (schedule : List (Fin n)) (s : Server n), (Function.Injective fun i => (clients i).name) →
      (∀ i, (clients i).Valid) →
      (∀ i fileName size, .newfile fileName size ∈ (clients i).commands → fileName ≠ [] ∧
        (∀ ch ∈ fileName, ch < 0x80) ∧ fileName ≠ ascii ['.'] ∧ fileName ≠ ascii ['.', '.']) →
      (server n).run (connected clients ipasstr) schedule = some s →
      ∀ (i : Fin n) (fileName : Bytes), .registered i (clients i).name ∈ s.log →
        Posted (history (connected clients ipasstr) schedule) i fileName →
        ¬ Departed (history (connected clients ipasstr) schedule) i →
        ∃ stat, s.fileMap.find fileName = some stat := by
  intro hclaim
  have hend : ((server 2).run (connected posters fun _ => []) [0, 0, 0, 0, 0, 1, 1, 1, 1, 1, 1, 1]).map
      (fun s => (decide (Event.registered 0 (posters 0).name ∈ s.log), s.fileMap.find (ascii ['x']))) =
        some (true, none) := by decide +kernel
  obtain ⟨s, hrun, heq⟩ := Option.map_eq_some_iff.1 hend
  rw [Prod.mk.injEq, decide_eq_true_eq] at heq
  have hops : history (connected posters fun _ => []) [0, 0, 0, 0, 0, 1, 1, 1, 1, 1, 1, 1] =
      [(0, .newfile ⟨ascii ['x'], 5, ascii ['a'], [], 80⟩),
        (1, .newfile ⟨ascii ['x'], 5, ascii ['b'], [], 80⟩), (1, .deregister (ascii ['b']))] := by
    decide +kernel
  have hfiles : ∀ i fileName size, .newfile fileName size ∈ (posters i).commands → fileName ≠ [] ∧
      (∀ ch ∈ fileName, ch < 0x80) ∧ fileName ≠ ascii ['.'] ∧ fileName ≠ ascii ['.', '.'] := by
    intro i fileName size hmem
    have hx : fileName = ascii ['x'] := by
      match i with
      | 0 => exact (show fileName = ascii ['x'] ∧ size = 5 by simpa [posters, posting] using hmem).1
      | 1 => exact (show fileName = ascii ['x'] ∧ size = 5 by simpa [posters, posting] using hmem).1
    subst hx
    decide +kernel
  obtain ⟨stat, hstat⟩ := hclaim 2 posters (fun _ => []) _ s posters_names posters_valid hfiles hrun 0 (ascii ['x'])
    heq.1 ⟨_, rfl, by rw [hops]; exact List.mem_cons_self⟩ (by
      rw [hops]
      rintro ⟨name, hmem⟩
      simp at hmem)
  rw [heq.2] at hstat
  cases hstat

end NetworkSystems.FileShare
