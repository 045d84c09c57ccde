import NetworkSystems.FileShare.Listing

/-!
# The client's file table

`list_files` puts the records of an answer into `cli->files`, and `get` looks names up there. Nothing
is ever removed from the table, so a name that the server has dropped since it was listed stays.
-/

namespace NetworkSystems.FileShare

/-- A client with the server's file map. -/
structure Client where
  fileMap : TrieT FileStat
  files : TrieT FileStat
  asFile : File

inductive ClientAction
  | newfile (stat : FileStat)
  | deregister (name : Bytes)
  | ls
  deriving DecidableEq

namespace Client

def initial : Client := ⟨.zeroed, .zeroed, ⟨[], false⟩⟩

/-- Other clients change the server's map, and this client asks for the list. -/
def step (cli : Client) : ClientAction → Option Client
  | .newfile tmp =>
      if tmp.fileName ≠ ascii ['.'] ∧ tmp.fileName ≠ ascii ['.', '.'] then
        (triePut cli.fileMap (tmp.fileName ++ [0]) (some tmp)).map fun fileMap =>
          { cli with fileMap := fileMap }
      else some cli
  | .deregister name =>
      (trieIterate id (deregisterItr name) cli.fileMap).map fun fileMap => { cli with fileMap := fileMap }
  | .ls =>
      (listAnswer cli.fileMap).bind fun answer =>
        (listFiles cli.files ⟨cli.asFile.bytes ++ answer, cli.asFile.eof⟩).map fun result =>
          { cli with files := result.1, asFile := result.2.2 }

end Client

def clientMachine : Machine Client ClientAction := ⟨Client.step⟩

/-- What `get` finds in the client's table is what the server's map holds, under every name. -/
def Client.Refreshed (cli : Client) : Prop :=
  ∀ name, Key name → trieGet cli.files (name ++ [0]) = some (cli.fileMap.find name)

def Client.Unstale (cli : Client) : Prop :=
  ∀ name, Key name → cli.files.find name ≠ none → cli.fileMap.find name ≠ none

/-- A record that is posted in the run: within the lengths of the codec, and with a name that the trie
can walk. -/
def Postable (stat : FileStat) : Prop := stat.Encodable ∧ Key stat.fileName

structure Client.Inv (cli : Client) : Prop where
  filed : Filed cli.fileMap
  postable : ∀ key stat, cli.fileMap.find key = some stat → Postable stat
  asFile : cli.asFile = ⟨[], false⟩

def Posts (_ : Client) (a : ClientAction) : Prop := ∀ stat, a = .newfile stat → Postable stat

namespace Client

variable {cli next : Client}

theorem inv_initial : initial.Inv where
  filed := filed_zeroed
  postable key stat h := by
    rw [show initial.fileMap.find key = none from TrieT.find_zeroed key] at h
    cases h
  asFile := rfl

/-- `ls` never fails. It puts the server's records over the table. -/
theorem Inv.ls (h : cli.Inv) :
    ∃ next, cli.step .ls = some next ∧ next.fileMap = cli.fileMap ∧ next.asFile = ⟨[], false⟩ ∧
      ∀ name, next.files.find name = (cli.fileMap.find name).or (cli.files.find name) := by
  have hsent : ∀ stat ∈ cli.fileMap.elements,
      stat.Readable ∧ Key stat.fileName ∧ stat.line.length ≤ 2047 := by
    intro stat hstat
    obtain ⟨key, hkey⟩ := mem_elements.1 hstat
    obtain ⟨hencodable, hname⟩ := h.postable key stat hkey
    exact ⟨hencodable.readable, hname, hencodable.line⟩
  obtain ⟨files, hlist, hfind⟩ := listFiles_answer hsent cli.files []
  refine ⟨{ cli with files := files, asFile := ⟨[], false⟩ }, ?_, rfl, rfl, fun name => ?_⟩
  · rw [List.append_nil] at hlist
    rw [step, listAnswer_eq, Option.bind_some, h.asFile, List.nil_append, hlist]
    rfl
  · change files.find name = _
    rw [hfind, FileMap.puts_of_lists h.filed.lists]

theorem refreshed_iff :
    cli.Refreshed ↔ ∀ name, Key name → cli.files.find name = cli.fileMap.find name := by
  refine forall₂_congr fun name hname => ?_
  rw [get_of_key cli.files hname, Option.some.injEq]

theorem Inv.ls_refreshed_iff (h : cli.Inv) (hstep : cli.step .ls = some next) :
    next.Refreshed ↔ cli.Unstale := by
  obtain ⟨next', hstep', hmap, -, hfind⟩ := h.ls
  obtain rfl := Option.some.inj (hstep'.symm.trans hstep)
  rw [refreshed_iff]
  refine forall₂_congr fun name _ => ?_
  rw [hfind, hmap]
  cases cli.fileMap.find name <;> simp

theorem step_newfile {tmp : FileStat} (htmp : Postable tmp)
    (hdots : tmp.fileName ≠ ascii ['.'] ∧ tmp.fileName ≠ ascii ['.', '.'])
    (hstep : cli.step (.newfile tmp) = some next) :
    next.files = cli.files ∧ ∀ key, next.fileMap.find key =
      if key = tmp.fileName then some tmp else cli.fileMap.find key := by
  rw [Client.step, if_pos hdots] at hstep
  obtain ⟨fileMap, hput, rfl⟩ := Option.map_eq_some_iff.1 hstep
  exact ⟨rfl, find_of_putStat (fun hmem => (htmp.1.fileName.2 _ hmem).2.2 rfl) hput⟩

theorem Inv.step (h : cli.Inv) {a : ClientAction} (hposts : Posts cli a) (hstep : cli.step a = some next) :
    next.Inv := by
  cases a with
  | newfile tmp =>
      obtain ⟨hencodable, hkey⟩ := hposts tmp rfl
      rw [Client.step] at hstep
      split at hstep
      case isTrue hdots =>
        obtain ⟨fileMap, hput, rfl⟩ := Option.map_eq_some_iff.1 hstep
        have hname : (0 : UInt8) ∉ tmp.fileName := fun hmem => (hencodable.fileName.2 _ hmem).2.2 rfl
        refine ⟨h.filed.put hname hdots hput, fun key stat hstat => ?_, h.asFile⟩
        change fileMap.find key = some stat at hstat
        rw [find_of_putStat hname hput] at hstat
        split at hstat
        case isTrue => exact Option.some.inj hstat ▸ ⟨hencodable, hkey⟩
        case isFalse => exact h.postable key stat hstat
      case isFalse => exact Option.some.inj hstep ▸ h
  | deregister name =>
      rw [Client.step] at hstep
      obtain ⟨fileMap, hiterate, rfl⟩ := Option.map_eq_some_iff.1 hstep
      obtain ⟨hfiled, hfind⟩ := h.filed.of_iterate hiterate
      refine ⟨hfiled, fun key stat hstat => ?_, h.asFile⟩
      exact h.postable key stat (Option.filter_eq_some_iff.1 ((hfind key).symm.trans hstat)).1
  | ls =>
      obtain ⟨next', hstep', hmap, hasFile, -⟩ := h.ls
      obtain rfl := Option.some.inj (hstep'.symm.trans hstep)
      exact ⟨hmap ▸ h.filed, hmap ▸ h.postable, hasFile⟩

theorem Inv.step_isSome (h : cli.Inv) {a : ClientAction} (hposts : Posts cli a) :
    ∃ next, cli.step a = some next := by
  cases a with
  | newfile tmp =>
      obtain ⟨fileMap, hput⟩ := put_of_key cli.fileMap (hposts tmp rfl).2 [] (some tmp)
      rw [Client.step]
      split
      · exact ⟨_, by rw [hput]; rfl⟩
      · exact ⟨_, rfl⟩
  | deregister name =>
      obtain ⟨fileMap, hiterate, -⟩ := h.filed.deregister name
      exact ⟨_, by rw [Client.step, hiterate]; rfl⟩
  | ls =>
      obtain ⟨next, hstep, -⟩ := h.ls
      exact ⟨next, hstep⟩

end Client

/-- **`ls` refreshes the client's table** exactly as long as no name that it holds is gone from the
server's map when the list is asked for. No run of postable records gets stuck. -/
theorem refreshed_iff_unstale (actions : List ClientAction)
    (hposts : ∀ stat, .newfile stat ∈ actions → Postable stat) :
    (∃ cli, clientMachine.run .initial actions = some cli) ∧
      (clientMachine.EveryStep (fun _ a next => a = .ls → next.Refreshed) .initial actions ↔
        clientMachine.Within (fun cli a => a = .ls → cli.Unstale) .initial actions) := by
  have hwithin : clientMachine.Within Posts .initial actions :=
    clientMachine.within_of_forall (fun _ ha _ stat heq => hposts stat (by rwa [← heq])) _
  obtain ⟨cli, hrun⟩ := clientMachine.exists_run (I := Client.Inv) (fun cli a hinv hpost => by
    obtain ⟨next, hstep⟩ := hinv.step_isSome hpost
    exact ⟨next, hstep, hinv.step hpost hstep⟩) Client.inv_initial hwithin
  refine ⟨⟨cli, hrun⟩, clientMachine.everyStep_iff_within (I := Client.Inv)
    (fun _ _ _ hinv hpost hstep => hinv.step hpost hstep) (fun cli a next hinv _ hstep => ?_)
    Client.inv_initial hwithin hrun⟩
  refine forall_congr' fun hls => ?_
  subst hls
  exact hinv.ls_refreshed_iff hstep

def fileX : FileStat := ⟨ascii ['x'], 5, ascii ['a'], inetNtoa loopback, 80⟩

theorem postable_fileX : Postable fileX :=
  ⟨⟨by decide +kernel, by decide +kernel, by decide +kernel, by decide⟩, by decide +kernel⟩

def laterX : FileStat := ⟨ascii ['x'], 7, ascii ['b'], inetNtoa loopback, 81⟩

theorem postable_laterX : Postable laterX :=
  ⟨⟨by decide +kernel, by decide +kernel, by decide +kernel, by decide⟩, by decide +kernel⟩

/-- The file is posted by another client between two lists. -/
def replaced : List ClientAction := [.newfile fileX, .ls, .newfile laterX, .ls]

theorem refreshed_iff_unstale_replaced : clientMachine.EveryStep
    (fun _ a next => a = .ls → next.Refreshed) .initial replaced := by
  have hposts : ∀ stat, .newfile stat ∈ replaced → Postable stat := by
    intro stat hstat
    obtain rfl | rfl : stat = fileX ∨ stat = laterX := by simpa [replaced] using hstat
    · exact postable_fileX
    · exact postable_laterX
  refine (refreshed_iff_unstale replaced hposts).2.2 ⟨nofun, fun s₁ hs₁ => ?_⟩
  obtain ⟨hfiles₁, hmap₁⟩ := Client.step_newfile postable_fileX (by decide) hs₁
  have hinv₁ := Client.inv_initial.step (fun stat heq => ClientAction.newfile.inj heq ▸ postable_fileX) hs₁
  refine ⟨fun _ name _ hfound => absurd (hfiles₁ ▸ TrieT.find_zeroed name) hfound, fun s₂ hs₂ => ?_⟩
  obtain ⟨_, hls, -, -, hfiles₂⟩ := hinv₁.ls
  obtain rfl := Option.some.inj (hls.symm.trans hs₂)
  refine ⟨nofun, fun s₃ hs₃ => ?_⟩
  obtain ⟨hfiles₃, hmap₃⟩ := Client.step_newfile postable_laterX (by decide) hs₃
  refine ⟨fun _ name _ hfound => ?_, fun _ _ => trivial⟩
  rw [hfiles₃, hfiles₂, hmap₁, hfiles₁] at hfound
  rw [hmap₃]
  by_cases hname : name = fileX.fileName
  · rw [if_pos (show name = laterX.fileName from hname)]
    exact Option.some_ne_none _
  · rw [if_neg hname, show Client.initial.fileMap.find name = none from TrieT.find_zeroed name] at hfound
    exact absurd (TrieT.find_zeroed name) hfound

/-- The file is listed, and its owner leaves. -/
def departure : List ClientAction := [.newfile fileX, .ls, .deregister (ascii ['a'])]

/-- The next list does not take the file out of the table. -/
theorem not_refreshed : ¬ ∀ (actions : List ClientAction),
    (∀ stat, .newfile stat ∈ actions → Postable stat) →
      clientMachine.EveryStep (fun _ a next => a = .ls → next.Refreshed) .initial actions := by
  intro hclaim
  have hevery := hclaim (departure ++ [.ls]) fun stat hstat => by
    have heq : stat = fileX := by simpa [departure] using hstat
    exact heq ▸ postable_fileX
  obtain ⟨next, hrun⟩ : ∃ next, clientMachine.run .initial (departure ++ [.ls]) = some next := ⟨_, rfl⟩
  have hfound : (clientMachine.run .initial (departure ++ [.ls])).map (fun cli =>
      (trieGet cli.files (ascii ['x'] ++ [0]), cli.fileMap.find (ascii ['x']))) =
        some (some (some fileX), none) := by decide
  rw [clientMachine.run_concat] at hrun
  obtain ⟨cli, hcli, hstep⟩ := Option.bind_eq_some_iff.1 hrun
  have hrefreshed := hevery.last hcli hstep rfl (ascii ['x']) (by decide +kernel)
  rw [clientMachine.run_concat, hrun, Option.map_some, Option.some.injEq, Prod.mk.injEq] at hfound
  rw [hfound.1, hfound.2] at hrefreshed
  cases hrefreshed

end NetworkSystems.FileShare
