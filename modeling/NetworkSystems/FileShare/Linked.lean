import NetworkSystems.FileShare.Threads

/-!
# What holds in every state of the system

Of each client, its script is what the server's thread has read of it, what is on its way, and what the
client has still to send. A client asks for the list only when it has read the answer before, so at any
time at most one question or answer is on its way. Every record that is anywhere in the system has been
posted by its owner, and carries the address of the owner's connection.
-/

namespace NetworkSystems.FileShare

/-- A record that a client has posted, as the server keeps it. -/
def Genuine {n : ℕ} (users : Fin n → User) (addr : Fin n → Fin 4 → UInt8) (stat : FileStat) : Prop :=
  ∃ j fileName size, .newfile fileName size ∈ (users j).script ∧
    stat = (users j).record fileName size (inetNtoa (addr j))

theorem Genuine.readable {n : ℕ} {users : Fin n → User} {addr : Fin n → Fin 4 → UInt8} {stat : FileStat}
    (hu : ∀ j, (users j).Valid) (h : Genuine users addr stat) :
    stat.Readable ∧ Key stat.fileName ∧ stat.line.length ≤ 2047 := by
  obtain ⟨j, fileName, size, hmem, rfl⟩ := h
  have hname := (hu j).name
  have hfile := (hu j).ordinary hmem
  have hhost := inetNtoa_length (addr j)
  refine ⟨⟨⟨hfile.2.1.trans (by decide), hfile.2.2.1⟩, ⟨hname.2.1.trans (by decide), fun ch hch =>
    ⟨(hname.2.2.1 ch hch).2.2.1, (hname.2.2.1 ch hch).2.2.2⟩⟩, hhost.trans (by decide), fun ch hch =>
    ⟨fun heq => ?_, fun heq => ?_⟩⟩, hfile.key, ?_⟩
  · exact inetNtoa_notMem (addr j) (by decide) (by decide) (heq ▸ hch)
  · exact inetNtoa_notMem (addr j) (by decide) (by decide) (heq ▸ hch)
  · have hsize := decimal_length (n := size.toNat) (show 0 < 20 by decide) (size.toNat_lt.trans_le (by decide))
    have hport := decimal_length (n := (users j).port.toNat) (show 0 < 5 by decide)
      ((users j).port.toNat_lt.trans_le (by decide))
    have hlen := hname.2.1
    have hlen' := hfile.2.1
    simp only [User.record, FileStat.line, List.length_append, List.length_cons, List.length_nil]
    omega

/-- A client with its connection: what the thread has read, what it has not, and the answers that the client
has not read. -/
structure Linked {n : ℕ} (users : Fin n → User) (addr : Fin n → Fin 4 → UInt8) (s : Sharing n) (i : Fin n)
    (taken pending : List Command) (answers : List (List FileStat)) : Prop where
  tells : (users i).Tells (s.clients i)
  script : (users i).script = taken ++ pending ++ (s.clients i).todo
  thread : Thread (users i) s.server i taken pending []
  ipasstr : (s.server.sessions i).ipasstr = inetNtoa (addr i)
  asFile : (s.clients i).asFile = ⟨answers.flatMap answerOf, false⟩
  genuine : ∀ rows ∈ answers, ∀ stat ∈ rows, Genuine users addr stat
  asked : pending.count .list + (if (s.server.sessions i).pc = .list then 1 else 0) + answers.length =
    if (s.clients i).state = some .reading then 1 else 0

namespace Linked

variable {n : ℕ} {users : Fin n → User} {addr : Fin n → Fin 4 → UInt8} {s next : Sharing n} {i : Fin n}
  {taken pending : List Command} {answers : List (List FileStat)}

theorem orderly (h : Linked users addr s i taken pending answers) (hu : (users i).Valid) :
    Orderly (taken ++ pending) := (h.script ▸ hu.orderly).of_append

theorem returned_iff (h : Linked users addr s i taken pending answers) :
    (s.clients i).state = none ↔ .deregister ∈ taken ++ pending := by
  obtain ⟨sent, hscript, -, hfarewell⟩ := h.tells.sent
  rw [← hfarewell, List.append_cancel_right (hscript.symm.trans h.script)]

theorem of_farewell (h : Linked users addr s i taken pending answers) (hmem : .deregister ∈ taken) :
    pending = [] ∧ (s.clients i).state = none := by
  refine ⟨?_, h.returned_iff.2 (List.mem_append_left _ hmem)⟩
  obtain ⟨front, back, rfl⟩ := List.append_of_mem hmem
  have hscript : (users i).script = front ++ .deregister :: (back ++ (pending ++ (s.clients i).todo)) := by
    rw [h.script]
    simp only [List.append_assoc, List.cons_append]
  have hlast := deregister_of_script hscript
  exact (List.append_eq_nil_iff.1 (List.append_eq_nil_iff.1 hlast).2).1

theorem register_mem_of_put (h : Linked users addr s i taken pending answers) {stat : FileStat}
    (hput : (s.server.sessions i).pc = .put stat) : .register ∈ taken := by
  apply register_mem (h.script.trans (List.append_assoc _ _ _))
  intro hnil
  cases h.thread.stands <;> simp_all

theorem frame (h : Linked users addr s i taken pending answers)
    (hthread : Thread (users i) next.server i taken pending [])
    (hsession : next.server.sessions i = s.server.sessions i) (hclient : next.clients i = s.clients i) :
    Linked users addr next i taken pending answers where
  tells := hclient ▸ h.tells
  script := hclient ▸ h.script
  thread := hthread
  ipasstr := hsession ▸ h.ipasstr
  asFile := hclient ▸ h.asFile
  genuine := h.genuine
  asked := by
    rw [hsession, hclient]
    exact h.asked

/-! ### A step of the thread -/

/-- A thread that moves has something to read: else it would meet the end of the stream of a client that is
still there. -/
theorem busy (h : Linked users addr s i taken pending answers) {t : Server n} (hstep : s.server.step i = some t)
    (hend : (t.sessions i).asfile.eof = true → (s.clients i).state = none) :
    (s.server.sessions i).pc = .command → pending ≠ [] := by
  intro hpc hnil
  subst hnil
  obtain ⟨t', hstep', hc, -⟩ := step_command rfl hpc
  obtain rfl : t' = t := Option.some.inj (hstep'.symm.trans hstep)
  have hreturned := hend (by rw [hc, (command_end h.thread.asfile).2])
  rw [h.returned_iff, List.append_nil] at hreturned
  exact h.thread.stands.stays hpc hreturned

/-- The lists that a step of the thread answers with. -/
def heard (s : Sharing n) (i : Fin n) : List (List FileStat) :=
  if (s.server.sessions i).pc = .list then [s.server.fileMap.elements] else []

theorem serve (h : Linked users addr s i taken pending answers) (hu : (users i).Valid)
    (hinv : s.server.RegistryInv) (hgenuine : ∀ stat ∈ s.server.fileMap.elements, Genuine users addr stat)
    (hstep : s.serverStep i = some next) : ∃ taken' pending',
      Served (users i) s.server next.server i taken pending taken' pending' [] ∧
      Linked users addr next i taken' pending' (answers ++ heard s i) := by
  obtain ⟨t, hmove, hend, rfl⟩ := Sharing.serverStep_eq_some hstep
  obtain ⟨taken', pending', hserved, hthread⟩ := h.thread.step hu (h.orderly hu) hinv (h.busy hmove hend) hmove
  refine ⟨taken', pending', hserved, ?_⟩
  have hheard : (heard s i).flatMap answerOf = (t.sessions i).written.drop (s.server.sessions i).written.length := by
    rw [hserved.serves.written_eq, List.drop_left, heard]
    split
    case isTrue => exact List.append_nil _
    case isFalse => rfl
  have hlength : (heard s i).length = if (s.server.sessions i).pc = .list then 1 else 0 := by
    rw [heard]
    split <;> rfl
  have hcount := hserved.serves.count_list
  have hasked := h.asked
  have hself := Function.update_self i ((s.clients i).arrive
    ((t.sessions i).written.drop (s.server.sessions i).written.length)) s.clients
  constructor
  case tells =>
    dsimp only
    rw [hself]
    exact ⟨h.tells.name, h.tells.port, h.tells.stdin, h.tells.sent⟩
  case script =>
    dsimp only
    rw [hself, hserved.order]
    exact h.script
  case thread => exact hthread
  case ipasstr => exact hserved.ipasstr.trans h.ipasstr
  case asFile =>
    dsimp only
    rw [hself, ClientT.arrive, h.asFile, List.flatMap_append, hheard]
    rfl
  case genuine =>
    intro rows hrows
    rcases List.mem_append.1 hrows with hrows | hrows
    · exact h.genuine rows hrows
    · rw [heard] at hrows
      split at hrows
      case isTrue =>
        rw [List.mem_singleton.1 hrows]
        exact hgenuine
      case isFalse => cases hrows
  case asked =>
    simp only [hself, List.length_append, hlength]
    change _ = if (s.clients i).state = some .reading then 1 else 0
    omega

/-! ### A call of the client -/

/-- The client reads exactly one answer. -/
theorem reading_eq (h : Linked users addr s i taken pending answers) (hu : ∀ j, (users j).Valid)
    {files : TrieT FileStat} {rows : List FileStat} {asFile : File}
    (hstate : (s.clients i).state = some .reading)
    (hread : listFiles (s.clients i).files (s.clients i).asFile = some (files, rows, asFile))
    (hend : asFile.eof = true → decide ((s.server.sessions i).pc = .closed) = true) :
    answers = [rows] ∧ asFile = ⟨[], false⟩ ∧ files.find = FileMap.puts (s.clients i).files.find rows := by
  have heof : asFile.eof = false := by
    rw [← Bool.not_eq_true]
    intro heof
    have hfarewell := h.thread.stands.farewell (Or.inr (of_decide_eq_true (hend heof)))
    cases hstate.symm.trans (h.of_farewell hfarewell).2
  have hasked := h.asked
  rw [if_pos hstate] at hasked
  rw [h.asFile] at hread
  cases answers with
  | nil =>
      obtain rfl : (⟨[], true⟩ : File) = asFile := by
        have hnone : readFileStatEnd ⟨[], false⟩ = (none, false, ⟨[], true⟩) := rfl
        rw [List.flatMap_nil, listFiles_end hnone] at hread
        exact congrArg (fun result => result.2.2) (Option.some.inj hread)
      cases heof
  | cons first answers =>
      rw [List.length_cons] at hasked
      obtain rfl : answers = [] := List.length_eq_zero_iff.1 (by omega)
      obtain ⟨files', hlist, hfind⟩ := listFiles_answer
        (fun stat hstat => (h.genuine first (by simp) stat hstat).readable hu) (s.clients i).files []
      rw [List.flatMap_cons, List.flatMap_nil, answerOf, hlist] at hread
      cases hread
      exact ⟨rfl, rfl, hfind⟩

theorem count_sends {c c' : ClientT} {hup : Bool} {connect : Bytes → UInt16 → Option Listener}
    {chance : Chance} (hmove : c.Moves hup connect chance c') (hstate : c.state ≠ some .reading) :
    c.sends.count .list = if c'.state = some .reading then 1 else 0 := by
  cases hmove with
  | initState h => simp [ClientT.sends, h]
  | postFiles h =>
      have hposts : .list ∉ posts c.dir := by
        intro hmem
        obtain ⟨ent, -, size, -, heq⟩ := mem_posts.1 hmem
        cases heq
      simp only [ClientT.sends, h, List.count_eq_zero_of_not_mem hposts]
      rfl
  | listFiles h => simp [ClientT.sends, h]
  | reading h => exact absurd h hstate
  | exitClient h => simp [ClientT.sends, h]
  | _ => simp [ClientT.sends, *]

theorem call (h : Linked users addr s i taken pending answers) (hu : ∀ j, (users j).Valid) {chance : Chance}
    (hstep : s.clientStep i chance = some next) :
    Linked users addr next i taken (pending ++ (s.clients i).sends)
      (if (s.clients i).state = some .reading then [] else answers) := by
  obtain ⟨c, hmove, rfl⟩ := Sharing.clientStep_eq_some hstep
  have hclient := Function.update_self i c s.clients
  have hsession := s.server.setSession_self i
    ((s.server.sessions i).receive (c.fd.drop (s.clients i).fd.length).flatten)
  have hasked := h.asked
  have hanswers : c.asFile = ⟨(if (s.clients i).state = some .reading then [] else answers).flatMap answerOf,
      false⟩ ∧ (pending ++ (s.clients i).sends).count .list +
        (if (s.server.sessions i).pc = .list then 1 else 0) +
        (if (s.clients i).state = some .reading then [] else answers).length =
          if c.state = some .reading then 1 else 0 := by
    rw [List.count_append]
    by_cases hstate : (s.clients i).state = some .reading
    · obtain ⟨files, rows, asFile, hread, hend, rfl⟩ := hmove.of_reading hstate
      obtain ⟨rfl, rfl, -⟩ := h.reading_eq hu hstate hread hend
      rw [if_pos hstate, List.length_singleton] at hasked
      rw [if_pos hstate, ClientT.sends, hstate, List.count_nil, List.length_nil]
      refine ⟨rfl, ?_⟩
      change _ = 0
      omega
    · rw [if_neg hstate, hmove.asFile_eq hstate, count_sends hmove hstate]
      rw [if_neg hstate] at hasked
      exact ⟨h.asFile, by omega⟩
  constructor
  case tells =>
    dsimp only
    rw [hclient]
    exact h.tells.call hmove
  case script =>
    dsimp only
    rw [hclient, h.script, hmove.todo_eq]
    simp only [List.append_assoc]
  case thread =>
    dsimp only
    rw [hmove.fd_eq (p := (users i).participant) h.tells.name h.tells.port, List.drop_left,
      Participant.flatten_flatMap_writes]
    exact h.thread.receive _
  case ipasstr =>
    dsimp only
    rw [hsession]
    exact h.ipasstr
  case asFile =>
    dsimp only
    rw [hclient]
    exact hanswers.1
  case genuine =>
    intro rows hrows
    split at hrows
    case isTrue => cases hrows
    case isFalse => exact h.genuine rows hrows
  case asked =>
    simp only [hclient, hsession]
    exact hanswers.2

end Linked

/-! ### The whole system -/

structure Sharing.Inv {n : ℕ} (users : Fin n → User) (addr : Fin n → Fin 4 → UInt8) (s : Sharing n) :
    Prop where
  registry : s.server.RegistryInv
  linked : ∀ i, ∃ taken pending answers, Linked users addr s i taken pending answers
  genuine : ∀ key stat, s.server.fileMap.find key = some stat → Genuine users addr stat
  tables : ∀ i key stat, (s.clients i).files.find key = some stat →
    stat.fileName = key ∧ Genuine users addr stat
  names : ∀ key, s.server.clientSet.find key ≠ none → ∃ i, key = (users i).name
  owners : ∀ i key stat, s.server.fileMap.find key = some stat → stat.owner = (users i).name →
    s.server.clientSet.find (users i).name = some ()

theorem FileMap.of_puts {m : FileMap} {rows : List FileStat} {key : Bytes} {stat : FileStat}
    (h : m.puts rows key = some stat) : stat ∈ rows ∧ stat.fileName = key ∨ m key = some stat := by
  induction rows generalizing m with
  | nil => exact Or.inr h
  | cons first rows ih =>
      rw [FileMap.puts_cons] at h
      rcases ih h with ⟨hmem, hname⟩ | hold
      · exact Or.inl ⟨List.mem_cons_of_mem _ hmem, hname⟩
      · rw [Function.update_apply] at hold
        split at hold
        case isTrue heq =>
          obtain rfl := Option.some.inj hold
          exact Or.inl ⟨List.mem_cons_self, heq.symm⟩
        case isFalse => exact Or.inr hold

namespace Sharing.Inv

variable {n : ℕ} {users : Fin n → User} {addr : Fin n → Fin 4 → UInt8} {s next : Sharing n} {i : Fin n}

theorem start (users : Fin n → User) (addr : Fin n → Fin 4 → UInt8) :
    (Sharing.start users fun i => inetNtoa (addr i)).Inv users addr where
  registry := registryInv_initial _ _
  linked i := ⟨[], [], [],
    { tells := (users i).tells_start
      script := rfl
      thread := .initial rfl
      ipasstr := rfl
      asFile := rfl
      genuine := by simp
      asked := rfl }⟩
  genuine key stat h := by cases (TrieT.find_zeroed key).symm.trans h
  tables i key stat h := by cases (TrieT.find_zeroed key).symm.trans h
  names key h := absurd (TrieT.find_zeroed key) h
  owners i key stat h := by cases (TrieT.find_zeroed key).symm.trans h

theorem gone (h : s.Inv users addr) (i : Fin n)
    (hpc : (s.server.sessions i).pc = .remove ∨ (s.server.sessions i).pc = .closed) (key : Bytes) (stat : FileStat)
    (hkey : s.server.fileMap.find key = some stat) : stat.owner ≠ (users i).name := by
  obtain ⟨_, _, _, hlinked⟩ := h.linked i
  exact hlinked.thread.gone hpc key stat hkey

theorem absent (h : s.Inv users addr) (i : Fin n) (hpc : (s.server.sessions i).pc = .closed) :
    s.server.clientSet.find (users i).name = none := by
  obtain ⟨_, _, _, hlinked⟩ := h.linked i
  exact hlinked.thread.absent hpc

theorem genuine_elements (h : s.Inv users addr) :
    ∀ stat ∈ s.server.fileMap.elements, Genuine users addr stat := by
  intro stat hmem
  obtain ⟨key, hkey⟩ := mem_elements.1 hmem
  exact h.genuine key stat hkey

theorem serverStep (h : s.Inv users addr) (hu : ∀ j, (users j).Valid)
    (hnames : Function.Injective fun j => (users j).name) (hstep : s.serverStep i = some next) :
    next.Inv users addr := by
  obtain ⟨taken, pending, answers, hlinked⟩ := h.linked i
  obtain ⟨taken', pending', hserved, hnext⟩ := hlinked.serve (hu i) h.registry h.genuine_elements hstep
  obtain ⟨t, hmove, -, rfl⟩ := Sharing.serverStep_eq_some hstep
  have hserves := hserved.serves
  have hclient : ∀ j, j ≠ i → Function.update s.clients i ((s.clients i).arrive
      ((t.sessions i).written.drop (s.server.sessions i).written.length)) j = s.clients j := fun j hji =>
    Function.update_of_ne hji _ _
  have hsession : ∀ j, j ≠ i → t.sessions j = s.server.sessions j := fun j hji =>
    (Server.step_moves hmove).sessions_of_ne hji
  have hother : ∀ j, j ≠ i → (users j).name ≠ (users i).name := fun j hji heq => hji (hnames heq)
  refine ⟨h.registry.step hmove, fun j => ?_, fun key stat hkey => ?_, fun j key stat hkey => ?_,
    fun key hkey => ?_, fun j key stat hkey howner => ?_⟩
  · by_cases hji : j = i
    · subst hji
      exact ⟨taken', pending', _, hnext⟩
    · obtain ⟨taken, pending, answers, hlinked⟩ := h.linked j
      refine ⟨taken, pending, answers, hlinked.frame ?_ (hsession j hji) (hclient j hji)⟩
      refine hlinked.thread.frame (hsession j hji) (hserves.clientSet_of_ne (hother j hji))
        fun key stat hkey howner => (hserves.listed hkey).resolve_right ?_
      rintro ⟨fileName, size, -, rfl⟩
      exact hother j hji howner.symm
  · rcases hserves.listed hkey with hold | ⟨fileName, size, hmem, rfl⟩
    · exact h.genuine key stat hold
    · refine ⟨i, fileName, size, ?_, by rw [hlinked.ipasstr]⟩
      rw [hlinked.script]
      exact List.mem_append_left _ (List.mem_append_left _ hmem)
  · have hfiles : (Function.update s.clients i ((s.clients i).arrive
        ((t.sessions i).written.drop (s.server.sessions i).written.length)) j).files = (s.clients j).files := by
      by_cases hji : j = i
      · subst hji
        rw [Function.update_self]
        rfl
      · rw [hclient j hji]
    exact h.tables j key stat (hfiles ▸ hkey)
  · by_cases hname : key = (users i).name
    · exact ⟨i, hname⟩
    · exact h.names key (by rwa [← hserves.clientSet_of_ne hname])
  · by_cases hji : j = i
    · subst hji
      refine hserves.present (fun hcase => ?_) (fun hpc => hlinked.thread.gone (Or.inl hpc)) hkey howner
      rcases hcase with ⟨key, stat, hkey, howner⟩ | ⟨stat, hput⟩
      · exact h.owners j key stat hkey howner
      · exact hlinked.thread.registered (hlinked.register_mem_of_put hput) (by simp [hput]) (by simp [hput])
          (by simp [hput])
    · rw [hserves.clientSet_of_ne (hother j hji)]
      rcases hserves.listed hkey with hold | ⟨fileName, size, -, rfl⟩
      · exact h.owners j key stat hold howner
      · exact absurd howner.symm (hother j hji)

/-- A client's step changes nothing at the server but what its connection has received. -/
theorem clientStep (h : s.Inv users addr) (hu : ∀ j, (users j).Valid) {chance : Chance}
    (hstep : s.clientStep i chance = some next) : next.Inv users addr := by
  obtain ⟨taken, pending, answers, hlinked⟩ := h.linked i
  have hnext := hlinked.call hu hstep
  obtain ⟨c, hmove, rfl⟩ := Sharing.clientStep_eq_some hstep
  have hpc : ∀ j, ((s.server.setSession i ((s.server.sessions i).receive
      (c.fd.drop (s.clients i).fd.length).flatten)).sessions j).pc = (s.server.sessions j).pc := by
    intro j
    by_cases hji : j = i
    · subst hji
      rw [Server.setSession_self]
      rfl
    · rw [Server.setSession_of_ne _ hji]
  refine ⟨⟨h.registry.filed, fun j stat hput => h.registry.put j stat (hpc j ▸ hput)⟩, fun j => ?_,
    h.genuine, fun j key stat hkey => ?_, h.names, h.owners⟩
  · by_cases hji : j = i
    · subst hji
      exact ⟨taken, _, _, hnext⟩
    · obtain ⟨taken, pending, answers, hlinked⟩ := h.linked j
      have hsame := s.server.setSession_of_ne hji
        ((s.server.sessions i).receive (c.fd.drop (s.clients i).fd.length).flatten)
      exact ⟨taken, pending, answers, hlinked.frame (hlinked.thread.frame hsame rfl fun _ _ hkey _ => hkey) hsame
        (Function.update_of_ne hji _ _)⟩
  · by_cases hji : j = i
    · subst hji
      dsimp only at hkey
      rw [Function.update_self] at hkey
      cases hmove with
      | initState => cases (TrieT.find_zeroed key).symm.trans hkey
      | reading hstate hread hend =>
          obtain ⟨rfl, -, hfind⟩ := hlinked.reading_eq hu hstate hread hend
          dsimp only at hkey
          rw [hfind] at hkey
          rcases FileMap.of_puts hkey with ⟨hmem, hname⟩ | hold
          · exact ⟨hname, hlinked.genuine _ (by simp) stat hmem⟩
          · exact h.tables j key stat hold
      | _ => exact h.tables j key stat hkey
    · dsimp only at hkey
      rw [Function.update_of_ne hji] at hkey
      exact h.tables j key stat hkey

theorem step (h : s.Inv users addr) (hu : ∀ j, (users j).Valid)
    (hnames : Function.Injective fun j => (users j).name) {a : SharingStep n}
    (hstep : (sharing n).step s a = some next) : next.Inv users addr := by
  cases a with
  | server i => exact h.serverStep hu hnames hstep
  | client i chance => exact h.clientStep hu hstep

end Sharing.Inv

theorem sharing_inv {n : ℕ} {users : Fin n → User} {addr : Fin n → Fin 4 → UInt8}
    (hu : ∀ j, (users j).Valid) (hnames : Function.Injective fun j => (users j).name)
    {steps : List (SharingStep n)} {s : Sharing n}
    (hrun : (sharing n).run (.start users fun i => inetNtoa (addr i)) steps = some s) : s.Inv users addr :=
  (sharing n).invariant (fun _ _ _ h hstep => h.step hu hnames hstep) (Sharing.Inv.start users addr) hrun

end NetworkSystems.FileShare
