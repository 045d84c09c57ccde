import NetworkSystems.FileShare.Linked

/-!
# Listings

A client that asks for the list gets the file map as the server had it at one moment between the question
and the answer, whatever the other clients do meanwhile.
-/

namespace NetworkSystems.FileShare

namespace Sharing.Inv

variable {n : ℕ} {users : Fin n → User} {addr : Fin n → Fin 4 → UInt8} {s next : Sharing n} {i : Fin n}

theorem answerOf_ne_nil (rows : List FileStat) : answerOf rows ≠ [] := by
  simp [answerOf, ascii]

/-- A step of others, or of the client's own thread, only brings the client an answer: once, when the thread
lists the files, and never while there is one that has not been read. -/
theorem step_quiet (h : s.Inv users addr) (hu : ∀ j, (users j).Valid) {a : SharingStep n}
    (hquiet : ∀ chance, a ≠ .client i chance) (hstep : (sharing n).step s a = some next) :
    next.clients i = s.clients i ∨
      a = .server i ∧ (s.server.sessions i).pc = .list ∧ (s.clients i).asFile = ⟨[], false⟩ ∧
        next.clients i = (s.clients i).arrive (answerOf s.server.fileMap.elements) := by
  cases a with
  | client j chance =>
      obtain ⟨c, -, rfl⟩ := Sharing.clientStep_eq_some hstep
      have hij : i ≠ j := fun heq => hquiet chance (heq ▸ rfl)
      exact Or.inl (Function.update_of_ne hij _ _)
  | server j =>
      obtain ⟨t, hmove, -, rfl⟩ := Sharing.serverStep_eq_some hstep
      by_cases hij : i = j
      · subst hij
        obtain ⟨taken, pending, answers, hlinked⟩ := h.linked i
        obtain ⟨taken', pending', hserved, -⟩ :=
          hlinked.serve (hu i) h.registry h.genuine_elements hstep
        have hwritten := hserved.serves.written_eq
        dsimp only at hwritten ⊢
        rw [Function.update_self, hwritten, List.drop_left]
        by_cases hpc : (s.server.sessions i).pc = .list
        · rw [if_pos hpc]
          have hasked := hlinked.asked
          rw [if_pos hpc] at hasked
          have hnil : answers = [] := List.length_eq_zero_iff.1 (by split at hasked <;> omega)
          exact Or.inr ⟨rfl, hpc, by rw [hlinked.asFile, hnil]; rfl, rfl⟩
        · rw [if_neg hpc]
          left
          rw [ClientT.arrive, File.arrive, List.append_nil]
      · exact Or.inl (Function.update_of_ne hij _ _)

end Sharing.Inv

section Quiet

variable {n : ℕ} {users : Fin n → User} {addr : Fin n → Fin 4 → UInt8} {s t u : Sharing n} {i : Fin n}

/-- While a client reads, at most one answer comes, and it is what the files are at that moment. -/
theorem answered_of_run (hu : ∀ j, (users j).Valid) (hnames : Function.Injective fun j => (users j).name)
    (h : s.Inv users addr) (hnil : (s.clients i).asFile = ⟨[], false⟩) {between : List (SharingStep n)}
    (hquiet : ∀ chance, .client i chance ∉ between) (hrun : (sharing n).run s between = some t) :
    t.clients i = s.clients i ∨ ∃ front back m, between = front ++ .server i :: back ∧
      (sharing n).run s front = some m ∧ m.Inv users addr ∧ (m.server.sessions i).pc = .list ∧
      t.clients i = (s.clients i).arrive (answerOf m.server.fileMap.elements) := by
  induction between using List.reverseRecOn generalizing t with
  | nil =>
      obtain rfl := Option.some.inj hrun
      exact Or.inl rfl
  | append_singleton between a ih =>
      obtain ⟨mid, hmid, hstep⟩ := Option.bind_eq_some_iff.1 ((Machine.run_concat _ _ _ _).symm.trans hrun)
      have hinv : mid.Inv users addr :=
        (sharing n).invariant (fun _ _ _ h hstep => h.step hu hnames hstep) h hmid
      have hmove := hinv.step_quiet hu (i := i) (fun chance heq => hquiet chance (by simp [heq])) hstep
      rcases ih (fun chance hmem => hquiet chance (List.mem_append_left _ hmem)) hmid with
        hsame | ⟨front, back, m, rfl, hfront, hm, hpc, hanswered⟩
      · rcases hmove with hstill | ⟨rfl, hpc, -, hanswered⟩
        · exact Or.inl (hstill.trans hsame)
        · exact Or.inr ⟨between, [], mid, rfl, hmid, hinv, hpc, hsame ▸ hanswered⟩
      · rcases hmove with hstill | ⟨-, -, hempty, -⟩
        · exact Or.inr ⟨front, back ++ [a], m, by simp, hfront, hm, hpc, hstill.trans hanswered⟩
        · rw [hanswered, ClientT.arrive, hnil, File.arrive, File.mk.injEq] at hempty
          exact absurd hempty.1 (Sharing.Inv.answerOf_ne_nil _)

theorem read_answer (hu : ∀ j, (users j).Valid) (h : t.Inv users addr)
    (hreading : (t.clients i).state = some .reading) {chance : Chance}
    (hread : (sharing n).step t (.client i chance) = some u) : ∃ rows,
      (∀ stat ∈ rows, Genuine users addr stat) ∧ (t.clients i).asFile = ⟨answerOf rows, false⟩ ∧
      (u.clients i).state = some .waitForInput ∧
      (u.clients i).files.find = FileMap.puts (t.clients i).files.find rows := by
  obtain ⟨taken, pending, answers, hlinked⟩ := h.linked i
  obtain ⟨c, hmove, rfl⟩ := Sharing.clientStep_eq_some hread
  obtain ⟨files, rows, asFile, hlist, hend, rfl⟩ := hmove.of_reading hreading
  obtain ⟨rfl, -, hfind⟩ := hlinked.reading_eq hu hreading hlist hend
  have hasFile := hlinked.asFile
  rw [List.flatMap_cons, List.flatMap_nil, List.append_nil] at hasFile
  refine ⟨rows, hlinked.genuine rows (by simp), hasFile, ?_, ?_⟩ <;> dsimp only <;> rw [Function.update_self]
  exact hfind

theorem answerOf_injective (hu : ∀ j, (users j).Valid) {rows rows' : List FileStat}
    (hrows : ∀ stat ∈ rows, Genuine users addr stat) (hrows' : ∀ stat ∈ rows', Genuine users addr stat)
    (heq : answerOf rows = answerOf rows') : rows = rows' := by
  obtain ⟨files, hread, -⟩ := listFiles_answer (fun stat hstat => (hrows stat hstat).readable hu) .zeroed []
  obtain ⟨files', hread', -⟩ := listFiles_answer (fun stat hstat => (hrows' stat hstat).readable hu) .zeroed []
  rw [answerOf, answerOf] at heq
  rw [heq, hread'] at hread
  exact (congrArg (fun result => result.2.1) (Option.some.inj hread)).symm

end Quiet

/-- **What is listed has been posted by a client that is there.** A record that the server lists is one that
a client has posted, under the name of its file and with the address of the client's connection, and that
client is registered and its thread has not deregistered it. A client whose thread has ended has returned
and its name is free. -/
theorem lists_present_clients {n : ℕ} (users : Fin n → User) (addr : Fin n → Fin 4 → UInt8)
    (hu : ∀ j, (users j).Valid) (hnames : Function.Injective fun j => (users j).name)
    (steps : List (SharingStep n)) (s : Sharing n)
    (hrun : (sharing n).run (.start users fun i => inetNtoa (addr i)) steps = some s) :
    (∀ key stat, s.server.fileMap.find key = some stat → ∃ j size,
      .newfile key size ∈ (users j).script ∧ stat = (users j).record key size (inetNtoa (addr j)) ∧
      s.server.clientSet.find (users j).name = some () ∧ (s.server.sessions j).pc ≠ .remove ∧
      (s.server.sessions j).pc ≠ .closed) ∧
    ∀ i, (s.server.sessions i).pc = .closed →
      (s.clients i).state = none ∧ s.server.clientSet.find (users i).name = none := by
  have h := sharing_inv hu hnames hrun
  refine ⟨fun key stat hkey => ?_, fun i hpc => ⟨?_, h.absent i hpc⟩⟩
  · obtain ⟨j, fileName, size, hmem, rfl⟩ := h.genuine key stat hkey
    obtain rfl : fileName = key := h.registry.filed.fileName hkey
    exact ⟨j, size, hmem, rfl, h.owners j fileName _ hkey rfl,
      fun hpc => h.gone j (Or.inl hpc) fileName _ hkey rfl, fun hpc => h.gone j (Or.inr hpc) fileName _ hkey rfl⟩
  · obtain ⟨taken, pending, answers, hlinked⟩ := h.linked i
    exact (hlinked.of_farewell (hlinked.thread.stands.farewell (Or.inr hpc))).2

/-- The client that has asked reads the answer and leaves, and its thread ends. -/
def departing : List (SharingStep 2) :=
  asking ++ .client asker .none :: answering ++ [.client asker .none, .client asker .none, .client asker .none,
    .server asker, .server asker, .server asker]

/-- One client has gone, and the file of the other one is listed. -/
theorem lists_present_clients_departing : ∃ s stat,
    (sharing 2).run (.start couple fun _ => inetNtoa loopback) departing = some s ∧
      s.server.clientSet.find (couple asker).name = none ∧ s.server.fileMap.find (ascii ['x']) = some stat ∧
      ∃ j size, stat = (couple j).record (ascii ['x']) size (inetNtoa loopback) ∧
        s.server.clientSet.find (couple j).name = some () ∧ (s.server.sessions j).pc ≠ .closed := by
  let begin := Sharing.start couple fun _ => inetNtoa loopback
  have hlast : ((sharing 2).run begin departing).map (fun s =>
      decide ((s.server.sessions asker).pc = .closed ∧ (s.server.fileMap.find (ascii ['x'])).isSome)) =
    some true := by decide +kernel
  obtain ⟨s, hrun, hs⟩ := Option.map_eq_some_iff.1 hlast
  obtain ⟨hclosed, hlisted⟩ := of_decide_eq_true hs
  obtain ⟨stat, hstat⟩ := Option.isSome_iff_exists.1 hlisted
  obtain ⟨hpresent, hgone⟩ := lists_present_clients couple (fun _ => loopback) couple_valid couple_names departing s
    hrun
  obtain ⟨j, size, -, heq, hname, -, hpc⟩ := hpresent _ stat hstat
  exact ⟨s, stat, hrun, (hgone asker hclosed).2, hstat, j, size, heq, hname, hpc⟩

/-- **`ls` shows the server's files as they were at one moment.** Between the question and the return of
`list_files` there is a moment at which the server lists its files to this client, and afterwards the client
finds under every name what the server had under it then, or else what it had found before. -/
theorem ls_shows_moment {n : ℕ} (users : Fin n → User) (addr : Fin n → Fin 4 → UInt8) (i : Fin n)
    (hu : ∀ j, (users j).Valid) (hnames : Function.Injective fun j => (users j).name)
    (before between : List (SharingStep n)) (chance chance' : Chance) (s asked t u : Sharing n)
    (hbefore : (sharing n).run (.start users fun i => inetNtoa (addr i)) before = some s)
    (hlist : (s.clients i).state = some .listFiles)
    (hasked : (sharing n).step s (.client i chance) = some asked)
    (hquiet : ∀ chance, .client i chance ∉ between)
    (hbetween : (sharing n).run asked between = some t)
    (hread : (sharing n).step t (.client i chance') = some u) :
    ∃ front back m, between = front ++ .server i :: back ∧ (sharing n).run asked front = some m ∧
      (m.server.sessions i).pc = .list ∧ (u.clients i).state = some .waitForInput ∧
      ∀ key, (u.clients i).files.find key =
        (m.server.fileMap.find key).or ((s.clients i).files.find key) := by
  have hs := sharing_inv hu hnames hbefore
  have hinv := hs.step hu hnames hasked
  obtain ⟨taken, pending, answers, hlinked⟩ := hs.linked i
  have hempty : (s.clients i).asFile = ⟨[], false⟩ := by
    have hcount := hlinked.asked
    have hnone : (if (s.clients i).state = some .reading then 1 else 0) = 0 := by rw [hlist]; rfl
    rw [hlinked.asFile, show answers = [] from List.length_eq_zero_iff.1 (by omega)]
    rfl
  have hclient : asked.clients i = { s.clients i with
      fd := (s.clients i).fd ++ [ascii ['L', 'I', 'S', 'T', '\n']]
      state := some .reading } := by
    obtain ⟨c, hmove, rfl⟩ := Sharing.clientStep_eq_some hasked
    rw [← hmove.of_listFiles hlist]
    exact Function.update_self _ _ _
  have hmoment := answered_of_run hu hnames hinv (by rw [hclient]; exact hempty) hquiet hbetween
  have ht : t.Inv users addr := (sharing n).invariant (fun _ _ _ h hstep => h.step hu hnames hstep) hinv hbetween
  have hreading : (t.clients i).state = some .reading := by
    rcases hmoment with hsame | ⟨_, _, _, -, -, -, -, hsame⟩ <;> rw [hsame, hclient]
    rfl
  obtain ⟨rows, hgenuine, hasFile, hstate, hfind⟩ := read_answer hu ht hreading hread
  rcases hmoment with hsame | ⟨front, back, m, hsplit, hfront, hm, hpc, hsame⟩
  · rw [hsame, hclient, hempty, File.mk.injEq] at hasFile
    exact absurd hasFile.1.symm (Sharing.Inv.answerOf_ne_nil rows)
  · refine ⟨front, back, m, hsplit, hfront, hpc, hstate, fun key => ?_⟩
    have hrows : m.server.fileMap.elements = rows := by
      rw [hsame, hclient, ClientT.arrive, File.arrive, hempty, File.mk.injEq] at hasFile
      exact answerOf_injective hu hm.genuine_elements hgenuine hasFile.1
    rw [hfind, ← hrows, FileMap.puts_of_lists hm.registry.filed.lists, hsame, hclient]
    rfl

/-- The file that the other client posts between the question and the answer is in the answer. -/
theorem ls_shows_moment_answering : ∃ s asked t u : Sharing 2,
    (s.clients asker).files.find (ascii ['x']) = none ∧
      (sharing 2).step s (.client asker .none) = some asked ∧ (sharing 2).run asked answering = some t ∧
      (sharing 2).step t (.client asker .none) = some u ∧
      ((u.clients asker).files.find (ascii ['x'])).isSome = true ∧
      ∃ m : Sharing 2, (m.server.sessions asker).pc = .list ∧
        ∀ key, (u.clients asker).files.find key =
          (m.server.fileMap.find key).or ((s.clients asker).files.find key) := by
  let begin := Sharing.start couple fun _ => inetNtoa loopback
  have hstate : ((sharing 2).run begin asking).map (fun s =>
      decide ((s.clients asker).state = some .listFiles ∧ (s.clients asker).files.find (ascii ['x']) = none)) =
    some true := by decide +kernel
  obtain ⟨s, hbefore, hs⟩ := Option.map_eq_some_iff.1 hstate
  obtain ⟨hlist, hnone⟩ := of_decide_eq_true hs
  obtain ⟨asked, hasked⟩ : ∃ asked, (sharing 2).run begin (asking ++ [.client asker .none]) = some asked :=
    Option.isSome_iff_exists.1 (by decide +kernel)
  obtain ⟨t, hbetween⟩ : ∃ t, (sharing 2).run begin (asking ++ [.client asker .none] ++ answering) = some t :=
    Option.isSome_iff_exists.1 (by decide +kernel)
  have hlast : ((sharing 2).run begin (asking ++ [.client asker .none] ++ answering ++ [.client asker .none])).map
      (fun u => ((u.clients asker).files.find (ascii ['x'])).isSome) = some true := by decide +kernel
  obtain ⟨u, hread, hfound⟩ := Option.map_eq_some_iff.1 hlast
  rw [Machine.run_concat, hbetween] at hread
  rw [Machine.run_append, hasked] at hbetween
  rw [Machine.run_concat, hbefore] at hasked
  obtain ⟨front, back, m, -, -, hpc, -, hfind⟩ := ls_shows_moment couple (fun _ => loopback) asker
    couple_valid couple_names asking answering .none .none s asked t u hbefore hlist hasked
    (by simp [answering, poster, asker]) hbetween hread
  exact ⟨s, asked, t, u, hnone, hasked, hbetween, hread, hfound, m, hpc, hfind⟩

end NetworkSystems.FileShare
