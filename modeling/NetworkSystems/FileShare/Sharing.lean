import NetworkSystems.FileShare.RunClient

/-!
# The clients and the server

All clients with the server they are connected to, in any interleaving of their steps. A client's writes
arrive at its connection, and what the server writes arrives at the client. A thread that reads more than
has arrived waits, so what it reads is what it would read from the whole stream at once: the server runs
as it does on the scripts of the clients.
-/

namespace NetworkSystems.FileShare

/-! ### Reading what has arrived -/

section Arrival

variable {bytes : Bytes} {fd : File} {room : Nat}

theorem readWord_arrive {result : Bytes} (hread : readWord room bytes = (result, fd)) (heof : fd.eof = false)
    (more : Bytes) : readWord room (bytes ++ more) = (result, fd.arrive more) := by
  fun_induction readWord room bytes generalizing result with
  | case1 =>
      cases hread
      cases heof
  | case2 room ch bytes hspace =>
      cases hread
      cases room <;> rw [List.cons_append, readWord, if_pos hspace] <;> rfl
  | case3 ch bytes hspace =>
      cases hread
      rw [List.cons_append, readWord, if_neg hspace]
      rfl
  | case4 ch bytes hspace room rest =>
      rename_i ih
      obtain ⟨rfl, rfl⟩ := Prod.mk.inj hread
      rw [List.cons_append, readWord, if_neg hspace]
      simp only [ih rfl]
      rfl

theorem readName_arrive {result : NameEnd} (hread : readName room bytes = (result, fd))
    (heof : fd.eof = false) (more : Bytes) : readName room (bytes ++ more) = (result, fd.arrive more) := by
  fun_induction readName room bytes generalizing result with
  | case1 =>
      cases hread
      cases heof
  | case2 room bytes =>
      cases hread
      cases room <;> rw [List.cons_append, readName, if_pos rfl] <;> rfl
  | case3 room bytes =>
      cases hread
      cases room <;> rw [List.cons_append, readName, if_neg (by decide), if_pos rfl] <;> rfl
  | case4 ch bytes hslash hnewline =>
      cases hread
      rw [List.cons_append, readName, if_neg hslash, if_neg hnewline]
      rfl
  | case5 ch bytes hslash hnewline room content file heq ih
  | case6 ch bytes hslash hnewline room content file heq ih
  | case7 ch bytes hslash hnewline room file heq ih =>
      cases hread
      rw [List.cons_append, readName, if_neg hslash, if_neg hnewline]
      simp only [ih heq]

theorem readField_arrive {result : Option Bytes} (hread : readField room bytes = (result, fd))
    (heof : fd.eof = false) (more : Bytes) : readField room (bytes ++ more) = (result, fd.arrive more) := by
  fun_induction readField room bytes generalizing result with
  | case1 =>
      cases hread
      cases heof
  | case2 room bytes =>
      cases hread
      cases room <;> rw [List.cons_append, readField, if_pos rfl] <;> rfl
  | case3 ch bytes hcolon =>
      cases hread
      rw [List.cons_append, readField, if_neg hcolon]
      rfl
  | case4 ch bytes hcolon room content file heq ih
  | case5 ch bytes hcolon room file heq ih =>
      cases hread
      rw [List.cons_append, readField, if_neg hcolon]
      simp only [ih heq]

theorem readNumber_arrive {delimiter : UInt8} {size : UInt64} {result : Option UInt64}
    (hread : readNumber delimiter size bytes = (result, fd)) (heof : fd.eof = false) (more : Bytes) :
    readNumber delimiter size (bytes ++ more) = (result, fd.arrive more) := by
  fun_induction readNumber delimiter size bytes with
  | case1 =>
      cases hread
      cases heof
  | case2 size bytes =>
      cases hread
      rw [List.cons_append, readNumber, if_pos rfl]
      rfl
  | case3 size ch bytes hch hbad =>
      cases hread
      rw [List.cons_append, readNumber, if_neg hch, if_pos hbad]
      rfl
  | case4 size ch bytes hch hgood ih => rw [List.cons_append, readNumber, if_neg hch, if_neg hgood, ih hread]

/-! A loop that has met the end has left nothing. -/

theorem readWord_eof {result rest : Bytes} (h : readWord room bytes = (result, ⟨rest, true⟩)) : rest = [] := by
  fun_induction readWord room bytes generalizing result with
  | case4 =>
      rename_i ih
      have hrest := congrArg Prod.snd h
      exact ih (Prod.ext rfl hrest)
  | _ => simp_all

theorem readName_eof {result : NameEnd} {rest : Bytes} (h : readName room bytes = (result, ⟨rest, true⟩)) :
    rest = [] := by
  fun_induction readName room bytes generalizing result <;> simp_all

theorem readField_eof_nil {result : Option Bytes} {rest : Bytes}
    (h : readField room bytes = (result, ⟨rest, true⟩)) : rest = [] := by
  fun_induction readField room bytes generalizing result <;> simp_all

theorem readNumber_eof {delimiter : UInt8} {size : UInt64} {result : Option UInt64} {rest : Bytes}
    (h : readNumber delimiter size bytes = (result, ⟨rest, true⟩)) : rest = [] := by
  fun_induction readNumber delimiter size bytes generalizing result <;> simp_all

end Arrival

section Stages

variable {fd : File} {name owner host rest : Bytes} {size : UInt64}

/-! No loop of the reader has met the end if the last one has not: it would have left nothing to it. -/

theorem eof_of_name {eof : Bool} (hname : readName (bufLen - 1) fd.bytes = (.name name, ⟨rest, eof⟩))
    (h : (readFileStatEnd fd).2.2.eof = false) : eof = false := by
  cases eof with
  | false => rfl
  | true =>
      rw [readName_eof hname] at hname
      rw [readFileStatEnd] at h
      simp only [hname] at h
      cases h

theorem eof_of_size {eof : Bool} {fd₁ : File} (hname : readName (bufLen - 1) fd.bytes = (.name name, fd₁))
    (hsize : readNumber 0x3a 0 fd₁.bytes = (some size, ⟨rest, eof⟩))
    (h : (readFileStatEnd fd).2.2.eof = false) : eof = false := by
  cases eof with
  | false => rfl
  | true =>
      rw [readNumber_eof hsize] at hsize
      rw [readFileStatEnd] at h
      simp only [hname, hsize] at h
      cases h

theorem eof_of_owner {eof : Bool} {fd₁ fd₂ : File}
    (hname : readName (bufLen - 1) fd.bytes = (.name name, fd₁))
    (hsize : readNumber 0x3a 0 fd₁.bytes = (some size, fd₂))
    (howner : readField (bufLen - 1) fd₂.bytes = (some owner, ⟨rest, eof⟩))
    (h : (readFileStatEnd fd).2.2.eof = false) : eof = false := by
  cases eof with
  | false => rfl
  | true =>
      rw [readField_eof_nil howner] at howner
      rw [readFileStatEnd] at h
      simp only [hname, hsize, howner] at h
      cases h

theorem eof_of_host {eof : Bool} {fd₁ fd₂ fd₃ : File}
    (hname : readName (bufLen - 1) fd.bytes = (.name name, fd₁))
    (hsize : readNumber 0x3a 0 fd₁.bytes = (some size, fd₂))
    (howner : readField (bufLen - 1) fd₂.bytes = (some owner, fd₃))
    (hhost : readField (bufLen - 1) fd₃.bytes = (some host, ⟨rest, eof⟩))
    (h : (readFileStatEnd fd).2.2.eof = false) : eof = false := by
  cases eof with
  | false => rfl
  | true =>
      rw [readField_eof_nil hhost] at hhost
      rw [readFileStatEnd] at h
      simp only [hname, hsize, howner, hhost] at h
      cases h

theorem readFileStatEnd_arrive (h : (readFileStatEnd fd).2.2.eof = false) (more : Bytes) :
    readFileStatEnd (fd.arrive more) =
      ((readFileStatEnd fd).1, (readFileStatEnd fd).2.1, (readFileStatEnd fd).2.2.arrive more) := by
  rcases hname : readName (bufLen - 1) fd.bytes with ⟨name | line | _, fd₁⟩
  case line =>
    rw [readFileStatEnd_of_line fd hname] at h ⊢
    exact readFileStatEnd_of_line _ (readName_arrive hname h more)
  case tooLong =>
    rw [readFileStatEnd_of_tooLong fd hname] at h ⊢
    exact readFileStatEnd_of_tooLong _ (readName_arrive hname h more)
  have hname' := readName_arrive hname (eof_of_name hname h) more
  rcases hsize : readNumber 0x3a 0 fd₁.bytes with ⟨_ | size, fd₂⟩
  case none =>
    rw [readFileStatEnd_of_size fd hname hsize] at h ⊢
    exact readFileStatEnd_of_size _ hname' (readNumber_arrive hsize h more)
  have hsize' := readNumber_arrive hsize (eof_of_size hname hsize h) more
  rcases howner : readField (bufLen - 1) fd₂.bytes with ⟨_ | owner, fd₃⟩
  case none =>
    rw [readFileStatEnd_of_owner fd hname hsize howner] at h ⊢
    exact readFileStatEnd_of_owner _ hname' hsize' (readField_arrive howner h more)
  have howner' := readField_arrive howner (eof_of_owner hname hsize howner h) more
  rcases hhost : readField (bufLen - 1) fd₃.bytes with ⟨_ | host, fd₄⟩
  case none =>
    rw [readFileStatEnd_of_host fd hname hsize howner hhost] at h ⊢
    exact readFileStatEnd_of_host _ hname' hsize' howner' (readField_arrive hhost h more)
  have hhost' := readField_arrive hhost (eof_of_host hname hsize howner hhost h) more
  rcases hport : readNumber 0x0a 0 fd₄.bytes with ⟨_ | port, fd₅⟩
  case none =>
    rw [readFileStatEnd_of_port fd hname hsize howner hhost hport] at h ⊢
    exact readFileStatEnd_of_port _ hname' hsize' howner' hhost' (readNumber_arrive hport h more)
  have heof : fd₅.eof = false := by
    rw [readFileStatEnd] at h
    simp only [hname, hsize, howner, hhost, hport] at h
    split at h <;> exact h
  have hport' := readNumber_arrive hport heof more
  simp only [readFileStatEnd, File.arrive_bytes, hname, hname', hsize, hsize', howner, howner', hhost, hhost',
    hport, hport', File.arrive_eof, heof, Bool.false_eq_true, if_false]

end Stages

/-! ### Connections that receive more -/

def Session.receive (c : Session) (more : Bytes) : Session := { c with asfile := c.asfile.arrive more }

section Session

variable {c : Session}

theorem Session.receive_nil (c : Session) : c.receive [] = c := by
  rw [receive, File.arrive, List.append_nil]

theorem Session.receive_receive (c : Session) (more last : Bytes) :
    (c.receive more).receive last = c.receive (more ++ last) := by
  simp only [receive, File.arrive, List.append_assoc]

theorem Session.readWord_receive (h : c.readWord.asfile.eof = false) (more : Bytes) :
    (c.receive more).readWord = c.readWord.receive more := by
  rcases hread : FileShare.readWord 127 c.asfile.bytes with ⟨word, fd⟩
  have hword : c.readWord = { c with asfile := fd, word := store word c.word } := by
    rw [readWord, hread]
  rw [hword] at h ⊢
  simp only [readWord, receive, File.arrive_bytes, readWord_arrive hread h]

theorem readFileStat_arrive {fd : File} (h : (readFileStat fd).2.eof = false) (more : Bytes) :
    readFileStat (fd.arrive more) = ((readFileStat fd).1, (readFileStat fd).2.arrive more) := by
  rw [readFileStat, readFileStat, readFileStatEnd_arrive h]

theorem Session.dispatch_receive (h : c.dispatch.asfile.eof = false) (more : Bytes) :
    (c.receive more).dispatch = c.dispatch.receive more := by
  have hword : (c.receive more).word = c.word := rfl
  rw [dispatch] at h
  rw [dispatch, dispatch, hword]
  split_ifs at h ⊢ with hregister hnewfile hlist hderegister
  · rw [readWord_receive h]
    rfl
  · have hread := fun heof => @readFileStat_arrive c.asfile heof more
    rw [show (c.receive more).asfile = c.asfile.arrive more from rfl]
    rcases hfile : readFileStat c.asfile with ⟨_ | tmp, fd⟩ <;> rw [hfile] at h hread
    · rw [hread h]
      rfl
    · have heof : fd.eof = false := by
        dsimp only at h
        split at h <;> exact h
      rw [hread heof]
      dsimp only
      split <;> rfl
  · rfl
  · rw [readWord_receive h]
    rfl
  · rfl

theorem Session.dispatch_end (hfile : c.asfile = ⟨[], true⟩) : c.dispatch.asfile = ⟨[], true⟩ := by
  have hword : c.readWord.asfile = ⟨[], true⟩ := by
    rw [readWord, hfile]
    rfl
  have hread : readFileStat c.asfile = (none, ⟨[], true⟩) := by
    rw [hfile]
    rfl
  rw [dispatch]
  split_ifs
  · exact hword
  · rw [hread]
  · exact hfile
  · exact hword
  · exact hfile

theorem Session.command_receive (h : c.command.asfile.eof = false) (more : Bytes) :
    (c.receive more).command = c.command.receive more := by
  cases heof : c.asfile.eof with
  | true =>
      rw [command, if_pos heof] at h
      cases heof.symm.trans h
  | false =>
      rw [command, if_neg (by rw [heof]; decide)] at h
      have hopen : (c.receive more).asfile.eof = false := heof
      rw [command, command, if_neg (by rw [hopen]; decide), if_neg (by rw [heof]; decide)]
      have hword : c.readWord.asfile.eof = false := by
        rw [← Bool.not_eq_true]
        intro hend
        rw [dispatch_end] at h
        · cases h
        · rcases hread : FileShare.readWord 127 c.asfile.bytes with ⟨word, rest, eof⟩
          rw [readWord, hread] at hend ⊢
          obtain rfl : eof = true := hend
          rw [readWord_eof hread]
      rw [readWord_receive hword, dispatch_receive h]

end Session

def Server.feed {n : ℕ} (s : Server n) (more : Fin n → Bytes) : Server n :=
  { s with sessions := fun i => (s.sessions i).receive (more i) }

section Feed

variable {n : ℕ} {s next : Server n} {i : Fin n} {more : Fin n → Bytes}

theorem Server.feed_of_sessions {t : Server n} {c : Session} (h : t.sessions = Function.update s.sessions i c) :
    t.feed more = { t with sessions := Function.update (s.feed more).sessions i (c.receive (more i)) } := by
  rw [feed, h]
  congr 1
  funext j
  by_cases hji : j = i
  · subst hji
    simp only [Function.update_self]
  · simp only [Function.update_of_ne hji, feed]

theorem Server.step_feed (hstep : s.step i = some next)
    (h : (next.sessions i).asfile.eof = false ∨ more i = []) : (s.feed more).step i = some (next.feed more) := by
  cases step_moves hstep with
  | command hpc =>
      rw [setSession_self] at h
      have hcommand : ((s.sessions i).receive (more i)).command = (s.sessions i).command.receive (more i) := by
        rcases h with hopen | hnil
        · exact Session.command_receive hopen _
        · rw [hnil, Session.receive_nil, Session.receive_nil]
      refine .trans ?_ (congrArg some (feed_of_sessions rfl).symm)
      rw [← hcommand, step]
      simp only [Session.receive, hpc, feed]
      rfl
  | contains hpc hfound =>
      refine .trans ?_ (congrArg some (feed_of_sessions rfl).symm)
      rw [step]
      simp only [Session.receive, hpc, feed, hfound, Option.map_some]
      rfl
  | insert hpc hset =>
      refine .trans ?_ (congrArg some (feed_of_sessions rfl).symm)
      rw [step]
      simp only [Session.receive, hpc, feed, hset, Option.map_some]
      rfl
  | put hpc hput =>
      refine .trans ?_ (congrArg some (feed_of_sessions rfl).symm)
      rw [step]
      simp only [Session.receive, hpc, feed, hput, Option.map_some]
      rfl
  | list hpc hwritten =>
      refine .trans ?_ (congrArg some (feed_of_sessions rfl).symm)
      rw [step]
      simp only [Session.receive, hpc, feed, hwritten, Option.map_some]
      rfl
  | deregister hpc hiterate =>
      refine .trans ?_ (congrArg some (feed_of_sessions rfl).symm)
      rw [step]
      simp only [Session.receive, hpc, feed, hiterate, Option.map_some]
      rfl
  | remove hpc hset =>
      refine .trans ?_ (congrArg some (feed_of_sessions rfl).symm)
      rw [step]
      simp only [Session.receive, hpc, feed, hset, Option.map_some]
      rfl

end Feed

/-! ### The system -/

structure Sharing (n : ℕ) where
  server : Server n
  clients : Fin n → ClientT

inductive SharingStep (n : ℕ)
  | server (i : Fin n)
  | client (i : Fin n) (chance : Chance)

/-- The connections whose threads move. -/
def SharingStep.threads {n : ℕ} : SharingStep n → List (Fin n)
  | server i => [i]
  | client _ _ => []

namespace Sharing

variable {n : ℕ}

def start (users : Fin n → User) (ipasstr : Fin n → Bytes) : Sharing n where
  server := .initial (fun _ => []) ipasstr
  clients i := .start (users i)

/-- `connect_client`, when client `i` calls it. A client that has returned does not listen any more. -/
def connect (s : Sharing n) (i : Fin n) (hostname : Bytes) (port : UInt16) : Option Listener :=
  ((List.finRange n).find? fun j =>
    (s.server.sessions j).ipasstr = hostname ∧ (s.clients j).port = port ∧
      (s.clients j).state ≠ none).map
    fun j => if j = i then .own else .peer (s.clients j).disk

/-- A thread moves unless it waits for more. What it writes arrives at its client. -/
def serverStep (s : Sharing n) (i : Fin n) : Option (Sharing n) :=
  (s.server.step i).bind fun next =>
    if (next.sessions i).asfile.eof = true ∧ (s.clients i).state ≠ none then none
    else some
      { server := next
        clients := Function.update s.clients i ((s.clients i).arrive
          ((next.sessions i).written.drop (s.server.sessions i).written.length)) }

/-- A client moves. What it writes arrives at its connection. -/
def clientStep (s : Sharing n) (i : Fin n) (chance : Chance) : Option (Sharing n) :=
  ((s.clients i).call (decide ((s.server.sessions i).pc = .closed)) (s.connect i) chance).map fun c =>
    { server := s.server.setSession i
        ((s.server.sessions i).receive (c.fd.drop (s.clients i).fd.length).flatten)
      clients := Function.update s.clients i c }

/-- The server as it would be if the clients had already sent all that they have to send. -/
def whole (users : Fin n → User) (s : Sharing n) : Server n :=
  s.server.feed fun i => (users i).participant.stream (s.clients i).todo

end Sharing

def sharing (n : ℕ) : Machine (Sharing n) (SharingStep n) where
  step s
    | .server i => s.serverStep i
    | .client i chance => s.clientStep i chance

/-! ### The server on the scripts of the clients -/

namespace Sharing

variable {n : ℕ} {users : Fin n → User} {s next : Sharing n} {i : Fin n}

theorem whole_start (users : Fin n → User) (ipasstr : Fin n → Bytes) :
    (start users ipasstr).whole users = connected (fun i => (users i).participant) ipasstr := rfl

theorem serverStep_eq_some (h : s.serverStep i = some next) :
    ∃ t, s.server.step i = some t ∧ ((t.sessions i).asfile.eof = true → (s.clients i).state = none) ∧
      next = ⟨t, Function.update s.clients i ((s.clients i).arrive
        ((t.sessions i).written.drop (s.server.sessions i).written.length))⟩ := by
  obtain ⟨t, hstep, h⟩ := Option.bind_eq_some_iff.1 h
  split at h
  case isTrue => cases h
  case isFalse hwaits =>
    refine ⟨t, hstep, fun heof => ?_, (Option.some.inj h).symm⟩
    by_contra hrunning
    exact hwaits ⟨heof, hrunning⟩

theorem clientStep_eq_some {chance : Chance} (h : s.clientStep i chance = some next) :
    ∃ c, (s.clients i).Moves (decide ((s.server.sessions i).pc = .closed)) (s.connect i) chance c ∧
      next = ⟨s.server.setSession i
        ((s.server.sessions i).receive (c.fd.drop (s.clients i).fd.length).flatten),
        Function.update s.clients i c⟩ := by
  obtain ⟨c, hcall, rfl⟩ := Option.map_eq_some_iff.1 h
  exact ⟨c, ClientT.moves_of_call hcall, rfl⟩

theorem todo_update_arrive (clients : Fin n → ClientT) (i : Fin n) (bytes : Bytes) (j : Fin n) :
    (Function.update clients i ((clients i).arrive bytes) j).todo = (clients j).todo := by
  by_cases hji : j = i
  · subst hji
    rw [Function.update_self]
    rfl
  · rw [Function.update_of_ne hji]

theorem whole_serverStep (h : s.serverStep i = some next) :
    (s.whole users).step i = some (next.whole users) := by
  obtain ⟨t, hstep, hend, rfl⟩ := serverStep_eq_some h
  have hmore : (fun j => (users j).participant.stream (Function.update s.clients i
      ((s.clients i).arrive ((t.sessions i).written.drop (s.server.sessions i).written.length)) j).todo) =
      fun j => (users j).participant.stream (s.clients j).todo := by
    funext j
    rw [todo_update_arrive]
  rw [whole, whole]
  dsimp only
  rw [hmore]
  apply Server.step_feed hstep
  cases heof : (t.sessions i).asfile.eof with
  | false => exact Or.inl rfl
  | true =>
      rw [ClientT.todo, hend heof]
      exact Or.inr rfl

/-- The bytes that a call writes are what the client has less to send after it. -/
theorem stream_todo {u : User} {c c' : ClientT} {hup : Bool}
    {connect : Bytes → UInt16 → Option Listener} {chance : Chance} (h : u.Tells c)
    (hmove : c.Moves hup connect chance c') :
    u.participant.stream c.todo = (c'.fd.drop c.fd.length).flatten ++ u.participant.stream c'.todo := by
  rw [hmove.fd_eq (p := u.participant) h.name h.port, List.drop_left, Participant.flatten_flatMap_writes,
    hmove.todo_eq, Participant.stream, Participant.stream, Participant.stream, List.flatMap_append]

theorem whole_clientStep {chance : Chance} (htells : (users i).Tells (s.clients i))
    (h : s.clientStep i chance = some next) : next.whole users = s.whole users := by
  obtain ⟨c, hmove, rfl⟩ := clientStep_eq_some h
  rw [whole, whole, Server.feed, Server.feed]
  congr 1
  funext j
  by_cases hji : j = i
  · subst hji
    dsimp only
    rw [Server.setSession_self, Function.update_self, Session.receive_receive, stream_todo htells hmove]
  · dsimp only
    rw [Server.setSession_of_ne _ hji, Function.update_of_ne hji]

theorem tells_step {step : SharingStep n} (h : ∀ j, (users j).Tells (s.clients j))
    (hstep : (sharing n).step s step = some next) : ∀ j, (users j).Tells (next.clients j) := by
  intro j
  cases step with
  | server i =>
      obtain ⟨t, -, -, rfl⟩ := serverStep_eq_some hstep
      dsimp only
      by_cases hji : j = i
      · subst hji
        rw [Function.update_self]
        exact ⟨(h j).name, (h j).port, (h j).stdin, (h j).sent⟩
      · rw [Function.update_of_ne hji]
        exact h j
  | client i chance =>
      obtain ⟨c, hmove, rfl⟩ := clientStep_eq_some hstep
      dsimp only
      by_cases hji : j = i
      · subst hji
        rw [Function.update_self]
        exact (h j).call hmove
      · rw [Function.update_of_ne hji]
        exact h j

end Sharing

theorem sharing_simulates {n : ℕ} (users : Fin n → User) : (sharing n).Simulates (server n)
    (fun s t => (∀ i, (users i).Tells (s.clients i)) ∧ s.whole users = t) fun _ step => step.threads := by
  rintro s step next t ⟨htells, rfl⟩ hstep
  refine ⟨next.whole users, ?_, Sharing.tells_step htells hstep, rfl⟩
  cases step with
  | server i =>
      change (server n).run (s.whole users) [i] = some (next.whole users)
      rw [Machine.run_cons, show (server n).step (s.whole users) i = _ from Sharing.whole_serverStep hstep]
      rfl
  | client i chance => exact congrArg some (Sharing.whole_clientStep (htells i) hstep).symm

/-- **The system refines the server on the clients' scripts.** The threads of a run of the whole system,
in which every byte is read only after it has been written, are a run of the server over what the clients
have to send, to the same file map, the same set of names, and the same log. -/
theorem sharing_refines_server {n : ℕ} (users : Fin n → User) (ipasstr : Fin n → Bytes)
    (steps : List (SharingStep n)) (s : Sharing n)
    (hrun : (sharing n).run (.start users ipasstr) steps = some s) :
    ∃ t, (server n).run (connected (fun i => (users i).participant) ipasstr)
        ((sharing n).trace (fun _ step => step.threads) (.start users ipasstr) steps) = some t ∧
      t.fileMap = s.server.fileMap ∧ t.clientSet = s.server.clientSet ∧ t.log = s.server.log ∧
      ∀ i, (t.sessions i).written = (s.server.sessions i).written ∧
        (t.sessions i).pc = (s.server.sessions i).pc := by
  obtain ⟨t, hrun, -, rfl⟩ := (sharing_simulates users).run
    ⟨fun i => (users i).tells_start, Sharing.whole_start users ipasstr⟩ hrun
  exact ⟨_, hrun, rfl, rfl, rfl, fun i => ⟨rfl, rfl⟩⟩

def poster : Fin 2 := ⟨0, Nat.zero_lt_two⟩

def asker : Fin 2 := ⟨1, Nat.one_lt_two⟩

/-- A user with a file, and one without; both list the files and leave. -/
def couple (i : Fin 2) : User :=
  if i.val = 0 then leaving else { leaving with name := ascii ['b'], port := 81, dir := [] }

/-- Both register, and the one without a file is about to ask for the list. -/
def asking : List (SharingStep 2) :=
  [.client poster .none, .client asker .none, .server poster, .server asker, .server asker, .server poster,
    .server poster, .server asker, .client asker .none, .client asker .none]

/-- The other one posts its file before the thread answers. -/
def answering : List (SharingStep 2) :=
  [.client poster .none, .server poster, .server poster, .server asker, .server asker]

theorem sharing_refines_server_answering : ∃ s,
    (sharing 2).run (.start couple fun _ => inetNtoa loopback) (asking ++ .client asker .none :: answering) =
        some s ∧ (s.server.fileMap.find (ascii ['x'])).isSome = true ∧
      ∃ t, (server 2).run (connected (fun i => (couple i).participant) fun _ => inetNtoa loopback)
          ((sharing 2).trace (fun _ step => step.threads) (.start couple fun _ => inetNtoa loopback)
            (asking ++ .client asker .none :: answering)) = some t ∧ t.fileMap = s.server.fileMap := by
  have hposted : ((sharing 2).run (.start couple fun _ => inetNtoa loopback)
      (asking ++ .client asker .none :: answering)).map
        (fun s => (s.server.fileMap.find (ascii ['x'])).isSome) = some true := by decide +kernel
  obtain ⟨s, hrun, hlisted⟩ := Option.map_eq_some_iff.1 hposted
  obtain ⟨t, ht, hmap, -⟩ := sharing_refines_server couple (fun _ => inetNtoa loopback)
    (asking ++ .client asker .none :: answering) s hrun
  exact ⟨s, hrun, hlisted, t, ht, hmap⟩

end NetworkSystems.FileShare
