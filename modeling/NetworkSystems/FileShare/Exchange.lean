import NetworkSystems.FileShare.Copies

/-!
# Transfers in pieces

`get` writes to its file whatever a read returns, and the listener reads the file that it sends as it goes.
Between two of these calls all the others may move: a file that has been fetched in part is served as it is,
and a peer may be gone in the middle. When nothing comes between, a transfer does what `get` does at once.
-/

namespace NetworkSystems.FileShare

/-- What the listener has done with a connection: it has yet to accept it, it sends the file `fname` and has
come to `offset`, or it has closed the connection. -/
inductive Answer
  | waiting
  | sending (fname : Bytes) (offset : ℕ)
  | closed
  deriving DecidableEq

/-- A `get` that has opened its file: the peer, the name of the file, what is on its way from the peer, and
`len`, once the header has been read. -/
structure Fetch (n : ℕ) where
  peer : Fin n
  filename : Bytes
  answer : Answer
  arriving : Bytes
  len : Option UInt32

structure Exchange (n : ℕ) extends Sharing n where
  fetches : Fin n → Option (Fetch n)

inductive ExchangeStep (n : ℕ)
  | server (i : Fin n)
  | client (i : Fin n) (chance : Chance)
  | connect (i : Fin n) (chance : Chance)
  | accept (i : Fin n) (chance : Chance)
  | send (i : Fin n) (count : ℕ)
  | hangUp (i : Fin n) (count : ℕ)
  | readHeader (i : Fin n) (chance : Chance)
  | read (i : Fin n) (count : ℕ)

/-! ### The calls of a transfer -/

/-- A read does not wait: something has arrived, or nothing more will. -/
def Fetch.Ready {n : ℕ} (f : Fetch n) : Prop := f.arriving ≠ [] ∨ f.answer = .closed

instance {n : ℕ} (f : Fetch n) : Decidable f.Ready := inferInstanceAs (Decidable (_ ∨ _))

/-- The condition of the loop: without anything left to read the file is closed. -/
def Fetch.left {n : ℕ} (f : Fetch n) (len : UInt32) (arriving : Bytes) : Option (Fetch n) :=
  if len = 0 then none else some { f with len := some len, arriving := arriving }

/-- What the listener does when it has read the name: it sends the size of the file as it is now. -/
def Fetch.accepted {n : ℕ} (f : Fetch n) (files : Bytes → Option Bytes) (fname : Bytes) : Fetch n :=
  match files fname with
  | some content => { f with answer := .sending fname 0, arriving := htonl (UInt32.ofNat content.length) }
  | none => { f with answer := .closed }

/-- The line of a `get` is read, and `fopen` has emptied the file. -/
def ClientT.opened (c : ClientT) (filename : Bytes) (stdin : List Bytes) : ClientT :=
  { c with stdin := stdin, disk := Function.update c.disk filename (some []) }

theorem ClientT.disk_opened (c : ClientT) (filename : Bytes) (stdin : List Bytes) :
    (c.opened filename stdin).disk = Function.update c.disk filename (some []) := rfl

/-- `fwrite` to the file that `get` has opened. -/
def ClientT.fwrite (c : ClientT) (filename buf : Bytes) : ClientT :=
  { c with disk := Function.update c.disk filename (some ((c.disk filename).getD [] ++ buf)) }

/-- Who accepts at an address. A client that has returned does not listen any more. -/
def Sharing.peer {n : ℕ} (s : Sharing n) (hostname : Bytes) (port : UInt16) : Option (Fin n) :=
  (List.finRange n).find? fun j =>
    (s.server.sessions j).ipasstr = hostname ∧ (s.clients j).port = port ∧ (s.clients j).state ≠ none

namespace Exchange

variable {n : ℕ}

def start (users : Fin n → User) (ipasstr : Fin n → Bytes) : Exchange n :=
  ⟨.start users ipasstr, fun _ => none⟩

def setFetch (x : Exchange n) (i : Fin n) (fetch : Option (Fetch n)) : Exchange n :=
  { x with fetches := Function.update x.fetches i fetch }

def setClient (x : Exchange n) (i : Fin n) (c : ClientT) : Exchange n :=
  { x with clients := Function.update x.clients i c }

/-- The listener of a client serves one connection after the other. What it goes on sending to a client that
has stopped reading does not count. -/
def busy (x : Exchange n) (j : Fin n) : Bool :=
  (List.finRange n).any fun k =>
    match x.fetches k with
    | some ⟨peer, _, .sending _ _, _, _⟩ => peer = j
    | _ => false

def serverStep (x : Exchange n) (i : Fin n) : Option (Exchange n) :=
  (x.toSharing.serverStep i).map fun s => { x with toSharing := s }

/-- A call of a state function, other than a `get` that opens its file. -/
def clientStep (x : Exchange n) (i : Fin n) (chance : Chance) : Option (Exchange n) :=
  if (x.fetches i).isNone then
    (x.toSharing.clientStep i { chance with opens := false }).map fun s => { x with toSharing := s }
  else none

/-- `get` as far as its request: the name is in the table, a peer accepts, and the file can be opened. -/
def connectStep (x : Exchange n) (i : Fin n) (chance : Chance) : Option (Exchange n) :=
  match x.fetches i, (x.clients i).state, (x.clients i).stdin with
  | none, some .waitForInput, line :: stdin =>
      if input line = .get then
        (trieGet (x.clients i).files (filenameOf line ++ 0 :: chance.mem)).bind fun found =>
          found.bind fun fs => (x.toSharing.peer fs.hostName fs.port).map fun j =>
            (x.setClient i ((x.clients i).opened (filenameOf line) stdin)).setFetch i
              (some ⟨j, filenameOf line, .waiting, [], none⟩)
      else none
  | _, _, _ => none

/-- The listener accepts a connection and reads the name. -/
def acceptStep (x : Exchange n) (i : Fin n) (chance : Chance) : Option (Exchange n) :=
  (x.fetches i).bind fun f =>
    if f.answer = .waiting ∧ (x.clients f.peer).state ≠ none ∧ x.busy f.peer = false then
      (readFname 8191 ⟨fileRequest f.filename, chance.toPeer⟩).map fun fname =>
        x.setFetch i (some (f.accepted (x.clients f.peer).disk (cString fname)))
    else none

/-- `fread` and `write` of the listener. How much `fread` gets of a file that may be written meanwhile is left
open: once it has met the end it gets nothing more, even if the file has grown since. -/
def sendStep (x : Exchange n) (i : Fin n) (count : ℕ) : Option (Exchange n) :=
  (x.fetches i).bind fun f =>
    match f.answer with
    | .sending fname offset =>
        if (x.clients f.peer).state ≠ none then
          let inbuf := ((((x.clients f.peer).disk fname).getD []).drop offset).take (min 4096 count)
          some (x.setFetch i (some (if inbuf = [] then { f with answer := .closed }
            else { f with
              answer := .sending fname (offset + inbuf.length)
              arriving := f.arriving ++ inbuf })))
        else none
    | _ => none

/-- The connection ends, as when the peer exits. Of what is on its way only a part may arrive. -/
def hangUpStep (x : Exchange n) (i : Fin n) (count : ℕ) : Option (Exchange n) :=
  (x.fetches i).map fun f =>
    x.setFetch i (some { f with answer := .closed, arriving := f.arriving.take count })

def readHeaderStep (x : Exchange n) (i : Fin n) (chance : Chance) : Option (Exchange n) :=
  (x.fetches i).bind fun f =>
    if f.len = none ∧ f.Ready then
      let result := Incoming.read ⟨f.arriving, chance.fromPeer⟩ 4
      some (x.setFetch i
        (f.left (ntohl (result.1 ++ chance.stale.drop result.1.length)) result.2.bytes))
    else none

/-- A pass of the loop of `get`. -/
def readStep (x : Exchange n) (i : Fin n) (count : ℕ) : Option (Exchange n) :=
  (x.fetches i).bind fun f => f.len.bind fun len =>
    if f.Ready then
      let buf := Incoming.read ⟨f.arriving, fun _ => count⟩ 4096
      some (if buf.1 = [] then x.setFetch i none
        else (x.setClient i ((x.clients i).fwrite f.filename buf.1)).setFetch i
          (f.left (len - UInt32.ofNat buf.1.length) buf.2.bytes))
    else none

end Exchange

def exchange (n : ℕ) : Machine (Exchange n) (ExchangeStep n) where
  step x
    | .server i => x.serverStep i
    | .client i chance => x.clientStep i chance
    | .connect i chance => x.connectStep i chance
    | .accept i chance => x.acceptStep i chance
    | .send i count => x.sendStep i count
    | .hangUp i count => x.hangUpStep i count
    | .readHeader i chance => x.readHeaderStep i chance
    | .read i count => x.readStep i count

/-! ### Transfers at once -/

namespace Exchange

variable {n : ℕ} {x : Exchange n} {i : Fin n}

def Leads (x next : Exchange n) : Prop := (exchange n).Reaches (fun _ _ => True) x next

section Leads

variable {f : Fetch n}

theorem setFetch_setFetch (x : Exchange n) (i : Fin n) (fetch last : Option (Fetch n)) :
    (x.setFetch i fetch).setFetch i last = x.setFetch i last := by
  rw [setFetch, setFetch, setFetch, Function.update_idem]

theorem setFetch_of_eq {fetch : Option (Fetch n)} (h : x.fetches i = fetch) : x.setFetch i fetch = x := by
  rw [setFetch, ← h, Function.update_eq_self]

/-- The listener can send all that is left of the file. -/
theorem leads_send (hf : x.fetches i = some f) {fname : Bytes} {offset : ℕ}
    (hanswer : f.answer = .sending fname offset) (hstate : (x.clients f.peer).state ≠ none) {rest : Bytes}
    (hrest : (((x.clients f.peer).disk fname).getD []).drop offset = rest) :
    x.Leads (x.setFetch i (some { f with answer := .closed, arriving := f.arriving ++ rest })) := by
  generalize hlength : rest.length = length
  induction length using Nat.strongRecOn generalizing x f offset rest with
  | ind length ih =>
      have hstep : (exchange n).step x (.send i 4096) = some (x.setFetch i (some
          (if rest.take 4096 = [] then { f with answer := .closed }
          else { f with
            answer := .sending fname (offset + (rest.take 4096).length)
            arriving := f.arriving ++ rest.take 4096 }))) := by
        change x.sendStep i 4096 = _
        simp only [sendStep, hf, Option.bind_some, hanswer, if_pos hstate, hrest, Nat.min_self]
      by_cases hend : rest.take 4096 = []
      · rw [if_pos hend] at hstep
        obtain rfl : rest = [] := (List.take_eq_nil_iff.1 hend).resolve_left (by decide)
        rw [List.append_nil]
        exact .single trivial hstep
      · rw [if_neg hend] at hstep
        have hpos := List.length_pos_iff.2 hend
        have hshorter : (rest.drop (rest.take 4096).length).length < length := by
          rw [List.length_drop]
          rw [List.length_take] at hpos ⊢
          omega
        have hnext := ih _ hshorter (x := x.setFetch i (some { f with
            answer := .sending fname (offset + (rest.take 4096).length)
            arriving := f.arriving ++ rest.take 4096 })) (Function.update_self _ _ _) rfl hstate
          (hrest ▸ (List.drop_drop).symm) rfl
        rw [setFetch_setFetch] at hnext
        dsimp only at hnext
        rw [List.append_assoc, List.prefix_iff_eq_append.1 (List.take_prefix 4096 rest)] at hnext
        exact .head trivial hstep hnext

theorem fwrite_nil {c : ClientT} {filename : Bytes} (hfile : c.disk filename ≠ none) :
    c.fwrite filename [] = c := by
  obtain ⟨content, hcontent⟩ := Option.ne_none_iff_exists'.1 hfile
  rw [ClientT.fwrite, hcontent, Option.getD_some, List.append_nil, ← hcontent, Function.update_eq_self]

theorem fwrite_fwrite (c : ClientT) (filename buf last : Bytes) :
    (c.fwrite filename buf).fwrite filename last = c.fwrite filename (buf ++ last) := by
  simp only [ClientT.fwrite, Function.update_self, Function.update_idem, Option.getD_some, List.append_assoc]

theorem setClient_self (x : Exchange n) (i : Fin n) : x.setClient i (x.clients i) = x := by
  rw [setClient, Function.update_eq_self]

theorem read_eq {len : UInt32} {fd : Incoming UInt8} (hclosed : f.answer = .closed) (hlen : len ≠ 0)
    (hfetch : x.fetches i = f.left len fd.bytes) : (exchange n).step x (.read i (fd.arrival 0)) =
      some (if (fd.read 4096).1 = [] then x.setFetch i none
        else (x.setClient i ((x.clients i).fwrite f.filename (fd.read 4096).1)).setFetch i
          (f.left (len - UInt32.ofNat (fd.read 4096).1.length) (fd.read 4096).2.bytes)) := by
  rw [Fetch.left, if_neg hlen] at hfetch
  change x.readStep i (fd.arrival 0) = _
  rw [readStep, hfetch, Option.bind_some, Option.bind_some]
  exact if_pos (Or.inr hclosed)

/-- When all has been sent, the loop of `get` can go on to its end. -/
theorem leads_download {len : UInt32} {fd : Incoming UInt8} (hclosed : f.answer = .closed)
    (hfetch : x.fetches i = f.left len fd.bytes) (hfile : (x.clients i).disk f.filename ≠ none) :
    x.Leads ((x.setClient i ((x.clients i).fwrite f.filename (download len fd).1)).setFetch i none) := by
  fun_induction download len fd generalizing x with
  | case1 fd =>
      rw [Fetch.left, if_pos rfl] at hfetch
      rw [fwrite_nil hfile, setClient_self, setFetch_of_eq hfetch]
      exact .refl
  | case2 len fd hlen hread =>
      have hstep := read_eq hclosed hlen hfetch
      rw [if_pos hread] at hstep
      rw [fwrite_nil hfile, setClient_self]
      exact .single trivial hstep
  | case3 len fd hlen hread rest =>
      rename_i ih
      have hstep := read_eq hclosed hlen hfetch
      rw [if_neg hread] at hstep
      refine .head trivial hstep ?_
      have hnext := ih (x := (x.setClient i ((x.clients i).fwrite f.filename (fd.read 4096).1)).setFetch i
        (f.left (len - UInt32.ofNat (fd.read 4096).1.length) (fd.read 4096).2.bytes))
        (Function.update_self _ _ _) ?_
      · simp only [setClient, setFetch, Function.update_self, Function.update_idem, fwrite_fwrite] at hnext ⊢
        exact hnext
      · simp only [setClient, setFetch, Function.update_self, ClientT.fwrite]
        exact Option.some_ne_none _

theorem leads_answer (hf : x.fetches i = some f) (hanswer : f.answer = .waiting) (harriving : f.arriving = [])
    (hstate : (x.clients f.peer).state ≠ none) (hbusy : x.busy f.peer = false) {chance : Chance} {sent : Bytes}
    (hsent : peerListener (x.clients f.peer).disk ⟨fileRequest f.filename, chance.toPeer⟩ = some sent) :
    x.Leads (x.setFetch i (some { f with answer := .closed, arriving := sent })) := by
  obtain ⟨fname, hfname, hsent⟩ := Option.map_eq_some_iff.1 hsent
  have hstep : (exchange n).step x (.accept i chance) =
      some (x.setFetch i (some (f.accepted (x.clients f.peer).disk (cString fname)))) := by
    change x.acceptStep i chance = _
    rw [acceptStep, hf, Option.bind_some, if_pos ⟨hanswer, hstate, hbusy⟩, hfname, Option.map_some]
  rw [Fetch.accepted] at hstep
  split at hsent
  case h_1 content hcontent =>
    rw [hcontent] at hstep
    have hrest := leads_send (i := i) (x := x.setFetch i (some { f with
      answer := .sending (cString fname) 0, arriving := htonl (UInt32.ofNat content.length) }))
      (Function.update_self _ _ _) rfl hstate (congrArg (fun file => (file.getD []).drop 0) hcontent)
    rw [setFetch_setFetch] at hrest
    rw [← hsent, sendLoop_eq]
    exact .head trivial hstep hrest
  case h_2 hcontent =>
    rw [hcontent] at hstep
    rw [← hsent, ← harriving]
    exact .single trivial hstep

/-- A transfer can go on to its end without anything else in between. -/
theorem leads_transfer (hf : x.fetches i = some f) (hfresh : f = ⟨f.peer, f.filename, .waiting, [], none⟩)
    (hfile : (x.clients i).disk f.filename ≠ none) (hstate : (x.clients f.peer).state ≠ none)
    (hbusy : x.busy f.peer = false) {chance : Chance} {result : Bytes × Bool}
    (hget : get (x.clients f.peer).disk f.filename chance.toPeer chance.fromPeer chance.stale = some result) :
    x.Leads ((x.setClient i ((x.clients i).fwrite f.filename result.1)).setFetch i none) := by
  obtain ⟨peer, filename, answer, arriving, _⟩ := f
  obtain ⟨-, -, rfl, rfl, rfl⟩ := (Fetch.mk.injEq ..).mp hfresh
  obtain ⟨sent, hsent, rfl⟩ := Option.map_eq_some_iff.1 hget
  have hanswer := leads_answer hf rfl rfl hstate hbusy hsent
  let header := Incoming.read ⟨sent, chance.fromPeer⟩ 4
  let g : Fetch n := ⟨peer, filename, .closed, sent, none⟩
  let len := ntohl (header.1 ++ chance.stale.drop header.1.length)
  have hg : (x.setFetch i (some g)).fetches i = some g := Function.update_self _ _ _
  have hheader : (exchange n).step (x.setFetch i (some g)) (.readHeader i chance) =
      some (x.setFetch i (g.left len header.2.bytes)) := by
    change readHeaderStep _ i chance = _
    rw [readHeaderStep, hg, Option.bind_some, if_pos ⟨rfl, Or.inr rfl⟩]
    exact congrArg some (setFetch_setFetch x i (some g) _)
  have hdownload := leads_download (i := i) (x := x.setFetch i (g.left len header.2.bytes)) (f := g) rfl
    (Function.update_self _ _ _) hfile
  have hlast := hanswer.trans (.head trivial hheader hdownload)
  simp only [setClient, setFetch, Function.update_idem] at hlast ⊢
  exact hlast

theorem busy_of_waiting {j : Fin n} (h : ∀ k f, x.fetches k = some f → f.answer = .waiting) :
    x.busy j = false := by
  rw [busy, List.any_eq_false]
  intro k _
  split
  case h_1 peer filename fname offset arriving len hk => cases h k _ hk
  case h_2 => decide

/-- A `get` at once is a run of its calls, with the same bytes in each of its reads. -/
theorem leads_get {s : Sharing n} {chance : Chance} {line : Bytes} {stdin : List Bytes} {fs : FileStat}
    {j : Fin n} {disk : Bytes → Option Bytes} (hstate : (s.clients i).state = some .waitForInput)
    (hstdin : (s.clients i).stdin = line :: stdin) (hline : input line = .get)
    (hfound : trieGet (s.clients i).files (filenameOf line ++ 0 :: chance.mem) = some (some fs))
    (hpeer : s.peer fs.hostName fs.port = some j) (hopens : chance.opens = true)
    (hdisk : getFile (s.clients i).disk (s.connect i) chance (filenameOf line) fs = some disk) :
    Leads ⟨s, fun _ => none⟩ ⟨{ s with
      clients := Function.update s.clients i { s.clients i with stdin := stdin, disk := disk } },
      fun _ => none⟩ := by
  let c := (s.clients i).opened (filenameOf line) stdin
  let f : Fetch n := ⟨j, filenameOf line, .waiting, [], none⟩
  obtain ⟨x, hx⟩ : ∃ x : Exchange n, x = (setClient ⟨s, fun _ => none⟩ i c).setFetch i (some f) := ⟨_, rfl⟩
  have hstep : (exchange n).step ⟨s, fun _ => none⟩ (.connect i chance) = some x := by
    change connectStep ⟨s, fun _ => none⟩ i chance = some x
    simp only [connectStep, hstate, hstdin, if_pos hline, hfound, Option.bind_some, hpeer, Option.map_some]
    exact congrArg some hx.symm
  have hf : x.fetches i = some f := hx ▸ Function.update_self _ _ _
  have hself : x.clients i = c := hx ▸ Function.update_self _ _ _
  have hother : ∀ k, k ≠ i → x.clients k = s.clients k ∧ x.fetches k = none := fun k hki =>
    hx ▸ ⟨Function.update_of_ne hki _ _, Function.update_of_ne hki _ _⟩
  have hlistens : (s.clients j).state ≠ none := by
    have hfind := List.find?_some hpeer
    rw [decide_eq_true_eq] at hfind
    exact hfind.2.2
  have hthere : (x.clients j).state ≠ none ∧ (s.listener i j).files c.disk = (x.clients j).disk := by
    rw [Sharing.listener]
    by_cases hji : j = i
    · subst hji
      rw [if_pos rfl, hself]
      exact ⟨hlistens, rfl⟩
    · rw [if_neg hji, (hother j hji).1]
      exact ⟨hlistens, rfl⟩
  have hbusy : x.busy j = false := busy_of_waiting fun k f' hk => by
    by_cases hki : k = i
    · subst hki
      exact Option.some.inj (hk.symm.trans hf) ▸ rfl
    · cases (hother k hki).2.symm.trans hk
  have hconnect : s.connect i fs.hostName fs.port = some (s.listener i j) :=
    congrArg (Option.map (s.listener i)) hpeer
  simp only [getFile, hconnect, hopens, if_true] at hdisk
  obtain ⟨result, hget, rfl⟩ := Option.map_eq_some_iff.1 hdisk
  have hget' : get (x.clients j).disk (filenameOf line) chance.toPeer chance.fromPeer chance.stale =
      some result := hthere.2 ▸ hget
  have hfile : (x.clients i).disk (filenameOf line) = some [] := by
    rw [hself, ClientT.disk_opened, Function.update_self]
  have hlast := leads_transfer hf rfl (by rw [hfile]; exact Option.some_ne_none _) hthere.1 hbusy hget'
  have hwritten : c.fwrite (filenameOf line) result.1 = { s.clients i with
      stdin := stdin
      disk := Function.update (Function.update (s.clients i).disk (filenameOf line) (some []))
        (filenameOf line) (some result.1) } := by
    rw [ClientT.fwrite, ClientT.disk_opened, Function.update_self]
    rfl
  have hend : (x.setClient i (c.fwrite (filenameOf line) result.1)).setFetch i none =
      ⟨{ s with clients := Function.update s.clients i (c.fwrite (filenameOf line) result.1) },
        fun _ => none⟩ := by
    have hnone : Function.update (fun _ => none : Fin n → Option (Fetch n)) i none = fun _ => none :=
      Function.update_eq_self i _
    simp only [hx, setClient, setFetch, Function.update_idem, hnone]
  rw [hself, hend, hwritten] at hlast
  exact .head trivial hstep hlast

/-- Whether a file can be opened only matters to a `get` that finds its peer. -/
theorem call_closed (c : ClientT) (hup : Bool) (connect : Bytes → UInt16 → Option Listener) (chance : Chance) :
    c.call hup connect { chance with opens := false } = c.call hup connect chance ∨
      ∃ line stdin fs listener, c.state = some .waitForInput ∧ c.stdin = line :: stdin ∧ input line = .get ∧
        trieGet c.files (filenameOf line ++ 0 :: chance.mem) = some (some fs) ∧
        connect fs.hostName fs.port = some listener ∧ chance.opens = true := by
  rw [or_iff_not_imp_right]
  intro hnot
  rw [ClientT.call, ClientT.call]
  cases hstate : c.state with
  | none => rfl
  | some state =>
      cases state with
      | initState | postFiles | listFiles | reading | exitClient => rfl
      | waitForInput =>
          dsimp only
          rw [ClientT.waitForInput, ClientT.waitForInput]
          cases hstdin : c.stdin with
          | nil => rfl
          | cons line stdin =>
              cases hline : input line with
              | ls | exit | unknown => simp only [hline]
              | get =>
                  simp only [hline, ClientT.getCommand]
                  rcases hfound : trieGet c.files (filenameOf line ++ 0 :: chance.mem) with _ | _ | fs
                  · rfl
                  · rfl
                  · cases hconnect : connect fs.hostName fs.port with
                    | none => simp only [Option.bind_some, getFile, hconnect]
                    | some listener =>
                        cases hopens : chance.opens with
                        | false => simp only [Option.bind_some, getFile, hconnect, hopens]
                        | true =>
                            exact absurd ⟨line, stdin, fs, listener, hstate, hstdin, hline, hfound, hconnect,
                              hopens⟩ hnot

/-- **Transfers at once are transfers.** Each step of the system with whole transfers is a run of the system
with transfers in pieces. -/
theorem leads_step {s next : Sharing n} {a : SharingStep n} (hstep : (sharing n).step s a = some next) :
    Leads ⟨s, fun _ => none⟩ ⟨next, fun _ => none⟩ := by
  let quiet : Sharing n → Exchange n := fun s => ⟨s, fun _ => none⟩
  cases a with
  | server i =>
      have hserver : (exchange n).step (quiet s) (.server i) = some (quiet next) :=
        congrArg (Option.map quiet) hstep
      exact .single trivial hserver
  | client i chance =>
      obtain hclosed | ⟨line, stdin, fs, listener, hstate, hstdin, hline, hfound, hconnect, hopens⟩ :=
        call_closed (s.clients i) (decide ((s.server.sessions i).pc = .closed)) (s.connect i) chance
      · have hsame : s.clientStep i { chance with opens := false } = some next := by
          rw [← hstep, Sharing.clientStep, hclosed]
          rfl
        have hclient : (exchange n).step (quiet s) (.client i chance) = some (quiet next) :=
          congrArg (Option.map quiet) hsame
        exact .single trivial hclient
      · obtain ⟨j, hpeer, rfl⟩ := Option.map_eq_some_iff.1 hconnect
        have hcall : (s.clients i).call (decide ((s.server.sessions i).pc = .closed)) (s.connect i) chance =
            (getFile (s.clients i).disk (s.connect i) chance (filenameOf line) fs).map fun disk =>
              { s.clients i with stdin := stdin, disk := disk } := by
          rw [ClientT.call, hstate]
          dsimp only
          rw [ClientT.waitForInput, hstdin]
          simp only [hline, ClientT.getCommand, hfound, Option.bind_some]
        cases hdisk : getFile (s.clients i).disk (s.connect i) chance (filenameOf line) fs with
        | none =>
            change s.clientStep i chance = some next at hstep
            rw [Sharing.clientStep, hcall, hdisk] at hstep
            cases hstep
        | some disk =>
            rw [hdisk] at hcall
            rw [show (sharing n).step s (.client i chance) = _ from Sharing.clientStep_of_call hcall rfl] at hstep
            obtain rfl := Option.some.inj hstep
            exact leads_get hstate hstdin hline hfound hpeer hopens hdisk

end Leads

end Exchange

/-- Every run with whole transfers is one with transfers in pieces. -/
theorem exchange_of_sharing {n : ℕ} {s next : Sharing n} {steps : List (SharingStep n)}
    (hrun : (sharing n).run s steps = some next) : Exchange.Leads ⟨s, fun _ => none⟩ ⟨next, fun _ => none⟩ :=
  (sharing n).invariant (I := fun t => Exchange.Leads ⟨s, fun _ => none⟩ ⟨t, fun _ => none⟩)
    (fun _ _ _ h hstep => h.trans (Exchange.leads_step hstep)) .refl hrun

end NetworkSystems.FileShare
