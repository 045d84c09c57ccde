import NetworkSystems.FileShare.Exchange

/-!
# Where bytes come from

A byte keeps its place on its way from one client to another: what is on its way belongs behind what has been
written, and the listener goes on behind that. So a byte of a file has been at that place of a file of that
name from the start, whatever is fetched, served or broken off at the same time.
-/

namespace NetworkSystems.FileShare

/-! ### Bytes and their places -/

/-- Each of the bytes, from the place `start` on, is one that some client has there in its file of that name. -/
def Supplied {n : ℕ} (users : Fin n → User) (name : Bytes) (start : ℕ) (bytes : Bytes) : Prop :=
  ∀ byte place, (byte, place) ∈ bytes.zipIdx start →
    ∃ j content, (users j).disk name = some content ∧ content[place]? = some byte

section Supplied

variable {n : ℕ} {users : Fin n → User} {name front back bytes : Bytes} {start : ℕ}

theorem supplied_nil (users : Fin n → User) (name : Bytes) (start : ℕ) : Supplied users name start [] := by
  intro byte place hmem
  rw [List.zipIdx_nil] at hmem
  cases hmem

theorem supplied_append : Supplied users name start (front ++ back) ↔
    Supplied users name start front ∧ Supplied users name (start + front.length) back := by
  simp only [Supplied, List.zipIdx_append, List.mem_append]
  constructor
  · exact fun h => ⟨fun byte place hmem => h byte place (Or.inl hmem),
      fun byte place hmem => h byte place (Or.inr hmem)⟩
  · rintro ⟨hfront, hback⟩ byte place (hmem | hmem)
    · exact hfront byte place hmem
    · exact hback byte place hmem

theorem Supplied.take (h : Supplied users name start bytes) (count : ℕ) :
    Supplied users name start (bytes.take count) := by
  rw [← List.take_append_drop count bytes] at h
  exact (supplied_append.1 h).1

theorem Supplied.drop (h : Supplied users name start bytes) {count : ℕ} (hcount : count ≤ bytes.length) :
    Supplied users name (start + count) (bytes.drop count) := by
  rw [← List.take_append_drop count bytes] at h
  have hback := (supplied_append.1 h).2
  rwa [List.length_take_of_le hcount] at hback

end Supplied

/-! ### What a transfer keeps -/

/-- What `get` can ask a peer for: the request has its newline, and the listener reads all of the name. -/
def Requestable (filename : Bytes) : Prop := filename.length < 4095 ∧ (0x0a : UInt8) ∉ filename

instance (filename : Bytes) : Decidable (Requestable filename) := inferInstanceAs (Decidable (_ ∧ _))

def User.Requests (u : User) : Prop := ∀ line ∈ u.stdin, input line = .get → Requestable (filenameOf line)

instance (u : User) : Decidable u.Requests := inferInstanceAs (Decidable (∀ line ∈ u.stdin, _ → _))

namespace Fetch

variable {n : ℕ} {f : Fetch n} {users : Fin n → User} {content : Bytes}

/-- What has arrived of the content and is not in the file. -/
def body (f : Fetch n) : Bytes := if f.len = none then f.arriving.drop 4 else f.arriving

/-- A `get` that has written `content`: what comes next belongs behind it, and the listener goes on behind
what is on its way. -/
structure Inv (users : Fin n → User) (content : Bytes) (f : Fetch n) : Prop where
  requestable : Requestable f.filename
  nul : (0 : UInt8) ∉ f.filename
  body : Supplied users f.filename content.length f.body
  unread : f.len = none → content = []
  waiting : f.answer = .waiting → f.len = none ∧ f.arriving = []
  sending : ∀ fname offset, f.answer = .sending fname offset →
    fname = f.filename ∧ offset = content.length + f.body.length ∧ (f.len = none → 4 ≤ f.arriving.length)

theorem body_of_none (hlen : f.len = none) : f.body = f.arriving.drop 4 := if_pos hlen

theorem body_of_some {len : UInt32} (hlen : f.len = some len) : f.body = f.arriving :=
  if_neg (by rw [hlen]; exact Option.some_ne_none len)

namespace Inv

theorem accept (h : f.Inv users content) (hanswer : f.answer = .waiting) (size : UInt32) :
    Inv users content { f with answer := .sending f.filename 0, arriving := htonl size } := by
  obtain ⟨hlen, -⟩ := h.waiting hanswer
  have hheader : (htonl size).length = 4 := length_bigEndian 4 _
  have hbody : Fetch.body { f with answer := .sending f.filename 0, arriving := htonl size } = [] :=
    (if_pos hlen).trans (List.drop_of_length_le hheader.le)
  refine ⟨h.requestable, h.nul, ?_, h.unread, ?_, ?_⟩
  · rw [hbody]
    exact supplied_nil _ _ _
  · intro hwaiting
    cases hwaiting
  · rintro fname offset ⟨⟩
    rw [hbody, h.unread hlen]
    exact ⟨rfl, rfl, fun _ => hheader.ge⟩

theorem close (h : f.Inv users content) (count : ℕ) :
    Inv users content { f with answer := .closed, arriving := f.arriving.take count } := by
  refine ⟨h.requestable, h.nul, ?_, h.unread, ?_, ?_⟩
  · have hbody := h.body
    cases hlen : f.len with
    | none =>
        rw [body_of_none hlen] at hbody
        rw [body_of_none rfl, List.drop_take]
        exact hbody.take _
    | some len =>
        rw [body_of_some hlen] at hbody
        rw [body_of_some rfl]
        exact hbody.take _
  · intro hwaiting
    cases hwaiting
  · intro fname offset hsending
    cases hsending

theorem closed (h : f.Inv users content) : Inv users content { f with answer := .closed } := by
  have hclosed := h.close f.arriving.length
  rwa [List.take_length] at hclosed

theorem send (h : f.Inv users content) {fname : Bytes} {offset : ℕ}
    (hanswer : f.answer = .sending fname offset) {source : Bytes} (hsource : Supplied users fname 0 source)
    (count : ℕ) : Inv users content { f with
      answer := .sending fname (offset + ((source.drop offset).take count).length)
      arriving := f.arriving ++ (source.drop offset).take count } := by
  obtain ⟨rfl, hoffset, hheader⟩ := h.sending fname offset hanswer
  generalize hinbuf : (source.drop offset).take count = inbuf
  have hbody : Fetch.body { f with
      answer := .sending f.filename (offset + inbuf.length)
      arriving := f.arriving ++ inbuf } = f.body ++ inbuf := by
    cases hlen : f.len with
    | none => rw [body_of_none rfl, body_of_none hlen, List.drop_append_of_le_length (hheader hlen)]
    | some len => rw [body_of_some rfl, body_of_some hlen]
  have hread : Supplied users f.filename offset inbuf := by
    rw [← hinbuf]
    by_cases hend : offset ≤ source.length
    · have hdrop := hsource.drop hend
      rw [Nat.zero_add] at hdrop
      exact hdrop.take count
    · rw [List.drop_of_length_le (Nat.le_of_not_le hend), List.take_nil]
      exact supplied_nil _ _ _
  refine ⟨h.requestable, h.nul, ?_, h.unread, ?_, ?_⟩
  · rw [hbody, supplied_append]
    exact ⟨h.body, hoffset ▸ hread⟩
  · intro hwaiting
    cases hwaiting
  · rintro _ _ ⟨⟩
    refine ⟨rfl, ?_, fun hlen => ?_⟩
    · rw [hbody, List.length_append, hoffset, Nat.add_assoc]
    · rw [List.length_append]
      exact (hheader hlen).trans (Nat.le_add_right _ _)

/-- The header is read as a whole, so what comes next is the content. -/
theorem readHeader (h : f.Inv users content) (hlen : f.len = none) (hready : f.Ready) (len : UInt32) :
    Inv users content { f with len := some len, arriving := f.arriving.drop 4 } := by
  have hbody : Fetch.body { f with len := some len, arriving := f.arriving.drop 4 } = f.body :=
    (body_of_some rfl).trans (body_of_none hlen).symm
  refine ⟨h.requestable, h.nul, hbody ▸ h.body, ?_, ?_, ?_⟩
  · intro hnone
    cases hnone
  · intro hwaiting
    rcases hready with harrived | hclosed
    · exact absurd (h.waiting hwaiting).2 harrived
    · cases hwaiting.symm.trans hclosed
  · intro fname offset hsending
    obtain ⟨hname, hoffset, -⟩ := h.sending fname offset hsending
    rw [hbody]
    refine ⟨hname, hoffset, ?_⟩
    intro hnone
    cases hnone

/-- A read moves bytes from the connection to the end of the file. -/
theorem read (h : f.Inv users content) {len : UInt32} (hlen : f.len = some len) {buf rest : Bytes}
    (harriving : buf ++ rest = f.arriving) (len' : UInt32) : Supplied users f.filename content.length buf ∧
      Inv users (content ++ buf) { f with len := some len', arriving := rest } := by
  have hbody := h.body
  rw [body_of_some hlen, ← harriving, supplied_append] at hbody
  have hrest : Fetch.body { f with len := some len', arriving := rest } = rest := body_of_some rfl
  refine ⟨hbody.1, h.requestable, h.nul, ?_, ?_, ?_, ?_⟩
  · rw [hrest, List.length_append]
    exact hbody.2
  · intro hnone
    cases hnone
  · intro hwaiting
    cases hlen.symm.trans (h.waiting hwaiting).1
  · intro fname offset hsending
    obtain ⟨hname, hoffset, -⟩ := h.sending fname offset hsending
    refine ⟨hname, ?_, ?_⟩
    · rw [hoffset, body_of_some hlen, ← harriving, hrest, List.length_append, List.length_append, Nat.add_assoc]
    · intro hnone
      cases hnone

end Inv

end Fetch

/-- A client has only files whose bytes are supplied, also while it is fetching one. -/
structure Fetching {n : ℕ} (users : Fin n → User) (i : Fin n) (c : ClientT) (fetch : Option (Fetch n)) :
    Prop where
  stdin : c.stdin <:+ (users i).stdin
  disk : ∀ name content, c.disk name = some content → Supplied users name 0 content
  fetch : ∀ f, fetch = some f → ∃ content, c.disk f.filename = some content ∧ f.Inv users content

def Exchange.Inv {n : ℕ} (users : Fin n → User) (x : Exchange n) : Prop :=
  ∀ i, Fetching users i (x.clients i) (x.fetches i)

theorem ClientT.Moves.disk_eq {c next : ClientT} {hup : Bool} {connect : Bytes → UInt16 → Option Listener}
    {chance : Chance} (h : c.Moves hup connect chance next) (hopens : chance.opens = false) :
    next.disk = c.disk := by
  cases h with
  | get hstate hstdin hline hdisk =>
      obtain ⟨found, -, hdisk⟩ := Option.bind_eq_some_iff.1 hdisk
      cases found with
      | none => exact (Option.some.inj hdisk).symm
      | some fs =>
          dsimp only at hdisk
          rw [getFile] at hdisk
          split at hdisk
          · exact (Option.some.inj hdisk).symm
          · rw [if_neg (by rw [hopens]; decide)] at hdisk
            exact (Option.some.inj hdisk).symm
  | _ => rfl

theorem notMem_filenameOf (line : Bytes) : (0 : UInt8) ∉ filenameOf line := by
  intro hmem
  rw [filenameOf] at hmem
  split at hmem
  case isTrue => exact not_mem_cString line (List.mem_of_mem_drop (List.mem_of_mem_dropLast hmem))
  case isFalse => exact not_mem_cString line (List.mem_of_mem_drop hmem)

namespace Exchange

variable {n : ℕ} {users : Fin n → User} {x next : Exchange n} {i : Fin n}

namespace Inv

theorem start (users : Fin n → User) (ipasstr : Fin n → Bytes) : (start users ipasstr).Inv users := fun i =>
  { stdin := List.suffix_refl _
    disk := fun name content hcontent byte place hmem =>
      ⟨i, content, hcontent, List.mk_mem_zipIdx_iff_getElem?.1 hmem⟩
    fetch := fun f hf => by cases hf }

theorem update (h : x.Inv users) {c : ClientT} {fetch : Option (Fetch n)} (hi : Fetching users i c fetch)
    (hclients : next.clients = Function.update x.clients i c)
    (hfetches : next.fetches = Function.update x.fetches i fetch) : next.Inv users := by
  intro j
  rw [hclients, hfetches]
  by_cases hji : j = i
  · subst hji
    rw [Function.update_self, Function.update_self]
    exact hi
  · rw [Function.update_of_ne hji, Function.update_of_ne hji]
    exact h j

theorem setFetch (h : x.Inv users) {fetch : Option (Fetch n)}
    (hfetch : ∀ f, fetch = some f →
      ∃ content, (x.clients i).disk f.filename = some content ∧ f.Inv users content) :
    (x.setFetch i fetch).Inv users :=
  h.update ⟨(h i).stdin, (h i).disk, hfetch⟩ (Function.update_eq_self _ _).symm rfl

theorem setClient (h : x.Inv users) {c : ClientT} (hstdin : c.stdin <:+ (x.clients i).stdin)
    (hdisk : c.disk = (x.clients i).disk) (hclients : next.clients = Function.update x.clients i c)
    (hfetches : next.fetches = x.fetches) : next.Inv users := by
  obtain ⟨hsuffix, hsupplied, hfetch⟩ := h i
  rw [← hdisk] at hsupplied hfetch
  exact h.update ⟨hstdin.trans hsuffix, hsupplied, hfetch⟩ hclients
    (hfetches.trans (Function.update_eq_self _ _).symm)

theorem serverStep (h : x.Inv users) (hstep : x.serverStep i = some next) : next.Inv users := by
  obtain ⟨s, hserver, rfl⟩ := Option.map_eq_some_iff.1 hstep
  obtain ⟨t, -, -, rfl⟩ := Sharing.serverStep_eq_some hserver
  exact h.setClient (c := (x.clients i).arrive _) (List.suffix_refl _) rfl rfl rfl

theorem clientStep (h : x.Inv users) {chance : Chance} (hstep : x.clientStep i chance = some next) :
    next.Inv users := by
  rw [Exchange.clientStep] at hstep
  split at hstep
  case isFalse => cases hstep
  case isTrue =>
    obtain ⟨s, hclient, rfl⟩ := Option.map_eq_some_iff.1 hstep
    obtain ⟨c, hmove, rfl⟩ := Sharing.clientStep_eq_some hclient
    exact h.setClient (i := i) hmove.stdin_suffix (hmove.disk_eq rfl) rfl rfl

theorem connectStep (h : x.Inv users) (hrequests : (users i).Requests) {chance : Chance}
    (hstep : x.connectStep i chance = some next) : next.Inv users := by
  rw [Exchange.connectStep] at hstep
  split at hstep
  case h_2 => cases hstep
  case h_1 line stdin _ _ hstdin =>
    split at hstep
    case isFalse => cases hstep
    case isTrue hline =>
      obtain ⟨found, -, hstep⟩ := Option.bind_eq_some_iff.1 hstep
      obtain ⟨fs, -, hstep⟩ := Option.bind_eq_some_iff.1 hstep
      obtain ⟨j, -, rfl⟩ := Option.map_eq_some_iff.1 hstep
      have hlines : line :: stdin <:+ (users i).stdin := hstdin ▸ (h i).stdin
      have hempty : ∀ place, Supplied users (filenameOf line) place [] := supplied_nil users _
      refine h.update (c := (x.clients i).opened (filenameOf line) stdin)
        ⟨(List.suffix_cons _ _).trans hlines, fun name content hcontent => ?_, ?_⟩ rfl rfl
      · rw [ClientT.disk_opened] at hcontent
        by_cases hname : name = filenameOf line
        · subst hname
          rw [Function.update_self] at hcontent
          exact Option.some.inj hcontent ▸ hempty 0
        · rw [Function.update_of_ne hname] at hcontent
          exact (h i).disk name content hcontent
      · rintro f ⟨⟩
        exact ⟨[], Function.update_self _ _ _,
          { requestable := hrequests line (hlines.subset List.mem_cons_self) hline
            nul := notMem_filenameOf line
            body := hempty _
            unread := fun _ => rfl
            waiting := fun _ => ⟨rfl, rfl⟩
            sending := fun _ _ hsending => by cases hsending }⟩

theorem acceptStep (h : x.Inv users) {chance : Chance} (hstep : x.acceptStep i chance = some next) :
    next.Inv users := by
  obtain ⟨f, hf, hstep⟩ := Option.bind_eq_some_iff.1 hstep
  obtain ⟨content, hcontent, hinv⟩ := (h i).fetch f hf
  split at hstep
  case isFalse => cases hstep
  case isTrue hanswer =>
    obtain ⟨hlength, hnewline⟩ := hinv.requestable
    have hline : readFname 8191 ⟨fileRequest f.filename, chance.toPeer⟩ = some f.filename := by
      rw [fileRequest, List.take_of_length_le (by rw [List.length_append, List.length_singleton]; omega)]
      exact readFname_line (by omega) hnewline _
    rw [hline, Option.map_some, cString_eq_self hinv.nul] at hstep
    obtain rfl := Option.some.inj hstep
    refine h.setFetch fun f' hf' => ?_
    obtain rfl := Option.some.inj hf'
    rw [Fetch.accepted]
    split
    · exact ⟨content, hcontent, hinv.accept hanswer.1 _⟩
    · exact ⟨content, hcontent, hinv.closed⟩

theorem sendStep (h : x.Inv users) {count : ℕ} (hstep : x.sendStep i count = some next) : next.Inv users := by
  obtain ⟨f, hf, hstep⟩ := Option.bind_eq_some_iff.1 hstep
  obtain ⟨content, hcontent, hinv⟩ := (h i).fetch f hf
  split at hstep
  case h_2 => cases hstep
  case h_1 fname offset hanswer =>
    split at hstep
    case isFalse => cases hstep
    case isTrue =>
      obtain rfl := Option.some.inj hstep
      refine h.setFetch fun f' hf' => ?_
      obtain rfl := Option.some.inj hf'
      split
      · exact ⟨content, hcontent, hinv.closed⟩
      · have hsource : Supplied users fname 0 (((x.clients f.peer).disk fname).getD []) := by
          cases hdisk : (x.clients f.peer).disk fname with
          | none => exact supplied_nil _ _ _
          | some source => exact (h f.peer).disk fname source hdisk
        exact ⟨content, hcontent, hinv.send hanswer hsource _⟩

theorem hangUpStep (h : x.Inv users) {count : ℕ} (hstep : x.hangUpStep i count = some next) :
    next.Inv users := by
  obtain ⟨f, hf, rfl⟩ := Option.map_eq_some_iff.1 hstep
  obtain ⟨content, hcontent, hinv⟩ := (h i).fetch f hf
  refine h.setFetch fun f' hf' => ?_
  obtain rfl := Option.some.inj hf'
  exact ⟨content, hcontent, hinv.close count⟩

theorem readHeaderStep (h : x.Inv users) {chance : Chance} (hwhole : 4 ≤ chance.fromPeer 0)
    (hstep : x.readHeaderStep i chance = some next) : next.Inv users := by
  obtain ⟨f, hf, hstep⟩ := Option.bind_eq_some_iff.1 hstep
  obtain ⟨content, hcontent, hinv⟩ := (h i).fetch f hf
  split at hstep
  case isFalse => cases hstep
  case isTrue hready =>
    have hrest : (Incoming.read ⟨f.arriving, chance.fromPeer⟩ 4).2.bytes = f.arriving.drop 4 := by
      rw [Incoming.read, min_eq_left (le_max_of_le_right hwhole)]
    obtain rfl := Option.some.inj hstep
    refine h.setFetch fun f' hf' => ?_
    rw [hrest, Fetch.left] at hf'
    split at hf'
    case isTrue => cases hf'
    case isFalse =>
      obtain rfl := Option.some.inj hf'
      exact ⟨content, hcontent, hinv.readHeader hready.1 hready.2 _⟩

theorem readStep (h : x.Inv users) {count : ℕ} (hstep : x.readStep i count = some next) : next.Inv users := by
  obtain ⟨f, hf, hstep⟩ := Option.bind_eq_some_iff.1 hstep
  obtain ⟨len, hlen, hstep⟩ := Option.bind_eq_some_iff.1 hstep
  obtain ⟨content, hcontent, hinv⟩ := (h i).fetch f hf
  split at hstep
  case isFalse => cases hstep
  case isTrue =>
    obtain rfl := Option.some.inj hstep
    split
    · refine h.setFetch fun f' hf' => ?_
      cases hf'
    · have hread := Incoming.read_append ⟨f.arriving, fun _ => count⟩ 4096
      have hbuf := (hinv.read hlen hread 0).1
      have hfile : ((x.clients i).fwrite f.filename (Incoming.read ⟨f.arriving, fun _ => count⟩ 4096).1).disk =
          Function.update (x.clients i).disk f.filename
            (some (content ++ (Incoming.read ⟨f.arriving, fun _ => count⟩ 4096).1)) := by
        rw [ClientT.fwrite, hcontent, Option.getD_some]
      refine h.update (c := (x.clients i).fwrite f.filename _)
        ⟨(h i).stdin, fun name written hwritten => ?_, fun f' hf' => ?_⟩ rfl rfl
      · rw [hfile] at hwritten
        by_cases hname : name = f.filename
        · subst hname
          rw [Function.update_self] at hwritten
          obtain rfl := Option.some.inj hwritten
          have hold := (h i).disk f.filename content hcontent
          exact supplied_append.2 ⟨hold, (Nat.zero_add content.length).symm ▸ hbuf⟩
        · rw [Function.update_of_ne hname] at hwritten
          exact (h i).disk name written hwritten
      · rw [Fetch.left] at hf'
        split at hf'
        case isTrue => cases hf'
        case isFalse =>
          obtain rfl := Option.some.inj hf'
          refine ⟨_, ?_, (hinv.read hlen hread _).2⟩
          rw [hfile]
          exact Function.update_self _ _ _

theorem step (h : x.Inv users) (hrequests : ∀ j, (users j).Requests) {a : ExchangeStep n}
    (hwhole : ∀ i chance, a = .readHeader i chance → 4 ≤ chance.fromPeer 0)
    (hstep : (exchange n).step x a = some next) : next.Inv users := by
  cases a with
  | server i => exact h.serverStep hstep
  | client i chance => exact h.clientStep hstep
  | connect i chance => exact h.connectStep (hrequests i) hstep
  | accept i chance => exact h.acceptStep hstep
  | send i count => exact h.sendStep hstep
  | hangUp i count => exact h.hangUpStep hstep
  | readHeader i chance => exact h.readHeaderStep (hwhole i chance rfl) hstep
  | read i count => exact h.readStep hstep

end Inv

end Exchange

/-- **No byte is made up.** In every run in which each header of a transfer is read as a whole, at any time,
also while a file is fetched or after a peer has gone in the middle, a byte of a file is one that some client
had at that place of its file of that name at the start. -/
theorem bytes_come_from_users {n : ℕ} (users : Fin n → User) (ipasstr : Fin n → Bytes)
    (hrequests : ∀ j, (users j).Requests) (steps : List (ExchangeStep n)) (x : Exchange n)
    (hwhole : ∀ i chance, .readHeader i chance ∈ steps → 4 ≤ chance.fromPeer 0)
    (hrun : (exchange n).run (.start users ipasstr) steps = some x) (i : Fin n) (name content : Bytes)
    (hcontent : (x.clients i).disk name = some content) (place : ℕ) (byte : UInt8)
    (hbyte : content[place]? = some byte) :
    ∃ j source, (users j).disk name = some source ∧ source[place]? = some byte := by
  have hwithin : (exchange n).Within
      (fun _ a => ∀ i chance, a = .readHeader i chance → 4 ≤ chance.fromPeer 0) (.start users ipasstr) steps := by
    apply Machine.within_of_forall
    intro a ha _ i chance heq
    exact hwhole i chance (heq ▸ ha)
  have hinv := (exchange n).invariant_of_within (I := Exchange.Inv users)
    (fun _ _ _ h hwhole hstep => h.step hrequests hwhole hstep) (.start users ipasstr) hwithin hrun
  exact (hinv i).disk name content hcontent byte place (List.mk_mem_zipIdx_iff_getElem?.2 hbyte)

/-- The file `x` of the first one has two bytes. -/
def lending (i : Fin 2) : User :=
  { pair i with disk := fun name => if i = poster ∧ name = ascii ['x'] then some [7, 8] else none }

/-- The peer is gone when it has sent one byte. -/
def parting : List (ExchangeStep 2) :=
  listed.map (fun move => if move.1 then .server move.2 else .client move.2 .none) ++
    [.connect asker .none, .accept asker .none, .send asker 1, .readHeader asker .none, .read asker 1,
      .hangUp asker 0, .read asker 1]

theorem bytes_come_from_users_parting : ∃ x,
    (exchange 2).run (.start lending fun _ => inetNtoa loopback) parting = some x ∧
      (x.clients asker).disk (ascii ['x']) = some [7] ∧ (x.fetches asker).isNone = true ∧
      ∃ j source, (lending j).disk (ascii ['x']) = some source ∧ source[0]? = some 7 := by
  have hlast : ((exchange 2).run (.start lending fun _ => inetNtoa loopback) parting).map (fun x =>
      decide ((x.clients asker).disk (ascii ['x']) = some [7] ∧ (x.fetches asker).isNone = true)) =
        some true := by decide +kernel
  obtain ⟨x, hrun, hx⟩ := Option.map_eq_some_iff.1 hlast
  obtain ⟨hfile, hdone⟩ := of_decide_eq_true hx
  have hwhole : ∀ i chance, .readHeader i chance ∈ parting → 4 ≤ chance.fromPeer 0 := by
    intro i chance hmem
    rcases List.mem_append.1 hmem with hmem | hmem
    · obtain ⟨move, -, heq⟩ := List.mem_map.1 hmem
      split at heq <;> cases heq
    · obtain ⟨-, rfl⟩ : i = asker ∧ chance = .none := by simpa using hmem
      decide
  exact ⟨x, hrun, hfile, hdone, bytes_come_from_users lending (fun _ => inetNtoa loopback) (by decide +kernel)
    parting x hwhole hrun asker (ascii ['x']) [7] hfile 0 7 rfl⟩

end NetworkSystems.FileShare
