import NetworkSystems.Lib.Scanf
import NetworkSystems.LinkState.Network

/-!
# The initialization file

`parse_router` reads records `<id,port,id,port,cost>` with `fscanf` and keeps those of its own router. It
stops without an error where the input ends before the first field, and with an error at the first record
that lacks a field. The table has room for 32 rows, which the code does not check.
-/

namespace NetworkSystems.LinkState

structure NeighborT extends Neighbor where
  outgoingTcpPort : UInt16
  destTcpPort : UInt16
  servFd : Int
  deriving DecidableEq

/-- What one call of `fscanf` fills in: `tmp_id`, `cost` and the fields of `temp_entry`. -/
structure FileRow where
  tmpId : UInt8
  outgoingTcpPort : UInt16
  nodeId : UInt8
  destTcpPort : UInt16
  cost : Int32
  deriving DecidableEq

/-- `temp_entry` with the cost cut to a byte. The rest is zero. -/
def FileRow.tempEntry (row : FileRow) : NeighborT where
  nodeId := row.nodeId
  cost := row.cost.toUInt32.toUInt8
  sockFd := 0
  outgoingTcpPort := row.outgoingTcpPort
  destTcpPort := row.destTcpPort
  servFd := 0

/-- `tmp_id == router_id`: a signed character against a `uint8_t`. -/
def FileRow.isFor (row : FileRow) (routerId : UInt8) : Bool := row.tmpId.toInt8.toInt = routerId.toNat

/-- A directive that fails after some fields have been filled. -/
def filled {α : Type} (n : Nat) : Except ScanFailure α → Except (ScanFailure × Nat) α :=
  Except.mapError fun failure => (failure, n)

/-- `fscanf` with `"<%c,%hu,%c,%hu,%d>"`: the fields and the bytes after them, or how it fails and after how
many fields. The last directive fills nothing. -/
def scanRow (file : List UInt8) : Except (ScanFailure × Nat) (FileRow × List UInt8) := do
  let file ← filled 0 (scanLiteral 0x3c file)
  let (tmpId, file) ← filled 0 (scanChar file)
  let file ← filled 1 (scanLiteral 0x2c file)
  let (outgoing, file) ← filled 1 (scanNumber file)
  let file ← filled 2 (scanLiteral 0x2c file)
  let (nodeId, file) ← filled 2 (scanChar file)
  let file ← filled 3 (scanLiteral 0x2c file)
  let (dest, file) ← filled 3 (scanNumber file)
  let file ← filled 4 (scanLiteral 0x2c file)
  let (cost, file) ← filled 4 (scanNumber file)
  return (⟨tmpId, .ofNat (strtoul outgoing), nodeId, .ofNat (strtoul dest), .ofInt (strtol cost)⟩,
    (scanLiteral 0x3e file).toOption.getD file)

/-! ### What a record is -/

/-- A record up to its cost. -/
def Record (bytes : List UInt8) (row : FileRow) : Prop :=
  ∃ outgoing dest cost a b c, Numeral a outgoing ∧ Numeral b dest ∧ Numeral c cost ∧
    bytes = 0x3c :: row.tmpId :: 0x2c :: (a ++ 0x2c :: row.nodeId :: 0x2c :: (b ++ 0x2c :: c)) ∧
    row.outgoingTcpPort = .ofNat (strtoul outgoing) ∧ row.destTcpPort = .ofNat (strtoul dest) ∧
    row.cost = .ofInt (strtol cost)

section Scan

variable {file rest tail : List UInt8} {row : FileRow}

theorem filled_eq_ok {α : Type} {n : Nat} {result : Except ScanFailure α} {a : α} :
    filled n result = .ok a ↔ result = .ok a := by
  cases result with
  | ok => exact ⟨fun h => congrArg _ (Except.ok.inj h), fun h => congrArg _ (Except.ok.inj h)⟩
  | error => exact iff_of_false nofun nofun

theorem filled_eq_error {α : Type} {n m : Nat} {result : Except ScanFailure α} {failure : ScanFailure} :
    filled n result = .error (failure, m) ↔ result = .error failure ∧ n = m := by
  cases result with
  | ok => exact iff_of_false nofun nofun
  | error e => rw [filled, Except.mapError, Except.error.injEq, Prod.mk.injEq, Except.error.injEq]

theorem bind_eq_ok {ε α β : Type} {x : Except ε α} {f : α → Except ε β} {b : β} :
    (x >>= f) = .ok b ↔ ∃ a, x = .ok a ∧ f a = .ok b := by
  cases x with
  | ok a => exact ⟨fun h => ⟨a, rfl, h⟩, fun ⟨_, h, hf⟩ => Except.ok.inj h ▸ hf⟩
  | error e => exact iff_of_false nofun nofun

theorem bind_eq_error {ε α β : Type} {x : Except ε α} {f : α → Except ε β} {e : ε} :
    (x >>= f) = .error e ↔ x = .error e ∨ ∃ a, x = .ok a ∧ f a = .error e := by
  cases x with
  | ok a => exact ⟨fun h => Or.inr ⟨a, rfl, h⟩, fun h => h.elim nofun fun ⟨_, h, hf⟩ => Except.ok.inj h ▸ hf⟩
  | error e' => exact ⟨fun h => Or.inl (congrArg _ (Except.error.inj h)), fun h => h.elim
      (fun h => congrArg _ (Except.error.inj h)) nofun⟩

theorem stops_comma (rest : List UInt8) : Stops (0x2c :: rest) := by
  intro ch hch
  obtain rfl := Option.some.inj hch
  decide

theorem scanRow_eq_ok : scanRow file = .ok (row, rest) ↔
    ∃ bytes tail, file = bytes ++ tail ∧ Record bytes row ∧ Stops tail ∧
      rest = (scanLiteral 0x3e tail).toOption.getD tail := by
  simp only [scanRow, bind_eq_ok, filled_eq_ok, Prod.exists, scanLiteral_eq_ok, scanChar_eq_ok,
    scanNumber_eq_ok, pure, Except.pure, Except.ok.injEq, Prod.mk.injEq]
  constructor
  · rintro ⟨f₁, rfl, tmpId, f₂, rfl, f₃, rfl, o₁, o₂, f₄, ⟨a, rfl, ha, -⟩, f₅, rfl, nodeId, f₆, rfl, f₇, rfl,
      d₁, d₂, f₈, ⟨b, rfl, hb, -⟩, f₉, rfl, c₁, c₂, tail, ⟨c, rfl, hc, hstops⟩, rfl, rfl⟩
    exact ⟨_, tail, by simp, ⟨_, _, _, a, b, c, ha, hb, hc, rfl, rfl, rfl, rfl⟩, hstops, rfl⟩
  · rintro ⟨_, tail, rfl, ⟨⟨o₁, o₂⟩, ⟨d₁, d₂⟩, ⟨c₁, c₂⟩, a, b, c, ha, hb, hc, rfl, houtgoing, hdest, hcost⟩,
      hstops, rfl⟩
    refine ⟨_, rfl, _, _, rfl, _, rfl, o₁, o₂, 0x2c :: row.nodeId :: 0x2c :: (b ++ 0x2c :: (c ++ tail)),
      ⟨a, by simp, ha, stops_comma _⟩, _, rfl, _, _, rfl, _, rfl, d₁, d₂, _,
      ⟨b, rfl, hb, stops_comma _⟩, _, rfl, c₁, c₂, tail, ⟨c, rfl, hc, hstops⟩, ?_, rfl⟩
    rw [← houtgoing, ← hdest, ← hcost]

/-- Only the end of the file, also right after a `<`, is the end of the input to `fscanf`. -/
theorem scanRow_eof : scanRow file = .error (.input, 0) ↔ file = [] ∨ file = [0x3c] := by
  simp only [scanRow, bind_eq_error, filled_eq_error, filled_eq_ok, scanLiteral_eq_ok, and_true,
    OfNat.ofNat_ne_zero, one_ne_zero, and_false, exists_const, pure, Except.pure, reduceCtorEq, or_false]
  cases file with
  | nil => exact iff_of_true (Or.inl rfl) (Or.inl rfl)
  | cons c file =>
      by_cases hc : c = 0x3c
      · cases file with
        | nil => exact iff_of_true (Or.inr ⟨[], by rw [hc], rfl⟩) (Or.inr (by rw [hc]))
        | cons c' file =>
            refine iff_of_false ?_ (by simp)
            simp [scanLiteral, scanChar, hc]
      · refine iff_of_false ?_ (by simp [hc])
        simp [scanLiteral, hc]

theorem Record.length_pos {bytes : List UInt8} (h : Record bytes row) : 0 < bytes.length := by
  obtain ⟨_, _, _, a, b, c, -, -, -, rfl, -⟩ := h
  exact Nat.succ_pos _

theorem scanRow_length (h : scanRow file = .ok (row, rest)) : rest.length < file.length := by
  obtain ⟨bytes, tail, rfl, hrecord, -, rfl⟩ := scanRow_eq_ok.1 h
  have hpos := hrecord.length_pos
  have hle : ((scanLiteral 0x3e tail).toOption.getD tail).length ≤ tail.length := by
    cases hclose : scanLiteral 0x3e tail with
    | error e => exact Nat.le_refl _
    | ok rest =>
        rw [scanLiteral_eq_ok.1 hclose]
        exact Nat.le_succ _
  rw [List.length_append]
  omega

end Scan

/-! ### The loop -/

/-- The loop of `parse_router`: what it returns, and the neighbors table. After each record `fgetc` reads one
more byte, if there is one. -/
def parseLoop (routerId : UInt8) (neighbors : List NeighborT) (file : List UInt8) :
    Option (Int × List NeighborT) :=
  match _h : scanRow file with
  | .error (.input, 0) => some (0, neighbors)
  | .error _ => some (2, neighbors)
  | .ok (row, rest) =>
      if row.isFor routerId then
        if neighbors.length < maxNumRouters then
          parseLoop routerId (neighbors ++ [row.tempEntry]) (rest.drop 1)
        else none
      else parseLoop routerId neighbors (rest.drop 1)
termination_by file.length
decreasing_by
  all_goals
    have := scanRow_length _h
    rw [List.length_drop]
    omega

/-- `parse_router`, on what `fopen` finds. Apart from the table the router is `Router.parsed`. -/
def parseRouter (routerId : UInt8) : Option (List UInt8) → Option (Int × List NeighborT)
  | none => some (1, [])
  | some file => parseLoop routerId [] file

section Loop

variable {routerId : UInt8} {neighbors : List NeighborT} {file rest : List UInt8} {row : FileRow}

theorem parseLoop_ok (h : scanRow file = .ok (row, rest)) : parseLoop routerId neighbors file =
    if row.isFor routerId then
      if neighbors.length < maxNumRouters then
        parseLoop routerId (neighbors ++ [row.tempEntry]) (rest.drop 1)
      else none
    else parseLoop routerId neighbors (rest.drop 1) := by
  rw [parseLoop]
  split
  case h_1 heq => cases h.symm.trans heq
  case h_2 heq => cases h.symm.trans heq
  case h_3 heq =>
    obtain ⟨rfl, rfl⟩ := Prod.mk.inj (Except.ok.inj (h.symm.trans heq))
    rfl

theorem parseLoop_error {e : ScanFailure × Nat} (h : scanRow file = .error e) :
    parseLoop routerId neighbors file =
      some (if file = [] ∨ file = [0x3c] then 0 else 2, neighbors) := by
  rw [parseLoop]
  split
  case h_1 heq => rw [if_pos (scanRow_eof.1 heq)]
  case h_2 hne heq =>
    rw [if_neg fun heof => hne (Except.error.inj (heq.symm.trans (scanRow_eof.2 heof)))]
  case h_3 heq => cases h.symm.trans heq

end Loop

/-! ### The records of a file -/

/-- What stands between a record and the next one: the bracket and one byte, or any byte that can neither be
the bracket nor belong to the cost. At the end of the file either may be missing. -/
inductive Closing : List UInt8 → List UInt8 → Prop
  | bracket (ch : UInt8) (more : List UInt8) : Closing [0x3e, ch] more
  | other (ch : UInt8) (more : List UInt8) (hbracket : ch ≠ 0x3e) (hdigit : isDecimal ch = false) :
      Closing [ch] more
  | last : Closing [0x3e] []
  | missing : Closing [] []

/-- The file has these records in front of the tail. -/
inductive Rows (tail : List UInt8) : List UInt8 → List FileRow → Prop
  | done : Rows tail tail []
  | row {bytes close more : List UInt8} {row : FileRow} {rows : List FileRow} (hrecord : Record bytes row)
      (hclose : Closing close more) (hrows : Rows tail more rows) :
      Rows tail (bytes ++ (close ++ more)) (row :: rows)

def Rejected (tail : List UInt8) : Prop :=
  ∀ bytes rest row, tail = bytes ++ rest → Record bytes row → ¬ Stops rest

def rowsFor (routerId : UInt8) (rows : List FileRow) : List NeighborT :=
  (rows.filter fun row => row.isFor routerId).map FileRow.tempEntry

section Rows

variable {routerId : UInt8} {neighbors : List NeighborT} {file tail : List UInt8} {rows : List FileRow}

theorem Closing.stops {close more : List UInt8} (h : Closing close more) : Stops (close ++ more) := by
  intro c hc
  cases h with
  | bracket ch more =>
      obtain rfl := Option.some.inj hc
      decide
  | other ch more hbracket hdigit =>
      obtain rfl := Option.some.inj hc
      exact hdigit
  | last =>
      obtain rfl := Option.some.inj hc
      decide
  | missing => cases hc

theorem Closing.rest {close more : List UInt8} (h : Closing close more) :
    ((scanLiteral 0x3e (close ++ more)).toOption.getD (close ++ more)).drop 1 = more := by
  cases h with
  | bracket => rfl
  | other ch more hbracket hdigit =>
      rw [List.singleton_append, scanLiteral, if_neg hbracket]
      rfl
  | last => rfl
  | missing => rfl

theorem exists_closing (h : Stops tail) : ∃ close more, tail = close ++ more ∧ Closing close more := by
  cases tail with
  | nil => exact ⟨[], [], rfl, .missing⟩
  | cons ch tail =>
      by_cases hbracket : ch = 0x3e
      · subst hbracket
        cases tail with
        | nil => exact ⟨[0x3e], [], rfl, .last⟩
        | cons c tail => exact ⟨[0x3e, c], tail, rfl, .bracket c tail⟩
      · exact ⟨[ch], tail, rfl, .other ch tail hbracket (h ch rfl)⟩

theorem rejected_iff : Rejected tail ↔ ∃ e, scanRow tail = .error e := by
  constructor
  · intro h
    cases hscan : scanRow tail with
    | error e => exact ⟨e, rfl⟩
    | ok result =>
        obtain ⟨bytes, rest, htail, hrecord, hstops, -⟩ := scanRow_eq_ok.1 hscan
        exact absurd hstops (h bytes rest _ htail hrecord)
  · rintro ⟨e, he⟩ bytes rest row htail hrecord hstops
    cases he.symm.trans (scanRow_eq_ok.2 ⟨bytes, rest, htail, hrecord, hstops, rfl⟩)

theorem exists_rows (file : List UInt8) : ∃ rows tail, Rows tail file rows ∧ Rejected tail := by
  induction hn : file.length using Nat.strongRecOn generalizing file with
  | ind n ih =>
      cases hscan : scanRow file with
      | error e => exact ⟨[], file, .done, rejected_iff.2 ⟨e, hscan⟩⟩
      | ok result =>
          obtain ⟨row, rest⟩ := result
          obtain ⟨bytes, back, rfl, hrecord, hstops, -⟩ := scanRow_eq_ok.1 hscan
          obtain ⟨close, more, rfl, hclose⟩ := exists_closing hstops
          have hlt : more.length < n := by
            have hpos := hrecord.length_pos
            rw [← hn, List.length_append, List.length_append]
            omega
          obtain ⟨rows, tail, hrows, htail⟩ := ih _ hlt more rfl
          exact ⟨row :: rows, tail, .row hrecord hclose hrows, htail⟩

theorem rowsFor_cons (row : FileRow) : rowsFor routerId (row :: rows) =
    if row.isFor routerId then row.tempEntry :: rowsFor routerId rows else rowsFor routerId rows := by
  rw [rowsFor, List.filter_cons]
  split
  case isTrue => rfl
  case isFalse => rfl

/-- The loop takes the rows of the router from the records, unless there are more than the table has room
for, and goes on with the tail. -/
theorem Rows.parseLoop (h : Rows tail file rows) (hroom : neighbors.length ≤ maxNumRouters) :
    LinkState.parseLoop routerId neighbors file =
      if neighbors.length + (rowsFor routerId rows).length ≤ maxNumRouters then
        LinkState.parseLoop routerId (neighbors ++ rowsFor routerId rows) tail
      else none := by
  induction h generalizing neighbors with
  | done =>
      rw [rowsFor, List.filter_nil, List.map_nil, List.append_nil, List.length_nil, Nat.add_zero,
        if_pos hroom]
  | @row bytes close more row rows hrecord hclose hrows ih =>
      rw [parseLoop_ok (scanRow_eq_ok.2 ⟨bytes, _, rfl, hrecord, hclose.stops, rfl⟩), hclose.rest,
        rowsFor_cons]
      by_cases hfor : row.isFor routerId = true
      · rw [if_pos hfor, if_pos hfor, List.length_cons]
        by_cases hlt : neighbors.length < maxNumRouters
        · have hnext : (neighbors ++ [row.tempEntry]).length ≤ maxNumRouters := by
            rw [List.length_append, List.length_singleton]
            exact hlt
          rw [if_pos hlt, ih hnext, List.length_append, List.length_singleton, List.append_assoc,
            List.singleton_append, Nat.add_assoc, Nat.add_comm 1]
        · rw [if_neg hlt, if_neg (by omega)]
      · rw [if_neg hfor, if_neg hfor, ih hroom]

theorem Rows.unique (h : Rows tail file rows) (htail : Rejected tail) {rows' : List FileRow}
    {tail' : List UInt8} (h' : Rows tail' file rows') (htail' : Rejected tail') :
    rows = rows' ∧ tail = tail' := by
  induction h generalizing rows' with
  | done =>
      cases h' with
      | done => exact ⟨rfl, rfl⟩
      | row hrecord hclose => exact absurd hclose.stops (htail _ _ _ rfl hrecord)
  | @row bytes close more row rows hrecord hclose hrows ih =>
      generalize hfile : bytes ++ (close ++ more) = file at h'
      cases h' with
      | done => exact absurd hclose.stops (htail' _ _ _ hfile.symm hrecord)
      | @row bytes' close' more' row' rows' hrecord' hclose' hrows' =>
          have hscan := scanRow_eq_ok.2 ⟨bytes, _, rfl, hrecord, hclose.stops, rfl⟩
          have hscan' := scanRow_eq_ok.2 ⟨bytes', _, rfl, hrecord', hclose'.stops, rfl⟩
          rw [← hfile, hscan] at hscan'
          obtain ⟨rfl, hrest⟩ := Prod.mk.inj (Except.ok.inj hscan')
          have hmore : more = more' := by
            rw [← hclose.rest, hrest, hclose'.rest]
          subst hmore
          obtain ⟨rfl, rfl⟩ := ih hrows'
          exact ⟨rfl, rfl⟩

end Rows

/-- A record as the initialization files have it, with its newline. -/
def FileRow.line (row : FileRow) : List UInt8 :=
  0x3c :: row.tmpId :: 0x2c :: (printNumber row.outgoingTcpPort.toNat ++ 0x2c :: row.nodeId :: 0x2c ::
    (printNumber row.destTcpPort.toNat ++ 0x2c :: (printInt row.cost.toInt ++ [0x3e, 0x0a])))

theorem rows_line (row : FileRow) {rows : List FileRow} {tail file : List UInt8} (h : Rows tail file rows) :
    Rows tail (row.line ++ file) (row :: rows) := by
  have hport : ∀ port : UInt16, port = .ofNat (strtoul (false, port.toNat)) := by
    intro port
    rw [strtoul_of_lt (port.toNat_lt.trans (by decide)), UInt16.ofNat_toNat]
  have hcost : row.cost = .ofInt (strtol (decide (row.cost.toInt < 0), row.cost.toInt.natAbs)) := by
    have hlow := row.cost.le_toInt
    have hhigh := row.cost.toInt_lt
    rw [strtol_natAbs (by omega) (by omega), Int32.ofInt_toInt]
  have hrecord : Record (0x3c :: row.tmpId :: 0x2c :: (printNumber row.outgoingTcpPort.toNat ++
      0x2c :: row.nodeId :: 0x2c :: (printNumber row.destTcpPort.toNat ++
        0x2c :: printInt row.cost.toInt))) row :=
    ⟨_, _, _, _, _, _, numeral_printNumber _, numeral_printNumber _, numeral_printInt _, rfl, hport _, hport _,
      hcost⟩
  have hrows := Rows.row hrecord (.bracket 0x0a file) h
  rw [FileRow.line]
  convert hrows using 1
  simp

end NetworkSystems.LinkState
