import Mathlib.Algebra.Order.Ring.Int
import Mathlib.Data.List.Basic
import Mathlib.Data.List.TakeWhile

/-!
# Formatted input

The directives of `fscanf` for literals, characters and decimal numbers, on a stream of bytes. A number
is what stands between optional white space and the first byte that is no digit. Numbers are converted by
`strtoul` and `strtol` with 64 bits.
-/

namespace NetworkSystems

/-- How a directive fails: the input ends, or it does not match. -/
inductive ScanFailure
  | input
  | matching
  deriving DecidableEq

/-- The bytes that `isspace` is true of. -/
def whitespace (ch : UInt8) : Bool := ch = 0x20 ∨ 0x09 ≤ ch ∧ ch ≤ 0x0d

/-- The bytes that `isdigit` is true of. -/
def isDecimal (ch : UInt8) : Bool := 0x30 ≤ ch ∧ ch < 0x3a

/-- The value of decimal digits. -/
def digitsValue (digits : List UInt8) : Nat := digits.foldl (fun n ch => 10 * n + (ch.toNat - 0x30)) 0

/-- A byte of the format that stands for itself. -/
def scanLiteral (ch : UInt8) : List UInt8 → Except ScanFailure (List UInt8)
  | [] => .error .input
  | c :: bytes => if c = ch then .ok bytes else .error .matching

/-- `%c` -/
def scanChar : List UInt8 → Except ScanFailure (UInt8 × List UInt8)
  | [] => .error .input
  | c :: bytes => .ok (c, bytes)

/-- An optional sign: whether it is a minus. -/
def scanSign : List UInt8 → Bool × List UInt8
  | [] => (false, [])
  | c :: bytes =>
      if c = 0x2d then (true, bytes) else if c = 0x2b then (false, bytes) else (false, c :: bytes)

/-- The part that `%u` and `%d` share: a sign and a number of any length. -/
def scanNumber (bytes : List UInt8) : Except ScanFailure ((Bool × Nat) × List UInt8) :=
  match bytes.dropWhile whitespace with
  | [] => .error .input
  | c :: tail =>
      let (minus, tail) := scanSign (c :: tail)
      if tail.takeWhile isDecimal = [] then .error .matching
      else .ok ((minus, digitsValue (tail.takeWhile isDecimal)), tail.dropWhile isDecimal)

/-- `strtoul`: what is out of range is the greatest number, and a minus negates. -/
def strtoul (number : Bool × Nat) : Nat :=
  if 2 ^ 64 ≤ number.2 then 2 ^ 64 - 1
  else if number.1 then (2 ^ 64 - number.2) % 2 ^ 64 else number.2

/-- `strtol`: what is out of range is the number at that end. -/
def strtol (number : Bool × Nat) : Int :=
  if number.1 then max (-2 ^ 63) (-number.2) else min (2 ^ 63 - 1) number.2

/-! ### Printing -/

def printNumber (n : Nat) : List UInt8 := (Nat.toDigits 10 n).map fun ch => UInt8.ofNat ch.toNat

def printInt (n : Int) : List UInt8 := (if n < 0 then [0x2d] else []) ++ printNumber n.natAbs

/-! ### What is read -/

inductive Sign : List UInt8 → Bool → Prop
  | none : Sign [] false
  | plus : Sign [0x2b] false
  | minus : Sign [0x2d] true

/-- A number as `scanNumber` takes it: white space, a sign and digits. -/
def Numeral (bytes : List UInt8) (number : Bool × Nat) : Prop :=
  ∃ spaces sign digits, bytes = spaces ++ (sign ++ digits) ∧ (∀ ch ∈ spaces, whitespace ch = true) ∧
    Sign sign number.1 ∧ digits ≠ [] ∧ (∀ ch ∈ digits, isDecimal ch = true) ∧ number.2 = digitsValue digits

/-- No digit follows. -/
def Stops (rest : List UInt8) : Prop := ∀ ch ∈ rest.head?, isDecimal ch = false

section Number

variable {bytes front digits sign rest : List UInt8} {number : Bool × Nat} {minus : Bool} {c : UInt8}

theorem takeWhile_append_stop {p : UInt8 → Bool} {back : List UInt8} (hfront : ∀ ch ∈ front, p ch = true)
    (hback : ∀ ch ∈ back.head?, p ch = false) :
    (front ++ back).takeWhile p = front ∧ (front ++ back).dropWhile p = back := by
  induction front with
  | nil =>
      cases back with
      | nil => exact ⟨rfl, rfl⟩
      | cons ch back =>
          have hch : ¬ p ch = true := by rw [hback ch rfl]; exact Bool.false_ne_true
          rw [List.nil_append, List.takeWhile_cons_of_neg hch, List.dropWhile_cons_of_neg hch]
          exact ⟨rfl, rfl⟩
  | cons ch front ih =>
      obtain ⟨hch, hfront⟩ := List.forall_mem_cons.1 hfront
      obtain ⟨htake, hdrop⟩ := ih hfront
      rw [List.cons_append, List.takeWhile_cons_of_pos hch, List.dropWhile_cons_of_pos hch, htake, hdrop]
      exact ⟨rfl, rfl⟩

theorem head?_dropWhile_stop (p : UInt8 → Bool) (bytes : List UInt8) :
    ∀ ch ∈ (bytes.dropWhile p).head?, p ch = false := by
  induction bytes with
  | nil => nofun
  | cons ch bytes ih =>
      rw [List.dropWhile_cons]
      split
      case isTrue => exact ih
      case isFalse h =>
        intro c hc
        obtain rfl := Option.some.inj hc
        exact Bool.not_eq_true _ ▸ h

theorem isDecimal_start (h : isDecimal c = true) : whitespace c = false ∧ c ≠ 0x2d ∧ c ≠ 0x2b := by
  rw [isDecimal, decide_eq_true_eq, UInt8.le_iff_toNat_le] at h
  have hlow : 48 ≤ c.toNat := h.1
  refine ⟨?_, ?_, ?_⟩
  · rw [whitespace, decide_eq_false_iff_not, UInt8.le_iff_toNat_le, ← UInt8.toNat_inj]
    rintro (hspace | ⟨-, hcr⟩)
    · exact absurd (hspace ▸ hlow) (by decide)
    · exact absurd (hlow.trans hcr) (by decide)
  · rintro rfl
    exact absurd hlow (by decide)
  · rintro rfl
    exact absurd hlow (by decide)

theorem Sign.scanSign (h : Sign sign minus) (hne : digits ≠ [])
    (hdigits : ∀ ch ∈ digits, isDecimal ch = true) :
    NetworkSystems.scanSign (sign ++ (digits ++ rest)) = (minus, digits ++ rest) := by
  cases h with
  | none =>
      cases digits with
      | nil => exact absurd rfl hne
      | cons ch digits =>
          obtain ⟨-, hminus, hplus⟩ := isDecimal_start (hdigits ch List.mem_cons_self)
          rw [List.nil_append, List.cons_append, NetworkSystems.scanSign, if_neg hminus, if_neg hplus]
  | plus => rfl
  | minus => rfl

theorem Sign.exists_cons (h : Sign sign minus) (hne : digits ≠ [])
    (hdigits : ∀ ch ∈ digits, isDecimal ch = true) (rest : List UInt8) :
    ∃ c tail, sign ++ (digits ++ rest) = c :: tail ∧ whitespace c = false := by
  cases h with
  | none =>
      cases digits with
      | nil => exact absurd rfl hne
      | cons ch digits => exact ⟨ch, _, rfl, (isDecimal_start (hdigits ch List.mem_cons_self)).1⟩
  | plus => exact ⟨0x2b, _, rfl, by decide⟩
  | minus => exact ⟨0x2d, _, rfl, by decide⟩

theorem exists_sign (bytes : List UInt8) :
    ∃ sign, Sign sign (NetworkSystems.scanSign bytes).1 ∧
      bytes = sign ++ (NetworkSystems.scanSign bytes).2 := by
  cases bytes with
  | nil => exact ⟨[], .none, rfl⟩
  | cons c bytes =>
      rw [NetworkSystems.scanSign]
      by_cases hminus : c = 0x2d
      · rw [if_pos hminus]
        exact ⟨[0x2d], .minus, by rw [hminus]; rfl⟩
      · by_cases hplus : c = 0x2b
        · rw [if_neg hminus, if_pos hplus]
          exact ⟨[0x2b], .plus, by rw [hplus]; rfl⟩
        · rw [if_neg hminus, if_neg hplus]
          exact ⟨[], .none, rfl⟩

theorem Numeral.scanNumber (h : Numeral front number) (hrest : Stops rest) :
    NetworkSystems.scanNumber (front ++ rest) = .ok (number, rest) := by
  obtain ⟨spaces, sign, digits, rfl, hspaces, hsign, hne, hdigits, hvalue⟩ := h
  obtain ⟨c, tail, hcons, hspace⟩ := hsign.exists_cons hne hdigits rest
  have hstart : ∀ ch ∈ (sign ++ (digits ++ rest)).head?, whitespace ch = false := by
    rw [hcons]
    intro ch hch
    obtain rfl := Option.some.inj hch
    exact hspace
  have hdrop := (takeWhile_append_stop hspaces hstart).2
  obtain ⟨htake, hstop⟩ := takeWhile_append_stop hdigits hrest
  rw [NetworkSystems.scanNumber, List.append_assoc, List.append_assoc, hdrop, hcons]
  simp only
  rw [← hcons, hsign.scanSign hne hdigits]
  simp only [htake, hstop, if_neg hne, ← hvalue]

/-- `scanNumber` reads exactly the numerals, up to the first byte that is no digit. -/
theorem scanNumber_eq_ok : scanNumber bytes = .ok (number, rest) ↔
    ∃ front, bytes = front ++ rest ∧ Numeral front number ∧ Stops rest := by
  constructor
  · intro h
    rw [scanNumber] at h
    cases hdrop : bytes.dropWhile whitespace with
    | nil =>
        rw [hdrop] at h
        cases h
    | cons c tail =>
        rw [hdrop] at h
        obtain ⟨sign, hsign, htail⟩ := exists_sign (c :: tail)
        simp only at h
        split at h
        case isTrue => cases h
        case isFalse hne =>
          cases h
          refine ⟨bytes.takeWhile whitespace ++ (sign ++ _), ?_,
            ⟨_, sign, _, rfl, fun ch hch => List.mem_takeWhile_imp hch, hsign, hne,
              fun ch hch => List.mem_takeWhile_imp hch, rfl⟩, head?_dropWhile_stop _ _⟩
          rw [List.append_assoc, List.append_assoc, List.takeWhile_append_dropWhile, ← htail, ← hdrop,
            List.takeWhile_append_dropWhile]
  · rintro ⟨front, rfl, hnumeral, hrest⟩
    exact hnumeral.scanNumber hrest

end Number

theorem scanLiteral_eq_ok {ch : UInt8} {bytes rest : List UInt8} :
    scanLiteral ch bytes = .ok rest ↔ bytes = ch :: rest := by
  cases bytes with
  | nil => exact iff_of_false nofun nofun
  | cons c bytes =>
      rw [scanLiteral, List.cons.injEq]
      by_cases hc : c = ch
      · rw [if_pos hc, and_iff_right hc]
        exact ⟨fun h => Except.ok.inj h, congrArg _⟩
      · rw [if_neg hc]
        exact iff_of_false nofun fun h => hc h.1

theorem scanChar_eq_ok {ch : UInt8} {bytes rest : List UInt8} :
    scanChar bytes = .ok (ch, rest) ↔ bytes = ch :: rest := by
  cases bytes with
  | nil => exact iff_of_false nofun nofun
  | cons c bytes => rw [scanChar, Except.ok.injEq, Prod.mk.injEq, List.cons.injEq]

/-! ### What is printed is read back -/

theorem toNat_printed {ch : Char} (h : ch.isDigit = true) : (UInt8.ofNat ch.toNat).toNat = ch.toNat := by
  rw [UInt8.toNat_ofNat']
  refine Nat.mod_eq_of_lt ?_
  have hle := (Char.isDigit_iff_toNat.1 h).2
  have h9 : '9'.toNat = 57 := rfl
  omega

theorem digitsValue_printNumber (n : Nat) : digitsValue (printNumber n) = n := by
  have hdigits : ∀ ch ∈ Nat.toDigits 10 n, ch.isDigit = true := fun ch hch =>
    Nat.isDigit_of_mem_toDigits (by decide) (by decide) hch
  have hvalue : digitsValue (printNumber n) = Nat.ofDigitChars 10 (Nat.toDigits 10 n) 0 := by
    rw [digitsValue, printNumber, List.foldl_map, Nat.ofDigitChars_eq_foldl]
    refine List.foldl_ext _ _ _ fun sofar ch hch => ?_
    rw [toNat_printed (hdigits ch hch)]
    rfl
  rw [hvalue, Nat.ofDigitChars_ten_toDigits]

theorem isDecimal_printNumber (n : Nat) : ∀ ch ∈ printNumber n, isDecimal ch = true := by
  intro byte hbyte
  obtain ⟨ch, hch, rfl⟩ := List.mem_map.1 hbyte
  have hdigit := Nat.isDigit_of_mem_toDigits (by decide) (by decide) hch
  obtain ⟨hlow, hhigh⟩ := Char.isDigit_iff_toNat.1 hdigit
  rw [isDecimal, decide_eq_true_eq, UInt8.le_iff_toNat_le, UInt8.lt_iff_toNat_lt, toNat_printed hdigit]
  exact ⟨hlow, Nat.lt_succ_of_le hhigh⟩

theorem Sign.numeral_printNumber {sign : List UInt8} {minus : Bool} (h : Sign sign minus) (n : Nat) :
    Numeral (sign ++ printNumber n) (minus, n) :=
  ⟨[], sign, printNumber n, rfl, nofun, h, fun hnil => Nat.toDigits_ne_nil (List.map_eq_nil_iff.1 hnil),
    isDecimal_printNumber n, (digitsValue_printNumber n).symm⟩

theorem numeral_printNumber (n : Nat) : Numeral (printNumber n) (false, n) := Sign.none.numeral_printNumber n

theorem numeral_printInt (n : Int) : Numeral (printInt n) (decide (n < 0), n.natAbs) := by
  rw [printInt]
  by_cases hneg : n < 0
  · rw [if_pos hneg, decide_eq_true hneg]
    exact Sign.minus.numeral_printNumber _
  · rw [if_neg hneg, decide_eq_false hneg]
    exact Sign.none.numeral_printNumber _

theorem strtoul_of_lt {n : Nat} (h : n < 2 ^ 64) : strtoul (false, n) = n := by
  rw [strtoul, if_neg (Nat.not_le.2 h)]
  rfl

theorem strtol_natAbs {n : Int} (hlow : -2 ^ 63 ≤ n) (hhigh : n < 2 ^ 63) :
    strtol (decide (n < 0), n.natAbs) = n := by
  rw [strtol]
  by_cases hneg : n < 0
  · rw [decide_eq_true hneg, if_pos rfl]
    omega
  · rw [decide_eq_false hneg, if_neg Bool.false_ne_true]
    omega

end NetworkSystems
