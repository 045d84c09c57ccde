import NetworkSystems.FileShare.TrieIndex
import NetworkSystems.FileShare.Grammar

/-!
# The port number of a command line

`parse_port_num` reads the port that the server listens on and the port that a client connects to. Each of
the two programs has its own copy. Its test for a digit lets the six characters behind `9` pass, the empty
string counts as a number, and the value is computed in 16 bits without a test.
-/

namespace NetworkSystems.FileShare

/-- `ret *= 10 ; ret += ch - 0x30`, in a `uint16_t`. -/
def nextPort (ret : UInt16) (ch : UInt8) : UInt16 := ret * 10 + (charOf ch - 0x30).toInt16.toUInt16

/-- The loop over the memory from `str` on: what is returned, and `*into` after it. `none` is a read past
the end of the memory. -/
def portLoop (into : UInt16) : UInt16 → Bytes → Option (Int32 × UInt16)
  | _, [] => none
  | ret, ch :: mem =>
      if ch = 0 then some (1, ret)
      else if 0x40 ≤ charOf ch ∨ charOf ch < 0x30 then some (0, into)
      else portLoop into (nextPort ret ch) mem

/-- `parse_port_num` of `server.c` -/
def serverParsePortNum (str : Bytes) (into : UInt16) : Option (Int32 × UInt16) := portLoop into 0 str

/-- `parse_port_num` of `client.c` -/
def clientParsePortNum (str : Bytes) (into : UInt16) : Option (Int32 × UInt16) := portLoop into 0 str

/-- A parser accepts the string exactly if it is a port number, and then stores its value. -/
def ParsesPort (parse : Bytes → UInt16 → Option (Int32 × UInt16)) (s : Bytes) : Prop :=
  ∀ rest into, ∃ result stored, parse (s ++ 0 :: rest) into = some (result, stored) ∧
    (result = 1 ↔ Numeral s (2 ^ 16)) ∧
      (Numeral s (2 ^ 16) → stored.toNat = numeral s) ∧
        (¬ Numeral s (2 ^ 16) → result = 0 ∧ stored = into)

/-! ### The test for a digit -/

/-- The characters that the test lets pass. -/
def PortChar (ch : UInt8) : Prop := 0x30 ≤ ch ∧ ch < 0x40

instance (ch : UInt8) : Decidable (PortChar ch) := inferInstanceAs (Decidable (_ ∧ _))

theorem portChar_table (n : Fin 256) :
    (¬ (0x40 ≤ charOf (UInt8.ofFin n) ∨ charOf (UInt8.ofFin n) < 0x30) ↔ PortChar (UInt8.ofFin n)) ∧
      (PortChar (UInt8.ofFin n) →
        (charOf (UInt8.ofFin n) - 0x30).toInt16.toUInt16 = UInt16.ofNat (n - 0x30)) := by
  decide +revert +kernel

theorem not_invalid_iff {ch : UInt8} : ¬ (0x40 ≤ charOf ch ∨ charOf ch < 0x30) ↔ PortChar ch :=
  (portChar_table ch.toFin).1

theorem PortChar.digit {ch : UInt8} (h : PortChar ch) :
    (charOf ch - 0x30).toInt16.toUInt16 = UInt16.ofNat (ch.toNat - 0x30) :=
  (portChar_table ch.toFin).2 h

theorem Numeral.portChar {s : Bytes} {bound : Nat} (h : Numeral s bound) : ∀ ch ∈ s, PortChar ch :=
  fun ch hch => ⟨(h.digit ch hch).1, UInt8.lt_trans (h.digit ch hch).2 (by decide)⟩

/-! ### The loop -/

theorem portLoop_of_portChar {s : Bytes} (hs : ∀ ch ∈ s, PortChar ch) (into ret : UInt16) (rest : Bytes) :
    portLoop into ret (s ++ 0 :: rest) = some (1, s.foldl nextPort ret) := by
  induction s generalizing ret with
  | nil => rw [List.nil_append, portLoop, if_pos rfl, List.foldl_nil]
  | cons ch s ih =>
      have hch := hs ch (by simp)
      have hne : ch ≠ 0 := by
        intro hzero
        rw [hzero] at hch
        exact absurd hch (by decide)
      rw [List.cons_append, portLoop, if_neg hne, if_neg (not_invalid_iff.2 hch), List.foldl_cons]
      exact ih (fun c hc => hs c (List.mem_cons_of_mem _ hc)) _

/-- Any other character ends the loop, and the output stays. -/
theorem portLoop_of_not_portChar {s : Bytes} (hnul : 0 ∉ s) (hs : ∃ ch ∈ s, ¬ PortChar ch)
    (into ret : UInt16) (rest : Bytes) : portLoop into ret (s ++ 0 :: rest) = some (0, into) := by
  induction s generalizing ret with
  | nil => simp at hs
  | cons ch s ih =>
      rw [List.mem_cons, not_or] at hnul
      rw [List.cons_append, portLoop, if_neg fun hzero => hnul.1 hzero.symm]
      by_cases hch : PortChar ch
      · have htail : ∃ c ∈ s, ¬ PortChar c := by
          obtain ⟨c, hc, hbad⟩ := hs
          refine ⟨c, (List.mem_cons.1 hc).resolve_left ?_, hbad⟩
          intro heq
          rw [heq] at hbad
          exact hbad hch
        rw [if_neg (not_invalid_iff.2 hch)]
        exact ih hnul.2 htail _
      · rw [if_pos (not_not.1 fun hvalid => hch (not_invalid_iff.1 hvalid))]

theorem foldl_nextPort {s : Bytes} (hs : ∀ ch ∈ s, PortChar ch) :
    s.foldl nextPort 0 = UInt16.ofNat (numeral s) := by
  induction s using List.reverseRecOn with
  | nil => rfl
  | append_singleton s ch ih =>
      have hinit := ih fun c hc => hs c (List.mem_append_left _ hc)
      have hlast := (hs ch (by simp)).digit
      rw [numeral] at hinit
      rw [numeral, List.foldl_append, List.foldl_append, hinit]
      simp only [List.foldl_cons, List.foldl_nil]
      rw [nextPort, hlast, UInt16.ofNat_add, UInt16.ofNat_mul]
      rfl

/-- The character behind `9` counts as ten. -/
example : serverParsePortNum (ascii ['8', '0', ':'] ++ [0]) 7 = some (1, 810) := by decide +kernel

/-! ### When port numbers are what is accepted -/

/-- The string is a port number, or one of its characters fails the test for a digit. -/
def PortOrRejected (s : Bytes) : Prop := Numeral s (2 ^ 16) ∨ ∃ ch ∈ s, ¬ PortChar ch

theorem parsesPort_of_portLoop {parse : Bytes → UInt16 → Option (Int32 × UInt16)}
    (hparse : ∀ str into, parse str into = portLoop into 0 str) {s : Bytes} (hnul : 0 ∉ s) :
    ParsesPort parse s ↔ PortOrRejected s := by
  constructor
  · intro hparses
    by_contra hother
    rw [PortOrRejected, not_or] at hother
    have hs : ∀ ch ∈ s, PortChar ch := fun ch hch => by
      by_contra hbad
      exact hother.2 ⟨ch, hch, hbad⟩
    obtain ⟨result, stored, hloop, hresult, -⟩ := hparses [] 0
    rw [hparse, portLoop_of_portChar hs, Option.some.injEq, Prod.mk.injEq] at hloop
    exact hother.1 (hresult.1 hloop.1.symm)
  · intro hcond rest into
    rw [hparse]
    by_cases hport : Numeral s (2 ^ 16)
    · refine ⟨1, _, portLoop_of_portChar hport.portChar into 0 rest, iff_of_true rfl hport, ?_, ?_⟩
      · intro _
        rw [foldl_nextPort hport.portChar, UInt16.toNat_ofNat_of_lt' hport.lt]
      · intro hnot
        exact absurd hport hnot
    · have hbad := hcond.resolve_left hport
      refine ⟨0, into, portLoop_of_not_portChar hnul hbad into 0 rest,
        iff_of_false (by decide) hport, ?_, ?_⟩
      · intro hnumeral
        exact absurd hnumeral hport
      · exact fun _ => ⟨rfl, rfl⟩

/-- **When the parsers accept port numbers**: exactly at a string that is one, or in which a character
fails their test for a digit. -/
theorem parsesPort_iff_portOrRejected (s : Bytes) (hnul : 0 ∉ s) :
    (ParsesPort serverParsePortNum s ↔ PortOrRejected s) ∧
      (ParsesPort clientParsePortNum s ↔ PortOrRejected s) :=
  ⟨parsesPort_of_portLoop (fun _ _ => rfl) hnul, parsesPort_of_portLoop (fun _ _ => rfl) hnul⟩

theorem parsesPort_iff_portOrRejected_http :
    ParsesPort serverParsePortNum (ascii ['8', '0', '8', '0']) ∧
      ParsesPort clientParsePortNum (ascii ['8', '0', '8', '0']) := by
  have hport : PortOrRejected (ascii ['8', '0', '8', '0']) :=
    Or.inl ⟨by decide +kernel, by decide +kernel, by decide +kernel⟩
  have hiff := parsesPort_iff_portOrRejected (ascii ['8', '0', '8', '0']) (by decide +kernel)
  exact ⟨hiff.1.2 hport, hiff.2.2 hport⟩

/-- `65616` is accepted, as port 80. -/
theorem not_parsesPort :
    (¬ ∀ s : Bytes, 0 ∉ s → ParsesPort serverParsePortNum s) ∧
      ¬ ∀ s : Bytes, 0 ∉ s → ParsesPort clientParsePortNum s := by
  have hnul : (0 : UInt8) ∉ ascii ['6', '5', '6', '1', '6'] := by decide +kernel
  have hother : ¬ PortOrRejected (ascii ['6', '5', '6', '1', '6']) := by
    rw [PortOrRejected, not_or]
    exact ⟨fun hport => absurd hport.lt (by decide +kernel), by decide +kernel⟩
  exact ⟨fun hclaim => hother ((parsesPort_of_portLoop (fun _ _ => rfl) hnul).1 (hclaim _ hnul)),
    fun hclaim => hother ((parsesPort_of_portLoop (fun _ _ => rfl) hnul).1 (hclaim _ hnul))⟩

end NetworkSystems.FileShare
