import Mathlib.Algebra.Ring.Nat
import Mathlib.Data.List.Induction
import Mathlib.Data.Nat.ModEq

/-!
# Numbers and reads on a byte stream

Numbers in network byte order, and the reads of a stream whose bytes arrive in pieces: a read waits for
one byte and then returns what has arrived, at most as much as it was asked for.
-/

namespace NetworkSystems

/-! ### Network byte order -/

/-- The lowest `width` bytes of a number, the most significant one first. -/
def bigEndian : Nat → Nat → List UInt8
  | 0, _ => []
  | width + 1, n => bigEndian width (n / 256) ++ [UInt8.ofNat n]

/-- The number that bytes stand for. -/
def ofBigEndian (bytes : List UInt8) : Nat := bytes.foldl (fun n byte => 256 * n + byte.toNat) 0

@[simp] theorem length_bigEndian (width n : Nat) : (bigEndian width n).length = width := by
  induction width generalizing n with
  | zero => rfl
  | succ width ih => rw [bigEndian, List.length_append, ih, List.length_singleton]

theorem ofBigEndian_concat (bytes : List UInt8) (byte : UInt8) :
    ofBigEndian (bytes ++ [byte]) = 256 * ofBigEndian bytes + byte.toNat := by
  rw [ofBigEndian, List.foldl_append, List.foldl_cons, List.foldl_nil, ofBigEndian]

theorem ofBigEndian_bigEndian (width n : Nat) : ofBigEndian (bigEndian width n) = n % 256 ^ width := by
  induction width generalizing n with
  | zero => rw [Nat.pow_zero, Nat.mod_one]; rfl
  | succ width ih =>
      have hbyte : (UInt8.ofNat n).toNat = n % 256 := UInt8.toNat_ofNat'
      rw [bigEndian, ofBigEndian_concat, ih, hbyte, Nat.pow_succ, Nat.mul_comm (256 ^ width), Nat.mod_mul,
        Nat.add_comm]

theorem bigEndian_ofBigEndian (bytes : List UInt8) :
    bigEndian bytes.length (ofBigEndian bytes) = bytes := by
  induction bytes using List.reverseRecOn with
  | nil => rfl
  | append_singleton bytes byte ih =>
      have hlt := byte.toNat_lt
      have hbyte : UInt8.ofNat (256 * ofBigEndian bytes + byte.toNat) = byte := by
        rw [← UInt8.toNat_inj, UInt8.toNat_ofNat']
        omega
      rw [List.length_append, List.length_singleton, bigEndian, ofBigEndian_concat, hbyte,
        show (256 * ofBigEndian bytes + byte.toNat) / 256 = ofBigEndian bytes by omega, ih]

/-- `htonl`, as the bytes in memory. -/
def htonl (n : UInt32) : List UInt8 := bigEndian 4 n.toNat

/-- `ntohl`, of the bytes in memory. -/
def ntohl (mem : List UInt8) : UInt32 := UInt32.ofNat (ofBigEndian mem)

theorem ntohl_htonl (n : UInt32) : ntohl (htonl n) = n := by
  rw [ntohl, htonl, ofBigEndian_bigEndian, show 256 ^ 4 = 2 ^ 32 by decide, Nat.mod_eq_of_lt n.toNat_lt,
    UInt32.ofNat_toNat]

theorem htonl_ntohl {mem : List UInt8} (h : mem.length = 4) : htonl (ntohl mem) = mem := by
  have hlt : ofBigEndian mem < 2 ^ 32 := by
    have hmod := ofBigEndian_bigEndian 4 (ofBigEndian mem)
    rw [← h, bigEndian_ofBigEndian, h] at hmod
    exact hmod ▸ Nat.mod_lt _ (by decide)
  have hback := bigEndian_ofBigEndian mem
  rw [h] at hback
  rw [htonl, ntohl, UInt32.toNat_ofNat_of_lt' hlt]
  exact hback

/-! ### The order of a host -/

/-- The order in which a host keeps the bytes of a word. -/
inductive ByteOrder
  | little
  | big
  deriving DecidableEq

namespace ByteOrder

def store : ByteOrder → UInt32 → List UInt8
  | little, word => (bigEndian 4 word.toNat).reverse
  | big, word => bigEndian 4 word.toNat

def load : ByteOrder → List UInt8 → UInt32
  | little, mem => UInt32.ofNat (ofBigEndian mem.reverse)
  | big, mem => UInt32.ofNat (ofBigEndian mem)

/-- `htonl` on a word: in memory, the result is in network byte order. -/
def htonl (host : ByteOrder) (word : UInt32) : UInt32 := host.load (NetworkSystems.htonl word)

/-- `ntohl` on a word that is in network byte order in memory. -/
def ntohl (host : ByteOrder) (word : UInt32) : UInt32 := NetworkSystems.ntohl (host.store word)

variable {host : ByteOrder} {mem : List UInt8}

@[simp] theorem length_store (host : ByteOrder) (word : UInt32) : (host.store word).length = 4 := by
  cases host with
  | little => rw [store, List.length_reverse, length_bigEndian]
  | big => rw [store, length_bigEndian]

@[simp] theorem load_store (host : ByteOrder) (word : UInt32) : host.load (host.store word) = word := by
  cases host with
  | little =>
      rw [store, load, List.reverse_reverse]
      exact ntohl_htonl word
  | big => exact ntohl_htonl word

theorem store_load (h : mem.length = 4) : host.store (host.load mem) = mem := by
  cases host with
  | little =>
      have hback : NetworkSystems.htonl (NetworkSystems.ntohl mem.reverse) = mem.reverse :=
        htonl_ntohl (List.length_reverse.trans h)
      rw [← List.reverse_inj, ← hback]
      exact List.reverse_reverse _
  | big => exact htonl_ntohl h

@[simp] theorem store_htonl (host : ByteOrder) (word : UInt32) :
    host.store (host.htonl word) = NetworkSystems.htonl word :=
  store_load (length_bigEndian 4 _)

theorem ntohl_load (h : mem.length = 4) : host.ntohl (host.load mem) = NetworkSystems.ntohl mem := by
  rw [ntohl, store_load h]

@[simp] theorem ntohl_htonl (host : ByteOrder) (word : UInt32) : host.ntohl (host.htonl word) = word := by
  rw [ntohl, store_htonl, NetworkSystems.ntohl_htonl]

@[simp] theorem htonl_ntohl (host : ByteOrder) (word : UInt32) : host.htonl (host.ntohl word) = word := by
  rw [htonl, ntohl, NetworkSystems.htonl_ntohl (length_store host word), load_store]

end ByteOrder

/-! ### Words by shifts -/

theorem toNat_or_shiftLeft {word k : UInt32} (byte : UInt8) (hk : k.toNat ≤ 24)
    (hword : word.toNat < 2 ^ k.toNat) :
    (word ||| byte.toUInt32 <<< k).toNat = word.toNat + 2 ^ k.toNat * byte.toNat ∧
      (word ||| byte.toUInt32 <<< k).toNat < 2 ^ (k.toNat + 8) := by
  have hbyte := byte.toNat_lt
  have hshift : (byte.toUInt32 <<< k).toNat = 2 ^ k.toNat * byte.toNat := by
    have hfits : byte.toNat * 2 ^ k.toNat < 2 ^ 32 := by
      calc byte.toNat * 2 ^ k.toNat < 2 ^ 8 * 2 ^ k.toNat :=
            Nat.mul_lt_mul_of_pos_right hbyte (Nat.two_pow_pos _)
        _ ≤ 2 ^ 8 * 2 ^ 24 := Nat.mul_le_mul_left _ (Nat.pow_le_pow_right (by decide) hk)
    rw [UInt32.toNat_shiftLeft, UInt8.toNat_toUInt32, Nat.mod_eq_of_lt (by omega : k.toNat < 32),
      Nat.shiftLeft_eq, Nat.mod_eq_of_lt hfits, Nat.mul_comm]
  have hsum : (word ||| byte.toUInt32 <<< k).toNat = word.toNat + 2 ^ k.toNat * byte.toNat := by
    rw [UInt32.toNat_or, hshift, Nat.or_comm, ← Nat.two_pow_add_eq_or_of_lt hword, Nat.add_comm]
  refine ⟨hsum, ?_⟩
  rw [hsum]
  calc word.toNat + 2 ^ k.toNat * byte.toNat < 2 ^ k.toNat + 2 ^ k.toNat * byte.toNat :=
        Nat.add_lt_add_right hword _
    _ = 2 ^ k.toNat * (byte.toNat + 1) := by rw [Nat.mul_succ, Nat.add_comm]
    _ ≤ 2 ^ k.toNat * 2 ^ 8 := Nat.mul_le_mul_left _ hbyte
    _ = 2 ^ (k.toNat + 8) := (Nat.pow_add 2 _ 8).symm

theorem toUInt8_shiftRight {word k : UInt32} (hk : k.toNat < 32) :
    ((word >>> k) &&& 0xff).toUInt8 = UInt8.ofNat (word.toNat / 2 ^ k.toNat) := by
  rw [← UInt8.toNat_inj, UInt32.toNat_toUInt8, UInt32.toNat_and, UInt32.toNat_shiftRight,
    Nat.mod_eq_of_lt hk, Nat.shiftRight_eq_div_pow, UInt8.toNat_ofNat']
  change (word.toNat / 2 ^ k.toNat &&& 2 ^ 8 - 1) % 2 ^ 8 = _
  rw [Nat.and_two_pow_sub_one_eq_mod, Nat.mod_mod]

/-! ### Reads -/

/-- A stream as its reader sees it: what is still to come, and how much of it has arrived at each of the
next reads. -/
structure Incoming (α : Type) where
  bytes : List α
  arrival : Nat → Nat

namespace Incoming

variable {α : Type}

/-- What `read` returns, and the stream after it. At the end of the stream it returns nothing. -/
def read (s : Incoming α) (count : Nat) : List α × Incoming α :=
  let length := min count (max 1 (s.arrival 0))
  (s.bytes.take length, ⟨s.bytes.drop length, fun k => s.arrival (k + 1)⟩)

def reads (count : Nat) : Nat → Incoming α → Incoming α
  | 0, s => s
  | k + 1, s => reads count k (s.read count).2

theorem read_nil (arrival : Nat → Nat) (count : Nat) :
    read (⟨[], arrival⟩ : Incoming α) count = ([], ⟨[], fun k => arrival (k + 1)⟩) := by
  rw [read, List.take_nil, List.drop_nil]

theorem read_one (byte : α) (bytes : List α) (arrival : Nat → Nat) :
    read ⟨byte :: bytes, arrival⟩ 1 = ([byte], ⟨bytes, fun k => arrival (k + 1)⟩) := by
  rw [read, Nat.min_eq_left (by omega)]
  rfl

theorem read_of_arrived {front : List α} (back : List α) {arrival : Nat → Nat}
    (h : front.length ≤ max 1 (arrival 0)) :
    read ⟨front ++ back, arrival⟩ front.length = (front, ⟨back, fun k => arrival (k + 1)⟩) := by
  rw [read, Nat.min_eq_left h, List.take_left, List.drop_left]

variable (s : Incoming α) (count : Nat)

theorem read_append : (s.read count).1 ++ (s.read count).2.bytes = s.bytes :=
  List.take_append_drop _ _

theorem read_length_le : (s.read count).1.length ≤ count := by
  simp only [read, List.length_take]
  omega

theorem read_length_le_arrival : (s.read count).1.length ≤ max 1 (s.arrival 0) := by
  simp only [read, List.length_take]
  omega

variable {count}

theorem read_ne_nil (hcount : 0 < count) (h : s.bytes ≠ []) : (s.read count).1 ≠ [] := by
  rw [read, ne_eq, List.take_eq_nil_iff, not_or]
  exact ⟨by omega, h⟩

theorem read_eq_nil (h : s.bytes = []) : (s.read count).1 = [] := by
  rw [read, h, List.take_nil]

theorem read_length_lt (hcount : 0 < count) (h : s.bytes ≠ []) :
    (s.read count).2.bytes.length < s.bytes.length := by
  have hpos := List.length_pos_iff.2 h
  simp only [read, List.length_drop]
  omega

end Incoming

end NetworkSystems
