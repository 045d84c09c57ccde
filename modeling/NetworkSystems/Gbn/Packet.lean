import Mathlib.Algebra.Ring.Int.Defs
import Mathlib.Algebra.Ring.Nat
import Mathlib.Data.Fin.Basic
import Mathlib.Logic.Function.Basic

/-!
# Packets, windows and block queues

The data of a GBN socket. A packet in the sending window refers to its payload through a pointer into
the heap, a packet in the receive window owns the bytes that were received, so packets and windows
are generic in what the payload field holds.
-/

namespace NetworkSystems.Gbn

abbrev Bytes := List UInt8

abbrev defaultQueueSize : Nat := 6

instance : NeZero defaultQueueSize := ⟨by decide⟩

abbrev defaultPacketSize : Nat := 4096

/-- `gbn_packet_type_e`. The type field comes off the wire unchecked, so it may hold other codes. -/
inductive PacketType
  | uninitialized
  | ack
  | data
  | eof
  | ackEof
  | other (code : {c : UInt32 // 5 ≤ c.toNat})
  deriving DecidableEq

structure GbnPacket (π : Type) where
  type : PacketType
  seqNumber : UInt32
  size : UInt32
  payload : π
  deriving DecidableEq

structure DataBlock (π : Type) where
  data : π
  len : UInt32
  flags : UInt8
  deriving DecidableEq

def isClosing : UInt8 := 1

/-- The two comparisons that both windows make, when they come out true: nothing wraps, and the
difference is one of the six offsets. -/
theorem window_offset {base s : UInt32} (hle : base ≤ s) (hlt : s < base + 6) :
    ∃ i < 6, (s - base).toNat = i ∧ s.toNat = base.toNat + i ∧ s.toNat + 1 < 2 ^ 32 := by
  have hsub := UInt32.toNat_sub_of_le _ _ hle
  rw [UInt32.le_iff_toNat_le] at hle
  rw [UInt32.lt_iff_toNat_lt, UInt32.toNat_add] at hlt
  have h6 : (6 : UInt32).toNat = 6 := rfl
  have := s.toNat_lt
  have := base.toNat_lt
  exact ⟨s.toNat - base.toNat, by omega, hsub, by omega, by omega⟩

/-- `gbn_window_t`, without its mutex: a step of the model is a locked section. -/
structure GbnWindow (π : Type) where
  head : UInt8
  tail : UInt8
  size : UInt8
  recvCounter : UInt32
  packetBuffer : Fin defaultQueueSize → GbnPacket π

namespace GbnWindow

variable {π : Type}

/-- The window as `calloc` leaves it. -/
def zeroed (null : π) : GbnWindow π where
  head := 0
  tail := 0
  size := 0
  recvCounter := 0
  packetBuffer _ := ⟨.uninitialized, 0, 0, null⟩

/-- The slot the frame macros read: `(_m_head + index) % DEFAULT_QUEUE_SIZE`, computed in `int`. -/
def slot (w : GbnWindow π) (index : Nat) : Fin defaultQueueSize :=
  Fin.ofNat defaultQueueSize (w.head.toNat + index)

/-- `GET_SEND_FRAME`, `GET_RECEIVE_FRAME` -/
def frame (w : GbnWindow π) (index : Nat) : GbnPacket π := w.packetBuffer (w.slot index)

def setFrame (w : GbnWindow π) (index : Nat) (packet : GbnPacket π) : GbnWindow π :=
  { w with packetBuffer := Function.update w.packetBuffer (w.slot index) packet }

@[simp] theorem setFrame_head (w : GbnWindow π) (i : Nat) (p : GbnPacket π) :
    (w.setFrame i p).head = w.head := rfl

@[simp] theorem setFrame_recvCounter (w : GbnWindow π) (i : Nat) (p : GbnPacket π) :
    (w.setFrame i p).recvCounter = w.recvCounter := rfl

theorem slot_val (w : GbnWindow π) (i : Nat) : (w.slot i).val = (w.head.toNat + i) % 6 := rfl

theorem slot_eq_iff (w : GbnWindow π) {i j : Nat} (hi : i < 6) (hj : j < 6) :
    w.slot i = w.slot j ↔ i = j := by
  rw [Fin.ext_iff, slot_val, slot_val]
  omega

theorem exists_slot (w : GbnWindow π) (i : Fin defaultQueueSize) : ∃ j < 6, w.slot j = i := by
  refine ⟨(i.val + (6 - w.head.toNat % 6)) % 6, Nat.mod_lt _ (by decide), Fin.ext ?_⟩
  rw [slot_val]
  have : i.val < 6 := i.isLt
  omega

theorem slot_mod (w : GbnWindow π) (i : Nat) : w.slot (i % 6) = w.slot i := by
  apply Fin.ext
  rw [slot_val, slot_val]
  omega

theorem frame_mod (w : GbnWindow π) (i : Nat) : w.frame (i % 6) = w.frame i :=
  congrArg w.packetBuffer (w.slot_mod i)

theorem frame_setFrame (w : GbnWindow π) {i j : Nat} (hi : i < 6) (hj : j < 6) (p : GbnPacket π) :
    (w.setFrame i p).frame j = if j = i then p else w.frame j := by
  change Function.update w.packetBuffer (w.slot i) p (w.slot j) = _
  simp only [Function.update_apply, w.slot_eq_iff hj hi]
  rfl

end GbnWindow

/-- `block_queue_t` as its users see it: the blocks in the order they were pushed, and how many of
them have been popped. -/
structure BlockQueue (π : Type) where
  pushed : List (DataBlock π)
  popped : Nat

namespace BlockQueue

variable {π : Type}

def empty : BlockQueue π := ⟨[], 0⟩

def pushChunk (q : BlockQueue π) (block : DataBlock π) : BlockQueue π :=
  { q with pushed := q.pushed ++ [block] }

/-- `block_queue_peek_chunk`. On an empty queue the call waits, which is `none`. -/
def peekChunk (q : BlockQueue π) : Option (DataBlock π) := q.pushed[q.popped]?

def popChunk (q : BlockQueue π) : BlockQueue π :=
  if q.pushed.length ≤ q.popped then q else { q with popped := q.popped + 1 }

def isEmpty (q : BlockQueue π) : Bool := q.pushed.length ≤ q.popped

theorem peekChunk_lt {q : BlockQueue π} {block : DataBlock π} (h : q.peekChunk = some block) :
    q.popped < q.pushed.length := by
  by_contra hle
  rw [peekChunk, List.getElem?_eq_none (by omega)] at h
  cases h

theorem popChunk_of_peek {q : BlockQueue π} {block : DataBlock π} (h : q.peekChunk = some block) :
    q.popChunk = { q with popped := q.popped + 1 } := by
  have := peekChunk_lt h
  rw [popChunk, if_neg (by omega)]

end BlockQueue

end NetworkSystems.Gbn
