import NetworkSystems.Lib.Machine
import NetworkSystems.Gbn.Packet

/-!
# The block queue under concurrency

`block_queue_t` is a ring of `QUEUE_CAPACITY` pointers that any number of producers and one consumer
share. A step of the model is one section in which a thread holds the mutex; `pthread_cond_wait` ends
such a section, and its return is a step of its own that is always possible, because wake-ups may be
spurious. The code tests its condition before it waits and not again after.
-/

namespace NetworkSystems.Gbn

abbrev queueCapacity : Nat := 128

/-- `block_queue_t`, without the mutex and the conditions. A slot that has not been written holds no
block. -/
structure Ring (β : Type) where
  head : UInt32
  tail : UInt32
  size : UInt32
  data : Fin queueCapacity → Option β

namespace Ring

variable {β : Type}

def init : Ring β := ⟨0, 0, 0, fun _ => none⟩

def slot (index : Nat) : Fin queueCapacity := Fin.ofNat queueCapacity index

/-- The end of `block_queue_push_chunk`, behind the wait. -/
def push (q : Ring β) (data : β) : Ring β where
  head := (q.head + 1) % 128
  tail := q.tail
  size := q.size + 1
  data := Function.update q.data (slot q.head.toNat) (some data)

def front (q : Ring β) : Option β := q.data (slot q.tail.toNat)

/-- The locked section of `block_queue_pop_chunk`. -/
def pop (q : Ring β) : Ring β := { q with tail := (q.tail + 1) % 128, size := q.size - 1 }

end Ring

/-- Where the consumer stands: outside the calls, in the wait of `block_queue_peek_chunk`, or in
`block_queue_pop_chunk` behind the test that is made without the mutex. -/
inductive Consumer
  | running
  | waiting
  | popping
  deriving DecidableEq

/-- The queue, its threads, and what has happened: the blocks in the order of the push steps, the blocks
that have been popped, and what each peek has returned, with the blocks that were queued then. A producer
that waits holds a block. -/
structure Shared (ι β : Type) where
  queue : Ring β
  producers : ι → Option β
  consumer : Consumer
  pushed : List β
  popped : List (Option β)
  peeked : List (Option β × List β)

inductive QueueStep (ι β : Type)
  | push (producer : ι) (data : β)
  | resumePush (producer : ι)
  | peek
  | resumePeek
  | popTest
  | pop
  deriving DecidableEq

namespace Shared

variable {ι β : Type}

def initial : Shared ι β := ⟨.init, fun _ => none, .running, [], [], []⟩

def queued (s : Shared ι β) : List β := s.pushed.drop s.popped.length

def doPush (s : Shared ι β) (data : β) : Shared ι β :=
  { s with queue := s.queue.push data, pushed := s.pushed ++ [data] }

def doPeek (s : Shared ι β) : Shared ι β :=
  { s with peeked := s.peeked ++ [(s.queue.front, s.queued)] }

variable [DecidableEq ι]

def step (s : Shared ι β) : QueueStep ι β → Option (Shared ι β)
  | .push i data =>
      match s.producers i with
      | some _ => none
      | none =>
          if s.queue.size = 128 then some { s with producers := Function.update s.producers i (some data) }
          else some (s.doPush data)
  | .resumePush i =>
      (s.producers i).map fun data =>
        { s.doPush data with producers := Function.update s.producers i none }
  | .peek =>
      if s.consumer = .running then
        if s.queue.size = 0 then some { s with consumer := .waiting } else some s.doPeek
      else none
  | .resumePeek =>
      if s.consumer = .waiting then some { s.doPeek with consumer := .running } else none
  | .popTest =>
      if s.consumer = .running then
        if s.queue.size = 0 then some s else some { s with consumer := .popping }
      else none
  | .pop =>
      if s.consumer = .popping then
        some { s with
          queue := s.queue.pop
          popped := s.popped ++ [s.queue.front]
          consumer := .running }
      else none

inductive Moves (s : Shared ι β) : QueueStep ι β → Shared ι β → Prop
  | wait {i : ι} {data : β} (hfull : s.queue.size = 128) :
      Moves s (.push i data) { s with producers := Function.update s.producers i (some data) }
  | push {i : ι} {data : β} (hroom : s.queue.size ≠ 128) : Moves s (.push i data) (s.doPush data)
  | resumePush {i : ι} {data : β} (hwaits : s.producers i = some data) :
      Moves s (.resumePush i) { s.doPush data with producers := Function.update s.producers i none }
  | waitPeek (hempty : s.queue.size = 0) : Moves s .peek { s with consumer := .waiting }
  | peek (hrunning : s.consumer = .running) (hsize : s.queue.size ≠ 0) : Moves s .peek s.doPeek
  | resumePeek : Moves s .resumePeek { s.doPeek with consumer := .running }
  | popEmpty : Moves s .popTest s
  | popTest (hsize : s.queue.size ≠ 0) : Moves s .popTest { s with consumer := .popping }
  | pop (hpopping : s.consumer = .popping) :
      Moves s .pop { s with
        queue := s.queue.pop
        popped := s.popped ++ [s.queue.front]
        consumer := .running }

theorem step_moves {s t : Shared ι β} {a : QueueStep ι β} (hstep : s.step a = some t) : s.Moves a t := by
  cases a with
  | push i data =>
      rw [step] at hstep
      split at hstep
      case h_1 => cases hstep
      case h_2 =>
        split at hstep
        case isTrue hfull => exact Option.some.inj hstep ▸ .wait hfull
        case isFalse hroom => exact Option.some.inj hstep ▸ .push hroom
  | resumePush i =>
      obtain ⟨data, hwaits, rfl⟩ := Option.map_eq_some_iff.1 hstep
      exact .resumePush hwaits
  | peek =>
      rw [step] at hstep
      split at hstep
      case isTrue hrunning =>
        split at hstep
        case isTrue hempty => exact Option.some.inj hstep ▸ .waitPeek hempty
        case isFalse hsize => exact Option.some.inj hstep ▸ .peek hrunning hsize
      case isFalse => cases hstep
  | resumePeek =>
      rw [step] at hstep
      split at hstep
      case isTrue => exact Option.some.inj hstep ▸ .resumePeek
      case isFalse => cases hstep
  | popTest =>
      rw [step] at hstep
      split at hstep
      case isTrue =>
        split at hstep
        case isTrue => exact Option.some.inj hstep ▸ .popEmpty
        case isFalse hsize => exact Option.some.inj hstep ▸ .popTest hsize
      case isFalse => cases hstep
  | pop =>
      rw [step] at hstep
      split at hstep
      case isTrue hpopping => exact Option.some.inj hstep ▸ .pop hpopping
      case isFalse => cases hstep

end Shared

def sharedQueue (ι β : Type) [DecidableEq ι] : Machine (Shared ι β) (QueueStep ι β) := ⟨Shared.step⟩

/-- The queue is a bounded FIFO: the counters agree, the slots from the tail on hold the blocks that are
queued, the popped blocks are the first ones pushed, and every peek has returned a block of the queue. -/
structure Fifo {ι β : Type} (s : Shared ι β) : Prop where
  size : s.queue.size.toNat ≤ queueCapacity
  head : s.queue.head.toNat = (s.queue.tail.toNat + s.queue.size.toNat) % queueCapacity
  length : s.pushed.length = s.popped.length + s.queue.size.toNat
  slots : ∀ k < s.queue.size.toNat,
    s.queue.data (Ring.slot (s.queue.tail.toNat + k)) = s.pushed[s.popped.length + k]?
  popped : s.popped <+: s.pushed.map some
  peeked : ∀ ret queued, (ret, queued) ∈ s.peeked → ∃ block ∈ queued, ret = some block

/-- A return from `pthread_cond_wait` finds what it has waited for. -/
def Resumes {ι β : Type} (s : Shared ι β) : QueueStep ι β → Prop
  | .resumePush _ => s.queue.size ≠ 128
  | .resumePeek => s.queue.size ≠ 0
  | _ => True

instance {ι β : Type} (s : Shared ι β) : ∀ a : QueueStep ι β, Decidable (Resumes s a)
  | .resumePush _ => inferInstanceAs (Decidable (_ ≠ _))
  | .resumePeek => inferInstanceAs (Decidable (_ ≠ _))
  | .push _ _ => isTrue trivial
  | .peek => isTrue trivial
  | .popTest => isTrue trivial
  | .pop => isTrue trivial

/-- What holds of the threads. -/
structure Threads {ι β : Type} (s : Shared ι β) : Prop where
  tail : s.queue.tail.toNat < queueCapacity
  popping : s.consumer = .popping → s.queue.size ≠ 0

section Ring

variable {β : Type} {q : Ring β}

theorem Ring.slot_eq_iff {i j : Nat} : Ring.slot i = Ring.slot j ↔ i % queueCapacity = j % queueCapacity :=
  Fin.ext_iff

theorem Ring.succ_mod (n : UInt32) : ((n + 1) % 128).toNat = (n.toNat + 1) % queueCapacity := by
  have hlt := n.toNat_lt
  rw [UInt32.toNat_mod, UInt32.toNat_add]
  change (n.toNat + 1) % 2 ^ 32 % 128 = (n.toNat + 1) % 128
  omega

end Ring

section Step

variable {ι β : Type} {s : Shared ι β}

theorem fifo_initial : Fifo (Shared.initial : Shared ι β) where
  size := Nat.zero_le _
  head := rfl
  length := rfl
  slots k hk := absurd hk (Nat.not_lt_zero k)
  popped := List.nil_prefix
  peeked ret queued h := by cases h

theorem Fifo.front (h : Fifo s) (hsize : s.queue.size ≠ 0) :
    ∃ block, s.queue.front = some block ∧ s.pushed[s.popped.length]? = some block := by
  have hpos : 0 < s.queue.size.toNat := Nat.pos_of_ne_zero fun heq => hsize (UInt32.toNat_inj.1 heq)
  have hlength := h.length
  have hlt : s.popped.length < s.pushed.length := by omega
  refine ⟨s.pushed[s.popped.length], ?_, List.getElem?_eq_getElem hlt⟩
  have hslot := h.slots 0 hpos
  rw [Nat.add_zero, Nat.add_zero, List.getElem?_eq_getElem hlt] at hslot
  exact hslot

theorem Fifo.size_lt (h : Fifo s) (hroom : s.queue.size ≠ 128) : s.queue.size.toNat < queueCapacity :=
  lt_of_le_of_ne h.size fun heq => hroom (UInt32.toNat_inj.1 heq)

theorem Fifo.doPush (h : Fifo s) (hroom : s.queue.size ≠ 128) (data : β) : Fifo (s.doPush data) := by
  have hlt : s.queue.size.toNat < 128 := h.size_lt hroom
  have hsize : (s.queue.push data).size.toNat = s.queue.size.toNat + 1 := by
    change (s.queue.size + 1).toNat = _
    rw [UInt32.toNat_add]
    change (s.queue.size.toNat + 1) % 2 ^ 32 = _
    omega
  have hhead := h.head
  have hlength := h.length
  refine ⟨?_, ?_, ?_, fun k hk => ?_, ?_, h.peeked⟩
  · rw [Shared.doPush, hsize]
    exact hlt
  · rw [Shared.doPush, hsize]
    change ((s.queue.head + 1) % 128).toNat = _
    rw [Ring.succ_mod, hhead]
    change (_ % 128 + 1) % 128 = (s.queue.tail.toNat + _) % 128
    omega
  · change (s.pushed ++ [data]).length = s.popped.length + (s.queue.push data).size.toNat
    rw [List.length_append, List.length_singleton, hsize]
    omega
  · rw [Shared.doPush, hsize] at hk
    change Function.update s.queue.data (Ring.slot s.queue.head.toNat) (some data)
      (Ring.slot (s.queue.tail.toNat + k)) = (s.pushed ++ [data])[s.popped.length + k]?
    rcases Nat.lt_succ_iff_lt_or_eq.1 hk with hlow | rfl
    · have hslot : Ring.slot (s.queue.tail.toNat + k) ≠ Ring.slot s.queue.head.toNat := by
        rw [Ne, Ring.slot_eq_iff, hhead]
        change ¬ (s.queue.tail.toNat + k) % 128 = (s.queue.tail.toNat + s.queue.size.toNat) % 128 % 128
        omega
      rw [Function.update_of_ne hslot, h.slots k hlow, List.getElem?_append_left (by omega)]
    · have hslot : Ring.slot (s.queue.tail.toNat + s.queue.size.toNat) = Ring.slot s.queue.head.toNat := by
        rw [Ring.slot_eq_iff, hhead, Nat.mod_mod]
      rw [hslot, Function.update_self, ← hlength, List.getElem?_concat_length]
  · rw [Shared.doPush, List.map_append]
    exact h.popped.trans (List.prefix_append _ _)

/-- A push into a full queue makes it longer than it can be. -/
theorem not_fifo_doPush (hfull : s.queue.size = 128) (data : β) : ¬ Fifo (s.doPush data) := by
  intro h
  have hle : (s.queue.size + 1).toNat ≤ queueCapacity := h.size
  rw [hfull] at hle
  exact absurd hle (by decide)

theorem Fifo.doPeek (h : Fifo s) (hsize : s.queue.size ≠ 0) : Fifo s.doPeek := by
  obtain ⟨block, hfront, hpushed⟩ := h.front hsize
  refine ⟨h.size, h.head, h.length, h.slots, h.popped, fun ret queued hmem => ?_⟩
  rcases List.mem_append.1 hmem with hmem | hmem
  · exact h.peeked ret queued hmem
  · obtain ⟨rfl, rfl⟩ := Prod.mk.inj (List.mem_singleton.1 hmem)
    refine ⟨block, ?_, hfront⟩
    rw [Shared.queued, List.mem_iff_getElem?]
    exact ⟨0, by rw [List.getElem?_drop, Nat.add_zero, hpushed]⟩

theorem Fifo.not_doPeek (h : Fifo s) (hempty : s.queue.size = 0) : ¬ Fifo s.doPeek := by
  intro hpeek
  have hlength := h.length
  rw [hempty, UInt32.toNat_zero] at hlength
  obtain ⟨block, hblock, -⟩ := hpeek.peeked s.queue.front s.queued
    (List.mem_append_right _ (List.mem_singleton.2 rfl))
  rw [Shared.queued, List.drop_of_length_le (by omega)] at hblock
  cases hblock

theorem Fifo.pop (h : Fifo s) (hsize : s.queue.size ≠ 0) (consumer : Consumer) :
    Fifo { s with
      queue := s.queue.pop
      popped := s.popped ++ [s.queue.front]
      consumer := consumer } := by
  obtain ⟨block, hfront, hpushed⟩ := h.front hsize
  have hpos : 0 < s.queue.size.toNat := Nat.pos_of_ne_zero fun heq => hsize (UInt32.toNat_inj.1 heq)
  have hdec : s.queue.pop.size.toNat = s.queue.size.toNat - 1 := by
    have hone : (1 : UInt32) ≤ s.queue.size := by
      rw [UInt32.le_iff_toNat_le]
      exact hpos
    change (s.queue.size - 1).toNat = _
    rw [UInt32.toNat_sub_of_le _ _ hone]
    rfl
  have htail : s.queue.pop.tail.toNat = (s.queue.tail.toNat + 1) % 128 := Ring.succ_mod s.queue.tail
  have hhead : s.queue.head.toNat = (s.queue.tail.toNat + s.queue.size.toNat) % 128 := h.head
  have hlength := h.length
  have hle : s.queue.size.toNat ≤ 128 := h.size
  refine ⟨?_, ?_, ?_, fun k hk => ?_, ?_, h.peeked⟩
  · rw [hdec]
    exact (Nat.sub_le _ _).trans hle
  · change s.queue.head.toNat = (s.queue.pop.tail.toNat + s.queue.pop.size.toNat) % 128
    rw [hdec, htail, hhead]
    omega
  · rw [hdec, List.length_append, List.length_singleton]
    change s.pushed.length = _
    omega
  · rw [hdec] at hk
    have hslot : Ring.slot (s.queue.pop.tail.toNat + k) = Ring.slot (s.queue.tail.toNat + (k + 1)) := by
      rw [Ring.slot_eq_iff, htail]
      change ((s.queue.tail.toNat + 1) % 128 + k) % 128 = (s.queue.tail.toNat + (k + 1)) % 128
      omega
    change s.queue.data (Ring.slot (s.queue.pop.tail.toNat + k)) = s.pushed[_]?
    rw [hslot, h.slots (k + 1) (by omega), List.length_append, List.length_singleton,
      Nat.add_assoc, Nat.add_comm 1 k]
  · have htake := List.prefix_iff_eq_take.1 h.popped
    rw [List.prefix_iff_eq_take, List.length_append, List.length_singleton, List.take_add_one, ← htake,
      List.getElem?_map, hpushed, hfront]
    rfl

theorem Fifo.threads (h : Fifo s) (producers : ι → Option β) (consumer : Consumer) :
    Fifo { s with producers := producers, consumer := consumer } :=
  ⟨h.size, h.head, h.length, h.slots, h.popped, h.peeked⟩

theorem Fifo.push_size_ne (h : Fifo s) (hroom : s.queue.size ≠ 128) (data : β) :
    (s.queue.push data).size ≠ 0 := by
  have hlt : s.queue.size.toNat < 128 := h.size_lt hroom
  intro hzero
  have hsum : (s.queue.size + 1).toNat = 0 := by
    rw [show s.queue.size + 1 = 0 from hzero]
    rfl
  rw [UInt32.toNat_add] at hsum
  change (s.queue.size.toNat + 1) % 2 ^ 32 = 0 at hsum
  omega

theorem threads_initial : Threads (Shared.initial : Shared ι β) where
  tail := Nat.zero_lt_succ _
  popping h := by cases h

variable [DecidableEq ι] {t : Shared ι β} {a : QueueStep ι β}

/-- A step keeps the queue a bounded FIFO exactly if it is no return from a wait that finds a full or an
empty queue. -/
theorem Fifo.step_iff (h : Fifo s) (hthreads : Threads s) (hstep : s.step a = some t) :
    Fifo t ↔ Resumes s a := by
  cases Shared.step_moves hstep with
  | wait => exact iff_of_true (h.threads _ _) trivial
  | push hroom => exact iff_of_true (h.doPush hroom _) trivial
  | @resumePush i data hwaits =>
      constructor
      · intro hnext hfull
        exact not_fifo_doPush hfull data (hnext.threads s.producers s.consumer)
      · exact fun hroom => (h.doPush hroom data).threads _ _
  | waitPeek => exact iff_of_true (h.threads _ _) trivial
  | peek hrunning hsize => exact iff_of_true (h.doPeek hsize) trivial
  | resumePeek =>
      constructor
      · intro hnext hempty
        exact h.not_doPeek hempty (hnext.threads s.producers s.consumer)
      · exact fun hsize => (h.doPeek hsize).threads _ _
  | popEmpty => exact iff_of_true h trivial
  | popTest => exact iff_of_true (h.threads _ _) trivial
  | pop hpopping => exact iff_of_true (h.pop (hthreads.popping hpopping) _) trivial

theorem Threads.step (hthreads : Threads s) (h : Fifo s) (hresumes : Resumes s a)
    (hstep : s.step a = some t) : Threads t := by
  cases Shared.step_moves hstep with
  | wait => exact ⟨hthreads.tail, hthreads.popping⟩
  | push hroom => exact ⟨hthreads.tail, fun _ => h.push_size_ne hroom _⟩
  | resumePush => exact ⟨hthreads.tail, fun _ => h.push_size_ne hresumes _⟩
  | waitPeek => exact ⟨hthreads.tail, by simp⟩
  | peek => exact ⟨hthreads.tail, hthreads.popping⟩
  | resumePeek => exact ⟨hthreads.tail, by simp⟩
  | popEmpty => exact hthreads
  | popTest hsize => exact ⟨hthreads.tail, fun _ => hsize⟩
  | pop =>
      refine ⟨?_, by simp⟩
      change ((s.queue.tail + 1) % 128).toNat < _
      rw [Ring.succ_mod]
      exact Nat.mod_lt _ (by decide)

/-- **The block queue is a bounded FIFO** throughout a run exactly if every return from
`pthread_cond_wait` finds what it has waited for. -/
theorem fifo_iff_resumes {schedule : List (QueueStep ι β)}
    (hrun : (sharedQueue ι β).run .initial schedule = some t) :
    (sharedQueue ι β).Throughout Fifo .initial schedule ↔
      (sharedQueue ι β).Within Resumes .initial schedule :=
  (sharedQueue ι β).throughout_iff_within (I := Threads) (D := fun _ _ => True)
    (fun _ _ _ hthreads _ h hresumes hstep => hthreads.step h hresumes hstep)
    (fun _ _ _ hthreads _ h hstep => h.step_iff hthreads hstep) threads_initial fifo_initial
    ((sharedQueue ι β).within_true _ _) hrun

end Step

/-! ### The queue that its users see -/

section Refinement

inductive QueueOp (π : Type)
  | push (block : DataBlock π)
  | peek (block : DataBlock π)
  | pop

def blockQueueMachine (π : Type) [DecidableEq π] : Machine (BlockQueue π) (QueueOp π) where
  step q
  | .push block => some (q.pushChunk block)
  | .peek block => if q.peekChunk = some block then some q else none
  | .pop => if q.isEmpty then none else some q.popChunk

variable {ι π : Type}

def Shared.ops (s : Shared ι (DataBlock π)) : QueueStep ι (DataBlock π) → List (QueueOp π)
  | .push _ block => if s.queue.size = 128 then [] else [.push block]
  | .resumePush i => (s.producers i).toList.map .push
  | .peek => if s.queue.size = 0 then [] else s.queue.front.toList.map .peek
  | .resumePeek => s.queue.front.toList.map .peek
  | .popTest => []
  | .pop => [.pop]

def Shared.blockQueue (s : Shared ι (DataBlock π)) : BlockQueue π := ⟨s.pushed, s.popped.length⟩

variable [DecidableEq π] {s : Shared ι (DataBlock π)}

theorem Fifo.run_peek (h : Fifo s) (hsize : s.queue.size ≠ 0) :
    (blockQueueMachine π).run s.blockQueue (s.queue.front.toList.map .peek) = some s.blockQueue := by
  obtain ⟨block, hfront, hpushed⟩ := h.front hsize
  have hpeek : (blockQueueMachine π).step s.blockQueue (.peek block) = some s.blockQueue := if_pos hpushed
  rw [hfront, Option.toList_some, List.map_singleton, Machine.run_cons, hpeek]
  rfl

theorem Fifo.run_pop (h : Fifo s) (hsize : s.queue.size ≠ 0) :
    (blockQueueMachine π).run s.blockQueue [.pop] = some ⟨s.pushed, s.popped.length + 1⟩ := by
  obtain ⟨block, -, hpushed⟩ := h.front hsize
  have hpeek : s.blockQueue.peekChunk = some block := hpushed
  have hlt := BlockQueue.peekChunk_lt hpeek
  have hpop : (blockQueueMachine π).step s.blockQueue .pop = some s.blockQueue.popChunk :=
    if_neg (by rw [BlockQueue.isEmpty, decide_eq_true_eq]; omega)
  rw [Machine.run_cons, hpop, BlockQueue.popChunk_of_peek hpeek]
  rfl

variable [DecidableEq ι]

theorem sharedQueue_simulates : ((sharedQueue ι (DataBlock π)).guard Resumes).Simulates (blockQueueMachine π)
    (fun s q => (Fifo s ∧ Threads s) ∧ s.blockQueue = q) Shared.ops := by
  rintro s a t q ⟨⟨h, hthreads⟩, rfl⟩ hguard
  obtain ⟨hresumes, hstep⟩ : Resumes s a ∧ s.step a = some t := by
    change (if Resumes s a then s.step a else none) = some t at hguard
    split at hguard
    case isTrue hresumes => exact ⟨hresumes, hguard⟩
    case isFalse => cases hguard
  refine ⟨t.blockQueue, ?_, ⟨(h.step_iff hthreads hstep).2 hresumes, hthreads.step h hresumes hstep⟩, rfl⟩
  cases Shared.step_moves hstep with
  | wait hfull => rw [Shared.ops, if_pos hfull]; rfl
  | push hroom => rw [Shared.ops, if_neg hroom]; rfl
  | resumePush hwaits => rw [Shared.ops, hwaits]; rfl
  | waitPeek hempty => rw [Shared.ops, if_pos hempty]; rfl
  | peek hrunning hsize => rw [Shared.ops, if_neg hsize]; exact h.run_peek hsize
  | resumePeek => exact h.run_peek hresumes
  | popEmpty => rfl
  | popTest => rfl
  | pop hpopping =>
      rw [Shared.ops, h.run_pop (hthreads.popping hpopping), Shared.blockQueue, List.length_append]
      rfl

/-- As long as every return from `pthread_cond_wait` finds what it has waited for, the ring is the queue
that the threads of a socket use. -/
theorem sharedQueue_refines_blockQueue {t : Shared ι (DataBlock π)}
    {schedule : List (QueueStep ι (DataBlock π))}
    (hwithin : (sharedQueue ι (DataBlock π)).Within Resumes .initial schedule)
    (hrun : (sharedQueue ι (DataBlock π)).run .initial schedule = some t) :
    (blockQueueMachine π).run .empty ((sharedQueue ι (DataBlock π)).trace Shared.ops .initial schedule) =
      some t.blockQueue := by
  obtain ⟨q, hq, -, rfl⟩ := sharedQueue_simulates.run ⟨⟨fifo_initial, threads_initial⟩, rfl⟩
    (Machine.run_guard hwithin hrun)
  rw [← Machine.trace_guard hwithin hrun]
  exact hq

end Refinement

/-- The consumer waits and wakes up while a block has come. -/
def served : List (QueueStep Bool Nat) := [.peek, .push true 7, .resumePeek, .popTest, .pop]

theorem fifo_iff_resumes_served : (sharedQueue Bool Nat).Throughout Fifo .initial served := by
  have hrun : ((sharedQueue Bool Nat).run .initial served).isSome := by decide
  obtain ⟨t, ht⟩ := Option.isSome_iff_exists.1 hrun
  exact (fifo_iff_resumes ht).2 (by decide)

/-- A consumer that peeks at the empty queue and wakes up by chance gets what is in the slot. -/
theorem not_fifo : ¬ ∀ (ι β : Type) [DecidableEq ι] (schedule : List (QueueStep ι β)) (t : Shared ι β),
    (sharedQueue ι β).run .initial schedule = some t →
      (sharedQueue ι β).Throughout Fifo .initial schedule := by
  intro hclaim
  have hall := hclaim (Fin 1) Nat [.peek, .resumePeek] _ rfl
  have hlast := (hall.2 _ rfl).2 _ rfl
  obtain ⟨block, hblock, -⟩ := hlast.peeked none [] (List.mem_singleton.2 rfl)
  cases hblock

end NetworkSystems.Gbn
