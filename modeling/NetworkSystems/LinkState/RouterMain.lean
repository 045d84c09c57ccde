import NetworkSystems.LinkState.Stability

/-!
# The main loop

In a pass of `Router_Main` a router learns from `select` which sockets can be read, broadcasts if more than
5000 ms have gone by since the last time, and reads one packet from each of these sockets in the order of the
rows. A read that finds no packet makes it exit, which closes its sockets. The passes of all routers are steps
of the network, at a pace that the clock bounds. Once one router has exited, no other one can go on for ever.
-/

namespace NetworkSystems.LinkState

structure Mains where
  net : Network
  lastBroadcast : UInt8 → UInt64
  exited : UInt8 → Bool

/-- One pass of a router, with what the clock says and what `select` finds ready, or a signal that ends it. -/
inductive Turn
  | pass (v : UInt8) (now : UInt64) (ready : List Int)
  | stop (v : UInt8)

/-- `current_time - last_broadcast > 5000` -/
def Mains.due (s : Mains) (v : UInt8) (now : UInt64) : Bool := 5000 < now - s.lastBroadcast v

/-- The oldest frame on its way to a socket. -/
def Network.arrived (s : Network) (v : UInt8) (fd : Int) : Option Nat :=
  s.frames.findIdx? fun frame => frame.receiver = v ∧ frame.fd = fd

namespace Topology

/-- A socket can be read when a packet has arrived or the other end is closed. -/
def readable (T : Topology) (s : Mains) (v : UInt8) (fd : Int) : Bool :=
  (s.net.arrived v fd).isSome || s.exited (T.peer v fd).1

/-- The reads of a pass, and whether the router exits. -/
def readSockets (T : Topology) (v : UInt8) (ready : List Int) : List Neighbor → Network →
    Option (Network × Bool)
  | [], s => some (s, false)
  | row :: rows, s =>
      if row.sockFd ∈ ready then
        match s.arrived v row.sockFd with
        | none => some (s, true)
        | some i => (T.deliver s i).bind (readSockets T v ready rows)
      else readSockets T v ready rows s

/-- The network after the broadcast of a pass, if there is one. -/
def broadcastIfDue (T : Topology) (s : Mains) (v : UInt8) (now : UInt64) : Network :=
  if s.due v now then T.broadcast s.net v else s.net

def mains (T : Topology) : Machine Mains Turn where
  step s
  | .pass v now ready =>
      if v ∈ T.ids ∧ s.exited v = false ∧ ∀ fd ∈ ready, fd ∈ (T.rows v).map Neighbor.sockFd ∧
          T.readable s v fd then
        (T.readSockets v ready (T.rows v) (T.broadcastIfDue s v now)).map fun (net, closed) =>
          { net := net
            lastBroadcast := if s.due v now then Function.update s.lastBroadcast v now else s.lastBroadcast
            exited := if closed then Function.update s.exited v true else s.exited }
      else none
  | .stop v =>
      if v ∈ T.ids ∧ s.exited v = false then some { s with exited := Function.update s.exited v true }
      else none

def mainStart (T : Topology) (clock : UInt8 → UInt64) : Mains where
  net := T.start []
  lastBroadcast := clock
  exited _ := false

def readEvents (T : Topology) (v : UInt8) (ready : List Int) : List Neighbor → Network → List Event
  | [], _ => []
  | row :: rows, s =>
      if row.sockFd ∈ ready then
        match s.arrived v row.sockFd with
        | none => []
        | some i => .deliver i :: ((T.deliver s i).map (readEvents T v ready rows)).getD []
      else readEvents T v ready rows s

def turnEvents (T : Topology) (s : Mains) : Turn → List Event
  | .pass v now ready => (if s.due v now then [.broadcast v] else []) ++
      T.readEvents v ready (T.rows v) (T.broadcastIfDue s v now)
  | .stop _ => []

section Pass

variable {T : Topology} {v : UInt8} {ready : List Int} {rows : List Neighbor} {s t : Network} {b : Bool}

theorem readSockets_run (h : T.readSockets v ready rows s = some (t, b)) :
    T.machine.run s (T.readEvents v ready rows s) = some t := by
  induction rows generalizing s with
  | nil =>
      rw [readSockets, Option.some.injEq, Prod.mk.injEq] at h
      exact congrArg some h.1
  | cons row rows ih =>
      rw [readSockets] at h
      rw [readEvents]
      by_cases hready : row.sockFd ∈ ready
      · rw [if_pos hready] at h ⊢
        cases harrived : s.arrived v row.sockFd with
        | none =>
            simp only [harrived, Option.some.injEq, Prod.mk.injEq] at h
            exact congrArg some h.1
        | some i =>
            simp only [harrived, Option.bind_eq_some_iff] at h
            obtain ⟨mid, hmid, hrest⟩ := h
            refine T.machine.run_cons_eq_some.2 ⟨mid, hmid, ?_⟩
            rw [hmid]
            exact ih hrest
      · rw [if_neg hready] at h ⊢
        exact ih h

theorem broadcasts_readEvents (T : Topology) (v : UInt8) (ready : List Int) (rows : List Neighbor)
    (s : Network) : broadcasts (T.readEvents v ready rows s) = 0 := by
  induction rows generalizing s with
  | nil => rfl
  | cons row rows ih =>
      rw [readEvents]
      split
      case isTrue =>
        cases s.arrived v row.sockFd with
        | none => rfl
        | some i =>
            simp only [broadcasts, List.countP_cons, Event.isBroadcast, Bool.false_eq_true, if_false,
              Nat.add_zero]
            cases T.deliver s i with
            | none => rfl
            | some mid => exact ih _
      case isFalse => exact ih _

end Pass

section Turn

variable {T : Topology} {s t : Mains} {a : Turn}

theorem mains_cases (hstep : T.mains.step s a = some t) :
    (∃ v, a = .stop v ∧ v ∈ T.ids ∧ t = { s with exited := Function.update s.exited v true }) ∨
    ∃ v now ready net closed, a = .pass v now ready ∧ v ∈ T.ids ∧ s.exited v = false ∧
      (∀ fd ∈ ready, fd ∈ (T.rows v).map Neighbor.sockFd ∧ T.readable s v fd) ∧
      T.readSockets v ready (T.rows v) (T.broadcastIfDue s v now) = some (net, closed) ∧
      t = { net := net
            lastBroadcast := if s.due v now then Function.update s.lastBroadcast v now else s.lastBroadcast
            exited := if closed then Function.update s.exited v true else s.exited } := by
  cases a with
  | stop v =>
      simp only [mains] at hstep
      split at hstep
      case isTrue h =>
        cases hstep
        exact Or.inl ⟨v, rfl, h.1, rfl⟩
      case isFalse => cases hstep
  | pass v now ready =>
      simp only [mains] at hstep
      split at hstep
      case isTrue h =>
        obtain ⟨⟨net, closed⟩, hread, rfl⟩ := Option.map_eq_some_iff.1 hstep
        exact Or.inr ⟨v, now, ready, net, closed, rfl, h.1, h.2.1, h.2.2, hread, rfl⟩
      case isFalse => cases hstep

theorem mains_simulates (T : Topology) :
    T.mains.Simulates T.machine (fun s net => s.net = net) T.turnEvents := by
  rintro s a t _ rfl hstep
  rcases mains_cases hstep with ⟨v, rfl, -, rfl⟩ | ⟨v, now, ready, net, closed, rfl, hv, -, -, hread, rfl⟩
  · exact ⟨s.net, rfl, rfl⟩
  · refine ⟨net, ?_, rfl⟩
    have hrun := readSockets_run hread
    rw [turnEvents]
    rw [broadcastIfDue] at hrun ⊢
    cases hdue : s.due v now with
    | false =>
        rw [hdue, if_neg Bool.false_ne_true] at hrun
        rw [if_neg Bool.false_ne_true, if_neg Bool.false_ne_true]
        exact hrun
    | true =>
        rw [hdue, if_pos rfl] at hrun
        rw [if_pos rfl, if_pos rfl, List.singleton_append]
        exact T.machine.run_cons_eq_some.2 ⟨_, if_pos hv, hrun⟩

end Turn

/-! ### The pace of the broadcasts -/

/-- The least time between two broadcasts of a router, in ms. -/
def spacing : ℕ := 5001

/-- The clock of a router does not go back behind its last broadcast, and it has not run for longer than
that. -/
def Clocked (clock : UInt8 → UInt64) (duration : ℕ) (s : Mains) : Turn → Prop
  | .pass v now _ => s.lastBroadcast v ≤ now ∧ now.toNat ≤ (clock v).toNat + duration
  | .stop _ => True

instance (clock : UInt8 → UInt64) (duration : ℕ) (s : Mains) (a : Turn) :
    Decidable (Clocked clock duration s a) :=
  match a with
  | .pass v now _ =>
      inferInstanceAs (Decidable (s.lastBroadcast v ≤ now ∧ now.toNat ≤ (clock v).toNat + duration))
  | .stop _ => inferInstanceAs (Decidable True)

section Pace

variable {T : Topology} {s t : Mains} {a : Turn} {turns : List Turn} {clock : UInt8 → UInt64} {duration : ℕ}

/-- A broadcast is more than 5000 ms after the last one. -/
theorem Clocked.step (hclock : Clocked clock duration s a) (hstep : T.mains.step s a = some t) :
    broadcasts (T.turnEvents s a) * spacing + ∑ v ∈ T.ids.set, (s.lastBroadcast v).toNat ≤
        ∑ v ∈ T.ids.set, (t.lastBroadcast v).toNat ∧
      ∀ v, t.lastBroadcast v = s.lastBroadcast v ∨
        .broadcast v ∈ T.turnEvents s a ∧ (t.lastBroadcast v).toNat ≤ (clock v).toNat + duration := by
  rcases mains_cases hstep with ⟨v, rfl, -, rfl⟩ | ⟨v, now, ready, net, closed, rfl, hv, -, -, -, rfl⟩
  · refine ⟨?_, fun _ => Or.inl rfl⟩
    change 0 * spacing + _ ≤ _
    rw [Nat.zero_mul, Nat.zero_add]
  · obtain ⟨hle, hend⟩ := hclock
    rw [turnEvents]
    cases hdue : s.due v now with
    | false =>
        refine ⟨?_, fun _ => Or.inl rfl⟩
        rw [if_neg Bool.false_ne_true, List.nil_append, broadcasts_readEvents, Nat.zero_mul, Nat.zero_add]
        exact Nat.le_refl _
    | true =>
        rw [if_pos rfl, List.singleton_append]
        have hlate : (s.lastBroadcast v).toNat + spacing ≤ now.toNat := by
          rw [Mains.due, decide_eq_true_eq, UInt64.lt_iff_toNat_lt, UInt64.toNat_sub_of_le _ _ hle] at hdue
          have hle := UInt64.le_iff_toNat_le.1 hle
          have h5000 : (5000 : UInt64).toNat = 5000 := rfl
          rw [spacing]
          omega
        constructor
        · have hone : broadcasts (.broadcast v :: T.readEvents v ready (T.rows v)
              (T.broadcastIfDue s v now)) = 1 := by
            have hzero := T.broadcasts_readEvents v ready (T.rows v) (T.broadcastIfDue s v now)
            rw [broadcasts] at hzero
            rw [broadcasts, List.countP_cons, hzero]
            rfl
          rw [hone, Nat.one_mul, ← Finset.sum_erase_add _ _ hv, ← Finset.sum_erase_add _ _ hv]
          simp only [if_true, Function.update_self]
          have hrest : ∑ x ∈ T.ids.set.erase v, (Function.update s.lastBroadcast v now x).toNat =
              ∑ x ∈ T.ids.set.erase v, (s.lastBroadcast x).toNat :=
            Finset.sum_congr rfl fun x hx => by rw [Function.update_of_ne (Finset.ne_of_mem_erase hx)]
          omega
        · intro x
          simp only [if_true]
          by_cases hx : x = v
          · subst hx
            rw [Function.update_self]
            exact Or.inr ⟨List.mem_cons_self, hend⟩
          · rw [Function.update_of_ne hx]
            exact Or.inl rfl

theorem Clocked.run (hwithin : T.mains.Within (Clocked clock duration) s turns)
    (hrun : T.mains.run s turns = some t) :
    broadcasts (T.mains.trace T.turnEvents s turns) * spacing + ∑ v ∈ T.ids.set, (s.lastBroadcast v).toNat ≤
        ∑ v ∈ T.ids.set, (t.lastBroadcast v).toNat ∧
      ∀ v, t.lastBroadcast v = s.lastBroadcast v ∨
        .broadcast v ∈ T.mains.trace T.turnEvents s turns ∧
          (t.lastBroadcast v).toNat ≤ (clock v).toNat + duration := by
  induction turns generalizing s with
  | nil =>
      obtain rfl := Option.some.inj hrun
      refine ⟨?_, fun _ => Or.inl rfl⟩
      change 0 * spacing + _ ≤ _
      rw [Nat.zero_mul, Nat.zero_add]
  | cons a turns ih =>
      obtain ⟨mid, hmid, hrest⟩ := T.mains.run_cons_eq_some.1 hrun
      obtain ⟨hpace, hlast⟩ := hwithin.1.step hmid
      obtain ⟨hpace', hlast'⟩ := ih (hwithin.2 mid hmid) hrest
      rw [T.mains.trace_cons hmid]
      refine ⟨?_, fun v => ?_⟩
      · rw [broadcasts, List.countP_append, Nat.add_mul]
        rw [broadcasts] at hpace hpace'
        omega
      · rcases hlast' v with heq | ⟨hmem, hle⟩
        · rw [heq, List.mem_append]
          exact (hlast v).imp_right (And.imp_left Or.inl)
        · exact Or.inr ⟨List.mem_append_right _ hmem, hle⟩

/-- With the clocks as they should be, the broadcasts of all routers in a run are few. -/
theorem Clocked.broadcasts_le (hwithin : T.mains.Within (Clocked clock duration) (T.mainStart clock) turns)
    (hrun : T.mains.run (T.mainStart clock) turns = some t) :
    broadcasts (T.mains.trace T.turnEvents (T.mainStart clock) turns) * spacing ≤ maxNumRouters * duration := by
  obtain ⟨hpace, hlast⟩ := Clocked.run hwithin hrun
  have hend : ∑ v ∈ T.ids.set, (t.lastBroadcast v).toNat ≤
      ∑ v ∈ T.ids.set, ((clock v).toNat + duration) := by
    refine Finset.sum_le_sum fun v _ => ?_
    rcases hlast v with heq | ⟨-, hle⟩
    · rw [heq]
      exact Nat.le_add_right _ _
    · exact hle
  rw [Finset.sum_add_distrib, Finset.sum_const, Nat.nsmul_eq_mul] at hend
  have hcard := Nat.mul_le_mul_right duration T.ids.card_le
  have hstart : ∑ v ∈ T.ids.set, ((T.mainStart clock).lastBroadcast v).toNat =
      ∑ v ∈ T.ids.set, (clock v).toNat := rfl
  omega

theorem started_mains (hlinked : T.Linked) (hduration : maxNumRouters * duration < 2 ^ 32 * spacing)
    (hwithin : T.mains.Within (Clocked clock duration) (T.mainStart clock) turns)
    (hrun : T.mains.run (T.mainStart clock) turns = some s) : T.Started s.net ∧
      ∀ v, s.lastBroadcast v = clock v ∨ (s.net.routers v).seqNum ≠ 0 := by
  obtain ⟨_, hnet, rfl⟩ := (mains_simulates T).run (s := T.mainStart clock) rfl hrun
  have hfew : broadcasts (T.mains.trace T.turnEvents (T.mainStart clock) turns) < 2 ^ 32 :=
    Nat.lt_of_mul_lt_mul_right ((Clocked.broadcasts_le hwithin hrun).trans_lt hduration)
  obtain ⟨hstarted, hnum⟩ := started_run hlinked hfew hnet
  refine ⟨hstarted, fun v => ((Clocked.run hwithin hrun).2 v).imp_right fun ⟨hmem, _⟩ hzero => ?_⟩
  have hpos := List.count_pos_iff.2 hmem
  rw [← hnum v, hzero] at hpos
  exact Nat.lt_irrefl 0 hpos

end Pace

/-! ### Reading from the sockets -/

section Reads

variable {T : Topology} {v : UInt8} {ready : List Int} {rows : List Neighbor} {s t : Network} {b : Bool}
  {fd : Int} {i : Nat} {f g : Frame}

theorem arrived_spec (h : s.arrived v fd = some i) :
    ∃ f, s.frames[i]? = some f ∧ f.receiver = v ∧ f.fd = fd := by
  obtain ⟨hlt, hf, -⟩ := List.findIdx?_eq_some_iff_getElem.1 h
  exact ⟨_, List.getElem?_eq_getElem hlt, of_decide_eq_true hf⟩

theorem arrived_isSome : (s.arrived v fd).isSome ↔ ∃ f ∈ s.frames, f.receiver = v ∧ f.fd = fd := by
  rw [Network.arrived, List.findIdx?_isSome, List.any_eq_true]
  simp only [decide_eq_true_eq]

theorem mem_deliver (hdeliver : T.deliver s i = some t) (hf : s.frames[i]? = some f) (hg : g ∈ s.frames)
    (hne : g ≠ f) : g ∈ t.frames := by
  rw [deliver, hf, Option.bind_some, Option.map_eq_some_iff] at hdeliver
  obtain ⟨-, -, rfl⟩ := hdeliver
  exact List.mem_append_left _ ((mem_or_mem_eraseIdx hf hg).resolve_left hne)

/-- With a packet on each socket that is read, no read fails. -/
theorem readSockets_open (hnodup : (rows.map Neighbor.sockFd).Nodup)
    (hall : ∀ row ∈ rows, row.sockFd ∈ ready → (s.arrived v row.sockFd).isSome)
    (h : T.readSockets v ready rows s = some (t, b)) : b = false := by
  induction rows generalizing s with
  | nil =>
      rw [readSockets, Option.some.injEq, Prod.mk.injEq] at h
      exact h.2.symm
  | cons row rows ih =>
      rw [List.map_cons, List.nodup_cons] at hnodup
      rw [readSockets] at h
      by_cases hready : row.sockFd ∈ ready
      · obtain ⟨i, hi⟩ := Option.isSome_iff_exists.1 (hall row List.mem_cons_self hready)
        rw [if_pos hready] at h
        simp only [hi, Option.bind_eq_some_iff] at h
        obtain ⟨mid, hmid, hrest⟩ := h
        obtain ⟨f, hf, -, hfd⟩ := arrived_spec hi
        refine ih hnodup.2 (fun row' hrow' hready' => ?_) hrest
        obtain ⟨g, hg, hreceiver, hgfd⟩ := arrived_isSome.1 (hall row' (List.mem_cons_of_mem _ hrow') hready')
        refine arrived_isSome.2 ⟨g, mem_deliver hmid hf hg ?_, hreceiver, hgfd⟩
        rintro rfl
        exact hnodup.1 (List.mem_map.2 ⟨row', hrow', hgfd.symm.trans hfd⟩)
      · rw [if_neg hready] at h
        exact ih hnodup.2 (fun row' hrow' => hall row' (List.mem_cons_of_mem _ hrow')) h

theorem Sound.exists_readSockets (h : T.Sound s) (v : UInt8) (ready : List Int) (rows : List Neighbor) :
    ∃ t b, T.readSockets v ready rows s = some (t, b) := by
  induction rows generalizing s with
  | nil => exact ⟨s, false, rfl⟩
  | cons row rows ih =>
      by_cases hready : row.sockFd ∈ ready
      · cases harrived : s.arrived v row.sockFd with
        | none => exact ⟨s, true, by rw [readSockets, if_pos hready, harrived]⟩
        | some i =>
            obtain ⟨f, hf, -⟩ := arrived_spec harrived
            obtain ⟨mid, hmid⟩ := h.exists_step.2 i (List.getElem?_eq_some_iff.1 hf).1
            obtain ⟨t, b, hrest⟩ := ih (h.step hmid)
            refine ⟨t, b, ?_⟩
            rw [readSockets, if_pos hready, harrived]
            exact Option.bind_eq_some_iff.2 ⟨mid, hmid, hrest⟩
      · obtain ⟨t, b, hrest⟩ := ih h
        exact ⟨t, b, by rwa [readSockets, if_neg hready]⟩

theorem Started.readSockets (h : T.Started s) (hlinked : T.Linked)
    (hread : T.readSockets v ready rows s = some (t, b)) :
    T.pending t ≤ T.pending s ∧
      ((∃ row ∈ rows, row.sockFd ∈ ready) → b = true ∨ T.pending t < T.pending s) := by
  induction rows generalizing s with
  | nil =>
      rw [Topology.readSockets, Option.some.injEq, Prod.mk.injEq] at hread
      exact ⟨(hread.1 ▸ Nat.le_refl _), nofun⟩
  | cons row rows ih =>
      rw [Topology.readSockets] at hread
      by_cases hready : row.sockFd ∈ ready
      · rw [if_pos hready] at hread
        cases harrived : s.arrived v row.sockFd with
        | none =>
            simp only [harrived, Option.some.injEq, Prod.mk.injEq] at hread
            exact ⟨hread.1 ▸ Nat.le_refl _, fun _ => Or.inl hread.2.symm⟩
        | some i =>
            simp only [harrived, Option.bind_eq_some_iff] at hread
            obtain ⟨mid, hmid, hrest⟩ := hread
            have hstep : T.machine.step s (.deliver i) = some mid := hmid
            have hlt := h.converging.pending_lt h.sound hlinked hstep
            have hle := (ih (h.step hlinked (noWrap_delivery rfl) hstep) hrest).1
            exact ⟨hle.trans hlt.le, fun _ => Or.inr (hle.trans_lt hlt)⟩
      · rw [if_neg hready] at hread
        obtain ⟨hle, hlt⟩ := ih h hread
        refine ⟨hle, fun ⟨row', hrow', hready'⟩ => hlt ⟨row', ?_, hready'⟩⟩
        refine (List.mem_cons.1 hrow').resolve_left ?_
        rintro rfl
        exact hready hready'

end Reads

section Exits

variable {T : Topology} {s t : Mains} {a : Turn} {v : UInt8} {now : UInt64} {ready : List Int}

/-- A router exits in a pass only if a neighbor has exited. -/
theorem exits_after {net : Network} {closed : Bool} (hnodup : ((T.rows v).map Neighbor.sockFd).Nodup)
    (hready : ∀ fd ∈ ready, T.readable s v fd) (hrunning : ∀ u, s.exited u = false)
    (hread : T.readSockets v ready (T.rows v) (T.broadcastIfDue s v now) = some (net, closed)) :
    closed = false := by
  refine readSockets_open hnodup (fun row _ hfd => ?_) hread
  have hreadable := hready _ hfd
  rw [readable, hrunning, Bool.or_false] at hreadable
  obtain ⟨f, hf, hto⟩ := arrived_isSome.1 hreadable
  refine arrived_isSome.2 ⟨f, ?_, hto⟩
  rw [broadcastIfDue]
  split
  case isTrue => exact List.mem_append_left _ hf
  case isFalse => exact hf

def running (T : Topology) (s : Mains) : ℕ := (T.ids.set.filter fun v => s.exited v = false).card

theorem running_lt (hv : v ∈ T.ids) (hrunning : s.exited v = false)
    (hexit : t.exited = Function.update s.exited v true) : T.running t < T.running s := by
  rw [running, running, hexit]
  refine Finset.card_lt_card (Finset.ssubset_iff_of_subset ?_ |>.2 ⟨v, ?_, ?_⟩)
  · intro x hx
    obtain ⟨hx, hexited⟩ := Finset.mem_filter.1 hx
    have hne : x ≠ v := by
      rintro rfl
      rw [Function.update_self] at hexited
      cases hexited
    rw [Function.update_of_ne hne] at hexited
    exact Finset.mem_filter.2 ⟨hx, hexited⟩
  · exact Finset.mem_filter.2 ⟨hv, hrunning⟩
  · intro hmem
    have hexited := (Finset.mem_filter.1 hmem).2
    rw [Function.update_self] at hexited
    cases hexited

def Reading (s : Mains) : Turn → Prop
  | .pass v now ready => s.due v now = false ∧ ready ≠ []
  | .stop _ => False

instance (s : Mains) (a : Turn) : Decidable (Reading s a) :=
  match a with
  | .pass v now ready => inferInstanceAs (Decidable (s.due v now = false ∧ ready ≠ []))
  | .stop _ => inferInstanceAs (Decidable False)

theorem Reading.step (h : T.Started s.net) (hlinked : T.Linked) (hreading : Reading s a)
    (hstep : T.mains.step s a = some t) :
    T.Started t.net ∧ T.pending t.net + T.running t < T.pending s.net + T.running s ∧
      ∀ u, s.exited u = true → t.exited u = true := by
  rcases mains_cases hstep with ⟨v, rfl, -⟩ | ⟨v, now, ready, net, closed, rfl, hv, hrunning, hready, hread, ht⟩
  · exact hreading.elim
  obtain ⟨hdue, hne⟩ := hreading
  obtain ⟨_, hrun, hnet⟩ := mains_simulates T s _ t s.net rfl hstep
  obtain rfl := hnet
  have hstarted : T.Started t.net := by
    refine T.machine.invariant_of_within (C := fun _ e => e.isBroadcast = false)
      (fun s e t hI hno hstep => hI.step hlinked (noWrap_delivery hno) hstep) h ?_ hrun
    refine T.machine.within_of_forall (fun e he _ => ?_) _
    rw [turnEvents, hdue, if_neg Bool.false_ne_true, List.nil_append] at he
    have hzero := List.countP_eq_zero.1
      (T.broadcasts_readEvents v ready (T.rows v) (T.broadcastIfDue s v now)) e he
    exact Bool.not_eq_true _ ▸ hzero
  rw [broadcastIfDue, hdue, if_neg Bool.false_ne_true] at hread
  obtain ⟨hle, hlt⟩ := h.readSockets hlinked hread
  obtain ⟨fd, rest, hfd⟩ := List.exists_cons_of_ne_nil hne
  obtain ⟨hmem, -⟩ := hready fd (hfd ▸ List.mem_cons_self)
  obtain ⟨row, hrow, hrowfd⟩ := List.mem_map.1 hmem
  have hsome : ∃ row ∈ T.rows v, row.sockFd ∈ ready := ⟨row, hrow, by rw [hrowfd, hfd]; exact List.mem_cons_self⟩
  refine ⟨hstarted, ?_, fun u hu => ?_⟩
  · cases closed with
    | true =>
        have hnet : t.net = net := by rw [ht]
        have hexit := running_lt hv hrunning (t := t) (by rw [ht]; rfl)
        rw [hnet]
        omega
    | false =>
        have hless := (hlt hsome).resolve_left Bool.false_ne_true
        rw [ht]
        simp only [Bool.false_eq_true, if_false]
        exact Nat.add_lt_add_right hless _
  · rw [ht]
    simp only
    split
    case isTrue =>
      by_cases huv : u = v
      · rw [huv, Function.update_self]
      · rw [Function.update_of_ne huv, hu]
    case isFalse => exact hu

/-- Next to a router that has exited, a router that goes on can read. -/
theorem exists_reading (h : T.Started s.net) (hlinked : T.Linked) {u : UInt8} (hu : u ∈ T.ids)
    (hexited : s.exited u = true) (hv : v ∈ T.ids) (hrunning : s.exited v = false) :
    ∃ a t, Reading s a ∧ T.mains.step s a = some t := by
  obtain ⟨c, hwalk⟩ := hlinked.connected u hu v hv
  induction hwalk with
  | nil =>
      rw [hexited] at hrunning
      cases hrunning
  | @snoc x y c w hwalk hlink ih =>
      obtain ⟨hx, -⟩ := mem_of_link hlink
      cases hxe : s.exited x with
      | false => exact ih hx hxe
      | true =>
          obtain ⟨link, hmem, rfl, -⟩ := hlink
          rw [tables, if_pos hx] at hmem
          obtain ⟨row, hrow, rfl⟩ := List.mem_map.1 hmem
          obtain ⟨-, back, hback, hid, -, -⟩ := hlinked.link x hx row hrow
          have hpeer := (hlinked.link _ hv back hback).1
          obtain ⟨net, closed, hread⟩ := h.sound.exists_readSockets row.nodeId [back.sockFd]
            (T.rows row.nodeId)
          have hdue : s.due row.nodeId (s.lastBroadcast row.nodeId) = false := by
            rw [Mains.due, UInt64.sub_self]
            rfl
          have hready : ∀ fd ∈ [back.sockFd], fd ∈ (T.rows row.nodeId).map Neighbor.sockFd ∧
              T.readable s row.nodeId fd := by
            intro fd hfd
            obtain rfl := List.mem_singleton.1 hfd
            exact ⟨List.mem_map_of_mem hback, by rw [readable, hpeer, hid, hxe, Bool.or_true]⟩
          refine ⟨.pass row.nodeId (s.lastBroadcast row.nodeId) [back.sockFd], ?_⟩
          simp only [mains]
          rw [if_pos ⟨hv, hrunning, hready⟩, broadcastIfDue, hdue, if_neg Bool.false_ne_true,
            if_neg Bool.false_ne_true, hread]
          exact ⟨_, ⟨hdue, List.cons_ne_nil _ _⟩, rfl⟩

end Exits

end Topology

/-- Once every router has broadcast and nothing is in flight, every router has converged. -/
theorem Topology.converged_of_mains {T : Topology} (hlinked : T.Linked) {clock : UInt8 → UInt64} {duration : ℕ}
    (hduration : maxNumRouters * duration < 2 ^ 32 * Topology.spacing) {turns : List Turn} {s : Mains}
    (hclock : T.mains.Within (Topology.Clocked clock duration) (T.mainStart clock) turns)
    (hrun : T.mains.run (T.mainStart clock) turns = some s)
    (hall : ∀ v ∈ T.ids, s.lastBroadcast v ≠ clock v) (hquiet : s.net.frames = []) :
    ∀ v ∈ T.ids, Converged T v (s.net.routers v) := by
  obtain ⟨hstarted, hnum⟩ := Topology.started_mains hlinked hduration hclock hrun
  exact fun v hv => hstarted.converged hlinked hquiet (fun x hx => (hnum x).resolve_left (hall x hx)) hv

/-- **Nobody exits by itself.** As long as no signal ends a router, no router exits: `select` reports a socket
only when a packet has arrived there, and the packet is still there when the pass gets to it. -/
theorem nobody_exits {T : Topology} (hsockets : ∀ v ∈ T.ids, ((T.rows v).map Neighbor.sockFd).Nodup)
    {clock : UInt8 → UInt64} {turns : List Turn} {s : Mains} (hno : ∀ v, .stop v ∉ turns)
    (hrun : T.mains.run (T.mainStart clock) turns = some s) : ∀ v, s.exited v = false := by
  have hwithin := T.mains.within_of_forall (C := fun _ a => ∀ v, a ≠ .stop v)
    (fun a ha _ v heq => hno v (heq ▸ ha)) (T.mainStart clock)
  refine T.mains.invariant_of_within (I := fun s => ∀ v, s.exited v = false) ?_ (fun _ => rfl) hwithin hrun
  intro s a t hrunning ha hstep
  rcases Topology.mains_cases hstep with ⟨v, rfl, -⟩ | ⟨v, now, ready, net, closed, -, hv, -, hready, hread, rfl⟩
  · exact absurd rfl (ha v)
  · have hopen := Topology.exits_after (hsockets v hv) (fun fd hfd => (hready fd hfd).2) hrunning hread
    intro u
    rw [hopen, if_neg Bool.false_ne_true]
    exact hrunning u

theorem nobody_exits_triangle : ∃ s, triangle.mains.run (triangle.mainStart fun _ => 0)
    [.pass 67 5001 [], .pass 65 5002 [4], .pass 66 5003 [4, 3]] = some s ∧ s.exited 66 = false := by
  have hrun : (triangle.mains.run (triangle.mainStart fun _ => 0)
      [.pass 67 5001 [], .pass 65 5002 [4], .pass 66 5003 [4, 3]]).isSome := by decide +kernel
  obtain ⟨s, hs⟩ := Option.isSome_iff_exists.1 hrun
  exact ⟨s, hs, nobody_exits triangle_linked.sockets (by simp) hs 66⟩

end NetworkSystems.LinkState
