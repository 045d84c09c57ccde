import NetworkSystems.LinkState.Update

/-!
# A network of link-state routers

All routers, and the frames between them. A step of the network is a call of `broadcast_packet`, or a
call of `read_packet` for one of the frames in flight. The steps come in any order, and so do the frames,
which includes every order that the sockets can deliver them in.
-/

namespace NetworkSystems.LinkState

/-- A frame on its way to a router, to be read from one of its sockets. -/
structure Frame where
  receiver : UInt8
  fd : Int
  packet : LsPacket

/-- The routers of a network with their rows, and the other end of each socket. -/
structure Topology where
  ids : Ids
  rows : UInt8 → List Neighbor
  peer : UInt8 → Int → UInt8 × Int
  rows_le : ∀ v ∈ ids, (rows v).length ≤ maxNumRouters
  rows_mem : ∀ v ∈ ids, ∀ row ∈ rows v, row.nodeId ∈ ids
  peer_mem : ∀ v ∈ ids, ∀ row ∈ rows v, (peer v row.sockFd).1 ∈ ids

/-- A packet that a router writes, with the rows that it writes it to. -/
structure Transmission where
  sender : UInt8
  packet : LsPacket
  rows : List (Neighbor × Nat)

structure Network where
  routers : UInt8 → Router
  frames : List Frame
  log : List Transmission

inductive Event
  | broadcast (v : UInt8)
  | deliver (i : Nat)
  deriving DecidableEq

def Event.isBroadcast : Event → Bool
  | broadcast _ => true
  | deliver _ => false

/-- The number of broadcasts among the steps. -/
def broadcasts (events : List Event) : ℕ := events.countP Event.isBroadcast

/-- `read_packet`: the rows that the packet is forwarded to, if it is, and the router after it. -/
def Router.readPacket (router : Router) (fd : Int) (packet : LsPacket) :
    Option (Option (List (Neighbor × Nat)) × Router) :=
  (router.updateRoutingTable packet).map fun (updated, router) =>
    (if updated then some (router.neighborsTable.zipIdx.filter fun row => row.1.sockFd ≠ fd) else none,
      router)

/-- `broadcast_packet`: the packet, the rows that it is written to, and the router after it. -/
def Router.broadcastPacket (router : Router) : LsPacket × List (Neighbor × Nat) × Router :=
  let (packet, router) := router.createPacket 0
  (packet, router.neighborsTable.zipIdx, router)

namespace Topology

def frames (T : Topology) (sent : Transmission) : List Frame :=
  sent.rows.map fun row =>
    ⟨(T.peer sent.sender row.1.sockFd).1, (T.peer sent.sender row.1.sockFd).2, sent.packet⟩

/-- The network after one router has taken a step. -/
def next (T : Topology) (s : Network) (v : UInt8) (router : Router) (frames : List Frame)
    (sent : List Transmission) : Network where
  routers := Function.update s.routers v router
  frames := frames ++ sent.flatMap T.frames
  log := sent ++ s.log

def broadcast (T : Topology) (s : Network) (v : UInt8) : Network :=
  let (packet, rows, router) := (s.routers v).broadcastPacket
  T.next s v router s.frames [⟨v, packet, rows⟩]

def deliver (T : Topology) (s : Network) (i : Nat) : Option Network :=
  s.frames[i]?.bind fun frame =>
    ((s.routers frame.receiver).readPacket frame.fd frame.packet).map fun (forwarded, router) =>
      T.next s frame.receiver router (s.frames.eraseIdx i)
        (forwarded.map fun rows => ⟨frame.receiver, frame.packet, rows⟩).toList

def machine (T : Topology) : Machine Network Event where
  step s
  | .broadcast v => if v ∈ T.ids then some (T.broadcast s v) else none
  | .deliver i => T.deliver s i

def start (T : Topology) (frames : List Frame) : Network where
  routers v := .parsed v (T.rows v)
  frames := frames
  log := []

/-- The ids of the routers and of the packets in flight are those of the network. -/
structure Sound (T : Topology) (s : Network) : Prop where
  routers : ∀ v ∈ T.ids, Router.Running T.ids v (T.rows v) (s.routers v)
  frames : ∀ frame ∈ s.frames, frame.receiver ∈ T.ids ∧ frame.packet.Within T.ids

section Step

variable {T : Topology} {s t : Network} {v x : UInt8} {router : Router} {e : Event}

theorem next_routers {frames : List Frame} {sent : List Transmission} (x : UInt8) :
    (T.next s v router frames sent).routers x = if x = v then router else s.routers x :=
  Function.update_apply ..

theorem next_rule {P : Router → Prop} {frames : List Frame} {sent : List Transmission}
    (hself : x = v → P router) (hother : x ≠ v → P (s.routers x)) :
    P ((T.next s v router frames sent).routers x) := by
  rw [next_routers]
  split
  case isTrue heq => exact hself heq
  case isFalse hne => exact hother hne

theorem mem_next_frames {frames : List Frame} {sent : Transmission} {frame : Frame} :
    frame ∈ (T.next s v router frames [sent]).frames ↔ frame ∈ frames ∨ frame ∈ T.frames sent := by
  rw [next, List.flatMap_singleton, List.mem_append]

def announcement (T : Topology) (s : Network) (v : UInt8) : LsPacket :=
  ⟨v, 0, (s.routers v).seqNum + 1, (T.rows v).map fun row => ⟨row.nodeId, row.cost⟩⟩

theorem Sound.broadcast_eq (h : T.Sound s) (hv : v ∈ T.ids) :
    T.broadcast s v = T.next s v { s.routers v with seqNum := (s.routers v).seqNum + 1 } s.frames
      [⟨v, T.announcement s v, (T.rows v).zipIdx⟩] := by
  have hrouter := h.routers v hv
  simp only [broadcast, Router.broadcastPacket, Router.createPacket, announcement, hrouter.id,
    hrouter.rows]

/-- The three steps: a broadcast, a packet that is discarded, and one that is forwarded. -/
theorem Sound.step_cases (h : T.Sound s) (hstep : T.machine.step s e = some t) :
    (∃ v ∈ T.ids, e = .broadcast v ∧ t = T.next s v
      { s.routers v with seqNum := (s.routers v).seqNum + 1 } s.frames
      [⟨v, T.announcement s v, (T.rows v).zipIdx⟩]) ∨
    ∃ i frame router b, e = .deliver i ∧ s.frames[i]? = some frame ∧
      (s.routers frame.receiver).updateRoutingTable frame.packet = some (b, router) ∧
      t = T.next s frame.receiver router (s.frames.eraseIdx i)
        (if b then [⟨frame.receiver, frame.packet,
          (T.rows frame.receiver).zipIdx.filter fun row => row.1.sockFd ≠ frame.fd⟩] else []) := by
  cases e with
  | broadcast v =>
      simp only [machine] at hstep
      split at hstep
      case isTrue hv =>
        cases hstep
        exact Or.inl ⟨v, hv, rfl, h.broadcast_eq hv⟩
      case isFalse => cases hstep
  | deliver i =>
      simp only [machine, deliver, Router.readPacket, Option.map_map, Option.bind_eq_some_iff,
        Option.map_eq_some_iff] at hstep
      obtain ⟨frame, hframe, ⟨b, router⟩, hupdate, rfl⟩ := hstep
      refine Or.inr ⟨i, frame, router, b, rfl, hframe, hupdate, ?_⟩
      obtain ⟨hreceiver, hpacket⟩ := h.frames frame (List.mem_of_getElem? hframe)
      have hrows := ((h.routers _ hreceiver).update hpacket hupdate).rows
      cases b with
      | true => simp only [Function.comp_apply, if_true, Option.map_some, Option.toList_some, hrows]
      | false => rfl

/-- No step fails: every router can broadcast, and every frame in flight can be read. -/
theorem Sound.exists_step (h : T.Sound s) :
    (∀ v ∈ T.ids, ∃ t, T.machine.step s (.broadcast v) = some t) ∧
      ∀ i, i < s.frames.length → ∃ t, T.machine.step s (.deliver i) = some t := by
  refine ⟨fun v hv => ⟨_, if_pos hv⟩, fun i hi => ?_⟩
  have hframe := List.getElem?_eq_getElem hi
  obtain ⟨hreceiver, hpacket⟩ := h.frames _ (List.getElem_mem hi)
  have hrouter := h.routers _ hreceiver
  obtain ⟨b, router, hupdate⟩ := hrouter.valid.exists_update hrouter.within hpacket
  refine Option.isSome_iff_exists.1 ?_
  simp only [machine, deliver, hframe, Option.bind_some, Router.readPacket, hupdate, Option.map_some,
    Option.isSome_some]

theorem mem_frames {sent : Transmission} {frame : Frame} : frame ∈ T.frames sent ↔
    ∃ row i, (row, i) ∈ sent.rows ∧ frame = ⟨(T.peer sent.sender row.sockFd).1,
      (T.peer sent.sender row.sockFd).2, sent.packet⟩ := by
  simp only [frames, List.mem_map, Prod.exists, eq_comm]

theorem packet_of_mem_frames {sent : Transmission} {frame : Frame} (hframe : frame ∈ T.frames sent) :
    frame.packet = sent.packet := by
  obtain ⟨row, i, -, rfl⟩ := mem_frames.1 hframe
  rfl

theorem Sound.next (h : T.Sound s) (hrouter : v ∈ T.ids → Router.Running T.ids v (T.rows v) router)
    {rest : List Frame} (hrest : rest ⊆ s.frames) {sent : List Transmission}
    (hsent : ∀ tr ∈ sent, tr.sender ∈ T.ids ∧ tr.packet.Within T.ids ∧
      tr.rows ⊆ (T.rows tr.sender).zipIdx) : T.Sound (T.next s v router rest sent) := by
  refine ⟨fun x hx => ?_, fun frame hframe => ?_⟩
  · refine next_rule (fun heq => ?_) fun _ => h.routers x hx
    subst heq
    exact hrouter hx
  · rcases List.mem_append.1 hframe with hframe | hframe
    · exact h.frames frame (hrest hframe)
    · obtain ⟨tr, htr, hframe⟩ := List.mem_flatMap.1 hframe
      obtain ⟨hsender, hpacket, hrows⟩ := hsent tr htr
      obtain ⟨row, i, hrow, rfl⟩ := mem_frames.1 hframe
      exact ⟨T.peer_mem _ hsender row (List.fst_mem_of_mem_zipIdx (hrows hrow)), hpacket⟩

theorem Sound.step (h : T.Sound s) (hstep : T.machine.step s e = some t) : T.Sound t := by
  rcases h.step_cases hstep with ⟨v, hv, -, rfl⟩ | ⟨i, frame, router, b, -, hframe, hupdate, rfl⟩
  · refine h.next (fun _ => (h.routers v hv).of_seqNum _) (List.Subset.refl _) fun tr htr => ?_
    rw [List.mem_singleton.1 htr]
    refine ⟨hv, ⟨hv, fun link hlink => ?_⟩, List.Subset.refl _⟩
    obtain ⟨row, hrow, rfl⟩ := List.mem_map.1 hlink
    exact T.rows_mem v hv row hrow
  · obtain ⟨hreceiver, hpacket⟩ := h.frames frame (List.mem_of_getElem? hframe)
    refine h.next (fun _ => (h.routers _ hreceiver).update hpacket hupdate)
      (List.eraseIdx_subset) fun tr htr => ?_
    split at htr
    case isTrue =>
      rw [List.mem_singleton.1 htr]
      exact ⟨hreceiver, hpacket, List.filter_subset_self _⟩
    case isFalse => cases htr

theorem sound_start {frames : List Frame}
    (hframes : ∀ frame ∈ frames, frame.receiver ∈ T.ids ∧ frame.packet.Within T.ids) :
    T.Sound (T.start frames) :=
  ⟨fun v hv => Router.running_parsed hv (T.rows_mem v hv) (T.rows_le v hv), hframes⟩

end Step

/-! ### Sequence numbers -/

/-- The number of the broadcast does not wrap around. -/
def NoWrap (s : Network) (e : Event) : Prop :=
  ∀ v, e = .broadcast v → (s.routers v).seqNum.toNat + 1 < 2 ^ 32

section Run

variable {T : Topology} {s t : Network} {e : Event} {events : List Event}

theorem Sound.seqNum_step (h : T.Sound s) (hstep : T.machine.step s e = some t) (x : UInt8) :
    (t.routers x).seqNum = (s.routers x).seqNum + if e = .broadcast x then 1 else 0 := by
  rcases h.step_cases hstep with ⟨v, -, rfl, rfl⟩ | ⟨i, frame, router, b, rfl, hframe, hupdate, rfl⟩
  · rw [next_routers]
    by_cases hx : x = v
    · subst hx
      rw [if_pos rfl, if_pos rfl]
    · rw [if_neg hx, if_neg fun heq => hx (Event.broadcast.inj heq).symm, UInt32.add_zero]
  · have hno : ¬ Event.deliver i = .broadcast x := nofun
    rw [if_neg hno, UInt32.add_zero]
    refine next_rule (P := fun r => r.seqNum = _) (fun heq => ?_) fun _ => rfl
    subst heq
    have hreceiver := (h.frames frame (List.mem_of_getElem? hframe)).1
    exact ((h.routers _ hreceiver).valid.update_same hupdate).2.1

theorem NoWrap.toNat_step (hwrap : NoWrap s e) (h : T.Sound s) (hstep : T.machine.step s e = some t)
    (x : UInt8) :
    (t.routers x).seqNum.toNat = (s.routers x).seqNum.toNat + if e = .broadcast x then 1 else 0 := by
  rw [h.seqNum_step hstep x]
  by_cases hx : e = .broadcast x
  · have hlt := hwrap x hx
    rw [if_pos hx, if_pos hx, UInt32.toNat_add]
    exact Nat.mod_eq_of_lt hlt
  · rw [if_neg hx, if_neg hx, UInt32.add_zero, Nat.add_zero]

/-- With fewer than 2^32 broadcasts no number wraps around, and a property that is kept as long as this
is so holds at the end. -/
theorem Sound.run {I : Network → Prop} (h : T.Sound s)
    (hbound : ∀ v, (s.routers v).seqNum.toNat + broadcasts events < 2 ^ 32)
    (hI : I s) (hkeep : ∀ s e t, T.Sound s → NoWrap s e → I s → T.machine.step s e = some t → I t)
    (hrun : T.machine.run s events = some t) : T.Sound t ∧ I t ∧
      ∀ v, (t.routers v).seqNum.toNat = (s.routers v).seqNum.toNat + events.count (.broadcast v) := by
  induction events generalizing s with
  | nil =>
      cases hrun
      exact ⟨h, hI, fun _ => rfl⟩
  | cons e events ih =>
      obtain ⟨mid, hstep, hrest⟩ := T.machine.run_cons_eq_some.1 hrun
      have hcount : ∀ v, (if e = .broadcast v then 1 else 0) + broadcasts events ≤
          broadcasts (e :: events) := by
        intro v
        rw [broadcasts, broadcasts, List.countP_cons, Nat.add_comm]
        refine Nat.add_le_add_left ?_ _
        split
        case isTrue heq => rw [heq]; exact Nat.le_refl 1
        case isFalse => exact Nat.zero_le _
      have hwrap : NoWrap s e := by
        rintro v rfl
        have hv := hcount v
        rw [if_pos rfl] at hv
        have := hbound v
        omega
      have hseq := hwrap.toNat_step h hstep
      obtain ⟨hsound, hend, hnum⟩ := ih (h.step hstep)
        (fun v => by have := hcount v; have := hbound v; rw [hseq]; omega)
        (hkeep s e mid h hwrap hI hstep) hrest
      refine ⟨hsound, hend, fun v => ?_⟩
      rw [hnum v, hseq v, List.count_cons, Nat.add_assoc, Nat.add_comm (events.count _)]
      simp only [beq_iff_eq]

end Run

end Topology

/-- Three routers, each linked to both others. -/
def triangle : Topology where
  ids := ⟨{65, 66, 67}, by decide, by decide +kernel⟩
  rows v :=
    if v = 65 then [⟨66, 1, 3⟩, ⟨67, 5, 4⟩]
    else if v = 66 then [⟨65, 1, 3⟩, ⟨67, 1, 4⟩]
    else if v = 67 then [⟨65, 5, 3⟩, ⟨66, 1, 4⟩]
    else []
  peer v fd :=
    if v = 65 then if fd = 3 then (66, 3) else (67, 3)
    else if v = 66 then if fd = 3 then (65, 3) else (67, 4)
    else if fd = 3 then (65, 4) else (66, 4)
  rows_le := by decide +kernel
  rows_mem := by decide +kernel
  peer_mem := by decide +kernel

end NetworkSystems.LinkState
