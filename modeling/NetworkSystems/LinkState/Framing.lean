import NetworkSystems.LinkState.Network
import NetworkSystems.Lib.Wire

/-!
# Frames on a TCP connection

How packets become bytes and what `read_packet` makes of the bytes. A frame is a length byte and the
serialized packet. `read_packet` reads the length and then asks for that many bytes in one `read`, and
goes on with whatever that call returns: behind it the buffer holds what the stack held before, and the
rest of the frame is taken for the beginning of the next one.
-/

namespace NetworkSystems.LinkState

abbrev lsPacketOverhead : Nat := 7

/-! ### Packets as bytes -/

def serialize (packet : LsPacket) : List UInt8 :=
  packet.shouldClose :: UInt8.ofNat packet.entries.length :: packet.origin :: (htonl packet.seqNum ++
    packet.entries.flatMap fun entry => [entry.destId, entry.cost])

/-- The loop of `deserialize`. -/
def deserializeEntries : Nat → List UInt8 → Option (List LsEntry)
  | 0, _ => some []
  | n + 1, destId :: cost :: inbuf => (deserializeEntries n inbuf).map (⟨destId, cost⟩ :: ·)
  | _ + 1, _ => none

def deserialize : List UInt8 → Option LsPacket
  | shouldClose :: numEntries :: origin :: b₀ :: b₁ :: b₂ :: b₃ :: inbuf =>
      if numEntries.toNat ≤ maxNumRouters then
        (deserializeEntries numEntries.toNat inbuf).map fun entries =>
          ⟨origin, shouldClose, ntohl [b₀, b₁, b₂, b₃], entries⟩
      else none
  | _ => none

/-- What `broadcast_packet` writes for a packet: the length that `serialize` returns and the bytes. -/
def LsPacket.frame (packet : LsPacket) : List UInt8 :=
  UInt8.ofNat (lsPacketOverhead + 2 * packet.entries.length) :: serialize packet

/-! ### Reading -/

/-- The buffer `input` of `read_packet`. -/
abbrev Input := Vector UInt8 255

/-- `read_packet` up to the call of `update_routing_table`: the packet and the bytes that it is forwarded
with, and the rest of the stream. Without data it returns -1. A buffer that is overrun is a fault. -/
def receive (stream : Incoming UInt8) (stale : Input) :
    Option (Option (LsPacket × Option (List UInt8)) × Incoming UInt8) :=
  match stream.read 1 with
  | ([], stream) => some (none, stream)
  | (length :: _, stream) =>
      let (body, stream) := stream.read length.toNat
      if body.length < 255 then
        let input := length :: (body ++ stale.toList.drop (body.length + 1))
        (deserialize input.tail).map fun packet =>
          (some (packet,
            if length.toNat < 255 then some (input.take (length.toNat + 1)) else none), stream)
      else none

/-- Calls of `read_packet` in turn, each with what its buffer holds at the start. -/
def receiveAll : List Input → Incoming UInt8 →
    Option (List (LsPacket × Option (List UInt8)) × Incoming UInt8)
  | [], stream => some ([], stream)
  | stale :: stales, stream =>
      (receive stream stale).bind fun (handed, stream) =>
        (receiveAll stales stream).map fun (rest, stream) => (handed.toList ++ rest, stream)

/-- `read_packet`: what it writes to which socket and the router after it, if it has not returned -1,
and the rest of the stream. -/
def Router.readPacketFrom (router : Router) (fd : Int) (stream : Incoming UInt8) (stale : Input) :
    Option (Option (List (Int × List UInt8) × Router) × Incoming UInt8) :=
  (receive stream stale).bind fun (handed, stream) =>
    match handed with
    | none => some (none, stream)
    | some (packet, bytes) =>
        (router.updateRoutingTable packet).bind fun (updated, router) =>
          if updated then
            ((router.neighborsTable.filter fun row => row.sockFd ≠ fd).mapM fun row =>
              bytes.map fun bytes => (row.sockFd, bytes)).map fun written =>
                (some (written, router), stream)
          else some (some ([], router), stream)

/-- `broadcast_packet`: what it writes to which socket, and the router after it. -/
def Router.broadcastFrames (router : Router) : List (Int × List UInt8) × Router :=
  let (packet, rows, router) := router.broadcastPacket
  (rows.map fun row => (row.1.sockFd, packet.frame), router)

def wire (packets : List LsPacket) : List UInt8 := packets.flatMap LsPacket.frame

/-- The calls hand over exactly the packets, forward exactly the frames and leave nothing unread. -/
def Faithful (packets : List LsPacket) (arrival : Nat → Nat) (stales : List Input) : Prop :=
  (receiveAll stales ⟨wire packets, arrival⟩).map (fun received => (received.1, received.2.bytes)) =
    some (packets.map fun packet => (packet, some packet.frame), [])

def Whole (packets : List LsPacket) (arrival : Nat → Nat) : Prop :=
  ∀ k packet, packets[k]? = some packet → (serialize packet).length ≤ arrival (2 * k + 1)

/-! ### The format -/

section Format

variable {packet : LsPacket} {inbuf : List UInt8}

theorem length_serialize (packet : LsPacket) :
    (serialize packet).length = lsPacketOverhead + 2 * packet.entries.length := by
  have hentries : ∀ entries : List LsEntry,
      (entries.flatMap fun entry => [entry.destId, entry.cost]).length = 2 * entries.length := by
    intro entries
    induction entries with
    | nil => rfl
    | cons entry entries ih =>
        rw [List.flatMap_cons, List.length_append, ih, List.length_cons]
        simp only [List.length_cons, List.length_nil]
        omega
  simp only [serialize, htonl, List.length_cons, List.length_append, length_bigEndian, hentries,
    lsPacketOverhead]
  omega

theorem deserializeEntries_append (entries : List LsEntry) (rest : List UInt8) :
    deserializeEntries entries.length
      ((entries.flatMap fun entry => [entry.destId, entry.cost]) ++ rest) = some entries := by
  induction entries with
  | nil => rfl
  | cons entry entries ih =>
      simp only [List.flatMap_cons, List.cons_append, List.nil_append, List.length_cons,
        deserializeEntries, ih, Option.map_some]

theorem append_of_deserializeEntries {n : Nat} {entries : List LsEntry}
    (h : deserializeEntries n inbuf = some entries) : entries.length = n ∧
      ∃ rest, inbuf = (entries.flatMap fun entry => [entry.destId, entry.cost]) ++ rest := by
  induction n generalizing inbuf entries with
  | zero =>
      obtain rfl := Option.some.inj h
      exact ⟨rfl, inbuf, rfl⟩
  | succ n ih =>
      match inbuf, h with
      | destId :: cost :: inbuf, h =>
          obtain ⟨entries, hentries, rfl⟩ := Option.map_eq_some_iff.1 h
          obtain ⟨hlength, rest, rfl⟩ := ih hentries
          exact ⟨congrArg Nat.succ hlength, rest, rfl⟩

theorem deserialize_serialize (hentries : packet.entries.length ≤ maxNumRouters)
    (rest : List UInt8) : deserialize (serialize packet ++ rest) = some packet := by
  have hcount : (UInt8.ofNat packet.entries.length).toNat = packet.entries.length :=
    UInt8.toNat_ofNat_of_lt' (by simp only [maxNumRouters] at hentries; simp only [UInt8.size]; omega)
  have hseq := ntohl_htonl packet.seqNum
  have hlength : (htonl packet.seqNum).length = 4 := length_bigEndian 4 _
  match hbytes : htonl packet.seqNum, hlength with
  | [b₀, b₁, b₂, b₃], _ =>
      rw [hbytes] at hseq
      simp only [serialize, hbytes, List.cons_append, List.nil_append, deserialize, hcount, if_pos hentries,
        deserializeEntries_append, Option.map_some, hseq]

theorem serialize_of_deserialize (h : deserialize inbuf = some packet) :
    packet.entries.length ≤ maxNumRouters ∧ ∃ rest, inbuf = serialize packet ++ rest := by
  match inbuf, h with
  | shouldClose :: numEntries :: origin :: b₀ :: b₁ :: b₂ :: b₃ :: inbuf, h =>
      obtain ⟨hcount, h⟩ := Option.ite_none_right_eq_some.1 h
      obtain ⟨entries, hentries, rfl⟩ := Option.map_eq_some_iff.1 h
      obtain ⟨hlength, rest, rfl⟩ := append_of_deserializeEntries hentries
      refine ⟨hlength.trans_le hcount, rest, ?_⟩
      rw [serialize, hlength, UInt8.ofNat_toNat, htonl_ntohl rfl]
      rfl

end Format

/-! ### One call -/

section Receive

variable {packet : LsPacket} {stream stream' : Incoming UInt8} {arrival : Nat → Nat} {stale : Input}

theorem length_frame (packet : LsPacket) :
    packet.frame.length = (serialize packet).length + 1 := rfl

theorem frame_length_byte (hentries : packet.entries.length ≤ maxNumRouters) :
    (UInt8.ofNat (lsPacketOverhead + 2 * packet.entries.length)).toNat =
      (serialize packet).length := by
  simp only [maxNumRouters] at hentries
  rw [length_serialize]
  exact UInt8.toNat_ofNat_of_lt' (by simp only [lsPacketOverhead, UInt8.size]; omega)

/-- A call for which the whole frame has arrived. -/
theorem receive_frame (hentries : packet.entries.length ≤ maxNumRouters)
    (hwhole : (serialize packet).length ≤ arrival 1) (rest : List UInt8) :
    receive ⟨packet.frame ++ rest, arrival⟩ stale =
      some (some (packet, some packet.frame), ⟨rest, fun k => arrival (k + 2)⟩) := by
  have hbyte := frame_length_byte hentries
  have hlength := length_serialize packet
  simp only [maxNumRouters] at hentries
  simp only [lsPacketOverhead] at hlength
  have hbody : Incoming.read ⟨serialize packet ++ rest, fun k => arrival (k + 1)⟩
      (serialize packet).length = (serialize packet, ⟨rest, fun k => arrival (k + 2)⟩) :=
    Incoming.read_of_arrived rest (hwhole.trans (Nat.le_max_right _ _))
  simp only [receive, LsPacket.frame, List.cons_append, Incoming.read_one, hbyte, hbody, List.tail_cons]
  rw [if_pos (by omega), deserialize_serialize hentries, Option.map_some, if_pos (by omega),
    List.take_succ_cons, List.take_left]

theorem receive_end (arrival : Nat → Nat) (stale : Input) :
    receive ⟨[], arrival⟩ stale = some (none, ⟨[], fun k => arrival (k + 1)⟩) := by
  rw [receive, Incoming.read_nil]

/-- Everything a call can do: it returns -1 at the end of the stream, or it reads a length byte and of the
body what the second read returns. -/
theorem receive_cases {handed : Option (LsPacket × Option (List UInt8))}
    (h : receive stream stale = some (handed, stream')) :
    (handed = none ∧ stream.bytes = [] ∧ stream'.bytes = []) ∨
    ∃ byte bytes packet tail, stream.bytes = byte :: bytes ∧
      stream' = (Incoming.read ⟨bytes, fun k => stream.arrival (k + 1)⟩ byte.toNat).2 ∧
      handed = some (packet, if byte.toNat < 255 then some (byte :: tail) else none) := by
  obtain ⟨bytes, arrival⟩ := stream
  cases bytes with
  | nil =>
      rw [receive_end] at h
      obtain ⟨rfl, rfl⟩ := Prod.mk.inj (Option.some.inj h)
      exact Or.inl ⟨rfl, rfl, rfl⟩
  | cons byte bytes =>
      simp only [receive, Incoming.read_one] at h
      obtain ⟨-, h⟩ := Option.ite_none_right_eq_some.1 h
      obtain ⟨packet, -, heq⟩ := Option.map_eq_some_iff.1 h
      obtain ⟨rfl, rfl⟩ := Prod.mk.inj heq
      exact Or.inr ⟨byte, bytes, packet, _, rfl, rfl, rfl⟩

/-- A call that hands over a frame of the right length has read as much of it as had arrived. -/
theorem length_of_receive (hentries : packet.entries.length ≤ maxNumRouters) {handed : LsPacket}
    (h : receive stream stale = some (some (handed, some packet.frame), stream')) :
    (∀ k, stream'.arrival k = stream.arrival (k + 2)) ∧
      ∃ n ≤ (serialize packet).length, n ≤ max 1 (stream.arrival 1) ∧
        stream.bytes.length = n + 1 + stream'.bytes.length := by
  rcases receive_cases h with ⟨hnone, -⟩ | ⟨byte, bytes, _, tail, hbytes, rfl, heq⟩
  · cases hnone
  · obtain ⟨-, hforward⟩ := Prod.mk.inj (Option.some.inj heq)
    obtain ⟨-, hframe⟩ := Option.ite_none_right_eq_some.1 hforward.symm
    obtain ⟨hbyte, -⟩ := List.cons.inj (Option.some.inj hframe)
    have hlength := congrArg List.length
      (Incoming.read_append ⟨bytes, fun k => stream.arrival (k + 1)⟩ byte.toNat)
    have hle := Incoming.read_length_le ⟨bytes, fun k => stream.arrival (k + 1)⟩ byte.toNat
    have hcount : byte.toNat = (serialize packet).length := by
      rw [hbyte, frame_length_byte hentries]
    refine ⟨fun _ => rfl, _, hle.trans_eq hcount, Incoming.read_length_le_arrival _ _, ?_⟩
    rw [List.length_append] at hlength
    rw [hbytes, List.length_cons, ← hlength]
    omega

end Receive

/-! ### Runs of calls -/

section Calls

variable {packet : LsPacket} {packets : List LsPacket} {arrival : Nat → Nat} {stales : List Input}

@[simp] theorem wire_cons : wire (packet :: packets) = packet.frame ++ wire packets := rfl

@[simp] theorem whole_nil : Whole [] arrival := nofun

theorem whole_cons : Whole (packet :: packets) arrival ↔
    (serialize packet).length ≤ arrival 1 ∧ Whole packets fun k => arrival (k + 2) := by
  constructor
  · exact fun h => ⟨h 0 packet rfl, fun k p hp => h (k + 1) p hp⟩
  · rintro ⟨hhead, htail⟩ (_ | k) p hp
    · obtain rfl := Option.some.inj hp
      exact hhead
    · exact htail k p hp

theorem receiveAll_end (stales : List Input) {stream : Incoming UInt8} (h : stream.bytes = []) :
    ∃ stream', receiveAll stales stream = some ([], stream') ∧ stream'.bytes = [] := by
  induction stales generalizing stream with
  | nil => exact ⟨stream, rfl, h⟩
  | cons stale stales ih =>
      obtain ⟨bytes, arrival⟩ := stream
      obtain rfl : bytes = [] := h
      have hrest : ∃ stream', receiveAll stales ⟨[], fun k => arrival (k + 1)⟩ = some ([], stream') ∧
          stream'.bytes = [] := ih rfl
      obtain ⟨stream', hrest, hend⟩ := hrest
      refine ⟨stream', ?_, hend⟩
      rw [receiveAll, receive_end, Option.bind_some]
      change (receiveAll stales _).map _ = _
      rw [hrest]
      rfl

theorem faithful_of_whole (hentries : ∀ packet ∈ packets, packet.entries.length ≤ maxNumRouters)
    (hstales : packets.length ≤ stales.length) (hwhole : Whole packets arrival) :
    Faithful packets arrival stales := by
  induction packets generalizing arrival stales with
  | nil =>
      obtain ⟨stream', hrest, hend⟩ :=
        receiveAll_end stales (show (⟨wire [], arrival⟩ : Incoming UInt8).bytes = [] from rfl)
      rw [Faithful, hrest, Option.map_some, hend]
      rfl
  | cons packet packets ih =>
      cases stales with
      | nil => exact absurd hstales (by simp)
      | cons stale stales =>
          obtain ⟨hhead, htail⟩ := whole_cons.1 hwhole
          have hrest := ih (fun p hp => hentries p (List.mem_cons_of_mem _ hp))
            (Nat.le_of_succ_le_succ hstales) htail
          rw [Faithful, receiveAll, wire_cons, receive_frame (hentries packet (by simp)) hhead,
            Option.bind_some, Option.map_map]
          rw [Faithful] at hrest
          obtain ⟨received, hreceived, heq⟩ := Option.map_eq_some_iff.1 hrest
          obtain ⟨hhanded, hend⟩ := Prod.mk.inj heq
          rw [hreceived, Option.map_some]
          simp [hhanded, hend]

/-- Calls that hand over frames and read everything have read at most those frames, and no more than the
bodies that arrived in one piece. -/
theorem whole_of_receiveAll (hentries : ∀ packet ∈ packets, packet.entries.length ≤ maxNumRouters)
    {stream stream' : Incoming UInt8}
    (h : receiveAll stales stream =
      some (packets.map fun packet => (packet, some packet.frame), stream'))
    (hend : stream'.bytes = []) : stream.bytes.length ≤ (wire packets).length ∧
      (stream.bytes.length = (wire packets).length → Whole packets stream.arrival) := by
  induction stales generalizing packets stream with
  | nil =>
      obtain ⟨hnil, rfl⟩ := Prod.mk.inj (Option.some.inj h)
      obtain rfl := List.map_eq_nil_iff.1 hnil.symm
      exact ⟨by rw [hend]; exact le_rfl, fun _ => whole_nil⟩
  | cons stale stales ih =>
      obtain ⟨⟨handed, mid⟩, hreceive, hall⟩ := Option.bind_eq_some_iff.1 h
      obtain ⟨⟨rest, last⟩, hrest, heq⟩ := Option.map_eq_some_iff.1 hall
      obtain ⟨hhanded, rfl⟩ := Prod.mk.inj heq
      cases handed with
      | none =>
          have hstream : stream.bytes = [] := by
            rcases receive_cases hreceive with ⟨-, hbytes, -⟩ | ⟨_, _, _, _, -, -, hsome⟩
            · exact hbytes
            · cases hsome
          rw [hstream]
          refine ⟨Nat.zero_le _, fun hzero => ?_⟩
          obtain rfl : packets = [] := by
            cases packets with
            | nil => rfl
            | cons packet packets =>
                rw [wire_cons, List.length_append, length_frame, List.length_nil] at hzero
                omega
          exact whole_nil
      | some first =>
          cases packets with
          | nil => cases hhanded
          | cons packet packets =>
              obtain ⟨rfl, rfl⟩ := List.cons.inj hhanded
              obtain ⟨harrival, n, hn, hread, hlength⟩ :=
                length_of_receive (hentries packet (by simp)) hreceive
              obtain ⟨hle, hwhole⟩ := ih (fun p hp => hentries p (List.mem_cons_of_mem _ hp)) hrest
              have hbody := length_serialize packet
              rw [wire_cons, List.length_append, length_frame]
              refine ⟨by omega, fun hsame => whole_cons.2 ⟨?_, ?_⟩⟩
              · simp only [lsPacketOverhead] at hbody
                omega
              · have htail := hwhole (by omega)
                exact fun k p hp => (htail k p hp).trans_eq (harrival _)

end Calls

/-- When the whole frame has arrived, `read_packet` does with the bytes what it does with the packet. -/
theorem Router.readPacketFrom_frame (router : Router) (fd : Int) {packet : LsPacket}
    (hentries : packet.entries.length ≤ maxNumRouters) {arrival : Nat → Nat}
    (hwhole : (serialize packet).length ≤ arrival 1) (rest : List UInt8) (stale : Input) :
    router.readPacketFrom fd ⟨packet.frame ++ rest, arrival⟩ stale =
      (router.readPacket fd packet).map fun (rows, router) =>
        (some ((rows.getD []).map fun row => (row.1.sockFd, packet.frame), router),
          ⟨rest, fun k => arrival (k + 2)⟩) := by
  rw [readPacketFrom, receive_frame hentries hwhole, Option.bind_some, readPacket, Option.map_map]
  dsimp only
  cases router.updateRoutingTable packet with
  | none => rfl
  | some result =>
      obtain ⟨updated, router⟩ := result
      cases updated with
      | false => rfl
      | true =>
          have hrows : (router.neighborsTable.zipIdx.filter fun row => row.1.sockFd ≠ fd).map Prod.fst =
              router.neighborsTable.filter fun row => row.sockFd ≠ fd := by
            have hfilter := List.filter_map (f := Prod.fst)
              (p := fun row : Neighbor => decide (row.sockFd ≠ fd)) (l := router.neighborsTable.zipIdx)
            rw [List.zipIdx_map_fst] at hfilter
            exact hfilter.symm
          have hwrite : ∀ rows : List Neighbor, (rows.mapM fun row => some (row.sockFd, packet.frame)) =
              some (rows.map fun row => (row.sockFd, packet.frame)) := fun rows => List.mapM_pure
          simp only [Option.bind_some, Option.map_some, if_true, Option.getD_some, ← hrows, hwrite,
            List.map_map, Function.comp_def]

theorem Router.broadcastFrames_eq (router : Router)
    (hrows : router.neighborsTable.length ≤ maxNumRouters) :
    ∃ packet : LsPacket, packet.entries.length ≤ maxNumRouters ∧
      ∀ written ∈ router.broadcastFrames.1, written.2 = packet.frame := by
  refine ⟨(router.createPacket 0).1, by simpa [createPacket] using hrows, fun written hwritten => ?_⟩
  obtain ⟨row, -, rfl⟩ := List.mem_map.1 hwritten
  rfl

/-- **Frames survive segmentation** exactly if no read of a body is short. -/
theorem faithful_iff_whole (packets : List LsPacket)
    (hentries : ∀ packet ∈ packets, packet.entries.length ≤ maxNumRouters) (arrival : Nat → Nat)
    (stales : List Input) (hstales : packets.length ≤ stales.length) :
    Faithful packets arrival stales ↔ Whole packets arrival := by
  refine ⟨fun h => ?_, faithful_of_whole hentries hstales⟩
  obtain ⟨⟨handed, stream⟩, hreceived, heq⟩ := Option.map_eq_some_iff.1 h
  obtain ⟨hhanded, hend⟩ := Prod.mk.inj heq
  subst hhanded
  exact (whole_of_receiveAll hentries hreceived hend).2 rfl

/-- A packet of router A with one row. -/
def oneRow : LsPacket := ⟨65, 0, 1, [⟨66, 5⟩]⟩

/-- Two frames, each of which arrives in two pieces with the cut behind its length byte. -/
theorem faithful_iff_whole_two :
    Faithful [oneRow, oneRow] (fun k => if k % 2 = 0 then 1 else 9) (List.replicate 2 (.replicate 255 0)) :=
  (faithful_iff_whole [oneRow, oneRow] (by decide) _ _ (by decide)).2 (by
    rintro (_ | _ | k) packet hpacket
    · obtain rfl := Option.some.inj hpacket
      decide
    · obtain rfl := Option.some.inj hpacket
      decide
    · cases hpacket)

/-- The last byte of the body comes later. The buffer holds a zero in its place, so the row gets the
cost 0, and the byte that is left is read as the length of the next frame. -/
theorem not_faithful : ¬ ∀ (packets : List LsPacket) (arrival : Nat → Nat) (stales : List Input),
    (∀ packet ∈ packets, packet.entries.length ≤ maxNumRouters) → packets.length ≤ stales.length →
      Faithful packets arrival stales := by
  intro hclaim
  have hfaithful := hclaim [oneRow] (fun _ => 8) [.replicate 255 0] (by decide) (by decide)
  have hreceived : (receiveAll [.replicate 255 0] ⟨wire [oneRow], fun _ => 8⟩).map
      (fun received => (received.1, received.2.bytes)) =
    some ([(⟨65, 0, 1, [⟨66, 0⟩]⟩, some [9, 0, 1, 65, 0, 0, 0, 1, 66, 0])], [5]) := by decide
  rw [Faithful, hreceived] at hfaithful
  exact absurd hfaithful (by decide)

end NetworkSystems.LinkState
