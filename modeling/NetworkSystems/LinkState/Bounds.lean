import NetworkSystems.LinkState.Codec
import NetworkSystems.LinkState.Completeness

/-!
# Frames and the bounds of the tables

`read_packet` does not check what a frame says against the sizes of its arrays. For each call this file
says which frames stay within them, in the state in which they are read: a condition on the length byte
and the number of entries, and on the ids that the packet mentions. A run of calls has no fault exactly if
all its frames meet it.
-/

namespace NetworkSystems.LinkState

/-- A call of `read_packet`: the socket, what there is to read from it, and what the buffer holds. -/
structure Call where
  fd : Int
  stream : Incoming UInt8
  stale : Input

/-- What the second read returns, with the length byte that the first one has returned. -/
def Call.body (call : Call) (length : UInt8) : List UInt8 :=
  ((call.stream.read 1).2.read length.toNat).1

/-- What the buffer holds then, behind the length byte. -/
def Call.inbuf (call : Call) (length : UInt8) : List UInt8 :=
  call.body length ++ call.stale.toList.drop ((call.body length).length + 1)

namespace Router

def Accepts (router : Router) (packet : LsPacket) : Prop :=
  packet.origin ≠ router.id ∧ (router.entry packet.origin = none ∨
    packetHasUpdate ((router.stored packet.origin).getD .zeroed) packet = true)

/-- The tables have a place for the origin of the packet, and if it is accepted, for everything that the
search settles. -/
structure Admits (router : Router) (packet : LsPacket) : Prop where
  origin : packet.origin = router.id ∨ router.HasPlace packet.origin
  search : router.Accepts packet →
    Places (router.linksWith packet) router.id (insert packet.origin router.destIds) []

/-- The call stays within the arrays. The buffer has room for the body, and for the byte behind it if the
frame is forwarded. The packet has at most 32 entries, and the tables admit it. -/
structure InBounds (router : Router) (call : Call) (length : UInt8) : Prop where
  body : (call.body length).length < 255
  numEntries : ∀ n, (call.inbuf length)[1]? = some n → n.toNat ≤ maxNumRouters
  admits : ∀ (packet : LsPacket) (rest : List UInt8), packet.entries.length ≤ maxNumRouters →
    call.inbuf length = serialize packet ++ rest → router.Admits packet
  forward : ∀ (packet : LsPacket) (rest : List UInt8), packet.entries.length ≤ maxNumRouters →
    call.inbuf length = serialize packet ++ rest → router.Accepts packet →
      ∀ row ∈ router.neighborsTable, row.sockFd ≠ call.fd → length.toNat < 255

/-- A call that reads a length byte stays within the arrays. Without data a call returns -1. -/
def CallInBounds (router : Router) (call : Call) : Prop :=
  ∀ length, call.stream.bytes.head? = some length → router.InBounds call length

def reading : Machine Router Call where
  step router call := (router.readPacketFrom call.fd call.stream call.stale).map fun (handed, _) =>
    (handed.map Prod.snd).getD router

section Packet

variable {router router' : Router} {packet : LsPacket}

theorem Valid.store_accepts {b : Bool} (h : router.Valid)
    (hstore : router.store packet = some (b, router')) : b = true ↔ router.Accepts packet := by
  rcases h.store_cases hstore with ⟨hself, rfl, -⟩ | ⟨hself, hnone, rfl, -⟩ | ⟨e, hself, hentry, hb, -⟩
  · exact iff_of_false Bool.false_ne_true fun haccepts => haccepts.1 hself
  · exact iff_of_true rfl ⟨hself, Or.inl hnone⟩
  · have hsome : router.entry packet.origin ≠ none := by
      rw [hentry]
      exact Option.some_ne_none e
    rw [Accepts, and_iff_right hself, or_iff_right hsome, stored_eq hentry, hb]

theorem Valid.store_destIds (h : router.Valid) (hstore : router.store packet = some (true, router')) :
    router'.destIds = insert packet.origin router.destIds := by
  rcases h.store_cases hstore with ⟨-, hb, -⟩ | ⟨-, -, -, hw⟩ | ⟨e, -, -, -, hw⟩
  · cases hb
  · exact h.destIds_writes hw
  · exact h.destIds_writes hw

theorem Valid.update_isSome (h : router.Valid) :
    (router.updateRoutingTable packet).isSome ↔ router.Admits packet := by
  have hplace : (router.store packet).isSome ↔ _ := h.store_isSome
  rw [updateRoutingTable]
  cases hstore : router.store packet with
  | none =>
      rw [hstore] at hplace
      exact iff_of_false Bool.false_ne_true fun hadmits => Bool.false_ne_true (hplace.2 hadmits.origin)
  | some result =>
      obtain ⟨stored, mid⟩ := result
      rw [hstore] at hplace
      have haccepts := h.store_accepts hstore
      rw [Option.bind_some]
      cases stored with
      | false =>
          refine iff_of_true rfl ⟨hplace.1 rfl, fun hnot => ?_⟩
          cases haccepts.2 hnot
      | true =>
          obtain ⟨hlinks, -⟩ := h.store_true hstore
          obtain ⟨hvalid, hid, -⟩ := h.store hstore
          have hcompute : (Router.compute (maxNumRouters - 1) mid _).isSome ↔ _ :=
            hvalid.grown_nil.compute_isSome rfl
          rw [hlinks, hid, h.store_destIds hstore, List.map_nil] at hcompute
          simp only [if_true, Option.isSome_map, hid, hcompute]
          exact ⟨fun hsearch => ⟨hplace.1 rfl, fun _ => hsearch⟩,
            fun hadmits => hadmits.search (haccepts.1 rfl)⟩

end Packet

/-! ### One call -/

section Read

variable {router router' : Router} {call : Call} {length : UInt8} {bytes inbuf : List UInt8}
  {packet : LsPacket}

theorem length_inbuf (hbody : (call.body length).length < 255) : (call.inbuf length).length = 254 := by
  rw [Call.inbuf, List.length_append, List.length_drop, Vector.length_toList]
  omega

theorem deserialize_isSome (hlength : lsPacketOverhead + 2 * maxNumRouters ≤ inbuf.length) :
    (deserialize inbuf).isSome ↔ ∀ n, inbuf[1]? = some n → n.toNat ≤ maxNumRouters := by
  simp only [lsPacketOverhead, maxNumRouters] at hlength
  have hheader : 7 ≤ inbuf.length := (by decide : 7 ≤ 7 + 2 * 32).trans hlength
  match inbuf, hlength, hheader with
  | shouldClose :: numEntries :: origin :: b₀ :: b₁ :: b₂ :: b₃ :: inbuf, hlength, _ =>
      simp only [List.length_cons] at hlength
      rw [deserialize]
      by_cases hcount : numEntries.toNat ≤ maxNumRouters
      · obtain ⟨entries, hentries⟩ : ∃ entries, deserializeEntries numEntries.toNat inbuf = some entries := by
          apply exists_deserializeEntries
          simp only [maxNumRouters] at hcount
          omega
        rw [if_pos hcount, hentries]
        exact iff_of_true rfl fun n hn => Option.some.inj hn ▸ hcount
      · rw [if_neg hcount]
        exact iff_of_false Bool.false_ne_true fun hall => hcount (hall numEntries rfl)

theorem receive_eq (hbytes : call.stream.bytes = length :: bytes) :
    receive call.stream call.stale =
      if (call.body length).length < 255 then
        (deserialize (call.inbuf length)).map fun packet =>
          (some (packet, if length.toNat < 255 then
            some ((length :: call.inbuf length).take (length.toNat + 1)) else none),
            ((call.stream.read 1).2.read length.toNat).2)
      else none := by
  obtain ⟨fd, ⟨_, arrival⟩, stale⟩ := call
  obtain rfl : _ = length :: bytes := hbytes
  simp only [receive, Call.body, Call.inbuf, Incoming.read_one, List.tail_cons]

theorem mapM_isSome (rows : List Neighbor) (bytes : Option (List UInt8)) :
    (rows.mapM fun row => bytes.map fun bytes => (row.sockFd, bytes)).isSome ↔
      ∀ row ∈ rows, bytes.isSome := by
  cases bytes with
  | none =>
      cases rows with
      | nil => exact iff_of_true rfl nofun
      | cons row rows =>
          rw [List.mapM_cons]
          exact iff_of_false Bool.false_ne_true fun hall => Bool.false_ne_true (hall row (by simp))
  | some bytes =>
      have hwrite : (rows.mapM fun row => some (row.sockFd, bytes)) =
          some (rows.map fun row => (row.sockFd, bytes)) := List.mapM_pure
      simp only [Option.map_some, hwrite, Option.isSome_some, implies_true]

theorem Valid.update_accepts {b : Bool} (h : router.Valid)
    (hupdate : router.updateRoutingTable packet = some (b, router')) :
    b = true ↔ router.Accepts packet := by
  obtain ⟨mid, hstore, -⟩ := h.update_store hupdate
  exact h.store_accepts hstore

/-- A call that reads a length byte has no fault exactly if it stays within the arrays. -/
theorem Valid.readPacketFrom_isSome (h : router.Valid) (hbytes : call.stream.bytes = length :: bytes) :
    (router.readPacketFrom call.fd call.stream call.stale).isSome ↔ router.InBounds call length := by
  rw [readPacketFrom, receive_eq hbytes]
  by_cases hbody : (call.body length).length < 255
  · have hread : (deserialize (call.inbuf length)).isSome ↔ _ :=
      deserialize_isSome (by rw [length_inbuf hbody]; decide)
    rw [if_pos hbody]
    cases hpacket : deserialize (call.inbuf length) with
    | none =>
        rw [hpacket] at hread
        exact iff_of_false Bool.false_ne_true
          fun hbounds => Bool.false_ne_true (hread.2 hbounds.numEntries)
    | some packet =>
        rw [hpacket] at hread
        obtain ⟨hentries, rest, hinbuf⟩ := serialize_of_deserialize hpacket
        have hsame : ∀ {p : LsPacket} {rest : List UInt8}, p.entries.length ≤ maxNumRouters →
            call.inbuf length = serialize p ++ rest → p = packet := by
          intro p rest hp heq
          rw [heq, deserialize_serialize hp] at hpacket
          exact Option.some.inj hpacket
        have hbounds : router.InBounds call length ↔ router.Admits packet ∧ (router.Accepts packet →
            ∀ row ∈ router.neighborsTable, row.sockFd ≠ call.fd → length.toNat < 255) := by
          constructor
          · exact fun hall => ⟨hall.admits packet rest hentries hinbuf, hall.forward packet rest hentries hinbuf⟩
          · rintro ⟨hadmits, hforward⟩
            refine ⟨hbody, hread.1 rfl, fun p rest hp heq => ?_, fun p rest hp heq => ?_⟩
            · exact hsame hp heq ▸ hadmits
            · exact hsame hp heq ▸ hforward
        rw [hbounds, ← h.update_isSome, Option.map_some, Option.bind_some]
        dsimp only
        cases hupdate : router.updateRoutingTable packet with
        | none => exact iff_of_false Bool.false_ne_true fun hall => Bool.false_ne_true hall.1
        | some result =>
            obtain ⟨updated, router'⟩ := result
            have haccepts := h.update_accepts hupdate
            rw [Option.bind_some, Option.isSome_some, and_iff_right rfl]
            cases updated with
            | false =>
                refine iff_of_true rfl fun hnot => ?_
                cases haccepts.2 hnot
            | true =>
                obtain ⟨-, -, hrows, -⟩ := h.update_same hupdate
                simp only [if_true, Option.isSome_map, mapM_isSome, hrows, List.mem_filter]
                have hsome : ∀ written : List UInt8,
                    (if length.toNat < 255 then some written else none).isSome ↔ length.toNat < 255 := by
                  intro written
                  split
                  case isTrue hlt => exact iff_of_true rfl hlt
                  case isFalse hlt => exact iff_of_false Bool.false_ne_true hlt
                simp only [hsome, decide_eq_true_eq, and_imp]
                exact ⟨fun hall _ => hall, fun hall => hall (haccepts.1 rfl)⟩
  · rw [if_neg hbody]
    exact iff_of_false Bool.false_ne_true fun hbounds => hbody hbounds.body

theorem Valid.readPacketFrom (h : router.Valid) {fd : Int} {stream stream' : Incoming UInt8}
    {stale : Input} {written : List (Int × List UInt8)}
    (hread : router.readPacketFrom fd stream stale = some (some (written, router'), stream')) :
    router'.Valid := by
  rw [Router.readPacketFrom, Option.bind_eq_some_iff] at hread
  obtain ⟨⟨handed, mid⟩, -, hread⟩ := hread
  cases handed with
  | none => cases hread
  | some first =>
      obtain ⟨packet, bytes⟩ := first
      obtain ⟨⟨updated, last⟩, hupdate, hread⟩ := Option.bind_eq_some_iff.1 hread
      have hlast : last = router' := by
        cases updated with
        | false =>
            cases hread
            rfl
        | true =>
            simp only [if_true, Option.map_eq_some_iff, Prod.mk.injEq, Option.some.injEq] at hread
            obtain ⟨_, -, ⟨-, hlast⟩, -⟩ := hread
            exact hlast
      obtain ⟨-, -, -, hvalid⟩ := h.update_store hupdate
      exact hlast ▸ hvalid

theorem Valid.reading_step (h : router.Valid) (hstep : reading.step router call = some router') :
    router'.Valid := by
  obtain ⟨⟨handed, stream⟩, hread, rfl⟩ := Option.map_eq_some_iff.1 hstep
  cases handed with
  | none => exact h
  | some handed => exact h.readPacketFrom hread

theorem Valid.reading_isSome (h : router.Valid) :
    (reading.step router call).isSome ↔ router.CallInBounds call := by
  rw [reading, Option.isSome_map, CallInBounds]
  cases hbytes : call.stream.bytes with
  | nil =>
      obtain ⟨fd, ⟨_, arrival⟩, stale⟩ := call
      obtain rfl : _ = [] := hbytes
      refine iff_of_true ?_ nofun
      rw [Router.readPacketFrom, receive_end]
      rfl
  | cons length bytes =>
      rw [h.readPacketFrom_isSome hbytes]
      exact ⟨fun hbounds _ hlength => Option.some.inj hlength ▸ hbounds, fun hall => hall length rfl⟩

end Read

end Router

/-- **No index is out of range** in a run of calls from the start, exactly if every one of them stays within
the arrays in the state in which it is made. -/
theorem reading_iff_inBounds (id : UInt8) (rows : List Neighbor) (hrows : rows.length ≤ maxNumRouters)
    (calls : List Call) : (Router.reading.run (.parsed id rows) calls).isSome ↔
      Router.reading.Within Router.CallInBounds (.parsed id rows) calls :=
  Router.reading.run_isSome_iff_within (fun _ _ _ h => h.reading_step) (fun _ _ h => h.reading_isSome)
    (Router.parsed_valid hrows) calls

/-- Router A reads a frame of its neighbor B, whose one entry is for A. -/
theorem reading_iff_inBounds_neighbor : Router.reading.Within Router.CallInBounds
    (.parsed 65 [⟨66, 1, 3⟩]) [⟨3, ⟨[9, 0, 1, 66, 0, 0, 0, 1, 65, 1], fun _ => 9⟩, .replicate 255 0⟩] :=
  (reading_iff_inBounds 65 [⟨66, 1, 3⟩] (by decide) _).1 (by decide +kernel)

/-- A header that announces 33 entries. The last of them goes behind the end of `dest_id`. -/
theorem not_inBounds : ¬ ∀ (id : UInt8) (rows : List Neighbor) (calls : List Call),
    rows.length ≤ maxNumRouters → (Router.reading.run (.parsed id rows) calls).isSome := by
  intro hclaim
  have hsome := hclaim 65 [⟨66, 1, 3⟩]
    [⟨3, ⟨[7, 0, 33, 66, 0, 0, 0, 1], fun _ => 7⟩, .replicate 255 0⟩] (by decide)
  exact absurd hsome (by decide +kernel)

end NetworkSystems.LinkState
