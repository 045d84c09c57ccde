import Mathlib.Algebra.Ring.Int.Defs
import Mathlib.Algebra.Ring.Nat
import Mathlib.Logic.Function.Basic
import Mathlib.Data.List.Basic

/-!
# A link-state router

The state of a router and the computation of its table. An array with a counter is the list of its
elements in use. A pointer into `_m_destinations` is an index. A result of `none` is a fault: an index
out of range, a `NULL` that is dereferenced, or an assertion that fails.
-/

namespace NetworkSystems.LinkState

abbrev maxNumRouters : Nat := 32

/-- One element of the two arrays of an `ls_packet_t`. -/
structure LsEntry where
  destId : UInt8
  cost : UInt8
  deriving DecidableEq

/-- `ls_packet_t`, with the first `num_entries` elements of its arrays. -/
structure LsPacket where
  origin : UInt8
  shouldClose : UInt8
  seqNum : UInt32
  entries : List LsEntry
  deriving DecidableEq

def LsPacket.zeroed : LsPacket := ⟨0, 0, 0, []⟩

structure RoutingEntry where
  destId : UInt8
  gatewayIdx : UInt8
  cost : Int
  packet : Option LsPacket
  deriving DecidableEq

/-- `neighbor_t`, as far as the routing needs it. -/
structure Neighbor where
  nodeId : UInt8
  cost : UInt8
  sockFd : Int
  deriving DecidableEq

structure LsLink where
  src : UInt8
  dest : UInt8
  cost : Int
  deriving DecidableEq

structure Router where
  id : UInt8
  seqNum : UInt32
  destinations : List RoutingEntry
  routingTable : Fin 255 → UInt8
  neighborsTable : List Neighbor

/-- A value stored in an `int16_t`. -/
def int16 (x : Int) : Int := x.bmod (2 ^ 16)

/-- A value stored in a `uint16_t`. -/
def uint16 (x : Int) : Int := x % 2 ^ 16

/-- `packet_has_update`. The loop returns in its first pass, so only the first entries are compared. -/
def packetHasUpdate (orig incoming : LsPacket) : Bool :=
  if orig.seqNum < incoming.seqNum then
    if incoming.entries.length = orig.entries.length then
      match incoming.entries, orig.entries with
      | entry :: _, entry' :: _ => ¬ (entry.destId = entry'.destId ∧ entry.cost = entry'.cost)
      | _, _ => true
    else true
  else false

/-- `set_shortest`. A cost of -1 says that there is no link yet. -/
def setShortest (shortest : LsLink) (src dest : UInt8) (totalCost : Int) : LsLink :=
  if shortest.cost = -1 then ⟨src, dest, int16 totalCost⟩
  else if totalCost < shortest.cost ∨ (totalCost = shortest.cost ∧ src < shortest.src) ∨
      (totalCost = shortest.cost ∧ src = shortest.src ∧ dest < shortest.dest) then
    ⟨src, dest, int16 totalCost⟩
  else shortest

namespace Router

/-- A router as `parse_router` leaves it, with the rows that the file has for it. -/
def parsed (id : UInt8) (rows : List Neighbor) : Router where
  id := id
  seqNum := 0
  destinations := []
  routingTable _ := 0xff
  neighborsTable := rows

/-! ### The table of destinations -/

/-- `Router_GetRoutingEntryForNode`: `NULL` or the entry's index. -/
def getRoutingEntryForNode (router : Router) (routingNode : UInt8) : Option (Option Nat) :=
  if h : routingNode.toNat < 255 then
    let dest := (router.routingTable ⟨routingNode.toNat, h⟩).toNat
    some (if router.destinations.length < dest then none else some dest)
  else none

/-- What an unchecked use of the returned pointer reads. -/
def routingEntry (router : Router) (node : UInt8) : Option RoutingEntry :=
  (router.getRoutingEntryForNode node).join.bind fun dest => router.destinations[dest]?

/-- The loop of `rebuild_routing_table`, from the `i`-th entry on. -/
def fillTable : List RoutingEntry → Nat → (Fin 255 → UInt8) → Option (Fin 255 → UInt8)
  | [], _, table => some table
  | entry :: entries, i, table =>
      if h : entry.destId.toNat < 255 then
        fillTable entries (i + 1) (Function.update table ⟨entry.destId.toNat, h⟩ (UInt8.ofNat i))
      else none

def rebuildRoutingTable (router : Router) : Option Router :=
  (fillTable router.destinations 0 fun _ => 0xff).map fun table => { router with routingTable := table }

/-- Take the next element of `_m_destinations` and rebuild the index. -/
def appendEntry (router : Router) (entry : RoutingEntry) : Option Router :=
  if router.destinations.length < maxNumRouters then
    rebuildRoutingTable { router with destinations := router.destinations ++ [entry] }
  else none

def setEntry (router : Router) (dest : Nat) (entry : RoutingEntry) : Router :=
  { router with destinations := router.destinations.set dest entry }

/-- The first part of `update_routing_table`: store the packet, or discard it. -/
def store (router : Router) (packet : LsPacket) : Option (Bool × Router) :=
  if packet.origin = router.id then some (false, router)
  else
    match router.getRoutingEntryForNode packet.origin with
    | none => none
    | some (some dest) =>
        router.destinations[dest]?.map fun entry =>
          let orig := entry.packet.getD .zeroed
          if packetHasUpdate orig packet then
            (true, router.setEntry dest { entry with packet := some packet })
          else (false, router.setEntry dest { entry with packet := some orig })
    | some none =>
        (router.appendEntry ⟨packet.origin, 0, -1, some packet⟩).map fun router => (true, router)

/-! ### The shortest paths -/

def getNeighborIdx (router : Router) (nodeid : UInt8) : Option UInt8 :=
  (router.neighborsTable.findIdx? fun row => row.nodeId = nodeid).map UInt8.ofNat

def getGatewayIdx (router : Router) (dest : LsLink) : Option UInt8 :=
  if dest.src = router.id then router.getNeighborIdx dest.dest
  else (router.routingEntry dest.src).map RoutingEntry.gatewayIdx

def setShortestNeighbor (router : Router) (shortest : LsLink) (row : Neighbor) : LsLink :=
  setShortest shortest router.id row.nodeId row.cost.toNat

def setShortestDistant (router : Router) (shortest : LsLink) (src : UInt8) (link : LsEntry) :
    Option LsLink :=
  let nodeCost : Int := link.cost.toNat
  if nodeCost = -1 then some shortest
  else
    (router.routingEntry src).map fun entry =>
      setShortest shortest src link.destId (uint16 (int16 (nodeCost + entry.cost)))

/-- One pass over the current set: the links of one of its nodes to nodes outside. -/
def scanNode (router : Router) (current : List UInt8) (shortest : LsLink) (node : UInt8) :
    Option LsLink :=
  if node = router.id then
    some (router.neighborsTable.foldl (fun shortest row =>
      if row.nodeId ∈ current then shortest else router.setShortestNeighbor shortest row) shortest)
  else
    match router.getRoutingEntryForNode node with
    | none => none
    | some none => some shortest
    | some (some dest) =>
        router.destinations[dest]?.bind fun entry =>
          match entry.packet with
          | none => some shortest
          | some packet =>
              packet.entries.foldlM (fun shortest link =>
                if link.destId ∈ current then some shortest
                else router.setShortestDistant shortest node link) shortest

/-- The link with the lowest cost out of the current set. -/
def scan (router : Router) (current : List UInt8) : Option LsLink :=
  current.foldlM (router.scanNode current) ⟨0, 0, -1⟩

/-- The entry that a link leads to, added to the destinations when there is none. -/
def findOrAppend (router : Router) (dest : UInt8) : Option (Nat × Router) :=
  match router.getRoutingEntryForNode dest with
  | none => none
  | some (some i) => some (i, router)
  | some none =>
      (router.appendEntry ⟨dest, 0, 0, none⟩).map fun router' => (router.destinations.length, router')

/-- What the loop does with the link it has found. -/
def settle (router : Router) (shortest : LsLink) : Option Router :=
  (router.findOrAppend shortest.dest).bind fun (i, router) =>
    (router.getGatewayIdx shortest).bind fun gatewayIdx =>
      router.destinations[i]?.map fun entry =>
        router.setEntry i { entry with gatewayIdx := gatewayIdx, cost := shortest.cost }

/-- The loop that adds nodes to the current set, with the room left in `current.id`. -/
def compute : Nat → Router → List UInt8 → Option Router
  | room, router, current =>
      if current.length ≤ router.destinations.length then
        (router.scan current).bind fun shortest =>
          if shortest.cost = -1 then some router
          else
            match room with
            | 0 => none
            | room + 1 =>
                (router.settle shortest).bind fun router =>
                  compute room router (current ++ [shortest.dest])
      else some router

def updateRoutingTable (router : Router) (packet : LsPacket) : Option (Bool × Router) :=
  (router.store packet).bind fun (stored, router) =>
    if stored then
      (compute (maxNumRouters - 1) router [router.id]).map fun router => (true, router)
    else some (false, router)

/-! ### Packets out -/

/-- The packet of `create_packet`, and the router after it. -/
def createPacket (router : Router) (shouldClose : UInt8) : LsPacket × Router :=
  let router := { router with seqNum := router.seqNum + 1 }
  (⟨router.id, shouldClose, router.seqNum,
    router.neighborsTable.map fun row => ⟨row.nodeId, row.cost⟩⟩, router)

end Router

end NetworkSystems.LinkState
