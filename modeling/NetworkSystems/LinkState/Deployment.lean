import NetworkSystems.LinkState.RouterFile
import NetworkSystems.LinkState.Connecting
import NetworkSystems.LinkState.RouterMain

/-!
# From the file to the tables

All routers read the same initialization file, connect, and run their main loops. When the file lists every
link from both of its ends, the tables that they end up with are those of the graph in the file.
-/

namespace NetworkSystems.LinkState

/-- A file that lists every link from both of its ends, with the ports crossed, and that has no more routers
and rows than there is room for. The ids are characters, which are signed. -/
structure Mirrored (file : List FileRow) : Prop where
  ascii : ∀ row ∈ file, row.tmpId < 0x80
  ports : (file.map FileRow.outgoingTcpPort).Nodup
  other : ∀ row ∈ file, row.destTcpPort ≠ row.outgoingTcpPort
  mirror : ∀ row ∈ file, ∃ row' ∈ file, row'.tmpId = row.nodeId ∧ row'.nodeId = row.tmpId ∧
    row'.outgoingTcpPort = row.destTcpPort ∧ row'.destTcpPort = row.outgoingTcpPort ∧
    row'.tempEntry.cost = row.tempEntry.cost
  routers : (file.map FileRow.tmpId).toFinset.card ≤ maxNumRouters
  rows : ∀ v, (rowsFor v file).length ≤ maxNumRouters

/-- The row that owns the port at the other end. -/
def mirrorRow (file : List FileRow) (row : FileRow) : FileRow :=
  (file.find? fun row' => row'.outgoingTcpPort = row.destTcpPort).getD row

def fileTables (file : List FileRow) (v : UInt8) : List LsEntry :=
  (rowsFor v file).map fun row => ⟨row.nodeId, row.cost⟩

section Mirrored

variable {file : List FileRow} {row row' : FileRow} {v x : UInt8}

theorem Mirrored.eq_of_port (h : Mirrored file) (hrow : row ∈ file) (hrow' : row' ∈ file)
    (hport : row.outgoingTcpPort = row'.outgoingTcpPort) : row = row' :=
  List.inj_on_of_nodup_map h.ports hrow hrow' hport

theorem Mirrored.mirrorRow_eq (h : Mirrored file) (hrow' : row' ∈ file)
    (hport : row'.outgoingTcpPort = row.destTcpPort) : mirrorRow file row = row' := by
  rw [mirrorRow]
  cases hfind : file.find? fun row' => row'.outgoingTcpPort = row.destTcpPort with
  | none => exact absurd hport (by simpa using List.find?_eq_none.1 hfind row' hrow')
  | some found =>
      have hfound := List.find?_some hfind
      exact h.eq_of_port (List.mem_of_find?_eq_some hfind) hrow' ((of_decide_eq_true hfound).trans hport.symm)

theorem Mirrored.mirrorRow_spec (h : Mirrored file) (hrow : row ∈ file) :
    mirrorRow file row ∈ file ∧ (mirrorRow file row).tmpId = row.nodeId ∧
      (mirrorRow file row).nodeId = row.tmpId ∧ (mirrorRow file row).outgoingTcpPort = row.destTcpPort ∧
      (mirrorRow file row).destTcpPort = row.outgoingTcpPort ∧
      (mirrorRow file row).tempEntry.cost = row.tempEntry.cost := by
  obtain ⟨row', hrow', hid, hnode, hport, hdest, hcost⟩ := h.mirror row hrow
  rw [h.mirrorRow_eq hrow' hport]
  exact ⟨hrow', hid, hnode, hport, hdest, hcost⟩

theorem Mirrored.mirrorRow_mirrorRow (h : Mirrored file) (hrow : row ∈ file) :
    mirrorRow file (mirrorRow file row) = row :=
  h.mirrorRow_eq hrow (h.mirrorRow_spec hrow).2.2.2.2.1.symm

/-- For characters below 128 the comparison of `parse_router` is that of the bytes. -/
theorem Mirrored.isFor_iff (h : Mirrored file) (hrow : row ∈ file) : row.isFor v = true ↔ row.tmpId = v := by
  have hlt : row.tmpId.toNat < 128 := UInt8.lt_iff_toNat_lt.1 (h.ascii row hrow)
  have hsigned : row.tmpId.toInt8.toInt = row.tmpId.toNat := by
    change row.tmpId.toBitVec.toInt = row.tmpId.toBitVec.toNat
    exact BitVec.toInt_eq_toNat_of_lt (by change 2 * row.tmpId.toNat < _; omega)
  rw [FileRow.isFor, decide_eq_true_eq, hsigned, Int.natCast_inj, UInt8.toNat_inj]

theorem Mirrored.mem_rows (h : Mirrored file) :
    row ∈ file.filter (fun row => row.isFor v) ↔ row ∈ file ∧ row.tmpId = v := by
  rw [List.mem_filter]
  exact and_congr_right fun hrow => h.isFor_iff hrow

/-- The network of a file, with the sockets that the routers have got. -/
def Mirrored.topology (h : Mirrored file) (sockFd : FileRow → Int) : Topology where
  ids := ⟨(file.map FileRow.tmpId).toFinset, h.routers, by
    intro id hid
    obtain ⟨row, hrow, rfl⟩ := List.mem_map.1 (List.mem_toFinset.1 hid)
    have := UInt8.lt_iff_toNat_lt.1 (h.ascii row hrow)
    exact this.trans (by decide)⟩
  rows v := (file.filter fun row => row.isFor v).map fun row => ⟨row.nodeId, row.tempEntry.cost, sockFd row⟩
  peer v fd := ((file.find? fun row => row.isFor v ∧ sockFd row = fd).map fun row =>
    (row.nodeId, sockFd (mirrorRow file row))).getD (v, fd)
  rows_le v _ := by
    rw [List.length_map]
    exact (List.length_map ..).symm.trans_le (h.rows v)
  rows_mem v _ row hrow := by
    obtain ⟨_, hfile, rfl⟩ := List.mem_map.1 hrow
    obtain ⟨hmem, hid, -⟩ := h.mirrorRow_spec (List.mem_filter.1 hfile).1
    exact List.mem_toFinset.2 (List.mem_map.2 ⟨_, hmem, hid⟩)
  peer_mem v hv row hrow := by
    cases hfind : file.find? fun row' => row'.isFor v ∧ sockFd row' = row.sockFd with
    | none => exact hv
    | some found =>
        obtain ⟨hmem, hid, -⟩ := h.mirrorRow_spec (List.mem_of_find?_eq_some hfind)
        exact List.mem_toFinset.2 (List.mem_map.2 ⟨_, hmem, hid⟩)

variable {sockFd : FileRow → Int}

theorem Mirrored.mem_ids (h : Mirrored file) : v ∈ (h.topology sockFd).ids ↔ ∃ row ∈ file, row.tmpId = v :=
  List.mem_toFinset.trans List.mem_map

theorem Mirrored.tables_eq (h : Mirrored file) : (h.topology sockFd).tables = fileTables file := by
  funext v
  rw [Topology.tables, fileTables, rowsFor, List.map_map]
  split
  case isTrue => exact List.map_map ..
  case isFalse hv =>
    have hnone : file.filter (fun row => row.isFor v) = [] := by
      refine List.filter_eq_nil_iff.2 fun row hrow hfor => hv (h.mem_ids.2 ⟨row, hrow, ?_⟩)
      exact (h.isFor_iff hrow).1 hfor
    rw [hnone, List.map_nil]

/-- The descriptors of a process are distinct. -/
def Descriptors (file : List FileRow) (sockFd : FileRow → Int) : Prop :=
  ∀ row ∈ file, ∀ row' ∈ file, row.tmpId = row'.tmpId → sockFd row = sockFd row' → row = row'

theorem Mirrored.peer_eq (h : Mirrored file) (hfds : Descriptors file sockFd) (hrow : row ∈ file) :
    (h.topology sockFd).peer row.tmpId (sockFd row) = (row.nodeId, sockFd (mirrorRow file row)) := by
  have hfind : (file.find? fun row' => row'.isFor row.tmpId ∧ sockFd row' = sockFd row) = some row := by
    cases hfind : file.find? fun row' => row'.isFor row.tmpId ∧ sockFd row' = sockFd row with
    | none =>
        have hnot := List.find?_eq_none.1 hfind row hrow
        exact absurd (decide_eq_true ⟨(h.isFor_iff hrow).2 rfl, rfl⟩) hnot
    | some found =>
        have hmem := List.mem_of_find?_eq_some hfind
        have hfound := List.find?_some hfind
        obtain ⟨hid, hfd⟩ := of_decide_eq_true hfound
        rw [hfds found hmem row hrow ((h.isFor_iff hmem).1 hid) hfd]
  change ((file.find? _).map _).getD _ = _
  rw [hfind]
  rfl

/-- The network of a file that lists every link from both ends has the links that flooding needs. -/
theorem Mirrored.linked (h : Mirrored file) (hfds : Descriptors file sockFd)
    (hconnected : (h.topology sockFd).Connected) : (h.topology sockFd).Linked where
  sockets v _ := by
    change (((file.filter fun row => row.isFor v).map fun row =>
      (⟨row.nodeId, row.tempEntry.cost, sockFd row⟩ : Neighbor)).map Neighbor.sockFd).Nodup
    rw [List.map_map]
    refine List.Nodup.map_on ?_ ((List.Nodup.of_map _ h.ports).filter _)
    intro row hrow row' hrow' heq
    obtain ⟨hmem, hid⟩ := h.mem_rows.1 hrow
    obtain ⟨hmem', hid'⟩ := h.mem_rows.1 hrow'
    exact hfds row hmem row' hmem' (hid.trans hid'.symm) heq
  link v _ row hrow := by
    obtain ⟨row, hfile, rfl⟩ := List.mem_map.1 hrow
    obtain ⟨hmem, rfl⟩ := h.mem_rows.1 hfile
    obtain ⟨hmirror, hid, hnode, -, -, hcost⟩ := h.mirrorRow_spec hmem
    rw [h.peer_eq hfds hmem]
    refine ⟨rfl, ⟨_, _, _⟩, List.mem_map.2 ⟨mirrorRow file row, h.mem_rows.2 ⟨hmirror, hid⟩, rfl⟩, hnode,
      hcost, rfl⟩
  connected := hconnected

/-! ### The threads of a file -/

/-- The ports of the threads: one thread for each row. -/
def filePorts (file : List FileRow) : Ports { row // row ∈ file } where
  outgoing row := row.1.outgoingTcpPort
  dest row := row.1.destTcpPort

def Mirrored.mirrorThread (h : Mirrored file) (row : { row // row ∈ file }) : { row // row ∈ file } :=
  ⟨mirrorRow file row.1, (h.mirrorRow_spec row.2).1⟩

theorem Mirrored.crossed (h : Mirrored file) : Crossed (filePorts file) h.mirrorThread where
  injective row row' hport := Subtype.ext (h.eq_of_port row.2 row'.2 hport)
  dest row := (h.mirrorRow_spec row.2).2.2.2.1.symm
  mirror_mirror row := Subtype.ext (h.mirrorRow_mirrorRow row.2)
  mirror_ne row heq := by
    have hport := (h.mirrorRow_spec row.2).2.2.2.1
    rw [show mirrorRow file row.1 = row.1 from congrArg Subtype.val heq] at hport
    exact h.other row.1 row.2 hport.symm

end Mirrored

/-- The file with the lines `<A,9801,B,9802,7>` and `<B,9802,A,9801,7>`. -/
def twoRouters : List FileRow := [⟨65, 9801, 66, 9802, 7⟩, ⟨66, 9802, 65, 9801, 7⟩]

theorem twoRouters_mirrored : Mirrored twoRouters where
  ascii := by decide
  ports := by decide
  other := by decide
  mirror := by decide
  routers := by decide
  rows v := by
    have hle := List.length_filter_le (fun row => FileRow.isFor row v) twoRouters
    rw [rowsFor, List.length_map]
    exact hle.trans (by decide)

theorem twoRouters_connected : ∀ u ∈ twoRouters.map FileRow.tmpId, ∀ v ∈ twoRouters.map FileRow.tmpId,
    ∃ c, Walk (graph (fileTables twoRouters)) u v c := by
  have hAB : graph (fileTables twoRouters) 65 66 7 := ⟨⟨66, 7⟩, by decide, rfl, rfl⟩
  have hBA : graph (fileTables twoRouters) 66 65 7 := ⟨⟨65, 7⟩, by decide, rfl, rfl⟩
  intro u hu v hv
  simp only [twoRouters, List.map_cons, List.map_nil, List.mem_cons, List.not_mem_nil, or_false] at hu hv
  rcases hu with rfl | rfl
  · rcases hv with rfl | rfl
    · exact ⟨0, .nil _⟩
    · exact ⟨_, (Walk.nil _).snoc hAB⟩
  · rcases hv with rfl | rfl
    · exact ⟨_, (Walk.nil _).snoc hBA⟩
    · exact ⟨0, .nil _⟩

/-- The thread of the router A, and that of the router B. -/
def threadA : { row // row ∈ twoRouters } := ⟨⟨65, 9801, 66, 9802, 7⟩, by decide⟩

def threadB : { row // row ∈ twoRouters } := ⟨⟨66, 9802, 65, 9801, 7⟩, by decide⟩

end NetworkSystems.LinkState
