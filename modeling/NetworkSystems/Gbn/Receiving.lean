import NetworkSystems.Gbn.Codec

/-!
# Datagrams as they are received

The read thread hands `gbn_socket_deserialize` the buffer that `recvfrom` filled and the number of bytes
in it. What lies behind them is left from earlier datagrams and, from the end of the buffer on, not the
buffer's at all. `gbn_socket_serialize` asserts that the payload fits its buffer, and the function in the
other direction does not: it stays inside the datagram only if the datagram is as long as it says.
-/

namespace NetworkSystems.Gbn

/-- The memory at the receive buffer after `recvfrom`, which overwrites the first bytes only. -/
def received (datagram : Bytes) (stale : Memory) : Memory := fun i => datagram.getD i (stale i)

def deserialized (host : ByteOrder) (datagram : Bytes) (stale : Memory) :
    Option (Datagram × UInt32 × List Nat) :=
  gbnSocketDeserialize host (received datagram stale) (UInt32.ofNat datagram.length)

namespace GbnSocket

/-- A pass of the loop of `gbn_socket_read_thread_main`, on the bytes that `recvfrom` returns. -/
def readBytes (sock : GbnSocket) (host : ByteOrder) (datagram : Bytes) (stale : Memory) :
    Option (GbnSocket × List Datagram) :=
  (deserialized host datagram stale).map fun result => sock.readThread result.1

def TakesOver (sock : GbnSocket) (packet : Datagram) : Prop :=
  ¬ (sock.readStatus = .closed ∧ sock.receiveWindow.size = 0) ∧ packet.type = .data ∧
    sock.receiveWindow.InReceiveRange packet.seqNumber

end GbnSocket

/-- The datagram is as long as its header, and as its header says. -/
def Fits (datagram : Bytes) : Prop :=
  serializeOverhead ≤ datagram.length ∧
    serializeOverhead + (announced datagram).toNat ≤ datagram.length

instance (datagram : Bytes) : Decidable (Fits datagram) := inferInstanceAs (Decidable (_ ∧ _))

/-- Nothing but the bytes that were received is read or gets into a window. -/
structure Contained (host : ByteOrder) (sock : GbnSocket) (datagram : Bytes) (stale : Memory) : Prop where
  reads : ∀ result ∈ deserialized host datagram stale, ∀ offset ∈ result.2.2, offset < datagram.length
  taken : ∀ result ∈ deserialized host datagram stale, sock.TakesOver result.1 →
    serializeOverhead + result.1.size.toNat ≤ datagram.length ∧
      result.1.payload = (datagram.drop serializeOverhead).take result.1.size.toNat
  rejected : ¬ Fits datagram → ∀ next ∈ sock.readBytes host datagram stale,
    next.1.sendingWindow = sock.sendingWindow ∧ next.1.receiveWindow = sock.receiveWindow

section Receive

variable {host : ByteOrder} {sock : GbnSocket} {datagram : Bytes} {stale : Memory}

theorem holds_received (datagram : Bytes) (stale : Memory) : (received datagram stale).Holds datagram := by
  apply List.ext_getElem
  · exact Memory.length_read _ 0 datagram.length
  · intro i _ hi
    simp only [Memory.read, List.getElem_map, List.getElem_range', received, Nat.zero_add, Nat.one_mul,
      List.getD_eq_getElem?_getD, List.getElem?_eq_getElem hi, Option.getD_some]

theorem toNat_length (h : datagram.length ≤ defaultPacketSize + sizeofGbnPacket) :
    (UInt32.ofNat datagram.length).toNat = datagram.length := by
  simp only [defaultPacketSize, sizeofGbnPacket] at h
  exact UInt32.toNat_ofNat_of_lt' (by simp only [UInt32.size]; omega)

theorem exists_deserialized (host : ByteOrder) (stale : Memory)
    (h : datagram.length ≤ defaultPacketSize + sizeofGbnPacket) :
    ∃ packet len, deserialized host datagram stale =
      some (packet, len, List.range' 0 (serializeOverhead + packet.size.toNat)) := by
  rw [deserialized, gbnSocketDeserialize, toNat_length h, if_pos h]
  exact ⟨_, _, congrArg some (Prod.ext rfl (Prod.ext rfl (offsets_eq _)))⟩

theorem deserialized_header (h : datagram.length ≤ defaultPacketSize + sizeofGbnPacket)
    (hheader : serializeOverhead ≤ datagram.length) {packet : Datagram} {len : UInt32}
    {offsets : List Nat} (hresult : deserialized host datagram stale = some (packet, len, offsets)) :
    packet.size = announced datagram ∧
      packet.payload = (received datagram stale).read serializeOverhead packet.size.toNat := by
  obtain ⟨type, seqNumber, size, payload, rfl⟩ := exists_wire hheader
  rw [deserialized, gbnSocketDeserialize_wire host (by rwa [toNat_length h])
    (holds_received _ stale)] at hresult
  cases hresult
  exact ⟨(announced_wire ..).symm, rfl⟩

theorem read_received {count : Nat} (h : serializeOverhead + count ≤ datagram.length) :
    (received datagram stale).read serializeOverhead count =
      (datagram.drop serializeOverhead).take count := by
  apply Memory.Holds.read_eq (datagram.take serializeOverhead)
    ((datagram.drop serializeOverhead).drop count)
  · rw [List.append_assoc, List.take_append_drop, List.take_append_drop]
    exact holds_received datagram stale
  · rw [List.length_take]
    omega
  · rw [List.length_take, List.length_drop]
    omega

theorem Contained.fits (h : datagram.length ≤ defaultPacketSize + sizeofGbnPacket)
    (hcontained : Contained host sock datagram stale) : Fits datagram := by
  obtain ⟨packet, len, hresult⟩ := exists_deserialized host stale h
  have hsome : 0 < serializeOverhead := by decide
  have hlast : serializeOverhead + packet.size.toNat - 1 < datagram.length := by
    refine hcontained.reads _ hresult _ ?_
    rw [List.mem_range'_1]
    omega
  have hheader : serializeOverhead ≤ datagram.length := by omega
  have hsize := (deserialized_header h hheader hresult).1
  refine ⟨hheader, ?_⟩
  rw [← hsize]
  omega

theorem contained_of_fits (h : datagram.length ≤ defaultPacketSize + sizeofGbnPacket)
    (hfits : Fits datagram) : Contained host sock datagram stale := by
  obtain ⟨packet, len, hresult⟩ := exists_deserialized host stale h
  obtain ⟨hsize, hpayload⟩ := deserialized_header h hfits.1 hresult
  have hinside : serializeOverhead + packet.size.toNat ≤ datagram.length := by
    rw [hsize]
    exact hfits.2
  refine ⟨fun result hmem offset hoffset => ?_, fun result hmem _ => ?_, fun hno => absurd hfits hno⟩
  · obtain rfl := Option.some.inj (hresult.symm.trans hmem)
    rw [List.mem_range'_1] at hoffset
    omega
  · obtain rfl := Option.some.inj (hresult.symm.trans hmem)
    exact ⟨hinside, hpayload.trans (read_received hinside)⟩

theorem GbnSocket.readBytes_packet (sock : GbnSocket) (host : ByteOrder) (stale : Memory)
    {packet : Datagram} (hpayload : packet.payload.length = packet.size.toNat)
    (hsize : packet.size.toNat ≤ defaultPacketSize) :
    sock.readBytes host (wire packet.type.code packet.seqNumber packet.size packet.payload) stale =
      some (sock.readThread packet) := by
  rw [readBytes, deserialized, length_wire, hpayload, Nat.add_comm,
    gbnSocketDeserialize_packet host hpayload hsize (holds_received _ stale)]
  rfl

end Receive

/-- **Only what was received is delivered** exactly if the datagram is as long as its header and as the
size that the header announces. -/
theorem contained_iff_fits (host : ByteOrder) (sock : GbnSocket) (datagram : Bytes) (stale : Memory)
    (h : datagram.length ≤ defaultPacketSize + sizeofGbnPacket) :
    (deserialized host datagram stale).isSome ∧
      (Contained host sock datagram stale ↔ Fits datagram) := by
  constructor
  · obtain ⟨packet, len, hresult⟩ := exists_deserialized host stale h
    rw [hresult]
    rfl
  · exact ⟨fun hcontained => hcontained.fits h, contained_of_fits h⟩

/-- Two bytes of payload arrive as they were sent. -/
theorem contained_iff_fits_two :
    Contained .little initGbnSocket (wire 2 0 2 [8, 9]) (fun _ => 0) :=
  (contained_iff_fits .little initGbnSocket (wire 2 0 2 [8, 9]) (fun _ => 0) (by decide)).2.2 (by decide)

/-- A header announces one byte, and nothing follows it. -/
theorem not_contained : ¬ ∀ (host : ByteOrder) (sock : GbnSocket) (datagram : Bytes) (stale : Memory),
    datagram.length ≤ defaultPacketSize + sizeofGbnPacket → Contained host sock datagram stale := by
  intro hclaim
  have hfits := (hclaim .little initGbnSocket (wire 2 0 1 []) (fun _ => 0) (by decide)).fits (by decide)
  exact absurd hfits (by decide)

end NetworkSystems.Gbn
