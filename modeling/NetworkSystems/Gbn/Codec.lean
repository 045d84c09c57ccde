import NetworkSystems.Gbn.Socket
import NetworkSystems.Lib.Wire

/-!
# Datagrams as bytes

How packets become datagrams and what the read thread makes of a datagram. The header is three words in
network byte order, and the payload is copied behind it. `gbn_socket_deserialize` reads as many bytes as
the header announces: its assertion is about the length of the datagram, and not about what is announced.
-/

namespace NetworkSystems.Gbn

abbrev serializeOverhead : Nat := 12

abbrev serializeSize : Nat := defaultPacketSize + serializeOverhead

/-- `sizeof( gbn_packet_t )`: three words, padding and a pointer. -/
abbrev sizeofGbnPacket : Nat := 24

/-- The code of a packet type. -/
def PacketType.code : PacketType → UInt32
  | uninitialized => 0
  | ack => 1
  | data => 2
  | eof => 3
  | ackEof => 4
  | other code => code.val

/-- The packet type with a code. -/
def PacketType.ofCode (code : UInt32) : PacketType :=
  if code = 0 then uninitialized
  else if code = 1 then ack
  else if code = 2 then data
  else if code = 3 then eof
  else if h : 5 ≤ code.toNat then other ⟨code, h⟩
  else ackEof

/-- The memory from a pointer on. -/
abbrev Memory := Nat → UInt8

def Memory.read (buf : Memory) (offset count : Nat) : Bytes := (List.range' offset count).map buf

/-- `gbn_socket_serialize`: the bytes that it writes and the length that it returns, if its assertion
holds. -/
def gbnSocketSerialize (host : ByteOrder) (packet : Datagram) (bufLen : UInt32) :
    Option (Bytes × UInt32) :=
  if packet.size.toNat + serializeOverhead ≤ bufLen.toNat then
    some (host.store (host.htonl packet.type.code) ++ host.store (host.htonl packet.seqNumber) ++
      host.store (host.htonl packet.size) ++ packet.payload.take packet.size.toNat,
      UInt32.ofNat (packet.size.toNat + serializeOverhead))
  else none

/-- `gbn_socket_deserialize`: the packet, the length that it returns and the offsets that it reads, if its
assertion holds. -/
def gbnSocketDeserialize (host : ByteOrder) (buf : Memory) (bufLen : UInt32) :
    Option (Datagram × UInt32 × List Nat) :=
  if bufLen.toNat ≤ defaultPacketSize + sizeofGbnPacket then
    let type := host.ntohl (host.load (buf.read 0 4))
    let seqNumber := host.ntohl (host.load (buf.read 4 4))
    let size := host.ntohl (host.load (buf.read 8 4))
    some (⟨.ofCode type, seqNumber, size, buf.read serializeOverhead size.toNat⟩,
      UInt32.ofNat (size.toNat + serializeOverhead),
      List.range' 0 4 ++ List.range' 4 4 ++ List.range' 8 4 ++ List.range' serializeOverhead size.toNat)
  else none

def Memory.Holds (buf : Memory) (bytes : Bytes) : Prop := buf.read 0 bytes.length = bytes

instance (buf : Memory) (bytes : Bytes) : Decidable (buf.Holds bytes) :=
  inferInstanceAs (Decidable (_ = _))

/-! ### The format -/

@[simp] theorem PacketType.ofCode_code (type : PacketType) : ofCode type.code = type := by
  cases type with
  | other code =>
      obtain ⟨code, hcode⟩ := code
      have hne : ∀ small : UInt32, small.toNat < 5 → code ≠ small := by
        rintro small hsmall rfl
        exact absurd hcode (Nat.not_le_of_lt hsmall)
      change ofCode code = _
      rw [ofCode, if_neg (hne 0 (by decide)), if_neg (hne 1 (by decide)), if_neg (hne 2 (by decide)),
        if_neg (hne 3 (by decide)), dif_pos hcode]
  | _ => rfl

@[simp] theorem PacketType.code_ofCode (code : UInt32) : (ofCode code).code = code := by
  rw [ofCode]
  split
  case isTrue h => rw [h]; rfl
  split
  case isTrue h => rw [h]; rfl
  split
  case isTrue h => rw [h]; rfl
  split
  case isTrue h => rw [h]; rfl
  split
  case isTrue => rfl
  case isFalse h0 h1 h2 h3 h5 =>
    have hne : ∀ small : UInt32, code ≠ small → code.toNat ≠ small.toNat := fun small hsmall heq =>
      hsmall (UInt32.toNat_inj.1 heq)
    have h0 := hne 0 h0
    have h1 := hne 1 h1
    have h2 := hne 2 h2
    have h3 := hne 3 h3
    simp only [UInt32.reduceToNat] at h0 h1 h2 h3
    rw [← UInt32.toNat_inj]
    change 4 = code.toNat
    omega

section Format

variable {host peer : ByteOrder} {buf : Memory} {front back bytes : Bytes} {packet : Datagram}

@[simp] theorem Memory.length_read (buf : Memory) (offset count : Nat) :
    (buf.read offset count).length = count := by
  rw [Memory.read, List.length_map, List.length_range']

theorem Memory.Holds.read (h : buf.Holds (front ++ bytes ++ back)) :
    buf.read front.length bytes.length = bytes := by
  rw [Memory.Holds, Memory.read, List.length_append, List.length_append, ← List.range'_append,
    ← List.range'_append] at h
  simp only [List.map_append, Nat.zero_add, Nat.one_mul] at h
  have hfront := List.append_inj' h (by rw [List.length_map, List.length_range'])
  exact (List.append_inj' hfront.1 (by rw [List.length_map, List.length_range'])).2

theorem Memory.Holds.read_eq (front back : Bytes) {offset count : Nat}
    (h : buf.Holds (front ++ bytes ++ back)) (hoffset : front.length = offset)
    (hcount : bytes.length = count) : buf.read offset count = bytes := by
  rw [← hoffset, ← hcount]
  exact h.read

theorem offsets_eq (size : Nat) : List.range' 0 4 ++ List.range' 4 4 ++ List.range' 8 4 ++
    List.range' serializeOverhead size = List.range' 0 (serializeOverhead + size) := by
  rw [← List.range'_append (n := size)]
  rfl

/-- Three words and a payload of as many bytes as the third word says. -/
def wire (type seqNumber size : UInt32) (payload : Bytes) : Bytes :=
  htonl type ++ htonl seqNumber ++ htonl size ++ payload

theorem length_wire (type seqNumber size : UInt32) (payload : Bytes) :
    (wire type seqNumber size payload).length = serializeOverhead + payload.length := by
  simp only [wire, htonl, List.length_append, length_bigEndian]

def announced (bytes : Bytes) : UInt32 := ntohl ((bytes.drop 8).take 4)

theorem announced_wire (type seqNumber size : UInt32) (payload : Bytes) :
    announced (wire type seqNumber size payload) = size := by
  have hfront : (htonl type ++ htonl seqNumber).length = 8 := by
    simp only [htonl, List.length_append, length_bigEndian]
  have hsize : (htonl size).length = 4 := length_bigEndian 4 _
  rw [announced, wire, List.append_assoc, ← hfront, List.drop_left, ← hsize, List.take_left,
    ntohl_htonl]

/-- Bytes that are at least a header. -/
theorem exists_wire (h : serializeOverhead ≤ bytes.length) :
    ∃ type seqNumber size payload, bytes = wire type seqNumber size payload := by
  have hword : ∀ {word : Bytes}, word.length = 4 → htonl (ntohl word) = word := htonl_ntohl
  refine ⟨ntohl (bytes.take 4), ntohl ((bytes.drop 4).take 4), ntohl ((bytes.drop 8).take 4),
    bytes.drop 12, ?_⟩
  rw [wire, hword, hword, hword]
  · have hdrop : ∀ k, (bytes.drop k).take 4 ++ bytes.drop (k + 4) = bytes.drop k := by
      intro k
      rw [← List.drop_drop]
      exact List.take_append_drop _ _
    rw [List.append_assoc, List.append_assoc, hdrop 8, hdrop 4]
    exact (List.take_append_drop 4 bytes).symm
  all_goals
    change 12 ≤ bytes.length at h
    simp only [List.length_take, List.length_drop]
    omega

theorem gbnSocketSerialize_eq (host : ByteOrder) {bufLen : UInt32}
    (h : packet.size.toNat + serializeOverhead ≤ bufLen.toNat) :
    gbnSocketSerialize host packet bufLen =
      some (wire packet.type.code packet.seqNumber packet.size (packet.payload.take packet.size.toNat),
        UInt32.ofNat (packet.size.toNat + serializeOverhead)) := by
  rw [gbnSocketSerialize, if_pos h, ByteOrder.store_htonl, ByteOrder.store_htonl, ByteOrder.store_htonl]
  rfl

theorem gbnSocketDeserialize_wire (host : ByteOrder) {bufLen type seqNumber size : UInt32}
    {payload : Bytes} (hlen : bufLen.toNat ≤ defaultPacketSize + sizeofGbnPacket)
    (hholds : buf.Holds (wire type seqNumber size payload)) :
    gbnSocketDeserialize host buf bufLen =
      some (⟨.ofCode type, seqNumber, size, buf.read serializeOverhead size.toNat⟩,
        UInt32.ofNat (size.toNat + serializeOverhead),
        List.range' 0 (serializeOverhead + size.toNat)) := by
  have hfour : ∀ word, (htonl word).length = 4 := fun word => length_bigEndian 4 _
  have hword : ∀ word, host.ntohl (host.load (htonl word)) = word := fun word => by
    rw [ByteOrder.ntohl_load (hfour word), ntohl_htonl]
  have htype : buf.read 0 4 = htonl type := by
    apply Memory.Holds.read_eq [] (htonl seqNumber ++ htonl size ++ payload)
    · simpa only [wire, List.nil_append, List.append_assoc] using hholds
    · rfl
    · exact hfour type
  have hseq : buf.read 4 4 = htonl seqNumber := by
    apply Memory.Holds.read_eq (htonl type) (htonl size ++ payload)
    · simpa only [wire, List.append_assoc] using hholds
    · exact hfour type
    · exact hfour seqNumber
  have hsize : buf.read 8 4 = htonl size := by
    apply Memory.Holds.read_eq (htonl type ++ htonl seqNumber) payload
    · exact hholds
    · rw [List.length_append, hfour, hfour]
    · exact hfour size
  rw [gbnSocketDeserialize, if_pos hlen, htype, hseq, hsize]
  simp only [hword, offsets_eq]

theorem Memory.Holds.read_payload {type seqNumber size : UInt32} {payload : Bytes}
    (h : buf.Holds (wire type seqNumber size payload)) (hlength : payload.length = size.toNat) :
    buf.read serializeOverhead size.toNat = payload := by
  apply Memory.Holds.read_eq (htonl type ++ htonl seqNumber ++ htonl size) []
  · rwa [List.append_nil]
  · simp only [htonl, List.length_append, length_bigEndian]
  · exact hlength

theorem length_toNat {n : Nat} (hn : n ≤ defaultPacketSize) :
    (UInt32.ofNat (n + serializeOverhead)).toNat = serializeOverhead + n := by
  simp only [defaultPacketSize] at hn
  rw [Nat.add_comm]
  exact UInt32.toNat_ofNat_of_lt' (by simp only [serializeOverhead, UInt32.size]; omega)

theorem length_le_room {n : Nat} (hn : n ≤ defaultPacketSize) :
    (UInt32.ofNat (n + serializeOverhead)).toNat ≤ defaultPacketSize + sizeofGbnPacket := by
  rw [length_toNat hn]
  simp only [defaultPacketSize, sizeofGbnPacket, serializeOverhead] at hn ⊢
  omega

theorem gbnSocketDeserialize_packet (host : ByteOrder) (hpayload : packet.payload.length = packet.size.toNat)
    (hsize : packet.size.toNat ≤ defaultPacketSize)
    (hholds : buf.Holds (wire packet.type.code packet.seqNumber packet.size packet.payload)) :
    gbnSocketDeserialize host buf (UInt32.ofNat (packet.size.toNat + serializeOverhead)) =
      some (packet, UInt32.ofNat (packet.size.toNat + serializeOverhead),
        List.range' 0 (serializeOverhead + packet.size.toNat)) := by
  rw [gbnSocketDeserialize_wire host (length_le_room hsize) hholds, hholds.read_payload hpayload,
    PacketType.ofCode_code]

end Format

/-- **Packets survive the datagram** between hosts of any byte order, and datagrams survive the packet. -/
theorem serialize_roundTrip (host peer : ByteOrder) :
    (∀ (packet : Datagram) (bufLen : UInt32), packet.payload.length = packet.size.toNat →
      packet.size.toNat ≤ defaultPacketSize → packet.size.toNat + serializeOverhead ≤ bufLen.toNat →
      ∃ bytes len, gbnSocketSerialize host packet bufLen = some (bytes, len) ∧
        bytes.length = serializeOverhead + packet.size.toNat ∧
        len.toNat = serializeOverhead + packet.size.toNat ∧
        ∀ buf : Memory, buf.Holds bytes →
          ∃ offsets, gbnSocketDeserialize peer buf len = some (packet, len, offsets)) ∧
    ∀ (bytes : Bytes) (n : Nat) (buf : Memory), bytes.length = serializeOverhead + n →
      n ≤ defaultPacketSize → (announced bytes).toNat = n → buf.Holds bytes →
      ∃ packet len offsets, len.toNat = serializeOverhead + n ∧
        gbnSocketDeserialize peer buf len = some (packet, len, offsets) ∧
        ∀ bufLen : UInt32, bytes.length ≤ bufLen.toNat →
          gbnSocketSerialize host packet bufLen = some (bytes, len) := by
  constructor
  · intro packet bufLen hpayload hsize hfits
    have htake : packet.payload.take packet.size.toNat = packet.payload := by
      rw [← hpayload, List.take_length]
    refine ⟨_, _, gbnSocketSerialize_eq host hfits, ?_, length_toNat hsize, fun buf hholds => ?_⟩
    · rw [length_wire, htake, hpayload]
    · rw [htake] at hholds
      exact ⟨_, gbnSocketDeserialize_packet peer hpayload hsize hholds⟩
  · intro bytes n buf hlength hn hsize hholds
    obtain ⟨type, seqNumber, size, payload, rfl⟩ :=
      exists_wire (hlength ▸ Nat.le_add_right _ _)
    rw [announced_wire] at hsize
    rw [length_wire] at hlength
    have hpayload : payload.length = size.toNat := by omega
    have hread := gbnSocketDeserialize_wire peer (length_le_room hn) hholds
    rw [hholds.read_payload hpayload, hsize] at hread
    refine ⟨_, _, _, length_toNat hn, hread, fun bufLen hfits => ?_⟩
    rw [length_wire, hpayload, Nat.add_comm] at hfits
    rw [gbnSocketSerialize_eq host hfits, PacketType.code_ofCode, ← hpayload, List.take_length, hpayload,
      hsize]

/-- A packet with two bytes goes from a big-endian to a little-endian host, and its bytes come back. -/
theorem serialize_roundTrip_two :
    (∃ bytes len, gbnSocketSerialize .big ⟨.data, 7, 2, [8, 9]⟩ 4108 = some (bytes, len) ∧
      bytes.length = 14 ∧ len.toNat = 14) ∧
    ∃ packet len offsets, len.toNat = 14 ∧
      gbnSocketDeserialize .little (fun i => (wire 2 7 2 [8, 9]).getD i 0) len =
        some (packet, len, offsets) := by
  obtain ⟨hpacket, hbytes⟩ := serialize_roundTrip .big .little
  constructor
  · obtain ⟨bytes, len, hserialize, hlength, hlen, -⟩ :=
      hpacket ⟨.data, 7, 2, [8, 9]⟩ 4108 (by decide) (by decide) (by decide)
    exact ⟨bytes, len, hserialize, hlength, hlen⟩
  · obtain ⟨packet, len, offsets, hlen, hdeserialize, -⟩ :=
      hbytes (wire 2 7 2 [8, 9]) 2 (fun i => (wire 2 7 2 [8, 9]).getD i 0) (by decide) (by decide)
        (by decide) (by decide)
    exact ⟨packet, len, offsets, hlen, hdeserialize⟩

end NetworkSystems.Gbn
