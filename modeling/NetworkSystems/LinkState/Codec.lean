import NetworkSystems.LinkState.Framing

/-!
# Packets on hosts of either byte order

`serialize` converts the sequence number with `htonl` and then lays the result out by shifts, the lowest
byte first. On a little-endian host the two together are network byte order. On a big-endian host they
are not, and `deserialize` undoes what `serialize` did all the same.
-/

namespace NetworkSystems.LinkState

/-- The four bytes that `serialize` takes out of a word. -/
def shiftsOut (tmp : UInt32) : List UInt8 :=
  [(tmp &&& 0xff).toUInt8, ((tmp >>> 8) &&& 0xff).toUInt8, ((tmp >>> 16) &&& 0xff).toUInt8,
    ((tmp >>> 24) &&& 0xff).toUInt8]

/-- The word that `deserialize` puts together. -/
def shiftsIn (b₀ b₁ b₂ b₃ : UInt8) : UInt32 :=
  b₀.toUInt32 ||| b₁.toUInt32 <<< 8 ||| b₂.toUInt32 <<< 16 ||| b₃.toUInt32 <<< 24

/-- `serialize`: the bytes that it writes and the length that it returns. -/
def serializeOn (host : ByteOrder) (packet : LsPacket) : List UInt8 × UInt8 :=
  (packet.shouldClose :: UInt8.ofNat packet.entries.length :: packet.origin ::
      (shiftsOut (host.htonl packet.seqNum) ++
        packet.entries.flatMap fun entry => [entry.destId, entry.cost]),
    UInt8.ofNat (lsPacketOverhead + 2 * packet.entries.length))

def deserializeOn (host : ByteOrder) : List UInt8 → Option LsPacket
  | shouldClose :: numEntries :: origin :: b₀ :: b₁ :: b₂ :: b₃ :: inbuf =>
      if numEntries.toNat ≤ maxNumRouters then
        (deserializeEntries numEntries.toNat inbuf).map fun entries =>
          ⟨origin, shouldClose, host.ntohl (shiftsIn b₀ b₁ b₂ b₃), entries⟩
      else none
  | _ => none

/-! ### The two conversions -/

theorem shiftsOut_eq (tmp : UInt32) : shiftsOut tmp = ByteOrder.little.store tmp := by
  have hfirst : (tmp &&& 0xff).toUInt8 = UInt8.ofNat tmp.toNat := by
    rw [← UInt8.toNat_inj, UInt32.toNat_toUInt8, UInt32.toNat_and, UInt8.toNat_ofNat']
    change (tmp.toNat &&& 2 ^ 8 - 1) % 2 ^ 8 = _
    rw [Nat.and_two_pow_sub_one_eq_mod, Nat.mod_mod]
  rw [shiftsOut, hfirst, toUInt8_shiftRight (by decide), toUInt8_shiftRight (by decide),
    toUInt8_shiftRight (by decide)]
  change [_, UInt8.ofNat (tmp.toNat / 256), UInt8.ofNat (tmp.toNat / 65536),
    UInt8.ofNat (tmp.toNat / 16777216)] = [_, _, UInt8.ofNat (tmp.toNat / 256 / 256),
      UInt8.ofNat (tmp.toNat / 256 / 256 / 256)]
  rw [Nat.div_div_eq_div_mul, Nat.div_div_eq_div_mul]

theorem shiftsIn_eq (b₀ b₁ b₂ b₃ : UInt8) :
    shiftsIn b₀ b₁ b₂ b₃ = ByteOrder.little.load [b₀, b₁, b₂, b₃] := by
  have hword : b₀.toUInt32.toNat < 2 ^ 8 := b₀.toNat_lt
  obtain ⟨hone, hlt⟩ := toNat_or_shiftLeft (k := 8) b₁ (by decide) hword
  obtain ⟨htwo, hlt⟩ := toNat_or_shiftLeft (k := 16) b₂ (by decide) hlt
  obtain ⟨hthree, hlt⟩ := toNat_or_shiftLeft (k := 24) b₃ (by decide) hlt
  rw [htwo, hone] at hthree
  rw [← UInt32.toNat_inj]
  apply hthree.trans
  change _ = (UInt32.ofNat (256 * (256 * (256 * (256 * 0 + b₃.toNat) + b₂.toNat) + b₁.toNat) +
    b₀.toNat)).toNat
  have := b₀.toNat_lt
  have := b₁.toNat_lt
  have := b₂.toNat_lt
  have := b₃.toNat_lt
  rw [UInt32.toNat_ofNat_of_lt' (by simp only [UInt32.size]; omega)]
  change b₀.toNat + 256 * b₁.toNat + 65536 * b₂.toNat + 16777216 * b₃.toNat = _
  omega

section Hosts

variable {host : ByteOrder} {packet : LsPacket} {inbuf : List UInt8}

/-- The host of either order writes the packet with some other number in network byte order. -/
theorem serializeOn_eq (host : ByteOrder) (packet : LsPacket) :
    (serializeOn host packet).1 =
      serialize { packet with seqNum := ByteOrder.little.ntohl (host.htonl packet.seqNum) } := by
  rw [serializeOn, serialize, shiftsOut_eq, ByteOrder.ntohl, htonl_ntohl (ByteOrder.length_store _ _)]

theorem deserializeOn_eq (host : ByteOrder) (inbuf : List UInt8) :
    deserializeOn host inbuf = (deserialize inbuf).map fun packet =>
      { packet with seqNum := host.ntohl (ByteOrder.little.htonl packet.seqNum) } := by
  match inbuf with
  | shouldClose :: numEntries :: origin :: b₀ :: b₁ :: b₂ :: b₃ :: inbuf =>
      have hword : ByteOrder.little.htonl (ntohl [b₀, b₁, b₂, b₃]) = shiftsIn b₀ b₁ b₂ b₃ := by
        rw [shiftsIn_eq, ByteOrder.htonl, htonl_ntohl rfl]
      rw [deserializeOn, deserialize]
      simp only [apply_ite (Option.map _), Option.map_map, Function.comp_def, Option.map_none, hword]
  | [] | [_] | [_, _] | [_, _, _] | [_, _, _, _] | [_, _, _, _, _] | [_, _, _, _, _, _] => rfl

theorem serializeOn_little (packet : LsPacket) : (serializeOn .little packet).1 = serialize packet := by
  rw [serializeOn_eq, ByteOrder.ntohl_htonl]

theorem deserializeOn_little (inbuf : List UInt8) : deserializeOn .little inbuf = deserialize inbuf := by
  rw [deserializeOn_eq]
  simp only [ByteOrder.ntohl_htonl]
  exact Option.map_id'

theorem toNat_serializeOn (hentries : packet.entries.length ≤ maxNumRouters) :
    (serializeOn host packet).2.toNat = lsPacketOverhead + 2 * packet.entries.length := by
  rw [← length_serialize]
  exact frame_length_byte hentries

theorem deserializeOn_serializeOn (hentries : packet.entries.length ≤ maxNumRouters) :
    deserializeOn host (serializeOn host packet).1 = some packet := by
  have hread : ∀ seqNum, deserialize (serialize { packet with seqNum := seqNum }) =
      some { packet with seqNum := seqNum } := by
    intro seqNum
    rw [← List.append_nil (serialize _)]
    exact deserialize_serialize (by exact hentries) []
  rw [deserializeOn_eq, serializeOn_eq, hread, Option.map_some]
  simp only [ByteOrder.htonl_ntohl, ByteOrder.ntohl_htonl]

theorem exists_deserializeEntries {n : Nat} (h : 2 * n ≤ inbuf.length) :
    ∃ entries, deserializeEntries n inbuf = some entries := by
  induction n generalizing inbuf with
  | zero => exact ⟨[], rfl⟩
  | succ n ih =>
      match inbuf, h with
      | destId :: cost :: inbuf, h =>
          rw [List.length_cons, List.length_cons] at h
          obtain ⟨entries, hentries⟩ := ih (by omega : 2 * n ≤ inbuf.length)
          exact ⟨_, by rw [deserializeEntries, hentries]; rfl⟩

theorem exists_serialize {numEntries : UInt8} (hcount : inbuf[1]? = some numEntries)
    (hbound : numEntries.toNat ≤ maxNumRouters)
    (hlength : inbuf.length = lsPacketOverhead + 2 * numEntries.toNat) :
    ∃ packet, deserialize inbuf = some packet ∧ inbuf = serialize packet ∧
      packet.entries.length = numEntries.toNat := by
  simp only [lsPacketOverhead] at hlength
  have hheader : 7 ≤ inbuf.length := hlength ▸ Nat.le_add_right 7 _
  match inbuf, hcount, hlength, hheader with
  | shouldClose :: count :: origin :: b₀ :: b₁ :: b₂ :: b₃ :: inbuf, hcount, hlength, _ =>
      obtain rfl : count = numEntries := by simpa using hcount
      simp only [List.length_cons] at hlength
      obtain ⟨entries, hentries⟩ := exists_deserializeEntries (by omega : 2 * count.toNat ≤ inbuf.length)
      have hread : deserialize (shouldClose :: count :: origin :: b₀ :: b₁ :: b₂ :: b₃ :: inbuf) =
          some ⟨origin, shouldClose, ntohl [b₀, b₁, b₂, b₃], entries⟩ := by
        rw [deserialize, if_pos hbound, hentries]
        rfl
      have hcounted := (append_of_deserializeEntries hentries).1
      obtain ⟨-, rest, hrest⟩ := serialize_of_deserialize hread
      refine ⟨_, hread, ?_, hcounted⟩
      have hrestLength := congrArg List.length hrest
      rw [List.length_append, length_serialize] at hrestLength
      simp only [List.length_cons, lsPacketOverhead, hcounted] at hrestLength
      rw [hrest, List.eq_nil_of_length_eq_zero (by omega : rest.length = 0), List.append_nil]

theorem exists_serializeOn (host : ByteOrder) {numEntries : UInt8} (hcount : inbuf[1]? = some numEntries)
    (hbound : numEntries.toNat ≤ maxNumRouters)
    (hlength : inbuf.length = lsPacketOverhead + 2 * numEntries.toNat) :
    ∃ packet, deserializeOn host inbuf = some packet ∧ (serializeOn host packet).1 = inbuf ∧
      packet.entries.length = numEntries.toNat := by
  obtain ⟨packet, hread, hwrite, hcounted⟩ := exists_serialize hcount hbound hlength
  refine ⟨{ packet with seqNum := host.ntohl (ByteOrder.little.htonl packet.seqNum) }, ?_, ?_, hcounted⟩
  · rw [deserializeOn_eq, hread, Option.map_some]
  · rw [serializeOn_eq, hwrite]
    simp only [ByteOrder.htonl_ntohl, ByteOrder.ntohl_htonl]

end Hosts

/-- **The packet codec round trip**: on either kind of host the bytes of a packet are read back as the
packet, and bytes of the right length are written again as they were. -/
theorem serializeOn_roundTrip (host : ByteOrder) :
    (∀ packet : LsPacket, packet.entries.length ≤ maxNumRouters →
      (serializeOn host packet).1.length = (serializeOn host packet).2.toNat ∧
        (serializeOn host packet).2.toNat = lsPacketOverhead + 2 * packet.entries.length ∧
        deserializeOn host (serializeOn host packet).1 = some packet) ∧
    ∀ (inbuf : List UInt8) (numEntries : UInt8), inbuf[1]? = some numEntries →
      numEntries.toNat ≤ maxNumRouters → inbuf.length = lsPacketOverhead + 2 * numEntries.toNat →
      ∃ packet, deserializeOn host inbuf = some packet ∧ (serializeOn host packet).1 = inbuf ∧
        (serializeOn host packet).2.toNat = inbuf.length := by
  constructor
  · intro packet hentries
    have hlength : (serializeOn host packet).2.toNat = _ := toNat_serializeOn hentries
    refine ⟨?_, hlength, deserializeOn_serializeOn hentries⟩
    rw [hlength, serializeOn_eq, length_serialize]
  · intro inbuf numEntries hcount hbound hlength
    obtain ⟨packet, hread, hwrite, hcounted⟩ := exists_serializeOn host hcount hbound hlength
    refine ⟨packet, hread, hwrite, ?_⟩
    rw [toNat_serializeOn (hcounted.trans_le hbound), hlength, hcounted]

/-- A packet with one entry crosses between two processes of a big-endian host. -/
theorem serializeOn_roundTrip_big :
    deserializeOn .big (serializeOn .big ⟨65, 0, 258, [⟨66, 7⟩]⟩).1 = some ⟨65, 0, 258, [⟨66, 7⟩]⟩ ∧
      ∃ packet, deserializeOn .big [0, 1, 65, 1, 2, 3, 4, 66, 7] = some packet ∧
        (serializeOn .big packet).1 = [0, 1, 65, 1, 2, 3, 4, 66, 7] := by
  obtain ⟨hpackets, hbytes⟩ := serializeOn_roundTrip .big
  obtain ⟨packet, hread, hwrite, -⟩ :=
    hbytes [0, 1, 65, 1, 2, 3, 4, 66, 7] 1 (by decide) (by decide) (by decide)
  exact ⟨(hpackets ⟨65, 0, 258, [⟨66, 7⟩]⟩ (by decide)).2.2, packet, hread, hwrite⟩

end NetworkSystems.LinkState
