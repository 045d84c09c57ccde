import NetworkSystems.LinkState.Table
import Mathlib.Data.Finset.Card

/-!
# Storing packets

What the first part of `update_routing_table` does to the table. With ids from a set of at most 32 there
is always room.
-/

namespace NetworkSystems.LinkState

/-- The ids of a network: at most 32, all of them below 255. -/
structure Ids where
  set : Finset UInt8
  card_le : set.card ≤ maxNumRouters
  lt : ∀ id ∈ set, id.toNat < 255

instance : Membership UInt8 Ids := ⟨fun ids id => id ∈ ids.set⟩

instance (ids : Ids) (id : UInt8) : Decidable (id ∈ ids) := inferInstanceAs (Decidable (id ∈ ids.set))

instance (ids : Ids) (P : UInt8 → Prop) [DecidablePred P] : Decidable (∀ id ∈ ids, P id) :=
  Finset.decidableDforallFinset (s := ids.set)

theorem Ids.toNat_lt {ids : Ids} {id : UInt8} (h : id ∈ ids) : id.toNat < 255 := ids.lt id h

structure LsPacket.Within (ids : Ids) (packet : LsPacket) : Prop where
  origin : packet.origin ∈ ids
  entries : ∀ link ∈ packet.entries, link.destId ∈ ids

instance (ids : Ids) (packet : LsPacket) : Decidable (packet.Within ids) :=
  decidable_of_iff (packet.origin ∈ ids ∧ ∀ link ∈ packet.entries, link.destId ∈ ids)
    ⟨fun h => ⟨h.1, h.2⟩, fun h => ⟨h.origin, h.entries⟩⟩

/-- As far as `packet_has_update` looks, the entries are the same. -/
def LsPacket.LooksLike (packet orig : LsPacket) : Prop :=
  packet.entries.length = orig.entries.length ∧ packet.entries.head? = orig.entries.head?

instance (packet orig : LsPacket) : Decidable (packet.LooksLike orig) :=
  inferInstanceAs (Decidable (_ ∧ _))

theorem LsPacket.looksLike_of_eq {packet orig : LsPacket} (h : packet.entries = orig.entries) :
    packet.LooksLike orig :=
  ⟨congrArg List.length h, congrArg List.head? h⟩

/-- What the filter says: the number is higher, and the entries do not look the same. -/
theorem packetHasUpdate_iff {orig packet : LsPacket} : packetHasUpdate orig packet = true ↔
    orig.seqNum < packet.seqNum ∧ (packet.LooksLike orig → packet.entries = []) := by
  rw [packetHasUpdate, LsPacket.LooksLike]
  by_cases hseq : orig.seqNum < packet.seqNum
  · rw [if_pos hseq, and_iff_right hseq]
    by_cases hlength : packet.entries.length = orig.entries.length
    · rw [if_pos hlength]
      cases hp : packet.entries with
      | nil => simp
      | cons entry entries =>
          cases ho : orig.entries with
          | nil =>
              rw [hp, ho] at hlength
              cases hlength
          | cons entry' entries' =>
              rw [hp, ho] at hlength
              obtain ⟨dest, cost⟩ := entry
              obtain ⟨dest', cost'⟩ := entry'
              simp [Nat.succ.inj hlength, imp_iff_not_or]
    · rw [if_neg hlength]
      exact ⟨fun _ hlooks => absurd hlooks.1 hlength, fun _ => rfl⟩
  · rw [if_neg hseq]
    exact ⟨nofun, fun h => absurd h.1 hseq⟩

theorem packetHasUpdate_zeroed {packet : LsPacket} (h : packet.seqNum ≠ 0) :
    packetHasUpdate .zeroed packet = true := by
  refine packetHasUpdate_iff.2 ⟨?_, fun hlooks => List.length_eq_zero_iff.1 hlooks.1⟩
  have hne : packet.seqNum.toNat ≠ 0 := fun heq => h (UInt32.toNat_inj.1 heq)
  exact UInt32.lt_iff_toNat_lt.2 (Nat.pos_of_ne_zero hne)

/-! ### What the filter misses -/

/-- The answer for the two packets is right: the number is higher, and the entries have changed. -/
def LsPacket.Detected (orig incoming : LsPacket) : Prop :=
  packetHasUpdate orig incoming = true ↔
    orig.seqNum < incoming.seqNum ∧ incoming.entries ≠ orig.entries

/-- The number is not higher, or the lengths or the first entries differ, or the entries are the same and
there are some. -/
def LsPacket.Plain (orig incoming : LsPacket) : Prop :=
  incoming.seqNum ≤ orig.seqNum ∨ ¬ incoming.LooksLike orig ∨
    incoming.entries ≠ [] ∧ incoming.entries = orig.entries

/-- **`packet_has_update` detects exactly the changes** for the packets that its first comparison tells
apart, and for those that are not empty and the same. -/
theorem detected_iff_plain (orig incoming : LsPacket) : orig.Detected incoming ↔ orig.Plain incoming := by
  rw [LsPacket.Detected, LsPacket.Plain, packetHasUpdate_iff, ← UInt32.not_lt]
  by_cases hseq : orig.seqNum < incoming.seqNum
  · rw [and_iff_right hseq, and_iff_right hseq, not_not.2 hseq |> iff_false_intro, false_or]
    by_cases hlooks : incoming.LooksLike orig
    · rw [iff_false_intro (not_not.2 hlooks), false_or]
      constructor
      · intro hiff
        by_cases hnil : incoming.entries = []
        · -- two empty lists are equal, and are taken for a change
          have horig : orig.entries = [] := by
            rw [← List.length_eq_zero_iff, ← hlooks.1, hnil]
            rfl
          exact absurd (hnil.trans horig.symm) (hiff.1 fun _ => hnil)
        · refine ⟨hnil, ?_⟩
          by_contra hdiffer
          exact hnil (hiff.2 hdiffer hlooks)
      · rintro ⟨hnil, hsame⟩
        exact iff_of_false (fun himp => hnil (himp hlooks)) (not_not.2 hsame)
    · refine iff_of_true (iff_of_true (fun h => absurd h hlooks) ?_) (Or.inl hlooks)
      exact fun hsame => hlooks (LsPacket.looksLike_of_eq hsame)
  · exact iff_of_true (iff_of_false (fun h => hseq h.1) fun h => hseq h.1) (Or.inl hseq)

/-- The cost of a second link changes, and nothing is noticed. -/
theorem not_detected : ¬ ∀ orig incoming : LsPacket, orig.origin = incoming.origin →
    orig.entries.length ≤ maxNumRouters → incoming.entries.length ≤ maxNumRouters →
      orig.Detected incoming := by
  intro hclaim
  have hdetected := (hclaim ⟨65, 0, 1, [⟨66, 1⟩, ⟨67, 1⟩]⟩ ⟨65, 0, 2, [⟨66, 1⟩, ⟨67, 9⟩]⟩ rfl
    (by decide) (by decide)).2 (by decide)
  exact absurd hdetected (by decide)

namespace Router

structure Within (ids : Ids) (router : Router) : Prop where
  id : router.id ∈ ids
  rows : ∀ row ∈ router.neighborsTable, row.nodeId ∈ ids
  entry : ∀ x e, router.entry x = some e → x ∈ ids
  stored : ∀ x packet, router.stored x = some packet → ∀ link ∈ packet.entries, link.destId ∈ ids

section Ids

variable {ids : Ids} {router router' : Router} {node : UInt8} {e : RoutingEntry}

theorem Valid.length_lt (h : router.Valid) (hids : router.Within ids) :
    router.destinations.length < maxNumRouters := by
  have hsub : (router.destinations.map RoutingEntry.destId).toFinset ⊆ ids.set.erase router.id := by
    intro x hx
    obtain ⟨e, he, rfl⟩ := List.mem_map.1 (List.mem_toFinset.1 hx)
    exact Finset.mem_erase.2 ⟨h.self e he, hids.entry _ e (h.entry_of_mem he)⟩
  have hcard := Finset.card_le_card hsub
  rw [List.toFinset_card_of_nodup h.nodup, List.length_map, Finset.card_erase_of_mem hids.id] at hcard
  have hpos : 0 < ids.set.card := Finset.card_pos.2 ⟨_, hids.id⟩
  have := ids.card_le
  omega

theorem Within.writes (h : router.Within ids) (hwrites : Writes router router' node e)
    (hnode : node ∈ ids) (hpacket : ∀ packet ∈ e.packet, ∀ link ∈ packet.entries, link.destId ∈ ids) :
    router'.Within ids := by
  refine ⟨hwrites.id ▸ h.id, hwrites.rows ▸ h.rows, fun x e' he' => ?_, fun x packet hx => ?_⟩
  · by_cases hx : x = node
    · rwa [hx]
    · exact h.entry x e' (hwrites.entry_of_ne hx ▸ he')
  · by_cases hxn : x = node
    · rw [hxn, hwrites.stored_self] at hx
      exact hpacket packet hx
    · exact h.stored x packet (hwrites.stored_of_ne hxn ▸ hx)

end Ids

section Parsed

variable {id : UInt8} {rows : List Neighbor}

theorem parsed_valid (hrows : rows.length ≤ maxNumRouters) : (parsed id rows).Valid where
  rows_le := hrows
  length_le := Nat.zero_le _
  lt := nofun
  self := nofun
  nodup := List.nodup_nil
  table _ := rfl

theorem parsed_within {ids : Ids} (hid : id ∈ ids) (hrows : ∀ row ∈ rows, row.nodeId ∈ ids) :
    (parsed id rows).Within ids :=
  ⟨hid, hrows, nofun, nofun⟩

end Parsed

section Store

variable {ids : Ids} {router router' : Router} {packet : LsPacket} {b : Bool}

/-- What the store step can do: nothing for a packet of the router itself, a new entry, or a choice
between the packet stored and the new one. -/
theorem Valid.store_cases (h : router.Valid) (hstore : router.store packet = some (b, router')) :
    (packet.origin = router.id ∧ b = false ∧ router' = router) ∨
    (packet.origin ≠ router.id ∧ router.entry packet.origin = none ∧ b = true ∧
      Writes router router' packet.origin ⟨packet.origin, 0, -1, some packet⟩) ∨
    ∃ e, packet.origin ≠ router.id ∧ router.entry packet.origin = some e ∧
      b = packetHasUpdate (e.packet.getD .zeroed) packet ∧
      Writes router router' packet.origin
        { e with packet := some (if b then packet else e.packet.getD .zeroed) } := by
  rw [store] at hstore
  by_cases hself : packet.origin = router.id
  · rw [if_pos hself] at hstore
    cases hstore
    exact Or.inl ⟨hself, rfl, rfl⟩
  · rw [if_neg hself] at hstore
    by_cases hlt : packet.origin.toNat < 255
    · rw [h.getRoutingEntryForNode hlt] at hstore
      cases hidx : router.indexOf packet.origin with
      | none =>
          simp only [hidx, Option.map_eq_some_iff, Prod.mk.injEq] at hstore
          obtain ⟨_, happend, rfl, rfl⟩ := hstore
          have hnone := entry_eq_none.2 hidx
          exact Or.inr (Or.inl ⟨hself, hnone, rfl, (h.appendEntry hnone hself happend).1⟩)
      | some i =>
          obtain ⟨e, hget, hentry⟩ := exists_entry hidx
          simp only [hidx, hget, Option.map_some, Option.some.injEq] at hstore
          refine Or.inr (Or.inr ⟨e, hself, hentry, ?_⟩)
          have hid := entry_destId hentry
          cases hupdate : packetHasUpdate (e.packet.getD .zeroed) packet with
          | true =>
              rw [hupdate, if_pos rfl] at hstore
              cases hstore
              exact ⟨rfl, h.setEntry hidx hid⟩
          | false =>
              rw [hupdate, if_neg Bool.false_ne_true] at hstore
              cases hstore
              exact ⟨rfl, h.setEntry hidx hid⟩
    · rw [getRoutingEntryForNode_eq_none hlt] at hstore
      cases hstore

theorem Valid.store_isSome (h : router.Valid) :
    (router.store packet).isSome ↔ packet.origin = router.id ∨ router.HasPlace packet.origin := by
  rw [store]
  by_cases hself : packet.origin = router.id
  · rw [if_pos hself]
    exact iff_of_true rfl (Or.inl hself)
  · rw [if_neg hself, or_iff_right hself]
    by_cases hlt : packet.origin.toNat < 255
    · rw [h.getRoutingEntryForNode hlt]
      cases hidx : router.indexOf packet.origin with
      | none =>
          simp only [Option.isSome_map]
          exact h.appendEntry_isSome (entry_eq_none.2 hidx) hself
      | some i =>
          obtain ⟨e, hget, hentry⟩ := exists_entry hidx
          simp only [hget, Option.map_some, Option.isSome_some, true_iff]
          exact hasPlace_of_entry hentry hlt
    · rw [getRoutingEntryForNode_eq_none hlt]
      exact iff_of_false Bool.false_ne_true fun hplace => hlt hplace.1

theorem Valid.hasPlace (h : router.Valid) (hids : router.Within ids) {x : UInt8} (hx : x ∈ ids) :
    router.HasPlace x :=
  ⟨Ids.toNat_lt hx, fun _ => h.length_lt hids⟩

theorem Valid.exists_store (h : router.Valid) (hids : router.Within ids) (hpacket : packet.Within ids) :
    ∃ b router', router.store packet = some (b, router') := by
  have hsome := h.store_isSome.2 (Or.inr (h.hasPlace hids hpacket.origin))
  obtain ⟨⟨b, router'⟩, hstore⟩ := Option.isSome_iff_exists.1 hsome
  exact ⟨b, router', hstore⟩

theorem Valid.store (h : router.Valid) (hstore : router.store packet = some (b, router')) :
    router'.Valid ∧ router'.id = router.id ∧ router'.seqNum = router.seqNum ∧
      router'.neighborsTable = router.neighborsTable := by
  rcases h.store_cases hstore with ⟨-, -, rfl⟩ | ⟨-, -, -, hw⟩ | ⟨e, -, -, -, hw⟩
  · exact ⟨h, rfl, rfl, rfl⟩
  · exact ⟨hw.valid, hw.id, hw.seqNum, hw.rows⟩
  · exact ⟨hw.valid, hw.id, hw.seqNum, hw.rows⟩

theorem Valid.store_within (h : router.Valid) (hids : router.Within ids) (hpacket : packet.Within ids)
    (hstore : router.store packet = some (b, router')) : router'.Within ids := by
  rcases h.store_cases hstore with ⟨-, -, rfl⟩ | ⟨-, -, -, hw⟩ | ⟨e, -, hentry, -, hw⟩
  · exact hids
  · refine hids.writes hw hpacket.origin fun p hp => ?_
    cases hp
    exact hpacket.entries
  · refine hids.writes hw hpacket.origin fun p hp => ?_
    cases hp
    split
    · exact hpacket.entries
    · cases hstored : e.packet with
      | none => exact nofun
      | some orig => exact hids.stored _ orig ((stored_eq hentry).trans hstored)

theorem Valid.store_of_ne (h : router.Valid) {x : UInt8} (hx : x ≠ packet.origin)
    (hstore : router.store packet = some (b, router')) : router'.stored x = router.stored x := by
  rcases h.store_cases hstore with ⟨-, -, rfl⟩ | ⟨-, -, -, hw⟩ | ⟨e, -, -, -, hw⟩
  · rfl
  · exact hw.stored_of_ne hx
  · exact hw.stored_of_ne hx

theorem Valid.store_first (h : router.Valid) (hself : packet.origin ≠ router.id)
    (hnone : router.stored packet.origin = none)
    (hcounts : packet.seqNum ≠ 0 ∨ router.entry packet.origin = none)
    (hstore : router.store packet = some (b, router')) :
    b = true ∧ router'.stored packet.origin = some packet := by
  rcases h.store_cases hstore with ⟨heq, -, -⟩ | ⟨-, -, rfl, hw⟩ | ⟨e, -, hentry, rfl, hw⟩
  · exact absurd heq hself
  · exact ⟨rfl, hw.stored_self⟩
  · have hseq : packet.seqNum ≠ 0 := hcounts.resolve_right (hentry ▸ Option.some_ne_none e)
    rw [stored_eq hentry] at hnone
    have hb : packetHasUpdate (e.packet.getD .zeroed) packet = true := by
      rw [hnone]
      exact packetHasUpdate_zeroed hseq
    exact ⟨hb, hw.stored_self.trans (by rw [hb]; rfl)⟩

theorem Valid.store_next (h : router.Valid) (hself : packet.origin ≠ router.id) {orig : LsPacket}
    (horig : router.stored packet.origin = some orig)
    (hstore : router.store packet = some (b, router')) :
    b = packetHasUpdate orig packet ∧
      router'.stored packet.origin = some (if b then packet else orig) := by
  rcases h.store_cases hstore with ⟨heq, -, -⟩ | ⟨-, hnone, -, -⟩ | ⟨e, -, hentry, rfl, hw⟩
  · exact absurd heq hself
  · rw [stored_eq_none hnone] at horig
    cases horig
  · rw [stored_eq hentry] at horig
    rw [hw.stored_self, horig, Option.getD_some]
    exact ⟨rfl, rfl⟩

end Store

end Router

end NetworkSystems.LinkState
