import NetworkSystems.LinkState.Update

/-!
# The representation of the routing table

What holds of the three tables of a router after any packets: the entries have distinct ids, the index
finds exactly them, and a gateway is a row of the neighbor table. Every pass of the loop of
`update_routing_table` but the last settles another node, so there are at most as many passes as ids.
-/

namespace NetworkSystems.LinkState

namespace Router

/-- The loop of `compute`, with the number of its passes. -/
def computeCounted : Nat → Router → List UInt8 → Option (Router × Nat)
  | room, router, current =>
      if current.length ≤ router.destinations.length then
        (router.scan current).bind fun shortest =>
          if shortest.cost = -1 then some (router, 1)
          else
            match room with
            | 0 => none
            | room + 1 =>
                (router.settle shortest).bind fun router =>
                  (computeCounted room router (current ++ [shortest.dest])).map fun (router, passes) =>
                    (router, passes + 1)
      else some (router, 0)

/-- How many passes a call of `update_routing_table` makes. -/
def passes (router : Router) (packet : LsPacket) : Option Nat :=
  (router.store packet).bind fun (stored, router) =>
    if stored then (computeCounted (maxNumRouters - 1) router [router.id]).map Prod.snd else some 0

/-- An entry with a cost has a row of the neighbor table for its gateway. -/
def Gatewayed (router : Router) : Prop :=
  ∀ entry ∈ router.destinations, entry.cost ≠ -1 →
    entry.gatewayIdx.toNat < router.neighborsTable.length

/-- How the tables of a router represent its destinations. The index finds the entry of an id, and is 0xFF
for an id without entry. -/
structure Represented (router : Router) : Prop where
  nodup : (router.destinations.map RoutingEntry.destId).Nodup
  self : ∀ entry ∈ router.destinations, entry.destId ≠ router.id
  table : ∀ (x : Fin 255) (i : Fin router.destinations.length),
    (router.routingTable x).toNat = i ↔ (router.destinations.get i).destId.toNat = x
  other : ∀ x : Fin 255, (∀ entry ∈ router.destinations, entry.destId.toNat ≠ x) →
    router.routingTable x = 0xff
  gateway : router.Gatewayed

section Count

variable {ids : Ids} {router router' : Router} {packet : LsPacket} {L : List (Link UInt8)}

theorem computeCounted_fst (room : Nat) (router : Router) (current : List UInt8) :
    (computeCounted room router current).map Prod.fst = compute room router current := by
  induction room generalizing router current with
  | zero =>
      rw [computeCounted.eq_def, compute.eq_def]
      dsimp only
      split
      case isTrue =>
        rw [Option.map_bind]
        congr 1
        funext shortest
        simp only [Function.comp_apply, apply_ite (Option.map Prod.fst), Option.map_some, Option.map_none]
      case isFalse => rfl
  | succ room ih =>
      rw [computeCounted.eq_def, compute.eq_def]
      dsimp only
      split
      case isTrue =>
        rw [Option.map_bind]
        congr 1
        funext shortest
        simp only [Function.comp_apply, apply_ite (Option.map Prod.fst), Option.map_some, Option.map_bind,
          Option.map_map, ← ih]
        rfl
      case isFalse => rfl

theorem Grown.length_lt_card (h : router.Grown L) (hids : router.Within ids) :
    L.length < ids.set.card := by
  have hcard := Finset.card_le_card (hids.settled h.settles)
  rw [List.toFinset_card_of_nodup h.settles.nodup, List.length_map, Finset.card_erase_of_mem hids.id]
    at hcard
  have hpos : 0 < ids.set.card := Finset.card_pos.2 ⟨_, hids.id⟩
  omega

/-- How the passes go on from a tree: none or one more, or one that adds the least link out of the tree. -/
theorem Grown.computeCounted_cases (h : router.Grown L) :
    (∃ last ≤ 1, ∀ room,
      computeCounted room router (router.id :: L.map Link.dest) = some (router, last)) ∨
    ∃ link, Frontier (graph router.links) router.id L link ∧
      (∀ other, Frontier (graph router.links) router.id L other → key link ≤ key other) ∧
      computeCounted 0 router (router.id :: L.map Link.dest) = none ∧
      ∀ room, computeCounted (room + 1) router (router.id :: L.map Link.dest) =
        (router.settle (.encode (some link))).bind fun router' =>
          (computeCounted room router' (router.id :: (L ++ [link]).map Link.dest)).map
            fun (router, passes) => (router, passes + 1) := by
  have hunfold : ∀ room, computeCounted room router (router.id :: L.map Link.dest) = _ :=
    fun room => computeCounted.eq_def room router _
  by_cases hle : (router.id :: L.map Link.dest).length ≤ router.destinations.length
  · obtain ⟨best, hscan, -, hsome⟩ := h.scan
    simp only [hle, if_true, hscan, Option.bind_some] at hunfold
    cases best with
    | none =>
        refine Or.inl ⟨1, le_rfl, fun room => ?_⟩
        rw [hunfold room]
        exact if_pos rfl
    | some link =>
        have hcost := LsLink.encode_cost_ne link
        obtain ⟨hlink, hleast⟩ := hsome link rfl
        refine Or.inr ⟨link, hlink, hleast, ?_, fun room => ?_⟩
        · rw [hunfold 0, if_neg hcost]
        · rw [hunfold (room + 1), if_neg hcost, List.map_append, List.map_singleton]
          rfl
  · refine Or.inl ⟨0, Nat.zero_le 1, fun room => ?_⟩
    rw [hunfold room]
    exact if_neg hle

theorem Grown.passes_le {room n : Nat} (h : router.Grown L) (hids : router.Within ids)
    (hcounted : computeCounted room router (router.id :: L.map Link.dest) = some (router', n)) :
    n + L.length ≤ ids.set.card := by
  have hcard := h.length_lt_card hids
  induction room generalizing router L n with
  | zero =>
      rcases h.computeCounted_cases with ⟨last, hlast, hroom⟩ | ⟨link, -, -, hroom, -⟩
      · rw [hroom] at hcounted
        cases hcounted
        omega
      · rw [hroom] at hcounted
        cases hcounted
  | succ room ih =>
      rcases h.computeCounted_cases with ⟨last, hlast, hroom⟩ | ⟨link, hlink, hleast, -, hroom⟩
      · rw [hroom] at hcounted
        cases hcounted
        omega
      · rw [hroom, Option.bind_eq_some_iff] at hcounted
        obtain ⟨mid, hsettle, hcounted⟩ := hcounted
        obtain ⟨⟨last, k⟩, hrest, heq⟩ := Option.map_eq_some_iff.1 hcounted
        obtain ⟨rfl, rfl⟩ := Prod.mk.inj heq
        obtain ⟨hmid, hkeeps, -⟩ := h.step hlink hleast hsettle
        have hmidids := h.settle_within hids hlink hsettle
        rw [← hkeeps.id] at hrest
        have hle := ih hmid hmidids hrest (hmid.length_lt_card hmidids)
        rw [List.length_append, List.length_singleton] at hle
        omega

theorem Valid.passes_le (h : router.Valid) (hids : router.Within ids) (hpacket : packet.Within ids)
    {b : Bool} (hupdate : router.updateRoutingTable packet = some (b, router')) :
    ∃ n, router.passes packet = some n ∧ n ≤ ids.set.card := by
  rw [updateRoutingTable, Option.bind_eq_some_iff] at hupdate
  obtain ⟨⟨stored, mid⟩, hstore, hupdate⟩ := hupdate
  rw [passes, hstore, Option.bind_some]
  cases stored with
  | false => exact ⟨0, rfl, Nat.zero_le _⟩
  | true =>
      simp only [if_true, Option.map_eq_some_iff] at hupdate
      obtain ⟨_, hcompute, -⟩ := hupdate
      rw [← computeCounted_fst, Option.map_eq_some_iff] at hcompute
      obtain ⟨⟨last, n⟩, hcounted, -⟩ := hcompute
      have hle := (h.store hstore).1.grown_nil.passes_le (h.store_within hids hpacket hstore) hcounted
      exact ⟨n, by simp only [if_true, hcounted, Option.map_some], hle⟩

end Count

section Gateway

variable {router router' : Router} {packet : LsPacket} {b : Bool}

theorem Valid.gatewayed_iff (h : router.Valid) : router.Gatewayed ↔
    ∀ x e, router.entry x = some e → e.cost ≠ -1 →
      e.gatewayIdx.toNat < router.neighborsTable.length :=
  ⟨fun hall _ e he => hall e (entry_mem he), fun hall e he => hall e.destId e (h.entry_of_mem he)⟩

theorem Valid.gatewayed_writes (h : router.Valid) (hgateway : router.Gatewayed) {node : UInt8}
    {e : RoutingEntry} (hwrites : Writes router router' node e)
    (he : e.cost ≠ -1 → e.gatewayIdx.toNat < router.neighborsTable.length) : router'.Gatewayed := by
  rw [h.gatewayed_iff] at hgateway
  rw [hwrites.valid.gatewayed_iff, hwrites.rows]
  intro x e' he' hcost
  by_cases hx : x = node
  · rw [hx, hwrites.entry_self] at he'
    cases he'
    exact he hcost
  · exact hgateway x e' (hwrites.entry_of_ne hx ▸ he') hcost

theorem Valid.store_gatewayed (h : router.Valid) (hgateway : router.Gatewayed)
    (hstore : router.store packet = some (b, router')) : router'.Gatewayed := by
  rcases h.store_cases hstore with ⟨-, -, rfl⟩ | ⟨-, -, -, hw⟩ | ⟨old, -, hold, -, hw⟩
  · exact hgateway
  · exact h.gatewayed_writes hgateway hw fun hcost => absurd rfl hcost
  · exact h.gatewayed_writes hgateway hw (hgateway old (entry_mem hold))

theorem Valid.update_gatewayed (h : router.Valid) (hgateway : router.Gatewayed)
    (hupdate : router.updateRoutingTable packet = some (b, router')) : router'.Gatewayed := by
  rcases h.update_cases hupdate with ⟨-, hstore⟩ | ⟨mid, M, -, hstore, hkeeps, hM, -, -, hother⟩
  · exact h.store_gatewayed hgateway hstore
  · have hmid := h.store_gatewayed hgateway hstore
    rw [(h.store hstore).1.gatewayed_iff] at hmid
    rw [hM.valid.gatewayed_iff]
    intro x e he hcost
    by_cases hx : x ∈ M.map Link.dest
    · obtain ⟨link, hlink, rfl⟩ := List.mem_map.1 hx
      obtain ⟨e', row, he', -, hget, -⟩ := hM.routed link hlink
      rw [he] at he'
      cases he'
      exact (List.getElem?_eq_some_iff.1 hget).1
    · rw [hkeeps.rows]
      exact hmid x e (hother x hx ▸ he) hcost

theorem run_gatewayed {packets : List LsPacket} (h : router.Valid) (hgateway : router.Gatewayed)
    (hrun : updating.run router packets = some router') : router'.Valid ∧ router'.Gatewayed := by
  refine updating.invariant (I := fun router => router.Valid ∧ router.Gatewayed) ?_ ⟨h, hgateway⟩ hrun
  intro router packet router' hI hstep
  obtain ⟨b, hupdate⟩ := updating_step hstep
  exact ⟨hI.1.updating_step hstep, hI.1.update_gatewayed hI.2 hupdate⟩

end Gateway

section Representation

variable {router : Router}

theorem Valid.routingTable_eq_iff (h : router.Valid) (x : Fin 255)
    (i : Fin router.destinations.length) :
    (router.routingTable x).toNat = i ↔ (router.destinations.get i).destId.toNat = x := by
  have hlength := h.length_le
  simp only [maxNumRouters] at hlength
  have hi := i.isLt
  have hx : (UInt8.ofNat x.val).toNat = x.val :=
    UInt8.toNat_ofNat_of_lt' (by simp only [UInt8.size]; omega)
  rw [h.table]
  cases hidx : router.indexOf (UInt8.ofNat x.val) with
  | none =>
      refine iff_of_false ?_ fun hid => ?_
      · have hmax : (0xff : UInt8).toNat = 255 := by decide
        rw [Option.map_none, Option.getD_none, hmax]
        omega
      · have hnone := entry_eq_none.2 hidx
        have hmem := h.entry_of_mem (List.get_mem router.destinations i)
        rw [UInt8.toNat_inj.1 (hid.trans hx.symm), hnone] at hmem
        cases hmem
  | some j =>
      have hj := indexOf_lt hidx
      have hval : (UInt8.ofNat j).toNat = j :=
        UInt8.toNat_ofNat_of_lt' (by simp only [UInt8.size]; omega)
      obtain ⟨e, hget, hentry⟩ := exists_entry hidx
      have hid : (router.destinations.get ⟨j, hj⟩).destId = UInt8.ofNat x.val := by
        rw [List.getElem?_eq_getElem hj, Option.some.injEq] at hget
        exact (congrArg RoutingEntry.destId hget).trans (entry_destId hentry)
      rw [Option.map_some, Option.getD_some, hval, ← hx, UInt8.toNat_inj, ← hid]
      constructor
      · intro hji
        rw [show i = ⟨j, hj⟩ from Fin.ext hji.symm]
      · intro hsame
        have heq := List.inj_on_of_nodup_map h.nodup (List.get_mem _ _) (List.get_mem _ _) hsame.symm
        exact congrArg Fin.val ((List.Nodup.of_map _ h.nodup).get_inj_iff.1 heq)

theorem Valid.represented (h : router.Valid) (hgateway : router.Gatewayed) : router.Represented where
  nodup := h.nodup
  self := h.self
  table := h.routingTable_eq_iff
  other x hother := by
    have hnone : router.entry (UInt8.ofNat x.val) = none := by
      cases hentry : router.entry (UInt8.ofNat x.val) with
      | none => rfl
      | some e =>
          have hid := hother e (entry_mem hentry)
          rw [entry_destId hentry, UInt8.toNat_ofNat_of_lt' (by simp only [UInt8.size]; omega)] at hid
          exact absurd rfl hid
    rw [h.table, entry_eq_none.1 hnone]
    rfl
  gateway := hgateway

/-- **The routing table is well formed after any packets** of a network of at most 32 ids, and the next
call has no fault and at most as many passes as there are ids. -/
theorem run_represented (ids : Ids) (id : UInt8) (rows : List Neighbor) (packets : List LsPacket)
    (hid : id ∈ ids) (hids : ∀ row ∈ rows, row.nodeId ∈ ids) (hrows : rows.length ≤ maxNumRouters)
    (hpackets : ∀ packet ∈ packets, packet.Within ids) :
    ∃ router, updating.run (parsed id rows) packets = some router ∧ router.Represented ∧
      ∀ packet : LsPacket, packet.Within ids → ∃ b router' n,
        router.updateRoutingTable packet = some (b, router') ∧ router.passes packet = some n ∧
          n ≤ ids.set.card := by
  have hstart := running_parsed hid hids hrows
  obtain ⟨router, hrun, hrunning⟩ := hstart.exists_run hpackets
  have hnone : (parsed id rows).Gatewayed := nofun
  obtain ⟨hvalid, hgateway⟩ := run_gatewayed hstart.valid hnone hrun
  refine ⟨router, hrun, hvalid.represented hgateway, fun packet hpacket => ?_⟩
  obtain ⟨b, router', hupdate⟩ := hvalid.exists_update hrunning.within hpacket
  obtain ⟨n, hpasses, hle⟩ := hvalid.passes_le hrunning.within hpacket hupdate
  exact ⟨b, router', n, hupdate, hpasses, hle⟩

/-- The ids of four routers. -/
def fourIds : Ids := ⟨{65, 66, 67, 68}, by decide, by decide +kernel⟩

/-- Four routers in a row: the table of the first after packets of the next two. -/
theorem run_represented_four :
    ∃ router, updating.run (parsed 65 [⟨66, 1, 3⟩])
        [⟨66, 0, 1, [⟨65, 1⟩, ⟨67, 2⟩]⟩, ⟨67, 0, 1, [⟨66, 2⟩, ⟨68, 1⟩]⟩] = some router ∧
      router.Represented ∧
      ∀ packet : LsPacket, packet.Within fourIds → ∃ b router' n,
        router.updateRoutingTable packet = some (b, router') ∧ router.passes packet = some n ∧
          n ≤ fourIds.set.card :=
  run_represented fourIds 65 [⟨66, 1, 3⟩]
    [⟨66, 0, 1, [⟨65, 1⟩, ⟨67, 2⟩]⟩, ⟨67, 0, 1, [⟨66, 2⟩, ⟨68, 1⟩]⟩]
    (by decide) (by decide) (by decide) (by decide)

end Representation

end Router

end NetworkSystems.LinkState
