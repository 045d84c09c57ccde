import NetworkSystems.LinkState.Network

/-!
# Forwarding without loops

Routers that have stored the packets of all others have computed shortest paths in one and the same
graph. From router to router along the gateways the distance decreases by the cost of the link, so
forwarding comes to the destination, and never back.
-/

namespace NetworkSystems.LinkState

namespace Topology

def tables (T : Topology) (v : UInt8) : List LsEntry :=
  if v ∈ T.ids then (T.rows v).map fun row => ⟨row.nodeId, row.cost⟩ else []

def Connected (T : Topology) : Prop :=
  ∀ u ∈ T.ids, ∀ v ∈ T.ids, ∃ c, Walk (graph T.tables) u v c

/-- A router that has stored a packet with the neighbors and costs of each other one. -/
structure Informed (T : Topology) (v : UInt8) (router : Router) : Prop where
  running : Router.Running T.ids v (T.rows v) router
  stored : ∀ x ∈ T.ids, x ≠ v → ∃ p, router.stored x = some p ∧ p.entries = T.tables x

section Informed

variable {T : Topology} {v x : UInt8} {router : Router} {e : RoutingEntry}

theorem mem_of_link {u w : UInt8} {c : ℕ} (h : graph T.tables u w c) : u ∈ T.ids ∧ w ∈ T.ids := by
  obtain ⟨link, hlink, rfl, -⟩ := h
  rw [tables] at hlink
  split at hlink
  case isTrue hu =>
    obtain ⟨row, hrow, rfl⟩ := List.mem_map.1 hlink
    exact ⟨hu, T.rows_mem _ hu row hrow⟩
  case isFalse => cases hlink

theorem Informed.links_eq (h : T.Informed v router) (hv : v ∈ T.ids) : router.links = T.tables := by
  funext u
  rw [Router.links, h.running.id, h.running.rows, tables]
  by_cases hu : u = v
  · rw [if_pos hu, if_pos (hu ▸ hv), hu]
  · rw [if_neg hu]
    by_cases hmem : u ∈ T.ids
    · obtain ⟨p, hp, hentries⟩ := h.stored u hmem hu
      rw [hp, Option.map_some, Option.getD_some, hentries, tables]
    · have hnone : router.stored u = none := by
        rw [Option.eq_none_iff_forall_ne_some]
        intro p hp
        obtain ⟨e, he, -⟩ := Router.stored_eq_some.1 hp
        exact hmem (h.running.within.entry u e he)
      rw [hnone, if_neg hmem]
      rfl

theorem Informed.entry_iff (h : T.Informed v router) :
    (∃ e, router.entry x = some e) ↔ x ∈ T.ids ∧ x ≠ v := by
  constructor
  · rintro ⟨e, he⟩
    exact ⟨h.running.within.entry x e he, h.running.id ▸ h.running.valid.ne_of_entry he⟩
  · rintro ⟨hx, hne⟩
    obtain ⟨p, hp, -⟩ := h.stored x hx hne
    obtain ⟨e, he, -⟩ := Router.stored_eq_some.1 hp
    exact ⟨e, he⟩

theorem Informed.route (h : T.Informed v router) (hv : v ∈ T.ids) (hconnected : T.Connected)
    (he : router.entry x = some e) :
    ∃ d : ℕ, ∃ row, e.cost = d ∧ IsDist (graph T.tables) v x d ∧
      router.neighborsTable[e.gatewayIdx.toNat]? = some row ∧
      FirstHop (graph T.tables) v row.nodeId x := by
  obtain ⟨hx, -⟩ := h.entry_iff.1 ⟨e, he⟩
  obtain ⟨c, hwalk⟩ := hconnected v hv x hx
  obtain ⟨L, hL, hend⟩ := h.running.computed
  rw [← h.links_eq hv, ← h.running.id] at hwalk ⊢
  obtain ⟨link, hlink, rfl⟩ := List.mem_map.1 (hL.mem_of_walk hend he hwalk)
  obtain ⟨e', row, he', hcost, hget, hvia⟩ := hL.routed link hlink
  cases he.symm.trans he'
  exact ⟨link.cost, row, hcost, hL.settles.isDist (fun _ _ => key_cost) (Or.inr ⟨link, hlink, rfl, rfl⟩),
    hget, hL.settles.firstHop (fun _ _ => key_cost) hvia⟩

end Informed

/-- Moving from router to router along the gateways for a destination: the routers visited, and the cost
of the links taken. Between two routers the cheapest link counts. With distinct neighbors it is the one
in the row of the gateway. -/
inductive Follows (T : Topology) (routers : UInt8 → Router) (dest : UInt8) :
    UInt8 → List UInt8 → ℕ → Prop
  | arrived : Follows T routers dest dest [dest] 0
  | hop {u : UInt8} {e : RoutingEntry} {row : Neighbor} {path : List UInt8} {c d : ℕ} (hne : u ≠ dest)
      (hentry : (routers u).entry dest = some e)
      (hrow : (routers u).neighborsTable[e.gatewayIdx.toNat]? = some row)
      (hlink : graph T.tables u row.nodeId c) (hleast : ∀ c', graph T.tables u row.nodeId c' → c ≤ c')
      (hdistinct : ((T.rows u).map Neighbor.nodeId).Nodup → c = row.cost.toNat)
      (h : Follows T routers dest row.nodeId path d) : Follows T routers dest u (u :: path) (c + d)

section Forwarding

variable {T : Topology} {routers : UInt8 → Router} {u dest : UInt8} {d : ℕ}

theorem cost_of_distinct {row : Neighbor} {c : ℕ} (hu : u ∈ T.ids) (hrow : row ∈ T.rows u)
    (hdistinct : ((T.rows u).map Neighbor.nodeId).Nodup) (hlink : graph T.tables u row.nodeId c) :
    c = row.cost.toNat := by
  obtain ⟨link, hmem, hdest, rfl⟩ := hlink
  rw [tables, if_pos hu] at hmem
  obtain ⟨row', hrow', rfl⟩ := List.mem_map.1 hmem
  rw [List.inj_on_of_nodup_map hdistinct hrow' hrow hdest]

theorem Informed.hop (h : T.Informed u (routers u)) (hu : u ∈ T.ids) (hconnected : T.Connected)
    (hdest : dest ∈ T.ids) (hne : u ≠ dest) (hdist : IsDist (graph T.tables) u dest d) :
    ∃ e row c d', (routers u).entry dest = some e ∧ e.cost = d ∧
      (routers u).neighborsTable[e.gatewayIdx.toNat]? = some row ∧
      graph T.tables u row.nodeId c ∧ (∀ c', graph T.tables u row.nodeId c' → c ≤ c') ∧
      IsDist (graph T.tables) row.nodeId dest d' ∧ d = c + d' := by
  obtain ⟨e, he⟩ := h.entry_iff.2 ⟨hdest, hne.symm⟩
  obtain ⟨d₀, row, hcost, hdist₀, hrow, c, d', hlink, hwalk, hfirst⟩ := h.route hu hconnected he
  cases hdist.unique hdist₀
  refine ⟨e, row, c, d', he, hcost, hrow, hlink, fun c' hlink' => ?_,
    hfirst.of_link hlink hwalk, hdist.unique hfirst⟩
  exact Nat.le_of_add_le_add_right (hfirst.2 _ ((Walk.of_link hlink').trans hwalk))

/-- Forwarding comes to its end. All routers on the way are as close to the destination as its start. -/
theorem exists_follows (hinformed : ∀ v ∈ T.ids, T.Informed v (routers v))
    (hconnected : T.Connected) (hpos : ∀ v ∈ T.ids, ∀ row ∈ T.rows v, row.cost ≠ 0)
    (hdest : dest ∈ T.ids) (hu : u ∈ T.ids) (hdist : IsDist (graph T.tables) u dest d) :
    ∃ path, Follows T routers dest u path d ∧ path.Nodup ∧
      ∀ w ∈ path, ∃ d' ≤ d, IsDist (graph T.tables) w dest d' := by
  induction d using Nat.strongRecOn generalizing u with
  | ind d ih =>
      by_cases hne : u = dest
      · subst hne
        cases hdist.unique (isDist_self _ _)
        refine ⟨[u], .arrived, List.nodup_singleton u, fun w hw => ⟨0, Nat.le_refl 0, ?_⟩⟩
        rw [List.mem_singleton.1 hw]
        exact isDist_self _ _
      · obtain ⟨e, row, c, d', he, -, hrow, hlink, hleast, hdist', rfl⟩ :=
          (hinformed u hu).hop hu hconnected hdest hne hdist
        have hmem : row ∈ T.rows u := by
          have := List.mem_of_getElem? hrow
          rwa [(hinformed u hu).running.rows] at this
        have hc : 0 < c := by
          obtain ⟨link, hlink, -, rfl⟩ := hlink
          rw [tables, if_pos hu] at hlink
          obtain ⟨row', hrow', rfl⟩ := List.mem_map.1 hlink
          exact Nat.pos_of_ne_zero fun hzero => hpos u hu row' hrow' (UInt8.toNat_inj.1 hzero)
        obtain ⟨path, hfollows, hnodup, hclose⟩ :=
          ih d' (Nat.lt_add_of_pos_left hc) (T.rows_mem u hu row hmem) hdist'
        refine ⟨u :: path, .hop hne he hrow hlink hleast
          (fun hdistinct => cost_of_distinct hu hmem hdistinct hlink) hfollows,
          List.nodup_cons.2 ⟨fun hup => ?_, hnodup⟩, List.forall_mem_cons.2 ⟨⟨_, Nat.le_refl _, hdist⟩, ?_⟩⟩
        · obtain ⟨d'', hle, hdist''⟩ := hclose u hup
          have := hdist.unique hdist''
          omega
        · intro w hw
          obtain ⟨d'', hle, hdist''⟩ := hclose w hw
          exact ⟨d'', Nat.le_add_left_of_le hle, hdist''⟩

end Forwarding

end Topology

/-- **Forwarding is free of loops.** In a connected network with costs of at least 1, take routers that
have processed any packets, and that have stored the packet of every other router. From every source to
every destination, forwarding along the gateways arrives, visits no router twice, and costs what the
source has in its table. -/
theorem forwarding_loopFree {T : Topology} {routers : UInt8 → Router} {src dest : UInt8}
    (hconnected : T.Connected) (hpos : ∀ v ∈ T.ids, ∀ row ∈ T.rows v, row.cost ≠ 0)
    (hrouters : ∀ v ∈ T.ids, ∃ packets : List LsPacket, (∀ p ∈ packets, p.Within T.ids) ∧
      Router.updating.run (.parsed v (T.rows v)) packets = some (routers v))
    (hstored : ∀ v ∈ T.ids, ∀ x ∈ T.ids, x ≠ v →
      ∃ p, (routers v).stored x = some p ∧ p.entries = T.tables x)
    (hsrc : src ∈ T.ids) (hdest : dest ∈ T.ids) :
    ∃ path, ∃ c : ℕ, T.Follows routers dest src path c ∧ path.Nodup ∧
      (src ≠ dest → ∃ e, (routers src).entry dest = some e ∧ e.cost = c) := by
  have hinformed : ∀ v ∈ T.ids, T.Informed v (routers v) := by
    intro v hv
    obtain ⟨packets, hpackets, hrun⟩ := hrouters v hv
    obtain ⟨router, hrun', hrunning⟩ :=
      (Router.running_parsed hv (T.rows_mem v hv) (T.rows_le v hv)).exists_run hpackets
    cases hrun.symm.trans hrun'
    exact ⟨hrunning, hstored v hv⟩
  by_cases hne : src = dest
  · subst hne
    exact ⟨[src], 0, .arrived, List.nodup_singleton src, fun hne => absurd rfl hne⟩
  · obtain ⟨e, he⟩ := (hinformed src hsrc).entry_iff.2 ⟨hdest, Ne.symm hne⟩
    obtain ⟨d, row, hcost, hdist, -⟩ := (hinformed src hsrc).route hsrc hconnected he
    obtain ⟨path, hfollows, hnodup, -⟩ :=
      Topology.exists_follows hinformed hconnected hpos hdest hsrc hdist
    exact ⟨path, d, hfollows, hnodup, fun _ => ⟨e, he, hcost⟩⟩

theorem triangle_connected : triangle.Connected := by
  have hlink : ∀ u ∈ triangle.ids, ∀ v ∈ triangle.ids,
      u = v ∨ ∃ link ∈ triangle.tables u, link.destId = v := by decide +kernel
  intro u hu v hv
  rcases hlink u hu v hv with rfl | ⟨link, hmem, hdest⟩
  · exact ⟨0, .nil u⟩
  · exact ⟨_, .of_link ⟨link, hmem, hdest, rfl⟩⟩

/-- The packets of the others, for a router of the triangle. -/
def trianglePackets (v : UInt8) : List LsPacket :=
  ([65, 66, 67].filter (· ≠ v)).map fun x => ⟨x, 0, 1, triangle.tables x⟩

def triangleRouter (v : UInt8) : Router :=
  (Router.updating.run (.parsed v (triangle.rows v)) (trianglePackets v)).getD (.parsed v [])

theorem forwarding_triangle : ∃ path, ∃ c : ℕ,
    triangle.Follows triangleRouter 67 65 path c ∧ path.Nodup ∧
      ((65 : UInt8) ≠ 67 → ∃ e, (triangleRouter 65).entry 67 = some e ∧ e.cost = c) := by
  have hruns : ∀ v ∈ triangle.ids,
      Router.updating.run (.parsed v (triangle.rows v)) (trianglePackets v) ≠ none := by
    have hsome : ∀ v ∈ triangle.ids,
        (Router.updating.run (.parsed v (triangle.rows v)) (trianglePackets v)).isSome := by
      decide +kernel
    exact fun v hv => Option.isSome_iff_ne_none.1 (hsome v hv)
  have hwithin : ∀ v ∈ triangle.ids, ∀ p ∈ trianglePackets v, p.Within triangle.ids := by decide +kernel
  have hstored : ∀ v ∈ triangle.ids, ∀ x ∈ triangle.ids, x ≠ v →
      ((triangleRouter v).stored x).map LsPacket.entries = some (triangle.tables x) := by
    decide +kernel
  exact forwarding_loopFree triangle_connected (by decide +kernel)
    (fun v hv => ⟨_, hwithin v hv, (Option.getD_of_ne_none (hruns v hv) _).symm⟩)
    (fun v hv x hx hne => Option.map_eq_some_iff.1 (hstored v hv x hx hne)) (by decide) (by decide)

end NetworkSystems.LinkState
