import NetworkSystems.LinkState.Entries

/-!
# The order of arrival

The last computation runs on the same graph whatever the order of the packets, but it stops as soon as it
has as many nodes as the table has destinations. So two orders lead to trees one of which is a prefix of
the other, and all orders lead to the same one exactly if none of them makes an entry for a node beyond the
origins.
-/

namespace NetworkSystems.LinkState

namespace Router

def Extends (router router' : Router) : Prop :=
  ∀ x route, router'.forwarding x = some route → router.forwarding x = some route

section Orders

variable {ids : Ids} {id : UInt8} {rows : List Neighbor} {packets packets' : List LsPacket}
  {router router' : Router} {L M : List (Link UInt8)} {x : UInt8}

/-- Packets numbered from 1 count in every order. -/
theorem exists_routed (hid : id ∈ ids) (hids : ∀ row ∈ rows, row.nodeId ∈ ids)
    (hrows : rows.length ≤ maxNumRouters) (hpackets : Distinct ids id packets) :
    ∃ router L, updating.run (parsed id rows) packets = some router ∧ router.id = id ∧
      router.Routed rows packets L := by
  obtain ⟨router, L, hrun, hrid, h⟩ := exists_ordered hid hids hrows
    (hpackets.toApart.perm (List.reverse_perm packets).symm)
    (counting_of_seqNum fun p hp => hpackets.seqNum p (List.mem_reverse.1 hp))
  rw [List.reverse_reverse] at hrun
  exact ⟨router, L, hrun, hrid, h.grown, h.ended, h.rows,
    fun x p => (h.stored x p).trans (and_congr_left' List.mem_reverse), h.fresh⟩

theorem Routed.extends (h : router.Routed rows packets L) (h' : router'.Routed rows packets' M)
    (hid : router'.id = router.id) (hsub : L <+: M) : router'.Extends router := by
  intro x route hroute
  obtain ⟨link, hlink, g, hdest, hvia, rfl⟩ := h.forwarding_eq.1 hroute
  exact h'.forwarding_eq.2
    ⟨link, hsub.subset hlink, g, hdest, hid ▸ hvia.mono hsub.subset, rfl⟩

theorem Routed.prefix_or_prefix (h : router.Routed rows packets L) (h' : router'.Routed rows packets M)
    (hid : router'.id = router.id) (hself : ∀ p ∈ packets, p.origin ≠ router.id) :
    L <+: M ∨ M <+: L := by
  have hL := h.grown.settles
  have hM := h'.grown.settles
  rw [h.graph_iff hself] at hL
  rw [h'.graph_iff (hid ▸ hself), hid] at hM
  exact hL.prefix_or_prefix key_injective hM

theorem Routed.forwarding_origin (h : router.Routed rows packets L)
    (h' : router'.Routed rows packets M) (hid : router'.id = router.id)
    (hself : ∀ p ∈ packets, p.origin ≠ router.id) {packet : LsPacket} (hpacket : packet ∈ packets)
    {route : Int × Option UInt8} (hroute : router.forwarding packet.origin = some route) :
    router'.forwarding packet.origin = some route := by
  obtain ⟨link, hlink, g, hdest, hvia, rfl⟩ := h.forwarding_eq.1 hroute
  have hmem : packet.origin ∈ L.map Link.dest := hdest ▸ List.mem_map_of_mem hlink
  obtain ⟨e, he, -⟩ := stored_eq_some.1 ((h'.stored _ packet).2 ⟨hpacket, rfl⟩)
  obtain ⟨c, hwalk⟩ := h.grown.walk hmem
  rw [h.graph_iff hself, ← hid, ← h'.graph_iff (hid ▸ hself)] at hwalk
  have hmem' := h'.grown.mem_of_walk h'.ended he hwalk
  obtain ⟨link', hlink', hdest'⟩ := List.mem_map.1 hmem'
  refine h'.forwarding_eq.2 ?_
  rcases h.prefix_or_prefix h' hid hself with hsub | hsub
  · exact ⟨link, hsub.subset hlink, g, hdest, hid ▸ hvia.mono hsub.subset, rfl⟩
  · have heq := h.grown.settles.eq_of_dest (hsub.subset hlink') hlink (hdest'.trans hdest.symm)
    obtain ⟨g', hvia'⟩ := h'.grown.settles.exists_via hlink'
    have hsame := h.grown.settles.via_unique hvia (hdest' ▸ hid ▸ hvia'.mono hsub.subset)
    rw [hdest'] at hvia'
    exact ⟨link', hlink', g', hdest', hvia', by rw [heq, hsame]⟩

end Orders

end Router

/-! ### When the order makes no difference -/

/-- All orders of the packets end in one forwarding table. -/
def Independent (id : UInt8) (rows : List Neighbor) (packets : List LsPacket) : Prop :=
  ∃ table, ∀ order, order.Perm packets →
    ∃ router, Router.updating.run (.parsed id rows) order = some router ∧ router.forwarding = table

/-- In no order has a node an entry, before the last packet comes, that the search over all links announced
settles only after it has settled all the origins. -/
def NoneBeyond (id : UInt8) (rows : List Neighbor) (packets : List LsPacket) : Prop :=
  ∀ packet earlier, (packet :: earlier).Perm packets → ∀ x, Entered id rows earlier x →
    ∀ L, Settles (Announced id rows packets) key id L → (∀ p ∈ packets, p.origin ∈ L.map Link.dest) →
      x ∈ L.map Link.dest

section Independent

variable {ids : Ids} {id : UInt8} {rows : List Neighbor} {packets order : List LsPacket}
  {router router' : Router} {L M : List (Link UInt8)} {x : UInt8}

/-- When the packets come in the order in which the search over all links settles their origins, no node
has an entry beyond the last of these. -/
theorem entered_of_sorted (hL : Settles (Announced id rows packets) key id L)
    (hself : ∀ p ∈ packets, p.origin ≠ id) (hall : ∀ p ∈ packets, p.origin ∈ L.map Link.dest)
    (hsub : order ⊆ packets)
    (hsorted : order.Pairwise fun p q =>
      (L.map Link.dest).idxOf q.origin < (L.map Link.dest).idxOf p.origin)
    (hclosed : ∀ p ∈ packets, p ∈ order ∨ ∀ q ∈ order,
      (L.map Link.dest).idxOf q.origin < (L.map Link.dest).idxOf p.origin)
    (hx : Entered id rows order x) :
    ∃ p ∈ order, x ∈ (L.take ((L.map Link.dest).idxOf p.origin + 1)).map Link.dest := by
  induction order generalizing x with
  | nil => exact hx.elim
  | cons packet earlier ih =>
      obtain ⟨hpacket, hsub'⟩ := List.cons_subset.1 hsub
      obtain ⟨hlast, hsorted'⟩ := List.pairwise_cons.1 hsorted
      have hclosed' : ∀ p ∈ packets, p ∈ earlier ∨ ∀ q ∈ earlier,
          (L.map Link.dest).idxOf q.origin < (L.map Link.dest).idxOf p.origin := by
        intro p hp
        rcases hclosed p hp with hmem | hbehind
        · rcases List.mem_cons.1 hmem with rfl | hmem
          · exact Or.inr hlast
          · exact Or.inl hmem
        · exact Or.inr fun q hq => hbehind q (List.mem_cons_of_mem _ hq)
      -- the part of the tree up to the origin of the packet
      let K := L.take ((L.map Link.dest).idxOf packet.origin + 1)
      have hin : ∀ p ∈ packets, p.origin ∈ K.map Link.dest ↔
          (L.map Link.dest).idxOf p.origin ≤ (L.map Link.dest).idxOf packet.origin := by
        intro p hp
        rw [List.map_take, List.mem_take_iff_idxOf_lt (hall p hp), Nat.lt_succ_iff]
      have hK : Settles (Announced id rows packets) key id K :=
        (show Settles _ _ _ (K ++ L.drop _) by rwa [List.take_append_drop]).of_append
      have hgrown : Settles (Announced id rows (packet :: earlier)) key id K := by
        refine hK.restrict (fun _ _ _ => .mono hsub) fun link hlink v c hedge => ?_
        refine hedge.imp_right fun ⟨p, hp, horigin, hentry⟩ => ?_
        rcases hclosed p hp with hmem | hbehind
        · exact ⟨p, hmem, horigin, hentry⟩
        · obtain ⟨d, -, ⟨hsrc, -⟩ | ⟨l, hl, hsrc, -⟩, -⟩ := hK.graph_link hlink
          · exact absurd (horigin.trans hsrc) (hself p hp)
          · have hle := (hin p hp).1 (horigin.trans hsrc.symm ▸ List.mem_map_of_mem hl)
            exact absurd hle (Nat.not_le.2 (hbehind packet List.mem_cons_self))
      have hbefore : ∀ y, (y = packet.origin ∨ Entered id rows earlier y) → y ∈ K.map Link.dest := by
        rintro y (rfl | hy)
        · exact (hin packet hpacket).2 le_rfl
        · obtain ⟨p, hp, hmem⟩ := ih hsub' hsorted' hclosed' hy
          have hpre := List.take_prefix_take_left (l := L)
            (show (L.map Link.dest).idxOf p.origin + 1 ≤ (L.map Link.dest).idxOf packet.origin + 1 from
              Nat.succ_le_succ (hlast p hp).le)
          exact (hpre.map Link.dest).subset hmem
      rcases hx with hx | ⟨J, link, hJ, rfl, y, hy, hout⟩
      · exact ⟨packet, List.mem_cons_self, hbefore x hx⟩
      · refine ⟨packet, List.mem_cons_self, List.mem_map_of_mem ?_⟩
        exact hgrown.mem_of_concat key_injective (Or.inr hbefore) hJ hy hout

theorem exists_order_within (hL : Settles (Announced id rows packets) key id L)
    (hpackets : Apart ids id packets) (hall : ∀ p ∈ packets, p.origin ∈ L.map Link.dest) :
    ∃ order, order.Perm packets ∧ ∀ x, Entered id rows order x → x ∈ L.map Link.dest := by
  let le (p q : LsPacket) : Bool :=
    decide ((L.map Link.dest).idxOf q.origin ≤ (L.map Link.dest).idxOf p.origin)
  have hperm := packets.mergeSort_perm le
  refine ⟨packets.mergeSort le, hperm, fun x hx => ?_⟩
  have hsorted : (packets.mergeSort le).Pairwise fun p q => le p q :=
    List.pairwise_mergeSort (by simp only [le, decide_eq_true_eq]; omega)
      (by simp only [le, Bool.or_eq_true, decide_eq_true_eq]; omega) packets
  have hnodup := (hpackets.perm hperm.symm).nodup
  have hstrict : (packets.mergeSort le).Pairwise fun p q =>
      (L.map Link.dest).idxOf q.origin < (L.map Link.dest).idxOf p.origin := by
    refine (hsorted.and (List.pairwise_map.1 hnodup)).imp_of_mem fun hp hq ⟨hle, hne⟩ => ?_
    refine Nat.lt_of_le_of_ne (of_decide_eq_true hle) fun heq => hne ?_
    exact ((List.idxOf_inj (hall _ (hperm.mem_iff.1 hq))).1 heq).symm
  obtain ⟨p, -, hmem⟩ := entered_of_sorted hL hpackets.ne hall hperm.subset hstrict
    (fun p hp => Or.inl (hperm.mem_iff.2 hp)) hx
  exact ((List.take_prefix _ L).map Link.dest).subset hmem

theorem noneBeyond_of_origins (hself : ∀ p ∈ packets, p.origin ≠ id)
    (hall : ∀ x, Reachable id rows packets x → x = id ∨ ∃ p ∈ packets, p.origin = x) :
    NoneBeyond id rows packets := by
  intro packet earlier hperm x hx L hL horigins
  have hself' : ∀ p ∈ packet :: earlier, p.origin ≠ id := fun p hp => hself p (hperm.subset hp)
  have hentered : Entered id rows (packet :: earlier) x := Or.inl (Or.inr hx)
  obtain ⟨p, hp, rfl⟩ : ∃ p ∈ packets, p.origin = x := by
    rcases hentered.origin_or_reachable with ⟨p, hp, horigin⟩ | ⟨c, hwalk⟩
    · exact ⟨p, hperm.subset hp, horigin⟩
    · exact (hall x ⟨c, hwalk.mono fun _ _ _ => .mono hperm.subset⟩).resolve_left (hentered.ne hself')
  exact horigins p hp

theorem noneBeyond_of_unreachable (hout : ∃ p ∈ packets, ¬ Reachable id rows packets p.origin) :
    NoneBeyond id rows packets := by
  intro packet earlier hperm x hx L hL horigins
  obtain ⟨p, hp, hout⟩ := hout
  obtain ⟨link, hlink, hdest⟩ := List.mem_map.1 (horigins p hp)
  exact absurd ⟨_, (hL.isDist (fun _ _ => key_cost) (Or.inr ⟨link, hlink, hdest, rfl⟩)).1⟩ hout

theorem exists_ordered_of_perm (hid : id ∈ ids) (hids : ∀ row ∈ rows, row.nodeId ∈ ids)
    (hrows : rows.length ≤ maxNumRouters) (hpackets : Apart ids id packets)
    (hcounts : ∀ order, order.Perm packets → Counting id rows order) (hperm : order.Perm packets) :
    ∃ router L, Router.updating.run (.parsed id rows) order.reverse = some router ∧ router.id = id ∧
      router.Ordered rows order L ∧ Settles (Announced id rows packets) key id L := by
  have hself := (hpackets.perm hperm.symm).ne
  obtain ⟨router, L, hrun, rfl, h⟩ :=
    Router.exists_ordered hid hids hrows (hpackets.perm hperm.symm) (hcounts order hperm)
  refine ⟨router, L, hrun, rfl, h, ?_⟩
  rw [← announced_of_perm hperm, ← h.graph_iff hself]
  exact h.grown.settles

/-- Of two orders, the one with the smaller tree has settled all that the other one waits for. -/
theorem NoneBeyond.tree_eq {order' : List LsPacket} (h : NoneBeyond id rows packets)
    (hself : ∀ p ∈ packets, p.origin ≠ id) (hperm : order.Perm packets) (hperm' : order'.Perm packets)
    (hrid : router.id = id) (hrid' : router'.id = id) (hL : router.Ordered rows order L)
    (hM : router'.Ordered rows order' M) (hsettles : Settles (Announced id rows packets) key id L)
    (hsettles' : Settles (Announced id rows packets) key id M) (hpre : L <+: M) : L = M := by
  have hcovers := hL.covers (hrid ▸ fun p hp => hself p (hperm.subset hp))
  rw [hrid, announced_of_perm hperm] at hcovers
  rcases hcovers with hend | hcovers
  · exact hpre.eq_of_length_le (hsettles.prefix_of_complete key_injective hend hsettles').length_le
  · by_contra hne
    obtain ⟨y, hy, hout⟩ := hM.least L hpre hne
    have hall : ∀ p ∈ packets, p.origin ∈ L.map Link.dest := fun p hp =>
      hcovers _ (awaited_of_mem (hperm.mem_iff.2 hp))
    rw [hrid'] at hy
    cases order' with
    | nil => exact hy
    | cons packet earlier =>
        rcases hy with rfl | hy
        · exact hout (hall packet (hperm'.subset List.mem_cons_self))
        · exact hout (h packet earlier hperm' y hy L hsettles hall)

theorem NoneBeyond.independent (h : NoneBeyond id rows packets) (hid : id ∈ ids)
    (hids : ∀ row ∈ rows, row.nodeId ∈ ids) (hrows : rows.length ≤ maxNumRouters)
    (hpackets : Apart ids id packets) (hcounts : ∀ order, order.Perm packets → Counting id rows order) :
    Independent id rows packets := by
  obtain ⟨router, L, hrun, hrid, hL, hsettles⟩ :=
    exists_ordered_of_perm hid hids hrows hpackets hcounts (.refl packets)
  refine ⟨router.forwarding, fun order hperm => ?_⟩
  have hperm' := (List.reverse_perm order).trans hperm
  obtain ⟨router', M, hrun', hrid', hM, hsettles'⟩ :=
    exists_ordered_of_perm hid hids hrows hpackets hcounts hperm'
  rw [List.reverse_reverse] at hrun'
  have heq : L = M := by
    rcases hsettles.prefix_or_prefix key_injective hsettles' with hpre | hpre
    · exact h.tree_eq hpackets.ne (.refl _) hperm' hrid hrid' hL hM hsettles hsettles' hpre
    · exact (h.tree_eq hpackets.ne hperm' (.refl _) hrid' hrid hM hL hsettles' hsettles hpre).symm
  subst heq
  refine ⟨router', hrun', funext fun x => Option.ext fun route => ?_⟩
  rw [hM.forwarding_eq, hL.forwarding_eq, hrid, hrid']

/-- The order that goes beyond no origin ends in the smallest tree, so in no other one has a node beyond
the origins an entry. -/
theorem Independent.noneBeyond (h : Independent id rows packets) (hid : id ∈ ids)
    (hids : ∀ row ∈ rows, row.nodeId ∈ ids) (hrows : rows.length ≤ maxNumRouters)
    (hpackets : Apart ids id packets) (hcounts : ∀ order, order.Perm packets → Counting id rows order) :
    NoneBeyond id rows packets := by
  intro packet earlier hperm x hx L hL hall
  obtain ⟨table, htable⟩ := h
  obtain ⟨sorted, hsorted, hwithin⟩ := exists_order_within hL hpackets hall
  obtain ⟨router, M, hrun, hrid, h, -⟩ := exists_ordered_of_perm hid hids hrows hpackets hcounts hperm
  obtain ⟨router', M', hrun', hrid', h', -⟩ :=
    exists_ordered_of_perm hid hids hrows hpackets hcounts hsorted
  obtain ⟨_, heq, htab⟩ := htable _ ((List.reverse_perm _).trans hperm)
  obtain ⟨_, heq', htab'⟩ := htable _ ((List.reverse_perm _).trans hsorted)
  obtain rfl := Option.some.inj (hrun.symm.trans heq)
  obtain rfl := Option.some.inj (hrun'.symm.trans heq')
  have hentered : Entered id rows (packet :: earlier) x := Or.inl (Or.inr hx)
  rcases hentered.origin_or_reachable with ⟨p, hp, rfl⟩ | ⟨c, hwalk⟩
  · exact hall p (hperm.subset hp)
  · -- the table has a route to what has an entry and can be reached
    obtain ⟨e, he⟩ := Option.ne_none_iff_exists'.1 ((h.entered x).2 (hrid ▸ hentered))
    have hself := (hpackets.perm hperm.symm).ne
    rw [← hrid, ← h.graph_iff (hrid ▸ hself)] at hwalk
    obtain ⟨link, hlink, rfl⟩ := List.mem_map.1 (h.grown.mem_of_walk h.ended he hwalk)
    obtain ⟨g, hvia⟩ := h.grown.settles.exists_via hlink
    have hroute := h.forwarding_eq.2 ⟨link, hlink, g, rfl, hvia, rfl⟩
    rw [htab, ← htab', h'.forwarding_eq] at hroute
    obtain ⟨link', hlink', -, hdest, -⟩ := hroute
    refine hwithin _ (hrid' ▸ (h'.entered _).1 ?_)
    obtain ⟨e', -, he', -⟩ := h'.grown.routed link' hlink'
    rw [← hdest, he']
    exact Option.some_ne_none e'

end Independent

/-- **When the order makes no difference**, for packets that count in every order: exactly if no order makes
an entry for a node beyond the origins before its last packet. -/
theorem forwarding_perm_iff {ids : Ids} {id : UInt8} {rows : List Neighbor} {packets : List LsPacket}
    (hid : id ∈ ids) (hids : ∀ row ∈ rows, row.nodeId ∈ ids) (hrows : rows.length ≤ maxNumRouters)
    (hpackets : Apart ids id packets) (hcounts : ∀ order, order.Perm packets → Counting id rows order) :
    Independent id rows packets ↔ NoneBeyond id rows packets :=
  ⟨fun h => h.noneBeyond hid hids hrows hpackets hcounts,
    fun h => h.independent hid hids hrows hpackets hcounts⟩

/-- **The order of arrival.** In two orders of the same packets, the routes of one table are among those
of the other, and every origin has the same route. The tables are equal when an origin is out of reach,
or when all nodes that can be reached are origins. -/
theorem forwarding_of_perm {ids : Ids} {id : UInt8} {rows : List Neighbor} {packets packets' : List LsPacket}
    (hid : id ∈ ids) (hids : ∀ row ∈ rows, row.nodeId ∈ ids) (hrows : rows.length ≤ maxNumRouters)
    (hpackets : Distinct ids id packets) (hperm : packets.Perm packets') :
    ∃ router router', Router.updating.run (.parsed id rows) packets = some router ∧
      Router.updating.run (.parsed id rows) packets' = some router' ∧
      (router.Extends router' ∨ router'.Extends router) ∧
      (∀ packet ∈ packets, router.forwarding packet.origin = router'.forwarding packet.origin) ∧
      ((∃ packet ∈ packets, ¬ Reachable id rows packets packet.origin) ∨
        (∀ x, Reachable id rows packets x → x = id ∨ ∃ packet ∈ packets, packet.origin = x) →
        router.forwarding = router'.forwarding) := by
  have hpackets' : Distinct ids id packets' :=
    ⟨hpackets.toApart.perm hperm, fun p hp => hpackets.seqNum p (hperm.mem_iff.2 hp)⟩
  obtain ⟨router, L, hrun, rfl, h⟩ := Router.exists_routed hid hids hrows hpackets
  obtain ⟨router', M, hrun', hid', hrouted⟩ := Router.exists_routed hid hids hrows hpackets'
  have h' : router'.Routed rows packets M :=
    ⟨hrouted.grown, hrouted.ended, hrouted.rows,
      fun x p => (hrouted.stored x p).trans (and_congr_left' hperm.mem_iff.symm), hrouted.fresh⟩
  have hself := hpackets.ne
  have hself' : ∀ p ∈ packets, p.origin ≠ router'.id := hid' ▸ hself
  have horigin : ∀ packet ∈ packets,
      router.forwarding packet.origin = router'.forwarding packet.origin := by
    intro packet hpacket
    refine Option.ext fun route => ⟨fun hroute => ?_, fun hroute => ?_⟩
    · exact h.forwarding_origin h' hid' hself hpacket hroute
    · exact h'.forwarding_origin h hid'.symm hself' hpacket hroute
  refine ⟨router, router', hrun, hrun', ?_, horigin, ?_⟩
  · rcases h.prefix_or_prefix h' hid' hself with hsub | hsub
    · exact Or.inr (h.extends h' hid' hsub)
    · exact Or.inl (h'.extends h hid'.symm hsub)
  · intro hcase
    have hnone : NoneBeyond router.id rows packets :=
      hcase.elim noneBeyond_of_unreachable (noneBeyond_of_origins hself)
    obtain ⟨table, htable⟩ := hnone.independent hid hids hrows hpackets.toApart fun order hperm =>
      counting_of_seqNum fun p hp => hpackets.seqNum p (hperm.subset hp)
    obtain ⟨_, heq, htab⟩ := htable packets .rfl
    obtain ⟨_, heq', htab'⟩ := htable packets' hperm.symm
    obtain rfl := Option.some.inj (hrun.symm.trans heq)
    obtain rfl := Option.some.inj (hrun'.symm.trans heq')
    exact htab.trans htab'.symm

/-- The ids of a small network. -/
def fiveIds : Ids := ⟨{65, 66, 67, 88, 90}, by decide, by decide +kernel⟩

/-- Two packets, neither of them of the neighbor 90 of router 65. -/
def unheard : List LsPacket := [⟨66, 0, 1, [⟨65, 1⟩, ⟨88, 1⟩]⟩, ⟨88, 0, 1, [⟨66, 1⟩]⟩]

/-- Two packets, the first of them without a number. -/
def unnumbered : List LsPacket := [⟨66, 0, 0, [⟨65, 1⟩, ⟨67, 1⟩]⟩, ⟨88, 0, 1, []⟩]

theorem forwarding_perm_iff_unheard :
    ¬ NoneBeyond 65 [⟨66, 1, 3⟩, ⟨90, 100, 4⟩] unheard ∧ Independent 65 [⟨66, 1, 3⟩] unheard := by
  have hapart : Apart fiveIds 65 unheard := ⟨by decide, by decide, by decide⟩
  have hcounts : ∀ (rows : List Neighbor) (order : List LsPacket), order.Perm unheard → Counting 65 rows order :=
    fun _ _ hperm => counting_of_seqNum fun p hp =>
      (show ∀ p ∈ unheard, p.seqNum ≠ 0 by decide) p (hperm.subset hp)
  constructor
  · rw [← forwarding_perm_iff (show 65 ∈ fiveIds by decide) (by decide) (by decide) hapart (hcounts _)]
    rintro ⟨table, htable⟩
    obtain ⟨router, hrun, hrouter⟩ := htable unheard .rfl
    obtain ⟨router', hrun', hrouter'⟩ := htable unheard.reverse (List.reverse_perm _)
    have hnone : ((Router.updating.run (.parsed 65 [⟨66, 1, 3⟩, ⟨90, 100, 4⟩]) unheard).map fun router =>
        router.forwarding 90) = some none := by decide +kernel
    have hsome : ((Router.updating.run (.parsed 65 [⟨66, 1, 3⟩, ⟨90, 100, 4⟩]) unheard.reverse).map
        fun router => router.forwarding 90) = some (some (100, some 90)) := by decide +kernel
    rw [hrun, Option.map_some, hrouter] at hnone
    rw [hrun', Option.map_some, hrouter', hnone] at hsome
    cases hsome
  · refine (forwarding_perm_iff (show 65 ∈ fiveIds by decide) (by decide) (by decide) hapart (hcounts _)).2 ?_
    refine noneBeyond_of_origins hapart.ne fun x ⟨c, hwalk⟩ => ?_
    -- no link leads out of the router and the two origins
    have hclosed : x = 65 ∨ x = 66 ∨ x = 88 := by
      induction hwalk with
      | nil => exact Or.inl rfl
      | snoc hwalk hlink ih =>
          rcases hlink with ⟨-, row, hrow, rfl, -⟩ | ⟨packet, hpacket, -, entry, hentry, rfl, -⟩
          · exact (show ∀ row ∈ [(⟨66, 1, 3⟩ : Neighbor)], row.nodeId = 65 ∨ row.nodeId = 66 ∨ row.nodeId = 88 by
              decide) row hrow
          · exact (show ∀ packet ∈ unheard, ∀ entry ∈ packet.entries,
              entry.destId = 65 ∨ entry.destId = 66 ∨ entry.destId = 88 by decide) packet hpacket entry hentry
    exact hclosed.imp_right fun h => h.elim (fun h => ⟨_, List.mem_cons_self, h.symm⟩)
      fun h => ⟨_, List.mem_cons_of_mem _ List.mem_cons_self, h.symm⟩

/-- In one order the neighbor 90 has a route, in the other it has none. And a packet without a number
counts only when no other packet has mentioned its origin before. -/
theorem forwarding_depends_on_order :
    (∀ packets ∈ [unheard, unnumbered], (packets.map LsPacket.origin).Nodup ∧
      ∀ packet ∈ packets, packet.origin ≠ 65 ∧ packet.Within fiveIds) ∧
    ((Router.updating.run (.parsed 65 [⟨66, 1, 3⟩, ⟨90, 100, 4⟩]) unheard).map fun router =>
      router.forwarding 90) = some none ∧
    ((Router.updating.run (.parsed 65 [⟨66, 1, 3⟩, ⟨90, 100, 4⟩]) unheard.reverse).map fun router =>
      router.forwarding 90) = some (some (100, some 90)) ∧
    ((Router.updating.run (.parsed 65 [⟨66, 1, 3⟩, ⟨67, 5, 4⟩]) unnumbered).map fun router =>
      router.forwarding 67) = some (some (2, some 66)) ∧
    ((Router.updating.run (.parsed 65 [⟨66, 1, 3⟩, ⟨67, 5, 4⟩]) unnumbered.reverse).map fun router =>
      router.forwarding 67) = some (some (5, some 67)) := by
  decide +kernel

end NetworkSystems.LinkState
