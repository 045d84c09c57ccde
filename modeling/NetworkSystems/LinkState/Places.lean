import NetworkSystems.LinkState.Computation
import Mathlib.Data.Finset.Insert

/-!
# Places for what the search settles

The loop of `update_routing_table` has no fault exactly if every link that it settles ends at an id that
the index, the table and the current set have a place for. In a network of at most 32 ids they all do.
-/

namespace NetworkSystems.LinkState

/-- A search of a graph that takes the least link first, until all of `known` is settled: every link that
it settles from `L` on ends at an id with a place in the index, the table and the current set. -/
def Places (links : UInt8 → List LsEntry) (s : UInt8) (known : Finset UInt8)
    (L : List (Link UInt8)) : Prop :=
  ∀ M link, L <+: M → Settles (graph links) key s (M ++ [link]) →
    (∃ x ∈ known, x ∉ M.map Link.dest) →
      link.dest.toNat < 255 ∧ M.length + 1 < maxNumRouters ∧
        (insert link.dest (known ∪ (M.map Link.dest).toFinset)).card ≤ maxNumRouters

section Places

variable {links : UInt8 → List LsEntry} {s x : UInt8} {known : Finset UInt8} {L : List (Link UInt8)}
  {link : Link UInt8}

theorem places_of_ended (h : Settles (graph links) key s L)
    (hend : (∀ link, ¬ Frontier (graph links) s L link) ∨ ∀ x ∈ known, x ∈ L.map Link.dest) :
    Places links s known L := by
  intro M link hpre hsettles hout
  rcases hend with hend | hend
  · have hle := (h.prefix_of_complete key_injective hend hsettles).length_le
    have := hpre.length_le
    rw [List.length_append, List.length_singleton] at hle
    omega
  · obtain ⟨x, hx, hnotMem⟩ := hout
    exact absurd ((hpre.map Link.dest).subset (hend x hx)) hnotMem

/-- A search goes on with the least link. -/
theorem places_step (h : Settles (graph links) key s L) (hlink : Frontier (graph links) s L link)
    (hleast : ∀ other, Frontier (graph links) s L other → key link ≤ key other)
    (hout : ∃ x ∈ known, x ∉ L.map Link.dest) :
    Places links s known L ↔
      (link.dest.toNat < 255 ∧ L.length + 1 < maxNumRouters ∧
        (insert link.dest (known ∪ (L.map Link.dest).toFinset)).card ≤ maxNumRouters) ∧
      Places links s known (L ++ [link]) := by
  have hnext := h.snoc hlink hleast
  constructor
  · intro hplaces
    exact ⟨hplaces L link (List.prefix_refl L) hnext hout,
      fun M other hpre => hplaces M other ((List.prefix_append _ _).trans hpre)⟩
  · rintro ⟨hplace, hrest⟩ M other hpre hsettles hmissing
    have hM := (Settles.concat_iff.1 hsettles).1
    rcases hnext.prefix_or_prefix key_injective hM with hgrown | hle
    · exact hrest M other hgrown hsettles hmissing
    · rcases List.prefix_concat_iff.1 hle with rfl | hle
      · exact hrest _ other (List.prefix_refl _) hsettles hmissing
      · obtain rfl := hpre.eq_of_length_le hle.length_le
        have hother := (Settles.concat_iff.1 hsettles).2
        obtain rfl : link = other :=
          key_injective (le_antisymm (hleast other hother.1) (hother.2 link hlink))
        exact hplace

theorem places_insert (hx : x ∈ L.map Link.dest) :
    Places links s (insert x known) L ↔ Places links s known L := by
  have hmem : ∀ {M : List (Link UInt8)}, L <+: M → x ∈ M.map Link.dest :=
    fun hpre => (hpre.map Link.dest).subset hx
  have hunion : ∀ {M : List (Link UInt8)}, L <+: M →
      insert x known ∪ (M.map Link.dest).toFinset = known ∪ (M.map Link.dest).toFinset := by
    intro M hpre
    rw [Finset.insert_union, Finset.insert_eq_self]
    exact Finset.mem_union_right _ (List.mem_toFinset.2 (hmem hpre))
  constructor
  · intro hplaces M link hpre hsettles hout
    obtain ⟨y, hy, hnotMem⟩ := hout
    rw [← hunion hpre]
    exact hplaces M link hpre hsettles ⟨y, Finset.mem_insert_of_mem hy, hnotMem⟩
  · intro hplaces M link hpre hsettles hout
    obtain ⟨y, hy, hnotMem⟩ := hout
    rw [hunion hpre]
    rcases Finset.mem_insert.1 hy with rfl | hy
    · exact absurd (hmem hpre) hnotMem
    · exact hplaces M link hpre hsettles ⟨y, hy, hnotMem⟩

end Places

namespace Router

/-- The ids that have an entry. -/
def destIds (router : Router) : Finset UInt8 := (router.destinations.map RoutingEntry.destId).toFinset

section Search

variable {ids : Ids} {router router' : Router} {node x : UInt8} {e : RoutingEntry}
  {L M : List (Link UInt8)} {link : Link UInt8}

theorem Valid.mem_destIds (h : router.Valid) : x ∈ router.destIds ↔ router.entry x ≠ none := by
  rw [destIds, List.mem_toFinset, Option.ne_none_iff_exists']
  constructor
  · intro hx
    obtain ⟨e, he, rfl⟩ := List.mem_map.1 hx
    exact ⟨e, h.entry_of_mem he⟩
  · rintro ⟨e, he⟩
    exact List.mem_map.2 ⟨e, entry_mem he, entry_destId he⟩

theorem Valid.card_destIds (h : router.Valid) : router.destIds.card = router.destinations.length := by
  rw [destIds, List.toFinset_card_of_nodup h.nodup, List.length_map]

theorem Valid.destIds_writes (h : router.Valid) (hwrites : Writes router router' node e) :
    router'.destIds = insert node router.destIds := by
  ext x
  rw [hwrites.valid.mem_destIds, Finset.mem_insert, h.mem_destIds]
  by_cases hx : x = node
  · rw [hx, hwrites.entry_self]
    exact iff_of_true (Option.some_ne_none e) (Or.inl rfl)
  · rw [hwrites.entry_of_ne hx, or_iff_right hx]

/-- There is a place for a node exactly if the table has one for it beside the entries that it has. -/
theorem Valid.hasPlace_iff (h : router.Valid) :
    router.HasPlace x ↔ x.toNat < 255 ∧ (insert x router.destIds).card ≤ maxNumRouters := by
  rw [HasPlace]
  by_cases hx : router.entry x = none
  · have hnotMem : x ∉ router.destIds := fun hmem => h.mem_destIds.1 hmem hx
    rw [Finset.card_insert_of_notMem hnotMem, h.card_destIds]
    exact and_congr_right' ⟨fun hroom => hroom hx, fun hroom _ => hroom⟩
  · rw [Finset.insert_eq_of_mem (h.mem_destIds.2 hx), h.card_destIds]
    exact and_congr_right' (iff_of_true (fun hnone => absurd hnone hx) h.length_le)

theorem Grown.union_destIds (h : router.Grown L) :
    router.destIds ∪ (L.map Link.dest).toFinset = router.destIds := by
  rw [Finset.union_eq_left]
  intro x hx
  obtain ⟨link, hlink, rfl⟩ := List.mem_map.1 (List.mem_toFinset.1 hx)
  exact List.mem_toFinset.2 (h.dest_mem hlink)

theorem Grown.places_of_ended (h : router.Grown L) (hend : router.Ended L) :
    Places router.links router.id router.destIds L := by
  apply LinkState.places_of_ended h.settles
  refine hend.imp_right fun hall x hx => ?_
  obtain ⟨e, he⟩ := Option.ne_none_iff_exists'.1 (h.valid.mem_destIds.1 hx)
  exact hall x e he

theorem Grown.exists_destIds (h : router.Grown L) (hlength : L.length < router.destinations.length) :
    ∃ x ∈ router.destIds, x ∉ L.map Link.dest := by
  obtain ⟨e, he, hout⟩ := h.exists_notMem hlength
  exact ⟨e.destId, List.mem_toFinset.2 (List.mem_map_of_mem he), hout⟩

/-- The loop has no fault exactly if its search has a place for everything that it settles. -/
theorem Grown.compute_isSome {room : Nat} (h : router.Grown L)
    (hroom : room + L.length + 1 = maxNumRouters) :
    (Router.compute room router (router.id :: L.map Link.dest)).isSome ↔
      Places router.links router.id router.destIds L := by
  induction room generalizing router L with
  | zero =>
      rcases h.compute_cases with ⟨hend, hcompute⟩ | ⟨link, hlink, hleast, hlength, hcompute, -⟩
      · rw [hcompute]
        exact iff_of_true rfl (h.places_of_ended hend)
      · rw [hcompute]
        refine iff_of_false Bool.false_ne_true fun hplaces => ?_
        obtain ⟨-, hset, -⟩ := hplaces L link (List.prefix_refl L) (h.settles.snoc hlink hleast)
          (h.exists_destIds hlength)
        omega
  | succ room ih =>
      rcases h.compute_cases with ⟨hend, hcompute⟩ | ⟨link, hlink, hleast, hlength, -, hcompute⟩
      · rw [hcompute]
        exact iff_of_true rfl (h.places_of_ended hend)
      · have hplace := (h.settle_isSome hlink).trans h.valid.hasPlace_iff
        rw [hcompute, places_step h.settles hlink hleast (h.exists_destIds hlength), h.union_destIds]
        cases hsettle : router.settle (.encode (some link)) with
        | none =>
            rw [hsettle] at hplace
            exact iff_of_false Bool.false_ne_true
              fun hall => Bool.false_ne_true (hplace.2 ⟨hall.1.1, hall.1.2.2⟩)
        | some mid =>
            rw [hsettle] at hplace
            obtain ⟨hlt, hcard⟩ := hplace.1 rfl
            obtain ⟨e, row, hwrites, -⟩ := h.settle hlink hsettle
            obtain ⟨hmid, hkeeps, -⟩ := h.step hlink hleast hsettle
            have hrest := ih hmid (by rw [List.length_append, List.length_singleton]; omega)
            rw [hkeeps.links, h.valid.destIds_writes hwrites, places_insert (by simp)] at hrest
            rw [Option.bind_some, ← hkeeps.id, hrest, and_iff_right ⟨hlt, by omega, hcard⟩]

theorem Within.settled (hids : router.Within ids)
    (h : Settles (graph router.links) key router.id M) :
    (M.map Link.dest).toFinset ⊆ ids.set.erase router.id := by
  intro x hx
  obtain ⟨link, hlink, rfl⟩ := List.mem_map.1 (List.mem_toFinset.1 hx)
  obtain ⟨d, c, -, hedge, -⟩ := h.graph_link hlink
  exact Finset.mem_erase.2 ⟨h.dest_ne hlink, hids.links hedge⟩

theorem Valid.destIds_subset (h : router.Valid) (hids : router.Within ids) :
    router.destIds ⊆ ids.set.erase router.id := by
  intro x hx
  obtain ⟨e, he⟩ := Option.ne_none_iff_exists'.1 (h.mem_destIds.1 hx)
  exact Finset.mem_erase.2 ⟨h.ne_of_entry he, hids.entry x e he⟩

theorem Within.card_erase_lt (hids : router.Within ids) :
    (ids.set.erase router.id).card < maxNumRouters := by
  rw [Finset.card_erase_of_mem hids.id]
  have hpos : 0 < ids.set.card := Finset.card_pos.2 ⟨_, hids.id⟩
  have := ids.card_le
  omega

theorem Valid.places (h : router.Valid) (hids : router.Within ids) (L : List (Link UInt8)) :
    Places router.links router.id router.destIds L := by
  intro M link hpre hsettles hout
  have hsettled := hids.settled hsettles
  have hnodup := hsettles.nodup
  have hcard := (Finset.card_le_card hsettled).trans_lt hids.card_erase_lt
  rw [List.toFinset_card_of_nodup hnodup, List.length_map, List.length_append,
    List.length_singleton] at hcard
  rw [List.map_append, List.toFinset_append, Finset.union_subset_iff, List.map_singleton] at hsettled
  have hlink := hsettled.2 (List.mem_toFinset.2 (List.mem_singleton.2 rfl))
  have hsub : insert link.dest (router.destIds ∪ (M.map Link.dest).toFinset) ⊆
      ids.set.erase router.id :=
    Finset.insert_subset hlink (Finset.union_subset (h.destIds_subset hids) hsettled.1)
  exact ⟨Ids.toNat_lt (Finset.mem_of_mem_erase hlink), hcard,
    (Finset.card_le_card hsub).trans hids.card_erase_lt.le⟩

theorem Grown.exists_compute (room : Nat) (h : router.Grown L) (hids : router.Within ids)
    (hroom : room + L.length + 1 = maxNumRouters) :
    ∃ router', Router.compute room router (router.id :: L.map Link.dest) = some router' :=
  Option.isSome_iff_exists.1 ((h.compute_isSome hroom).2 (h.valid.places hids L))

end Search

end Router

end NetworkSystems.LinkState
