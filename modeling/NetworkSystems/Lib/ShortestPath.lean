import Mathlib.Order.Lattice
import Mathlib.Data.List.Induction
import Mathlib.Data.List.Infix
import Mathlib.Data.List.Nodup

/-!
# Growing a shortest-path tree

A graph is a relation `E u v c`, a link from `u` to `v` of cost `c`. The tree rooted at `s` grows by one
link at a time: among the links that lead out of it, one whose total cost from the root is least. Ties
are broken by the order of a key, so the sequence of links is determined, and two sequences for one graph
are prefixes of one another.
-/

namespace NetworkSystems

universe u v

variable {V : Type u}

/-- A walk from one vertex to another, and its cost. -/
inductive Walk (E : V → V → ℕ → Prop) : V → V → ℕ → Prop
  | nil (x : V) : Walk E x x 0
  | snoc {x y z : V} {c d : ℕ} (h : Walk E x y c) (hlink : E y z d) : Walk E x z (c + d)

/-- The least cost of a walk. -/
def IsDist (E : V → V → ℕ → Prop) (x y : V) (d : ℕ) : Prop :=
  Walk E x y d ∧ ∀ c, Walk E x y c → d ≤ c

/-- A link out of the tree. Its cost is the total one, from the root. -/
structure Link (V : Type u) where
  src : V
  dest : V
  cost : ℕ

/-- `x` is in the tree, at distance `d` from the root. -/
def At (s : V) (L : List (Link V)) (x : V) (d : ℕ) : Prop :=
  x = s ∧ d = 0 ∨ ∃ link ∈ L, link.dest = x ∧ link.cost = d

/-- A link from the tree to a vertex that is not in it. -/
def Frontier (E : V → V → ℕ → Prop) (s : V) (L : List (Link V)) (link : Link V) : Prop :=
  (∃ d c, At s L link.src d ∧ E link.src link.dest c ∧ link.cost = d + c) ∧
    ∀ d, ¬ At s L link.dest d

/-- The tree has grown by these links, in this order: each was the least one out of the tree. -/
inductive Settles {K : Type v} [LE K] (E : V → V → ℕ → Prop) (key : Link V → K) (s : V) :
    List (Link V) → Prop
  | nil : Settles E key s []
  | snoc {L : List (Link V)} {link : Link V} (h : Settles E key s L) (hlink : Frontier E s L link)
      (hleast : ∀ other, Frontier E s L other → key link ≤ key other) : Settles E key s (L ++ [link])

/-- The neighbor of the root through which the tree reaches a vertex. -/
inductive Via (s : V) (L : List (Link V)) : V → V → Prop
  | direct {link : Link V} (hmem : link ∈ L) (hsrc : link.src = s) : Via s L link.dest link.dest
  | through {link : Link V} {g : V} (hmem : link ∈ L) (hsrc : link.src ≠ s) (h : Via s L link.src g) :
      Via s L link.dest g

/-- `g` is the first hop of a shortest walk from `s` to `x`. -/
def FirstHop (E : V → V → ℕ → Prop) (s g x : V) : Prop :=
  ∃ c d, E s g c ∧ Walk E g x d ∧ IsDist E s x (c + d)

section Walks

variable {E : V → V → ℕ → Prop} {s x y z g : V} {c d : ℕ}

theorem Walk.trans (h : Walk E x y c) (h' : Walk E y z d) : Walk E x z (c + d) := by
  induction h' with
  | nil => exact h
  | snoc _ hlink ih =>
      rw [← Nat.add_assoc]
      exact ih.snoc hlink

theorem Walk.of_link (h : E x y c) : Walk E x y c := by
  rw [← Nat.zero_add c]
  exact (Walk.nil x).snoc h

theorem IsDist.unique (h : IsDist E x y c) (h' : IsDist E x y d) : c = d :=
  Nat.le_antisymm (h.2 d h'.1) (h'.2 c h.1)

theorem isDist_self (E : V → V → ℕ → Prop) (x : V) : IsDist E x x 0 :=
  ⟨.nil x, fun _ _ => Nat.zero_le _⟩

theorem IsDist.of_link (h : IsDist E s x (c + d)) (hlink : E s g c) (hwalk : Walk E g x d) :
    IsDist E g x d :=
  ⟨hwalk, fun _ hw => Nat.le_of_add_le_add_left (h.2 _ ((Walk.of_link hlink).trans hw))⟩

theorem IsDist.link_le {c' : ℕ} (h : IsDist E s x (c + d)) (hlink : E s g c') (hwalk : Walk E g x d) :
    c ≤ c' :=
  Nat.le_of_add_le_add_right (h.2 _ ((Walk.of_link hlink).trans hwalk))

theorem Walk.mono {E' : V → V → ℕ → Prop} (himp : ∀ x y c, E x y c → E' x y c) (h : Walk E x y c) :
    Walk E' x y c := by
  induction h with
  | nil => exact .nil _
  | snoc _ hlink ih => exact ih.snoc (himp _ _ _ hlink)

end Walks

section Growth

variable {K : Type v} [LinearOrder K] {E : V → V → ℕ → Prop} {key : Link V → K} {s x y g : V}
  {L M : List (Link V)} {link : Link V} {c d : ℕ}

theorem At.mono (h : At s L x d) (hsub : L ⊆ M) : At s M x d :=
  h.imp_right fun ⟨l, hl, hdest, hcost⟩ => ⟨l, hsub hl, hdest, hcost⟩

theorem at_concat : At s (L ++ [link]) x d ↔ At s L x d ∨ link.dest = x ∧ link.cost = d := by
  constructor
  · rintro (h | ⟨l, hl, hdest, hcost⟩)
    · exact Or.inl (Or.inl h)
    · rcases List.mem_append.1 hl with hl | hl
      · exact Or.inl (Or.inr ⟨l, hl, hdest, hcost⟩)
      · rw [List.mem_singleton.1 hl] at hdest hcost
        exact Or.inr ⟨hdest, hcost⟩
  · rintro (h | h)
    · exact h.mono (List.subset_append_left _ _)
    · exact Or.inr ⟨link, by simp, h⟩

theorem Frontier.src_ne_dest (h : Frontier E s L link) : link.src ≠ link.dest := by
  obtain ⟨⟨d, -, hsrc, -⟩, hout⟩ := h
  exact fun heq => hout d (heq ▸ hsrc)

theorem Frontier.dest_ne (h : Frontier E s L link) : link.dest ≠ s :=
  fun heq => h.2 0 (Or.inl ⟨heq, rfl⟩)

/-- A walk that leaves the tree does so over a link that costs no more than the whole walk. -/
theorem exists_frontier_of_walk (hL : ∀ x d, At s L x d → IsDist E s x d) (hwalk : Walk E s x c)
    (hout : ∀ d, ¬ At s L x d) : ∃ link, Frontier E s L link ∧ link.cost ≤ c := by
  induction hwalk with
  | nil => exact absurd (Or.inl ⟨rfl, rfl⟩) (hout 0)
  | @snoc x y c d hwalk hlink ih =>
      by_cases hin : ∃ d, At s L x d
      · obtain ⟨dx, hx⟩ := hin
        exact ⟨⟨x, y, dx + d⟩, ⟨⟨dx, d, hx, hlink, rfl⟩, hout⟩,
          Nat.add_le_add_right ((hL x dx hx).2 c hwalk) d⟩
      · obtain ⟨link, hfrontier, hle⟩ := ih fun d hd => hin ⟨d, hd⟩
        exact ⟨link, hfrontier, Nat.le_add_right_of_le hle⟩

/-- The end of a cheapest link out of the tree is at that distance. -/
theorem Frontier.isDist (hlink : Frontier E s L link) (hL : ∀ x d, At s L x d → IsDist E s x d)
    (hleast : ∀ other, Frontier E s L other → link.cost ≤ other.cost) :
    IsDist E s link.dest link.cost := by
  obtain ⟨d, c, hsrc, hE, hcost⟩ := hlink.1
  refine ⟨hcost ▸ (hL _ d hsrc).1.snoc hE, fun c' hwalk => ?_⟩
  obtain ⟨other, hother, hle⟩ := exists_frontier_of_walk hL hwalk hlink.2
  exact (hleast other hother).trans hle

/-- The costs in the tree are the distances from the root. -/
theorem Settles.isDist (hkey : ∀ a b, key a ≤ key b → a.cost ≤ b.cost) (h : Settles E key s L)
    (hx : At s L x d) : IsDist E s x d := by
  induction h generalizing x d with
  | nil =>
      rcases hx with ⟨rfl, rfl⟩ | ⟨l, hl, -⟩
      · exact isDist_self E x
      · cases hl
  | snoc _ hlink hleast ih =>
      rcases at_concat.1 hx with hx | ⟨rfl, rfl⟩
      · exact ih hx
      · exact hlink.isDist (fun _ _ => ih) fun other hother => hkey _ _ (hleast other hother)

theorem Settles.walk_frontier (hkey : ∀ a b, key a ≤ key b → a.cost ≤ b.cost) (h : Settles E key s L)
    (hlink : Frontier E s L link) : Walk E s link.dest link.cost := by
  obtain ⟨d, c, hsrc, hE, hcost⟩ := hlink.1
  exact hcost ▸ (h.isDist hkey hsrc).1.snoc hE

/-- When no link leads out of the tree, it holds every vertex that can be reached. -/
theorem Settles.complete (hkey : ∀ a b, key a ≤ key b → a.cost ≤ b.cost) (h : Settles E key s L)
    (hend : ∀ link, ¬ Frontier E s L link) (hwalk : Walk E s x c) : ∃ d, At s L x d := by
  by_contra hout
  obtain ⟨link, hlink, -⟩ := exists_frontier_of_walk (fun _ _ => h.isDist hkey) hwalk
    fun d hd => hout ⟨d, hd⟩
  exact hend link hlink

theorem Settles.concat_iff : Settles E key s (L ++ [link]) ↔
    Settles E key s L ∧ Frontier E s L link ∧ ∀ other, Frontier E s L other → key link ≤ key other := by
  constructor
  · intro h
    generalize hM : L ++ [link] = M at h
    cases h with
    | nil => simp at hM
    | snoc h hlink hleast =>
        obtain ⟨rfl, heq⟩ := List.append_inj' hM rfl
        obtain rfl := List.singleton_inj.1 heq
        exact ⟨h, hlink, hleast⟩
  · rintro ⟨h, hlink, hleast⟩
    exact h.snoc hlink hleast

theorem Settles.of_append (h : Settles E key s (L ++ M)) : Settles E key s L := by
  induction M using List.reverseRecOn with
  | nil => rwa [List.append_nil] at h
  | append_singleton M link ih =>
      rw [← List.append_assoc] at h
      exact ih (Settles.concat_iff.1 h).1

theorem Settles.dest_ne (h : Settles E key s L) (hlink : link ∈ L) : link.dest ≠ s := by
  induction h with
  | nil => cases hlink
  | snoc _ hnew _ ih =>
      rcases List.mem_append.1 hlink with hlink | hlink
      · exact ih hlink
      · rw [List.mem_singleton.1 hlink]
        exact hnew.dest_ne

theorem Settles.nodup (h : Settles E key s L) : (L.map Link.dest).Nodup := by
  induction h with
  | nil => exact List.nodup_nil
  | @snoc L link _ hnew _ ih =>
      rw [List.map_append, List.nodup_append]
      refine ⟨ih, by simp, ?_⟩
      rintro _ hx _ hy rfl
      obtain ⟨l, hl, hdest⟩ := List.mem_map.1 hx
      rw [List.map_singleton, List.mem_singleton] at hy
      exact hnew.2 l.cost (Or.inr ⟨l, hl, hdest.trans hy, rfl⟩)

theorem Settles.eq_of_dest (h : Settles E key s L) {a b : Link V} (ha : a ∈ L) (hb : b ∈ L)
    (hdest : a.dest = b.dest) : a = b :=
  List.inj_on_of_nodup_map h.nodup ha hb hdest

theorem Settles.graph_link (h : Settles E key s L) (hlink : link ∈ L) :
    ∃ d c, At s L link.src d ∧ E link.src link.dest c ∧ link.cost = d + c := by
  induction h with
  | nil => cases hlink
  | @snoc L new _ hnew _ ih =>
      have hsub := List.subset_append_left L [new]
      rcases List.mem_append.1 hlink with hlink | hlink
      · obtain ⟨d, c, hsrc, hE, hcost⟩ := ih hlink
        exact ⟨d, c, hsrc.mono hsub, hE, hcost⟩
      · rw [List.mem_singleton.1 hlink]
        obtain ⟨d, c, hsrc, hE, hcost⟩ := hnew.1
        exact ⟨d, c, hsrc.mono hsub, hE, hcost⟩

theorem Settles.cost_le {b : ℕ} (hE : ∀ x y c, E x y c → c ≤ b) (h : Settles E key s L)
    (hx : At s L x d) : d ≤ b * L.length := by
  induction h generalizing x d with
  | nil =>
      rcases hx with ⟨-, rfl⟩ | ⟨l, hl, -⟩
      · exact Nat.zero_le _
      · cases hl
  | snoc _ hlink _ ih =>
      rw [List.length_append, List.length_singleton, Nat.mul_add, Nat.mul_one]
      rcases at_concat.1 hx with hx | ⟨-, rfl⟩
      · exact Nat.le_add_right_of_le (ih hx)
      · obtain ⟨d', c, hsrc, hlink, hcost⟩ := hlink.1
        rw [hcost]
        exact Nat.add_le_add (ih hsrc) (hE _ _ _ hlink)

/-- **The sequence is determined**, up to where it stops. -/
theorem Settles.prefix_or_prefix (hinj : Function.Injective key) (h : Settles E key s L)
    (h' : Settles E key s M) : L <+: M ∨ M <+: L := by
  induction h with
  | nil => exact Or.inl (List.nil_prefix)
  | @snoc L link _ hlink hleast ih =>
      rcases ih with ⟨rest, rfl⟩ | hM
      · cases rest with
        | nil => exact Or.inr (by rw [List.append_nil]; exact List.prefix_append _ _)
        | cons next rest =>
            rw [← List.singleton_append, ← List.append_assoc] at h'
            obtain ⟨-, hnext, hleast'⟩ := Settles.concat_iff.1 h'.of_append
            obtain rfl : link = next :=
              hinj (le_antisymm (hleast next hnext) (hleast' link hlink))
            exact Or.inl ⟨rest, by rw [List.append_assoc, List.singleton_append]⟩
      · exact Or.inr (hM.trans (List.prefix_append _ _))

theorem Settles.prefix_of_complete (hinj : Function.Injective key) (h : Settles E key s L)
    (hend : ∀ link, ¬ Frontier E s L link) (h' : Settles E key s M) : M <+: L := by
  rcases h.prefix_or_prefix hinj h' with ⟨rest, rfl⟩ | hM
  · cases rest with
    | nil => rw [List.append_nil]
    | cons next rest =>
        rw [← List.singleton_append, ← List.append_assoc] at h'
        exact absurd (Settles.concat_iff.1 h'.of_append).2.1 (hend next)
  · exact hM

/-! ### First hops -/

/-- A search that goes on while it lacks something settles nothing beyond a tree that lacks nothing, or
that no link leads out of. -/
theorem Settles.mem_of_concat (hinj : Function.Injective key) {A : V → Prop} (hM : Settles E key s M)
    (hend : (∀ link, ¬ Frontier E s M link) ∨ ∀ y, A y → y ∈ M.map Link.dest)
    (h : Settles E key s (L ++ [link])) (hy : A y) (hout : y ∉ L.map Link.dest) : link ∈ M := by
  have hlink : link ∈ L ++ [link] := by simp
  rcases hM.prefix_or_prefix hinj h with hpre | hpre
  · rcases hend with hnone | hall
    · exact (hM.prefix_of_complete hinj hnone h).subset hlink
    · rcases List.prefix_concat_iff.1 hpre with rfl | hpre
      · exact hlink
      · exact absurd ((hpre.map Link.dest).subset (hall y hy)) hout
  · exact hpre.subset hlink

/-- A tree also grows on fewer links, if they are all that lead out of its sources. -/
theorem Settles.restrict {E' : V → V → ℕ → Prop} (hsub : ∀ u v c, E' u v c → E u v c)
    (h : Settles E key s L) (hsrc : ∀ link ∈ L, ∀ v c, E link.src v c → E' link.src v c) :
    Settles E' key s L := by
  induction h with
  | nil => exact .nil
  | @snoc L link _ hlink hleast ih =>
      refine (ih fun l hl => hsrc l (List.mem_append_left _ hl)).snoc ?_ fun other hother => hleast other ?_
      · obtain ⟨⟨d, c, hat, hE, hcost⟩, hout⟩ := hlink
        exact ⟨⟨d, c, hat, hsrc link (by simp) _ _ hE, hcost⟩, hout⟩
      · obtain ⟨⟨d, c, hat, hE, hcost⟩, hout⟩ := hother
        exact ⟨⟨d, c, hat, hsub _ _ _ hE, hcost⟩, hout⟩

theorem Via.mono (h : Via s L x g) (hsub : L ⊆ M) : Via s M x g := by
  induction h with
  | direct hmem hsrc => exact .direct (hsub hmem) hsrc
  | through hmem hsrc _ ih => exact .through (hsub hmem) hsrc ih

theorem Settles.via_unique (h : Settles E key s L) {g' : V} (hx : Via s L x g) (hx' : Via s L x g') :
    g = g' := by
  induction hx with
  | @direct link hmem hsrc =>
      generalize hdest : link.dest = y at hx'
      cases hx' with
      | direct => rfl
      | through hmem' hsrc' =>
          rw [h.eq_of_dest hmem hmem' hdest] at hsrc
          exact absurd hsrc hsrc'
  | @through link g hmem hsrc _ ih =>
      generalize hdest : link.dest = y at hx'
      cases hx' with
      | direct hmem' hsrc' =>
          rw [h.eq_of_dest hmem hmem' hdest] at hsrc
          exact absurd hsrc' hsrc
      | through hmem' hsrc' hvia =>
          rw [← h.eq_of_dest hmem hmem' hdest] at hvia
          exact ih hvia

theorem Settles.exists_via (h : Settles E key s L) (hlink : link ∈ L) : ∃ g, Via s L link.dest g := by
  induction h generalizing link with
  | nil => cases hlink
  | @snoc L new _ hnew _ ih =>
      have hsub := List.subset_append_left L [new]
      rcases List.mem_append.1 hlink with hlink | hlink
      · obtain ⟨g, hg⟩ := ih hlink
        exact ⟨g, hg.mono hsub⟩
      · rw [List.mem_singleton.1 hlink]
        have hmem : new ∈ L ++ [new] := by simp
        by_cases hsrc : new.src = s
        · exact ⟨new.dest, .direct hmem hsrc⟩
        · obtain ⟨d, c, hat, -, -⟩ := hnew.1
          rcases hat with ⟨heq, -⟩ | ⟨l, hl, hdest, -⟩
          · exact absurd heq hsrc
          · obtain ⟨g, hg⟩ := ih hl
            rw [hdest] at hg
            exact ⟨g, .through hmem hsrc (hg.mono hsub)⟩

/-- The neighbor through which the tree reaches a vertex is the first hop of a shortest walk. -/
theorem Settles.firstHop (hkey : ∀ a b, key a ≤ key b → a.cost ≤ b.cost) (h : Settles E key s L)
    (hx : Via s L x g) : FirstHop E s g x := by
  induction hx with
  | @direct link hmem hsrc =>
      obtain ⟨d, c, hat, hE, hcost⟩ := h.graph_link hmem
      have hdist := h.isDist hkey (Or.inr ⟨link, hmem, rfl, rfl⟩)
      rw [hsrc] at hat hE
      obtain rfl := (h.isDist hkey hat).unique (isDist_self E s)
      exact ⟨c, 0, hE, .nil _, by rwa [hcost, Nat.zero_add] at hdist⟩
  | @through link g hmem _ _ ih =>
      obtain ⟨c₁, c₂, hE, hwalk, hdist⟩ := ih
      obtain ⟨d, c, hat, hlink, hcost⟩ := h.graph_link hmem
      obtain rfl := (h.isDist hkey hat).unique hdist
      have hdest := h.isDist hkey (Or.inr ⟨link, hmem, rfl, rfl⟩)
      exact ⟨c₁, c₂ + c, hE, hwalk.snoc hlink, by rwa [hcost, Nat.add_assoc] at hdest⟩

end Growth

end NetworkSystems
