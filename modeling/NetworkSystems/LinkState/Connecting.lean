import NetworkSystems.Lib.Machine
import Mathlib.Algebra.Order.BigOperators.Group.Finset

/-!
# How neighbors connect

For each row of its table a router starts a thread, `open_neighbor`, which tries to connect to the port of
the neighbor once. If nobody listens there it listens on its own port and waits. The two ends of a link do
so in any order. The link comes up unless both have tried before either has listened: then both wait for
ever.
-/

namespace NetworkSystems.LinkState

/-- How far a thread of `open_neighbor` has come. A socket that has accepted a connection still listens.
The backlog holds the connections that have not been accepted. -/
inductive Phase (ι : Type)
  | starting
  | refused
  | listening (backlog : List ι)
  | accepted (peer : ι) (backlog : List ι)
  | connected (peer : ι)
  | failed
  deriving DecidableEq

/-- The ports of the threads: `outgoing_tcp_port` and `dest_tcp_port`. -/
structure Ports (ι : Type) where
  outgoing : ι → UInt16
  dest : ι → UInt16

/-- The calls of the threads. For `connect` the label says who listens at the port, if anybody does. -/
inductive SocketCall (ι : Type)
  | connect (i : ι) (peer : Option ι)
  | listen (i : ι)
  | accept (i : ι)

namespace Phase

variable {ι : Type}

def listens : Phase ι → Bool
  | listening _ | accepted _ _ => true
  | starting | refused | connected _ | failed => false

/-- One more connection waits to be accepted. -/
def enqueue (i : ι) : Phase ι → Phase ι
  | listening backlog => listening (backlog ++ [i])
  | accepted peer backlog => accepted peer (backlog ++ [i])
  | phase => phase

def Done (phase : Phase ι) : Prop :=
  (∃ peer, phase = connected peer) ∨ ∃ peer backlog, phase = accepted peer backlog

/-- The thread has tried in vain, and nobody has tried to connect to it since. -/
def Tried (phase : Phase ι) : Prop := phase = refused ∨ phase = listening []

def left : Phase ι → ℕ
  | starting => 3
  | refused => 2
  | listening _ => 1
  | accepted _ _ | connected _ | failed => 0

end Phase

section Links

variable {ι : Type}

/-- Every port has one owner, and the rows of the two ends of a link name each other's port. -/
structure Crossed (P : Ports ι) (mirror : ι → ι) : Prop where
  injective : Function.Injective P.outgoing
  dest : ∀ i, P.dest i = P.outgoing (mirror i)
  mirror_mirror : ∀ i, mirror (mirror i) = i
  mirror_ne : ∀ i, mirror i ≠ i

inductive Ends (i m : ι) : Phase ι → Phase ι → Prop
  | apart {p q : Phase ι} (hp : p = .starting ∨ p.Tried) (hq : q = .starting ∨ q.Tried) : Ends i m p q
  | called : Ends i m (.connected m) (.listening [i])
  | calls : Ends i m (.listening [m]) (.connected i)
  | answered : Ends i m (.connected m) (.accepted i [])
  | answers : Ends i m (.accepted m []) (.connected i)

def Deadlocked (mirror : ι → ι) (s : ι → Phase ι) (i : ι) : Prop := (s i).Tried ∧ (s (mirror i)).Tried

variable {i m : ι} {p q : Phase ι} {backlog : List ι}

theorem Ends.symm (h : Ends i m p q) : Ends m i q p := by
  cases h with
  | apart hp hq => exact .apart hq hp
  | called => exact .calls
  | calls => exact .called
  | answered => exact .answers
  | answers => exact .answered

theorem Ends.of_starting (h : Ends i m p q) (hp : p = .starting) :
    q = .starting ∨ q = .refused ∨ q = .listening [] := by
  cases h with
  | apart _ hq => exact hq
  | called | calls | answered | answers => cases hp

theorem Ends.of_refused (h : Ends i m p q) (hp : p = .refused) : q = .starting ∨ q.Tried := by
  cases h with
  | apart _ hq => exact hq
  | called | calls | answered | answers => cases hp

theorem Ends.of_listening {k : ι} (h : Ends i m p q) (hp : p = .listening (k :: backlog)) :
    k = m ∧ backlog = [] ∧ q = .connected i := by
  subst hp
  cases h with
  | apart hp hq => rcases hp with hp | hp | hp <;> cases hp
  | calls => exact ⟨rfl, rfl, rfl⟩

theorem Phase.Tried.not_starting (h : p.Tried) : p ≠ .starting := by
  rintro rfl
  rcases h with h | h <;> cases h

theorem Phase.Tried.not_done (h : p.Tried) : ¬ p.Done := by
  rintro (⟨j, rfl⟩ | ⟨j, backlog, rfl⟩)
  all_goals rcases h with h | h <;> cases h

end Links

section Machine

variable {ι : Type} [DecidableEq ι]

/-- What one call does to the link that it is about. Nothing else changes. -/
inductive Move (mirror : ι → ι) (s : ι → Phase ι) : (ι → Phase ι) → Prop
  | connect (i : ι) (hi : s i = .starting) (hm : s (mirror i) = .listening []) :
      Move mirror s (Function.update (Function.update s (mirror i) (.listening [i])) i (.connected (mirror i)))
  | refuse (i : ι) (hi : s i = .starting) (hm : s (mirror i) = .starting ∨ s (mirror i) = .refused) :
      Move mirror s (Function.update s i .refused)
  | listen (i : ι) (hi : s i = .refused) : Move mirror s (Function.update s i (.listening []))
  | accept (i : ι) (hi : s i = .listening [mirror i]) :
      Move mirror s (Function.update s i (.accepted (mirror i) []))

section Move

variable {P : Ports ι} {mirror : ι → ι} {s t : ι → Phase ι} {i : ι}

/-- A call keeps the other links, so it keeps all if it keeps its own. -/
theorem Crossed.ends_update (h : Crossed P mirror) (hends : ∀ i, Ends i (mirror i) (s i) (s (mirror i)))
    (hown : Ends i (mirror i) (t i) (t (mirror i)))
    (hother : ∀ k, k ≠ i → k ≠ mirror i → t k = s k) (k : ι) : Ends k (mirror k) (t k) (t (mirror k)) := by
  by_cases hi : k = i
  · rw [hi]
    exact hown
  · by_cases hm : k = mirror i
    · rw [hm, h.mirror_mirror]
      exact hown.symm
    · have hi' : mirror k ≠ i := fun heq => hm (by rw [← heq, h.mirror_mirror])
      have hm' : mirror k ≠ mirror i := fun heq => hi (by rw [← h.mirror_mirror k, heq, h.mirror_mirror])
      rw [hother k hi hm, hother _ hi' hm']
      exact hends k

theorem Crossed.ends_step (h : Crossed P mirror) (hends : ∀ i, Ends i (mirror i) (s i) (s (mirror i)))
    (hmove : Move mirror s t) : ∀ i, Ends i (mirror i) (t i) (t (mirror i)) := by
  cases hmove with
  | connect i hi hm =>
      refine h.ends_update (i := i) hends ?_ fun k hki hkm => ?_
      · rw [Function.update_self, Function.update_of_ne (h.mirror_ne i), Function.update_self]
        exact .called
      · rw [Function.update_of_ne hki, Function.update_of_ne hkm]
  | refuse i hi hm =>
      refine h.ends_update (i := i) hends ?_ fun k hki _ => Function.update_of_ne hki ..
      rw [Function.update_self, Function.update_of_ne (h.mirror_ne i)]
      exact .apart (Or.inr (Or.inl rfl)) ((hends i).of_starting hi)
  | listen i hi =>
      refine h.ends_update (i := i) hends ?_ fun k hki _ => Function.update_of_ne hki ..
      rw [Function.update_self, Function.update_of_ne (h.mirror_ne i)]
      exact .apart (Or.inr (Or.inr rfl)) ((hends i).of_refused hi)
  | accept i hi =>
      refine h.ends_update (i := i) hends ?_ fun k hki _ => Function.update_of_ne hki ..
      rw [Function.update_self, Function.update_of_ne (h.mirror_ne i), ((hends i).of_listening hi).2.2]
      exact .answers

theorem Crossed.deadlocked_step (h : Crossed P mirror) (hmove : Move mirror s t) {k : ι}
    (hdead : Deadlocked mirror s k) : Deadlocked mirror t k := by
  have hkeep : ∀ {j}, (s j).Tried → (s (mirror j)).Tried → (t j).Tried := by
    intro j hj hm
    cases hmove with
    | connect i hi hlisten =>
        have hji : j ≠ i := fun heq => hj.not_starting (heq ▸ hi)
        have hjm : j ≠ mirror i := fun heq => hm.not_starting (by rw [heq, h.mirror_mirror, hi])
        rwa [Function.update_of_ne hji, Function.update_of_ne hjm]
    | refuse i hi hrefuse =>
        have hji : j ≠ i := fun heq => hj.not_starting (heq ▸ hi)
        rwa [Function.update_of_ne hji]
    | listen i hi =>
        by_cases hji : j = i
        · rw [hji, Function.update_self]
          exact Or.inr rfl
        · rwa [Function.update_of_ne hji]
    | accept i hi =>
        have hji : j ≠ i := by
          rintro rfl
          rw [hi] at hj
          rcases hj with hj | hj <;> cases hj
        rwa [Function.update_of_ne hji]
  exact ⟨hkeep hdead.1 hdead.2, hkeep hdead.2 (by rw [h.mirror_mirror]; exact hdead.1)⟩

theorem Crossed.not_deadlocked (h : Crossed P mirror) (hown : ¬ ((t i).Tried ∧ (t (mirror i)).Tried))
    (hother : ∀ k, k ≠ i → k ≠ mirror i → t k = s k) {k : ι} (hk : ¬ Deadlocked mirror s k) :
    ¬ Deadlocked mirror t k := by
  by_cases hi : k = i
  · rw [hi]
    exact hown
  · by_cases hm : k = mirror i
    · rw [hm, Deadlocked, h.mirror_mirror, and_comm]
      exact hown
    · have hi' : mirror k ≠ i := fun heq => hm (by rw [← heq, h.mirror_mirror])
      have hm' : mirror k ≠ mirror i := fun heq => hi (by rw [← h.mirror_mirror k, heq, h.mirror_mirror])
      rw [Deadlocked, hother k hi hm, hother _ hi' hm']
      exact hk

theorem Crossed.advance_starting (h : Crossed P mirror)
    (hends : ∀ i, Ends i (mirror i) (s i) (s (mirror i))) (hi : s i = .starting) :
    ∃ t, Move mirror s t ∧ ∀ k, ¬ Deadlocked mirror s k → ¬ Deadlocked mirror t k := by
  have hne := h.mirror_ne i
  rcases (hends i).of_starting hi with hm | hm | hm
  · refine ⟨_, .refuse i hi (Or.inl hm), fun k => h.not_deadlocked (i := i) (fun hboth => ?_)
      fun k hki _ => Function.update_of_ne hki ..⟩
    rw [Function.update_of_ne hne, hm] at hboth
    exact hboth.2.not_starting rfl
  · refine ⟨_, .listen (mirror i) hm, fun k => h.not_deadlocked (i := i) (fun hboth => ?_)
      fun k _ hkm => Function.update_of_ne hkm ..⟩
    rw [Function.update_of_ne hne.symm, hi] at hboth
    exact hboth.1.not_starting rfl
  · refine ⟨_, .connect i hi hm, fun k => h.not_deadlocked (i := i) (fun hboth => ?_) fun k hki hkm => ?_⟩
    · rw [Function.update_self] at hboth
      exact hboth.1.not_done (Or.inl ⟨_, rfl⟩)
    · rw [Function.update_of_ne hki, Function.update_of_ne hkm]

theorem Crossed.advance (h : Crossed P mirror) (hends : ∀ i, Ends i (mirror i) (s i) (s (mirror i)))
    (hdone : ¬ (s i).Done) (hdead : ¬ Deadlocked mirror s i) :
    ∃ t, Move mirror s t ∧ ∀ k, ¬ Deadlocked mirror s k → ¬ Deadlocked mirror t k := by
  have hlink := hends i
  generalize hp : s i = p at hlink
  generalize hq : s (mirror i) = q at hlink
  cases hlink with
  | apart hp' hq' =>
      rcases hp' with hp' | hp'
      · exact h.advance_starting hends (hp.trans hp')
      · rcases hq' with hq' | hq'
        · exact h.advance_starting hends (hq.trans hq')
        · exact absurd ⟨hp ▸ hp', hq ▸ hq'⟩ hdead
  | called => exact absurd (Or.inl ⟨_, hp⟩) hdone
  | calls =>
      refine ⟨_, .accept i hp, fun k => h.not_deadlocked (i := i) (fun hboth => ?_)
        fun k hki _ => Function.update_of_ne hki ..⟩
      rw [Function.update_self] at hboth
      exact hboth.1.not_done (Or.inr ⟨_, _, rfl⟩)
  | answered => exact absurd (Or.inl ⟨_, hp⟩) hdone
  | answers => exact absurd (Or.inr ⟨_, _, hp⟩) hdone

end Move

variable [Fintype ι]

/-- The threads of all routers: `try_connect`, and `listen_connect` after it. The call of `bind` fails on a
port that another socket listens on. -/
def openNeighbor (P : Ports ι) : Machine (ι → Phase ι) (SocketCall ι) where
  step s
  | .connect i (some j) =>
      if s i = .starting ∧ P.outgoing j = P.dest i ∧ (s j).listens then
        some (Function.update (Function.update s j ((s j).enqueue i)) i (.connected j))
      else none
  | .connect i none =>
      if s i = .starting ∧ ¬ ∃ j, P.outgoing j = P.dest i ∧ (s j).listens then
        some (Function.update s i .refused)
      else none
  | .listen i =>
      if s i = .refused then
        some (Function.update s i
          (if ∃ j, P.outgoing j = P.outgoing i ∧ (s j).listens then .failed else .listening []))
      else none
  | .accept i =>
      match s i with
      | .listening (k :: backlog) => some (Function.update s i (.accepted k backlog))
      | _ => none

def remaining (s : ι → Phase ι) : ℕ := ∑ i, (s i).left

section Step

variable {P : Ports ι} {mirror : ι → ι} {s t : ι → Phase ι} {call : SocketCall ι} {i : ι}

theorem Crossed.step_cases (h : Crossed P mirror) (hends : ∀ i, Ends i (mirror i) (s i) (s (mirror i)))
    (hstep : (openNeighbor P).step s call = some t) : Move mirror s t := by
  cases call with
  | connect i peer =>
      cases peer with
      | none =>
          simp only [openNeighbor] at hstep
          split at hstep
          case isTrue hcond =>
            cases hstep
            obtain ⟨hi, hnobody⟩ := hcond
            refine .refuse i hi ?_
            rcases (hends i).of_starting hi with hm | hm | hm
            · exact Or.inl hm
            · exact Or.inr hm
            · exact absurd ⟨mirror i, (h.dest i).symm, by rw [hm]; rfl⟩ hnobody
          case isFalse => cases hstep
      | some j =>
          simp only [openNeighbor] at hstep
          split at hstep
          case isTrue hcond =>
            cases hstep
            obtain ⟨hi, hport, hlistens⟩ := hcond
            obtain rfl := h.injective (hport.trans (h.dest i))
            rcases (hends i).of_starting hi with hm | hm | hm
            · rw [hm] at hlistens
              cases hlistens
            · rw [hm] at hlistens
              cases hlistens
            · rw [hm]
              exact .connect i hi hm
          case isFalse => cases hstep
  | listen i =>
      simp only [openNeighbor] at hstep
      split at hstep
      case isTrue hi =>
        have hnobody : ¬ ∃ j, P.outgoing j = P.outgoing i ∧ (s j).listens = true := by
          rintro ⟨j, hport, hlistens⟩
          rw [h.injective hport, hi] at hlistens
          cases hlistens
        rw [if_neg hnobody] at hstep
        cases hstep
        exact .listen i hi
      case isFalse => cases hstep
  | accept i =>
      simp only [openNeighbor] at hstep
      split at hstep
      case h_1 k backlog hi =>
        cases hstep
        obtain ⟨rfl, rfl, -⟩ := (hends i).of_listening hi
        exact .accept i hi
      case h_2 => cases hstep

theorem Crossed.exists_step (h : Crossed P mirror) (hmove : Move mirror s t) :
    ∃ call, (openNeighbor P).step s call = some t := by
  cases hmove with
  | connect i hi hm =>
      refine ⟨.connect i (some (mirror i)), ?_⟩
      simp only [openNeighbor]
      rw [if_pos ⟨hi, (h.dest i).symm, by rw [hm]; rfl⟩, hm]
      rfl
  | refuse i hi hm =>
      refine ⟨.connect i none, if_pos ⟨hi, ?_⟩⟩
      rintro ⟨j, hport, hlistens⟩
      rw [h.injective (hport.trans (h.dest i))] at hlistens
      rcases hm with hm | hm <;> rw [hm] at hlistens <;> cases hlistens
  | listen i hi =>
      have hnobody : ¬ ∃ j, P.outgoing j = P.outgoing i ∧ (s j).listens = true := by
        rintro ⟨j, hport, hlistens⟩
        rw [h.injective hport, hi] at hlistens
        cases hlistens
      refine ⟨.listen i, ?_⟩
      simp only [openNeighbor]
      rw [if_pos hi, if_neg hnobody]
  | accept i hi =>
      refine ⟨.accept i, ?_⟩
      simp only [openNeighbor, hi]

theorem Move.remaining_lt (hmove : Move mirror s t) : remaining t < remaining s := by
  have hupdate : ∀ (r : ι → Phase ι) (i : ι) (phase : Phase ι), phase.left < (r i).left →
      remaining (Function.update r i phase) < remaining r := by
    intro r i phase hlt
    refine Finset.sum_lt_sum (fun k _ => ?_) ⟨i, Finset.mem_univ i, by rwa [Function.update_self]⟩
    by_cases hk : k = i
    · rw [hk, Function.update_self]
      exact hlt.le
    · rw [Function.update_of_ne hk]
  cases hmove with
  | connect i hi hm =>
      have hsame : remaining (Function.update s (mirror i) (.listening [i])) = remaining s := by
        refine Finset.sum_congr rfl fun k _ => ?_
        by_cases hk : k = mirror i
        · rw [hk, Function.update_self, hm]
          rfl
        · rw [Function.update_of_ne hk]
      rw [← hsame]
      refine hupdate _ i _ ?_
      have hne : i ≠ mirror i := by
        intro heq
        rw [← heq, hi] at hm
        cases hm
      rw [Function.update_of_ne hne, hi]
      exact Nat.succ_pos 2
  | refuse i hi hm => exact hupdate s i _ (by rw [hi]; exact Nat.lt_succ_self 2)
  | listen i hi => exact hupdate s i _ (by rw [hi]; exact Nat.lt_succ_self 1)
  | accept i hi => exact hupdate s i _ (by rw [hi]; exact Nat.lt_succ_self 0)

theorem Crossed.ends_run (h : Crossed P mirror) {calls : List (SocketCall ι)}
    (hrun : (openNeighbor P).run (fun _ => .starting) calls = some t) :
    ∀ i, Ends i (mirror i) (t i) (t (mirror i)) :=
  (openNeighbor P).invariant (I := fun s => ∀ i, Ends i (mirror i) (s i) (s (mirror i)))
    (fun _ _ _ hends hstep => h.ends_step hends (h.step_cases hends hstep))
    (fun _ => .apart (Or.inl rfl) (Or.inl rfl)) hrun

end Step

end Machine

/-- **Connections match.** In every run, in any order of the calls, a thread is connected with the thread of
the row at the other end of its link and no other, one end has called `connect` and the other one `accept`,
and no call of `bind` fails. -/
theorem connections_match {ι : Type} [Fintype ι] [DecidableEq ι] {P : Ports ι} {mirror : ι → ι}
    (h : Crossed P mirror) {calls : List (SocketCall ι)} {t : ι → Phase ι}
    (hrun : (openNeighbor P).run (fun _ => .starting) calls = some t) :
    (∀ i j, t i = .connected j → j = mirror i ∧ (t j = .listening [i] ∨ t j = .accepted i [])) ∧
      (∀ i j backlog, t i = .accepted j backlog → j = mirror i ∧ backlog = [] ∧ t j = .connected i) ∧
      ∀ i, t i ≠ .failed := by
  have hends := h.ends_run hrun
  refine ⟨fun i j hi => ?_, fun i j backlog hi => ?_, fun i hi => ?_⟩
  all_goals
    have hlink := hends i
    generalize hm : t (mirror i) = q at hlink
    rw [hi] at hlink
    cases hlink
  case refine_1.apart hp _ => rcases hp with hp | hp | hp <;> cases hp
  case refine_1.called => exact ⟨rfl, Or.inl hm⟩
  case refine_1.answered => exact ⟨rfl, Or.inr hm⟩
  case refine_2.apart hp _ => rcases hp with hp | hp | hp <;> cases hp
  case refine_2.answers => exact ⟨rfl, rfl, hm⟩
  case refine_3.apart hp _ => rcases hp with hp | hp | hp <;> cases hp

/-- **When the neighbors come up.** A run ends after three calls for each thread at most, and then every
link is up or has two ends that have both tried in vain. Before that, some way to go on brings up all links
exactly if there is no such link so far. -/
theorem neighbors_come_up_iff {ι : Type} [Fintype ι] [DecidableEq ι] {P : Ports ι} {mirror : ι → ι}
    (h : Crossed P mirror) {calls : List (SocketCall ι)} {t : ι → Phase ι}
    (hrun : (openNeighbor P).run (fun _ => .starting) calls = some t) :
    calls.length ≤ 3 * Fintype.card ι ∧
      ((∀ call, (openNeighbor P).step t call = none) → ∀ i, (t i).Done ∨ Deadlocked mirror t i) ∧
      ((∃ more u, (openNeighbor P).run t more = some u ∧ ∀ i, (u i).Done) ↔
        ∀ i, ¬ Deadlocked mirror t i) := by
  have hends := h.ends_run hrun
  refine ⟨?_, fun hstuck i => ?_, ?_, fun hdead => ?_⟩
  · have hle := (openNeighbor P).length_le_of_measure (C := fun _ _ => True) remaining
      (I := fun s => ∀ i, Ends i (mirror i) (s i) (s (mirror i)))
      (fun s call t hends _ hstep =>
        have hmove := h.step_cases hends hstep
        ⟨h.ends_step hends hmove, hmove.remaining_lt⟩)
      (fun _ => .apart (Or.inl rfl) (Or.inl rfl)) (Machine.within_true _ _ _) hrun
    have hstart : remaining (fun _ : ι => Phase.starting) = 3 * Fintype.card ι := by
      rw [remaining, Finset.sum_const, Finset.card_univ, Nat.nsmul_eq_mul, Nat.mul_comm]
      rfl
    omega
  · by_contra hno
    rw [not_or] at hno
    obtain ⟨u, hmove, -⟩ := h.advance hends hno.1 hno.2
    obtain ⟨call, hcall⟩ := h.exists_step hmove
    cases (hstuck call).symm.trans hcall
  · rintro ⟨more, u, hmore, hdone⟩ i hdead
    have hkept := (openNeighbor P).invariant
      (I := fun s => (∀ i, Ends i (mirror i) (s i) (s (mirror i))) ∧ Deadlocked mirror s i)
      (fun _ _ _ ⟨hends, hdead⟩ hstep =>
        have hmove := h.step_cases hends hstep
        ⟨h.ends_step hends hmove, h.deadlocked_step hmove hdead⟩)
      ⟨hends, hdead⟩ hmore
    exact hkept.2.1.not_done (hdone i)
  · obtain ⟨u, ⟨more, -, hmore⟩, -, hdone⟩ := Machine.exists_reaches_of_measure (M := openNeighbor P)
      (C := fun _ _ => True) (P := fun s => ∀ i, (s i).Done) remaining
      (I := fun s => (∀ i, Ends i (mirror i) (s i) (s (mirror i))) ∧ ∀ i, ¬ Deadlocked mirror s i)
      (fun s ⟨hends, hdead⟩ hnot => by
        obtain ⟨i, hi⟩ := not_forall.1 hnot
        obtain ⟨u, hmove, hkeep⟩ := h.advance hends hi (hdead i)
        obtain ⟨call, hcall⟩ := h.exists_step hmove
        exact ⟨u, .single trivial hcall, ⟨h.ends_step hends hmove, fun k => hkeep k (hdead k)⟩,
          hmove.remaining_lt⟩)
      ⟨hends, hdead⟩
    exact ⟨more, u, hmore, hdone⟩

/-- The two ends of the link `<A,9701,B,9704,4>`. -/
def twoEnds : Ports (Fin 2) where
  outgoing i := if i.val = 0 then 9701 else 9704
  dest i := if i.val = 0 then 9704 else 9701

theorem twoEnds_crossed : Crossed twoEnds Fin.rev where
  injective := by decide
  dest := by decide
  mirror_mirror := by decide
  mirror_ne := by decide

theorem connections_match_twoEnds : ∃ t, (openNeighbor twoEnds).run (fun _ => .starting)
    [.connect 1 none, .listen 1, .connect 0 (some 1), .accept 1] = some t ∧
    (t 0 = .connected 1 → t 1 = .listening [0] ∨ t 1 = .accepted 0 []) ∧ t 1 ≠ .failed := by
  have hrun : ((openNeighbor twoEnds).run (fun _ => .starting)
      [.connect 1 none, .listen 1, .connect 0 (some 1), .accept 1]).isSome := by decide
  obtain ⟨t, ht⟩ := Option.isSome_iff_exists.1 hrun
  obtain ⟨hconnected, -, hfailed⟩ := connections_match twoEnds_crossed ht
  exact ⟨t, ht, fun h => (hconnected 0 1 h).2, hfailed 1⟩

/-- Both try before either listens: the link never comes up. -/
theorem neighbors_come_up_iff_twoEnds : ∃ t, (openNeighbor twoEnds).run (fun _ => .starting)
    [.connect 0 none, .connect 1 none] = some t ∧
    ¬ ∃ more u, (openNeighbor twoEnds).run t more = some u ∧ ∀ i, (u i).Done := by
  have hrun : ((openNeighbor twoEnds).run (fun _ => .starting) [.connect 0 none, .connect 1 none]).map
      (fun t => (t 0, t 1)) = some (.refused, .refused) := by decide
  obtain ⟨t, ht, hends⟩ := Option.map_eq_some_iff.1 hrun
  obtain ⟨h0, h1⟩ := Prod.mk.inj hends
  refine ⟨t, ht, fun hup => ?_⟩
  exact (neighbors_come_up_iff twoEnds_crossed ht).2.2.1 hup 0 ⟨Or.inl h0, Or.inl h1⟩

end NetworkSystems.LinkState
