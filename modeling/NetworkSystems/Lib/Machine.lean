import Mathlib.Data.List.Basic

/-!
# Runs of a machine

A machine is a partial step function on states. Every choice its environment makes, such as which
thread moves or which message arrives, is part of the label, so a run is a list of labels and the
state it ends in is computed. A property of every reachable state is a property of the end of every
run.
-/

namespace NetworkSystems

universe u v u' w

/-- A step function: `step s a = none` says that the label `a` is not enabled in `s`. -/
structure Machine (σ : Type u) (α : Type v) where
  step : σ → α → Option σ

namespace Machine

variable {σ : Type u} {α : Type v} (M : Machine σ α)

/-- The state a list of labels leads to. -/
def run : σ → List α → Option σ
  | s, [] => some s
  | s, a :: as => (M.step s a).bind fun t => run t as

/-- Every label of the run meets the condition in the state it is taken in. -/
def Within (C : σ → α → Prop) : σ → List α → Prop
  | _, [] => True
  | s, a :: as => C s a ∧ ∀ t, M.step s a = some t → Within C t as

instance decidableWithin (C : σ → α → Prop) [∀ s a, Decidable (C s a)] :
    ∀ s as, Decidable (M.Within C s as)
  | _, [] => isTrue trivial
  | s, a :: as =>
      match h : M.step s a with
      | none => decidable_of_iff (C s a) ⟨fun hC => ⟨hC, fun _ ht => by simp [h] at ht⟩, And.left⟩
      | some t =>
          have := decidableWithin C t as
          decidable_of_iff (C s a ∧ M.Within C t as)
            ⟨fun hC => ⟨hC.1, fun _ ht => Option.some.inj (h.symm.trans ht) ▸ hC.2⟩,
              fun hC => ⟨hC.1, hC.2 t h⟩⟩

/-- The property holds in every state of the run. -/
def Throughout (P : σ → Prop) : σ → List α → Prop
  | s, [] => P s
  | s, a :: as => P s ∧ ∀ t, M.step s a = some t → Throughout P t as

@[simp] theorem run_nil (s : σ) : M.run s [] = some s := rfl

theorem run_cons (s : σ) (a : α) (as : List α) :
    M.run s (a :: as) = (M.step s a).bind fun t => M.run t as := rfl

theorem run_append (s : σ) (as bs : List α) :
    M.run s (as ++ bs) = (M.run s as).bind fun t => M.run t bs := by
  induction as generalizing s with
  | nil => rfl
  | cons a as ih =>
      rw [List.cons_append, run_cons, run_cons, Option.bind_assoc]
      exact congrArg _ (funext fun t => ih t)

theorem run_concat (s : σ) (as : List α) (a : α) :
    M.run s (as ++ [a]) = (M.run s as).bind fun t => M.step t a := by
  rw [run_append]
  exact congrArg _ (funext fun t => by rw [run_cons]; exact Option.bind_fun_some _)

theorem run_cons_eq_some {s u : σ} {a : α} {as : List α} :
    M.run s (a :: as) = some u ↔ ∃ t, M.step s a = some t ∧ M.run t as = some u := by
  rw [run_cons, Option.bind_eq_some_iff]

/-- A property that every enabled step keeps, as long as the step meets the condition, holds at the
end of every run whose steps all meet it. -/
theorem invariant_of_within {I : σ → Prop} {C : σ → α → Prop}
    (hstep : ∀ s a t, I s → C s a → M.step s a = some t → I t)
    {s t : σ} {as : List α} (hs : I s) (hwithin : M.Within C s as) (hrun : M.run s as = some t) :
    I t := by
  induction as generalizing s with
  | nil =>
      cases hrun
      exact hs
  | cons a as ih =>
      obtain ⟨mid, hmid, hrest⟩ := M.run_cons_eq_some.1 hrun
      exact ih (hstep s a mid hs hwithin.1 hmid) (hwithin.2 mid hmid) hrest

/-- A property that holds after a step exactly if the step meets a condition holds throughout a run
exactly if all its steps meet that condition. -/
theorem throughout_iff_within {I P : σ → Prop} {C D : σ → α → Prop}
    (hkeep : ∀ s a t, I s → D s a → P s → C s a → M.step s a = some t → I t)
    (hstep : ∀ s a t, I s → D s a → P s → M.step s a = some t → (P t ↔ C s a))
    {s t : σ} {as : List α} (hI : I s) (hP : P s) (hD : M.Within D s as)
    (hrun : M.run s as = some t) : M.Throughout P s as ↔ M.Within C s as := by
  induction as generalizing s with
  | nil => exact ⟨fun _ => trivial, fun _ => hP⟩
  | cons a as ih =>
      obtain ⟨mid, hmid, hrest⟩ := M.run_cons_eq_some.1 hrun
      have hiff := hstep s a mid hI hD.1 hP hmid
      have hnext := fun hC hP' => ih (hkeep s a mid hI hD.1 hP hC hmid) hP' (hD.2 mid hmid) hrest
      have hmids : ∀ {Q : σ → Prop}, (∀ t, M.step s a = some t → Q t) ↔ Q mid :=
        ⟨fun h => h mid hmid, fun h t ht => Option.some.inj (hmid.symm.trans ht) ▸ h⟩
      rw [Throughout, Within, hmids, hmids]
      constructor
      · rintro ⟨-, hall⟩
        have hP' : P mid := by
          cases as with
          | nil => exact hall
          | cons => exact hall.1
        exact ⟨hiff.1 hP', (hnext (hiff.1 hP') hP').1 hall⟩
      · rintro ⟨hC, hall⟩
        exact ⟨hP, (hnext hC (hiff.2 hC)).2 hall⟩

/-- A property that follows from what every step within a condition keeps holds throughout the run. -/
theorem throughout_of_within {I P : σ → Prop} {C : σ → α → Prop}
    (hstep : ∀ s a t, I s → C s a → M.step s a = some t → I t) (hP : ∀ s, I s → P s) {s : σ}
    {as : List α} (hs : I s) (hwithin : M.Within C s as) : M.Throughout P s as := by
  induction as generalizing s with
  | nil => exact hP s hs
  | cons a as ih =>
      exact ⟨hP s hs, fun t ht => ih (hstep s a t hs hwithin.1 ht) (hwithin.2 t ht)⟩

theorem Throughout.last {M : Machine σ α} {P : σ → Prop} {s t : σ} {as : List α}
    (h : M.Throughout P s as) (hrun : M.run s as = some t) : P t := by
  induction as generalizing s with
  | nil =>
      obtain rfl := Option.some.inj hrun
      exact h
  | cons a as ih =>
      obtain ⟨mid, hmid, hrest⟩ := M.run_cons_eq_some.1 hrun
      exact ih (h.2 mid hmid) hrest

/-- A property that a step keeps exactly if it meets a condition, and that no step brings back, holds at
the end of a run exactly if it held before and all steps meet that condition. -/
theorem last_iff_within {I P : σ → Prop} {C D : σ → α → Prop}
    (hkeep : ∀ s a t, I s → D s a → M.step s a = some t → I t)
    (hstep : ∀ s a t, I s → D s a → M.step s a = some t → (P t ↔ P s ∧ C s a))
    {s t : σ} {as : List α} (hI : I s) (hD : M.Within D s as) (hrun : M.run s as = some t) :
    P t ↔ P s ∧ M.Within C s as := by
  induction as generalizing s with
  | nil =>
      obtain rfl := Option.some.inj hrun
      exact (and_iff_left trivial).symm
  | cons a as ih =>
      obtain ⟨mid, hmid, hrest⟩ := M.run_cons_eq_some.1 hrun
      have hnext : (∀ t, M.step s a = some t → M.Within C t as) ↔ M.Within C mid as :=
        ⟨fun h => h mid hmid, fun h t ht => Option.some.inj (hmid.symm.trans ht) ▸ h⟩
      rw [ih (hkeep s a mid hI hD.1 hmid) (hD.2 mid hmid) hrest, hstep s a mid hI hD.1 hmid, Within,
        hnext, and_assoc]

/-- Every step of the run is related to the state it leads to. -/
def EveryStep (Q : σ → α → σ → Prop) : σ → List α → Prop
  | _, [] => True
  | s, a :: as => ∀ t, M.step s a = some t → Q s a t ∧ EveryStep Q t as

/-- When a step does what is asked of it exactly if it meets a condition, so do all steps of a run. -/
theorem everyStep_iff_within {I : σ → Prop} {Q : σ → α → σ → Prop} {C D : σ → α → Prop}
    (hkeep : ∀ s a t, I s → D s a → M.step s a = some t → I t)
    (hstep : ∀ s a t, I s → D s a → M.step s a = some t → (Q s a t ↔ C s a))
    {s t : σ} {as : List α} (hI : I s) (hD : M.Within D s as) (hrun : M.run s as = some t) :
    M.EveryStep Q s as ↔ M.Within C s as := by
  induction as generalizing s with
  | nil => exact Iff.rfl
  | cons a as ih =>
      obtain ⟨mid, hmid, hrest⟩ := M.run_cons_eq_some.1 hrun
      have hiff := hstep s a mid hI hD.1 hmid
      have hnext := ih (hkeep s a mid hI hD.1 hmid) (hD.2 mid hmid) hrest
      have hmids : ∀ {Q : σ → Prop}, (∀ t, M.step s a = some t → Q t) ↔ Q mid :=
        ⟨fun h => h mid hmid, fun h t ht => Option.some.inj (hmid.symm.trans ht) ▸ h⟩
      rw [EveryStep, Within, hmids, hmids, hiff, hnext]

theorem EveryStep.last {M : Machine σ α} {Q : σ → α → σ → Prop} {s t u : σ} {as : List α} {a : α}
    (h : M.EveryStep Q s (as ++ [a])) (hrun : M.run s as = some t) (hstep : M.step t a = some u) :
    Q t a u := by
  induction as generalizing s with
  | nil =>
      obtain rfl := Option.some.inj hrun
      exact (h u hstep).1
  | cons b as ih =>
      obtain ⟨mid, hmid, hrest⟩ := M.run_cons_eq_some.1 hrun
      exact ih (h mid hmid).2 hrest

/-- A condition on the labels alone. -/
theorem within_of_forall {C : σ → α → Prop} {as : List α} (h : ∀ a ∈ as, ∀ s, C s a) (s : σ) :
    M.Within C s as := by
  induction as generalizing s with
  | nil => trivial
  | cons a as ih =>
      exact ⟨h a (by simp) s, fun t _ => ih (fun b hb => h b (List.mem_cons_of_mem _ hb)) t⟩

theorem Within.and {M : Machine σ α} {C D : σ → α → Prop} {s : σ} {as : List α} (hC : M.Within C s as)
    (hD : M.Within D s as) : M.Within (fun s a => C s a ∧ D s a) s as := by
  induction as generalizing s with
  | nil => trivial
  | cons a as ih => exact ⟨⟨hC.1, hD.1⟩, fun t ht => ih (hC.2 t ht) (hD.2 t ht)⟩

theorem within_true (s : σ) (as : List α) : M.Within (fun _ _ => True) s as :=
  M.within_of_forall (fun _ _ _ => trivial) s

/-- A run goes to its end when every step that meets the condition is enabled and keeps a property from
which that follows. -/
theorem exists_run {I : σ → Prop} {C : σ → α → Prop}
    (hstep : ∀ s a, I s → C s a → ∃ t, M.step s a = some t ∧ I t) {s : σ} {as : List α} (hs : I s)
    (hwithin : M.Within C s as) : ∃ t, M.run s as = some t := by
  induction as generalizing s with
  | nil => exact ⟨s, rfl⟩
  | cons a as ih =>
      obtain ⟨mid, hmid, hI⟩ := hstep s a hs hwithin.1
      obtain ⟨t, ht⟩ := ih hI (hwithin.2 mid hmid)
      exact ⟨t, M.run_cons_eq_some.2 ⟨mid, hmid, ht⟩⟩

/-- When a step is enabled exactly if it meets a condition, a run goes to its end exactly if all its steps
meet it. -/
theorem run_isSome_iff_within {I : σ → Prop} {C : σ → α → Prop}
    (hkeep : ∀ s a t, I s → M.step s a = some t → I t)
    (hstep : ∀ s a, I s → ((M.step s a).isSome ↔ C s a)) {s : σ} (hs : I s) (as : List α) :
    (M.run s as).isSome ↔ M.Within C s as := by
  induction as generalizing s with
  | nil => exact iff_of_true rfl trivial
  | cons a as ih =>
      have hiff := hstep s a hs
      rw [run_cons, Within]
      cases hmid : M.step s a with
      | none =>
          rw [hmid] at hiff
          exact iff_of_false Bool.false_ne_true fun h => Bool.false_ne_true (hiff.2 h.1)
      | some mid =>
          rw [hmid] at hiff
          rw [Option.bind_some, ih (hkeep s a mid hs hmid), and_iff_right (hiff.1 rfl)]
          exact ⟨fun h t ht => Option.some.inj ht ▸ h, fun h => h mid rfl⟩

/-- A property that every enabled step keeps holds at the end of every run. -/
theorem invariant {I : σ → Prop} (hstep : ∀ s a t, I s → M.step s a = some t → I t)
    {s t : σ} {as : List α} (hs : I s) (hrun : M.run s as = some t) : I t :=
  M.invariant_of_within (C := fun _ _ => True) (fun s a t hI _ => hstep s a t hI) hs
    (M.within_true s as) hrun

/-! ### Simulation -/

/-- What a run shows: what its steps show, in order. -/
def trace {β : Type w} (out : σ → α → List β) : σ → List α → List β
  | _, [] => []
  | s, a :: as =>
      match M.step s a with
      | none => []
      | some t => out s a ++ trace out t as

theorem trace_cons {β : Type w} {out : σ → α → List β} {s t : σ} {a : α} {as : List α}
    (hstep : M.step s a = some t) : M.trace out s (a :: as) = out s a ++ M.trace out t as := by
  rw [trace, hstep]

theorem map_trace {β γ : Type w} (f : β → γ) (out : σ → α → List β) (s : σ) (as : List α) :
    (M.trace out s as).map f = M.trace (fun s a => (out s a).map f) s as := by
  induction as generalizing s with
  | nil => rfl
  | cons a as ih =>
      cases hstep : M.step s a with
      | none => rw [trace, trace, hstep]; rfl
      | some t => rw [M.trace_cons hstep, M.trace_cons hstep, List.map_append, ih]

/-- What is true of everything that a step shows is true of everything that a run shows. -/
theorem forall_mem_trace {β : Type w} {out : σ → α → List β} {I : σ → Prop} {P : β → Prop}
    (hkeep : ∀ s a t, I s → M.step s a = some t → I t) (hout : ∀ s a, I s → ∀ b ∈ out s a, P b)
    {s : σ} (hI : I s) (as : List α) : ∀ b ∈ M.trace out s as, P b := by
  induction as generalizing s with
  | nil => nofun
  | cons a as ih =>
      cases hstep : M.step s a with
      | none =>
          rw [trace, hstep]
          nofun
      | some t =>
          rw [M.trace_cons hstep]
          intro b hb
          rcases List.mem_append.1 hb with hb | hb
          · exact hout s a hI b hb
          · exact ih (hkeep s a t hI hstep) b hb

/-- Every step of `M` is a run of `N` over what the step shows, between related states. -/
def Simulates {τ : Type u'} {β : Type w} (N : Machine τ β) (R : σ → τ → Prop)
    (out : σ → α → List β) : Prop :=
  ∀ s a s' t, R s t → M.step s a = some s' → ∃ t', N.run t (out s a) = some t' ∧ R s' t'

theorem Simulates.run {τ : Type u'} {β : Type w} {M : Machine σ α} {N : Machine τ β}
    {R : σ → τ → Prop} {out : σ → α → List β} (h : M.Simulates N R out) {s s' : σ} {t : τ}
    {as : List α} (hR : R s t) (hrun : M.run s as = some s') :
    ∃ t', N.run t (M.trace out s as) = some t' ∧ R s' t' := by
  induction as generalizing s t with
  | nil =>
      cases hrun
      exact ⟨t, rfl, hR⟩
  | cons a as ih =>
      obtain ⟨mid, hstep, hrest⟩ := M.run_cons_eq_some.1 hrun
      obtain ⟨u, hu, hRu⟩ := h s a mid t hR hstep
      obtain ⟨t', ht', hR'⟩ := ih hRu hrest
      refine ⟨t', ?_, hR'⟩
      rw [M.trace_cons hstep, N.run_append, hu]
      exact ht'

/-- The machine with only the steps that meet a condition. -/
def guard (C : σ → α → Prop) [∀ s a, Decidable (C s a)] : Machine σ α where
  step s a := if C s a then M.step s a else none

section Guard

variable {M : Machine σ α} {C : σ → α → Prop} [∀ s a, Decidable (C s a)]

theorem run_guard {s t : σ} {as : List α} (hwithin : M.Within C s as) (hrun : M.run s as = some t) :
    (M.guard C).run s as = some t := by
  induction as generalizing s with
  | nil => exact hrun
  | cons a as ih =>
      obtain ⟨mid, hmid, hrest⟩ := M.run_cons_eq_some.1 hrun
      exact (M.guard C).run_cons_eq_some.2
        ⟨mid, (if_pos hwithin.1).trans hmid, ih (hwithin.2 mid hmid) hrest⟩

theorem trace_guard {β : Type w} {out : σ → α → List β} {s t : σ} {as : List α}
    (hwithin : M.Within C s as) (hrun : M.run s as = some t) :
    (M.guard C).trace out s as = M.trace out s as := by
  induction as generalizing s with
  | nil => rfl
  | cons a as ih =>
      obtain ⟨mid, hmid, hrest⟩ := M.run_cons_eq_some.1 hrun
      rw [M.trace_cons hmid, (M.guard C).trace_cons ((if_pos hwithin.1).trans hmid),
        ih (hwithin.2 mid hmid) hrest]

end Guard

/-! ### Runs of one label -/

/-- Taking the label `a` again and again leads from `s` to `t`. -/
def Repeats (a : α) (s t : σ) : Prop := ∃ k, M.run s (List.replicate k a) = some t

variable {M} {a : α} {s t u : σ}

theorem Repeats.refl : M.Repeats a s s := ⟨0, rfl⟩

theorem Repeats.head (hstep : M.step s a = some t) (h : M.Repeats a t u) : M.Repeats a s u := by
  obtain ⟨k, hk⟩ := h
  refine ⟨k + 1, ?_⟩
  rw [List.replicate_succ, run_cons, hstep]
  exact hk

theorem Repeats.trans (h : M.Repeats a s t) (h' : M.Repeats a t u) : M.Repeats a s u := by
  obtain ⟨k, hk⟩ := h
  obtain ⟨m, hm⟩ := h'
  refine ⟨k + m, ?_⟩
  rw [List.replicate_add, run_append, hk]
  exact hm

theorem Repeats.invariant {I : σ → Prop} (hstep : ∀ s a t, I s → M.step s a = some t → I t)
    (h : M.Repeats a s t) (hs : I s) : I t :=
  let ⟨_, hk⟩ := h
  M.invariant hstep hs hk

theorem Repeats.next (h : M.Repeats a s u) (hne : s ≠ u) : ∃ t, M.step s a = some t ∧ M.Repeats a t u := by
  obtain ⟨k, hk⟩ := h
  cases k with
  | zero => exact absurd (Option.some.inj hk) hne
  | succ k =>
      rw [List.replicate_succ] at hk
      obtain ⟨t, hstep, hrun⟩ := M.run_cons_eq_some.1 hk
      exact ⟨t, hstep, k, hrun⟩

theorem Repeats.unique (h : M.Repeats a s t) (h' : M.Repeats a s u) (ht : M.step t a = none)
    (hu : M.step u a = none) : t = u := by
  have hstuck : ∀ (m : Nat) {v w : σ}, M.step v a = none →
      M.run v (List.replicate m a) = some w → v = w := by
    intro m v w hv hrun
    cases m with
    | zero => exact Option.some.inj hrun
    | succ m =>
        rw [List.replicate_succ, run_cons, hv] at hrun
        cases hrun
  obtain ⟨k, hk⟩ := h
  obtain ⟨m, hm⟩ := h'
  rcases Nat.le_total k m with hle | hle
  · obtain ⟨d, rfl⟩ := Nat.exists_eq_add_of_le hle
    rw [List.replicate_add, run_append, hk] at hm
    exact hstuck d ht hm
  · obtain ⟨d, rfl⟩ := Nat.exists_eq_add_of_le hle
    rw [List.replicate_add, run_append, hm] at hk
    exact (hstuck d hu hk).symm

/-! ### Reachability -/

/-- Some run whose steps all meet the condition leads from `s` to `t`. -/
def Reaches (M : Machine σ α) (C : σ → α → Prop) (s t : σ) : Prop :=
  ∃ as, M.Within C s as ∧ M.run s as = some t

section Reaches

variable {C : σ → α → Prop}

theorem Reaches.refl : M.Reaches C s s := ⟨[], trivial, rfl⟩

theorem Reaches.head (hC : C s a) (hstep : M.step s a = some t) (h : M.Reaches C t u) :
    M.Reaches C s u := by
  obtain ⟨as, hwithin, hrun⟩ := h
  refine ⟨a :: as, ⟨hC, fun v hv => ?_⟩, M.run_cons_eq_some.2 ⟨t, hstep, hrun⟩⟩
  rwa [← Option.some.inj (hstep.symm.trans hv)]

theorem Reaches.single (hC : C s a) (hstep : M.step s a = some t) : M.Reaches C s t :=
  Reaches.refl.head hC hstep

theorem Within.append {as bs : List α} (h : M.Within C s as) (hrun : M.run s as = some t)
    (h' : M.Within C t bs) : M.Within C s (as ++ bs) := by
  induction as generalizing s with
  | nil =>
      obtain rfl := Option.some.inj hrun
      exact h'
  | cons a as ih =>
      obtain ⟨mid, hmid, hrest⟩ := M.run_cons_eq_some.1 hrun
      refine ⟨h.1, fun v hv => ?_⟩
      obtain rfl := Option.some.inj (hmid.symm.trans hv)
      exact ih (h.2 mid hmid) hrest

theorem Reaches.trans (h : M.Reaches C s t) (h' : M.Reaches C t u) : M.Reaches C s u := by
  obtain ⟨as, hwithin, hrun⟩ := h
  obtain ⟨bs, hwithin', hrun'⟩ := h'
  refine ⟨as ++ bs, hwithin.append hrun hwithin', ?_⟩
  rw [run_append, hrun]
  exact hrun'

/-- As long as a goal is not met, some run keeps a property and brings a measure down. Then some run
leads to the goal. -/
theorem exists_reaches_of_measure {I P : σ → Prop} (μ : σ → ℕ)
    (hstep : ∀ s, I s → ¬ P s → ∃ t, M.Reaches C s t ∧ I t ∧ μ t < μ s) (hs : I s) :
    ∃ t, M.Reaches C s t ∧ I t ∧ P t := by
  induction hn : μ s using Nat.strongRecOn generalizing s with
  | ind n ih =>
      by_cases hP : P s
      · exact ⟨s, .refl, hs, hP⟩
      · obtain ⟨t, hreach, ht, hlt⟩ := hstep s hs hP
        obtain ⟨u, hreach', hu, hPu⟩ := ih (μ t) (hn ▸ hlt) ht rfl
        exact ⟨u, hreach.trans hreach', hu, hPu⟩

theorem length_le_of_measure {I : σ → Prop} (μ : σ → ℕ)
    (hstep : ∀ s a t, I s → C s a → M.step s a = some t → I t ∧ μ t < μ s) {as : List α} (hs : I s)
    (hwithin : M.Within C s as) (hrun : M.run s as = some t) : as.length + μ t ≤ μ s := by
  induction as generalizing s with
  | nil =>
      obtain rfl := Option.some.inj hrun
      exact Nat.le_of_eq (Nat.zero_add _)
  | cons a as ih =>
      obtain ⟨mid, hmid, hrest⟩ := M.run_cons_eq_some.1 hrun
      obtain ⟨hI, hlt⟩ := hstep s a mid hs hwithin.1 hmid
      have hle := ih hI (hwithin.2 mid hmid) hrest
      rw [List.length_cons]
      omega

end Reaches

end Machine

end NetworkSystems
