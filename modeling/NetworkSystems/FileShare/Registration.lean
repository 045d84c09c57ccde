import NetworkSystems.FileShare.Server
import Mathlib.Data.List.Induction

/-!
# One session for each name

`REGISTER` looks a name up and inserts it in two critical sections. Two threads that are both between
them with one name both get through. Without such a meeting, a name is inserted again only after it has
been removed.
-/

namespace NetworkSystems.FileShare

/-- Between two registrations of a name by different sessions lies a deregistration of it. -/
def Exclusive (log : List Event) : Prop :=
  ∀ before between after i j name, i ≠ j →
    log = before ++ .registered i name :: (between ++ .registered j name :: after) →
      ∃ k, .deregistered k name ∈ between

/-- A session that looks up a name does so while no other session is about to insert that name. -/
def Server.Unraced {n : Nat} (s : Server n) (i : Fin n) : Prop :=
  (s.sessions i).pc = .contains → ∀ j, j ≠ i → (s.sessions j).pc = .insert →
    keyOf (s.sessions j).word ≠ keyOf (s.sessions i).word

instance {n : Nat} (s : Server n) (i : Fin n) : Decidable (s.Unraced i) :=
  inferInstanceAs (Decidable (_ → ∀ _, _))

/-! ### The log and the set -/

def about (name : Bytes) : Event → Bool
  | .registered _ name' => name' = name
  | .deregistered _ name' => name' = name

def Held (log : List Event) (name : Bytes) : Prop :=
  ∃ i, (log.filter (about name)).getLast? = some (.registered i name)

theorem held_append_of_about {log : List Event} {name : Bytes} {e : Event} (h : about name e = true) :
    Held (log ++ [e]) name ↔ ∃ i, e = .registered i name := by
  rw [Held, List.filter_append, List.filter_cons_of_pos h, List.filter_nil, List.getLast?_concat]
  simp only [Option.some.injEq]

theorem held_append_of_not_about {log : List Event} {name : Bytes} {e : Event}
    (h : about name e = false) : Held (log ++ [e]) name ↔ Held log name := by
  rw [Held, Held, List.filter_append, List.filter_cons_of_neg (by simp [h]), List.filter_nil,
    List.append_nil]

theorem deregistered_of_not_held {before between : List Event} {i : Nat} {name : Bytes}
    (h : ¬ Held (before ++ .registered i name :: between) name) : ∃ k, .deregistered k name ∈ between := by
  induction between using List.reverseRecOn with
  | nil => exact absurd ((held_append_of_about (by simp [about])).2 ⟨i, rfl⟩) h
  | append_singleton between e ih =>
      rw [← List.cons_append, ← List.append_assoc] at h
      by_cases habout : about name e = true
      · rw [held_append_of_about habout] at h
        cases e with
        | registered k name' =>
            have hname : name' = name := by simpa [about] using habout
            exact absurd ⟨k, by rw [hname]⟩ h
        | deregistered k name' =>
            have hname : name' = name := by simpa [about] using habout
            exact ⟨k, by rw [hname]; simp⟩
      · rw [held_append_of_not_about (by simpa using habout)] at h
        obtain ⟨k, hk⟩ := ih h
        exact ⟨k, List.mem_append_left _ hk⟩

theorem exclusive_nil : Exclusive [] := by
  intro before between after i j name _ hsplit
  simp at hsplit

/-- A registration keeps the law when the name is not held, a deregistration always. -/
theorem Exclusive.append {log : List Event} {e : Event} (h : Exclusive log)
    (hfree : ∀ j name, e = .registered j name → ¬ Held log name) : Exclusive (log ++ [e]) := by
  intro before between after i j name hne hsplit
  rcases List.eq_nil_or_concat after with rfl | ⟨after', last, rfl⟩
  · have hlog : log ++ [e] = (before ++ .registered i name :: between) ++ [.registered j name] := by
      rw [hsplit]
      simp
    obtain ⟨rfl, he⟩ := List.append_inj' hlog rfl
    exact deregistered_of_not_held (hfree j name (List.singleton_inj.1 he))
  · have hlog : log ++ [e] =
        (before ++ .registered i name :: (between ++ .registered j name :: after')) ++ [last] := by
      rw [hsplit]
      simp
    obtain ⟨rfl, -⟩ := List.append_inj' hlog rfl
    exact h before between after' i j name hne rfl

/-! ### Runs -/

/-- The set holds the names whose last event is a registration, and a name that is about to be inserted
is not in the set and is about to be inserted by one session only. -/
structure Server.NameInv {n : Nat} (s : Server n) : Prop where
  held : ∀ name, Held s.log name ↔ s.clientSet.find name = some ()
  free : ∀ i, (s.sessions i).pc = .insert → s.clientSet.find (keyOf (s.sessions i).word) = none
  single : ∀ i j, (s.sessions i).pc = .insert → (s.sessions j).pc = .insert →
    keyOf (s.sessions i).word = keyOf (s.sessions j).word → i = j
  exclusive : Exclusive s.log

theorem nameInv_initial {n : Nat} (bytes ipasstr : Fin n → Bytes) :
    (Server.initial bytes ipasstr).NameInv where
  held name := by simp [Server.initial, Held, TrieT.find_zeroed]
  free i h := by cases h
  single i j h := by cases h
  exclusive := exclusive_nil

theorem Session.command_pc {c : Session} (h : c.pc = .command) : c.command.pc ≠ .insert := by
  rw [Session.command]
  split
  · simp
  · rw [Session.dispatch]
    split
    · simp
    · split
      · split
        · simp [Session.readWord, h]
        · split <;> simp [Session.readWord, h]
      · split
        · simp
        · split <;> simp [Session.readWord, h]

section Step

variable {n : Nat} {s next : Server n} {i : Fin n} {c : Session}

theorem Server.NameInv.quiet (h : s.NameInv) (hset : next.clientSet = s.clientSet)
    (hlog : next.log = s.log) (hsessions : next.sessions = Function.update s.sessions i c)
    (hpc : c.pc ≠ .insert) : next.NameInv := by
  have hkept : ∀ j, (next.sessions j).pc = .insert → next.sessions j = s.sessions j := by
    intro j hj
    rw [hsessions] at hj ⊢
    by_cases hji : j = i
    · rw [hji, Function.update_self] at hj
      exact absurd hj hpc
    · exact Function.update_of_ne hji c s.sessions
  refine ⟨by rw [hset, hlog]; exact h.held, fun j hj => ?_, fun j k hj hk hword => ?_, hlog ▸ h.exclusive⟩
  · have hj' := hkept j hj
    rw [hj'] at hj ⊢
    rw [hset]
    exact h.free j hj
  · have hj' := hkept j hj
    have hk' := hkept k hk
    rw [hj'] at hj hword
    rw [hk'] at hk hword
    exact h.single j k hj hk hword

theorem Server.NameInv.contains (h : s.NameInv) (hset : next.clientSet = s.clientSet)
    (hlog : next.log = s.log) (hsessions : next.sessions = Function.update s.sessions i c)
    (hfree : s.clientSet.find (keyOf c.word) = none)
    (hunraced : ∀ j, j ≠ i → (s.sessions j).pc = .insert →
      keyOf (s.sessions j).word ≠ keyOf c.word) : next.NameInv := by
  have hself : next.sessions i = c := by rw [hsessions, Function.update_self]
  have hothers : ∀ j, j ≠ i → next.sessions j = s.sessions j := fun j hji => by
    rw [hsessions]
    exact Function.update_of_ne hji c s.sessions
  refine ⟨by rw [hset, hlog]; exact h.held, fun j hj => ?_, fun j k hj hk hword => ?_, hlog ▸ h.exclusive⟩
  · rw [hset]
    by_cases hji : j = i
    · rw [hji, hself]
      exact hfree
    · rw [hothers j hji] at hj ⊢
      exact h.free j hj
  · by_cases hji : j = i
    · subst hji
      by_cases hkj : k = j
      · exact hkj.symm
      · rw [hothers k hkj] at hk hword
        rw [hself] at hword
        exact absurd hword.symm (hunraced k hkj hk)
    · rw [hothers j hji] at hj hword
      by_cases hki : k = i
      · subst hki
        rw [hself] at hword
        exact absurd hword (hunraced j hji hj)
      · rw [hothers k hki] at hk hword
        exact h.single j k hj hk hword

/-- A change of the set under one name, logged, by a session that does not go on to an insertion. -/
theorem Server.NameInv.change (h : s.NameInv) {name : Bytes} {val : Option Unit} {e : Event}
    (hset : ∀ key, next.clientSet.find key = if key = name then val else s.clientSet.find key)
    (hlog : next.log = s.log ++ [e]) (habout : ∀ key, about key e = decide (name = key))
    (hval : (∃ k, e = .registered k name) ↔ val = some ())
    (hsessions : next.sessions = Function.update s.sessions i c) (hpc : c.pc ≠ .insert)
    (hfree : val = some () → s.clientSet.find name = none)
    (hunraced : val = some () → ∀ j, j ≠ i → (s.sessions j).pc = .insert →
      keyOf (s.sessions j).word ≠ name) : next.NameInv := by
  have hkept : ∀ j, (next.sessions j).pc = .insert → j ≠ i ∧ next.sessions j = s.sessions j := by
    intro j hj
    rw [hsessions] at hj ⊢
    by_cases hji : j = i
    · rw [hji, Function.update_self] at hj
      exact absurd hj hpc
    · exact ⟨hji, Function.update_of_ne hji c s.sessions⟩
  refine ⟨fun key => ?_, fun j hj => ?_, fun j k hj hk hword => ?_, ?_⟩
  · rw [hlog, hset]
    by_cases hkey : key = name
    · subst hkey
      rw [if_pos rfl, held_append_of_about (by rw [habout]; simp), hval]
    · rw [if_neg hkey, held_append_of_not_about (by rw [habout]; simpa using fun heq => hkey heq.symm)]
      exact h.held key
  · obtain ⟨hji, hj'⟩ := hkept j hj
    rw [hj'] at hj ⊢
    rw [hset]
    split
    case isTrue heq =>
      cases hv : val with
      | none => rfl
      | some u => exact absurd heq (hunraced hv j hji hj)
    case isFalse => exact h.free j hj
  · have hj' := (hkept j hj).2
    have hk' := (hkept k hk).2
    rw [hj'] at hj hword
    rw [hk'] at hk hword
    exact h.single j k hj hk hword
  · rw [hlog]
    refine h.exclusive.append fun j key heq hheld => ?_
    have hkey : name = key := by
      have := habout key
      rw [heq] at this
      simpa [about] using this
    subst hkey
    rw [h.held, hfree (hval.1 ⟨j, heq⟩)] at hheld
    cases hheld

theorem Server.NameInv.step (h : s.NameInv) (hunraced : s.Unraced i) (hstep : s.step i = some next) :
    next.NameInv := by
  cases Server.step_moves hstep with
  | command hpc => exact h.quiet rfl rfl rfl (Session.command_pc hpc)
  | @contains found hpc hfound =>
      obtain ⟨v, hget, hsome⟩ := Option.map_eq_some_iff.1 hfound
      cases found with
      | true => exact h.quiet rfl rfl rfl (by simp)
      | false =>
          have hnone : v = none := by simpa using hsome
          exact h.contains rfl rfl rfl ((find_of_get hget).trans hnone) (hunraced hpc)
  | insert hpc hset =>
      exact h.change (find_of_put hset).2 rfl (fun _ => rfl) (by simp) rfl (by simp)
        (fun _ => h.free i hpc) fun _ j hji hj heq => hji (h.single j i hj hpc heq)
  | put => exact h.quiet rfl rfl rfl (by simp)
  | list => exact h.quiet rfl rfl rfl (by simp)
  | deregister => exact h.quiet rfl rfl rfl (by simp)
  | remove hpc hset =>
      exact h.change (find_of_put hset).2 rfl (fun _ => rfl) (by simp) rfl (by simp) nofun nofun

end Step

/-- **A name is registered by one session at a time**, in every run in which no session looks up a name
that another one is about to insert. -/
theorem exclusive_of_unraced {n : Nat} (bytes ipasstr : Fin n → Bytes) (schedule : List (Fin n))
    (s : Server n) (hunraced : (server n).Within Server.Unraced (.initial bytes ipasstr) schedule)
    (hrun : (server n).run (.initial bytes ipasstr) schedule = some s) : Exclusive s.log :=
  ((server n).invariant_of_within (fun _ _ _ hinv hC hstep => hinv.step hC hstep)
    (nameInv_initial bytes ipasstr) hunraced hrun).exclusive

/-- Two connections that register the name `a`. -/
def registerA : Fin 2 → Bytes :=
  fun _ => ascii ['R', 'E', 'G', 'I', 'S', 'T', 'E', 'R', ' ', 'a', '\n']

/-- The second one comes after the first has been inserted, and is turned away. -/
theorem exclusive_of_unraced_apart : ∃ s,
    (server 2).run (.initial registerA fun _ => []) [0, 0, 0, 1, 1] = some s ∧
      (s.sessions 1).pc = .closed ∧ Exclusive s.log :=
  ⟨_, rfl, rfl, exclusive_of_unraced registerA (fun _ => []) [0, 0, 0, 1, 1] _ (by decide) rfl⟩

/-- Both look the name up before either inserts it. -/
theorem not_exclusive : ¬ ∀ (n : Nat) (bytes ipasstr : Fin n → Bytes) (schedule : List (Fin n))
    (s : Server n), (server n).run (.initial bytes ipasstr) schedule = some s → Exclusive s.log := by
  intro hclaim
  have hexclusive := hclaim 2 registerA (fun _ => []) [0, 1, 0, 1, 0, 1] _ rfl
  obtain ⟨k, hk⟩ := hexclusive [] [] [] 0 1 (ascii ['a']) (by decide) rfl
  cases hk

end NetworkSystems.FileShare
