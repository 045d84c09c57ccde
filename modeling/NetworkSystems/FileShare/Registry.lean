import NetworkSystems.FileShare.Server

/-!
# The file map

What the critical sections do to `g_file_map`, as a finite map. Every record is bound under its own file
name, so the put of `NULL` with which `deregister_itr` removes a record hits the slot that is being
visited, and `DEREGISTER` removes exactly the records of the owner.
-/

namespace NetworkSystems.FileShare

/-- Every record is bound under its own file name, which the trie can walk and is not one of the two
directory entries. -/
structure Filed (t : TrieT FileStat) : Prop where
  fileName : ∀ {key stat}, t.find key = some stat → stat.fileName = key
  key : ∀ {key stat}, t.find key = some stat → Key key
  dots : t.find (ascii ['.']) = none ∧ t.find (ascii ['.', '.']) = none

theorem filed_zeroed : Filed .zeroed where
  fileName h := by rw [TrieT.find_zeroed] at h; cases h
  key h := by rw [TrieT.find_zeroed] at h; cases h
  dots := ⟨TrieT.find_zeroed _, TrieT.find_zeroed _⟩

theorem keyOf_terminated_of_put {α : Type} {t t' : TrieT α} {s : Bytes} {val : Option α}
    (hs : (0 : UInt8) ∉ s) (h : triePut t (s ++ [0]) val = some t') : keyOf (s ++ [0]) = s := by
  cases s with
  | nil => cases h
  | cons ch rest => exact keyOf_of_notMem (by simp) (List.not_mem_of_not_mem_cons hs) []

section Updates

variable {t t' : TrieT FileStat} {stat : FileStat}

theorem find_of_putStat (hstat : (0 : UInt8) ∉ stat.fileName) {val : Option FileStat}
    (h : triePut t (stat.fileName ++ [0]) val = some t') (key : Bytes) :
    t'.find key = if key = stat.fileName then val else t.find key := by
  rw [(find_of_put h).2, keyOf_terminated_of_put hstat h]

theorem Filed.put (hfiled : Filed t) (hstat : (0 : UInt8) ∉ stat.fileName)
    (hdots : stat.fileName ≠ ascii ['.'] ∧ stat.fileName ≠ ascii ['.', '.'])
    (h : triePut t (stat.fileName ++ [0]) (some stat) = some t') : Filed t' := by
  have hfind := find_of_putStat hstat h
  refine ⟨fun {key found} hkey => ?_, fun {key found} hkey => ?_, ?_, ?_⟩
  · rw [hfind] at hkey
    split at hkey
    case isTrue heq => rw [heq, ← Option.some.inj hkey]
    case isFalse => exact hfiled.fileName hkey
  · rw [hfind] at hkey
    split at hkey
    case isTrue heq =>
      have hput := (find_of_put h).1
      rwa [keyOf_terminated_of_put hstat h, ← heq] at hput
    case isFalse => exact hfiled.key hkey
  · rw [hfind, if_neg (Ne.symm hdots.1)]
    exact hfiled.dots.1
  · rw [hfind, if_neg (Ne.symm hdots.2)]
    exact hfiled.dots.2

/-- One visit of `deregister_itr`: the slot is emptied when its record has the owner. -/
theorem Filed.visit (hfiled : Filed t) (name slot : Bytes) :
    ∃ t', visitSlot id (deregisterItr name) t slot = some t' ∧ t'.slots = t.slots ∧
      ∀ key, t'.find key =
        if key = slot then (t.find key).filter fun stat => stat.owner ≠ name else t.find key := by
  simp only [visitSlot, id_eq]
  cases hslot : t.find slot with
  | none =>
      refine ⟨t, rfl, rfl, fun key => ?_⟩
      split
      case isTrue heq => rw [heq, hslot]; rfl
      case isFalse => rfl
  | some stat =>
      have hname := hfiled.fileName hslot
      simp only [deregisterItr]
      by_cases howner : stat.owner = name
      · have hkey := hfiled.key hslot
        obtain ⟨t', hput⟩ := put_of_key t hkey [] none
        rw [if_pos howner, hname]
        refine ⟨t', hput, slots_of_put hslot hkey hput, fun key => ?_⟩
        rw [(find_of_put hput).2, keyOf_append hkey]
        split
        case isTrue heq => rw [heq, hslot, Option.filter_some_neg (by simpa using howner)]
        case isFalse => rfl
      · rw [if_neg howner]
        refine ⟨t, rfl, rfl, fun key => ?_⟩
        split
        case isTrue heq => rw [heq, hslot, Option.filter_some_pos (by simpa using howner)]
        case isFalse => rfl

theorem Filed.of_filter (hfiled : Filed t) (hfind : ∀ key stat, t'.find key = some stat →
    t.find key = some stat) : Filed t' where
  fileName h := hfiled.fileName (hfind _ _ h)
  key h := hfiled.key (hfind _ _ h)
  dots := by
    refine ⟨?_, ?_⟩ <;> rw [Option.eq_none_iff_forall_ne_some] <;> intro stat hstat
    · exact absurd (hfind _ _ hstat) (by rw [hfiled.dots.1]; simp)
    · exact absurd (hfind _ _ hstat) (by rw [hfiled.dots.2]; simp)

/-- **`DEREGISTER` removes exactly the records of the owner.** The iteration never leaves the arrays, and
the slots that it goes through are there from its beginning to its end. -/
theorem Filed.deregister (hfiled : Filed t) (name : Bytes) :
    ∃ t', trieIterate id (deregisterItr name) t = some t' ∧ Filed t' ∧ t'.slots = t.slots ∧
      ∀ key, t'.find key = (t.find key).filter fun stat => stat.owner ≠ name := by
  let I := fun (visited : List Bytes) (mid : TrieT FileStat) => Filed mid ∧ mid.slots = t.slots ∧
    ∀ key, mid.find key = if key ∈ visited then (t.find key).filter fun stat => stat.owner ≠ name else t.find key
  have hvisit : ∀ visited slot mid, I visited mid →
      ∃ mid', visitSlot id (deregisterItr name) mid slot = some mid' ∧ I (visited ++ [slot]) mid' := by
    rintro visited slot mid ⟨hmid, hslots, hfind⟩
    obtain ⟨mid', hvisit, hslots', hfind'⟩ := hmid.visit name slot
    refine ⟨mid', hvisit, hmid.of_filter fun key stat hkey => ?_, hslots'.trans hslots, fun key => ?_⟩
    · rw [hfind'] at hkey
      split at hkey
      case isTrue => exact (Option.filter_eq_some_iff.1 hkey).1
      case isFalse => exact hkey
    · rw [hfind', hfind]
      simp only [List.mem_append, List.mem_singleton]
      by_cases hslot : key = slot
      · by_cases hvisited : key ∈ visited
        · rw [if_pos hslot, if_pos hvisited, if_pos (Or.inl hvisited), Option.filter_filter]
          simp
        · rw [if_pos hslot, if_neg hvisited, if_pos (Or.inr hslot)]
      · by_cases hvisited : key ∈ visited
        · rw [if_neg hslot, if_pos hvisited, if_pos (Or.inl hvisited)]
        · rw [if_neg hslot, if_neg hvisited, if_neg (by simp [hslot, hvisited])]
  obtain ⟨t', hrun, hfiled', hslots, hfind⟩ := trieIterate_rule id (deregisterItr name) I hvisit t
    ⟨hfiled, rfl, fun key => by rw [if_neg (by simp)]⟩
  refine ⟨t', hrun, hfiled', hslots, fun key => ?_⟩
  rw [hfind]
  split
  case isTrue => rfl
  case isFalse hslot =>
    cases hkey : t.find key with
    | none => rfl
    | some stat => exact absurd (mem_slots_of_find hkey) hslot

theorem Filed.of_iterate (hfiled : Filed t) {name : Bytes}
    (hiterate : trieIterate id (deregisterItr name) t = some t') :
    Filed t' ∧ ∀ key, t'.find key = (t.find key).filter fun stat => stat.owner ≠ name := by
  obtain ⟨t'', hrun, hfiled', -, hfind⟩ := hfiled.deregister name
  obtain rfl := Option.some.inj (hrun.symm.trans hiterate)
  exact ⟨hfiled', hfind⟩

end Updates

/-! ### In every reachable state -/

section Reachable

variable {n : Nat} {s next : Server n} {i : Fin n}

structure Server.RegistryInv (s : Server n) : Prop where
  filed : Filed s.fileMap
  put : ∀ i stat, (s.sessions i).pc = .put stat → (0 : UInt8) ∉ stat.fileName ∧
    stat.fileName ≠ ascii ['.'] ∧ stat.fileName ≠ ascii ['.', '.']

theorem registryInv_initial (bytes ipasstr : Fin n → Bytes) :
    (Server.initial bytes ipasstr).RegistryInv where
  filed := filed_zeroed
  put i stat h := by cases h

theorem not_mem_cString (mem : Bytes) : (0 : UInt8) ∉ cString mem := fun h => by
  simpa using List.mem_takeWhile_imp h

theorem readFileStat_fileName {fd fd' : File} {stat : FileStat}
    (h : readFileStat fd = (some stat, fd')) : (0 : UInt8) ∉ stat.fileName := by
  obtain ⟨last, hread⟩ := readFileStatEnd_of_readFileStat h
  obtain ⟨-, name, _, _, _, _, -, hname, -⟩ := readFileStatEnd_eq_some hread
  exact hname ▸ not_mem_cString name

/-- What a thread is about to put is a record that it has read, with the address of its peer. -/
theorem Session.command_put {c : Session} (h : c.pc = .command) {stat : FileStat}
    (hput : c.command.pc = .put stat) : ∃ fd fd' tmp, readFileStat fd = (some tmp, fd') ∧
      stat = { tmp with hostName := c.ipasstr } ∧
      tmp.fileName ≠ ascii ['.'] ∧ tmp.fileName ≠ ascii ['.', '.'] := by
  rw [Session.command] at hput
  split at hput
  · cases hput
  · rw [Session.dispatch] at hput
    split at hput
    · cases hput
    · split at hput
      · split at hput
        · simp [Session.readWord, h] at hput
        · rename_i tmp asfile hread
          split at hput
          case isTrue hdots =>
            obtain rfl : { tmp with hostName := c.readWord.ipasstr } = stat := Pc.put.inj hput
            exact ⟨_, _, tmp, hread, rfl, hdots⟩
          case isFalse => simp [Session.readWord, h] at hput
      · split at hput
        · cases hput
        · split at hput
          · cases hput
          · simp [Session.readWord, h] at hput

theorem Server.RegistryInv.quiet (h : s.RegistryInv) (next : Server n) {c : Session}
    (hmap : next.fileMap = s.fileMap)
    (hsessions : next.sessions = Function.update s.sessions i c)
    (hput : ∀ stat, c.pc = .put stat → (0 : UInt8) ∉ stat.fileName ∧
      stat.fileName ≠ ascii ['.'] ∧ stat.fileName ≠ ascii ['.', '.']) : next.RegistryInv := by
  refine ⟨hmap ▸ h.filed, fun j stat hj => ?_⟩
  rw [hsessions] at hj
  by_cases hji : j = i
  · rw [hji, Function.update_self] at hj
    exact hput stat hj
  · rw [Function.update_of_ne hji] at hj
    exact h.put j stat hj

theorem Server.RegistryInv.step (h : s.RegistryInv) (hstep : s.step i = some next) :
    next.RegistryInv := by
  cases Server.step_moves hstep with
  | command hpc =>
      refine h.quiet _ rfl rfl fun stat hput => ?_
      obtain ⟨fd, fd', tmp, hread, rfl, hdots⟩ := Session.command_put hpc hput
      have hname : (0 : UInt8) ∉ tmp.fileName := readFileStat_fileName hread
      exact ⟨hname, hdots⟩
  | @contains found => exact h.quiet _ rfl rfl fun stat hput => by cases found <;> cases hput
  | insert => exact h.quiet _ rfl rfl nofun
  | @put stat fileMap hpc hput =>
      obtain ⟨hname, hdots⟩ := h.put i stat hpc
      exact { h.quiet (s.setSession i { s.sessions i with pc := .command }) rfl rfl nofun with
        filed := h.filed.put hname hdots hput }
  | list => exact h.quiet _ rfl rfl nofun
  | deregister hpc hiterate =>
      obtain ⟨hfiled, -⟩ := h.filed.of_iterate hiterate
      exact { h.quiet (s.setSession i { s.sessions i with pc := .remove }) rfl rfl nofun with
        filed := hfiled }
  | remove => exact h.quiet _ rfl rfl nofun

end Reachable

/-- A state that some interleaving of the connections leads to. -/
def Server.Reachable {n : Nat} (s : Server n) : Prop :=
  ∃ bytes ipasstr schedule, (server n).run (.initial bytes ipasstr) schedule = some s

theorem Server.Reachable.registryInv {n : Nat} {s : Server n} (h : s.Reachable) : s.RegistryInv := by
  obtain ⟨bytes, ipasstr, schedule, hrun⟩ := h
  exact (server n).invariant (fun _ _ _ hinv hstep => hinv.step hstep)
    (registryInv_initial bytes ipasstr) hrun

end NetworkSystems.FileShare
