import NetworkSystems.FileShare.Registry

/-!
# The abstract file map

What `g_file_map` is for: a finite map from file names to records. A machine on such maps has the three
operations of the server, and every run of the server is a run of that machine. `LIST` shows the records
that it writes, each binding once.
-/

namespace NetworkSystems.FileShare

abbrev FileMap := Bytes → Option FileStat

inductive MapOp
  | newfile (stat : FileStat)
  | list (elements : List FileStat)
  | deregister (name : Bytes)
  deriving DecidableEq

/-- The records are those of the map, each once and under its own file name. -/
def Lists (m : FileMap) (elements : List FileStat) : Prop :=
  (elements.map FileStat.fileName).Nodup ∧
    ∀ key stat, m key = some stat ↔ stat ∈ elements ∧ stat.fileName = key

def FileMap.puts (m : FileMap) (elements : List FileStat) : FileMap :=
  elements.foldl (fun m stat => Function.update m stat.fileName (some stat)) m

theorem FileMap.puts_cons (m : FileMap) (stat : FileStat) (elements : List FileStat) :
    m.puts (stat :: elements) =
      FileMap.puts (Function.update m stat.fileName (some stat)) elements := rfl

theorem FileMap.puts_of_notMem {key : Bytes} {elements : List FileStat} (m : FileMap)
    (h : ∀ stat ∈ elements, stat.fileName ≠ key) : m.puts elements key = m key := by
  induction elements generalizing m with
  | nil => rfl
  | cons stat elements ih =>
      rw [FileMap.puts_cons, ih _ fun s hs => h s (List.mem_cons_of_mem _ hs),
        Function.update_of_ne (h stat (by simp)).symm]

theorem FileMap.puts_of_mem {stat : FileStat} {elements : List FileStat} (m : FileMap)
    (hnodup : (elements.map FileStat.fileName).Nodup) (h : stat ∈ elements) :
    m.puts elements stat.fileName = some stat := by
  induction elements generalizing m with
  | nil => cases h
  | cons first elements ih =>
      rw [List.map_cons, List.nodup_cons] at hnodup
      rcases List.mem_cons.1 h with rfl | h
      · rw [FileMap.puts_cons, FileMap.puts_of_notMem, Function.update_self]
        exact fun s hs heq => hnodup.1 (List.mem_map.2 ⟨s, hs, heq⟩)
      · exact ih _ hnodup.2 h

theorem FileMap.puts_of_lists {m : FileMap} {elements : List FileStat} (h : Lists m elements) (m' : FileMap)
    (key : Bytes) : m'.puts elements key = (m key).or (m' key) := by
  cases hkey : m key with
  | some stat =>
      obtain ⟨hmem, rfl⟩ := (h.2 key stat).1 hkey
      exact FileMap.puts_of_mem m' h.1 hmem
  | none =>
      refine FileMap.puts_of_notMem m' fun stat hmem heq => ?_
      rw [(h.2 key stat).2 ⟨hmem, heq⟩] at hkey
      cases hkey

open scoped Classical in
noncomputable def fileMapMachine : Machine FileMap MapOp where
  step m
  | .newfile stat => some (Function.update m stat.fileName (some stat))
  | .list elements => if Lists m elements then some m else none
  | .deregister name => some fun key => (m key).filter fun stat => stat.owner ≠ name

theorem fileMapMachine_list {m : FileMap} {elements : List FileStat} (h : Lists m elements) :
    fileMapMachine.run m [.list elements] = some m := by
  have hstep : fileMapMachine.step m (.list elements) = some m := if_pos h
  rw [Machine.run_cons, hstep]
  rfl

theorem fileMapMachine_list_some {m next : FileMap} {elements : List FileStat}
    (h : fileMapMachine.step m (.list elements) = some next) : next = m := by
  simp only [fileMapMachine] at h
  split at h
  · exact (Option.some.inj h).symm
  · cases h

/-! ### What the server shows -/

/-- The operation on the file map that a step of the server is. -/
def Server.ops {n : Nat} (s : Server n) (i : Fin n) : List MapOp :=
  match (s.sessions i).pc with
  | .put stat => [.newfile stat]
  | .list => [.list s.fileMap.elements]
  | .deregister => [.deregister (cString (s.sessions i).word)]
  | _ => []

theorem trieIterate_printitr (t : TrieT FileStat) (written : Bytes) :
    trieIterate (fun _ => t) printitr written =
      some (written ++ t.elements.flatMap writeFileStat) := by
  change t.slots.foldlM (visitSlot (fun _ => t) printitr) written = _
  rw [TrieT.elements]
  generalize t.slots = slots
  induction slots generalizing written with
  | nil => simp
  | cons slot slots ih =>
      rw [List.foldlM_cons, visitSlot]
      cases hslot : t.find slot with
      | none =>
          rw [List.filterMap_cons_none hslot]
          exact ih written
      | some stat =>
          rw [List.filterMap_cons_some hslot, List.flatMap_cons, ← List.append_assoc]
          exact ih (written ++ writeFileStat stat)

theorem Filed.lists {t : TrieT FileStat} (h : Filed t) : Lists t.find t.elements := by
  have hname : t.elements.map FileStat.fileName = t.slots.filter fun slot => (t.find slot).isSome := by
    rw [TrieT.elements]
    generalize t.slots = slots
    induction slots with
    | nil => rfl
    | cons slot slots ih =>
        cases hslot : t.find slot with
        | none => rw [List.filterMap_cons_none hslot, ih, List.filter_cons_of_neg (by simp [hslot])]
        | some stat =>
            rw [List.filterMap_cons_some hslot, List.map_cons, ih,
              List.filter_cons_of_pos (by simp [hslot]), h.fileName hslot]
  refine ⟨hname ▸ t.nodup_slots.filter _, fun key stat => ?_⟩
  rw [TrieT.elements, List.mem_filterMap]
  constructor
  · intro hkey
    exact ⟨⟨key, mem_slots_of_find hkey, hkey⟩, h.fileName hkey⟩
  · rintro ⟨⟨slot, -, hslot⟩, rfl⟩
    rwa [h.fileName hslot]

section Step

variable {n : Nat} {s next : Server n} {i : Fin n}

theorem Server.RegistryInv.run_ops (h : s.RegistryInv) (hstep : s.step i = some next) :
    fileMapMachine.run s.fileMap.find (s.ops i) = some next.fileMap.find := by
  cases Server.step_moves hstep with
  | command hpc => rw [Server.ops, hpc]; rfl
  | contains hpc => rw [Server.ops, hpc]; rfl
  | insert hpc => rw [Server.ops, hpc]; rfl
  | @put stat fileMap hpc hput =>
      have hfind := find_of_putStat (h.put i stat hpc).1 hput
      rw [Server.ops, hpc]
      change some (Function.update s.fileMap.find stat.fileName (some stat)) = some fileMap.find
      congr 1
      funext key
      rw [hfind, Function.update_apply]
  | list hpc =>
      rw [Server.ops, hpc]
      exact fileMapMachine_list h.filed.lists
  | deregister hpc hiterate =>
      obtain ⟨-, hfind⟩ := h.filed.of_iterate hiterate
      rw [Server.ops, hpc]
      exact congrArg some (funext fun key => (hfind key).symm)
  | remove hpc => rw [Server.ops, hpc]; rfl

theorem server_simulates (n : Nat) : (server n).Simulates fileMapMachine
    (fun s m => s.RegistryInv ∧ s.fileMap.find = m) Server.ops := by
  rintro s i next m ⟨hinv, rfl⟩ hstep
  exact ⟨next.fileMap.find, hinv.run_ops hstep, hinv.step hstep, rfl⟩

theorem Server.step_put_isSome {stat : FileStat} (hpc : (s.sessions i).pc = .put stat)
    (hkey : Key stat.fileName) : (s.step i).isSome := by
  obtain ⟨fileMap, hput⟩ := put_of_key s.fileMap hkey [] (some stat)
  rw [Server.step]
  simp only [hpc, hput, Option.map_some, Option.isSome_some]

theorem Server.RegistryInv.step_deregister_isSome (h : s.RegistryInv)
    (hpc : (s.sessions i).pc = .deregister) : (s.step i).isSome := by
  obtain ⟨fileMap, hiterate, -⟩ := h.filed.deregister (cString (s.sessions i).word)
  rw [Server.step]
  simp only [hpc, hiterate, Option.map_some, Option.isSome_some]

theorem Server.step_list (hpc : (s.sessions i).pc = .list) :
    ∃ next, s.step i = some next ∧ next.fileMap = s.fileMap ∧ (next.sessions i).written =
      (s.sessions i).written ++ (s.fileMap.elements.flatMap writeFileStat ++
        ascii ['E', 'N', 'D', '\n']) := by
  rw [Server.step]
  simp only [hpc, trieIterate_printitr, Option.map_some]
  refine ⟨_, rfl, rfl, ?_⟩
  rw [Server.setSession_self, List.append_assoc]

end Step

/-- **The server refines the abstract map.** A run of the server is a run of the map over the operations
that it shows, and the file map represents the end of that run: every record is bound under its own file
name, `LIST` writes the records that it shows, and none of the operations fails on names that the trie can
walk. -/
theorem server_refines_fileMap {n : Nat} (bytes ipasstr : Fin n → Bytes) (schedule : List (Fin n))
    (s : Server n) (hrun : (server n).run (.initial bytes ipasstr) schedule = some s) :
    fileMapMachine.run (fun _ => none) ((server n).trace Server.ops (.initial bytes ipasstr) schedule) =
      some s.fileMap.find ∧
    (∀ key stat, s.fileMap.find key = some stat → stat.fileName = key) ∧
    (∀ i stat, (s.sessions i).pc = .put stat → Key stat.fileName → (s.step i).isSome) ∧
    (∀ i, (s.sessions i).pc = .deregister → (s.step i).isSome) ∧
    ∀ i, (s.sessions i).pc = .list → ∃ next, s.step i = some next ∧ next.fileMap = s.fileMap ∧
      (next.sessions i).written = (s.sessions i).written ++
        (s.fileMap.elements.flatMap writeFileStat ++ ascii ['E', 'N', 'D', '\n']) := by
  have hempty : (Server.initial bytes ipasstr).fileMap.find = fun _ => none :=
    funext fun key => TrieT.find_zeroed key
  obtain ⟨m, hm, hinv, rfl⟩ := (server_simulates n).run
    ⟨registryInv_initial bytes ipasstr, hempty⟩ hrun
  exact ⟨hm, fun _ _ hkey => hinv.filed.fileName hkey, fun _ _ hpc hkey => Server.step_put_isSome hpc hkey,
    fun _ hpc => hinv.step_deregister_isSome hpc, fun _ hpc => Server.step_list hpc⟩

/-- One connection posts a file and asks for the list, the other one posts a file and leaves. -/
def postAndLeave (i : Fin 2) : Bytes :=
  if i.val = 0 then
    ascii ['N', 'E', 'W', 'F', 'I', 'L', 'E', ' ', 'x', '/', '5', ':', 'a', ':', ':', '8', '\n',
      'L', 'I', 'S', 'T', '\n']
  else
    ascii ['N', 'E', 'W', 'F', 'I', 'L', 'E', ' ', 'y', '/', '6', ':', 'b', ':', ':', '9', '\n',
      'D', 'E', 'R', 'E', 'G', 'I', 'S', 'T', 'E', 'R', ' ', 'b', '\n']

theorem server_refines_fileMap_left : ∃ s,
    (server 2).run (.initial postAndLeave fun _ => []) [1, 0, 0, 1, 0, 1, 1, 0] = some s ∧
      s.fileMap.find (ascii ['x']) = some ⟨ascii ['x'], 5, ascii ['a'], [], 8⟩ ∧
      s.fileMap.find (ascii ['y']) = none ∧
      (server 2).trace Server.ops (.initial postAndLeave fun _ => []) [1, 0, 0, 1, 0, 1, 1, 0] =
        [.newfile ⟨ascii ['x'], 5, ascii ['a'], [], 8⟩, .newfile ⟨ascii ['y'], 6, ascii ['b'], [], 9⟩,
          .deregister (ascii ['b']), .list [⟨ascii ['x'], 5, ascii ['a'], [], 8⟩]] ∧
      fileMapMachine.run (fun _ => none)
        ((server 2).trace Server.ops (.initial postAndLeave fun _ => []) [1, 0, 0, 1, 0, 1, 1, 0]) =
          some s.fileMap.find := by
  have hend : ((server 2).run (.initial postAndLeave fun _ => []) [1, 0, 0, 1, 0, 1, 1, 0]).map
      (fun s => (s.fileMap.find (ascii ['x']), s.fileMap.find (ascii ['y']))) =
        some (some ⟨ascii ['x'], 5, ascii ['a'], [], 8⟩, none) := by decide +kernel
  obtain ⟨s, hrun, heq⟩ := Option.map_eq_some_iff.1 hend
  rw [Prod.mk.injEq] at heq
  exact ⟨s, hrun, heq.1, heq.2, by decide +kernel,
    (server_refines_fileMap postAndLeave (fun _ => []) [1, 0, 0, 1, 0, 1, 1, 0] s hrun).1⟩

end NetworkSystems.FileShare
