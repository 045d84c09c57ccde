import NetworkSystems.Lib.Machine
import Mathlib.Data.List.Induction
import NetworkSystems.FileShare.Server

/-!
# Runs of puts

The abstract trie is a function from keys to values, and a put replaces its value at one key. After any
puts a search finds what the function holds.
-/

namespace NetworkSystems.FileShare

structure Put (α : Type) where
  mem : Bytes
  val : Option α

def tries (α : Type) : Machine (TrieT α) (Put α) where
  step t put := triePut t put.mem put.val

section Stored

variable {α : Type}

def stored (puts : List (Put α)) : Bytes → Option α :=
  puts.foldl (fun held put => Function.update held (keyOf put.mem) put.val) fun _ => none

theorem stored_concat (puts : List (Put α)) (put : Put α) :
    stored (puts ++ [put]) = Function.update (stored puts) (keyOf put.mem) put.val := by
  rw [stored, List.foldl_append]
  rfl

/-- The tries of runs hold what has been stored, under keys that they can walk. -/
theorem find_of_run {puts : List (Put α)} {t : TrieT α} (hrun : (tries α).run .zeroed puts = some t) :
    t.find = stored puts ∧ ∀ key, t.find key ≠ none → Key key := by
  induction puts using List.reverseRecOn generalizing t with
  | nil =>
      obtain rfl := Option.some.inj hrun
      exact ⟨funext TrieT.find_zeroed, fun key hkey => absurd (TrieT.find_zeroed key) hkey⟩
  | append_singleton puts put ih =>
      rw [Machine.run_concat, Option.bind_eq_some_iff] at hrun
      obtain ⟨mid, hmid, hput⟩ := hrun
      obtain ⟨hheld, hkeys⟩ := ih hmid
      obtain ⟨hkey, hfind⟩ := find_of_put hput
      refine ⟨?_, fun key hbound => ?_⟩
      · funext key
        rw [hfind, stored_concat, Function.update_apply, hheld]
      · rw [hfind] at hbound
        split at hbound
        case isTrue heq => exact heq ▸ hkey
        case isFalse => exact hkeys key hbound

theorem get_of_put {t t' : TrieT α} {key key' : Bytes} {mem mem' : Bytes} {val : Option α}
    (hkey : Key key) (hkey' : Key key') (h : triePut t (key ++ 0 :: mem) val = some t') :
    trieGet t' (key' ++ 0 :: mem') = if key' = key then some val else trieGet t (key' ++ 0 :: mem') := by
  rw [get_of_key t' hkey', get_of_key t hkey', (find_of_put h).2, keyOf_append hkey, apply_ite some]

end Stored

/-- **The trie is a finite map**: after any puts, another put succeeds, and it changes what a search
returns for its own key only. -/
theorem get_of_puts {α : Type} (puts : List (Put α)) (t : TrieT α)
    (hrun : (tries α).run .zeroed puts = some t) (key mem : Bytes) (hkey : Key key) (val : Option α) :
    ∃ t', triePut t (key ++ 0 :: mem) val = some t' ∧
      (∀ mem', trieGet t' (key ++ 0 :: mem') = some val) ∧
      ∀ key' mem', Key key' → key' ≠ key →
        trieGet t' (key' ++ 0 :: mem') = trieGet t (key' ++ 0 :: mem') ∧
          trieGet t (key' ++ 0 :: mem') = some (stored puts key') := by
  obtain ⟨t', hput⟩ := put_of_key t hkey mem val
  refine ⟨t', hput, fun mem' => ?_, fun key' mem' hkey' hne => ⟨?_, ?_⟩⟩
  · rw [get_of_put hkey hkey hput, if_pos rfl]
  · rw [get_of_put hkey hkey' hput, if_neg hne]
  · rw [get_of_key t hkey', (find_of_run hrun).1]

/-- The name `ab` is put where `a` is, and `a` is then removed. -/
theorem get_of_puts_prefix : ∃ t t' : TrieT Nat, triePut t [97, 0] none = some t' ∧
    trieGet t' [97, 0] = some none ∧ trieGet t' [97, 98, 0] = some (some 2) := by
  obtain ⟨t, hrun⟩ := Option.isSome_iff_exists.1 (show ((tries Nat).run .zeroed
    [⟨[97, 0], some 1⟩, ⟨[97, 98, 0], some 2⟩]).isSome = true by decide +kernel)
  obtain ⟨t', hput, hown, hothers⟩ := get_of_puts _ t hrun [97] [] (by decide +kernel) none
  obtain ⟨hsame, hheld⟩ := hothers [97, 98] [] (by decide +kernel) (by decide +kernel)
  exact ⟨t, t', hput, hown [], hsame.trans hheld⟩

end NetworkSystems.FileShare
