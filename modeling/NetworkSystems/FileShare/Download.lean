import NetworkSystems.Lib.Machine
import NetworkSystems.FileShare.Transfer

/-!
# The counter of a download

The loop of `get` pass by pass. A read takes up to 4096 bytes, however many the counter `len` still
expects, and `len` is unsigned: a read of more than that wraps it around.
-/

namespace NetworkSystems.FileShare

/-- The loop of `get`: the counter, the connection, and what has been written to the file. -/
structure Download where
  len : UInt32
  fd : Incoming UInt8
  output : Bytes

/-- One pass of the loop. There is none when the condition is false, and none that gets past the `break`. -/
def downloading : Machine Download Unit where
  step d _ :=
    if d.len = 0 then none
    else if (d.fd.read 4096).1 = [] then none
    else
      some ⟨d.len - UInt32.ofNat (d.fd.read 4096).1.length, (d.fd.read 4096).2,
        d.output ++ (d.fd.read 4096).1⟩

namespace Download

/-- What is asked of the loop before a pass: it has not written more than was announced, the pass does not
raise the counter, and there is no pass when all has been written or the peer has stopped. -/
structure Kept (announced : Nat) (d : Download) : Prop where
  written : d.output.length ≤ announced
  counts : ∀ next, downloading.step d () = some next → next.len ≤ d.len
  ends : d.output.length = announced ∨ d.fd.bytes = [] → downloading.step d () = none

def Keeps (announced : Nat) (d : Download) : Prop :=
  ∀ count, downloading.Throughout (Kept announced) d (List.replicate count ())

/-- The peer sends at most what it has announced, or some of the reads return exactly as much. -/
def Fits (len : UInt32) (fd : Incoming UInt8) : Prop :=
  fd.bytes.length ≤ len.toNat ∨ ∃ count, (fd.reads 4096 count).bytes.length + len.toNat = fd.bytes.length

section Pass

variable {d next : Download} {announced : Nat}

theorem step_eq_some (h : downloading.step d () = some next) :
    d.len ≠ 0 ∧ d.fd.bytes ≠ [] ∧ next = ⟨d.len - UInt32.ofNat (d.fd.read 4096).1.length,
      (d.fd.read 4096).2, d.output ++ (d.fd.read 4096).1⟩ := by
  simp only [downloading] at h
  split at h
  · cases h
  case isFalse hlen =>
    split at h
    · cases h
    case isFalse hread =>
      exact ⟨hlen, fun hnil => hread (d.fd.read_eq_nil hnil), (Option.some.inj h).symm⟩

theorem step_eq_none (h : downloading.step d () = none) : d.len = 0 ∨ d.fd.bytes = [] := by
  simp only [downloading] at h
  split at h
  case isTrue hlen => exact Or.inl hlen
  case isFalse =>
    split at h
    case isTrue hread =>
      apply Or.inr
      by_contra hne
      exact d.fd.read_ne_nil (by decide) hne hread
    case isFalse => cases h

/-- The passes come to an end, with what `download` returns. -/
theorem repeats_download (len : UInt32) (fd : Incoming UInt8) (output : Bytes) :
    ∃ last, downloading.Repeats () ⟨len, fd, output⟩ last ∧ downloading.step last () = none ∧
      last.output = output ++ (download len fd).1 ∧ ((download len fd).2 = true ↔ last.len ≠ 0) := by
  fun_induction download len fd generalizing output with
  | case1 fd =>
      exact ⟨_, .refl, by simp [downloading], (List.append_nil _).symm, by simp⟩
  | case2 len fd hlen hread =>
      exact ⟨_, .refl, by simp [downloading, hread], (List.append_nil _).symm, by simp [hlen]⟩
  | case3 len fd hlen hread rest ih =>
      obtain ⟨last, hrepeats, hend, houtput, herror⟩ := ih (output ++ (fd.read 4096).1)
      have hstep : downloading.step ⟨len, fd, output⟩ () = some
          ⟨len - UInt32.ofNat (fd.read 4096).1.length, (fd.read 4096).2, output ++ (fd.read 4096).1⟩ := by
        simp only [downloading, if_neg hlen, if_neg hread]
      refine ⟨last, .head hstep hrepeats, hend, ?_, herror⟩
      rw [houtput, List.append_assoc]

theorem keeps_iff : d.Keeps announced ↔
    d.Kept announced ∧ ∀ next, downloading.step d () = some next → next.Keeps announced := by
  constructor
  · intro h
    exact ⟨h 0, fun next hnext count => (h (count + 1)).2 next hnext⟩
  · rintro ⟨hkept, hnext⟩ count
    cases count with
    | zero => exact hkept
    | succ count => exact ⟨hkept, fun next hstep => hnext next hstep count⟩

end Pass

section Counter

variable {d : Download} {announced : Nat} {len : UInt32} {fd : Incoming UInt8}

theorem read_length (fd : Incoming UInt8) :
    (fd.read 4096).1.length + (fd.read 4096).2.bytes.length = fd.bytes.length := by
  rw [← List.length_append, fd.read_append]

theorem sub_toNat {count : Nat} (h : count ≤ len.toNat) :
    (len - UInt32.ofNat count).toNat = len.toNat - count := by
  have hcount : (UInt32.ofNat count).toNat = count := UInt32.toNat_ofNat_of_lt' (h.trans_lt len.toNat_lt)
  rw [UInt32.toNat_sub_of_le _ _ (by rw [UInt32.le_iff_toNat_le, hcount]; exact h), hcount]

theorem fits_read (hlen : len ≠ 0) (h : (fd.read 4096).1.length ≤ len.toNat) :
    Fits len fd ↔ Fits (len - UInt32.ofNat (fd.read 4096).1.length) (fd.read 4096).2 := by
  have hlength := read_length fd
  have hpos : len.toNat ≠ 0 := fun h0 => hlen (UInt32.toNat_inj.1 h0)
  rw [Fits, Fits, sub_toNat h]
  constructor
  · rintro (hle | ⟨count, hcount⟩)
    · exact Or.inl (by omega)
    · cases count with
      | zero =>
          rw [Incoming.reads] at hcount
          omega
      | succ count =>
          rw [Incoming.reads] at hcount
          exact Or.inr ⟨count, by omega⟩
  · rintro (hle | ⟨count, hcount⟩)
    · exact Or.inl (by omega)
    · refine Or.inr ⟨count + 1, ?_⟩
      rw [Incoming.reads]
      omega

/-- A read of more than is expected means that the stream is longer, and that no reads make up the size. -/
theorem not_fits_read (hlen : len ≠ 0) (h : len.toNat < (fd.read 4096).1.length) : ¬ Fits len fd := by
  have hlength := read_length fd
  have hpos : len.toNat ≠ 0 := fun h0 => hlen (UInt32.toNat_inj.1 h0)
  rintro (hle | ⟨count, hcount⟩)
  · omega
  · cases count with
    | zero =>
        rw [Incoming.reads] at hcount
        omega
    | succ count =>
        have hle := reads_length_le (fd.read 4096).2 count
        rw [Incoming.reads] at hcount
        omega

theorem keeps_iff_of_sum (h : d.output.length + d.len.toNat = announced) :
    d.Keeps announced ↔ Fits d.len d.fd := by
  generalize hlength : d.fd.bytes.length = length
  induction length using Nat.strongRecOn generalizing d with
  | ind length ih =>
      rw [keeps_iff]
      cases hstep : downloading.step d () with
      | none =>
          refine iff_of_true ⟨⟨by omega, fun next hnext => ?_, fun _ => hstep⟩, nofun⟩ ?_
          · rw [hstep] at hnext
            cases hnext
          · rcases step_eq_none hstep with hlen | hnil
            · exact Or.inr ⟨0, by rw [hlen]; rfl⟩
            · exact Or.inl (by rw [hnil]; exact Nat.zero_le _)
      | some next =>
          obtain ⟨hlen, hbytes, rfl⟩ := step_eq_some hstep
          have hpos : d.len.toNat ≠ 0 := fun h0 => hlen (UInt32.toNat_inj.1 h0)
          by_cases hread : (d.fd.read 4096).1.length ≤ d.len.toNat
          · have hsub := sub_toNat hread
            have hcount : (d.output ++ (d.fd.read 4096).1).length +
                (d.len - UInt32.ofNat (d.fd.read 4096).1.length).toNat = announced := by
              rw [hsub, List.length_append]
              omega
            have hlt := d.fd.read_length_lt (show 0 < 4096 by decide) hbytes
            have hnext := ih _ (hlength ▸ hlt) (d := ⟨d.len - UInt32.ofNat (d.fd.read 4096).1.length,
              (d.fd.read 4096).2, d.output ++ (d.fd.read 4096).1⟩) hcount rfl
            rw [fits_read hlen hread, ← hnext]
            constructor
            · exact fun hall => hall.2 _ rfl
            · refine fun hnext => ⟨⟨by omega, fun next heq => ?_, fun hend => ?_⟩, fun next heq => ?_⟩
              · rw [hstep] at heq
                rw [← Option.some.inj heq, UInt32.le_iff_toNat_le, hsub]
                exact Nat.sub_le _ _
              · rcases hend with hall | hnil
                · omega
                · exact absurd hnil hbytes
              · exact Option.some.inj heq ▸ hnext
          · refine iff_of_false (fun hall => ?_) (not_fits_read hlen (Nat.lt_of_not_le hread))
            have hwritten := ((keeps_iff.1 (hall.2 _ rfl)).1).written
            rw [List.length_append] at hwritten
            omega

end Counter

end Download

/-- **When a download keeps to the announced size**: exactly if the peer sends no more than that, or the
reads come to that size on the way. -/
theorem keeps_iff_fits (len : UInt32) (fd : Incoming UInt8) :
    Download.Keeps len.toNat ⟨len, fd, []⟩ ↔ Download.Fits len fd :=
  Download.keeps_iff_of_sum (Nat.zero_add _)

/-- One byte is announced, and two are sent at once: both are written, and the counter is then 2^32 - 1. -/
theorem not_keeps : ¬ ∀ (len : UInt32) (fd : Incoming UInt8), Download.Keeps len.toNat ⟨len, fd, []⟩ := by
  intro hclaim
  have hkept := (hclaim 1 ⟨[7, 7], fun _ => 2⟩ 1).2 _ rfl
  exact absurd hkept.written (by decide)

end NetworkSystems.FileShare
