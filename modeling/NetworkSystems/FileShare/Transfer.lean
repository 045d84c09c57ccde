import NetworkSystems.Lib.Wire
import NetworkSystems.FileShare.FileStat

/-!
# The transfer of a file between peers

A client that wants a file writes its name to a peer, and the peer's listener answers with the size in a
header of four bytes and with the content. The client reads the header with one call, whatever part of it
has arrived, and then reads content until as many bytes have come as the header says.
-/

namespace NetworkSystems.FileShare

/-! ### The listener -/

/-- The loop that reads the file name, one byte at a time. Without a newline it waits for more. -/
def readFname : Nat → Incoming UInt8 → Option Bytes
  | 0, _ => some []
  | room + 1, peer =>
      match peer.read 1 with
      | ([], _) => none
      | (ch :: _, peer) => if ch = 0x0a then some [] else (readFname room peer).map (ch :: ·)

/-- The loop of `fread` and `write`. -/
def sendLoop (tmp : Bytes) : Bytes :=
  if tmp = [] then [] else tmp.take 4096 ++ sendLoop (tmp.drop 4096)
termination_by tmp.length
decreasing_by
  rename_i h
  have := List.length_pos_iff.2 h
  rw [List.length_drop]
  omega

/-- What `peer_listener` writes to a peer before it closes the connection. `files` gives the contents of
the files that there are. -/
def peerListener (files : Bytes → Option Bytes) (peer : Incoming UInt8) : Option Bytes :=
  (readFname 8191 peer).map fun fname =>
    match files (cString fname) with
    | some content => htonl (UInt32.ofNat content.length) ++ sendLoop content
    | none => []

/-! ### The client -/

def fileRequest (filename : Bytes) : Bytes := (filename ++ [0x0a]).take 4095

/-- The loop of `get`: what it writes to the file, and whether it takes the error branch. -/
def download (len : UInt32) (fd : Incoming UInt8) : Bytes × Bool :=
  if len = 0 then ([], false)
  else if (fd.read 4096).1 = [] then ([], true)
  else
    let rest := download (len - UInt32.ofNat (fd.read 4096).1.length) (fd.read 4096).2
    ((fd.read 4096).1 ++ rest.1, rest.2)
termination_by fd.bytes.length
decreasing_by
  rename_i h
  exact fd.read_length_lt (by decide) fun hnil => h (fd.read_eq_nil hnil)

/-- `get` of a file from a peer that has the given files. The bytes arrive in pieces in both directions,
and `len` holds what was in its memory where the header is not read into it. -/
def get (files : Bytes → Option Bytes) (filename : Bytes) (toPeer fromPeer : Nat → Nat) (stale : Bytes) :
    Option (Bytes × Bool) :=
  (peerListener files ⟨fileRequest filename, toPeer⟩).map fun sent =>
    let result := Incoming.read ⟨sent, fromPeer⟩ 4
    download (ntohl (result.1 ++ stale.drop result.1.length)) result.2

/-- Whatever `len` held, `get` writes the content and takes no error branch. -/
def Fetches (files : Bytes → Option Bytes) (filename : Bytes) (toPeer fromPeer : Nat → Nat)
    (content : Bytes) : Prop :=
  ∀ stale, stale.length = 4 → get files filename toPeer fromPeer stale = some (content, false)

/-- After no read is the number of bytes to come a positive multiple of 2^32. -/
def NoWrap (fd : Incoming UInt8) : Prop :=
  ∀ k, (fd.reads 4096 k).bytes ≠ [] → ¬ 2 ^ 32 ∣ (fd.reads 4096 k).bytes.length

/-! ### What is sent -/

theorem readFname_line {name : Bytes} {room : Nat} (hroom : name.length < room)
    (hname : (0x0a : UInt8) ∉ name) (arrival : Nat → Nat) :
    readFname room ⟨name ++ [0x0a], arrival⟩ = some name := by
  induction name generalizing room arrival with
  | nil =>
      obtain ⟨room, rfl⟩ : ∃ r, room = r + 1 := ⟨room - 1, by omega⟩
      rw [List.nil_append, readFname, Incoming.read_one]
      rfl
  | cons ch name ih =>
      rw [List.mem_cons, not_or] at hname
      rw [List.length_cons] at hroom
      obtain ⟨room, rfl⟩ : ∃ r, room = r + 1 := ⟨room - 1, by omega⟩
      have hrest : name.length < room := by omega
      rw [List.cons_append, readFname, Incoming.read_one]
      simp only [if_neg fun heq => hname.1 (Eq.symm heq), ih hrest hname.2, Option.map_some]

theorem sendLoop_eq (content : Bytes) : sendLoop content = content := by
  fun_induction sendLoop content with
  | case1 => rfl
  | case2 tmp _ ih => rw [ih, List.take_append_drop]

theorem peerListener_eq {files : Bytes → Option Bytes} {filename content : Bytes}
    (hlength : filename.length < 4095) (hname : ∀ ch ∈ filename, ch ≠ 0x0a ∧ ch ≠ 0)
    (hcontent : files filename = some content) (arrival : Nat → Nat) :
    peerListener files ⟨fileRequest filename, arrival⟩ =
      some (htonl (UInt32.ofNat content.length) ++ content) := by
  rw [fileRequest, List.take_of_length_le (by rw [List.length_append, List.length_singleton]; omega),
    peerListener, readFname_line (by omega) (fun hmem => (hname _ hmem).1 rfl), Option.map_some,
    cString_eq_self fun hmem => (hname _ hmem).2 rfl, hcontent]
  simp only [sendLoop_eq]

/-! ### What is received -/

theorem reads_nil {fd : Incoming UInt8} (h : fd.bytes = []) (k : Nat) : (fd.reads 4096 k).bytes = [] := by
  induction k generalizing fd with
  | zero => exact h
  | succ k ih =>
      apply ih
      rw [Incoming.read, h, List.drop_nil]

theorem noWrap_read {fd : Incoming UInt8} (h : fd.bytes ≠ []) :
    NoWrap fd ↔ ¬ 2 ^ 32 ∣ fd.bytes.length ∧ NoWrap (fd.read 4096).2 := by
  constructor
  · exact fun hall => ⟨hall 0 h, fun k => hall (k + 1)⟩
  · rintro ⟨hfirst, hrest⟩ k
    cases k with
    | zero => exact fun _ => hfirst
    | succ k => exact hrest k

/-- The loop counts down to the end of the stream exactly if its counter does not get to zero before. -/
theorem download_iff {fd : Incoming UInt8} {len : UInt32} (hlen : len = UInt32.ofNat fd.bytes.length) :
    download len fd = (fd.bytes, false) ↔ NoWrap fd := by
  generalize hlength : fd.bytes.length = length
  induction length using Nat.strongRecOn generalizing fd len with
  | ind length ih =>
      by_cases hnil : fd.bytes = []
      · have hzero : len = 0 := by
          rw [hlen, hnil]
          rfl
        rw [download, if_pos hzero, hnil]
        exact ⟨fun _ k hk => absurd (reads_nil hnil k) hk, fun _ => rfl⟩
      · have hdvd : len = 0 ↔ 2 ^ 32 ∣ fd.bytes.length := by
          rw [hlen, ← UInt32.toNat_inj, UInt32.toNat_ofNat', UInt32.toNat_zero, Nat.dvd_iff_mod_eq_zero]
        rw [noWrap_read hnil, ← hdvd, download]
        by_cases hzero : len = 0
        · rw [if_pos hzero, Prod.mk.injEq]
          exact ⟨fun heq => absurd heq.1.symm hnil, fun h => absurd hzero h.1⟩
        · have hread := fd.read_ne_nil (show 0 < 4096 by decide) hnil
          have happend := fd.read_append 4096
          have hlt := fd.read_length_lt (show 0 < 4096 by decide) hnil
          rw [if_neg hzero, if_neg hread]
          have hsum := congrArg List.length happend
          rw [List.length_append] at hsum
          have hnext : len - UInt32.ofNat (fd.read 4096).1.length =
              UInt32.ofNat (fd.read 4096).2.bytes.length := by
            rw [hlen, ← hsum, UInt32.ofNat_add, UInt32.add_comm, UInt32.add_sub_cancel]
          have hrest := ih _ (by omega) hnext rfl
          rw [← hrest, Prod.mk.injEq]
          constructor
          · rintro ⟨hbytes, herror⟩
            refine ⟨hzero, Prod.ext ?_ herror⟩
            exact List.append_cancel_left (hbytes.trans happend.symm)
          · rintro ⟨-, heq⟩
            rw [heq]
            exact ⟨happend, rfl⟩

/-- Without the error branch, as many bytes are written as the counter says. -/
theorem download_length {fd : Incoming UInt8} {len : UInt32} (h : (download len fd).2 = false) :
    UInt32.ofNat (download len fd).1.length = len := by
  generalize hlength : fd.bytes.length = length
  induction length using Nat.strongRecOn generalizing fd len with
  | ind length ih =>
      rw [download] at h ⊢
      by_cases hzero : len = 0
      · rw [if_pos hzero, hzero]
        rfl
      · rw [if_neg hzero] at h ⊢
        by_cases hread : (fd.read 4096).1 = []
        · rw [if_pos hread] at h
          cases h
        · rw [if_neg hread] at h ⊢
          have hlt := fd.read_length_lt (show 0 < 4096 by decide) fun hnil => hread (fd.read_eq_nil hnil)
          have hrest := ih _ (by omega) h rfl
          rw [List.length_append, UInt32.ofNat_add, hrest, UInt32.add_comm, UInt32.sub_add_cancel]

theorem reads_length_le (fd : Incoming UInt8) (k : Nat) :
    (fd.reads 4096 k).bytes.length ≤ fd.bytes.length := by
  induction k generalizing fd with
  | zero => exact Nat.le_refl _
  | succ k ih =>
      refine (ih (fd.read 4096).2).trans ?_
      rw [Incoming.read, List.length_drop]
      exact Nat.sub_le _ _

theorem noWrap_of_lt {fd : Incoming UInt8} (h : fd.bytes.length < 2 ^ 32) : NoWrap fd := by
  intro k hnil hdvd
  have hle := reads_length_le fd k
  have hpos := List.length_pos_iff.2 hnil
  have := Nat.le_of_dvd hpos hdvd
  omega

/-! ### The whole transfer -/

section Get

variable {files : Bytes → Option Bytes} {filename content : Bytes} {toPeer fromPeer : Nat → Nat}

/-- The last byte of the header that is not read changes the counter. -/
theorem ntohl_concat_ne (front : Bytes) : ntohl (front ++ [0]) ≠ ntohl (front ++ [1]) := by
  intro heq
  rw [ntohl, ntohl, ofBigEndian_concat, ofBigEndian_concat, ← UInt32.toNat_inj, UInt32.toNat_ofNat',
    UInt32.toNat_ofNat'] at heq
  change (_ + 0) % _ = (_ + 1) % _ at heq
  omega

/-- **The transfer is faithful** exactly if the first read returns the whole header and the counter does
not wrap to zero on the way. -/
theorem fetches_iff_noWrap (hlength : filename.length < 4095)
    (hname : ∀ ch ∈ filename, ch ≠ 0x0a ∧ ch ≠ 0) (hcontent : files filename = some content) :
    Fetches files filename toPeer fromPeer content ↔
      4 ≤ fromPeer 0 ∧ NoWrap ⟨content, fun k => fromPeer (k + 1)⟩ := by
  have hsent := peerListener_eq hlength hname hcontent toPeer
  by_cases hwhole : 4 ≤ fromPeer 0
  · have hheader : (htonl (UInt32.ofNat content.length)).length = 4 := length_bigEndian 4 _
    have hread : Incoming.read ⟨htonl (UInt32.ofNat content.length) ++ content, fromPeer⟩ 4 =
        (htonl (UInt32.ofNat content.length), ⟨content, fun k => fromPeer (k + 1)⟩) := by
      rw [← hheader]
      exact Incoming.read_of_arrived content (by omega)
    have hget : ∀ stale, stale.length = 4 → get files filename toPeer fromPeer stale =
        some (download (UInt32.ofNat content.length) ⟨content, fun k => fromPeer (k + 1)⟩) := by
      intro stale hstale
      rw [get, hsent, Option.map_some, hread]
      simp only [hheader]
      rw [List.drop_of_length_le (by omega), List.append_nil, ntohl_htonl]
    rw [← download_iff rfl]
    refine ⟨fun hall => ⟨hwhole, ?_⟩, fun h stale hstale => ?_⟩
    · exact Option.some.inj ((hget (List.replicate 4 0) rfl).symm.trans (hall _ rfl))
    · rw [hget stale hstale, h.2]
  · refine ⟨fun hall => ?_, fun h => absurd h.1 hwhole⟩
    -- two contents of the last byte of `len` cannot both be the size
    let result := Incoming.read ⟨htonl (UInt32.ofNat content.length) ++ content, fromPeer⟩ 4
    have hshort : result.1.length ≤ 3 := by
      simp only [result, Incoming.read, List.length_take]
      omega
    let front := result.1 ++ (List.replicate 3 0).drop result.1.length
    have hlen : ∀ byte, ntohl (front ++ [byte]) = UInt32.ofNat content.length := by
      intro byte
      have hget := hall (List.replicate 3 0 ++ [byte]) rfl
      rw [get, hsent, Option.map_some, Option.some.injEq] at hget
      change download (ntohl (result.1 ++ (List.replicate 3 0 ++ [byte]).drop result.1.length)) result.2 =
        (content, false) at hget
      have hstale : result.1.length ≤ (List.replicate 3 (0 : UInt8)).length := hshort
      rw [List.drop_append_of_le_length hstale, ← List.append_assoc] at hget
      have hcount := download_length (congrArg Prod.snd hget)
      rw [hget] at hcount
      exact hcount.symm
    exact absurd ((hlen 0).trans (hlen 1).symm) (ntohl_concat_ne front)

end Get

/-- A peer with one file `x`, of the one byte 7. -/
def oneByte (name : Bytes) : Option Bytes := if name = ascii ['x'] then some [7] else none

theorem oneByte_x : oneByte (ascii ['x']) = some [7] := rfl

theorem fetches_iff_noWrap_oneByte : Fetches oneByte (ascii ['x']) (fun _ => 1) (fun _ => 4) [7] :=
  (fetches_iff_noWrap (by decide) (by decide +kernel) oneByte_x).2 ⟨by decide, noWrap_of_lt (by decide)⟩

/-- Three bytes of the header arrive first, and `len` holds zeros: the file stays empty. -/
theorem not_fetches : ¬ ∀ (files : Bytes → Option Bytes) (filename content : Bytes)
    (toPeer fromPeer : Nat → Nat), filename.length < 4095 → (∀ ch ∈ filename, ch ≠ 0x0a ∧ ch ≠ 0) →
      files filename = some content → Fetches files filename toPeer fromPeer content := by
  intro hclaim
  have hfetch := hclaim oneByte (ascii ['x']) [7] (fun _ => 1) (fun _ => 3) (by decide) (by decide +kernel)
    oneByte_x [0, 0, 0, 0] rfl
  rw [get, peerListener_eq (by decide) (by decide +kernel) oneByte_x, Option.map_some,
    Option.some.injEq, download, if_pos (by decide)] at hfetch
  cases hfetch

end NetworkSystems.FileShare
