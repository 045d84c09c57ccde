import NetworkSystems.FileShare.Completion

/-!
# Copies

`get` empties the file of that name before it asks the owner of the record for it. From another client that
is still there it copies what that client has under the name; a client that is its own peer is left with
the empty file.
-/

namespace NetworkSystems.FileShare

section Get

variable {filename : Bytes} {files : Bytes → Option Bytes} {chance : Chance}

/-- What a peer's answer leaves in the file, when its header comes in one piece. -/
theorem get_eq (hname : Ordinary filename) (hwhole : 4 ≤ chance.fromPeer 0)
    (hsmall : ∀ content, files filename = some content → content.length < 2 ^ 32) :
    (get files filename chance.toPeer chance.fromPeer chance.stale).map Prod.fst =
      some ((files filename).getD []) := by
  obtain ⟨-, hlength, hchars, -⟩ := hname
  cases hcontent : files filename with
  | none =>
      have hsent : peerListener files ⟨fileRequest filename, chance.toPeer⟩ = some [] := by
        have hline : readFname 8191 ⟨filename ++ [0x0a], chance.toPeer⟩ = some filename :=
          readFname_line (by omega) (fun hmem => (hchars _ hmem).2.1 rfl) _
        rw [fileRequest, List.take_of_length_le (by rw [List.length_append, List.length_singleton]; omega),
          peerListener, hline, Option.map_some, cString_eq_self fun hmem => (hchars _ hmem).2.2 rfl, hcontent]
      have hdownload : ∀ len arrival, (download len ⟨[], arrival⟩).1 = [] := by
        intro len arrival
        rw [download]
        split
        · rfl
        · rw [if_pos (Incoming.read_eq_nil _ rfl)]
      rw [get, hsent, Option.map_some, Option.map_some, Incoming.read_nil]
      exact congrArg some (hdownload _ _)
  | some content =>
      have hheader : (htonl (UInt32.ofNat content.length)).length = 4 := length_bigEndian 4 _
      have hread : Incoming.read ⟨htonl (UInt32.ofNat content.length) ++ content, chance.fromPeer⟩ 4 =
          (htonl (UInt32.ofNat content.length), ⟨content, fun k => chance.fromPeer (k + 1)⟩) := by
        rw [← hheader]
        exact Incoming.read_of_arrived content (by omega)
      let fd : Incoming UInt8 := ⟨content, fun k => chance.fromPeer (k + 1)⟩
      have hnowrap : NoWrap fd := noWrap_of_lt (hsmall content hcontent)
      have hdownload : download (UInt32.ofNat fd.bytes.length) fd = (fd.bytes, false) :=
        (download_iff rfl).2 hnowrap
      have hstale : chance.stale.drop 4 = [] := List.drop_of_length_le chance.stale_length.le
      rw [get, peerListener_eq (by omega) (fun ch hch => (hchars ch hch).2) hcontent, Option.map_some, hread]
      simp only [hheader, hstale, List.append_nil, ntohl_htonl, Option.map_some, Option.getD_some]
      rw [hdownload]

theorem getFile_eq {disk : Bytes → Option Bytes} {connect : Bytes → UInt16 → Option Listener} {fs : FileStat}
    {listener : Listener} (hname : Ordinary filename) (hconnect : connect fs.hostName fs.port = some listener)
    (hopens : chance.opens = true) (hwhole : 4 ≤ chance.fromPeer 0)
    (hsmall : ∀ content, listener.files (Function.update disk filename (some [])) filename = some content →
      content.length < 2 ^ 32) :
    getFile disk connect chance filename fs = some (Function.update disk filename
      (some ((listener.files (Function.update disk filename (some [])) filename).getD []))) := by
  obtain ⟨result, hget, hresult⟩ := Option.map_eq_some_iff.1 (get_eq hname hwhole hsmall)
  simp only [getFile, hconnect, hopens, if_true, hget, Option.map_some, hresult, Function.update_idem]

end Get

namespace Sharing

variable {n : ℕ} {s : Sharing n} {i : Fin n} {hostname : Bytes} {port : UInt16}

/-- What client `i` is given by the listener of client `j` after it has emptied its own file. -/
def served (s : Sharing n) (i j : Fin n) (filename : Bytes) : Bytes :=
  if j = i then [] else ((s.clients j).disk filename).getD []

def listener (s : Sharing n) (i j : Fin n) : Listener := if j = i then .own else .peer (s.clients j).disk

theorem getD_files (s : Sharing n) (i j : Fin n) (disk : Bytes → Option Bytes) (filename : Bytes) :
    ((s.listener i j).files (Function.update disk filename (some [])) filename).getD [] =
      s.served i j filename := by
  rw [listener, served]
  split
  · rw [Listener.files, Function.update_self, Option.getD_some]
  · rfl

theorem length_files {j : Fin n} {disk : Bytes → Option Bytes} {filename : Bytes}
    (hsmall : ∀ content, (s.clients j).disk filename = some content → content.length < 2 ^ 32) :
    ∀ content, (s.listener i j).files (Function.update disk filename (some [])) filename = some content →
      content.length < 2 ^ 32 := by
  intro content hcontent
  rw [listener] at hcontent
  split at hcontent
  · rw [Listener.files, Function.update_self] at hcontent
    obtain rfl := Option.some.inj hcontent
    decide
  · exact hsmall content hcontent

theorem connect_eq_some {peer : Listener} (h : s.connect i hostname port = some peer) :
    ∃ j, (s.server.sessions j).ipasstr = hostname ∧ (s.clients j).port = port ∧ (s.clients j).state ≠ none ∧
      peer = s.listener i j := by
  obtain ⟨j, hfind, rfl⟩ := Option.map_eq_some_iff.1 h
  have hj := List.find?_some hfind
  rw [decide_eq_true_eq] at hj
  exact ⟨j, hj.1, hj.2.1, hj.2.2, rfl⟩

theorem clientStep_of_call {chance : Chance} {c : ClientT}
    (hcall : (s.clients i).call (decide ((s.server.sessions i).pc = .closed)) (s.connect i) chance = some c)
    (hfd : c.fd = (s.clients i).fd) :
    s.clientStep i chance = some { s with clients := Function.update s.clients i c } := by
  have hserver : s.server.setSession i ((s.server.sessions i).receive []) = s.server := by
    rw [Session.receive_nil, Server.setSession, Function.update_eq_self]
  rw [clientStep, hcall, Option.map_some, hfd, List.drop_length, List.flatten_nil, hserver]

namespace Inv

variable {users : Fin n → User} {addr : Fin n → Fin 4 → UInt8}

/-- The address of a record leads to the client that has posted it, as long as that is there. -/
theorem connect_eq (h : s.Inv users addr)
    (hpeers : Function.Injective fun j => (inetNtoa (addr j), (users j).port)) (j : Fin n) :
    s.connect i (inetNtoa (addr j)) (users j).port = if (s.clients j).state = none then none
      else some (s.listener i j) := by
  have hpeer : ∀ k, (s.server.sessions k).ipasstr = inetNtoa (addr k) ∧ (s.clients k).port = (users k).port := by
    intro k
    obtain ⟨_, _, _, hlinked⟩ := h.linked k
    exact ⟨hlinked.ipasstr, hlinked.tells.port⟩
  have honly : ∀ k, (s.server.sessions k).ipasstr = inetNtoa (addr j) →
      (s.clients k).port = (users j).port → k = j := by
    intro k hip hport
    rw [(hpeer k).1] at hip
    rw [(hpeer k).2] at hport
    exact hpeers (Prod.ext hip hport)
  cases hconnect : s.connect i (inetNtoa (addr j)) (users j).port with
  | none =>
      rw [Sharing.connect, Option.map_eq_none_iff, List.find?_eq_none] at hconnect
      have hnot := hconnect j (List.mem_finRange j)
      simp only [hpeer, true_and, decide_eq_true_eq, not_not, ne_eq] at hnot
      rw [if_pos hnot]
  | some listener =>
      obtain ⟨k, hip, hport, hthere, rfl⟩ := Sharing.connect_eq_some hconnect
      obtain rfl := honly k hip hport
      rw [if_neg hthere]

end Inv

end Sharing

/-- A user with a file `x` of one byte, and one who lists the files and asks for `x`. -/
def pair (i : Fin 2) : User :=
  if i.val = 0 then { leaving with disk := oneByte }
  else ⟨ascii ['b'], 81, [], [ascii ['l', 's', '\n'], ascii ['g', 'e', 't', ' ', 'x', '\n']], fun _ => none⟩

theorem pair_valid : ∀ i, (pair i).Valid := by
  intro i
  match i with
  | 0 => exact ⟨leaving_valid.name, leaving_valid.dir⟩
  | 1 => exact ⟨by decide +kernel, by decide +kernel⟩

theorem pair_names : Function.Injective fun i => (pair i).name := by
  intro i j
  revert i j
  decide

/-- The file opens, and the header comes in one piece. -/
def Chance.ready : Chance := { Chance.none with opens := true }

def readily (move : Bool × Fin 2) : SharingStep 2 := if move.1 then .server move.2 else .client move.2 .ready

def listed : List (Bool × Fin 2) :=
  [(false, poster), (true, poster), (true, poster), (true, poster), (false, poster), (true, poster),
    (true, poster), (false, asker), (true, asker), (true, asker), (true, asker), (false, asker), (false, asker),
    (false, asker), (true, asker), (true, asker), (false, asker)]

/-- The second client is about to ask for `x`, which is in its table, and the first one has it. -/
theorem run_listed : ∃ s, (sharing 2).run (.start pair fun _ => inetNtoa loopback) (listed.map readily) = some s ∧
    (s.clients 1).state = some .waitForInput ∧
    (s.clients 1).stdin = [ascii ['g', 'e', 't', ' ', 'x', '\n']] ∧
    ((s.clients 1).files.find (ascii ['x'])).isSome ∧ (s.clients 0).disk (ascii ['x']) = some [7] ∧
    (s.clients 1).disk (ascii ['x']) = none := by
  have hlast : ((sharing 2).run (.start pair fun _ => inetNtoa loopback) (listed.map readily)).map (fun s =>
      decide ((s.clients 1).state = some .waitForInput ∧
        (s.clients 1).stdin = [ascii ['g', 'e', 't', ' ', 'x', '\n']] ∧
        ((s.clients 1).files.find (ascii ['x'])).isSome ∧ (s.clients 0).disk (ascii ['x']) = some [7] ∧
        (s.clients 1).disk (ascii ['x']) = none)) = some true := by decide +kernel
  obtain ⟨s, hrun, hs⟩ := Option.map_eq_some_iff.1 hlast
  exact ⟨s, hrun, of_decide_eq_true hs⟩

end NetworkSystems.FileShare
