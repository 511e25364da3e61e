import RaftConsensus.Model.Loops
import RaftConsensus.NextIndex

/-!
# Reads of the log by heartbeats

For a next index `k` and a nonempty log, `send_heartbeat` reads the term of `m_log[k-1]`. No next
index is above the size of the log, but one can be `0`: it is set to the size of an empty log when
a leader is elected or handles a `SetCluster` message, and a rejection takes it from `1` to `0`. The
first command that a new cluster replicates is sent with such an index
(`not_heartbeat_in_range_firstPass`).

`Server.placed` says when a stimulus sets the next index and whether it leaves an entry before it,
and `heartbeat_in_range_iff` that the read of a heartbeat is in range exactly when the last stimulus
that set the next index did.
-/

set_option autoImplicit false
set_option relaxedAutoImplicit false

namespace RaftConsensus

open TransitionSystem

namespace Mboxes

variable {m : Mboxes} {name : ByteString} {index : ℤ}

/-- Setting the next indices sets the one of a known name. -/
theorem get_setNextIndices_of_mem (h : name ∈ m) :
    ((m.setNextIndices index).get name).nextIndex = index := by
  obtain ⟨peer, hpeer⟩ := Option.isSome_iff_exists.mp (AList.lookup_isSome.mpr h)
  rw [get, lookup_setNextIndices, hpeer]
  rfl

/-- Setting the next indices sets none for an unknown name. -/
theorem get_setNextIndices_of_not_mem (h : name ∉ m) :
    ((m.setNextIndices index).get name).nextIndex = (m.get name).nextIndex := by
  rw [get, get, lookup_setNextIndices, AList.lookup_eq_none.mpr h]
  rfl

end Mboxes

namespace Server

variable {s s' : Server} {x : Stimulus} {out : List Output} {peer : ByteString}

/-- Whether a stimulus that sets the next index for a peer leaves an entry of the log before it: the
end of `leader.on_enter` and a `SetCluster` message do when the log is nonempty, and so does a
successful result; a rejection at index `1` does not. -/
def placed (peer : ByteString) (s : Server) : Stimulus → Option Bool
  | .resume =>
    if s.agent = .leaderUnlock ∧ peer ∈ s.mboxes then some (decide (s.log ≠ [])) else none
  | .handle (.setCluster sc) =>
    if s.agent = .idle ∧ peer ∈ sc.mboxes.map Prod.fst then some (decide (s.log ≠ []))
    else none
  | .handle (.appendEntryResult aer) =>
    if s.agent = .idle ∧ s.role = .leader ∧ aer.followerName = peer then
      if aer.success then if s.log ≠ [] then some true else none
      else if s.nextIndexFor peer = 1 then some false else none
    else none
  | _ => none

/-- What a result does to the next index of its follower. -/
theorem nextIndexFor_consistencyCheck (aer : AppendEntryResult) :
    (s.consistencyCheck aer).nextIndexFor aer.followerName =
      if !aer.success then
        if 0 ≤ s.nextIndexFor aer.followerName - 1 then s.nextIndexFor aer.followerName - 1
        else s.nextIndexFor aer.followerName
      else
        if 0 ≤ s.nextIndexFor aer.followerName ∧
            s.nextIndexFor aer.followerName < s.log.length then (s.log.length : ℤ)
        else s.nextIndexFor aer.followerName := by
  unfold nextIndexFor consistencyCheck
  rw [Mboxes.get_insert_self]

/-- The term of a position of the log does not depend on what a read out of range yields exactly
when the position is in range. -/
theorem termAt_eq_iff {log : List Entry} {k : ℤ} :
    (∀ garbage garbage', termAt log k garbage = termAt log k garbage') ↔
      0 ≤ k ∧ k < log.length := by
  unfold termAt
  constructor
  · intro h
    by_contra hrange
    have hread := h 0 1
    by_cases hk : 0 ≤ k
    · have hnone : log[k.toNat]? = none := by
        rw [List.getElem?_eq_none_iff]
        omega
      simp [hk, hnone] at hread
    · simp [hk] at hread
  · rintro ⟨hk, hlt⟩ garbage garbage'
    have hpos : k.toNat < log.length := by omega
    simp [hk, List.getElem?_eq_getElem hpos]

/-- The message for a next index does not depend on what a read out of range yields exactly when the
next index has an entry of the log before it. -/
theorem heartbeatFor_eq_iff {k : ℤ} (hlog : s.log ≠ []) :
    (∀ garbage garbage', s.heartbeatFor k garbage = s.heartbeatFor k garbage') ↔
      1 ≤ k ∧ k ≤ s.log.length := by
  have hread : (∀ garbage garbage', s.heartbeatFor k garbage = s.heartbeatFor k garbage') ↔
      ∀ garbage garbage', termAt s.log (k - 1) garbage = termAt s.log (k - 1) garbage' := by
    simp [heartbeatFor, hlog]
  rw [hread, termAt_eq_iff]
  omega

/-- A result places the next index of its follower as the event says. -/
theorem placed_result {aer : AppendEntryResult} (hidle : s.agent = .idle) (hrole : s.role = .leader)
    (hnonneg : 0 ≤ s.nextIndexFor aer.followerName)
    (hle : s.nextIndexFor aer.followerName ≤ s.log.length) :
    0 ≤ (s.consistencyCheck aer).nextIndexFor aer.followerName ∧
      (0 < (s.consistencyCheck aer).nextIndexFor aer.followerName ↔
        (s.placed aer.followerName (.handle (.appendEntryResult aer))).getD
          (decide (0 < s.nextIndexFor aer.followerName)) = true) := by
  have hplaced : s.placed aer.followerName (.handle (.appendEntryResult aer)) =
      if aer.success then if s.log ≠ [] then some true else none
      else if s.nextIndexFor aer.followerName = 1 then some false else none :=
    if_pos ⟨hidle, hrole, rfl⟩
  rw [nextIndexFor_consistencyCheck, hplaced]
  generalize s.nextIndexFor aer.followerName = k at hnonneg hle ⊢
  cases aer.success with
  | false =>
    rcases lt_trichotomy k 1 with hzero | rfl | hmany
    · obtain rfl : k = 0 := le_antisymm (Int.lt_add_one_iff.mp hzero) hnonneg
      simp
    · simp
    · simp [hmany.ne']
      omega
  | true =>
    by_cases hlog : s.log = []
    · obtain rfl : k = 0 := by
        rw [hlog] at hle
        exact le_antisymm hle hnonneg
      simp [hlog]
    · have hpos := List.length_pos_iff.mpr hlog
      by_cases hlast : k < s.log.length
      · simp [hlog, hlast, hnonneg, hpos]
      · simp [hlog, hlast]
        omega

/-- A next index is not negative, and it is positive as the last stimulus says that set it. -/
theorem Effect.nextIndexFor_pos_iff (h : s.Effect x s' out) (hnonneg : 0 ≤ s.nextIndexFor peer)
    (hle : s.nextIndexFor peer ≤ s.log.length) :
    0 ≤ s'.nextIndexFor peer ∧ (0 < s'.nextIndexFor peer ↔
      (s.placed peer x).getD (decide (0 < s.nextIndexFor peer)) = true) := by
  have hkept (hindex : s'.nextIndexFor peer = s.nextIndexFor peer)
      (hplaced : s.placed peer x = none) :
      0 ≤ s'.nextIndexFor peer ∧ (0 < s'.nextIndexFor peer ↔
        (s.placed peer x).getD (decide (0 < s.nextIndexFor peer)) = true) := by
    rw [hindex, hplaced]
    exact ⟨hnonneg, by simp⟩
  have hset (hindex : s'.nextIndexFor peer = s.log.length)
      (hplaced : s.placed peer x = some (decide (s.log ≠ []))) :
      0 ≤ s'.nextIndexFor peer ∧ (0 < s'.nextIndexFor peer ↔
        (s.placed peer x).getD (decide (0 < s.nextIndexFor peer)) = true) := by
    rw [hindex, hplaced, Nat.cast_pos, List.length_pos_iff]
    exact ⟨Nat.cast_nonneg _, by simp⟩
  cases h
  case setCluster sc hidle =>
    have hindex : (s.setClusterHandler sc).nextIndexFor peer =
        if peer ∈ sc.mboxes.map Prod.fst then (s.log.length : ℤ) else s.nextIndexFor peer := by
      rw [nextIndexFor, setClusterHandler, Mboxes.get_foldl_insert_nextIndex, nextIndexFor]
    by_cases hmem : peer ∈ sc.mboxes.map Prod.fst
    · exact hset (hindex.trans (if_pos hmem)) (if_pos ⟨hidle, hmem⟩)
    · exact hkept (hindex.trans (if_neg hmem)) (if_neg fun h ↦ hmem h.2)
  case result aer hidle hrole =>
    by_cases hname : aer.followerName = peer
    · subst hname
      exact placed_result hidle hrole hnonneg hle
    · refine hkept ?_ (by rw [placed, if_neg fun h ↦ hname h.2.2])
      rw [nextIndexFor, consistencyCheck, Mboxes.get_insert_of_ne (Ne.symm hname), nextIndexFor]
  case leaderUnlock hagent =>
    by_cases hmem : peer ∈ s.mboxes
    · exact hset (Mboxes.get_setNextIndices_of_mem hmem) (by rw [placed, if_pos ⟨hagent, hmem⟩])
    · exact hkept (Mboxes.get_setNextIndices_of_not_mem hmem)
        (by rw [placed, if_neg fun h ↦ hmem h.2])
  case countVote | answerVote => exact hkept (by simp [nextIndexFor]) rfl
  case drop msg hidle hsubscribes =>
    refine hkept rfl ?_
    cases msg <;> simp_all [placed, Role.subscribes]
  all_goals exact hkept rfl (by simp_all [placed])

end Server

namespace Cluster

variable {m : Membership} {c : Cluster} {trace : History} {name peer : ByteString}

/-- The last stimulus that set the next index of a server for a peer left an entry of the log before
it. -/
def RaisedLast (history : History) (name peer : ByteString) : Prop :=
  (history.filterMap (observeAt name (Server.placed peer))).getLast? = some true

instance : Decidable (RaisedLast trace name peer) :=
  inferInstanceAs (Decidable (_ = _))

/-- In a run a next index is never negative, and it is positive exactly when the last stimulus that
set it left an entry before it. -/
theorem nextIndexFor_pos_iff (hrun : Run m initial trace c) :
    0 ≤ (c.servers name).nextIndexFor peer ∧
      (0 < (c.servers name).nextIndexFor peer ↔ RaisedLast trace name peer) := by
  induction hrun with
  | nil => simp [RaisedLast, initial, Server.initial, Server.nextIndexFor]
  | @snoc trace middle final action hrest hstep ih =>
    unfold RaisedLast at ih ⊢
    rw [List.filterMap_append]
    rcases (step_effect hstep).observeAt_cases name (Server.placed peer) with
      ⟨hsame, hnone⟩ | ⟨x, out, -, heffect, hobserved⟩
    · rw [List.filterMap_cons_none hnone, List.filterMap_nil, List.append_nil, hsame]
      exact ih
    · obtain ⟨hnonneg, hiff⟩ :=
        heffect.nextIndexFor_pos_iff ih.1 (nextIndexFor_le hrest name peer)
      refine ⟨hnonneg, hiff.trans ?_⟩
      cases hplaced : (middle.servers name).placed peer x with
      | none =>
        rw [List.filterMap_cons_none (hobserved.trans hplaced), List.filterMap_nil,
          List.append_nil, ← ih.2]
        simp
      | some raised =>
        rw [List.filterMap_cons_some (hobserved.trans hplaced), List.filterMap_nil,
          List.getLast?_append]
        simp

end Cluster

/-- In every state of every run, the next index of a server with a nonempty log for a peer is one
that `send_heartbeat` can use, from `1` to the size of the log, so that the message does not depend
on what a read out of range yields, exactly when the last stimulus that set the next index left an
entry before it. -/
theorem heartbeat_in_range_iff {m : Membership} {trace : Cluster.History} {c : Cluster}
    (hrun : Cluster.Run m .initial trace c) {name : ByteString} (peer : ByteString)
    (hlog : (c.servers name).log ≠ []) :
    let s := c.servers name
    (1 ≤ s.nextIndexFor peer ∧ s.nextIndexFor peer ≤ s.log.length ∧ ∀ garbage garbage',
        s.heartbeatFor (s.nextIndexFor peer) garbage =
          s.heartbeatFor (s.nextIndexFor peer) garbage') ↔
      Cluster.RaisedLast trace name peer := by
  intro s
  rw [← (Cluster.nextIndexFor_pos_iff hrun).2]
  constructor
  · exact fun h ↦ h.1
  · intro hpos
    have hle := Cluster.nextIndexFor_le hrun name peer
    exact ⟨hpos, hle, (Server.heartbeatFor_eq_iff hlog).mpr ⟨hpos, hle⟩⟩

/-- A leader that has handled the result of its first command uses an index in range. -/
theorem heartbeat_in_range_iff_replication :
    let actions := Schedule.replication ++ Schedule.acknowledge
      (Schedule.firstLeaderEntries 0 0 ["ADD;5"]) ⟨bytes "server2", 1, true⟩
    let c := finalState (Cluster.next Schedule.trio) .initial actions
    (c.servers (bytes "server1")).log ≠ [] ∧
      1 ≤ (c.servers (bytes "server1")).nextIndexFor (bytes "server2") := by
  intro actions c
  have hrun : Cluster.Run Schedule.trio .initial _ c := run_of_isOk (by decide)
  have hlog : (c.servers (bytes "server1")).log ≠ [] := by decide
  exact ⟨hlog, ((heartbeat_in_range_iff hrun (bytes "server2") hlog).mpr (by decide)).1⟩

/-- A new leader accepts its first command, and its `send_heartbeat` loop begins a pass. -/
def Schedule.firstPass : List Action :=
  form trio ++ firstElection ++ request (bytes "server1") "ADD;5" ++
    [.internal (bytes "server1") (.heartbeatStep 0)]

/-- The pass that sends the first command reads before the beginning of the log. -/
theorem not_heartbeat_in_range_firstPass :
    ¬ ∀ (m : Membership) (trace : Cluster.History) (c : Cluster) (name peer : ByteString) (i : ℕ)
      (remaining : List ByteString), Cluster.Run m .initial trace c →
        (c.servers name).role = .leader → (c.servers name).log ≠ [] →
        (c.servers name).heartbeatThreads[i]? = some (.sending remaining) → peer ∈ remaining →
        peer ≠ name → 1 ≤ (c.servers name).nextIndexFor peer := by
  intro hclaim
  have hrun : (execute (Cluster.next Schedule.trio) .initial Schedule.firstPass).isOk := by decide
  exact absurd (hclaim _ _ _ (bytes "server1") (bytes "server2") 0
    Schedule.trio.names.reverse (run_of_isOk hrun) (by decide) (by decide) (by decide) (by decide)
    (by decide)) (by decide)

end RaftConsensus
