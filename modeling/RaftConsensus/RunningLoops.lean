import RaftConsensus.SelfElection
import RaftConsensus.TermBounds
import RaftConsensus.Requests
import RaftConsensus.HeartbeatLoops

/-!
# How many loops run at once

Every candidacy starts a `send_request_vote` loop, which ends only when it finds `m_is_candidate`
cleared at its test. A loop that sleeps while a candidacy ends and the next one begins goes on with
the loop of this one. So as many loops can be in a pass at once as there have been candidacies, and
no more (`loops_at_once`), and each of them asks every server for its vote.

Of the `send_heartbeat` loops only one is in a pass at a time: the others wait for the mutex.
-/

set_option autoImplicit false
set_option relaxedAutoImplicit false

namespace RaftConsensus

open TransitionSystem

/-- The loop is in a pass. -/
def RequestVoteLoop.sends : RequestVoteLoop → Bool
  | .sending _ => true
  | .test | .done => false

/-- The loop is in a pass. -/
def HeartbeatLoop.sends : HeartbeatLoop → Bool
  | .sending _ => true
  | .lock | .test | .unlock | .done => false

namespace Server

variable {m : Membership} {name : ByteString} {s s' : Server} {x : Stimulus} {out : List Output}

/-- A server starts a `send_request_vote` loop with every candidacy, and with nothing else. -/
theorem Effect.requestVoteThreads_length (h : s.Effect x s' out) :
    s'.requestVoteThreads.length =
      s.requestVoteThreads.length + (s.candidacy x).isSome.toNat := by
  cases h
  case electionTimeout hidle hrole hlimit =>
    have hcandidacy : s.candidacy .timeLimit = some (s.term + 1) := if_pos ⟨hidle, hrole, hlimit⟩
    rw [hcandidacy]
    exact List.length_append
  case leaderTimeout hidle hrole =>
    have hnone : s.candidacy .timeLimit = none := if_neg (by simp [hrole])
    rw [hnone]
    rfl
  case requestVoteStep | voteRequest => assumption
  case countVote | answerVote => rw [tally_requestVoteThreads]; rfl
  all_goals rfl

/-- Only one `send_heartbeat` loop is in a pass. -/
theorem Disciplined.sends_le_one (h : s.Disciplined) :
    s.heartbeatThreads.countP HeartbeatLoop.sends ≤ 1 := by
  have hholds : s.heartbeatThreads.countP HeartbeatLoop.sends ≤
      s.heartbeatThreads.countP HeartbeatLoop.holds :=
    List.countP_mono_left fun loop _ hsends ↦ by
      cases loop with
      | sending => rfl
      | lock | test | unlock | done => cases hsends
  have hmutex := h.mutex
  have hle := Bool.toNat_le s.heartbeatMtx
  unfold holders at hmutex
  omega

variable (hname : name ∈ m.names)
include hname

/-- All loops of a candidate that stand at their tests begin a pass. -/
theorem attains_passes (hflag : s.isCandidate = true) (begun waiting : ℕ)
    (hthreads : s.requestVoteThreads =
      List.replicate begun (.sending s.mboxes.keys) ++ List.replicate waiting .test) :
    Attains m name s
      { s with
        requestVoteThreads := List.replicate (begun + waiting) (.sending s.mboxes.keys) } := by
  induction waiting generalizing s begun with
  | zero =>
    rw [List.replicate_zero, List.append_nil] at hthreads
    rw [Nat.add_zero, ← hthreads]
    exact .refl
  | succ waiting ih =>
    have hi : s.requestVoteThreads[begun]? = some .test := by
      rw [hthreads, List.getElem?_append_right (by simp)]
      simp
    have hnext : (s.polled begun (.sending s.mboxes.keys) s.voteCnt).requestVoteThreads =
        List.replicate (begun + 1) (.sending s.mboxes.keys) ++ List.replicate waiting .test := by
      change s.requestVoteThreads.set begun _ = _
      rw [hthreads, List.set_append_right _ _ (by simp), List.replicate_succ,
        List.length_replicate, Nat.sub_self, List.set_cons_zero, List.replicate_succ',
        List.append_assoc]
      rfl
    have hrest :=
      ih (s := s.polled begun (.sending s.mboxes.keys) s.voteCnt) hflag (begun + 1) hnext
    rw [Nat.add_assoc, Nat.add_comm 1] at hrest
    exact (attains_pass hname hi hflag).trans hrest

/-- A server can be a candidate with as many loops in a pass as it has had candidacies. -/
theorem attains_many_loops (n : ℕ) :
    ∃ s', Attains m name (.initial name) s' ∧ s'.role = .candidate ∧
      s'.requestVoteThreads.length = n + 1 ∧
      s'.requestVoteThreads.countP RequestVoteLoop.sends = n + 1 := by
  obtain ⟨s, hs, hpoised, -, -, -, hthreads⟩ := attains_poised_in_term hname n
  obtain ⟨hcandidate, hcampaigning⟩ := hpoised.attains_candidate hname
  have hwaiting : s.activateCandidate.requestVoteThreads =
      List.replicate 0 (.sending s.activateCandidate.mboxes.keys) ++
        List.replicate (n + 1) .test := by
    rw [List.replicate_succ', ← hthreads]
    rfl
  have hpasses := attains_passes hname hcampaigning.flag 0 (n + 1) hwaiting
  refine ⟨_, (hs.trans hcandidate).trans hpasses, rfl, ?_, ?_⟩
  · simp
  · simp [List.countP_replicate, RequestVoteLoop.sends]

end Server

namespace Cluster

variable {m : Membership} {c : Cluster} {trace : History}

/-- The number of candidacies of a server in a history. -/
def candidacies (name : ByteString) (history : History) : ℕ :=
  total (fun t ↦ (observeAt name Server.candidacy t).isSome.toNat) history

/-- In a run a server has started a `send_request_vote` loop in every candidacy. -/
theorem requestVoteThreads_length_run (hrun : Run m initial trace c) (name : ByteString) :
    (c.servers name).requestVoteThreads.length = candidacies name trace := by
  induction hrun with
  | nil => rfl
  | snoc _ hstep ih =>
    rw [candidacies, total_snoc, ← candidacies, ← ih]
    rcases (step_effect hstep).observeAt_cases name Server.candidacy with
      ⟨hsame, hnone⟩ | ⟨x, out, -, heffect, hobserved⟩
    · rw [hsame, hnone]
      rfl
    · rw [hobserved]
      exact heffect.requestVoteThreads_length

end Cluster

/-- In every run a server has at most as many `send_request_vote` loops in a pass at once as it has
had candidacies, and this bound is reached, however many they are; of its `send_heartbeat` loops at
most one is in a pass. The bound is reached when the messages of other servers are late, and as far
as the term of the last candidacy is an `int`. -/
theorem loops_at_once {m : Membership} {name : ByteString} (hname : name ∈ m.names) :
    (∀ trace c, Cluster.Run m .initial trace c →
      (c.servers name).requestVoteThreads.countP RequestVoteLoop.sends ≤
        Cluster.candidacies name trace ∧
      (c.servers name).heartbeatThreads.countP HeartbeatLoop.sends ≤ 1) ∧
    ∀ n, ∃ trace c, Cluster.Run m .initial trace c ∧ (c.servers name).role = .candidate ∧
      Cluster.candidacies name trace = n + 1 ∧
      (c.servers name).requestVoteThreads.countP RequestVoteLoop.sends = n + 1 := by
  refine ⟨fun trace c hrun ↦ ⟨?_, ?_⟩, fun n ↦ ?_⟩
  · rw [← Cluster.requestVoteThreads_length_run hrun]
    exact List.countP_le_length
  · exact (Cluster.disciplined_run hrun name).sends_le_one
  · obtain ⟨s, hs, hrole, hlength, hcount⟩ := Server.attains_many_loops hname n
    obtain ⟨c, hsolo, rfl⟩ := hs .initial rfl
    obtain ⟨trace, hrun⟩ := hsolo.run .nil
    refine ⟨trace, c, hrun, hrole, ?_, hcount⟩
    rw [← Cluster.requestVoteThreads_length_run hrun, hlength]

/-- The bounds hold of the first of three servers. -/
theorem loops_at_once_trio :
    ∃ trace c, Cluster.Run Schedule.trio .initial trace c ∧
      Cluster.candidacies (bytes "server1") trace = 3 ∧
      (c.servers (bytes "server1")).requestVoteThreads.countP RequestVoteLoop.sends = 3 := by
  have hname : bytes "server1" ∈ Schedule.trio.names := by decide
  obtain ⟨trace, c, hrun, -, hcandidacies, hcount⟩ := (loops_at_once hname).2 2
  exact ⟨trace, c, hrun, hcandidacies, hcount⟩

end RaftConsensus
