import RaftConsensus.Model.ServerRun

/-!
# The active state, its flags and the agent

The flags `m_is_leader` and `m_is_candidate` are set and cleared by the `on_enter` and `on_exit`
handlers. In every state of every run each is set exactly in the state that it is named after, and
an agent that is still in an `on_enter` handler is in the state that it enters.
-/

set_option autoImplicit false
set_option relaxedAutoImplicit false

namespace RaftConsensus

/-- The state whose `on_enter` handler the agent is in. -/
def Agent.entering : Agent → Option Role
  | .idle => none
  | .followerLock _ | .followerUnlock _ => some .follower
  | .leaderLock | .leaderUnlock | .leaderThread => some .leader

namespace Server

variable {s s' : Server} {x : Stimulus} {out : List Output}

/-- The flags and the agent agree with the active state. -/
structure Flagged (s : Server) : Prop where
  leader : s.isLeader = decide (s.role = .leader)
  candidate : s.isCandidate = decide (s.role = .candidate)
  entering : ∀ role, s.agent.entering = some role → s.role = role

/-- The flags and the agent agree with the initial state. -/
theorem flagged_initial (name : ByteString) : (initial name).Flagged := by
  constructor <;> simp [initial, Agent.entering]

/-- The `on_exit` handlers clear both flags. -/
theorem Flagged.exitState (h : s.Flagged) :
    s.exitState.isLeader = false ∧ s.exitState.isCandidate = false := by
  have hleader := h.leader
  have hcandidate := h.candidate
  cases hrole : s.role <;> simp_all [Server.exitState]

/-- The tally keeps the flags and the agent in agreement with the state. -/
theorem Flagged.tally (h : s.Flagged) : s.tally.Flagged := by
  rcases s.tally_cases with ⟨htally, -⟩ | ⟨htally, -⟩
  · rw [htally]
    exact h
  · rw [htally]
    have hvotes : ({ s with voteCnt := 0 } : Server).Flagged := ⟨h.leader, h.candidate, h.entering⟩
    refine ⟨rfl, hvotes.exitState.2, fun role hrole ↦ ?_⟩
    exact Option.some.inj hrole

/-- Every effect keeps the flags and the agent in agreement with the state. -/
theorem Flagged.effect (h : s.Flagged) (heffect : s.Effect x s' out) : s'.Flagged := by
  obtain ⟨hleader, hcandidate⟩ := h.exitState
  cases heffect
  case countVote =>
    exact Flagged.tally (s := { s with voteCnt := s.voteCnt + 1 })
      ⟨h.leader, h.candidate, h.entering⟩
  case answerVote => exact h.tally
  case wake | stepDown | leaderTimeout =>
    exact ⟨hleader, hcandidate, fun role hrole ↦ Option.some.inj hrole⟩
  case deactivate hidle _ =>
    refine ⟨hleader, hcandidate, fun role hrole ↦ ?_⟩
    have hagent : (s.agent).entering = some role := hrole
    simp [hidle, Agent.entering] at hagent
  case electionTimeout hidle _ _ =>
    refine ⟨hleader, rfl, fun role hrole ↦ ?_⟩
    have hagent : (s.agent).entering = some role := hrole
    simp [hidle, Agent.entering] at hagent
  case followerLock hagent _ =>
    exact ⟨h.leader, h.candidate, fun role hrole ↦ h.entering role (by rw [hagent]; exact hrole)⟩
  case leaderLock hagent _ =>
    exact ⟨h.leader, h.candidate, fun role hrole ↦ h.entering role (by rw [hagent]; exact hrole)⟩
  case leaderUnlock hagent =>
    exact ⟨h.leader, h.candidate, fun role hrole ↦ h.entering role (by rw [hagent]; exact hrole)⟩
  case enterFollower | enterAccept | leaderThread =>
    exact ⟨h.leader, h.candidate, fun role hrole ↦ by cases hrole⟩
  all_goals exact ⟨h.leader, h.candidate, h.entering⟩

/-- In a run of a server by itself the flags and the agent agree with its state. -/
theorem flagged_run {name : ByteString} {trace : History} (hrun : Run (initial name) trace s) :
    s.Flagged :=
  TransitionSystem.Run.invariant (flagged_initial name)
    (fun _ _ _ hs hstep ↦ hs.effect (act_effect hstep.act)) hrun

end Server

/-- In every state of a run the flags and the agent of every server agree with its state. -/
theorem Cluster.flagged_run {m : Membership} {trace : History} {c : Cluster}
    (hrun : Run m initial trace c) (name : ByteString) : (c.servers name).Flagged :=
  Server.flagged_run (run_server hrun name)

end RaftConsensus
