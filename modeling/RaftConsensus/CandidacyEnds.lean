import RaftConsensus.Candidacy
import RaftConsensus.Coherence

/-!
# How a candidacy ends

The candidate state has no time limit. A candidate that gets no votes does not begin another
candidacy in a later term: it asks for votes in the same term, pass by pass, until it is
deactivated, or an `AppendEntry` that is not stale takes it back to the follower state, or the votes
that it has counted take it to the leader state. So a candidacy goes on exactly as long as none of
the three happens (`candidacy_goes_on_iff`), and meanwhile the server keeps its term, its log, its
register and the leader that it knew.
-/

set_option autoImplicit false
set_option relaxedAutoImplicit false

namespace RaftConsensus

open TransitionSystem

namespace Server

variable {s s' origin : Server} {x : Stimulus} {out : List Output}

/-- A candidate in the term of an earlier state, with the log, the register and the known leader of
this state. -/
structure Continues (origin s : Server) : Prop where
  role : s.role = .candidate
  term : s.term = origin.term
  log : s.log = origin.log
  register : s.register = origin.register
  currLeader : s.currLeader = origin.currLeader

/-- What ends a candidacy: a signal to deactivate, an `AppendEntry` that is not stale, or a
`RequestVote` at which the votes exceed half of the cluster, rounded up. -/
def endsCandidacy (s : Server) : Stimulus → Bool
  | .handle .deactivate => true
  | .handle (.appendEntry ae) => s.term ≤ ae.term
  | .handle (.requestVote rv) => ceilHalf s.mboxes.size < s.voteCnt + rv.voteGranted.toNat
  | _ => false

/-- The agent of a candidate is in no `on_enter` handler. -/
theorem Flagged.idle_of_candidate (h : s.Flagged) (hrole : s.role = .candidate) :
    s.agent = .idle := by
  have hentering := h.entering
  rw [hrole] at hentering
  cases hagent : s.agent with
  | idle => rfl
  | followerLock | followerUnlock => cases hentering .follower (by rw [hagent]; rfl)
  | leaderLock | leaderUnlock | leaderThread => cases hentering .leader (by rw [hagent]; rfl)

/-- An effect that does not end a candidacy lets it go on. -/
theorem Continues.effect (h : origin.Continues s) (hflagged : s.Flagged)
    (heffect : s.Effect x s' out) (hends : s.endsCandidacy x = false) : origin.Continues s' := by
  have hrole := h.role
  have hidle := hflagged.idle_of_candidate hrole
  cases heffect
  case deactivate => cases hends
  case stepDown hterm => exact absurd hterm (of_decide_eq_false hends)
  case countVote hgranted =>
    have hfew := of_decide_eq_false hends
    rw [hgranted] at hfew
    rcases tally_cases (s := { s with voteCnt := s.voteCnt + 1 }) with ⟨htally, -⟩ | ⟨-, hmany⟩
    · rw [htally]
      exact ⟨h.role, h.term, h.log, h.register, h.currLeader⟩
    · exact absurd hmany hfew
  case answerVote hdenied _ =>
    have hfew := of_decide_eq_false hends
    rw [hdenied] at hfew
    rcases s.tally_cases with ⟨htally, -⟩ | ⟨-, hmany⟩
    · rwa [htally]
    · exact absurd hmany hfew
  case wake | accept | result | command | query | redirect | electionTimeout | leaderTimeout =>
    simp_all
  case followerLock | enterFollower | enterAccept | leaderLock | leaderUnlock | leaderThread =>
    simp_all
  all_goals exact ⟨h.role, h.term, h.log, h.register, h.currLeader⟩

/-- An effect that ends a candidacy takes the server to another state. -/
theorem Effect.role_of_endsCandidacy (h : s.Effect x s' out) (hrole : s.role = .candidate)
    (hends : s.endsCandidacy x = true) : s'.role ≠ .candidate := by
  cases h
  case deactivate | wake | stepDown => simp [activateInactive, activateFollower]
  case drop msg _ hsubscribes => cases msg <;> simp_all [Role.subscribes, endsCandidacy]
  case accept hfollower _ _ _ => simp [hrole] at hfollower
  case reject hstale _ => exact absurd (of_decide_eq_true hends) (not_le.mpr hstale)
  case countVote hgranted =>
    have hmany := of_decide_eq_true hends
    rw [hgranted] at hmany
    rw [(tally_leader_iff (s := { s with voteCnt := s.voteCnt + 1 }) (by simp [hrole])).mpr hmany]
    simp
  case answerVote hdenied _ =>
    have hmany := of_decide_eq_true hends
    rw [hdenied] at hmany
    rw [(tally_leader_iff (by simp [hrole])).mpr hmany]
    simp
  all_goals cases hends

end Server

namespace Cluster

variable {c c' : Cluster} {a : Action} {name : ByteString} {x : Stimulus}

/-- A transition ends the candidacy of a server. -/
def endsCandidacy (name : ByteString) (t : Transition Cluster Action) : Bool :=
  match t.action.stimulus with
  | some (actor, x) => actor = name && (t.source.servers name).endsCandidacy x
  | none => false

theorem endsCandidacy_of_stimulus (hx : a.stimulus = some (name, x)) :
    endsCandidacy name ⟨c, a, c'⟩ = (c.servers name).endsCandidacy x := by
  simp [endsCandidacy, hx]

theorem endsCandidacy_of_others (hx : ¬ ∃ x, a.stimulus = some (name, x)) :
    endsCandidacy name ⟨c, a, c'⟩ = false := by
  unfold endsCandidacy
  split
  next actor x hactor =>
    have hne : actor ≠ name := fun hsame ↦ hx ⟨x, hsame ▸ hactor⟩
    simp [hne]
  next => rfl

end Cluster

/-- In every run, the candidacy of a server goes on in all states of a continuation exactly if no
step of it ends the candidacy. As long as it goes on the server keeps its term, its log, its
register and the leader it knows. -/
theorem candidacy_goes_on_iff {m : Membership} {before later : Cluster.History} {c c' : Cluster}
    {name : ByteString} (hrun : Cluster.Run m .initial before c)
    (hcandidate : (c.servers name).role = .candidate) (hlater : Cluster.Run m c later c') :
    (∀ t ∈ later, (c.servers name).Continues (t.target.servers name)) ↔
      ∀ t ∈ later, Cluster.endsCandidacy name t = false := by
  refine hlater.forall_target_iff (fun state ↦ (c.servers name).Continues (state.servers name)) _
    ⟨hcandidate, rfl, rfl, rfl, rfl⟩ ?_
  intro during state action next hduring hstate hstep
  by_cases hx : ∃ x, action.stimulus = some (name, x)
  · obtain ⟨x, hx⟩ := hx
    obtain ⟨-, -, hact, -⟩ := hstep.act hx
    have heffect := Server.act_effect hact
    rw [Cluster.endsCandidacy_of_stimulus hx]
    cases hends : (state.servers name).endsCandidacy x with
    | false =>
      have hflagged := Cluster.flagged_run (hrun.append hduring) name
      exact iff_of_true (hstate.effect hflagged heffect hends) rfl
    | true =>
      have hleft := heffect.role_of_endsCandidacy hstate.role hends
      exact iff_of_false (fun hnext ↦ hleft hnext.role) (by simp)
  · rcases hstep.effect_cases name with ⟨hsame, -⟩ | ⟨x, hx', -⟩
    · rw [hsame]
      exact iff_of_true hstate (Cluster.endsCandidacy_of_others hx)
    · exact absurd ⟨x, hx'⟩ hx

/-- The first of three servers asks for votes and drops the request of a client, and its candidacy
goes on. -/
theorem candidacy_goes_on_iff_requestVotes :
    let c := finalState (Cluster.next Schedule.trio) .initial
      (Schedule.form Schedule.trio ++ Schedule.candidacy (bytes "server1"))
    let later := history (Cluster.next Schedule.trio) c
      (Schedule.requestVotes (bytes "server1") 0 Schedule.trio.names ++
        Schedule.request (bytes "server1") "ADD;5")
    ∀ t ∈ later, (c.servers (bytes "server1")).Continues (t.target.servers (bytes "server1")) := by
  intro c later
  have hrun : Cluster.Run Schedule.trio .initial _ c := run_of_isOk (by decide)
  have hlater : Cluster.Run Schedule.trio c later _ := run_of_isOk (by decide)
  exact (candidacy_goes_on_iff hrun (by decide) hlater).mpr (by decide)

end RaftConsensus
