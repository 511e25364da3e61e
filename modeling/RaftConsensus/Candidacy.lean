import Mathlib.Algebra.Group.Nat.Even
import Mathlib.Data.List.DropRight
import RaftConsensus.Elections
import RaftConsensus.Flags
import RaftConsensus.Model.Outputs

/-!
# The way into the leader state

A server enters the leader state in `request_vote_handler`, when the votes that it has counted
exceed half of its cluster, rounded up. `Server.Effect.becomesLeader_iff` says when. The handler
belongs to the follower state as well, since followers answer requests, and it compares the count
there too: a server that has stepped down becomes leader without a candidacy when enough answers to
its earlier one are still in flight (`not_only_candidates_lateVotes`). `only_candidates_lead_iff`
says in which runs this does not happen.

Half of the cluster is rounded up before it is compared. In a cluster of odd size a candidate needs
one vote more than a majority (`not_threshold_twoVotes`), and `threshold_iff` shows that in one of
even size the threshold is the majority.
-/

set_option autoImplicit false
set_option relaxedAutoImplicit false

namespace RaftConsensus

open TransitionSystem

namespace Server

variable {s s' : Server} {x : Stimulus} {out : List Output}

/-- The count of votes that is compared with the threshold when a `RequestVote` is handled. -/
def compared (s : Server) : Stimulus → Option ℕ
  | .handle (.requestVote rv) =>
    if s.agent = .idle ∧ s.role.subscribes (.requestVote rv) then
      some (s.voteCnt + rv.voteGranted.toNat)
    else none
  | _ => none

/-- Only candidates and followers compare their votes. -/
theorem role_of_compared {votes : ℕ} (h : s.compared x = some votes) :
    s.role = .candidate ∨ s.role = .follower := by
  unfold compared at h
  split at h
  · split_ifs at h with hcond
    simpa [Role.subscribes] using hcond.2
  · simp at h

/-- The tally makes a server leader exactly when its votes exceed the threshold. -/
theorem tally_leader_iff (hrole : s.role ≠ .leader) :
    s.tally.role = .leader ↔ ceilHalf s.mboxes.size < s.voteCnt := by
  rcases s.tally_cases with ⟨htally, hfew⟩ | ⟨htally, hmany⟩
  · rw [htally]
    exact iff_of_false hrole hfew
  · rw [htally]
    exact iff_of_true rfl hmany

/-- The tally leaves a server that is not leader after it as it was. -/
theorem tally_eq_self (hrole : s.tally.role ≠ .leader) : s.tally = s := by
  rcases s.tally_cases with ⟨htally, -⟩ | ⟨htally, -⟩
  · exact htally
  · rw [htally] at hrole
    exact absurd rfl hrole

/-- A server enters the leader state exactly when the votes it compares exceed half of its cluster,
rounded up. -/
theorem Effect.becomesLeader_iff (h : s.Effect x s' out) :
    s.role ≠ .leader ∧ s'.role = .leader ↔
      ∃ votes, s.compared x = some votes ∧ ceilHalf s.mboxes.size < votes := by
  cases h
  case countVote rv hidle hrole hgranted =>
    have hcompared : s.compared (.handle (.requestVote rv)) = some (s.voteCnt + 1) := by
      rw [compared, if_pos ⟨hidle, hrole⟩, hgranted]
      rfl
    have hnot : s.role ≠ .leader := by
      rintro hleader
      simp [Role.subscribes, hleader] at hrole
    rw [hcompared, tally_leader_iff (s := { s with voteCnt := s.voteCnt + 1 }) hnot]
    simp [hnot]
  case answerVote rv mbox hidle hrole hgranted hmbox =>
    have hcompared : s.compared (.handle (.requestVote rv)) = some s.voteCnt := by
      rw [compared, if_pos ⟨hidle, hrole⟩, hgranted]
      rfl
    have hnot : s.role ≠ .leader := by
      rintro hleader
      simp [Role.subscribes, hleader] at hrole
    rw [hcompared, tally_leader_iff hnot]
    simp [hnot]
  case drop msg hidle hsubscribes =>
    cases msg <;> simp_all [compared]
  all_goals simp_all [compared, activateFollower, activateInactive, activateCandidate,
    setClusterHandler, changeStateHandler, accepted, leaveFollowerEntry, consistencyCheck]

/-- Only an idle agent handles a message. -/
theorem Effect.idle_of_handle {msg : Msg} (h : s.Effect (.handle msg) s' out) :
    s.agent = .idle := by
  cases h <;> assumption

/-! ### Votes that reach a follower -/

/-- The `RequestVote` that a follower handles. -/
def lateBallot (s : Server) : Stimulus → Option RequestVote
  | .handle (.requestVote rv) => if s.role = .follower then some rv else none
  | _ => none

/-- Whether a stimulus makes a follower count a vote or begin to count anew: it does so at the end
of `follower.on_enter` and when it accepts an `AppendEntry`. -/
def recount (s : Server) : Stimulus → Option Bool
  | .handle (.requestVote rv) => (s.count (.handle (.requestVote rv))).map fun _ ↦ true
  | .handle (.appendEntry ae) => (s.acceptance (.handle (.appendEntry ae))).map fun _ ↦ false
  | .resume =>
    match s.agent with
    | .followerUnlock _ => some false
    | _ => none
  | _ => none

/-- What a stimulus does to the count of votes of a follower. -/
theorem Effect.voteCnt_of_follower (h : s.Effect x s' out) (hflags : s.Flagged) {votes : ℕ}
    (hs : s.role = .follower → s.agent = .idle → s.voteCnt = votes)
    (hrole : s'.role = .follower) (hidle : s'.agent = .idle) :
    s'.voteCnt = match s.recount x with
      | none => votes
      | some true => votes + 1
      | some false => 0 := by
  cases h
  case countVote rv hagent hsubscribes hgranted =>
    have hrecount : s.recount (.handle (.requestVote rv)) = some true := by
      simp [recount, count, hagent, hsubscribes, hgranted]
    rw [hrecount]
    have htally := tally_eq_self (s := { s with voteCnt := s.voteCnt + 1 }) (by simp [hrole])
    rw [htally] at hrole ⊢
    exact congrArg (· + 1) (hs hrole hagent)
  case answerVote rv _ hagent hsubscribes hgranted _ =>
    have hrecount : s.recount (.handle (.requestVote rv)) = none := by
      simp [recount, count, hgranted]
    rw [hrecount]
    have htally : s.tally = s := tally_eq_self (by simp [hrole])
    rw [htally] at hrole ⊢
    exact hs hrole hagent
  case accept ae _ _ hagent hfollower hterm _ _ =>
    have hrecount : s.recount (.handle (.appendEntry ae)) = some false := by
      simp [recount, acceptance, hagent, hfollower, hterm]
    rw [hrecount]
    rfl
  case drop msg hagent hsubscribes =>
    have hrecount : s.recount (.handle msg) = none := by
      cases msg with
      | requestVote rv => simp [recount, count, hsubscribes]
      | appendEntry ae =>
        have hinactive : s.role = .inactive := by simpa [Role.subscribes] using hsubscribes
        simp [recount, acceptance, hinactive]
      | _ => rfl
    rw [hrecount]
    exact hs hrole hagent
  case reject ae _ hagent _ hstale _ =>
    have hrecount : s.recount (.handle (.appendEntry ae)) = none := by
      simp [recount, acceptance, not_le.mpr hstale]
    rw [hrecount]
    exact hs hrole hagent
  case enterFollower hagent | enterAccept hagent _ _ =>
    simp only [recount, hagent]
    rfl
  case leaderThread hagent =>
    have hleader := hflags.entering .leader (by rw [hagent]; rfl)
    simp [hleader] at hrole
  all_goals simp_all [recount, activateFollower, activateInactive, activateCandidate,
    setClusterHandler, changeStateHandler, consistencyCheck]

end Server

namespace Cluster

variable {m : Membership} {c c' : Cluster} {a : Action} {trace : History} {name : ByteString}
  {t : Transition Cluster Action}

/-- The number of granted votes that a server has counted as a follower since it entered the state
or accepted an `AppendEntry`. -/
def lateVotes (history : History) (name : ByteString) : ℕ :=
  ((history.filterMap (observeAt name Server.recount)).rtakeWhile id).length

/-- The late votes after one more transition. -/
theorem lateVotes_snoc : lateVotes (trace ++ [t]) name =
    match observeAt name Server.recount t with
    | none => lateVotes trace name
    | some true => lateVotes trace name + 1
    | some false => 0 := by
  unfold lateVotes
  rw [List.filterMap_append]
  cases hrecount : observeAt name Server.recount t with
  | none => rw [List.filterMap_cons_none hrecount, List.filterMap_nil, List.append_nil]
  | some counted =>
    rw [List.filterMap_cons_some hrecount, List.filterMap_nil, List.rtakeWhile_concat]
    cases counted <;> simp

/-- In a run a follower whose `on_enter` handler has ended has counted its late votes. -/
theorem voteCnt_eq_lateVotes (hrun : Run m initial trace c)
    (hrole : (c.servers name).role = .follower) (hidle : (c.servers name).agent = .idle) :
    (c.servers name).voteCnt = lateVotes trace name := by
  induction hrun with
  | nil => simp [lateVotes, initial, Server.initial]
  | @snoc trace middle final action hrest hstep ih =>
    rw [lateVotes_snoc]
    rcases (step_effect hstep).observeAt_cases name Server.recount with
      ⟨hsame, hnone⟩ | ⟨x, out, -, heffect, hrecount⟩
    · rw [hnone]
      rw [hsame] at hrole hidle ⊢
      exact ih hrole hidle
    · rw [hrecount]
      exact heffect.voteCnt_of_follower (flagged_run hrest name) ih hrole hidle

/-- A step takes a server into the leader state exactly when it compares more votes than half of its
cluster, rounded up. -/
theorem Step.entersLeader_iff (h : Step m c a c') :
    (∃ term, EntersLeader ⟨c, a, c'⟩ name term) ↔
      ∃ x votes, a.stimulus = some (name, x) ∧ (c.servers name).compared x = some votes ∧
        Server.ceilHalf (c.servers name).mboxes.size < votes := by
  constructor
  · rintro ⟨term, hbefore, hafter, -⟩
    rcases h.effect_cases name with ⟨hsame, -⟩ | ⟨x, hx, heffect⟩
    · exact absurd (hsame ▸ hafter) hbefore
    · obtain ⟨votes, hvotes⟩ := heffect.becomesLeader_iff.mp ⟨hbefore, hafter⟩
      exact ⟨x, votes, hx, hvotes⟩
  · rintro ⟨x, votes, hx, hvotes⟩
    obtain ⟨-, -, out, heffect⟩ := (step_effect h).of_stimulus hx
    obtain ⟨hbefore, hafter⟩ := heffect.becomesLeader_iff.mpr ⟨votes, hvotes⟩
    exact ⟨_, hbefore, hafter, rfl⟩

/-- A follower that handles a `RequestVote` has counted, with it, at most half of its cluster,
rounded up. -/
def FewLateVotes (before : History) (t : Transition Cluster Action) : Prop :=
  ∀ ballot ∈ observe Server.lateBallot t, lateVotes before ballot.1 + ballot.2.voteGranted.toNat ≤
    Server.ceilHalf (t.source.servers ballot.1).mboxes.size

instance (before : History) (t : Transition Cluster Action) : Decidable (FewLateVotes before t) :=
  inferInstanceAs (Decidable (∀ ballot ∈ observe Server.lateBallot t, _))

/-- In a step of a run only candidates enter the leader state exactly when the followers handle few
late votes. -/
theorem fewLateVotes_iff (hrun : Run m initial trace c) (hstep : Step m c a c') :
    FewLateVotes trace ⟨c, a, c'⟩ ↔ ∀ name term, EntersLeader ⟨c, a, c'⟩ name term →
      (c.servers name).role = .candidate := by
  constructor
  · intro hfew name term henters
    obtain ⟨x, votes, hx, hcompared, hmany⟩ := hstep.entersLeader_iff.mp ⟨term, henters⟩
    refine (Server.role_of_compared hcompared).resolve_right fun hfollower ↦ ?_
    unfold Server.compared at hcompared
    split at hcompared
    next rv =>
      split_ifs at hcompared with hcond
      obtain rfl := Option.some.inj hcompared
      have hlate : (c.servers name).lateBallot (.handle (.requestVote rv)) = some rv :=
        if_pos hfollower
      have hbound := hfew (name, rv) (observe_eq_some hx hlate)
      rw [← voteCnt_eq_lateVotes hrun hfollower hcond.1] at hbound
      exact absurd hmany (not_lt.mpr hbound)
    next => simp at hcompared
  · rintro hcandidates ⟨name, rv⟩ hballot
    obtain ⟨x, hx, hlate⟩ := observe_eq_some_iff.mp hballot
    unfold Server.lateBallot at hlate
    split at hlate
    next vote =>
      split_ifs at hlate with hfollower
      obtain rfl := Option.some.inj hlate
      obtain ⟨-, -, out, heffect⟩ := (step_effect hstep).of_stimulus hx
      have hidle := heffect.idle_of_handle
      have hrole : (c.servers name).role = .follower := hfollower
      rw [← voteCnt_eq_lateVotes hrun hfollower hidle]
      by_contra hmany
      have hcompared : (c.servers name).compared (.handle (.requestVote vote)) =
          some ((c.servers name).voteCnt + vote.voteGranted.toNat) := by
        rw [Server.compared, if_pos ⟨hidle, by simp [Role.subscribes, hrole]⟩]
      obtain ⟨term, henters⟩ := hstep.entersLeader_iff.mpr ⟨_, _, hx, hcompared, not_le.mp hmany⟩
      simp [hcandidates name term henters] at hfollower
    next => simp at hlate

end Cluster

/-- In a run every server that enters the leader state was a candidate exactly when no server
handles a `RequestVote` in the follower state with which the granted votes that it has counted
there, since it entered the state or accepted an `AppendEntry`, exceed half of its cluster, rounded
up. -/
theorem only_candidates_lead_iff {m : Membership} {trace : Cluster.History} {c : Cluster}
    (hrun : Cluster.Run m .initial trace c) :
    (∀ t ∈ trace, ∀ name term, Cluster.EntersLeader t name term →
      (t.source.servers name).role = .candidate) ↔ Along Cluster.FewLateVotes trace := by
  constructor
  · rintro hcandidates before t after rfl
    obtain ⟨hbefore, hstep, -⟩ := hrun.cut
    exact (Cluster.fewLateVotes_iff hbefore hstep).mpr (hcandidates t (by simp))
  · intro hfew t ht
    obtain ⟨before, after, rfl, hbefore, hstep, -⟩ := hrun.cut_of_mem ht
    exact (Cluster.fewLateVotes_iff hbefore hstep).mp hfew.at

/-- The first leader of the three servers was a candidate. -/
theorem only_candidates_lead_iff_replication :
    let trace := history (Cluster.next Schedule.trio) .initial Schedule.replication
    (∃ t ∈ trace, Cluster.EntersLeader t (bytes "server1") 1) ∧
      ∀ t ∈ trace, Cluster.EntersLeader t (bytes "server1") 1 →
        (t.source.servers (bytes "server1")).role = .candidate := by
  intro trace
  have hrun : Cluster.Run Schedule.trio .initial trace _ := run_of_isOk (by decide)
  exact ⟨by decide, fun t ht ↦ (only_candidates_lead_iff hrun).mpr (by decide) t ht _ _⟩

/-- A server asks for votes and is granted all of them. Before it handles the answers, another one
is elected in the same term and makes it a follower. -/
def Schedule.lateVotes : List Action :=
  let first : RequestVote := .request 1 (bytes "server1") 0 0
  let second : RequestVote := .request 1 (bytes "server2") 0 0
  let votes := [(bytes "server1", 1), (bytes "server2", 0), (bytes "server3", 0)].map
    fun voter ↦ vote voter.1 voter.2 first
  form trio ++ candidacy (bytes "server1") ++ requestVotes (bytes "server1") 0 trio.names ++
    votes.flatMap (List.take 1) ++
    elect trio 0 second [(bytes "server1", 1), (bytes "server2", 1), (bytes "server3", 0)] ++
    takeOffice (bytes "server2") 0 ++ heartbeats (bytes "server2") 0 trio.names ++
    append (bytes "server1") ⟨1, bytes "server2", 0, 0, [], 0⟩ ++
    [.internal (bytes "server1") .resume, .internal (bytes "server1") .resume] ++
    votes.flatMap (List.drop 1)

/-- A follower becomes leader, in the term of the leader that it follows. -/
theorem not_only_candidates_lateVotes :
    ¬ ∀ (m : Membership) (trace : Cluster.History) (c : Cluster),
      Cluster.Run m .initial trace c → ∀ t ∈ trace, ∀ name term,
        Cluster.EntersLeader t name term → (t.source.servers name).role = .candidate := by
  intro hclaim
  have hrun : (execute (Cluster.next Schedule.trio) .initial Schedule.lateVotes).isOk := by decide
  have hcandidate := hclaim Schedule.trio _ _ (run_of_isOk hrun) _
    (List.get_mem _ ⟨45, by decide⟩) (bytes "server1") 1 (by decide)
  exact absurd hcandidate (by decide)

/-! ### The threshold of a candidacy -/

namespace Server

variable {s s' : Server} {x : Stimulus} {out : List Output}

/-- What a stimulus does to a candidate: it becomes leader exactly when the votes counted exceed the
threshold with it, and as long as it is a candidate it counts the granted votes that it handles. -/
theorem Effect.votes_of_candidate (h : s.Effect x s' out) (hrole : s.role = .candidate)
    (hidle : s.agent = .idle) (hfew : s.voteCnt ≤ ceilHalf s.mboxes.size) :
    (s'.role = .leader ↔ ceilHalf s.mboxes.size < s.voteCnt + (s.count x).toList.length) ∧
      (s'.role = .candidate →
        s'.agent = .idle ∧ s'.voteCnt = s.voteCnt + (s.count x).toList.length) := by
  have hsubscribes (rv : RequestVote) : s.role.subscribes (.requestVote rv) = true := by
    simp [Role.subscribes, hrole]
  have hnot : s.role ≠ .leader := by simp [hrole]
  cases h
  case countVote rv _ _ hgranted =>
    have hcount : s.count (.handle (.requestVote rv)) = some rv :=
      if_pos ⟨hidle, hsubscribes rv, hgranted⟩
    rw [hcount, tally_leader_iff (s := { s with voteCnt := s.voteCnt + 1 }) hnot]
    refine ⟨Iff.rfl, fun hcandidate ↦ ?_⟩
    rw [tally_eq_self (s := { s with voteCnt := s.voteCnt + 1 }) (by simp [hcandidate])]
    exact ⟨hidle, rfl⟩
  case answerVote rv _ _ _ hgranted _ =>
    have hcount : s.count (.handle (.requestVote rv)) = none := by simp [count, hgranted]
    rw [hcount, tally_leader_iff hnot]
    refine ⟨Iff.rfl, fun hcandidate ↦ ?_⟩
    rw [tally_eq_self (by simp [hcandidate])]
    exact ⟨hidle, rfl⟩
  case drop msg _ hdropped =>
    have hcount : s.count (.handle msg) = none := by
      cases msg with
      | requestVote rv => simp [hsubscribes] at hdropped
      | _ => rfl
    rw [hcount]
    exact ⟨iff_of_false hnot (not_lt.mpr hfew), fun _ ↦ ⟨hidle, rfl⟩⟩
  all_goals simp_all [count, activateFollower, activateInactive, setClusterHandler,
    changeStateHandler]

/-- A candidate knows the names of the cluster and has counted its votes, which do not exceed the
threshold. -/
structure Counting (m : Membership) (votes : ℕ) (s : Server) : Prop where
  knows : s.Knows m
  idle : s.agent = .idle
  voteCnt_eq : s.voteCnt = votes
  few : votes ≤ ceilHalf m.names.length

end Server

namespace Cluster

variable {m : Membership} {c c' start : Cluster} {a : Action} {before during after : History}
  {t : Transition Cluster Action} {name : ByteString} {votes : ℕ}

/-- The number of granted votes that a server counts in a history. -/
def grantedReplies (history : History) (name : ByteString) : ℕ :=
  (history.filterMap (observeAt name Server.count)).length

/-- The granted votes counted with one more transition. -/
theorem grantedReplies_snoc : grantedReplies (before ++ [t]) name =
    grantedReplies before name + (observeAt name Server.count t).toList.length := by
  unfold grantedReplies
  rw [List.filterMap_append, List.length_append]
  cases hcount : observeAt name Server.count t with
  | none => rw [List.filterMap_cons_none hcount]; rfl
  | some rv => rw [List.filterMap_cons_some hcount]; rfl

/-- Votes that have been counted stay counted. -/
theorem grantedReplies_le : grantedReplies before name ≤ grantedReplies (before ++ after) name := by
  unfold grantedReplies
  rw [List.filterMap_append, List.length_append]
  exact Nat.le_add_right _ _

/-- A run in which a server that knows the names of the cluster begins as it leaves
`candidate.on_enter`, and is a candidate before every step. -/
structure Candidacy (m : Membership) (name : ByteString) (start : Cluster) (during : History)
    (c : Cluster) : Prop where
  begins : ∃ s : Server, s.role = .follower ∧ s.act .timeLimit = .ok (start.servers name, [])
  knows : (start.servers name).Knows m
  whole : ∀ e ∈ start.network, ∀ sc, e.msg = .setCluster sc → sc = m.setCluster
  run : Run m start during c
  stays : ∀ t ∈ during, (t.source.servers name).role = .candidate

/-- Actions that can be executed in a cluster in which a server begins as a candidate, and that it
takes as a candidate, are a candidacy. -/
theorem Candidacy.of_isOk {formation actions : List Action} {s : Server}
    (hrole : s.role = .follower)
    (hbegins : s.act .timeLimit = .ok ((finalState (next m) initial formation).servers name, []))
    (hformation : (execute (next m) initial formation).isOk)
    (hactions : (execute (next m) (finalState (next m) initial formation) actions).isOk)
    (hknows : ((finalState (next m) initial formation).servers name).Knows m)
    (hstays : ∀ t ∈ history (next m) (finalState (next m) initial formation) actions,
      (t.source.servers name).role = .candidate) :
    Candidacy m name (finalState (next m) initial formation)
      (history (next m) (finalState (next m) initial formation) actions)
      (finalState (next m) (finalState (next m) initial formation) actions) where
  begins := ⟨s, hrole, hbegins⟩
  knows := hknows
  whole := (coherent_initial.run (run_of_isOk hformation)).whole
  run := run_of_isOk hactions
  stays := hstays

/-- A candidacy begins without votes. -/
theorem Candidacy.counting (h : Candidacy m name start during c) :
    (start.servers name).Counting m 0 := by
  obtain ⟨s, hrole, hact⟩ := h.begins
  have hknows := h.knows
  generalize start.servers name = s' at hact hknows ⊢
  cases Server.act_effect hact with
  | electionTimeout hidle => exact ⟨hknows, hidle, rfl, Nat.zero_le _⟩
  | leaderTimeout _ hleader => simp [hrole] at hleader

/-- A candidate becomes leader exactly when the granted votes that it has handled exceed half of the
cluster, rounded up; as long as it is a candidate it goes on counting. -/
theorem counting_step (hwhole : ∀ e ∈ c.network, ∀ sc, e.msg = .setCluster sc → sc = m.setCluster)
    (h : (c.servers name).Counting m votes) (hstep : Step m c a c')
    (hrole : (c.servers name).role = .candidate) :
    let votes' := votes + (observeAt name Server.count ⟨c, a, c'⟩).toList.length
    ((c'.servers name).role = .leader ↔ Server.ceilHalf m.names.length < votes') ∧
      ((c'.servers name).role = .candidate → (c'.servers name).Counting m votes') := by
  intro votes'
  rcases (step_effect hstep).observeAt_cases name Server.count with
    ⟨hsame, hnone⟩ | ⟨x, out, havailable, heffect, hobserved⟩
  · have hvotes : votes' = votes := by
      rw [show votes' = votes + (observeAt name Server.count ⟨c, a, c'⟩).toList.length from rfl,
        hnone]
      rfl
    rw [hsame, hvotes]
    exact ⟨iff_of_false (by simp [hrole]) (not_lt.mpr h.few), fun _ ↦ h⟩
  · have hcount : votes' =
        (c.servers name).voteCnt + ((c.servers name).count x).toList.length := by
      rw [h.voteCnt_eq, ← hobserved]
    obtain ⟨hleader, hcandidate⟩ := heffect.votes_of_candidate hrole h.idle
      (by rw [h.knows.size, h.voteCnt_eq]; exact h.few)
    rw [h.knows.size, ← hcount] at hleader
    rw [← hcount] at hcandidate
    refine ⟨hleader, fun hrole' ↦ ⟨fun peer ↦ ?_, (hcandidate hrole').1, (hcandidate hrole').2, ?_⟩⟩
    · rw [heffect.mem_mboxes, h.knows, or_iff_left_iff_imp]
      rintro (⟨sc, rfl, -, hmap⟩ | ⟨aer, rfl, hleads, -⟩)
      · obtain ⟨e, he, -, hmsg⟩ := havailable _ rfl
        rw [hwhole e he sc hmsg] at hmap
        exact Membership.mem_setCluster_names.mp hmap
      · simp [hrole] at hleads
    · refine not_lt.mp fun hmany ↦ ?_
      simp [hleader.mpr hmany] at hrole'

/-- During a candidacy the server becomes leader exactly when the granted votes that it has handled
exceed half of the cluster, rounded up. -/
theorem Candidacy.leader_iff (h : Candidacy m name start during c) :
    Along (fun before t ↦ (t.target.servers name).role = .leader ↔
      Server.ceilHalf m.names.length < grantedReplies (before ++ [t]) name) during ∧
    ((c.servers name).role = .candidate →
      (c.servers name).Counting m (grantedReplies during name)) ∧
    ∀ e ∈ c.network, ∀ sc, e.msg = .setCluster sc → sc = m.setCluster := by
  obtain ⟨hbegins, hknows, hwhole, hrun, hstays⟩ := h
  induction hrun with
  | nil =>
    have hstart : Candidacy m name start [] start :=
      ⟨hbegins, hknows, hwhole, Run.nil, by simp⟩
    exact ⟨Along.nil, fun _ ↦ hstart.counting, hwhole⟩
  | @snoc during middle final action hrest hstep ih =>
    obtain ⟨halong, hcounting, hwhole'⟩ := ih fun t ht ↦ hstays t (List.mem_append_left _ ht)
    have hrole := hstays _ (List.mem_append_right _ (List.mem_singleton_self _))
    obtain ⟨hleader, hcandidate⟩ := counting_step hwhole' (hcounting hrole) hstep hrole
    rw [← grantedReplies_snoc] at hleader hcandidate
    exact ⟨along_snoc.mpr ⟨halong, hleader⟩, hcandidate, whole_step hwhole' hstep⟩

end Cluster

/-- Half of the cluster, rounded up, is half of it exactly in a cluster of even size. -/
theorem Server.ceilHalf_lt_iff {size votes : ℕ} :
    ceilHalf size < votes ↔ if Even size then size < 2 * votes else size + 1 < 2 * votes := by
  unfold ceilHalf
  split_ifs with heven
  · obtain ⟨half, rfl⟩ := heven
    omega
  · obtain ⟨half, rfl⟩ := Nat.not_even_iff_odd.mp heven
    omega

/-- During a candidacy the server becomes leader exactly with the first `RequestVote` after which
the granted votes that it has handled are more than half of the cluster, if the cluster has even
size; in one of odd size only if they never are. -/
theorem threshold_iff {m : Membership} {name : ByteString} {start c : Cluster}
    {during : Cluster.History} (h : Cluster.Candidacy m name start during c) :
    Along (fun before t ↦ (t.target.servers name).role = .leader ↔
      m.names.length < 2 * Cluster.grantedReplies (before ++ [t]) name) during ↔
      Even m.names.length ∨ 2 * Cluster.grantedReplies during name ≤ m.names.length := by
  have hleader := h.leader_iff.1
  constructor
  · intro hmajority
    by_contra hcond
    obtain ⟨hodd, hmany⟩ := not_or.mp hcond
    obtain ⟨half, hhalf⟩ := Nat.not_even_iff_odd.mp hodd
    rcases during.eq_nil_or_concat with rfl | ⟨before, t, hduring⟩
    · simp [Cluster.grantedReplies] at hmany
    · rw [List.concat_eq_append] at hduring
      subst hduring
      obtain ⟨hbefore, hlast⟩ := along_snoc.mp hmajority
      have hcount := (along_snoc.mp hleader).2.mp (hlast.mpr (not_le.mp hmany))
      rw [Server.ceilHalf_lt_iff, if_neg hodd, Cluster.grantedReplies_snoc] at hcount
      have hone : (Cluster.observeAt name Server.count t).toList.length ≤ 1 := by
        cases Cluster.observeAt name Server.count t <;> simp
      have hsoonerMajority : m.names.length < 2 * Cluster.grantedReplies before name := by omega
      rcases before.eq_nil_or_concat with rfl | ⟨earlier, u, hearlier⟩
      · simp [Cluster.grantedReplies] at hsoonerMajority
      · rw [List.concat_eq_append] at hearlier
        subst hearlier
        have hsooner := (along_snoc.mp hbefore).2.mpr hsoonerMajority
        obtain ⟨-, -, hnext⟩ := run_snoc_iff.mp (run_snoc_iff.mp h.run).1
        have hcandidate := h.stays t (by simp)
        rw [← hnext, hsooner] at hcandidate
        simp at hcandidate
  · intro hcond before t after hduring
    refine (hleader before t after hduring).trans ?_
    rw [Server.ceilHalf_lt_iff]
    rcases hcond with heven | hfew
    · rw [if_pos heven]
    · have hle : Cluster.grantedReplies (before ++ [t]) name ≤
          Cluster.grantedReplies during name := by
        rw [hduring.trans (List.append_cons before t after)]
        exact Cluster.grantedReplies_le
      split_ifs <;> omega

/-- A cluster of two servers. -/
def Schedule.pair : Membership where
  names := [bytes "server1", bytes "server2"]
  nodup := by decide
  nonempty := by decide

/-- The first server of a cluster begins a candidacy. -/
def Schedule.firstCandidacy (m : Membership) : List Action :=
  form m ++ candidacy (bytes "server1")

/-- A candidate asks for votes and is granted two of them. -/
def Schedule.twoVotes (m : Membership) : List Action :=
  let rv : RequestVote := .request 1 (bytes "server1") 0 0
  requestVotes (bytes "server1") 0 m.names ++ vote (bytes "server1") 1 rv ++
    vote (bytes "server2") 0 rv

/-- Two votes make a server the leader of a cluster of two, and not the first of them. -/
theorem threshold_iff_pair :
    let start := finalState (Cluster.next Schedule.pair) .initial
      (Schedule.firstCandidacy Schedule.pair)
    let during := history (Cluster.next Schedule.pair) start (Schedule.twoVotes Schedule.pair)
    Cluster.grantedReplies during (bytes "server1") = 2 ∧
      Along (fun before t ↦ (t.target.servers (bytes "server1")).role = .leader ↔
        2 < 2 * Cluster.grantedReplies (before ++ [t]) (bytes "server1")) during := by
  intro start during
  have hcandidacy : Cluster.Candidacy Schedule.pair (bytes "server1") start during
      (finalState (Cluster.next Schedule.pair) start (Schedule.twoVotes Schedule.pair)) :=
    .of_isOk (s := (finalState (Cluster.next Schedule.pair) .initial
        (Schedule.form Schedule.pair ++ Schedule.tell (bytes "server1") .changeState)).servers
          (bytes "server1")) rfl rfl (by decide) (by decide) (by decide) (by decide)
  exact ⟨by decide, (threshold_iff hcandidacy).mpr (Or.inl (by decide))⟩

/-- A candidate that has been granted two votes of three is not leader. -/
theorem not_threshold_twoVotes :
    ¬ ∀ (m : Membership) (name : ByteString) (start c : Cluster) (during : Cluster.History),
      Cluster.Candidacy m name start during c →
        Along (fun before t ↦ (t.target.servers name).role = .leader ↔
          m.names.length < 2 * Cluster.grantedReplies (before ++ [t]) name) during := by
  intro hclaim
  let start := finalState (Cluster.next Schedule.trio) .initial
    (Schedule.firstCandidacy Schedule.trio)
  let during := history (Cluster.next Schedule.trio) start (Schedule.twoVotes Schedule.trio)
  have hcandidacy : Cluster.Candidacy Schedule.trio (bytes "server1") start during
      (finalState (Cluster.next Schedule.trio) start (Schedule.twoVotes Schedule.trio)) :=
    .of_isOk (s := (finalState (Cluster.next Schedule.trio) .initial
        (Schedule.form Schedule.trio ++ Schedule.tell (bytes "server1") .changeState)).servers
          (bytes "server1")) rfl rfl (by decide) (by decide) (by decide) (by decide)
  exact absurd (hclaim _ _ _ _ _ hcandidacy) (by decide)

end RaftConsensus
