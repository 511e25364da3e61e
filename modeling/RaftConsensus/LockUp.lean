import RaftConsensus.Candidacy
import RaftConsensus.HeartbeatLoops

/-!
# Servers that lock up

`leader.on_enter` sets `m_is_leader` and then locks the mutex, and a `send_heartbeat` loop keeps the
mutex as long as it finds the flag set. A loop of an earlier leadership that locks the mutex in
between, or has locked it before and has yet to test the flag, takes up its passes again: the agent
waits for the mutex, the loop for the agent to clear the flag, and the server is locked up for good
(`Server.LockedUp.step`). The threads are detached, so that a loop may begin at any time
(`not_never_locked_up_lateLoop`). `never_locked_up_iff` says that there is no other way.
-/

set_option autoImplicit false
set_option relaxedAutoImplicit false

namespace RaftConsensus

open TransitionSystem

/-- The loop keeps the mutex as long as it finds `m_is_leader` set. -/
def HeartbeatLoop.goesOn : HeartbeatLoop → Bool
  | .test | .sending _ => true
  | .lock | .unlock | .done => false

/-- Setting an element to one with a property keeps a list with such an element. -/
theorem exists_mem_set {α : Type} {p : α → Bool} {l : List α} {i : ℕ} {a b : α}
    (hl : ∃ c ∈ l, p c = true) (hi : l[i]? = some a) (hp : p a = true → p b = true) :
    ∃ c ∈ l.set i b, p c = true := by
  have hcount := countP_set_add (p := p) (b := b) hi
  rw [← List.countP_pos_iff] at hl ⊢
  have hle : (p a).toNat ≤ (p b).toNat := by
    cases hpa : p a with
    | false => exact Nat.zero_le _
    | true => rw [hp hpa]
  omega

namespace Server

variable {s s' : Server} {x : Stimulus} {out : List Output}

/-- The agent waits for the mutex in `leader.on_enter` or `follower.on_enter`, while a loop holds it
that finds `m_is_leader` set. -/
structure LockedUp (s : Server) : Prop where
  waits : s.agent = .leaderLock ∨ ∃ handling, s.agent = .followerLock handling
  flag : s.isLeader = true
  held : ∃ loop ∈ s.heartbeatThreads, loop.goesOn = true

/-- An agent that waits while the flag is set is in `leader.on_enter`. -/
theorem Flagged.lockedUp_iff (h : s.Flagged) :
    s.LockedUp ↔ s.agent = .leaderLock ∧ ∃ loop ∈ s.heartbeatThreads, loop.goesOn = true := by
  have hleader := h.leader
  constructor
  · rintro ⟨hwaits, hflag, hheld⟩
    refine ⟨hwaits.resolve_right ?_, hheld⟩
    rintro ⟨handling, hagent⟩
    have hrole := h.entering .follower (by rw [hagent]; rfl)
    simp [hrole, hflag] at hleader
  · rintro ⟨hagent, hheld⟩
    have hrole := h.entering .leader (by rw [hagent]; rfl)
    exact ⟨Or.inl hagent, by simp [hleader, hrole], hheld⟩

/-! ### No way out -/

/-- A loop that goes on is the holder of the mutex. -/
theorem goesOn_holds {loop : HeartbeatLoop} (h : loop.goesOn = true) : loop.holds = true := by
  cases loop <;> simp_all [HeartbeatLoop.goesOn, HeartbeatLoop.holds]

/-- A server that is locked up stays so. -/
theorem LockedUp.step (h : s.LockedUp) (hflagged : s.Flagged) (hdisciplined : s.Disciplined)
    (hact : s.act x = .ok (s', out)) : s'.LockedUp := by
  obtain ⟨hagent, hheld⟩ := hflagged.lockedUp_iff.mp h
  obtain ⟨hwaits, hflag, -⟩ := h
  cases x with
  | handle | timeLimit => simp [act, hagent] at hact
  | resume =>
    obtain ⟨loop, hloop, hgoes⟩ := hheld
    have hmtx := (hdisciplined.of_holds hloop (goesOn_holds hgoes)).1
    simp [act, resume, hagent, hmtx] at hact
  | heartbeatStep i =>
    obtain ⟨loop, mtx, next, hloop, hstep, rfl, -⟩ := act_heartbeatStep hact
    refine ⟨hwaits, hflag, exists_mem_set hheld hloop fun hgoes ↦ ?_⟩
    cases hstep with
    | enter | again => rfl
    | leave hcleared => simp [hflag] at hcleared
    | lock | unlock => simp [HeartbeatLoop.goesOn] at hgoes
  | heartbeatSend i peer garbage =>
    obtain ⟨remaining, hloop, -, rfl, -⟩ := act_heartbeatSend hact
    exact ⟨hwaits, hflag, exists_mem_set hheld hloop fun _ ↦ rfl⟩
  | requestVoteStep i =>
    obtain ⟨loop, next, -, -, rfl, -⟩ := act_requestVoteStep hact
    exact ⟨hwaits, hflag, hheld⟩
  | requestVoteSend i peer =>
    obtain ⟨remaining, -, -, rfl, -⟩ := act_requestVoteSend hact
    exact ⟨hwaits, hflag, hheld⟩

/-! ### The ways in -/

/-- A stimulus lets a loop of an earlier leadership go on: it locks the mutex that the agent is
about to lock in `leader.on_enter`, or it has locked it and not yet tested the flag when the votes
that a server compares make it leader. -/
def LetsLoopIn (s : Server) : Stimulus → Prop
  | .heartbeatStep i => s.agent = .leaderLock ∧ s.heartbeatThreads[i]? = some .lock
  | x => .test ∈ s.heartbeatThreads ∧ ∃ votes ∈ s.compared x, ceilHalf s.mboxes.size < votes

instance (s : Server) : (x : Stimulus) → Decidable (s.LetsLoopIn x)
  | .heartbeatStep _ => inferInstanceAs (Decidable (_ ∧ _))
  | .handle _ | .timeLimit | .resume | .heartbeatSend _ _ _ | .requestVoteStep _
  | .requestVoteSend _ _ => inferInstanceAs (Decidable (_ ∧ _))

/-- The tally that makes a server leader sends its agent to the lock in `leader.on_enter`. -/
theorem tally_takesOffice (hrole : s.role ≠ .leader) (hidle : s.agent = .idle)
    (hnew : s.tally.role = .leader ∨ s.tally.agent = .leaderLock) :
    s.tally.role = .leader ∧ s.tally.agent = .leaderLock := by
  rcases s.tally_cases with ⟨htally, -⟩ | ⟨htally, -⟩
  · rw [htally] at hnew
    rcases hnew with hleader | hlock
    · exact absurd hleader hrole
    · simp [hidle] at hlock
  · rw [htally]
    exact ⟨rfl, rfl⟩

/-- A server enters the leader state with an idle agent, which is then about to lock the mutex in
`leader.on_enter`; and it is there for no other reason. -/
theorem Effect.takesOffice (h : s.Effect x s' out)
    (hnew : (s.role ≠ .leader ∧ s'.role = .leader) ∨
      (s.agent ≠ .leaderLock ∧ s'.agent = .leaderLock)) :
    s.role ≠ .leader ∧ s'.role = .leader ∧ s.agent = .idle ∧ s'.agent = .leaderLock ∧
      s'.heartbeatThreads = s.heartbeatThreads := by
  have hsubscribes {rv : RequestVote} (h : s.role.subscribes (.requestVote rv) = true) :
      s.role ≠ .leader := by
    rintro hleader
    simp [Role.subscribes, hleader] at h
  cases h
  case countVote rv hidle hrole _ =>
    have htally := tally_takesOffice (s := { s with voteCnt := s.voteCnt + 1 }) (hsubscribes hrole)
      hidle (hnew.imp And.right And.right)
    exact ⟨hsubscribes hrole, htally.1, hidle, htally.2, tally_heartbeatThreads⟩
  case answerVote rv mbox hidle hrole _ _ =>
    have htally := tally_takesOffice (hsubscribes hrole) hidle (hnew.imp And.right And.right)
    exact ⟨hsubscribes hrole, htally.1, hidle, htally.2, tally_heartbeatThreads⟩
  all_goals simp_all [activateFollower, activateInactive, activateCandidate, exitState,
    setClusterHandler, changeStateHandler, accepted, consistencyCheck, leaveFollowerEntry]

/-- A stimulus that lets a loop of an earlier leadership go on locks the server up. -/
theorem lockedUp_of_letsLoopIn (hflagged : s.Flagged) (hact : s.act x = .ok (s', out))
    (hin : s.LetsLoopIn x) : s'.LockedUp := by
  refine (hflagged.effect (act_effect hact)).lockedUp_iff.mpr ?_
  cases x with
  | heartbeatStep i =>
    obtain ⟨hagent, hlock⟩ := hin
    obtain ⟨loop, mtx, next, hloop, hstep, rfl, -⟩ := act_heartbeatStep hact
    obtain rfl := Option.some.inj (hlock.symm.trans hloop)
    have hlength : i < s.heartbeatThreads.length := (List.getElem?_eq_some_iff.mp hlock).1
    cases hstep with
    | lock _ => exact ⟨hagent, .test, List.mem_set hlength _, rfl⟩
  | _ =>
    obtain ⟨htest, votes, hcompared, hmany⟩ := hin
    have hleader := (act_effect hact).becomesLeader_iff.mpr ⟨votes, hcompared, hmany⟩
    obtain ⟨-, -, -, hagent, hthreads⟩ := (act_effect hact).takesOffice (Or.inl hleader)
    exact ⟨hagent, .test, hthreads ▸ htest, rfl⟩

/-- While the agent waits for the mutex on its way into office, a loop goes on only when it locks
the mutex. -/
theorem letsLoopIn_of_leaderLock (hact : s.act x = .ok (s', out)) (hagent : s.agent = .leaderLock)
    (hnone : ∀ loop ∈ s.heartbeatThreads, loop.goesOn ≠ true) (hagent' : s'.agent = .leaderLock)
    {loop : HeartbeatLoop} (hloop : loop ∈ s'.heartbeatThreads) (hgoes : loop.goesOn = true) :
    s.LetsLoopIn x := by
  cases x with
  | heartbeatStep i =>
    obtain ⟨before, mtx, next, hbefore, hstep, rfl, -⟩ := act_heartbeatStep hact
    rcases List.mem_or_eq_of_mem_set hloop with hold | rfl
    · exact absurd hgoes (hnone loop hold)
    · cases hstep with
      | lock _ => exact ⟨hagent, hbefore⟩
      | enter | again => exact absurd rfl (hnone _ (List.mem_of_getElem? hbefore))
      | leave | unlock => simp [HeartbeatLoop.goesOn] at hgoes
  | heartbeatSend i peer garbage =>
    obtain ⟨remaining, hbefore, -⟩ := act_heartbeatSend hact
    exact absurd rfl (hnone _ (List.mem_of_getElem? hbefore))
  | requestVoteStep i =>
    obtain ⟨before, next, -, -, rfl, -⟩ := act_requestVoteStep hact
    exact absurd hgoes (hnone loop hloop)
  | requestVoteSend i peer =>
    obtain ⟨remaining, -, -, rfl, -⟩ := act_requestVoteSend hact
    exact absurd hgoes (hnone loop hloop)
  | handle | timeLimit => simp [act, hagent] at hact
  | resume =>
    simp only [act, resume, hagent] at hact
    split_ifs at hact
    obtain ⟨rfl, -⟩ := Prod.mk.inj (Except.ok.inj hact)
    simp at hagent'

/-- When the agent begins to wait for the mutex on its way into office, a loop that goes on has
locked the mutex before. -/
theorem letsLoopIn_of_takesOffice (hdisciplined : s.Disciplined) (h : s.Effect x s' out)
    (hagent : s.agent ≠ .leaderLock) (hagent' : s'.agent = .leaderLock)
    {loop : HeartbeatLoop} (hloop : loop ∈ s'.heartbeatThreads) (hgoes : loop.goesOn = true) :
    s.LetsLoopIn x := by
  obtain ⟨hrole, hleader, hidle, -, hthreads⟩ := h.takesOffice (Or.inr ⟨hagent, hagent'⟩)
  obtain ⟨votes, hcompared, hmany⟩ := h.becomesLeader_iff.mp ⟨hrole, hleader⟩
  rw [hthreads] at hloop
  have htest : .test ∈ s.heartbeatThreads := by
    cases loop with
    | test => exact hloop
    | sending remaining =>
      rcases hdisciplined.pass remaining hloop with hleader | hinactive | ⟨handling, hlock⟩
      · exact absurd hleader hrole
      · simpa [hinactive] using role_of_compared hcompared
      · simp [hidle] at hlock
    | lock | unlock | done => cases hgoes
  cases x with
  | heartbeatStep i => cases hcompared
  | _ => exact ⟨htest, votes, hcompared, hmany⟩

/-- No other stimulus locks a server up. -/
theorem letsLoopIn_of_lockedUp (hflagged : s.Flagged) (hdisciplined : s.Disciplined)
    (hact : s.act x = .ok (s', out)) (hfree : ¬ s.LockedUp) (h : s'.LockedUp) : s.LetsLoopIn x := by
  obtain ⟨hagent', loop, hloop, hgoes⟩ :=
    (hflagged.effect (act_effect hact)).lockedUp_iff.mp h
  by_cases hagent : s.agent = .leaderLock
  · have hnone : ∀ loop ∈ s.heartbeatThreads, loop.goesOn ≠ true := fun loop hloop hgoes ↦
      hfree (hflagged.lockedUp_iff.mpr ⟨hagent, loop, hloop, hgoes⟩)
    exact letsLoopIn_of_leaderLock hact hagent hnone hagent' hloop hgoes
  · exact letsLoopIn_of_takesOffice hdisciplined (act_effect hact) hagent hagent' hloop hgoes

end Server

namespace Cluster

variable {m : Membership} {c c' : Cluster} {a : Action} {trace before : History} {name : ByteString}

/-- A step of the cluster lets a loop of an earlier leadership go on. -/
def LetsLoopIn (t : Transition Cluster Action) : Prop :=
  match t.action.stimulus with
  | some (name, x) => (t.source.servers name).LetsLoopIn x
  | none => False

instance (t : Transition Cluster Action) : Decidable (LetsLoopIn t) :=
  match h : t.action.stimulus with
  | some (name, x) =>
    decidable_of_iff ((t.source.servers name).LetsLoopIn x) (by simp [LetsLoopIn, h])
  | none => .isFalse (by simp [LetsLoopIn, h])

/-- A server of a run that is locked up stays so. -/
theorem lockedUp_run (hbefore : Run m initial before c) (hrun : Run m c trace c')
    (h : (c.servers name).LockedUp) : (c'.servers name).LockedUp := by
  induction hrun with
  | nil => exact h
  | @snoc trace middle final action hrest hstep ih =>
    have hmiddle := hbefore.append hrest
    rcases hstep.act_cases name with hsame | ⟨x, -, -, hact⟩
    · rw [hsame]
      exact ih
    · exact ih.step (flagged_run hmiddle name) (disciplined_run hmiddle name) hact

/-- No server is locked up as long as no step lets a loop of an earlier leadership go on. -/
theorem not_lockedUp_run (hrun : Run m initial trace c) (hout : ∀ t ∈ trace, ¬ LetsLoopIn t)
    (name : ByteString) : ¬ (c.servers name).LockedUp := by
  induction hrun with
  | nil =>
    rintro ⟨-, hflag, -⟩
    simp [initial, Server.initial] at hflag
  | @snoc trace middle final action hrest hstep ih =>
    obtain ⟨hout, hlast⟩ := List.forall_mem_append.mp hout
    rcases hstep.act_cases name with hsame | ⟨x, hx, -, hact⟩
    · rw [hsame]
      exact ih hout
    · intro hlocked
      refine hlast _ (List.mem_singleton_self _) ?_
      simp only [LetsLoopIn, hx]
      exact Server.letsLoopIn_of_lockedUp (flagged_run hrest name) (disciplined_run hrest name) hact
        (ih hout) hlocked

end Cluster

/-- In a run no server locks up on its mutex exactly when no `send_heartbeat` loop of an earlier
leadership locks it between the flag's write and the agent's lock in `leader.on_enter`, or has
locked it and not yet tested the flag when its server enters the leader state. -/
theorem never_locked_up_iff {m : Membership} {trace : Cluster.History} {c : Cluster}
    (hrun : Cluster.Run m .initial trace c) :
    (∀ t ∈ trace, ∀ name, ¬ (t.target.servers name).LockedUp) ↔
      ∀ t ∈ trace, ¬ Cluster.LetsLoopIn t := by
  constructor
  · intro hnever t ht hin
    obtain ⟨before, after, rfl, hbefore, hstep, -⟩ := hrun.cut_of_mem ht
    unfold Cluster.LetsLoopIn at hin
    split at hin
    next name x hx =>
      obtain ⟨-, -, hact, -⟩ := hstep.act hx
      exact hnever t ht name
        (Server.lockedUp_of_letsLoopIn (Cluster.flagged_run hbefore name) hact hin)
    next => exact hin
  · intro hout t ht name
    obtain ⟨before, after, rfl, hbefore, hstep, -⟩ := hrun.cut_of_mem ht
    have hrest : Cluster.Run m .initial (before ++ [t]) t.target := hbefore.snoc hstep
    refine Cluster.not_lockedUp_run hrest (fun u hu ↦ hout u ?_) name
    rcases List.mem_append.mp hu with hold | hlast
    · exact List.mem_append_left _ hold
    · rw [List.mem_singleton.mp hlast]
      exact ht

/-- The first leader of the three servers does not lock up. -/
theorem never_locked_up_iff_replication :
    let trace := history (Cluster.next Schedule.trio) .initial Schedule.replication
    ∀ t ∈ trace, ¬ (t.target.servers (bytes "server1")).LockedUp := by
  intro trace t ht
  have hrun : Cluster.Run Schedule.trio .initial trace _ := run_of_isOk (by decide)
  exact (never_locked_up_iff hrun).mpr (by decide) t ht _

/-- A leader loses its time limit before its `send_heartbeat` thread has begun, and is elected
again. The thread begins before the agent has locked the mutex. -/
def Schedule.lateLoop : List Action :=
  let first : RequestVote := .request 1 (bytes "server1") 0 0
  let second : RequestVote := .request 2 (bytes "server1") 0 0
  form trio ++
  elect trio 0 first [(bytes "server1", 1), (bytes "server2", 0), (bytes "server3", 0)] ++
  [.internal (bytes "server1") .resume, .internal (bytes "server1") .resume,
    .internal (bytes "server1") .resume, .internal (bytes "server1") .timeLimit,
    .internal (bytes "server1") .resume, .internal (bytes "server1") .resume,
    .internal (bytes "server1") .timeLimit] ++
  requestVotes (bytes "server1") 1 trio.names ++ vote (bytes "server1") 2 second ++
  vote (bytes "server2") 0 second ++ vote (bytes "server3") 0 second ++
  [.internal (bytes "server1") (.heartbeatStep 0)]

/-- The thread of the first leadership and the agent of the second one wait for each other. -/
theorem not_never_locked_up_lateLoop :
    ¬ ∀ m trace c, Cluster.Run m .initial trace c → ∀ name, ¬ (c.servers name).LockedUp := by
  intro hclaim
  have hrun : Cluster.Run Schedule.trio .initial
      (history (Cluster.next Schedule.trio) .initial Schedule.lateLoop) _ :=
    run_of_isOk (by decide)
  refine hclaim _ _ _ hrun (bytes "server1") ⟨Or.inl (by decide), by decide, .test, ?_, rfl⟩
  decide

end RaftConsensus
