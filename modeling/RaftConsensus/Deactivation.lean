import RaftConsensus.Flags
import RaftConsensus.HeartbeatLoops

/-!
# Deactivated servers

A `deactivate` signal takes a server to the inactive state, and the next one to the follower state.
The inactive state has no handlers of its own and no time limit, and its server has both flags
cleared, so that the loops which are left end: in between the server is inert
(`Server.Inert.step`). On its way back it waits for the mutex, which no loop keeps
(`Server.Waking.completes`).

These are statements about a server by itself, which may meet any stimuli.
-/

set_option autoImplicit false
set_option relaxedAutoImplicit false

namespace RaftConsensus

open TransitionSystem

/-! ### The loops of a server that neither leads nor stands for election -/

namespace Server

variable {s s' : Server} {x : Stimulus} {out : List Output}

/-- What a server has of the replicated state. -/
def data (s : Server) : ℤ × List Entry × Calc × ByteString × ℤ :=
  (s.term, s.log, s.register, s.currLeader, s.commitIndex)

/-- No sender loop is in a pass. -/
structure BetweenPasses (s : Server) : Prop where
  heartbeat : ∀ remaining, .sending remaining ∉ s.heartbeatThreads
  requestVote : ∀ remaining, .sending remaining ∉ s.requestVoteThreads

/-- Both flags are cleared and no sender loop is in a pass. -/
structure Dormant (s : Server) : Prop where
  isLeader : s.isLeader = false
  isCandidate : s.isCandidate = false
  between : s.BetweenPasses

/-- A step of a loop keeps the flags cleared and begins no pass, and it concerns neither the agent
nor what the server has of the replicated state. -/
theorem Dormant.loop_step (h : s.Dormant) (hact : s.act x = .ok (s', out))
    (hx : x.heartbeat = true ∨ x.voteLoop = true) :
    s'.Dormant ∧ s'.role = s.role ∧ s'.agent = s.agent ∧ s'.data = s.data ∧ out = [] := by
  obtain ⟨hleader, hcandidate, hheartbeat, hrequest⟩ := h
  cases x with
  | heartbeatStep i =>
    obtain ⟨loop, mtx, next, -, hstep, rfl, rfl⟩ := act_heartbeatStep hact
    refine ⟨⟨hleader, hcandidate, fun remaining hpass ↦ ?_, hrequest⟩, rfl, rfl, rfl, rfl⟩
    rcases List.mem_or_eq_of_mem_set hpass with hold | rfl
    · exact hheartbeat remaining hold
    · cases hstep with
      | enter hset => simp [hleader] at hset
  | heartbeatSend i peer garbage =>
    obtain ⟨remaining, hpass, -⟩ := act_heartbeatSend hact
    exact absurd (List.mem_of_getElem? hpass) (hheartbeat remaining)
  | requestVoteStep i =>
    obtain ⟨loop, next, -, hstep, rfl, rfl⟩ := act_requestVoteStep hact
    refine ⟨⟨hleader, hcandidate, hheartbeat, fun remaining hpass ↦ ?_⟩, rfl, rfl, rfl, rfl⟩
    rcases List.mem_or_eq_of_mem_set hpass with hold | rfl
    · exact hrequest remaining hold
    · cases hstep with
      | enter hset => simp [hcandidate] at hset
  | requestVoteSend i peer =>
    obtain ⟨remaining, hpass, -⟩ := act_requestVoteSend hact
    exact absurd (List.mem_of_getElem? hpass) (hrequest remaining)
  | handle | timeLimit | resume => simp [Stimulus.heartbeat, Stimulus.voteLoop] at hx

/-! ### Inactive servers -/

/-- A server that has been deactivated. -/
structure Inert (s : Server) : Prop extends s.Dormant where
  role : s.role = .inactive
  agent : s.agent = .idle

/-- A signal to deactivate makes an active server inert. -/
theorem inert_of_deactivate (hflagged : s.Flagged) (hpass : s.BetweenPasses)
    (hrole : s.role ≠ .inactive) (hact : s.act (.handle .deactivate) = .ok (s', out)) :
    s'.Inert ∧ s'.data = s.data := by
  obtain ⟨hleader, hcandidate⟩ := hflagged.exitState
  cases act_effect hact with
  | wake _ hinactive => exact absurd hinactive hrole
  | drop _ _ hunsubscribed => cases hunsubscribed
  | deactivate hidle _ =>
    exact ⟨⟨⟨hleader, hcandidate, hpass.heartbeat, hpass.requestVote⟩, rfl, hidle⟩, rfl⟩

/-- An inert server stays so whatever it meets but a signal to deactivate. It sends nothing, and
what it has of the replicated state stays the same. -/
theorem Inert.step (h : s.Inert) (hact : s.act x = .ok (s', out))
    (hquiet : x ≠ .handle .deactivate) : s'.Inert ∧ s'.data = s.data ∧ out = [] := by
  by_cases hx : x.heartbeat = true ∨ x.voteLoop = true
  · obtain ⟨hdormant, hrole, hagent, hdata, hout⟩ := h.toDormant.loop_step hact hx
    exact ⟨⟨hdormant, hrole.trans h.role, hagent.trans h.agent⟩, hdata, hout⟩
  · have hrole := h.role
    have hidle := h.agent
    have hbetween := h.between
    cases act_effect hact
    case setCluster =>
      exact ⟨⟨⟨h.isLeader, h.isCandidate, hbetween.heartbeat, hbetween.requestVote⟩, hrole, hidle⟩,
        rfl, rfl⟩
    case changeState =>
      exact ⟨⟨⟨h.isLeader, h.isCandidate, hbetween.heartbeat, hbetween.requestVote⟩, hrole, hidle⟩,
        rfl, rfl⟩
    case drop => exact ⟨h, rfl, rfl⟩
    case wake | deactivate => exact absurd rfl hquiet
    case heartbeatStep | heartbeatSkip | heartbeat | requestVoteStep | voteRequest =>
      simp [Stimulus.heartbeat, Stimulus.voteLoop] at hx
    all_goals simp_all [Role.subscribes]

/-- An inert server stays so in every run without a signal to deactivate. -/
theorem Inert.run {start : Server} {trace : History} (h : start.Inert) (hrun : Run start trace s)
    (hquiet : ∀ u ∈ trace, u.action ≠ .handle .deactivate) :
    s.Inert ∧ s.data = start.data ∧
      ∀ u ∈ trace, u.source.outputs u.action = [] ∧ u.target.BetweenPasses := by
  induction hrun with
  | nil => exact ⟨h, rfl, by simp⟩
  | @snoc trace middle final x _ hstep ih =>
    obtain ⟨hquiet, hlast⟩ := List.forall_mem_append.mp hquiet
    obtain ⟨hmiddle, hdata, htrace⟩ := ih hquiet
    obtain ⟨hfinal, hkept, hout⟩ := hmiddle.step hstep.act (hlast _ (List.mem_singleton_self _))
    refine ⟨hfinal, hkept.trans hdata, List.forall_mem_append.mpr ⟨htrace, ?_⟩⟩
    exact List.forall_mem_singleton.mpr ⟨hout, hfinal.between⟩

/-! ### Reactivated servers -/

/-- A server that is on its way from the inactive state to the follower state. -/
structure Waking (s : Server) : Prop extends s.Dormant where
  role : s.role = .follower
  agent : s.agent = .followerLock none ∨ s.agent = .followerUnlock none

/-- The next signal sends an inert server on its way to the follower state. -/
theorem Inert.wake (h : s.Inert) (hact : s.act (.handle .deactivate) = .ok (s', out)) :
    s'.Waking ∧ s'.data = s.data := by
  have hflags : s.activateFollower none =
      { s with role := .follower, agent := .followerLock none } := by
    simp [activateFollower, exitState, h.role]
  cases act_effect hact with
  | wake =>
    rw [hflags]
    exact ⟨⟨⟨h.isLeader, h.isCandidate, h.between.heartbeat, h.between.requestVote⟩, rfl,
      Or.inl rfl⟩, rfl⟩
  | drop _ _ hunsubscribed => cases hunsubscribed
  | deactivate _ hactive => exact absurd h.role hactive

/-- A waking server stays so until it is a follower that has counted no vote. What it has of the
replicated state stays the same. -/
theorem Waking.step (h : s.Waking) (hact : s.act x = .ok (s', out)) :
    s'.data = s.data ∧
      (s'.Waking ∨ (s'.role = .follower ∧ s'.agent = .idle ∧ s'.voteCnt = 0)) := by
  by_cases hx : x.heartbeat = true ∨ x.voteLoop = true
  · obtain ⟨hdormant, hrole, hagent, hdata, -⟩ := h.toDormant.loop_step hact hx
    exact ⟨hdata, Or.inl ⟨hdormant, hrole.trans h.role, hagent.symm ▸ h.agent⟩⟩
  · have hbetween := h.between
    have hagent := h.agent
    cases act_effect hact
    case followerLock handling hlock _ =>
      obtain rfl : handling = none := by simpa [hlock] using hagent
      exact ⟨rfl, Or.inl ⟨⟨h.isLeader, h.isCandidate, hbetween.heartbeat, hbetween.requestVote⟩,
        h.role, Or.inr rfl⟩⟩
    case enterFollower => exact ⟨rfl, Or.inr ⟨h.role, rfl, rfl⟩⟩
    case heartbeatStep | heartbeatSkip | heartbeat | requestVoteStep | voteRequest =>
      simp [Stimulus.heartbeat, Stimulus.voteLoop] at hx
    all_goals simp_all

/-- A waking server stays so until its agent has run to the end of `follower.on_enter`. -/
theorem Waking.run {start : Server} {trace : History} (h : start.Waking) (hrun : Run start trace s)
    (hbusy : ∀ v ∈ trace, v.source.agent ≠ .idle) :
    s.data = start.data ∧ (s.Waking ∨ (s.role = .follower ∧ s.agent = .idle ∧ s.voteCnt = 0)) := by
  induction hrun with
  | nil => exact ⟨rfl, Or.inl h⟩
  | @snoc trace middle final x _ hstep ih =>
    obtain ⟨hbusy, hlast⟩ := List.forall_mem_append.mp hbusy
    obtain ⟨hdata, hmiddle⟩ := ih hbusy
    have hagent : middle.agent ≠ .idle := hlast _ (List.mem_singleton_self _)
    rcases hmiddle with hwaking | ⟨-, hidle, -⟩
    · obtain ⟨hkept, hfinal⟩ := hwaking.step hstep.act
      exact ⟨hkept.trans hdata, hfinal⟩
    · exact absurd hidle hagent

/-- The agent can run to the end of the `on_enter` handler that it is in. -/
def Completes (s : Server) : Prop :=
  ∃ trace s', Run s trace s' ∧ (∀ v ∈ trace, v.source.agent ≠ .idle) ∧ s'.agent = .idle

theorem Completes.of_step (hstep : s.Step x s') (hagent : s.agent ≠ .idle) (h : s'.Completes) :
    s.Completes := by
  obtain ⟨trace, final, hrun, hbusy, hidle⟩ := h
  refine ⟨⟨s, x, s'⟩ :: trace, final, (TransitionSystem.Run.single hstep).append hrun, ?_, hidle⟩
  exact List.forall_mem_cons.mpr ⟨hagent, hbusy⟩

/-- An agent that has locked the mutex completes `follower.on_enter`. -/
theorem completes_of_followerUnlock (hagent : s.agent = .followerUnlock none) : s.Completes := by
  have hstep : s.Step .resume s.leaveFollowerEntry := by
    simp [Step, next, act, resume, hagent, leaveFollowerEntry, pure, Except.pure, Except.map]
  exact .of_step hstep (by simp [hagent]) ⟨[], _, .nil, by simp, rfl⟩

/-- An agent that finds the mutex unlocked completes `follower.on_enter`. -/
theorem completes_of_followerLock (hagent : s.agent = .followerLock none)
    (hfree : s.heartbeatMtx = false) : s.Completes := by
  have hstep : s.Step .resume { s with heartbeatMtx := true, agent := .followerUnlock none } := by
    simp [Step, next, act, resume, hagent, hfree, Except.map]
  exact .of_step hstep (by simp [hagent]) (completes_of_followerUnlock rfl)

/-- An agent that waits for a loop that is about to unlock the mutex completes `follower.on_enter`.
-/
theorem completes_of_unlock {i : ℕ} (hagent : s.agent = .followerLock none)
    (hloop : s.heartbeatThreads[i]? = some .unlock) : s.Completes := by
  have hstep : s.Step (.heartbeatStep i)
      { s with heartbeatMtx := false, heartbeatThreads := s.heartbeatThreads.set i .done } := by
    simp [Step, next, act, heartbeatStep, hloop, Except.map]
  exact .of_step hstep (by simp [hagent]) (completes_of_followerLock hagent rfl)

/-- The agent of a waking server can always run to the end of `follower.on_enter`: a loop that holds
the mutex finds the flag cleared and unlocks it. -/
theorem Waking.completes (h : s.Waking) (hdisciplined : s.Disciplined) : s.Completes := by
  rcases h.agent with hlock | hunlock
  · cases hmtx : s.heartbeatMtx with
    | false => exact completes_of_followerLock hlock hmtx
    | true =>
      have hholders : 0 < s.heartbeatThreads.countP HeartbeatLoop.holds := by
        have hmutex := hdisciplined.mutex
        simp only [holders, hlock, hmtx, Agent.holds, Bool.toNat_true, Bool.toNat_false] at hmutex
        omega
      obtain ⟨loop, hmem, hholds⟩ := List.countP_pos_iff.mp hholders
      obtain ⟨i, hloop⟩ := List.mem_iff_getElem?.mp hmem
      cases loop with
      | test =>
        have hlength : i < s.heartbeatThreads.length := (List.getElem?_eq_some_iff.mp hloop).1
        have hstep : s.Step (.heartbeatStep i)
            { s with heartbeatThreads := s.heartbeatThreads.set i .unlock } := by
          simp [Step, next, act, heartbeatStep, hloop, h.isLeader, Except.map]
        exact .of_step hstep (by simp [hlock])
          (completes_of_unlock hlock (List.getElem?_set_self hlength))
      | unlock => exact completes_of_unlock hlock hloop
      | sending remaining => exact absurd hmem (h.between.heartbeat remaining)
      | lock | done => cases hholds
  · exact completes_of_followerUnlock hunlock

end Server

/-- Between the signal that deactivates a server and the next one it sends nothing, no pass of its
loops begins, and what it has of the replicated state stays the same, whatever messages it handles.
The next signal takes it to the follower state with no votes counted and all this as it was, when it
has run to the end of `follower.on_enter`, and from every state on the way it can. -/
theorem deactivated_inert {name : ByteString} {before middle : Server.History}
    {s start final : Server} (hbefore : Server.Run (.initial name) before s)
    (hrole : s.role ≠ .inactive) (hpass : s.BetweenPasses)
    (hdeactivate : s.Step (.handle .deactivate) start) (hmiddle : Server.Run start middle final)
    (hquiet : ∀ u ∈ middle, u.action ≠ .handle .deactivate) :
    (∀ u ∈ middle, u.source.outputs u.action = [] ∧ u.target.BetweenPasses) ∧
      final.role = .inactive ∧ final.data = s.data ∧
      ∀ woken entry s', final.Step (.handle .deactivate) woken → Server.Run woken entry s' →
        (∀ v ∈ entry, v.source.agent ≠ .idle) →
          s'.role = .follower ∧ s'.data = s.data ∧ (s'.agent = .idle → s'.voteCnt = 0) ∧
            s'.Completes := by
  obtain ⟨hinert, hkept⟩ :=
    Server.inert_of_deactivate (Server.flagged_run hbefore) hpass hrole hdeactivate.act
  obtain ⟨hfinal, hdata, hsilent⟩ := hinert.run hmiddle hquiet
  refine ⟨hsilent, hfinal.role, hdata.trans hkept, fun woken entry s' hwake hentry hbusy ↦ ?_⟩
  obtain ⟨hwaking, hwoken⟩ := hfinal.wake hwake.act
  obtain ⟨hdata', hend⟩ := hwaking.run hentry hbusy
  have hsame : s'.data = s.data := hdata'.trans (hwoken.trans (hdata.trans hkept))
  rcases hend with hstill | ⟨hfollower, hidle, hvotes⟩
  · have hrun := (((hbefore.snoc hdeactivate).append hmiddle).snoc hwake).append hentry
    have hagent : s'.agent ≠ .idle := by
      rcases hstill.agent with hlock | hunlock
      · simp [hlock]
      · simp [hunlock]
    exact ⟨hstill.role, hsame, fun hidle ↦ absurd hidle hagent,
      hstill.completes (Server.disciplined_run hrun)⟩
  · exact ⟨hfollower, hsame, fun _ ↦ hvotes, [], _, .nil, by simp, hidle⟩

/-- A server is elected by three votes and starts a `send_heartbeat` loop. -/
def Schedule.election : List Stimulus :=
  [.handle (.setCluster trio.setCluster), .handle .changeState, .timeLimit,
    .handle (.requestVote (.answer 0 true)), .handle (.requestVote (.answer 0 true)),
    .handle (.requestVote (.answer 0 true)), .resume, .resume, .resume]

/-- A late loop locks the mutex and finds the flag cleared, and a vote and an `AppendEntry` are
delivered. -/
def Schedule.inertness : List Stimulus :=
  [.heartbeatStep 0, .handle (.requestVote (.answer 0 true)), .heartbeatStep 0,
    .handle (.appendEntry (firstLeaderEntries 0 0 ["ADD;5"])), .requestVoteStep 0]

/-- A leader is deactivated, and activated again with the term that it had led in. -/
theorem deactivated_inert_leader :
    let s := finalState Server.next (.initial (bytes "server1")) Schedule.election
    let s' := finalState Server.next s
      (.handle .deactivate :: Schedule.inertness ++
        [.handle .deactivate, .heartbeatStep 0, .resume, .resume])
    s.role = .leader ∧ s'.role = .follower ∧ s'.term = 1 ∧ s'.voteCnt = 0 := by
  intro s s'
  let start := finalState Server.next s [.handle .deactivate]
  let final := finalState Server.next start Schedule.inertness
  let woken := finalState Server.next final [.handle .deactivate]
  have hbefore : Server.Run (.initial (bytes "server1")) _ s := run_of_isOk (by decide)
  have hmiddle : Server.Run start _ final := run_of_isOk (by decide)
  have hentered : finalState Server.next woken [.heartbeatStep 0, .resume, .resume] = s' := by
    rw [← finalState_append (by decide), ← finalState_append (by decide),
      ← finalState_append (by decide)]
    rfl
  have hentry : Server.Run woken
      (history Server.next woken [.heartbeatStep 0, .resume, .resume]) s' :=
    hentered ▸ run_of_isOk (by decide)
  have hloops : s.heartbeatThreads = [.lock] ∧ s.requestVoteThreads = [.test] := by decide
  have hpass : s.BetweenPasses := by constructor <;> simp [hloops]
  have hquiet : ∀ x ∈ Schedule.inertness, x ≠ .handle .deactivate := by decide
  obtain ⟨-, -, -, hwoken⟩ := deactivated_inert hbefore (by decide) hpass rfl hmiddle
    fun u hu ↦ hquiet u.action (action_mem_of_mem_history hu)
  obtain ⟨hrole, hdata, hvotes, -⟩ := hwoken woken _ s' rfl hentry (by decide)
  exact ⟨by decide, hrole, (congrArg Prod.fst hdata).trans (by decide), hvotes (by decide)⟩

end RaftConsensus
