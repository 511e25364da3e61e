import RaftConsensus.Model.Outputs

/-!
# The steps of the sender loops

What a step of a `send_heartbeat` or a `send_request_vote` loop does to its server, with the
position of the loop before and after it. The effects leave the positions open: no other step reads
them.
-/

set_option autoImplicit false
set_option relaxedAutoImplicit false

namespace RaftConsensus

/-- The steps of a `send_heartbeat` loop of a server other than the sends, with the mutex after
them. -/
inductive HeartbeatLoop.Step (s : Server) : HeartbeatLoop → Bool → HeartbeatLoop → Prop
  /-- The loop locks the mutex. -/
  | lock : s.heartbeatMtx = false → Step s .lock true .test
  /-- The test of `m_is_leader` succeeds, and a pass begins. -/
  | enter : s.isLeader = true → Step s .test s.heartbeatMtx (.sending s.mboxes.keys)
  /-- The test of `m_is_leader` fails. -/
  | leave : s.isLeader = false → Step s .test s.heartbeatMtx .unlock
  /-- A pass has reached all peers. -/
  | again : Step s (.sending []) s.heartbeatMtx .test
  /-- The loop unlocks the mutex and ends. -/
  | unlock : Step s .unlock false .done

/-- The steps of a `send_request_vote` loop of a server other than the sends. -/
inductive RequestVoteLoop.Step (s : Server) : RequestVoteLoop → RequestVoteLoop → Prop
  /-- The test of `m_is_candidate` succeeds, and a pass begins. -/
  | enter : s.isCandidate = true → Step s .test (.sending s.mboxes.keys)
  /-- The test of `m_is_candidate` fails. -/
  | leave : s.isCandidate = false → Step s .test .done
  /-- A pass has reached all peers. -/
  | again : Step s (.sending []) .test

/-- The stimulus is a step of a `send_heartbeat` loop. -/
def Stimulus.heartbeat : Stimulus → Bool
  | .heartbeatStep _ | .heartbeatSend _ _ _ => true
  | .handle _ | .timeLimit | .resume | .requestVoteStep _ | .requestVoteSend _ _ => false

/-- The stimulus is a step of a `send_request_vote` loop. -/
def Stimulus.voteLoop : Stimulus → Bool
  | .requestVoteStep _ | .requestVoteSend _ _ => true
  | .handle _ | .timeLimit | .resume | .heartbeatStep _ | .heartbeatSend _ _ _ => false

namespace Server

variable {s s' : Server} {x : Stimulus} {out : List Output} {i : ℕ} {peer : ByteString}
  {garbage : ℤ} {remaining : List ByteString}

/-! ### Steps of a loop -/

/-- What a step of a `send_heartbeat` loop without a send does. -/
theorem act_heartbeatStep (h : s.act (.heartbeatStep i) = .ok (s', out)) :
    ∃ loop mtx next, s.heartbeatThreads[i]? = some loop ∧ loop.Step s mtx next ∧
      s' = { s with heartbeatMtx := mtx, heartbeatThreads := s.heartbeatThreads.set i next } ∧
      out = [] := by
  simp only [act, heartbeatStep] at h
  split at h
  next hloop =>
    split_ifs at h with hmtx
    simp only [Except.ok.injEq, Prod.mk.injEq] at h
    obtain ⟨rfl, rfl⟩ := h
    exact ⟨_, _, _, hloop, .lock (by simpa using hmtx), rfl, rfl⟩
  next hloop =>
    simp only [Except.ok.injEq, Prod.mk.injEq] at h
    obtain ⟨rfl, rfl⟩ := h
    by_cases hleader : s.isLeader = true
    · exact ⟨_, _, _, hloop, .enter hleader, by rw [if_pos hleader], rfl⟩
    · exact ⟨_, _, _, hloop, .leave (by simpa using hleader), by rw [if_neg hleader], rfl⟩
  next hloop =>
    simp only [Except.ok.injEq, Prod.mk.injEq] at h
    obtain ⟨rfl, rfl⟩ := h
    exact ⟨_, _, _, hloop, .again, rfl, rfl⟩
  next hloop =>
    simp only [Except.ok.injEq, Prod.mk.injEq] at h
    obtain ⟨rfl, rfl⟩ := h
    exact ⟨_, _, _, hloop, .unlock, rfl, rfl⟩
  next => simp at h

/-- What a send of a `send_heartbeat` loop does. -/
theorem act_heartbeatSend (h : s.act (.heartbeatSend i peer garbage) = .ok (s', out)) :
    ∃ remaining, s.heartbeatThreads[i]? = some (.sending remaining) ∧ peer ∈ remaining ∧
      s' = { s with heartbeatThreads :=
                      s.heartbeatThreads.set i (.sending (remaining.erase peer)) } ∧
      s.sendHeartbeatTo peer garbage = .ok out := by
  simp only [act, heartbeatSend] at h
  split at h
  next remaining hloop =>
    split_ifs at h with hpeer
    simp only [except_bind_eq_ok_iff, pure, Except.pure, Except.ok.injEq, Prod.mk.injEq] at h
    obtain ⟨sent, hsent, rfl, rfl⟩ := h
    exact ⟨remaining, hloop, hpeer, rfl, hsent⟩
  next => simp at h

/-- What a step of a `send_request_vote` loop without a send does. -/
theorem act_requestVoteStep (h : s.act (.requestVoteStep i) = .ok (s', out)) :
    ∃ loop next, s.requestVoteThreads[i]? = some loop ∧ loop.Step s next ∧
      s' = { s with requestVoteThreads := s.requestVoteThreads.set i next } ∧ out = [] := by
  simp only [act, requestVoteStep] at h
  split at h
  next hloop =>
    simp only [Except.ok.injEq, Prod.mk.injEq] at h
    obtain ⟨rfl, rfl⟩ := h
    by_cases hcandidate : s.isCandidate = true
    · exact ⟨_, _, hloop, .enter hcandidate, by rw [if_pos hcandidate], rfl⟩
    · exact ⟨_, _, hloop, .leave (by simpa using hcandidate), by rw [if_neg hcandidate], rfl⟩
  next hloop =>
    simp only [Except.ok.injEq, Prod.mk.injEq] at h
    obtain ⟨rfl, rfl⟩ := h
    exact ⟨_, _, hloop, .again, rfl, rfl⟩
  next => simp at h

/-- What a send of a `send_request_vote` loop does. -/
theorem act_requestVoteSend (h : s.act (.requestVoteSend i peer) = .ok (s', out)) :
    ∃ remaining, s.requestVoteThreads[i]? = some (.sending remaining) ∧ peer ∈ remaining ∧
      s' = { s with requestVoteThreads :=
                      s.requestVoteThreads.set i (.sending (remaining.erase peer)) } ∧
      send (s.mboxes.get peer).mbox (.requestVote s.voteRequest) = .ok out := by
  simp only [act, requestVoteSend] at h
  split at h
  next remaining hloop =>
    split_ifs at h with hpeer
    simp only [except_bind_eq_ok_iff, pure, Except.pure, Except.ok.injEq, Prod.mk.injEq] at h
    obtain ⟨sent, hsent, rfl, rfl⟩ := h
    exact ⟨remaining, hloop, hpeer, rfl, hsent⟩
  next => simp at h

/-! ### Loops that are started -/

/-- The agent can only start a `send_heartbeat` loop. -/
theorem Effect.heartbeatThreads_cases (h : s.Effect x s' out) (hx : x.heartbeat = false) :
    s'.heartbeatThreads = s.heartbeatThreads ∨
      s'.heartbeatThreads = s.heartbeatThreads ++ [.lock] := by
  cases h
  case countVote | answerVote => exact Or.inl tally_heartbeatThreads
  case leaderThread => exact Or.inr rfl
  case heartbeatStep | heartbeatSkip | heartbeat => simp [Stimulus.heartbeat] at hx
  all_goals exact Or.inl rfl

/-- The agent can only start a `send_request_vote` loop. -/
theorem Effect.requestVoteThreads_cases (h : s.Effect x s' out) (hx : x.voteLoop = false) :
    s'.requestVoteThreads = s.requestVoteThreads ∨
      s'.requestVoteThreads = s.requestVoteThreads ++ [.test] := by
  cases h
  case countVote | answerVote => exact Or.inl tally_requestVoteThreads
  case electionTimeout => exact Or.inr rfl
  case requestVoteStep | voteRequest => simp [Stimulus.voteLoop] at hx
  all_goals exact Or.inl rfl

/-- A `send_heartbeat` loop in a pass goes on with a pass, or begins one over the whole map. -/
theorem heartbeat_pass_cases (hact : s.act x = .ok (s', out))
    (hpass : .sending remaining ∈ s'.heartbeatThreads) :
    (∃ before, .sending before ∈ s.heartbeatThreads ∧ remaining ⊆ before) ∨
      remaining = s.mboxes.keys := by
  by_cases hx : x.heartbeat = false
  · left
    rcases (act_effect hact).heartbeatThreads_cases hx with hsame | hstart
    · exact ⟨remaining, hsame ▸ hpass, List.Subset.refl _⟩
    · exact ⟨remaining, by simpa [hstart] using hpass, List.Subset.refl _⟩
  · cases x with
    | heartbeatStep i =>
      obtain ⟨loop, mtx, next, hloop, hstep, rfl, -⟩ := act_heartbeatStep hact
      rcases List.mem_or_eq_of_mem_set hpass with hold | rfl
      · exact Or.inl ⟨remaining, hold, List.Subset.refl _⟩
      · cases hstep with
        | enter => exact Or.inr rfl
    | heartbeatSend i peer garbage =>
      obtain ⟨before, hloop, -, rfl, -⟩ := act_heartbeatSend hact
      left
      rcases List.mem_or_eq_of_mem_set hpass with hold | hnext
      · exact ⟨remaining, hold, List.Subset.refl _⟩
      · obtain rfl := HeartbeatLoop.sending.inj hnext
        exact ⟨before, List.mem_of_getElem? hloop, List.erase_subset⟩
    | handle | timeLimit | resume | requestVoteStep | requestVoteSend => exact absurd rfl hx

/-- A `send_request_vote` loop in a pass goes on with a pass, or begins one over the whole map. -/
theorem requestVote_pass_cases (hact : s.act x = .ok (s', out))
    (hpass : .sending remaining ∈ s'.requestVoteThreads) :
    (∃ before, .sending before ∈ s.requestVoteThreads ∧ remaining ⊆ before) ∨
      remaining = s.mboxes.keys := by
  by_cases hx : x.voteLoop = false
  · left
    rcases (act_effect hact).requestVoteThreads_cases hx with hsame | hstart
    · exact ⟨remaining, hsame ▸ hpass, List.Subset.refl _⟩
    · exact ⟨remaining, by simpa [hstart] using hpass, List.Subset.refl _⟩
  · cases x with
    | requestVoteStep i =>
      obtain ⟨loop, next, hloop, hstep, rfl, -⟩ := act_requestVoteStep hact
      rcases List.mem_or_eq_of_mem_set hpass with hold | rfl
      · exact Or.inl ⟨remaining, hold, List.Subset.refl _⟩
      · cases hstep with
        | enter => exact Or.inr rfl
    | requestVoteSend i peer =>
      obtain ⟨before, hloop, -, rfl, -⟩ := act_requestVoteSend hact
      left
      rcases List.mem_or_eq_of_mem_set hpass with hold | hnext
      · exact ⟨remaining, hold, List.Subset.refl _⟩
      · obtain rfl := RequestVoteLoop.sending.inj hnext
        exact ⟨before, List.mem_of_getElem? hloop, List.erase_subset⟩
    | handle | timeLimit | resume | heartbeatStep | heartbeatSend => exact absurd rfl hx

end Server

end RaftConsensus
