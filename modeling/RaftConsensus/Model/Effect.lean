import RaftConsensus.Model.Cluster

/-!
# What a step can do

`Server.Effect s x s' out` lists the ways a stimulus `x` can take the server `s` to `s'` with the
messages `out` sent, each with the condition under which the code takes it. `act_effect` shows
that a successful `act` is one of them. The facts about steps used elsewhere are case analyses of
this list and do not unfold the handlers again.

`step_effect` lifts it to the cluster: a step posts a message, or is the effect of a stimulus on
one server, with the delivered message removed and the outputs added.
-/

set_option autoImplicit false
set_option relaxedAutoImplicit false

namespace RaftConsensus

open TransitionSystem

/-! ### Results of the handlers -/

/-- `so_5::send` succeeds on the mailbox it is given and sends one message to it. -/
theorem send_eq_ok_iff {target : Option Mbox} {msg : Msg} {out : List Output} :
    send target msg = .ok out ↔ ∃ mbox, target = some mbox ∧ out = [(mbox, msg)] := by
  cases target with
  | none => simp [send]
  | some mbox => simp [send, eq_comm]

/-- `so_5::send` does not parse commands. -/
theorem send_ne_parse_error {target : Option Mbox} {msg : Msg} {cmd : ByteString}
    {fault : ParseFault} : send target msg ≠ .error (.parse cmd fault) := by
  cases target <;> simp [send]

/-- A sequence of two computations succeeds when both do. -/
theorem except_bind_eq_ok_iff {ε α β : Type} {first : Except ε α} {second : α → Except ε β}
    {result : β} : first >>= second = .ok result ↔
      ∃ middle, first = .ok middle ∧ second middle = .ok result := by
  cases first with
  | error fault => simp [bind, Except.bind]
  | ok middle => simp [bind, Except.bind]

/-- A sequence of two computations fails when one of them does. -/
theorem except_bind_eq_error_iff {ε α β : Type} {first : Except ε α} {second : α → Except ε β}
    {reason : ε} : first >>= second = .error reason ↔
      first = .error reason ∨ ∃ middle, first = .ok middle ∧ second middle = .error reason := by
  cases first with
  | error fault => simp [bind, Except.bind]
  | ok middle => simp [bind, Except.bind]

/-- Whether a state has a handler for a message, its own or that of `server_state`. -/
def Role.subscribes : Role → Msg → Bool
  | _, .setCluster _ | _, .deactivate => true
  | role, .changeState => role = .follower ∨ role = .leader
  | role, .requestVote _ => role = .candidate ∨ role = .follower
  | role, .appendEntry _ => role ≠ .inactive
  | role, .appendEntryResult _ => role = .leader
  | role, .clientRequest _ => role = .follower ∨ role = .leader
  | _, .serverResponse _ => false

namespace Server

variable {s s' : Server} {out : List Output}

/-- The loop over the entries succeeds when every command parses, and then has appended all of
them and applied all their commands. -/
theorem appendEntries_eq_ok_iff {entries : List Entry} :
    s.appendEntries entries = .ok s' ↔
      ∃ register, s.register.parseAll (entries.map Prod.snd) = .ok register ∧
        s' = { s with log := s.log ++ entries, register } := by
  induction entries generalizing s with
  | nil => simp [appendEntries, eq_comm]
  | cons el rest ih =>
    cases hparse : s.register.parse el.2 with
    | error fault =>
      simp [appendEntries, hparse, Calc.parseAll, bind, Except.bind]
    | ok register =>
      simp only [appendEntries, hparse, ih, List.append_assoc, List.cons_append,
        List.nil_append, List.map_cons, Calc.parseAll_cons, Except.bind]

/-- The server after `heartbeat_handler` has accepted a message. -/
def accepted (s : Server) (ae : AppendEntry) (register : Calc) : Server :=
  { s with
    voteCnt := 0
    term := ae.term
    currLeader := ae.leaderId
    log := s.log ++ ae.entries
    register
    lastApplied := (s.log ++ ae.entries).length
    file := some (writeLogTo (s.log ++ ae.entries))
    followerLimit := true }

/-- The server when `follower.on_enter` has run to its end. -/
def leaveFollowerEntry (s : Server) : Server :=
  { s with heartbeatMtx := false, voteCnt := 0, agent := .idle }

/-- The answer of `heartbeat_handler` to a message it accepts. -/
def acceptResult (s : Server) (ae : AppendEntry) : AppendEntryResult :=
  ⟨s.name, ae.term, consistent s.log ae⟩

/-- Accepting a message succeeds when its `leader_id` has a mailbox and its commands parse. -/
theorem acceptEntries_eq_ok_iff {ae : AppendEntry} :
    s.acceptEntries ae = .ok (s', out) ↔
      ∃ mbox register, (s.mboxes.get ae.leaderId).mbox = some mbox ∧
        s.register.parseAll (ae.entries.map Prod.snd) = .ok register ∧
        s' = s.accepted ae register ∧ out = [(mbox, .appendEntryResult (s.acceptResult ae))] := by
  simp only [acceptEntries, except_bind_eq_ok_iff, send_eq_ok_iff, appendEntries_eq_ok_iff, pure,
    Except.pure, Except.ok.injEq, Prod.mk.injEq]
  constructor
  · rintro ⟨_, ⟨mbox, hmbox, rfl⟩, _, ⟨register, hparse, rfl⟩, rfl, rfl⟩
    exact ⟨mbox, register, hmbox, hparse, rfl, rfl⟩
  · rintro ⟨mbox, register, hmbox, hparse, rfl, rfl⟩
    exact ⟨_, ⟨mbox, hmbox, rfl⟩, _, ⟨register, hparse, rfl⟩, rfl, rfl⟩

/-! ### The effects -/

/-- The effects of the stimuli on a server. -/
inductive Effect (s : Server) : Stimulus → Server → List Output → Prop
  /-- A `SetCluster` message is handled. -/
  | setCluster (sc : SetCluster) : s.agent = .idle →
      Effect s (.handle (.setCluster sc)) (s.setClusterHandler sc) []
  /-- An inactive server is woken up. -/
  | wake : s.agent = .idle → s.role = .inactive →
      Effect s (.handle .deactivate) (s.activateFollower none) []
  /-- A server is deactivated. -/
  | deactivate : s.agent = .idle → s.role ≠ .inactive →
      Effect s (.handle .deactivate) s.activateInactive []
  /-- A `change_state` signal is handled. -/
  | changeState : s.agent = .idle → Effect s (.handle .changeState) s.changeStateHandler []
  /-- A message is dropped: the state has no handler for it. -/
  | drop (msg : Msg) : s.agent = .idle → s.role.subscribes msg = false →
      Effect s (.handle msg) s []
  /-- A granted vote is counted. -/
  | countVote (rv : RequestVote) : s.agent = .idle → s.role.subscribes (.requestVote rv) = true →
      rv.voteGranted = true →
      Effect s (.handle (.requestVote rv)) { s with voteCnt := s.voteCnt + 1 }.tally []
  /-- A request for a vote is answered. -/
  | answerVote (rv : RequestVote) (mbox : Mbox) : s.agent = .idle →
      s.role.subscribes (.requestVote rv) = true → rv.voteGranted = false →
      (s.mboxes.get rv.candidateId).mbox = some mbox →
      Effect s (.handle (.requestVote rv)) s.tally
        [(mbox, .requestVote (.answer s.term (s.term ≤ rv.term)))]
  /-- A follower accepts an `AppendEntry`. -/
  | accept (ae : AppendEntry) (mbox : Mbox) (register : Calc) : s.agent = .idle →
      s.role = .follower → s.term ≤ ae.term → (s.mboxes.get ae.leaderId).mbox = some mbox →
      s.register.parseAll (ae.entries.map Prod.snd) = .ok register →
      Effect s (.handle (.appendEntry ae)) (s.accepted ae register)
        [(mbox, .appendEntryResult (s.acceptResult ae))]
  /-- A candidate or a leader that is to accept an `AppendEntry` enters the follower state. -/
  | stepDown (ae : AppendEntry) : s.agent = .idle → s.role = .candidate ∨ s.role = .leader →
      s.term ≤ ae.term → Effect s (.handle (.appendEntry ae)) (s.activateFollower (some ae)) []
  /-- A stale `AppendEntry` is rejected. -/
  | reject (ae : AppendEntry) (mbox : Mbox) : s.agent = .idle → s.role ≠ .inactive →
      ae.term < s.term → (s.mboxes.get s.currLeader).mbox = some mbox →
      Effect s (.handle (.appendEntry ae)) s [(mbox, .appendEntryResult ⟨s.name, s.term, false⟩)]
  /-- A leader handles the result of an `AppendEntry`. -/
  | result (aer : AppendEntryResult) : s.agent = .idle → s.role = .leader →
      Effect s (.handle (.appendEntryResult aer)) (s.consistencyCheck aer) []
  /-- A leader accepts a command. -/
  | command (cr : ClientRequest) (mbox : Mbox) (register : Calc) : s.agent = .idle →
      s.role = .leader → cr.cmd ≠ [] → s.register.parse cr.cmd = .ok register →
      cr.inbox = some mbox →
      Effect s (.handle (.clientRequest cr))
        { s with log := s.log ++ [(s.term, cr.cmd)], register,
                 file := some (writeLogTo (s.log ++ [(s.term, cr.cmd)])) }
        [(mbox, .serverResponse ⟨1, register.getResult, s.name⟩)]
  /-- A leader answers an empty request. -/
  | query (cr : ClientRequest) (mbox : Mbox) : s.agent = .idle → s.role = .leader → cr.cmd = [] →
      cr.inbox = some mbox →
      Effect s (.handle (.clientRequest cr)) s
        [(mbox, .serverResponse ⟨1, s.register.getResult, s.name⟩)]
  /-- A follower redirects a client. -/
  | redirect (cr : ClientRequest) (mbox : Mbox) : s.agent = .idle → s.role = .follower →
      cr.inbox = some mbox →
      Effect s (.handle (.clientRequest cr)) s [(mbox, .serverResponse ⟨0, [], s.currLeader⟩)]
  /-- The time limit of the follower state expires. -/
  | electionTimeout : s.agent = .idle → s.role = .follower → s.followerLimit = true →
      Effect s .timeLimit s.activateCandidate []
  /-- The time limit of the leader state expires. -/
  | leaderTimeout : s.agent = .idle → s.role = .leader →
      Effect s .timeLimit (s.activateFollower none) []
  /-- `follower.on_enter` locks the mutex. -/
  | followerLock (handling : Option AppendEntry) : s.agent = .followerLock handling →
      s.heartbeatMtx = false →
      Effect s .resume { s with heartbeatMtx := true, agent := .followerUnlock handling } []
  /-- `follower.on_enter` runs to its end. -/
  | enterFollower : s.agent = .followerUnlock none →
      Effect s .resume s.leaveFollowerEntry [(.server s.name, .changeState)]
  /-- `follower.on_enter` runs to its end and the message is accepted that activated it. -/
  | enterAccept (ae : AppendEntry) (mbox : Mbox) (register : Calc) :
      s.agent = .followerUnlock (some ae) → (s.mboxes.get ae.leaderId).mbox = some mbox →
      s.register.parseAll (ae.entries.map Prod.snd) = .ok register →
      Effect s .resume (s.leaveFollowerEntry.accepted ae register)
        [(.server s.name, .changeState), (mbox, .appendEntryResult (s.acceptResult ae))]
  /-- `leader.on_enter` locks the mutex. -/
  | leaderLock : s.agent = .leaderLock → s.heartbeatMtx = false →
      Effect s .resume { s with heartbeatMtx := true, agent := .leaderUnlock } []
  /-- `leader.on_enter` sets the next indices and unlocks the mutex. -/
  | leaderUnlock : s.agent = .leaderUnlock →
      Effect s .resume
        { s with mboxes := s.mboxes.setNextIndices s.log.length, heartbeatMtx := false,
                 agent := .leaderThread }
        [(.server s.name, .changeState)]
  /-- `leader.on_enter` starts a `send_heartbeat` thread. -/
  | leaderThread : s.agent = .leaderThread →
      Effect s .resume
        { s with heartbeatThreads := s.heartbeatThreads ++ [.lock], agent := .idle } []
  /-- A `send_heartbeat` loop takes a step without sending. -/
  | heartbeatStep (i : ℕ) (mtx : Bool) (threads : List HeartbeatLoop) :
      Effect s (.heartbeatStep i) { s with heartbeatMtx := mtx, heartbeatThreads := threads } []
  /-- A `send_heartbeat` loop passes over the server itself. -/
  | heartbeatSkip (i : ℕ) (garbage : ℤ) (threads : List HeartbeatLoop) :
      Effect s (.heartbeatSend i s.name garbage) { s with heartbeatThreads := threads } []
  /-- A `send_heartbeat` loop sends an `AppendEntry`. -/
  | heartbeat (i : ℕ) (peer : ByteString) (garbage : ℤ) (mbox : Mbox)
      (threads : List HeartbeatLoop) : peer ≠ s.name →
      (s.mboxes.get peer).mbox = some mbox →
      Effect s (.heartbeatSend i peer garbage) { s with heartbeatThreads := threads }
        [(mbox, .appendEntry (s.heartbeatFor (s.mboxes.get peer).nextIndex garbage))]
  /-- A `send_request_vote` loop takes a step without sending. -/
  | requestVoteStep (i : ℕ) (threads : List RequestVoteLoop) :
      threads.length = s.requestVoteThreads.length →
      Effect s (.requestVoteStep i) { s with requestVoteThreads := threads } []
  /-- A `send_request_vote` loop sends a request. -/
  | voteRequest (i : ℕ) (peer : ByteString) (mbox : Mbox) (threads : List RequestVoteLoop) :
      threads.length = s.requestVoteThreads.length → s.requestVoteThreads ≠ [] →
      (s.mboxes.get peer).mbox = some mbox →
      Effect s (.requestVoteSend i peer) { s with requestVoteThreads := threads }
        [(mbox, .requestVote s.voteRequest)]

/-! ### Every step is an effect -/

/-- The effects of `request_vote_handler`. -/
theorem requestVoteHandler_effect {rv : RequestVote} (hidle : s.agent = .idle)
    (hrole : s.role.subscribes (.requestVote rv) = true)
    (h : s.requestVoteHandler rv = .ok (s', out)) :
    s.Effect (.handle (.requestVote rv)) s' out := by
  unfold requestVoteHandler at h
  split_ifs at h with hgranted
  · simp only [Except.ok.injEq, Prod.mk.injEq] at h
    obtain ⟨rfl, rfl⟩ := h
    exact .countVote rv hidle hrole hgranted
  · simp only [except_bind_eq_ok_iff, send_eq_ok_iff, pure, Except.pure, Except.ok.injEq,
      Prod.mk.injEq] at h
    obtain ⟨_, ⟨mbox, hmbox, rfl⟩, rfl, rfl⟩ := h
    exact .answerVote rv mbox hidle hrole (by simpa using hgranted) hmbox

/-- The effects of `heartbeat_handler`. -/
theorem heartbeatHandler_effect {ae : AppendEntry} (hidle : s.agent = .idle)
    (hrole : s.role ≠ .inactive) (h : s.heartbeatHandler ae = .ok (s', out)) :
    s.Effect (.handle (.appendEntry ae)) s' out := by
  unfold heartbeatHandler at h
  split_ifs at h with hterm hfollower
  · obtain ⟨mbox, register, hmbox, hparse, rfl, rfl⟩ := acceptEntries_eq_ok_iff.mp h
    exact .accept ae mbox register hidle hfollower hterm hmbox hparse
  · simp only [Except.ok.injEq, Prod.mk.injEq] at h
    obtain ⟨rfl, rfl⟩ := h
    refine .stepDown ae hidle ?_ hterm
    cases hcase : s.role <;> simp_all
  · simp only [except_bind_eq_ok_iff, send_eq_ok_iff, pure, Except.pure, Except.ok.injEq,
      Prod.mk.injEq] at h
    obtain ⟨_, ⟨mbox, hmbox, rfl⟩, rfl, rfl⟩ := h
    exact .reject ae mbox hidle hrole (not_le.mp hterm) hmbox

/-- The effects of the two handlers of a client request. -/
theorem clientRequestHandler_effect {cr : ClientRequest} (hidle : s.agent = .idle)
    (h : s.handle (.clientRequest cr) = .ok (s', out)) :
    s.Effect (.handle (.clientRequest cr)) s' out := by
  unfold handle at h
  cases hrole : s.role with
  | leader =>
    simp only [hrole, leaderClientRequestHandler, except_bind_eq_ok_iff, send_eq_ok_iff, pure,
      Except.pure, Except.ok.injEq, Prod.mk.injEq] at h
    obtain ⟨s₁, haccept, _, ⟨mbox, hmbox, rfl⟩, rfl, rfl⟩ := h
    by_cases hcmd : cr.cmd = []
    · simp only [acceptCommand, hcmd, List.length_nil, ne_eq, not_true_eq_false, ↓reduceIte,
        Except.ok.injEq] at haccept
      subst haccept
      exact .query cr mbox hidle hrole hcmd hmbox
    · have hlength : cr.cmd.length ≠ 0 := mt List.length_eq_zero_iff.mp hcmd
      rw [acceptCommand, if_pos hlength] at haccept
      cases hparse : s.register.parse cr.cmd with
      | error fault => simp [hparse] at haccept
      | ok register =>
        simp only [hparse, Except.ok.injEq] at haccept
        subst haccept
        exact .command cr mbox register hidle hrole hcmd hparse hmbox
  | follower =>
    simp only [hrole, followerClientRequestHandler, except_bind_eq_ok_iff, send_eq_ok_iff, pure,
      Except.pure, Except.ok.injEq, Prod.mk.injEq] at h
    obtain ⟨_, ⟨mbox, hmbox, rfl⟩, rfl, rfl⟩ := h
    exact .redirect cr mbox hidle hrole hmbox
  | candidate | inactive =>
    simp only [hrole, Except.ok.injEq, Prod.mk.injEq] at h
    obtain ⟨rfl, rfl⟩ := h
    exact .drop _ hidle (by rw [hrole]; rfl)

/-- The effects of the handlers. -/
theorem handle_effect {msg : Msg} (hidle : s.agent = .idle) (h : s.handle msg = .ok (s', out)) :
    s.Effect (.handle msg) s' out := by
  cases msg with
  | setCluster sc =>
    simp only [handle, Except.ok.injEq, Prod.mk.injEq] at h
    obtain ⟨rfl, rfl⟩ := h
    exact .setCluster sc hidle
  | deactivate =>
    simp only [handle, deactivateHandler, Except.ok.injEq, Prod.mk.injEq] at h
    obtain ⟨rfl, rfl⟩ := h
    split_ifs with hrole
    · exact .wake hidle hrole
    · exact .deactivate hidle hrole
  | changeState =>
    simp only [handle, Except.ok.injEq, Prod.mk.injEq] at h
    obtain ⟨rfl, rfl⟩ := h
    exact .changeState hidle
  | requestVote rv =>
    cases hrole : s.role <;> simp only [handle, hrole] at h
    case candidate | follower => exact requestVoteHandler_effect hidle (by rw [hrole]; rfl) h
    all_goals
      simp only [Except.ok.injEq, Prod.mk.injEq] at h
      obtain ⟨rfl, rfl⟩ := h
      exact .drop _ hidle (by rw [hrole]; rfl)
  | appendEntry ae =>
    cases hrole : s.role <;> simp only [handle, hrole] at h
    case inactive =>
      simp only [Except.ok.injEq, Prod.mk.injEq] at h
      obtain ⟨rfl, rfl⟩ := h
      exact .drop _ hidle (by rw [hrole]; rfl)
    all_goals exact heartbeatHandler_effect hidle (by rw [hrole]; decide) h
  | appendEntryResult aer =>
    cases hrole : s.role <;>
      simp only [handle, hrole, Except.ok.injEq, Prod.mk.injEq] at h <;> obtain ⟨rfl, rfl⟩ := h
    case leader => exact .result aer hidle hrole
    all_goals exact .drop _ hidle (by rw [hrole]; rfl)
  | clientRequest cr => exact clientRequestHandler_effect hidle h
  | serverResponse sr =>
    simp only [handle, Except.ok.injEq, Prod.mk.injEq] at h
    obtain ⟨rfl, rfl⟩ := h
    exact .drop _ hidle rfl

/-- The effects of an expired time limit. -/
theorem timeLimit_effect (hidle : s.agent = .idle) (h : s.timeLimit = .ok (s', out)) :
    s.Effect .timeLimit s' out := by
  unfold timeLimit at h
  cases hrole : s.role <;> simp only [hrole] at h
  case follower =>
    split_ifs at h with hlimit
    simp only [Except.ok.injEq, Prod.mk.injEq] at h
    obtain ⟨rfl, rfl⟩ := h
    exact .electionTimeout hidle hrole hlimit
  case leader =>
    simp only [Except.ok.injEq, Prod.mk.injEq] at h
    obtain ⟨rfl, rfl⟩ := h
    exact .leaderTimeout hidle hrole
  all_goals exact absurd h (by simp)

/-- The effects of the steps in an `on_enter` handler. -/
theorem resume_effect (h : s.resume = .ok (s', out)) : s.Effect .resume s' out := by
  unfold resume at h
  cases hagent : s.agent with
  | idle => simp [hagent] at h
  | followerLock handling =>
    simp only [hagent] at h
    split_ifs at h with hmtx
    simp only [Except.ok.injEq, Prod.mk.injEq] at h
    obtain ⟨rfl, rfl⟩ := h
    exact .followerLock handling hagent (by simpa using hmtx)
  | followerUnlock handling =>
    cases handling with
    | none =>
      simp only [hagent, pure, Except.pure, Except.ok.injEq, Prod.mk.injEq] at h
      obtain ⟨rfl, rfl⟩ := h
      exact .enterFollower hagent
    | some ae =>
      simp only [hagent, except_bind_eq_ok_iff, Prod.exists, acceptEntries_eq_ok_iff, pure,
        Except.pure, Except.ok.injEq, Prod.mk.injEq] at h
      obtain ⟨_, _, ⟨mbox, register, hmbox, hparse, rfl, rfl⟩, rfl, rfl⟩ := h
      exact .enterAccept ae mbox register hagent hmbox hparse
  | leaderLock =>
    simp only [hagent] at h
    split_ifs at h with hmtx
    simp only [Except.ok.injEq, Prod.mk.injEq] at h
    obtain ⟨rfl, rfl⟩ := h
    exact .leaderLock hagent (by simpa using hmtx)
  | leaderUnlock =>
    simp only [hagent, Except.ok.injEq, Prod.mk.injEq] at h
    obtain ⟨rfl, rfl⟩ := h
    exact .leaderUnlock hagent
  | leaderThread =>
    simp only [hagent, Except.ok.injEq, Prod.mk.injEq] at h
    obtain ⟨rfl, rfl⟩ := h
    exact .leaderThread hagent

/-- The effects of the steps of a `send_heartbeat` loop other than the sends. -/
theorem heartbeatStep_effect {i : ℕ} (h : s.heartbeatStep i = .ok (s', out)) :
    s.Effect (.heartbeatStep i) s' out := by
  unfold heartbeatStep at h
  split at h
  · split_ifs at h
    simp only [Except.ok.injEq, Prod.mk.injEq] at h
    obtain ⟨rfl, rfl⟩ := h
    exact .heartbeatStep i true _
  · simp only [Except.ok.injEq, Prod.mk.injEq] at h
    obtain ⟨rfl, rfl⟩ := h
    exact .heartbeatStep i s.heartbeatMtx _
  · simp only [Except.ok.injEq, Prod.mk.injEq] at h
    obtain ⟨rfl, rfl⟩ := h
    exact .heartbeatStep i s.heartbeatMtx _
  · simp only [Except.ok.injEq, Prod.mk.injEq] at h
    obtain ⟨rfl, rfl⟩ := h
    exact .heartbeatStep i false _
  · simp at h

/-- The effects of a send of a `send_heartbeat` loop. -/
theorem heartbeatSend_effect {i : ℕ} {peer : ByteString} {garbage : ℤ}
    (h : s.heartbeatSend i peer garbage = .ok (s', out)) :
    s.Effect (.heartbeatSend i peer garbage) s' out := by
  unfold heartbeatSend at h
  split at h
  · split_ifs at h
    simp only [sendHeartbeatTo, except_bind_eq_ok_iff, pure, Except.pure, Except.ok.injEq,
      Prod.mk.injEq] at h
    obtain ⟨sent, hsent, rfl, rfl⟩ := h
    split_ifs at hsent with hpeer
    · obtain ⟨mbox, hmbox, rfl⟩ := send_eq_ok_iff.mp hsent
      exact .heartbeat i peer garbage mbox _ hpeer hmbox
    · simp only [Except.ok.injEq] at hsent
      obtain rfl : peer = s.name := not_not.mp hpeer
      subst hsent
      exact .heartbeatSkip i garbage _
  · simp at h

/-- The effects of the steps of a `send_request_vote` loop other than the sends. -/
theorem requestVoteStep_effect {i : ℕ} (h : s.requestVoteStep i = .ok (s', out)) :
    s.Effect (.requestVoteStep i) s' out := by
  unfold requestVoteStep at h
  split at h
  · simp only [Except.ok.injEq, Prod.mk.injEq] at h
    obtain ⟨rfl, rfl⟩ := h
    exact .requestVoteStep i _ List.length_set
  · simp only [Except.ok.injEq, Prod.mk.injEq] at h
    obtain ⟨rfl, rfl⟩ := h
    exact .requestVoteStep i _ List.length_set
  · simp at h

/-- The effects of a send of a `send_request_vote` loop. -/
theorem requestVoteSend_effect {i : ℕ} {peer : ByteString}
    (h : s.requestVoteSend i peer = .ok (s', out)) : s.Effect (.requestVoteSend i peer) s' out := by
  unfold requestVoteSend at h
  split at h
  case h_1 remaining hthread =>
    split_ifs at h
    simp only [except_bind_eq_ok_iff, send_eq_ok_iff, pure, Except.pure, Except.ok.injEq,
      Prod.mk.injEq] at h
    obtain ⟨_, ⟨mbox, hmbox, rfl⟩, rfl, rfl⟩ := h
    have hthreads : s.requestVoteThreads ≠ [] := by
      intro hnil
      simp [hnil] at hthread
    exact .voteRequest i peer mbox _ List.length_set hthreads hmbox
  case h_2 => simp at h

/-- Every step of a server is one of the effects. -/
theorem act_effect {x : Stimulus} (h : s.act x = .ok (s', out)) : s.Effect x s' out := by
  cases x with
  | handle msg =>
    simp only [act] at h
    split_ifs at h with hidle
    exact handle_effect hidle h
  | timeLimit =>
    simp only [act] at h
    split_ifs at h with hidle
    exact timeLimit_effect hidle h
  | resume => exact resume_effect h
  | heartbeatStep i => exact heartbeatStep_effect h
  | heartbeatSend i peer garbage => exact heartbeatSend_effect h
  | requestVoteStep i => exact requestVoteStep_effect h
  | requestVoteSend i peer => exact requestVoteSend_effect h

/-! ### What all effects have in common -/

variable {s : Server} {x : Stimulus}

/-- The votes counted either stay below the threshold, or make the server leader. -/
theorem tally_cases : (s.tally = s ∧ ¬ ceilHalf s.mboxes.size < s.voteCnt) ∨
    (s.tally = { s with voteCnt := 0 }.activateLeader ∧ ceilHalf s.mboxes.size < s.voteCnt) := by
  unfold tally
  split_ifs with hmajority
  · exact Or.inr ⟨rfl, hmajority⟩
  · exact Or.inl ⟨rfl, hmajority⟩

/-- The fields that the tally can change. -/
theorem tally_eq : s.tally =
    { s with
      role := s.tally.role, agent := s.tally.agent, voteCnt := s.tally.voteCnt,
      isLeader := s.tally.isLeader, isCandidate := s.tally.isCandidate } := by
  rcases s.tally_cases with ⟨h, -⟩ | ⟨h, -⟩
  · rw [h]
  · rw [h]
    rfl

@[simp] theorem tally_name : s.tally.name = s.name := by rw [tally_eq]

@[simp] theorem tally_mboxes : s.tally.mboxes = s.mboxes := by rw [tally_eq]

@[simp] theorem tally_log : s.tally.log = s.log := by rw [tally_eq]

@[simp] theorem tally_register : s.tally.register = s.register := by rw [tally_eq]

@[simp] theorem tally_term : s.tally.term = s.term := by rw [tally_eq]

@[simp] theorem tally_currLeader : s.tally.currLeader = s.currLeader := by rw [tally_eq]

@[simp] theorem tally_heartbeatMtx : s.tally.heartbeatMtx = s.heartbeatMtx := by rw [tally_eq]

@[simp] theorem tally_heartbeatThreads :
    s.tally.heartbeatThreads = s.heartbeatThreads := by rw [tally_eq]

@[simp] theorem tally_requestVoteThreads :
    s.tally.requestVoteThreads = s.requestVoteThreads := by rw [tally_eq]

@[simp] theorem tally_file : s.tally.file = s.file := by rw [tally_eq]

/-- A server keeps its name. -/
theorem Effect.name_eq (h : s.Effect x s' out) : s'.name = s.name := by
  cases h
  case countVote | answerVote => exact tally_name
  all_goals rfl

/-- A log only grows, and the register follows it: the commands appended are the ones applied. -/
theorem Effect.log_append (h : s.Effect x s' out) :
    ∃ entries, s'.log = s.log ++ entries ∧
      s.register.parseAll (entries.map Prod.snd) = .ok s'.register := by
  cases h
  case accept ae _ register _ _ _ _ hparse => exact ⟨ae.entries, rfl, hparse⟩
  case enterAccept ae _ register _ _ hparse => exact ⟨ae.entries, rfl, hparse⟩
  case command cr _ register _ _ _ hparse _ =>
    refine ⟨[(s.term, cr.cmd)], rfl, ?_⟩
    simp [Calc.parseAll_cons, hparse, Except.bind]
  all_goals exact ⟨[], by simp [setClusterHandler, exitState, activateFollower, activateInactive,
    activateCandidate, changeStateHandler, leaveFollowerEntry, consistencyCheck]⟩

end Server

/-! ### Steps of the cluster -/

namespace Cluster

/-- The cluster in which one server has a new state, with its outputs added to the messages in
flight. -/
def updated (c : Cluster) (name : ByteString) (s : Server) (network : List Envelope)
    (cause : Option Msg) (out : List Output) : Cluster where
  servers := Function.update c.servers name s
  network := network ++ out.map fun o ↦ ⟨some name, cause, o.1, o.2⟩

/-- The effects of the actions on the cluster. -/
inductive Effect (m : Membership) (c : Cluster) : Action → Cluster → Prop
  /-- The environment posts a message. -/
  | post (receiver : ByteString) (msg : Msg) : receiver ∈ m.names → m.Postable msg →
      Effect m c (.post receiver msg)
        { c with network := c.network ++ [⟨none, none, .server receiver, msg⟩] }
  /-- A message in flight is delivered. -/
  | deliver (name : ByteString) (e : Envelope) (s : Server) (out : List Output) :
      name ∈ m.names → e ∈ c.network → e.dst = .server name →
      (c.servers name).Effect (.handle e.msg) s out →
      Effect m c (.deliver name e) (c.updated name s (c.network.erase e) (some e.msg) out)
  /-- A server takes a step by itself. -/
  | internal (name : ByteString) (x : Stimulus) (s : Server) (out : List Output) :
      name ∈ m.names → x.IsInternal → (c.servers name).Effect x s out →
      Effect m c (.internal name x) (c.updated name s c.network none out)

variable {m : Membership} {c c' : Cluster} {a : Action}

/-- A stimulus of one server updates the cluster by the effect on it. -/
theorem actOn_eq_ok {name : ByteString} {cause : Option Msg} {x : Stimulus}
    (h : c.actOn name cause x = .ok c') :
    ∃ s out, (c.servers name).Effect x s out ∧ c' = c.updated name s c.network cause out := by
  unfold actOn at h
  cases hact : (c.servers name).act x with
  | error halt => simp [hact] at h
  | ok result =>
    simp only [hact, Except.ok.injEq] at h
    exact ⟨result.1, result.2, Server.act_effect hact, h.symm⟩

/-- Every step of the cluster is one of the effects. -/
theorem step_effect (h : Step m c a c') : Effect m c a c' := by
  unfold Step next at h
  cases a with
  | post receiver msg =>
    dsimp only at h
    split_ifs at h with hpost
    obtain rfl := Except.ok.inj h
    exact .post receiver msg hpost.1 hpost.2
  | deliver receiver e =>
    dsimp only at h
    split_ifs at h with hdeliver
    obtain ⟨s, out, heffect, rfl⟩ := actOn_eq_ok h
    exact .deliver receiver e s out hdeliver.1 hdeliver.2.1 hdeliver.2.2 heffect
  | internal name x =>
    dsimp only at h
    split_ifs at h with hinternal
    obtain ⟨s, out, heffect, rfl⟩ := actOn_eq_ok h
    exact .internal name x s out hinternal.1 hinternal.2 heffect

@[simp] theorem updated_servers_self (name : ByteString) (s : Server) (network : List Envelope)
    (cause : Option Msg) (out : List Output) :
    (c.updated name s network cause out).servers name = s :=
  Function.update_self ..

theorem updated_servers_of_ne {name other : ByteString} (h : other ≠ name) (s : Server)
    (network : List Envelope) (cause : Option Msg) (out : List Output) :
    (c.updated name s network cause out).servers other = c.servers other :=
  Function.update_of_ne h ..

/-- A message in flight after an update was in flight before, or is one of the outputs. -/
theorem mem_updated_network {name : ByteString} {s : Server} {network : List Envelope}
    {cause : Option Msg} {out : List Output} {e : Envelope} :
    e ∈ (c.updated name s network cause out).network ↔
      e ∈ network ∨ (e.sender = some name ∧ e.cause = cause ∧ (e.dst, e.msg) ∈ out) := by
  simp only [updated, List.mem_append, List.mem_map, Prod.exists]
  refine or_congr_right ⟨?_, ?_⟩
  · rintro ⟨dst, msg, hout, rfl⟩
    exact ⟨rfl, rfl, hout⟩
  · rintro ⟨hsender, hcause, hout⟩
    exact ⟨e.dst, e.msg, hout, by cases e; simp_all⟩

/-- A stimulus can only be the handling of a message that is in flight to the server. -/
def Available (c : Cluster) (name : ByteString) (x : Stimulus) : Prop :=
  ∀ msg, x = .handle msg → ∃ e ∈ c.network, e.dst = .server name ∧ e.msg = msg

/-- A stimulus other than a delivery is always available. -/
theorem available_of_isInternal {name : ByteString} {x : Stimulus} (h : x.IsInternal) :
    c.Available name x := by
  rintro msg rfl
  exact h.elim

/-- A delivered message is in flight to the receiver. -/
theorem Effect.of_deliver {receiver : ByteString} {e : Envelope}
    (h : Effect m c (.deliver receiver e) c') :
    e ∈ c.network ∧ e.dst = .server receiver := by
  cases h with
  | deliver _ _ s out _ he hdst => exact ⟨he, hdst⟩

/-- A server handles a message that is delivered to it. -/
theorem Effect.deliver_of_handle (h : Effect m c a c') {name : ByteString} {msg : Msg}
    (hx : a.stimulus = some (name, .handle msg)) :
    ∃ e, a = .deliver name e ∧ e.msg = msg ∧ e ∈ c.network ∧ e.dst = .server name := by
  rcases Action.stimulus_cases hx with ⟨e, rfl, hmsg⟩ | rfl
  · exact ⟨e, rfl, (Stimulus.handle.inj hmsg).symm, h.of_deliver⟩
  · cases h with
    | internal _ _ s out _ hinternal => exact hinternal.elim

/-- The stimulus of an action is available and has its effect on the server. -/
theorem Effect.of_stimulus (h : Effect m c a c') {name : ByteString} {x : Stimulus}
    (hx : a.stimulus = some (name, x)) :
    name ∈ m.names ∧ c.Available name x ∧
      ∃ out, (c.servers name).Effect x (c'.servers name) out := by
  cases h with
  | post receiver msg => simp [Action.stimulus] at hx
  | deliver receiver e s out hname he hdst heffect =>
    simp only [Action.stimulus, Option.some.injEq, Prod.mk.injEq] at hx
    obtain ⟨rfl, rfl⟩ := hx
    refine ⟨hname, ?_, out, by simpa using heffect⟩
    intro msg hmsg
    exact ⟨e, he, hdst, Stimulus.handle.inj hmsg⟩
  | internal receiver y s out hname hinternal heffect =>
    simp only [Action.stimulus, Option.some.injEq, Prod.mk.injEq] at hx
    obtain ⟨rfl, rfl⟩ := hx
    exact ⟨hname, available_of_isInternal hinternal, out, by simpa using heffect⟩

/-- What a step does to each server: nothing, or the effect of its stimulus. -/
theorem Effect.server (h : Effect m c a c') (name : ByteString) :
    c'.servers name = c.servers name ∨
      ∃ x out, a.stimulus = some (name, x) ∧ c.Available name x ∧
        (c.servers name).Effect x (c'.servers name) out := by
  by_cases hself : ∃ x, a.stimulus = some (name, x)
  · obtain ⟨x, hx⟩ := hself
    obtain ⟨-, havailable, out, heffect⟩ := h.of_stimulus hx
    exact Or.inr ⟨x, out, hx, havailable, heffect⟩
  · left
    cases h with
    | post receiver msg => rfl
    | deliver receiver e s out =>
      refine updated_servers_of_ne ?_ ..
      rintro rfl
      exact hself ⟨_, rfl⟩
    | internal receiver x s out =>
      refine updated_servers_of_ne ?_ ..
      rintro rfl
      exact hself ⟨x, rfl⟩

/-- Where a message in flight after a step comes from: it was in flight before, the environment
has posted it, or a server has sent it. -/
theorem Effect.network (h : Effect m c a c') {e : Envelope} (he : e ∈ c'.network) :
    e ∈ c.network ∨
      (∃ receiver msg, m.Postable msg ∧ e = ⟨none, none, .server receiver, msg⟩) ∨
      ∃ name x out, a.stimulus = some (name, x) ∧ c.Available name x ∧
        (c.servers name).Effect x (c'.servers name) out ∧ (e.dst, e.msg) ∈ out ∧
        e.sender = some name ∧ ∀ msg, x = .handle msg → e.cause = some msg := by
  cases h with
  | post receiver msg _ hpostable =>
    rcases List.mem_append.mp he with hold | hnew
    · exact Or.inl hold
    · exact Or.inr (Or.inl ⟨receiver, msg, hpostable, List.mem_singleton.mp hnew⟩)
  | deliver name delivered s out hname hin hdst heffect =>
    rcases mem_updated_network.mp he with hold | ⟨hsender, hcause, hout⟩
    · exact Or.inl (List.mem_of_mem_erase hold)
    · refine Or.inr (Or.inr ⟨name, _, out, rfl, ?_, by simpa using heffect, hout, hsender, ?_⟩)
      · intro msg hmsg
        exact ⟨delivered, hin, hdst, Stimulus.handle.inj hmsg⟩
      · intro msg hmsg
        rw [hcause, Stimulus.handle.inj hmsg]
  | internal name x s out hname hinternal heffect =>
    rcases mem_updated_network.mp he with hold | ⟨hsender, -, hout⟩
    · exact Or.inl hold
    · refine Or.inr (Or.inr ⟨name, x, out, rfl, available_of_isInternal hinternal,
        by simpa using heffect, hout, hsender, ?_⟩)
      rintro msg rfl
      exact hinternal.elim

/-- A message in flight that the environment cannot post was in flight before, or a server has sent
it. -/
theorem Effect.network_of_server (h : Effect m c a c') {e : Envelope} (he : e ∈ c'.network)
    {msg : Msg} (hmsg : e.msg = msg) (hserver : ¬ m.Postable msg) :
    e ∈ c.network ∨ ∃ name x out, a.stimulus = some (name, x) ∧ c.Available name x ∧
      (c.servers name).Effect x (c'.servers name) out ∧ (e.dst, e.msg) ∈ out ∧
      e.sender = some name ∧ ∀ msg, x = .handle msg → e.cause = some msg := by
  rcases h.network he with hold | ⟨_, posted, hpostable, rfl⟩ | hsent
  · exact Or.inl hold
  · exact absurd (hmsg ▸ hpostable) hserver
  · exact Or.inr hsent

/-- A property of single servers that holds at the start and that every effect keeps holds of
every server in every state of a run. -/
theorem server_invariant {property : Server → Prop} {start : Cluster} {trace : History}
    (hstart : ∀ name, property (start.servers name))
    (heffect : ∀ s x s' out, property s → s.Effect x s' out → property s')
    (hrun : Run m start trace c) (name : ByteString) : property (c.servers name) := by
  have hstep (c : Cluster) (a : Action) (c' : Cluster) (hc : ∀ name, property (c.servers name))
      (hstep : Step m c a c') : ∀ name, property (c'.servers name) := by
    intro name
    rcases (step_effect hstep).server name with hsame | ⟨x, out, -, -, hchange⟩
    · rw [hsame]
      exact hc name
    · exact heffect _ _ _ _ (hc name) hchange
  exact TransitionSystem.Run.invariant hstart hstep hrun name

end Cluster

end RaftConsensus
