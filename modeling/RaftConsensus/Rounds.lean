import RaftConsensus.Answers
import RaftConsensus.Mailboxes

/-!
# Rounds of replication

A round of a leader begins with any number of client requests, which the leader handles. Then one
pass of its `send_heartbeat` loop sends an `AppendEntry` to every other server, the receivers handle
these messages to the end of the handler, and the leader handles the results. The messages may be
handled while the pass still goes on.

All the time other things may happen in the background: messages are posted, `change_state` signals
are handled, and agents and loops take steps of their own. No time limit expires, and no other
message is delivered.
-/

set_option autoImplicit false
set_option relaxedAutoImplicit false

namespace RaftConsensus

open TransitionSystem

/-- The stimulus neither is a message, other than a `change_state` signal, nor a time limit. -/
def Stimulus.Calm : Stimulus → Prop
  | .handle msg => msg = .changeState
  | .timeLimit => False
  | .resume | .heartbeatStep _ | .heartbeatSend _ _ _ | .requestVoteStep _
  | .requestVoteSend _ _ => True

/-- The action belongs to no round: nothing is sent to the followers of a leader. -/
def Background (leader : ByteString) : Action → Prop
  | .post _ _ => True
  | .deliver _ e => e.msg = .changeState
  | .internal name x =>
    x.Calm ∧ (name = leader → ∀ i peer garbage, x ≠ .heartbeatSend i peer garbage)

/-- The actions at the beginning of a round: the leader handles requests of clients. -/
inductive Asking (leader : ByteString) : Action → Prop
  | request (e : Envelope) (cr : ClientRequest) : e.msg = .clientRequest cr →
      Asking leader (.deliver leader e)
  | background (a : Action) : Background leader a → Asking leader a

/-- The actions in the rest of a round, with the pass of one `send_heartbeat` loop of the leader. -/
inductive Exchange (leader : ByteString) (i : ℕ) : Action → Prop
  | send (peer : ByteString) (garbage : ℤ) :
      Exchange leader i (.internal leader (.heartbeatSend i peer garbage))
  | append (receiver : ByteString) (e : Envelope) (ae : AppendEntry) : receiver ≠ leader →
      e.sender = some leader → e.msg = .appendEntry ae → Exchange leader i (.deliver receiver e)
  | result (e : Envelope) (aer : AppendEntryResult) : e.msg = .appendEntryResult aer →
      Exchange leader i (.deliver leader e)
  | background (a : Action) : Background leader a → a ≠ .internal leader (.heartbeatStep i) →
      Exchange leader i a

/-- The message is an `AppendEntry` or the result of one. -/
def Msg.replicates : Msg → Bool
  | .appendEntry _ | .appendEntryResult _ => true
  | .setCluster _ | .deactivate | .changeState | .requestVote _ | .clientRequest _
  | .serverResponse _ => false

namespace Cluster

/-- No `AppendEntry` of the leader and no result is in flight, and no server is handling an
`AppendEntry`. -/
structure Quiet (m : Membership) (leader : ByteString) (c : Cluster) : Prop where
  append : ∀ e ∈ c.network, e.sender = some leader → ∀ ae, e.msg ≠ .appendEntry ae
  result : ∀ e ∈ c.network, ∀ aer, e.msg ≠ .appendEntryResult aer
  pending : ∀ name ∈ m.names, (c.servers name).pending = none

theorem Quiet.of_network {m : Membership} {leader : ByteString} {c : Cluster}
    (hnetwork : ∀ e ∈ c.network, e.msg.replicates = false)
    (hpending : ∀ name ∈ m.names, (c.servers name).pending = none) : Quiet m leader c where
  append e he _ ae hmsg := by simpa [hmsg, Msg.replicates] using hnetwork e he
  result e he aer hmsg := by simpa [hmsg, Msg.replicates] using hnetwork e he
  pending := hpending

/-- A round of a leader: requests, the test of `m_is_leader` that begins a pass, and the exchange of
messages until the pass has reached all peers and everything that it sent has been handled. -/
inductive Round (m : Membership) (leader : ByteString) (start final : Cluster) : Prop
  | mk (i : ℕ) (asked begun : Cluster) :
      RunOf (Step m) (Asking leader) start asked →
      (asked.servers leader).heartbeatThreads[i]? = some .test →
      Step m asked (.internal leader (.heartbeatStep i)) begun →
      RunOf (Step m) (Exchange leader i) begun final →
      (final.servers leader).heartbeatThreads[i]? = some (.sending []) →
      Quiet m leader final → Round m leader start final

end Cluster

/-! ### The stimuli of a round -/

/-- A stimulus that is not a message is met by an action of the server itself. -/
theorem Action.eq_internal {name : ByteString} {a : Action} {x : Stimulus}
    (hx : a.stimulus = some (name, x)) (hmsg : ∀ msg, x ≠ .handle msg) : a = .internal name x := by
  rcases a.stimulus_cases hx with ⟨e, -, rfl⟩ | hinternal
  · exact absurd rfl (hmsg e.msg)
  · exact hinternal

/-- What happens to a server in the background. -/
theorem Background.calm {leader name : ByteString} {a : Action} {x : Stimulus}
    (h : Background leader a) (hx : a.stimulus = some (name, x)) :
    x.Calm ∧ (name = leader → ∀ i peer garbage, x ≠ .heartbeatSend i peer garbage) := by
  rcases a.stimulus_cases hx with ⟨e, rfl, rfl⟩ | rfl
  · exact ⟨h, by simp⟩
  · exact h

/-- A background action delivers at most a `change_state` signal. -/
theorem Background.delivered {leader : ByteString} {a : Action} {e : Envelope}
    (h : Background leader a) (he : a.delivered = some e) : e.msg = .changeState := by
  cases a with
  | deliver receiver e' =>
    obtain rfl := Option.some.inj he
    exact h
  | post | internal => simp [Action.delivered] at he

namespace Server

variable {s s' : Server} {x : Stimulus} {out : List Output} {ae : AppendEntry}

/-! ### What they do -/

/-- What the replication depends on is the same in two states of a server. -/
structure Kept (s s' : Server) : Prop where
  role : s'.role = s.role
  idle : s.agent = .idle → s'.agent = .idle
  pending : s'.pending = s.pending
  isLeader : s'.isLeader = s.isLeader
  name : s'.name = s.name
  currLeader : s'.currLeader = s.currLeader
  register : s'.register = s.register
  term : s'.term = s.term
  log : s'.log = s.log
  commitIndex : s'.commitIndex = s.commitIndex

theorem Kept.refl (s : Server) : s.Kept s where
  role := rfl
  idle := id
  pending := rfl
  isLeader := rfl
  name := rfl
  currLeader := rfl
  register := rfl
  term := rfl
  log := rfl
  commitIndex := rfl

theorem Kept.trans {s₁ s₂ s₃ : Server} (h : s₁.Kept s₂) (h' : s₂.Kept s₃) : s₁.Kept s₃ where
  role := h'.role.trans h.role
  idle := h'.idle ∘ h.idle
  pending := h'.pending.trans h.pending
  isLeader := h'.isLeader.trans h.isLeader
  name := h'.name.trans h.name
  currLeader := h'.currLeader.trans h.currLeader
  register := h'.register.trans h.register
  term := h'.term.trans h.term
  log := h'.log.trans h.log
  commitIndex := h'.commitIndex.trans h.commitIndex

/-- The steps of the `send_heartbeat` loops change nothing but the mutex and the loops. -/
theorem kept_loops (s : Server) (mtx : Bool) (threads : List HeartbeatLoop) :
    s.Kept { s with heartbeatMtx := mtx, heartbeatThreads := threads } :=
  ⟨rfl, id, rfl, rfl, rfl, rfl, rfl, rfl, rfl, rfl⟩

/-- A server that is kept sends the same messages for the same next indices. -/
theorem Kept.heartbeatFor_eq (h : s.Kept s') (k garbage : ℤ) :
    s'.heartbeatFor k garbage = s.heartbeatFor k garbage := by
  unfold heartbeatFor
  rw [h.log, h.term, h.name, h.commitIndex]

/-- A calm stimulus keeps what the replication depends on and sends no result, unless the agent
accepts the message that it is handling. -/
theorem Effect.calm_cases (h : s.Effect x s' out) (hx : x.Calm) :
    (s.Kept s' ∧ results out = []) ∨ ∃ ae, s.Accepts x ae := by
  cases h
  case enterAccept ae _ _ hagent _ _ => exact Or.inr ⟨ae, Or.inr ⟨rfl, hagent⟩⟩
  case drop | changeState => exact Or.inl ⟨⟨rfl, id, rfl, rfl, rfl, rfl, rfl, rfl, rfl, rfl⟩, rfl⟩
  case heartbeatStep | heartbeatSkip | heartbeat | requestVoteStep | voteRequest =>
    exact Or.inl ⟨⟨rfl, id, rfl, rfl, rfl, rfl, rfl, rfl, rfl, rfl⟩, rfl⟩
  case followerLock | enterFollower | leaderLock | leaderUnlock | leaderThread =>
    refine Or.inl ⟨⟨rfl, ?_, ?_, rfl, rfl, rfl, rfl, rfl, rfl, rfl⟩, rfl⟩ <;>
      simp_all [Server.pending, leaveFollowerEntry]
  all_goals simp [Stimulus.Calm] at hx

/-- A server that is not handling a message is kept by a calm stimulus. -/
theorem Effect.calm (h : s.Effect x s' out) (hx : x.Calm) (hpending : s.pending = none) :
    s.Kept s' ∧ results out = [] := by
  refine (h.calm_cases hx).resolve_right ?_
  rintro ⟨ae, ⟨rfl, -⟩ | ⟨-, hagent⟩⟩
  · simp [Stimulus.Calm] at hx
  · simp [Server.pending, hagent] at hpending

/-- An idle server keeps its map in the background. -/
theorem Effect.calm_mboxes (h : s.Effect x s' out) (hx : x.Calm) (hidle : s.agent = .idle) :
    s'.mboxes = s.mboxes := by
  cases h
  case leaderUnlock hagent => simp [hidle] at hagent
  case setCluster => simp [Stimulus.Calm] at hx
  case result => simp [Stimulus.Calm] at hx
  case countVote | answerVote => exact tally_mboxes
  all_goals rfl

/-- Accepting a message sets the term and the leader, appends and applies the entries, and sends
one result to the leader. -/
theorem Effect.of_accepts (h : s.Effect x s' out) (haccepts : s.Accepts x ae) :
    s'.role = s.role ∧ s'.term = ae.term ∧ s'.currLeader = ae.leaderId ∧ s'.pending = none ∧
      s.AcceptedAs ae s' (results out) := by
  rcases haccepts with ⟨rfl, hidle, hrole, hterm⟩ | ⟨rfl, hagent⟩
  · cases h
    case drop hsubscribes => simp [Role.subscribes, hrole] at hsubscribes
    case accept mbox register _ _ _ hmbox hparse =>
      exact ⟨rfl, rfl, rfl, pending_of_idle hidle, mbox, hmbox, rfl, rfl, hparse⟩
    case stepDown hrole' _ => simp [hrole] at hrole'
    case reject hstale _ => omega
  · cases h
    case enterAccept entry mbox register hagent' hmbox hparse =>
      obtain rfl : entry = ae := by simpa [hagent] using hagent'.symm
      exact ⟨rfl, rfl, rfl, rfl, mbox, hmbox, rfl, rfl, hparse⟩
    all_goals simp_all

/-- A server that is not inactive accepts a message that is not stale, or begins to handle it. -/
theorem Effect.append_cases (h : s.Effect (.handle (.appendEntry ae)) s' out)
    (hactive : s.role ≠ .inactive) (hterm : s.term ≤ ae.term) :
    (s.role = .follower ∧ s.Accepts (.handle (.appendEntry ae)) ae) ∨
      (s'.role = .follower ∧ s'.pending = some ae ∧ s'.log = s.log ∧ s'.register = s.register ∧
        results out = []) := by
  cases h
  case drop hsubscribes => simp [Role.subscribes, hactive] at hsubscribes
  case accept hidle hrole _ _ _ => exact Or.inl ⟨hrole, Or.inl ⟨rfl, hidle, hrole, hterm⟩⟩
  case stepDown => exact Or.inr ⟨rfl, rfl, rfl, rfl, rfl⟩
  case reject hstale _ => omega

/-! ### The leader -/

/-- A leader that has gone through its `on_enter`. -/
structure Leads (s : Server) : Prop where
  role : s.role = .leader
  isLeader : s.isLeader = true
  idle : s.agent = .idle

theorem Leads.of_kept (h : s.Leads) (hkept : s.Kept s') : s'.Leads where
  role := hkept.role.trans h.role
  isLeader := hkept.isLeader.trans h.isLeader
  idle := hkept.idle h.idle

/-- A leader that handles a request may append its command. -/
theorem Leads.request (h : s.Leads) {cr : ClientRequest}
    (heffect : s.Effect (.handle (.clientRequest cr)) s' out) :
    s'.Leads ∧ s'.term = s.term ∧ s'.mboxes = s.mboxes ∧ results out = [] := by
  cases heffect
  case drop hsubscribes => simp [Role.subscribes, h.role] at hsubscribes
  case command => exact ⟨⟨h.role, h.isLeader, h.idle⟩, rfl, rfl, rfl⟩
  case query => exact ⟨h, rfl, rfl, rfl⟩
  case redirect => exact ⟨h, rfl, rfl, rfl⟩

/-- A leader that handles a result changes its next index for one follower. -/
theorem Leads.result (h : s.Leads) {aer : AppendEntryResult}
    (heffect : s.Effect (.handle (.appendEntryResult aer)) s' out) :
    s.Kept s' ∧ s' = s.consistencyCheck aer ∧ out = [] := by
  cases heffect
  case drop hsubscribes => simp [Role.subscribes, h.role] at hsubscribes
  case result => exact ⟨⟨rfl, id, rfl, rfl, rfl, rfl, rfl, rfl, rfl, rfl⟩, rfl, rfl⟩

/-- A `send_heartbeat` loop stays where it is when it takes no step itself. -/
theorem heartbeatThread_kept {i : ℕ} {loop : HeartbeatLoop} (hact : s.act x = .ok (s', out))
    (hstep : x ≠ .heartbeatStep i) (hsend : ∀ peer garbage, x ≠ .heartbeatSend i peer garbage)
    (hloop : s.heartbeatThreads[i]? = some loop) : s'.heartbeatThreads[i]? = some loop := by
  by_cases hx : x.heartbeat = false
  · rcases (act_effect hact).heartbeatThreads_cases hx with hsame | hstart
    · rw [hsame, hloop]
    · obtain ⟨hi, -⟩ := List.getElem?_eq_some_iff.mp hloop
      rw [hstart, List.getElem?_append_left hi, hloop]
  · cases x with
    | heartbeatStep j =>
      obtain ⟨_, _, _, -, -, rfl, -⟩ := act_heartbeatStep hact
      have hne : j ≠ i := fun h ↦ hstep (congrArg _ h)
      rw [List.getElem?_set_ne hne, hloop]
    | heartbeatSend j peer garbage =>
      obtain ⟨_, -, -, rfl, -⟩ := act_heartbeatSend hact
      have hne : j ≠ i := by
        rintro rfl
        exact hsend _ _ rfl
      rw [List.getElem?_set_ne hne, hloop]
    | handle | timeLimit | resume | requestVoteStep | requestVoteSend => exact absurd rfl hx

end Server

end RaftConsensus
