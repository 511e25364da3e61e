import RaftConsensus.Library.TransitionSystem
import RaftConsensus.Model.Server

/-!
# The cluster

The servers of a cluster and the messages between them. A message in flight waits in the mailbox
of its receiver until it is delivered, and messages are delivered in any order. A server drops a
message that its state does not subscribe to. A time limit expires at any moment.

The default dispatcher of the program is stricter, one thread with one queue, and its time limits
have a length. What holds of every run here holds of its runs; that a run exists is said of agents
whose messages can arrive in any order and at any time.

`Membership` is the cluster as `main` builds it: distinct nonempty names. The empty name is what
the program uses for "no server": it is the initial `m_curr_leader`, and the `candidate_id` of
every answer to a vote request.

The environment is `main` and the clients: it posts `SetCluster` messages with the whole map,
`deactivate` and `change_state` signals, and `ClientRequest` messages to the servers at any time.
Responses stay in flight to the clients.

An envelope carries who sent the message and the message whose handler sent it. No handler reads
either; they say where a message comes from.
-/

set_option autoImplicit false
set_option relaxedAutoImplicit false

namespace RaftConsensus

open TransitionSystem

/-- The names of the servers of a cluster. -/
structure Membership where
  names : List ByteString
  nodup : names.Nodup
  nonempty : [] ∉ names

/-- A message in flight. `sender` is the server that sent it, none for the environment, and
`cause` the message whose handling sent it, none for a sender loop and a state change. -/
structure Envelope where
  sender : Option ByteString
  cause : Option Msg
  dst : Mbox
  msg : Msg
  deriving DecidableEq, Repr

/-- The servers by name, and the messages in flight. -/
structure Cluster where
  servers : ByteString → Server
  network : List Envelope

/-- A step of the cluster: the environment posts a message, a message in flight is delivered, or
something happens in a server by itself. -/
inductive Action
  | post (receiver : ByteString) (msg : Msg)
  | deliver (receiver : ByteString) (e : Envelope)
  | internal (name : ByteString) (stimulus : Stimulus)
  deriving DecidableEq, Repr

/-- The server that an action concerns and the stimulus it meets; none for a message that the
environment posts. -/
def Action.stimulus : Action → Option (ByteString × Stimulus)
  | .post _ _ => none
  | .deliver receiver e => some (receiver, .handle e.msg)
  | .internal name stimulus => some (name, stimulus)

/-- A stimulus is the handling of a delivered message, or something that a server meets by
itself. -/
theorem Action.stimulus_cases {a : Action} {name : ByteString} {x : Stimulus}
    (hx : a.stimulus = some (name, x)) :
    (∃ e, a = .deliver name e ∧ x = .handle e.msg) ∨ a = .internal name x := by
  cases a with
  | post receiver msg => simp [stimulus] at hx
  | deliver receiver e =>
    obtain ⟨rfl, rfl⟩ := Prod.mk.inj (Option.some.inj hx)
    exact Or.inl ⟨e, rfl, rfl⟩
  | internal receiver y =>
    obtain ⟨rfl, rfl⟩ := Prod.mk.inj (Option.some.inj hx)
    exact Or.inr rfl

namespace Membership

/-- The map that `main` puts into the `SetCluster` messages. -/
def setCluster (m : Membership) : SetCluster :=
  ⟨m.names.map fun name ↦ (name, some (.server name))⟩

/-- The map sends each name of the cluster to the mailbox of the server of that name. -/
theorem mem_setCluster {m : Membership} {el : ByteString × Option Mbox} :
    el ∈ m.setCluster.mboxes ↔ el.1 ∈ m.names ∧ el.2 = some (.server el.1) := by
  simp only [setCluster, List.mem_map]
  constructor
  · rintro ⟨name, hname, rfl⟩
    exact ⟨hname, rfl⟩
  · rintro ⟨hname, hmbox⟩
    exact ⟨el.1, hname, Prod.ext rfl hmbox.symm⟩

/-- The map has the names of the cluster and no others. -/
theorem mem_setCluster_names {m : Membership} {name : ByteString} :
    name ∈ m.setCluster.mboxes.map Prod.fst ↔ name ∈ m.names := by
  simp [setCluster]

/-- What the environment may post. -/
def Postable (m : Membership) : Msg → Prop
  | .setCluster sc => sc = m.setCluster
  | .deactivate | .changeState | .clientRequest _ => True
  | .requestVote _ | .appendEntry _ | .appendEntryResult _ | .serverResponse _ => False

instance (m : Membership) : (msg : Msg) → Decidable (m.Postable msg)
  | .setCluster sc => inferInstanceAs (Decidable (sc = _))
  | .deactivate | .changeState | .clientRequest _ => .isTrue trivial
  | .requestVote _ | .appendEntry _ | .appendEntryResult _ | .serverResponse _ => .isFalse id

end Membership

/-- The stimulus is not a delivery, so that a server can meet it by itself. -/
def Stimulus.IsInternal : Stimulus → Prop
  | .handle _ => False
  | .timeLimit | .resume | .heartbeatStep _ | .heartbeatSend _ _ _ | .requestVoteStep _
  | .requestVoteSend _ _ => True

instance : (stimulus : Stimulus) → Decidable stimulus.IsInternal
  | .handle _ => .isFalse id
  | .timeLimit | .resume | .heartbeatStep _ | .heartbeatSend _ _ _ | .requestVoteStep _
  | .requestVoteSend _ _ => .isTrue trivial

namespace Cluster

/-- The cluster as it is constructed. -/
def initial : Cluster := ⟨Server.initial, []⟩

/-- A stimulus of one server, with its outputs added to the messages in flight. -/
def actOn (c : Cluster) (name : ByteString) (cause : Option Msg) (stimulus : Stimulus) :
    Except Halt Cluster :=
  match (c.servers name).act stimulus with
  | .ok (s, out) =>
    .ok { servers := Function.update c.servers name s,
          network := c.network ++ out.map fun o ↦ ⟨some name, cause, o.1, o.2⟩ }
  | .error halt => .error halt

/-- The step function of the cluster. -/
def next (m : Membership) (c : Cluster) : Action → Except Halt Cluster
  | .post receiver msg =>
    if receiver ∈ m.names ∧ m.Postable msg then
      .ok { c with network := c.network ++ [⟨none, none, .server receiver, msg⟩] }
    else .error .disabled
  | .deliver receiver e =>
    if receiver ∈ m.names ∧ e ∈ c.network ∧ e.dst = .server receiver then
      actOn { c with network := c.network.erase e } receiver (some e.msg) (.handle e.msg)
    else .error .disabled
  | .internal name stimulus =>
    if name ∈ m.names ∧ stimulus.IsInternal then c.actOn name none stimulus
    else .error .disabled

/-- The step relation of the cluster. -/
def Step (m : Membership) (c : Cluster) (a : Action) (c' : Cluster) : Prop :=
  c.next m a = .ok c'

/-- The runs of the cluster. -/
abbrev Run (m : Membership) := TransitionSystem.Run (Step m)

/-- The history of a run. -/
abbrev History := List (Transition Cluster Action)

end Cluster

/-! ### Parts of schedules

Lists of actions that concrete runs are put together from. -/

namespace Schedule

/-- The environment posts a message, which is delivered at once. -/
def tell (receiver : ByteString) (msg : Msg) : List Action :=
  [.post receiver msg, .deliver receiver ⟨none, none, .server receiver, msg⟩]

/-- Every server handles the `SetCluster` message with the whole map. -/
def form (m : Membership) : List Action :=
  m.names.flatMap fun name ↦ tell name (.setCluster m.setCluster)

/-- A follower sets its time limit, and the limit expires. -/
def candidacy (name : ByteString) : List Action :=
  tell name .changeState ++ [.internal name .timeLimit]

/-- A pass of a `send_request_vote` loop over some peers, from its test to the test again. -/
def requestVotes (name : ByteString) (thread : ℕ) (peers : List ByteString) : List Action :=
  .internal name (.requestVoteStep thread) ::
    peers.map (fun peer ↦ .internal name (.requestVoteSend thread peer)) ++
    [.internal name (.requestVoteStep thread)]

/-- A voter handles a request, and the candidate its granted vote. -/
def vote (voter : ByteString) (voterTerm : ℤ) (rv : RequestVote) : List Action :=
  [.deliver voter ⟨some rv.candidateId, none, .server voter, .requestVote rv⟩,
   .deliver rv.candidateId ⟨some voter, some (.requestVote rv), .server rv.candidateId,
     .requestVote (.answer voterTerm true)⟩]

/-- A candidate asks for votes, and gets those of some voters, each with the term it has. -/
def elect (m : Membership) (thread : ℕ) (rv : RequestVote) (voters : List (ByteString × ℤ)) :
    List Action :=
  candidacy rv.candidateId ++ requestVotes rv.candidateId thread m.names ++
    voters.flatMap fun voter ↦ vote voter.1 voter.2 rv

/-- An elected leader goes through its `on_enter`, and its new `send_heartbeat` thread locks the
mutex. -/
def takeOffice (name : ByteString) (thread : ℕ) : List Action :=
  [.internal name .resume, .internal name .resume, .internal name .resume,
   .internal name (.heartbeatStep thread)]

/-- A pass of a `send_heartbeat` loop over some peers, from its test to the test again. -/
def heartbeats (name : ByteString) (thread : ℕ) (peers : List ByteString) : List Action :=
  .internal name (.heartbeatStep thread) ::
    peers.map (fun peer ↦ .internal name (.heartbeatSend thread peer 0)) ++
    [.internal name (.heartbeatStep thread)]

/-- An `AppendEntry` is delivered. -/
def append (receiver : ByteString) (ae : AppendEntry) : List Action :=
  [.deliver receiver ⟨some ae.leaderId, none, .server receiver, .appendEntry ae⟩]

/-- The result of an `AppendEntry` is delivered to the server that sent it. -/
def acknowledge (ae : AppendEntry) (aer : AppendEntryResult) : List Action :=
  [.deliver ae.leaderId ⟨some aer.followerName, some (.appendEntry ae), .server ae.leaderId,
    .appendEntryResult aer⟩]

/-- The first three of the servers that `main` starts. -/
def trio : Membership where
  names := [bytes "server1", bytes "server2", bytes "server3"]
  nodup := by decide
  nonempty := by decide

/-- The first server of the three is elected in term `1`. -/
def firstElection : List Action :=
  elect trio 0 (.request 1 (bytes "server1") 0 0)
    [(bytes "server1", 1), (bytes "server2", 0), (bytes "server3", 0)] ++
  takeOffice (bytes "server1") 0

/-- The leadership of the first server ends, and the second server, which has heard from it, is
elected in term `2` by all. -/
def secondElection (lastLogIndex lastLogTerm : ℤ) : List Action :=
  let rv : RequestVote := .request 2 (bytes "server2") lastLogIndex lastLogTerm
  [.internal (bytes "server1") .timeLimit, .internal (bytes "server1") (.heartbeatStep 0),
    .internal (bytes "server1") (.heartbeatStep 0), .internal (bytes "server1") .resume,
    .internal (bytes "server1") .resume, .internal (bytes "server2") .timeLimit] ++
  requestVotes (bytes "server2") 0 trio.names ++ vote (bytes "server1") 1 rv ++
  vote (bytes "server2") 2 rv ++ vote (bytes "server3") 0 rv

/-- A client sends a command to a server. -/
def request (receiver : ByteString) (cmd : String) : List Action :=
  tell receiver (.clientRequest ⟨some (.client 0), bytes cmd⟩)

/-- The `AppendEntry` that the first server sends in term `1`. -/
def firstLeaderEntries (prevLogIndex prevLogTerm : ℤ) (cmds : List String) : AppendEntry where
  term := 1
  leaderId := bytes "server1"
  prevLogIndex
  prevLogTerm
  entries := cmds.map fun cmd ↦ (1, bytes cmd)
  leaderCommit := 0

/-- The three servers form a cluster and elect a leader, which accepts a command and sends it to
the other two, one of which accepts it. -/
def replication : List Action :=
  form trio ++ firstElection ++ request (bytes "server1") "ADD;5" ++
    heartbeats (bytes "server1") 0 trio.names ++
    append (bytes "server2") (firstLeaderEntries 0 0 ["ADD;5"])

/-- The leader sends its first command in two rounds, a follower accepts both, and the leader
accepts a second command. -/
def secondRound : List Action :=
  form trio ++ firstElection ++ request (bytes "server1") "ADD;1" ++
    heartbeats (bytes "server1") 0 trio.names ++ heartbeats (bytes "server1") 0 trio.names ++
    append (bytes "server2") (firstLeaderEntries 0 0 ["ADD;1"]) ++
    append (bytes "server2") (firstLeaderEntries 0 0 ["ADD;1"]) ++
    request (bytes "server1") "ADD;2"

end Schedule

end RaftConsensus
