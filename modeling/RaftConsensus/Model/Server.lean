import Mathlib.Data.List.AList
import RaftConsensus.Model.Calc
import RaftConsensus.Model.Messages

/-!
# The server agent

The class `raft_server` of `server.h`. A server is an agent, whose event handlers run one at a
time, together with the detached threads it starts: one `send_request_vote` loop for every
candidacy and one `send_heartbeat` loop for every leadership. They share the fields of the
server, the flags `m_is_candidate` and `m_is_leader`, and the mutex `m_heartbeat_mtx`.

Every access to the mutex, every test of a flag and every single send of a loop is a step of its
own. A handler runs to its end in one step, except that `leader.on_enter` and `follower.on_enter`
stop where they lock and unlock the mutex: `Agent` says where the agent stands, and `resume` is
its next step. A handler that enters the follower state on the way keeps the rest of its work in
`Agent`, as the message it is handling.

`Server.act` is the step function, one case for each stimulus. It yields the new server and the
messages it sends, or the reason why there is no step: the stimulus is not enabled, a message is
sent to an empty mailbox, or `Calc::parse` does not return. The last two end the program.

Where the source reads `m_log` out of range the value is arbitrary, and the stimulus carries it.
Terms and indices are unbounded integers, so that a run of the code is one of the model as long as
no `int` overflows, and a run of the model one of the code only within this bound. An `int` compared
with a `size_t` is converted to an unsigned number first, so a negative one is never below a size.

The file that a server writes is its own: the path `m_name + ".log"` is not modelled, and names that
address one file are excluded.

Left out are the fields `m_heartbeat_freq`, `m_next_index` and `m_match_index`, which no code
reads, the durations of the timers and the text written to `std::cout`.
-/

set_option autoImplicit false
set_option relaxedAutoImplicit false

namespace RaftConsensus

/-! ### The state of a server -/

/-- A value of `m_mboxes`, `std::tuple<so_5::mbox_t, int>`: the mailbox of a peer and the next
index for it. -/
structure Peer where
  mbox : Option Mbox
  nextIndex : ℤ
  deriving DecidableEq, Repr

/-- `m_mboxes`, a map from names without duplicate keys. -/
abbrev Mboxes := AList fun _ : ByteString ↦ Peer

namespace Mboxes

/-- The value that `operator[]` refers to: the stored one, or the empty mailbox and index `0`
that it inserts for a missing name. -/
def get (m : Mboxes) (name : ByteString) : Peer := (m.lookup name).getD ⟨none, 0⟩

/-- `size()`. -/
def size (m : Mboxes) : ℕ := m.keys.length

/-- Every next index set to one value, each mailbox kept. -/
def setNextIndices (m : Mboxes) (index : ℤ) : Mboxes where
  entries := m.entries.map (.map id fun _ peer ↦ { peer with nextIndex := index })
  nodupKeys := m.nodupKeys.map₂ _

end Mboxes

/-- The substates of `server_state`. -/
inductive Role
  | candidate
  | follower
  | leader
  | inactive
  deriving DecidableEq, Repr

/-- Where the agent stands. `followerLock` and `followerUnlock` are in `follower.on_enter`, with
the `AppendEntry` whose handler activated the state, if one did; the other three are in
`leader.on_enter`. -/
inductive Agent
  | idle
  | followerLock (handling : Option AppendEntry)
  | followerUnlock (handling : Option AppendEntry)
  | leaderLock
  | leaderUnlock
  | leaderThread
  deriving DecidableEq, Repr

/-- Where a `send_heartbeat` loop stands. In a pass it still has to reach the `remaining`
peers. -/
inductive HeartbeatLoop
  | lock
  | test
  | sending (remaining : List ByteString)
  | unlock
  | done
  deriving DecidableEq, Repr

/-- Where a `send_request_vote` loop stands. -/
inductive RequestVoteLoop
  | test
  | sending (remaining : List ByteString)
  | done
  deriving DecidableEq, Repr

/-- The fields of a `raft_server`, its active state and its threads. `followerLimit` says whether
`follower.time_limit` has been set, and `file` is the content of the file `m_name.log`, which no
other server writes. -/
structure Server where
  role : Role
  agent : Agent
  voteCnt : ℕ
  isLeader : Bool
  isCandidate : Bool
  name : ByteString
  currLeader : ByteString
  mboxes : Mboxes
  register : Calc
  term : ℤ
  log : List Entry
  commitIndex : ℤ
  lastApplied : ℤ
  heartbeatMtx : Bool
  heartbeatThreads : List HeartbeatLoop
  requestVoteThreads : List RequestVoteLoop
  followerLimit : Bool
  file : Option ByteString

/-- Why a stimulus has no effect: it is not enabled, or it ends the program. -/
inductive Halt
  | disabled
  /-- `so_5::send` to an empty mailbox. -/
  | emptyMailbox
  /-- A call of `Calc::parse` that does not return. -/
  | parse (cmd : ByteString) (fault : ParseFault)
  deriving DecidableEq, Repr

/-- A message sent, with the mailbox it is sent to. -/
abbrev Output := Mbox × Msg

/-- The effect of a stimulus on a server: its new state and what it sends. -/
abbrev Outcome := Except Halt (Server × List Output)

/-- `so_5::send`. -/
def send (target : Option Mbox) (msg : Msg) : Except Halt (List Output) :=
  match target with
  | some mbox => .ok [(mbox, msg)]
  | none => .error .emptyMailbox

/-- `utils::write_log_to`: the text written to the file. -/
def writeLogTo (log : List Entry) : ByteString :=
  log.flatMap fun el ↦ toDecimal el.1 ++ bytes ";" ++ el.2 ++ bytes "\n"

namespace Server

/-- A server as it is constructed: the initial substate is `follower`. -/
def initial (name : ByteString) : Server where
  role := .follower
  agent := .idle
  voteCnt := 0
  isLeader := false
  isCandidate := false
  name
  currLeader := []
  mboxes := ∅
  register := Calc.initial
  term := 0
  log := []
  commitIndex := 0
  lastApplied := 0
  heartbeatMtx := false
  heartbeatThreads := []
  requestVoteThreads := []
  followerLimit := false
  file := none

/-! ### State changes -/

/-- The `on_exit` handler of the active state: that of `candidate` clears `m_is_candidate`, that
of `leader` clears `m_is_leader`, and the other two states have none. -/
def exitState (s : Server) : Server :=
  { s with
    isCandidate := if s.role = .candidate then false else s.isCandidate
    isLeader := if s.role = .leader then false else s.isLeader }

/-- `candidate.activate()`: its `on_enter` starts a `send_request_vote` thread. -/
def activateCandidate (s : Server) : Server :=
  { s.exitState with
    role := .candidate
    voteCnt := 0
    term := s.term + 1
    isCandidate := true
    requestVoteThreads := s.requestVoteThreads ++ [.test] }

/-- `inactive.activate()`. -/
def activateInactive (s : Server) : Server := { s.exitState with role := .inactive }

/-- `follower.activate()` from another state, up to the lock in its `on_enter`. -/
def activateFollower (s : Server) (handling : Option AppendEntry) : Server :=
  { s.exitState with role := .follower, agent := .followerLock handling }

/-- `leader.activate()`, up to the lock in its `on_enter`. -/
def activateLeader (s : Server) : Server :=
  { s.exitState with role := .leader, isLeader := true, voteCnt := 0, agent := .leaderLock }

/-! ### Event handlers -/

/-- The handler of `SetCluster`. -/
def setClusterHandler (s : Server) (sc : SetCluster) : Server :=
  { s with mboxes := sc.mboxes.foldl (fun m el ↦ m.insert el.1 ⟨el.2, s.log.length⟩) s.mboxes }

/-- The handler of `deactivate`. -/
def deactivateHandler (s : Server) : Server :=
  if s.role = .inactive then s.activateFollower none else s.activateInactive

/-- The handlers of `change_state`: a follower sets its time limit, and a leader only prints. -/
def changeStateHandler (s : Server) : Server :=
  { s with followerLimit := if s.role = .follower then true else s.followerLimit }

/-- The answer of `heartbeat_handler` to a message that is not stale: whether `prev_log_term` is
`0`, or the entry at `prev_log_index` has this term, or there is no such entry. -/
def consistent (log : List Entry) (ae : AppendEntry) : Bool :=
  if ae.prevLogTerm = 0 then true
  else if 0 ≤ ae.prevLogIndex then
    match log[ae.prevLogIndex.toNat]? with
    | some el => el.1 = ae.prevLogTerm
    | none => true
  else true

/-- The loop of `heartbeat_handler` over the entries: each is appended to the log and its command
is applied to the register. -/
def appendEntries (s : Server) : List Entry → Except Halt Server
  | [] => .ok s
  | el :: rest =>
    match s.register.parse el.2 with
    | .ok register => appendEntries { s with log := s.log ++ [el], register } rest
    | .error fault => .error (.parse el.2 fault)

/-- What `heartbeat_handler` does after `follower.activate()`. -/
def acceptEntries (s : Server) (ae : AppendEntry) : Outcome := do
  let s := { s with voteCnt := 0, term := ae.term, currLeader := ae.leaderId }
  let out ← send (s.mboxes.get s.currLeader).mbox
    (.appendEntryResult ⟨s.name, s.term, consistent s.log ae⟩)
  let s ← s.appendEntries ae.entries
  return ({ s with lastApplied := s.log.length, file := some (writeLogTo s.log),
                   followerLimit := true }, out)

/-- `raft_server::heartbeat_handler`. Activating the follower state has no effect in a server
that is in it. The third branch of the source repeats the test of the first one and is never
taken. -/
def heartbeatHandler (s : Server) (ae : AppendEntry) : Outcome :=
  if s.term ≤ ae.term then
    if s.role = .follower then s.acceptEntries ae
    else .ok (s.activateFollower (some ae), [])
  else do
    let out ← send (s.mboxes.get s.currLeader).mbox (.appendEntryResult ⟨s.name, s.term, false⟩)
    return (s, out)

/-- `ceil(size / 2.0)`. -/
def ceilHalf (size : ℕ) : ℕ := (size + 1) / 2

/-- The end of `request_vote_handler`: the leader state is activated when the votes counted
exceed half of the cluster, rounded up. -/
def tally (s : Server) : Server :=
  if ceilHalf s.mboxes.size < s.voteCnt then { s with voteCnt := 0 }.activateLeader else s

/-- `raft_server::request_vote_handler`. -/
def requestVoteHandler (s : Server) (rv : RequestVote) : Outcome :=
  if rv.voteGranted then .ok ({ s with voteCnt := s.voteCnt + 1 }.tally, [])
  else do
    let out ← send (s.mboxes.get rv.candidateId).mbox
      (.requestVote (.answer s.term (s.term ≤ rv.term)))
    return (s.tally, out)

/-- `raft_server::consistency_check`. The vector `payload` that the source builds on success is
not used. -/
def consistencyCheck (s : Server) (aer : AppendEntryResult) : Server :=
  let peer := s.mboxes.get aer.followerName
  let nextIndex :=
    if !aer.success then
      if 0 ≤ peer.nextIndex - 1 then peer.nextIndex - 1 else peer.nextIndex
    else
      if 0 ≤ peer.nextIndex ∧ peer.nextIndex < s.log.length then (s.log.length : ℤ)
      else peer.nextIndex
  { s with mboxes := s.mboxes.insert aer.followerName { peer with nextIndex } }

/-- The part of `leader_client_request_handler` before its answer: a nonempty command is appended
to the log, the log is written and the command is applied. -/
def acceptCommand (s : Server) (cmd : ByteString) : Except Halt Server :=
  if cmd.length ≠ 0 then
    let log := s.log ++ [(s.term, cmd)]
    match s.register.parse cmd with
    | .ok register => .ok { s with log, register, file := some (writeLogTo log) }
    | .error fault => .error (.parse cmd fault)
  else .ok s

/-- `raft_server::leader_client_request_handler`. -/
def leaderClientRequestHandler (s : Server) (cr : ClientRequest) : Outcome := do
  let s ← s.acceptCommand cr.cmd
  let out ← send cr.inbox (.serverResponse ⟨1, s.register.getResult, s.name⟩)
  return (s, out)

/-- `raft_server::follower_client_request_handler`. -/
def followerClientRequestHandler (s : Server) (cr : ClientRequest) : Outcome := do
  let out ← send cr.inbox (.serverResponse ⟨0, [], s.currLeader⟩)
  return (s, out)

/-- The handler that a state subscribes to a message, its own or that of `server_state`. A message
without one is dropped. -/
def handle (s : Server) : Msg → Outcome
  | .setCluster sc => .ok (s.setClusterHandler sc, [])
  | .deactivate => .ok (s.deactivateHandler, [])
  | .changeState => .ok (s.changeStateHandler, [])
  | .requestVote rv =>
    match s.role with
    | .candidate | .follower => s.requestVoteHandler rv
    | .leader | .inactive => .ok (s, [])
  | .appendEntry ae =>
    match s.role with
    | .candidate | .follower | .leader => s.heartbeatHandler ae
    | .inactive => .ok (s, [])
  | .appendEntryResult aer =>
    match s.role with
    | .leader => .ok (s.consistencyCheck aer, [])
    | .candidate | .follower | .inactive => .ok (s, [])
  | .clientRequest cr =>
    match s.role with
    | .leader => s.leaderClientRequestHandler cr
    | .follower => s.followerClientRequestHandler cr
    | .candidate | .inactive => .ok (s, [])
  | .serverResponse _ => .ok (s, [])

/-- The expiry of the time limit of the active state. -/
def timeLimit (s : Server) : Outcome :=
  match s.role with
  | .follower => if s.followerLimit then .ok (s.activateCandidate, []) else .error .disabled
  | .leader => .ok (s.activateFollower none, [])
  | .candidate | .inactive => .error .disabled

/-- The next step of an agent that is in an `on_enter` handler. -/
def resume (s : Server) : Outcome :=
  match s.agent with
  | .idle => .error .disabled
  | .followerLock handling =>
    if s.heartbeatMtx then .error .disabled
    else .ok ({ s with heartbeatMtx := true, agent := .followerUnlock handling }, [])
  | .followerUnlock handling => do
    let s := { s with heartbeatMtx := false, voteCnt := 0, agent := .idle }
    let entered : Output := (.server s.name, .changeState)
    match handling with
    | none => return (s, [entered])
    | some ae =>
      let (s, out) ← s.acceptEntries ae
      return (s, entered :: out)
  | .leaderLock =>
    if s.heartbeatMtx then .error .disabled
    else .ok ({ s with heartbeatMtx := true, agent := .leaderUnlock }, [])
  | .leaderUnlock =>
    .ok ({ s with mboxes := s.mboxes.setNextIndices s.log.length, heartbeatMtx := false,
                  agent := .leaderThread },
      [(.server s.name, .changeState)])
  | .leaderThread =>
    .ok ({ s with heartbeatThreads := s.heartbeatThreads ++ [.lock], agent := .idle }, [])

/-! ### The sender loops -/

/-- The entries from an index on: the loop `for (int i{k}; i < m_log.size(); i++)`. -/
def suffixFrom (log : List Entry) (k : ℤ) : List Entry :=
  if 0 ≤ k then log.drop k.toNat else []

/-- The term of `m_log[k]`, which is `garbage` when the index is out of range. -/
def termAt (log : List Entry) (k : ℤ) (garbage : ℤ) : ℤ :=
  if 0 ≤ k then (log[k.toNat]?.map Prod.fst).getD garbage else garbage

/-- The `AppendEntry` that `send_heartbeat` builds for a next index. -/
def heartbeatFor (s : Server) (k : ℤ) (garbage : ℤ) : AppendEntry :=
  if s.log.length ≠ 0 then
    { term := s.term, leaderId := s.name, prevLogIndex := k,
      prevLogTerm := termAt s.log (k - 1) garbage, entries := suffixFrom s.log k,
      leaderCommit := s.commitIndex }
  else
    { term := s.term, leaderId := s.name, prevLogIndex := s.log.length, prevLogTerm := 0,
      entries := [], leaderCommit := s.commitIndex }

/-- The body of the loop of `send_heartbeat` over `m_mboxes`, for one peer. -/
def sendHeartbeatTo (s : Server) (peer : ByteString) (garbage : ℤ) : Except Halt (List Output) :=
  if peer ≠ s.name then
    send (s.mboxes.get peer).mbox
      (.appendEntry (s.heartbeatFor (s.mboxes.get peer).nextIndex garbage))
  else .ok []

/-- The steps of the `send_heartbeat` loops other than the sends: the lock, the test of
`m_is_leader` at the start of a pass, the end of a pass and the unlock. -/
def heartbeatStep (s : Server) (i : ℕ) : Outcome :=
  match s.heartbeatThreads[i]? with
  | some .lock =>
    if s.heartbeatMtx then .error .disabled
    else .ok ({ s with heartbeatMtx := true,
                       heartbeatThreads := s.heartbeatThreads.set i .test }, [])
  | some .test =>
    let next := if s.isLeader then .sending s.mboxes.keys else .unlock
    .ok ({ s with heartbeatThreads := s.heartbeatThreads.set i next }, [])
  | some (.sending []) => .ok ({ s with heartbeatThreads := s.heartbeatThreads.set i .test }, [])
  | some .unlock =>
    .ok ({ s with heartbeatMtx := false, heartbeatThreads := s.heartbeatThreads.set i .done }, [])
  | _ => .error .disabled

/-- A send of a `send_heartbeat` loop: it takes one of the peers that its pass still has to
reach. -/
def heartbeatSend (s : Server) (i : ℕ) (peer : ByteString) (garbage : ℤ) : Outcome :=
  match s.heartbeatThreads[i]? with
  | some (.sending remaining) =>
    if peer ∈ remaining then do
      let out ← s.sendHeartbeatTo peer garbage
      return ({ s with heartbeatThreads :=
                         s.heartbeatThreads.set i (.sending (remaining.erase peer)) }, out)
    else .error .disabled
  | _ => .error .disabled

/-- The request that `send_request_vote` sends to every server, itself included. -/
def voteRequest (s : Server) : RequestVote :=
  .request s.term s.name s.log.length
    (if s.log.length ≠ 0 then termAt s.log (s.log.length - 1) 0 else 0)

/-- The steps of the `send_request_vote` loops other than the sends: the test of
`m_is_candidate` and the end of a pass. -/
def requestVoteStep (s : Server) (i : ℕ) : Outcome :=
  match s.requestVoteThreads[i]? with
  | some .test =>
    let next := if s.isCandidate then .sending s.mboxes.keys else .done
    .ok ({ s with requestVoteThreads := s.requestVoteThreads.set i next }, [])
  | some (.sending []) =>
    .ok ({ s with requestVoteThreads := s.requestVoteThreads.set i .test }, [])
  | _ => .error .disabled

/-- A send of a `send_request_vote` loop. -/
def requestVoteSend (s : Server) (i : ℕ) (peer : ByteString) : Outcome :=
  match s.requestVoteThreads[i]? with
  | some (.sending remaining) =>
    if peer ∈ remaining then do
      let out ← send (s.mboxes.get peer).mbox (.requestVote s.voteRequest)
      return ({ s with requestVoteThreads :=
                         s.requestVoteThreads.set i (.sending (remaining.erase peer)) }, out)
    else .error .disabled
  | _ => .error .disabled

end Server

/-! ### The step function -/

/-- What can happen to a server: a message is handled, the time limit of its state expires, its
agent goes on in an `on_enter` handler, or one of its threads takes a step. `garbage` is what an
out-of-range read of `m_log` yields. -/
inductive Stimulus
  | handle (msg : Msg)
  | timeLimit
  | resume
  | heartbeatStep (thread : ℕ)
  | heartbeatSend (thread : ℕ) (peer : ByteString) (garbage : ℤ)
  | requestVoteStep (thread : ℕ)
  | requestVoteSend (thread : ℕ) (peer : ByteString)
  deriving DecidableEq, Repr

/-- The effect of a stimulus. Only an idle agent takes a message or a time limit. -/
def Server.act (s : Server) : Stimulus → Outcome
  | .handle msg => if s.agent = .idle then s.handle msg else .error .disabled
  | .timeLimit => if s.agent = .idle then s.timeLimit else .error .disabled
  | .resume => s.resume
  | .heartbeatStep i => s.heartbeatStep i
  | .heartbeatSend i peer garbage => s.heartbeatSend i peer garbage
  | .requestVoteStep i => s.requestVoteStep i
  | .requestVoteSend i peer => s.requestVoteSend i peer

end RaftConsensus
