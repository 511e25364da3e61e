import RaftConsensus.Model.ByteString

/-!
# Messages

The message types of `server.h`, with the mailboxes they are sent to. A `so_5::mbox_t` is a
reference that may be empty; a value of `Mbox` is what a nonempty one refers to, so an `mbox_t`
is an `Option Mbox`. A server is known by its name, and its direct mailbox is `Mbox.server name`.

`AppendEntry::success` is left out: no code sets or reads it.
-/

set_option autoImplicit false
set_option relaxedAutoImplicit false

namespace RaftConsensus

/-- The mailboxes of the system: the direct mailbox of a server, or a mailbox of a client. -/
inductive Mbox
  | server (name : ByteString)
  | client (id : ℕ)
  deriving DecidableEq, Repr

/-- A log entry, `std::tuple<int, std::string>`: the term it was created in and its command. -/
abbrev Entry := ℤ × ByteString

/-- `ClientRequest`. -/
structure ClientRequest where
  inbox : Option Mbox
  cmd : ByteString
  deriving DecidableEq, Repr

/-- `ServerResponse`. -/
structure ServerResponse where
  status : ℤ
  resp : ByteString
  leader : ByteString
  deriving DecidableEq, Repr

/-- `SetCluster`: the mailbox of every server, by name. -/
structure SetCluster where
  mboxes : List (ByteString × Option Mbox)
  deriving DecidableEq, Repr

/-- `raft_server::RequestVote`, which is both the request for a vote and the answer to it. -/
structure RequestVote where
  term : ℤ
  candidateId : ByteString
  lastLogIndex : ℤ
  lastLogTerm : ℤ
  voteGranted : Bool
  deriving DecidableEq, Repr

/-- The constructor `RequestVote(term, candidate_id, lli, llt)` of a request. -/
def RequestVote.request (term : ℤ) (candidateId : ByteString) (lastLogIndex lastLogTerm : ℤ) :
    RequestVote :=
  { term, candidateId, lastLogIndex, lastLogTerm, voteGranted := false }

/-- The constructor `RequestVote(term, vote_granted)` of an answer. It names no candidate, and
leaves the two log fields uninitialized, which no code reads: they are `0` here. -/
def RequestVote.answer (term : ℤ) (voteGranted : Bool) : RequestVote :=
  { term, candidateId := [], lastLogIndex := 0, lastLogTerm := 0, voteGranted }

/-- `raft_server::AppendEntry`. -/
structure AppendEntry where
  term : ℤ
  leaderId : ByteString
  prevLogIndex : ℤ
  prevLogTerm : ℤ
  entries : List Entry
  leaderCommit : ℤ
  deriving DecidableEq, Repr

/-- `raft_server::AppendEntryResult`. -/
structure AppendEntryResult where
  followerName : ByteString
  term : ℤ
  success : Bool
  deriving DecidableEq, Repr

/-- What a mailbox can hold. The signal `heartbeat` is never sent. -/
inductive Msg
  | setCluster (sc : SetCluster)
  | deactivate
  | changeState
  | requestVote (rv : RequestVote)
  | appendEntry (ae : AppendEntry)
  | appendEntryResult (aer : AppendEntryResult)
  | clientRequest (cr : ClientRequest)
  | serverResponse (sr : ServerResponse)
  deriving DecidableEq, Repr

end RaftConsensus
