import RaftConsensus.Model.Cluster

/-!
# The client

The class `Client` of `client.h`, and the system that `main` puts together from the servers and one
client. The client looks for a leader: it asks a server of its map that it picks at random, and
takes the leader that the answer names. Once it knows one, it sends it a command whenever it enters
the state `on`.

In the system the client knows the servers from a `SetCluster` message, and its own mailbox from a
`SetMBox` message; both come from `main`, at any time. Other clients may send requests as well, to
be answered to mailboxes of their own. A message that the client has handled stays among the
messages of the cluster: it is in flight as long as it has been sent more often than handled.

The text that the client writes to `std::cout` is left out.
-/

set_option autoImplicit false
set_option relaxedAutoImplicit false

namespace RaftConsensus

open TransitionSystem

/-- The messages that a client handles. `setMBox` is `SetMBox`. -/
inductive ClientMsg
  | setCluster (sc : SetCluster)
  | setMBox (mbox : Option Mbox)
  | serverResponse (sr : ServerResponse)
  deriving DecidableEq, Repr

/-- The substates of `sending`. -/
inductive ClientState
  | on
  | off
  deriving DecidableEq, Repr

/-- The fields of a `Client` and its active state. -/
structure Client where
  state : ClientState
  mbox : Option Mbox
  clusterLeader : ByteString
  mboxes : List (ByteString × Option Mbox)
  deriving DecidableEq, Repr

namespace Client

/-- A client as it is constructed: the initial substate is `off`. -/
def initial : Client where
  state := .off
  mbox := none
  clusterLeader := []
  mboxes := []

/-- `m_mboxes[name]`, with the map after it: `operator[]` inserts the empty mailbox for a missing
name. -/
def index (c : Client) (name : ByteString) : Option Mbox × List (ByteString × Option Mbox) :=
  match c.mboxes.find? fun el ↦ el.1 = name with
  | some el => (el.2, c.mboxes)
  | none => (none, c.mboxes ++ [(name, none)])

/-- The handlers of the state `sending`: `response_handler`, `set_cluster_handler` and
`set_mbox_handler`. -/
def handle (c : Client) : ClientMsg → Client
  | .serverResponse sr => if sr.status = 0 then { c with clusterLeader := sr.leader } else c
  | .setCluster sc => { c with mboxes := sc.mboxes }
  | .setMBox mbox => { c with mbox }

/-- `on.on_enter`. The index `idx` is drawn from `0` to the size of the map, which is one past its
last element. -/
def enterOn (c : Client) (idx : ℕ) : Except Halt (Client × List Output) :=
  if c.clusterLeader = [] ∧ 0 < c.mboxes.length then
    match c.mboxes[idx]? with
    | some el => do
      let out ← send el.2 (.clientRequest ⟨c.mbox, []⟩)
      return ({ c with clusterLeader := el.1 }, out)
    | none => .ok (c, [])
  else if c.clusterLeader ≠ [] ∧ 0 < c.mboxes.length then do
    let out ← send (c.index c.clusterLeader).1 (.clientRequest ⟨c.mbox, bytes "ADD;1"⟩)
    return ({ c with mboxes := (c.index c.clusterLeader).2 }, out)
  else .ok (c, [])

/-- The expiry of the time limit of the active state. -/
def timeLimit (c : Client) (idx : ℕ) : Except Halt (Client × List Output) :=
  match c.state with
  | .off => { c with state := .on }.enterOn idx
  | .on => .ok ({ c with state := .off }, [])

end Client

/-! ### Servers and client -/

/-- The servers and the client, with the messages of `main` in flight to the client and the
responses that the client has handled. -/
structure System where
  cluster : Cluster
  client : Client
  posted : List ClientMsg
  handled : List Envelope

/-- A step of the system: one of the cluster, `main` posts a message to the client, the client
handles a message of `main` or a response, or its time limit expires. -/
inductive SystemAction
  | server (a : Action)
  | post (msg : ClientMsg)
  | deliver (msg : ClientMsg)
  | respond (e : Envelope)
  | timeLimit (idx : ℕ)
  deriving DecidableEq, Repr

namespace System

/-- The direct mailbox of the client. -/
def clientInbox : Mbox := .client 0

/-- The action does not post a request in the name of the client. -/
def Foreign : Action → Prop
  | .post _ (.clientRequest cr) => cr.inbox ≠ some clientInbox
  | _ => True

instance : (a : Action) → Decidable (Foreign a)
  | .post _ (.clientRequest cr) => inferInstanceAs (Decidable (cr.inbox ≠ some clientInbox))
  | .post _ (.setCluster _) | .post _ .deactivate | .post _ .changeState | .post _ (.requestVote _)
  | .post _ (.appendEntry _) | .post _ (.appendEntryResult _) | .post _ (.serverResponse _)
  | .deliver _ _ | .internal _ _ => .isTrue trivial

/-- What `main` may post to the client. -/
def Postable (m : Membership) : ClientMsg → Prop
  | .setCluster sc => sc = m.setCluster
  | .setMBox _ => True
  | .serverResponse _ => False

instance (m : Membership) : (msg : ClientMsg) → Decidable (Postable m msg)
  | .setCluster sc => inferInstanceAs (Decidable (sc = _))
  | .setMBox _ => .isTrue trivial
  | .serverResponse _ => .isFalse id

/-- The system as it is constructed. -/
def initial : System where
  cluster := .initial
  client := .initial
  posted := []
  handled := []

/-- A response is in flight to the client. -/
def InFlight (sys : System) (e : Envelope) : Prop :=
  e.dst = clientInbox ∧ sys.handled.count e < sys.cluster.network.count e

instance (sys : System) (e : Envelope) : Decidable (sys.InFlight e) :=
  inferInstanceAs (Decidable (_ ∧ _))

/-- The cluster with messages of the client added to those in flight. -/
def withSent (c : Cluster) (out : List Output) : Cluster :=
  { c with network := c.network ++ out.map fun o ↦ ⟨none, none, o.1, o.2⟩ }

/-- The step function of the system. -/
def next (m : Membership) (sys : System) : SystemAction → Except Halt System
  | .server a =>
    if Foreign a then do
      let cluster ← sys.cluster.next m a
      return { sys with cluster }
    else .error .disabled
  | .post msg =>
    if Postable m msg then .ok { sys with posted := sys.posted ++ [msg] } else .error .disabled
  | .deliver msg =>
    if msg ∈ sys.posted then
      .ok { sys with client := sys.client.handle msg, posted := sys.posted.erase msg }
    else .error .disabled
  | .respond e =>
    match e.msg with
    | .serverResponse sr =>
      if sys.InFlight e then
        .ok { sys with client := sys.client.handle (.serverResponse sr),
                       handled := sys.handled ++ [e] }
      else .error .disabled
    | _ => .error .disabled
  | .timeLimit idx =>
    if idx ≤ sys.client.mboxes.length then do
      let (client, out) ← sys.client.timeLimit idx
      return { sys with client, cluster := withSent sys.cluster out }
    else .error .disabled

/-- The step relation of the system. -/
def Step (m : Membership) (sys : System) (a : SystemAction) (sys' : System) : Prop :=
  sys.next m a = .ok sys'

/-- The runs of the system. -/
abbrev Run (m : Membership) := TransitionSystem.Run (Step m)

/-- The history of a run of the system. -/
abbrev History := List (Transition System SystemAction)

end System

end RaftConsensus
