import RaftConsensus.Model.ServerRun
import RaftConsensus.Redirects

/-!
# The fate of requests

A request of a client is delivered once. A leader and a follower answer it, each with one response
to the mailbox that it gives, and a candidate and an inactive server drop it. So the requests that
have been posted for a mailbox are, at any time, the responses sent to it, the requests that were
dropped and those still in flight (`requests_accounted`): no request is answered twice, and none is
lost in another way.

The accounting is that of every kind of message: what has been posted or sent has been delivered or
is in flight (`accounted_run`). Of some kinds servers send nothing (`waiting_run`). A server is
inactive exactly when an odd number of `deactivate` signals have been delivered to it
(`inactive_iff_odd`), whatever else it has handled.
-/

set_option autoImplicit false
set_option relaxedAutoImplicit false

namespace RaftConsensus

open TransitionSystem

/-- The message is a request that is to be answered at a mailbox. -/
def Msg.asks (mbox : Mbox) : Msg → Bool
  | .clientRequest cr => cr.inbox = some mbox
  | _ => false

/-- The message is a response. -/
def Msg.isResponse : Msg → Bool
  | .serverResponse _ => true
  | _ => false

/-- The message that a stimulus hands to a server is a request for a mailbox. -/
def Stimulus.asks (mbox : Mbox) : Stimulus → Bool
  | .handle msg => msg.asks mbox
  | _ => false

namespace Server

variable {s s' : Server} {x : Stimulus} {out : List Output} {mbox : Mbox}

/-- How many responses are among the messages sent to a mailbox. -/
def responses (mbox : Mbox) (out : List Output) : ℕ :=
  out.countP fun o ↦ o.1 = mbox ∧ o.2.isResponse

theorem responses_singleton {target : Mbox} {sr : ServerResponse} :
    responses mbox [(target, .serverResponse sr)] = (decide (target = mbox)).toNat := by
  by_cases h : target = mbox <;> simp [responses, Msg.isResponse, h]

/-- The server drops a request for a mailbox: it is a candidate or inactive. -/
def loses (s : Server) (mbox : Mbox) (x : Stimulus) : Bool :=
  x.asks mbox && (s.role = .candidate ∨ s.role = .inactive)

/-- A request is answered once, at the mailbox that it gives, or dropped; and nothing else is
answered. -/
theorem Effect.responses_add_loses (h : s.Effect x s' out) :
    responses mbox out + (s.loses mbox x).toNat = (x.asks mbox).toNat := by
  cases h
  case drop msg _ hsubscribes =>
    cases msg
    case clientRequest cr =>
      have hrole : s.role = .candidate ∨ s.role = .inactive := by
        cases hcase : s.role <;> simp [Role.subscribes, hcase] at hsubscribes ⊢
      simp [responses, loses, hrole]
    all_goals simp [responses, loses, Stimulus.asks, Msg.asks]
  case command cr target register _ hrole _ _ hinbox =>
    rw [responses_singleton]
    simp [loses, Stimulus.asks, Msg.asks, hrole, hinbox]
  case query cr target _ hrole _ hinbox =>
    rw [responses_singleton]
    simp [loses, Stimulus.asks, Msg.asks, hrole, hinbox]
  case redirect cr target _ hrole hinbox =>
    rw [responses_singleton]
    simp [loses, Stimulus.asks, Msg.asks, hrole, hinbox]
  all_goals simp [responses, loses, Stimulus.asks, Msg.asks, Msg.isResponse]

end Server

/-- Messages that servers do not send, to any mailbox. -/
def NeverSent (kind : Mbox → Msg → Bool) : Prop :=
  ∀ (s s' : Server) (x : Stimulus) (out : List Output), s.Effect x s' out →
    ∀ o ∈ out, kind o.1 o.2 = false

namespace Cluster

variable {m : Membership} {c c' : Cluster} {a : Action} {trace before : History} {name : ByteString}
  {x : Stimulus} {mbox : Mbox} {kind : Mbox → Msg → Bool}

/-! ### Messages of the environment -/

/-- A number summed up over a history. -/
def total (number : Transition Cluster Action → ℕ) (history : History) : ℕ :=
  (history.map number).sum

@[simp] theorem total_snoc {number : Transition Cluster Action → ℕ}
    {t : Transition Cluster Action} :
    total number (before ++ [t]) = total number before + number t := by
  simp [total]

theorem total_zero : total (fun _ ↦ 0) trace = 0 := by
  simp [total]

/-- Numbers that agree for every step of a run have the same sum. -/
theorem total_congr {number number' : Transition Cluster Action → ℕ}
    (hrun : Run m initial trace c)
    (h : ∀ before c a c', Run m initial before c → Step m c a c' →
      number ⟨c, a, c'⟩ = number' ⟨c, a, c'⟩) : total number trace = total number' trace := by
  induction hrun with
  | nil => rfl
  | snoc hrest hstep ih => rw [total_snoc, total_snoc, ih, h _ _ _ _ hrest hstep]

/-- The number of messages of a kind that a transition posts, that is one or none. -/
def posted (kind : Mbox → Msg → Bool) (t : Transition Cluster Action) : ℕ :=
  match t.action with
  | .post receiver msg => (kind (.server receiver) msg).toNat
  | .deliver _ _ | .internal _ _ => 0

/-- The number of messages of a kind that a transition delivers. -/
def delivered (kind : Mbox → Msg → Bool) (t : Transition Cluster Action) : ℕ :=
  match t.action with
  | .deliver _ e => (kind e.dst e.msg).toNat
  | .post _ _ | .internal _ _ => 0

/-- The messages of a kind that are in flight. -/
def waiting (kind : Mbox → Msg → Bool) (network : List Envelope) : ℕ :=
  network.countP fun e ↦ kind e.dst e.msg

/-- A delivery takes one message out of the network. -/
theorem waiting_withdraw (hstep : Step m c a c') :
    waiting kind (c.withdraw a) + delivered kind ⟨c, a, c'⟩ = waiting kind c.network := by
  cases a with
  | post | internal => rfl
  | deliver receiver e =>
    have he := (step_effect hstep).of_deliver.1
    show (c.network.erase e).countP _ + (kind e.dst e.msg).toNat = _
    rw [List.countP_erase]
    cases hkind : kind e.dst e.msg with
    | false => simp [waiting]
    | true =>
      have hpos : 0 < waiting kind c.network := List.countP_pos_iff.mpr ⟨e, he, hkind⟩
      simp only [he, and_self, if_true, Bool.toNat_true]
      exact Nat.sub_add_cancel hpos

/-- The number of messages of a kind that a server sends in a transition. -/
def sent (kind : Mbox → Msg → Bool) (t : Transition Cluster Action) : ℕ :=
  match t.action.stimulus with
  | some (name, _) => (outputs name t).countP fun o ↦ kind o.1 o.2
  | none => 0

/-- Messages that are posted or sent are delivered or stay in flight. -/
theorem waiting_step (hstep : Step m c a c') :
    waiting kind c.network + posted kind ⟨c, a, c'⟩ + sent kind ⟨c, a, c'⟩ =
      delivered kind ⟨c, a, c'⟩ + waiting kind c'.network := by
  have htaken : _ = waiting kind c.network := waiting_withdraw hstep
  cases hx : a.stimulus with
  | none =>
    cases step_effect hstep with
    | post receiver msg =>
      simp only [posted, sent, delivered, waiting, List.countP_append, List.countP_singleton]
      cases kind (.server receiver) msg <;> simp [Action.stimulus]
    | deliver | internal => simp [Action.stimulus] at hx
  | some actor =>
    obtain ⟨actor, x⟩ := actor
    obtain ⟨-, -, -, -, hnetwork⟩ := hstep.act hx
    have hposted : posted kind ⟨c, a, c'⟩ = 0 := by
      cases a with
      | post => simp [Action.stimulus] at hx
      | deliver | internal => rfl
    have hsent : sent kind ⟨c, a, c'⟩ =
        (outputs actor ⟨c, a, c'⟩).countP fun o ↦ kind o.1 o.2 := by
      simp only [sent, hx]
    have hafter : waiting kind c'.network =
        waiting kind (c.withdraw a) + sent kind ⟨c, a, c'⟩ := by
      rw [hnetwork, waiting, List.countP_append, List.countP_map, hsent]
      rfl
    omega

/-- In a run the messages that have been posted or sent have been delivered or are in flight. -/
theorem accounted_run (hrun : Run m initial trace c) :
    total (posted kind) trace + total (sent kind) trace =
      total (delivered kind) trace + waiting kind c.network := by
  induction hrun with
  | nil => rfl
  | snoc _ hstep ih =>
    have hnext : waiting kind _ + _ + _ = _ := waiting_step hstep
    simp only [total_snoc]
    omega

/-- In a run the messages that only the environment posts have been delivered or are in flight. -/
theorem waiting_run (hkind : NeverSent kind) (hrun : Run m initial trace c) :
    total (posted kind) trace = total (delivered kind) trace + waiting kind c.network := by
  have hnone : total (sent kind) trace = total (fun _ ↦ 0) trace := by
    refine total_congr hrun fun _ _ _ _ _ hstep ↦ ?_
    unfold sent
    split
    next name x hx =>
      obtain ⟨-, -, hact, -⟩ := hstep.act hx
      refine List.countP_eq_zero.mpr fun o ho ↦ ?_
      simp [hkind _ _ _ _ (Server.act_effect hact) o ho]
    next => rfl
  rw [← accounted_run hrun, hnone, total_zero, Nat.add_zero]

/-! ### Requests -/

/-- Servers send no requests. -/
theorem neverSent_asks : NeverSent fun _ msg ↦ msg.asks mbox := by
  rintro s s' x out heffect ⟨dst, msg⟩ ho
  cases msg with
  | clientRequest cr => exact absurd rfl ((heffect.not_sent ho).2.1 cr)
  | _ => rfl

/-- The number of responses that are sent to a mailbox in a transition. -/
def answers (mbox : Mbox) (t : Transition Cluster Action) : ℕ :=
  match t.action.stimulus with
  | some (name, _) => Server.responses mbox (outputs name t)
  | none => 0

/-- The number of requests for a mailbox that are dropped in a transition. -/
def losses (mbox : Mbox) (t : Transition Cluster Action) : ℕ :=
  match t.action.stimulus with
  | some (name, x) => ((t.source.servers name).loses mbox x).toNat
  | none => 0

/-- A request that is delivered is answered once or dropped. -/
theorem answers_add_losses (hstep : Step m c a c') :
    answers mbox ⟨c, a, c'⟩ + losses mbox ⟨c, a, c'⟩ =
      delivered (fun _ msg ↦ msg.asks mbox) ⟨c, a, c'⟩ := by
  cases hx : a.stimulus with
  | none =>
    cases a with
    | post => rfl
    | deliver | internal => simp [Action.stimulus] at hx
  | some actor =>
    obtain ⟨actor, x⟩ := actor
    obtain ⟨-, -, hact, -⟩ := hstep.act hx
    have hfate : _ = (x.asks mbox).toNat := (Server.act_effect hact).responses_add_loses
    simp only [answers, losses, hx, hfate]
    rcases Action.stimulus_cases hx with ⟨e, rfl, rfl⟩ | rfl
    · rfl
    · cases step_effect hstep with
      | internal _ _ _ _ _ hinternal _ =>
        cases x with
        | handle => exact hinternal.elim
        | _ => rfl

end Cluster

/-- In every run the requests that have been posted for a mailbox are the responses that have been
sent to it, the requests that were delivered to a candidate or an inactive server, and the requests
that are in flight. -/
theorem requests_accounted {m : Membership} {trace : Cluster.History} {c : Cluster}
    (hrun : Cluster.Run m .initial trace c) (mbox : Mbox) :
    Cluster.total (Cluster.posted fun _ msg ↦ msg.asks mbox) trace =
      Cluster.total (Cluster.answers mbox) trace + Cluster.total (Cluster.losses mbox) trace +
        Cluster.waiting (fun _ msg ↦ msg.asks mbox) c.network := by
  rw [Cluster.waiting_run Cluster.neverSent_asks hrun, Nat.add_right_cancel_iff]
  induction hrun with
  | nil => rfl
  | snoc _ hstep ih =>
    have hfate : Cluster.answers mbox _ + _ = _ := Cluster.answers_add_losses hstep
    simp only [Cluster.total_snoc]
    omega

/-- The one request of a run is answered, and none is dropped or in flight. -/
theorem requests_accounted_replication :
    let c := finalState (Cluster.next Schedule.trio) .initial Schedule.replication
    let trace := history (Cluster.next Schedule.trio) .initial Schedule.replication
    Cluster.total (Cluster.answers (.client 0)) trace = 1 ∧
      Cluster.total (Cluster.losses (.client 0)) trace = 0 ∧
      Cluster.waiting (fun _ msg ↦ msg.asks (.client 0)) c.network = 0 := by
  intro c trace
  have hrun : Cluster.Run Schedule.trio .initial trace c := run_of_isOk (by decide)
  have haccount := requests_accounted hrun (.client 0)
  have hposted : Cluster.total (Cluster.posted fun _ msg ↦ msg.asks (.client 0)) trace = 1 := by
    decide
  have hanswers : Cluster.total (Cluster.answers (.client 0)) trace = 1 := by decide
  exact ⟨hanswers, by omega, by omega⟩

/-! ### Deactivations -/

namespace Server

variable {s s' : Server} {x : Stimulus} {out : List Output}

/-- A signal to deactivate turns the inactive state on or off, and nothing else does. -/
theorem Effect.inactive_iff (h : s.Effect x s' out) :
    s'.role = .inactive ↔ (s.role = .inactive ↔ x ≠ .handle .deactivate) := by
  have htally {s : Server} (hrole : s.role ≠ .inactive) : s.tally.role ≠ .inactive := by
    rcases s.tally_cases with ⟨htally, -⟩ | ⟨htally, -⟩
    · rwa [htally]
    · rw [htally]
      exact fun hinactive ↦ by cases hinactive
  cases h
  case wake _ hrole => simp [activateFollower, hrole]
  case deactivate _ hrole => simp [activateInactive, hrole]
  case countVote rv _ hrole _ =>
    have hactive : s.role ≠ .inactive := fun h ↦ by simp [Role.subscribes, h] at hrole
    simp [hactive, htally (s := { s with voteCnt := s.voteCnt + 1 }) hactive]
  case answerVote rv _ _ hrole _ _ =>
    have hactive : s.role ≠ .inactive := fun h ↦ by simp [Role.subscribes, h] at hrole
    simp [hactive, htally hactive]
  case drop msg _ hsubscribes =>
    have hmsg : msg ≠ .deactivate := fun h ↦ by simp [h, Role.subscribes] at hsubscribes
    simp [hmsg]
  case stepDown _ hrole _ => rcases hrole with hrole | hrole <;> simp [activateFollower, hrole]
  case electionTimeout hrole _ => simp [activateCandidate, hrole]
  case leaderTimeout hrole => simp [activateFollower, hrole]
  all_goals simp [setClusterHandler, changeStateHandler, accepted, consistencyCheck,
    leaveFollowerEntry]

end Server

namespace Cluster

variable {m : Membership} {c c' : Cluster} {a : Action} {name : ByteString} {x : Stimulus}

/-- The signals to deactivate that go to a server. -/
def signals (name : ByteString) (dst : Mbox) (msg : Msg) : Bool :=
  dst = .server name ∧ msg = .deactivate

/-- A stimulus of a server delivers a signal if it is one. -/
theorem delivered_signals (hstep : Step m c a c') (hx : a.stimulus = some (name, x)) :
    delivered (signals name) ⟨c, a, c'⟩ = if x = .handle .deactivate then 1 else 0 := by
  rcases Action.stimulus_cases hx with ⟨e, rfl, rfl⟩ | rfl
  · have hdst := (step_effect hstep).of_deliver.2
    by_cases hmsg : e.msg = .deactivate <;> simp [delivered, signals, hdst, hmsg]
  · have hinternal : x ≠ .handle .deactivate := by
      rintro rfl
      cases step_effect hstep with
      | internal _ _ _ _ _ hinternal _ => exact hinternal
    rw [if_neg hinternal]
    rfl

/-- A step that does not concern a server delivers it no signal. -/
theorem delivered_signals_of_ne (hstep : Step m c a c')
    (hother : ∀ x, a.stimulus ≠ some (name, x)) : delivered (signals name) ⟨c, a, c'⟩ = 0 := by
  cases a with
  | post | internal => rfl
  | deliver receiver e =>
    have hdst := (step_effect hstep).of_deliver.2
    have hne : receiver ≠ name := by
      rintro rfl
      exact hother _ rfl
    simp [delivered, signals, hdst, hne]

/-- Servers send no signals to deactivate. -/
theorem neverSent_signals (name : ByteString) : NeverSent (signals name) := by
  rintro s s' x out heffect ⟨dst, msg⟩ ho
  have hmsg := (heffect.not_sent ho).2.2
  simp [signals, hmsg]

/-- Every signal that is delivered turns the inactive state on or off. -/
theorem inactive_run {trace : History} (hrun : Run m initial trace c) (name : ByteString) :
    (c.servers name).role = .inactive ↔ Odd (total (delivered (signals name)) trace) := by
  induction hrun with
  | nil => simp [initial, Server.initial, total]
  | @snoc trace middle final a _ hstep ih =>
    rw [total_snoc]
    by_cases hself : ∃ x, a.stimulus = some (name, x)
    · obtain ⟨x, hx⟩ := hself
      obtain ⟨-, -, hact, -⟩ := hstep.act hx
      rw [(Server.act_effect hact).inactive_iff, ih, delivered_signals hstep hx]
      by_cases hsignal : x = .handle .deactivate
      · simp [hsignal, Nat.odd_add_one]
      · simp [hsignal]
    · have hsame : final.servers name = middle.servers name := by
        refine (hstep.act_cases name).resolve_right ?_
        rintro ⟨x, hx, -⟩
        exact hself ⟨x, hx⟩
      rw [hsame, ih, delivered_signals_of_ne hstep fun x hx ↦ hself ⟨x, hx⟩, add_zero]

end Cluster

/-- In every run a server is inactive exactly when an odd number of signals to deactivate have been
delivered to it. -/
theorem inactive_iff_odd {m : Membership} {trace : Cluster.History} {c : Cluster}
    (hrun : Cluster.Run m .initial trace c) (name : ByteString) :
    (c.servers name).role = .inactive ↔
      Odd (Cluster.total (Cluster.delivered (Cluster.signals name)) trace) :=
  Cluster.inactive_run hrun name

/-- A server that has been sent one signal is inactive. -/
theorem inactive_iff_odd_tell :
    let c := finalState (Cluster.next Schedule.trio) .initial
      (Schedule.tell (bytes "server2") .deactivate)
    (c.servers (bytes "server2")).role = .inactive :=
  (inactive_iff_odd (run_of_isOk (by decide)) _).mpr (by decide)

end RaftConsensus
