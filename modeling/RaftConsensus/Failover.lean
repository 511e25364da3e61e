import RaftConsensus.Requests

/-!
# A client whose leader is down

The client asks a server at random once, and from then on the leader that it knows, at every expiry
of its time limit. It changes the leader only for one that a response names, and a server that is
inactive or a candidate answers nothing. So a client that knows a leader and has no answer and no
request elsewhere under way waits for this one server (`System.Awaits`): whoever is elected
meanwhile, it asks nobody else and learns of no other leader, until the server itself handles one of
its requests as a leader or a follower (`client_awaits_iff`).
-/

set_option autoImplicit false
set_option relaxedAutoImplicit false

namespace RaftConsensus

open TransitionSystem

/-- A client that knows a leader keeps it when its time limit expires. -/
theorem Client.clusterLeader_of_timeLimit {c c' : Client} {idx : ℕ} {out : List Output}
    (hknown : c.clusterLeader ≠ []) (h : c.timeLimit idx = .ok (c', out)) :
    c'.clusterLeader = c.clusterLeader := by
  unfold timeLimit enterOn at h
  split at h
  · rw [if_neg fun hunknown ↦ hknown hunknown.1] at h
    split_ifs at h
    · simp only [except_bind_eq_ok_iff, pure, Except.pure, Except.ok.injEq, Prod.mk.injEq] at h
      obtain ⟨_, -, rfl, -⟩ := h
      rfl
    · obtain ⟨rfl, -⟩ := Prod.mk.inj (Except.ok.inj h)
      rfl
  · obtain ⟨rfl, -⟩ := Prod.mk.inj (Except.ok.inj h)
    rfl

/-- A server sends a response to a mailbox when it handles a request that gives this mailbox as a
leader or a follower, and only then. -/
theorem Server.Effect.responds_iff {s s' : Server} {x : Stimulus} {out : List Output} {mbox : Mbox}
    (h : s.Effect x s' out) :
    (∃ o ∈ out, o.1 = mbox ∧ o.2.isResponse) ↔
      x.asks mbox ∧ (s.role = .leader ∨ s.role = .follower) := by
  have hcount : 0 < responses mbox out ↔ ∃ o ∈ out, o.1 = mbox ∧ o.2.isResponse := by
    simp [responses, List.countP_pos_iff]
  have hfate : responses mbox out + _ = _ := h.responses_add_loses
  rw [← hcount]
  cases hasks : x.asks mbox <;> cases hrole : s.role <;>
    simp [loses, hasks, hrole] at hfate ⊢ <;> omega

namespace Cluster

variable {m : Membership} {c c' : Cluster} {a : Action} {name : ByteString} {e : Envelope} {n : ℕ}

/-- No step takes a message to a client out of the network. -/
theorem Step.count_withdraw_client (h : Step m c a c') (hdst : e.dst = .client n) :
    (c.withdraw a).count e = c.network.count e := by
  refine count_withdraw_of_ne fun hdelivered ↦ ?_
  cases a with
  | post | internal => simp [Action.delivered] at hdelivered
  | deliver receiver taken =>
    obtain rfl : taken = e := Option.some.inj hdelivered
    simp [(step_effect h).of_deliver.2] at hdst

/-- A message to a client is added by a step of the server that sends it. -/
theorem Step.count_client (h : Step m c a c') (hdst : e.dst = .client n) :
    c.network.count e ≤ c'.network.count e ∧
      (c.network.count e < c'.network.count e →
        ∃ name, (e.dst, e.msg) ∈ outputs name ⟨c, a, c'⟩) := by
  obtain ⟨fresh, hnetwork, hfresh⟩ := h.network_eq
  rw [hnetwork, List.count_append, h.count_withdraw_client hdst]
  refine ⟨Nat.le_add_right _ _, fun hlt ↦ ?_⟩
  have hmem : e ∈ fresh := List.count_pos_iff.mp (Nat.lt_add_right_iff_pos.mp hlt)
  rcases hfresh e hmem with ⟨receiver, msg, -, -, rfl⟩ | ⟨name, -, hsent⟩
  · simp at hdst
  · exact ⟨name, hsent⟩

/-- What a server sends to a client is added to the messages to it. -/
theorem Step.count_lt_of_mem_outputs (h : Step m c a c') {o : Output}
    (ho : o ∈ outputs name ⟨c, a, c'⟩) (hdst : o.1 = .client n) :
    ∃ e : Envelope, e.dst = o.1 ∧ e.msg = o.2 ∧ c.network.count e < c'.network.count e := by
  obtain ⟨x, hx, -⟩ := stimulus_of_mem_outputs ho
  obtain ⟨-, -, -, -, hnetwork⟩ := h.act hx
  let e : Envelope := ⟨some name, a.delivered.map Envelope.msg, o.1, o.2⟩
  refine ⟨e, rfl, rfl, ?_⟩
  rw [hnetwork, List.count_append, h.count_withdraw_client (e := e) hdst]
  exact Nat.lt_add_of_pos_right (List.count_pos_iff.mpr (List.mem_map.mpr ⟨o, ho, rfl⟩))

end Cluster

namespace System

variable {m : Membership} {sys sys' : System} {a : SystemAction} {before later : History}
  {name : ByteString}

/-- The client waits for a server: it knows it as the leader, its requests in flight go to it, and
no response to it is in flight. -/
structure Awaits (sys : System) (name : ByteString) : Prop where
  leader : sys.client.clusterLeader = name
  request : ∀ e ∈ sys.cluster.network, e.msg.asks clientInbox → e.dst = .server name
  response : ∀ e ∈ sys.cluster.network, e.msg.isResponse → ¬ sys.InFlight e

theorem Awaits.count_le (h : sys.Awaits name) {e : Envelope} (hresponse : e.msg.isResponse)
    (hdst : e.dst = clientInbox) : sys.cluster.network.count e ≤ sys.handled.count e := by
  by_contra hlt
  have he : e ∈ sys.cluster.network := List.count_pos_iff.mp (Nat.zero_lt_of_lt (not_le.mp hlt))
  exact h.response e he hresponse ⟨hdst, not_le.mp hlt⟩

/-- A server handles a request of the client as a leader or a follower. -/
def answers (name : ByteString) (t : Transition System SystemAction) : Bool :=
  match t.action with
  | .server (.deliver receiver e) =>
    receiver = name && e.msg.asks clientInbox &&
      ((t.source.cluster.servers name).role = .leader ∨
        (t.source.cluster.servers name).role = .follower)
  | _ => false

/-- The client has handled no response more often than it was sent to it. -/
theorem handled_run (hrun : Run m initial before sys) (e : Envelope) :
    sys.handled.count e ≤ sys.cluster.network.count e ∧
      (e ∈ sys.handled → e.dst = clientInbox) := by
  induction hrun with
  | nil => simp [initial]
  | @snoc trace middle final action _ hstep ih =>
    rcases step_cases hstep with ⟨b, c', hforeign, hserver, rfl⟩ | ⟨msg, hpostable, rfl⟩ |
      ⟨msg, hmsg, rfl⟩ | ⟨answer, sr, hmsg, hflight, rfl⟩ | ⟨idx, client, out, hlimit, rfl⟩
    · refine ⟨?_, ih.2⟩
      by_cases he : e ∈ middle.handled
      · exact ih.1.trans (hserver.count_client (ih.2 he)).1
      · rw [List.count_eq_zero.mpr he]
        exact Nat.zero_le _
    · exact ih
    · exact ih
    · refine ⟨?_, fun he ↦ ?_⟩
      · by_cases hanswer : answer = e
        · obtain rfl := hanswer
          rw [List.count_append, List.count_singleton_self]
          exact hflight.2
        · simpa [List.count_append, hanswer] using ih.1
      · rcases List.mem_append.mp he with hold | hnew
        · exact ih.2 hold
        · exact List.mem_singleton.mp hnew ▸ hflight.1
    · refine ⟨ih.1.trans ?_, ih.2⟩
      simp [withSent, List.count_append]

/-- A message to the client that is sent once more is in flight. -/
theorem inFlight_of_count_lt (hrun : Run m initial before sys) {e : Envelope} {c' : Cluster}
    (hdst : e.dst = clientInbox) (hlt : sys.cluster.network.count e < c'.network.count e) :
    InFlight { sys with cluster := c' } e :=
  ⟨hdst, (handled_run hrun e).1.trans_lt hlt⟩

/-- With an answer of a server a response is in flight to the client. -/
theorem not_awaits_of_answers (hrun : Run m initial before sys) {b : Action} {c' : Cluster}
    (hstep : Cluster.Step m sys.cluster b c')
    (hanswers : answers name ⟨sys, .server b, { sys with cluster := c' }⟩ = true) :
    ¬ Awaits { sys with cluster := c' } name := by
  intro hwaits
  cases b with
  | post | internal => cases hanswers
  | deliver receiver asking =>
    simp only [answers, Bool.and_eq_true, decide_eq_true_eq] at hanswers
    obtain ⟨⟨rfl, hasks⟩, hrole⟩ := hanswers
    obtain ⟨-, -, hact, -⟩ := hstep.act rfl
    obtain ⟨o, ho, hdst, hresponse⟩ := (Server.act_effect hact).responds_iff.mpr ⟨hasks, hrole⟩
    obtain ⟨e, hedst, hemsg, hlt⟩ := hstep.count_lt_of_mem_outputs ho hdst
    have hflight := inFlight_of_count_lt hrun (hedst.trans hdst) hlt
    exact absurd hflight.2 (not_lt.mpr (hwaits.count_le (hemsg ▸ hresponse) hflight.1))

/-- A response to the client that a step of a server adds is an answer of the server that the client
waits for. -/
theorem Awaits.answers_of_count_lt (h : sys.Awaits name) {b : Action} {c' : Cluster}
    (hstep : Cluster.Step m sys.cluster b c') {e : Envelope} (hresponse : e.msg.isResponse)
    (hdst : e.dst = clientInbox) (hlt : sys.cluster.network.count e < c'.network.count e) :
    answers name ⟨sys, .server b, { sys with cluster := c' }⟩ = true := by
  obtain ⟨sender, hsent⟩ := (hstep.count_client hdst).2 hlt
  obtain ⟨-, x, hx, -, heffect⟩ := hstep.of_mem_outputs hsent
  obtain ⟨hasks, hrole⟩ := heffect.responds_iff.mp ⟨_, hsent, hdst, hresponse⟩
  rcases Action.stimulus_cases hx with ⟨asking, rfl, rfl⟩ | rfl
  · obtain ⟨hasking, hreceiver⟩ := (Cluster.step_effect hstep).of_deliver
    obtain rfl : sender = name :=
      Mbox.server.inj (hreceiver.symm.trans (h.request asking hasking hasks))
    have hmsg : asking.msg.asks clientInbox = true := hasks
    simp [answers, hmsg, hrole]
  · cases Cluster.step_effect hstep with
    | internal _ _ _ _ _ hinternal _ =>
      cases x with
      | handle => exact hinternal.elim
      | _ => cases hasks

/-- A step of a server that is no answer lets the client wait: servers send no requests, and nobody
else sends one in the name of the client. -/
theorem Awaits.server (h : sys.Awaits name) {b : Action} (hforeign : Foreign b) {c' : Cluster}
    (hstep : Cluster.Step m sys.cluster b c')
    (hsilent : answers name ⟨sys, .server b, { sys with cluster := c' }⟩ = false) :
    Awaits { sys with cluster := c' } name := by
  refine ⟨h.leader, fun e he hasks ↦ ?_, ?_⟩
  · rcases hstep.mem_network he with hold | ⟨receiver, msg, rfl, -, rfl⟩ | ⟨sender, -, hsent⟩
    · exact h.request e hold hasks
    · cases msg with
      | clientRequest cr => exact absurd (of_decide_eq_true hasks) hforeign
      | _ => cases hasks
    · obtain ⟨-, x, -, -, heffect⟩ := hstep.of_mem_outputs hsent
      have hnever : e.msg.asks clientInbox = false :=
        Cluster.neverSent_asks _ _ _ _ heffect _ hsent
      exact absurd hasks (by simp [hnever])
  · rintro e - hresponse ⟨hdst, hlt⟩
    have hnew := (h.count_le hresponse hdst).trans_lt hlt
    rw [h.answers_of_count_lt hstep hresponse hdst hnew] at hsilent
    cases hsilent

/-- The expiry of its time limit lets the client wait: it asks the server that it knows. -/
theorem Awaits.timeLimit (h : sys.Awaits name) (hname : name ≠ []) (hinformed : Informed m sys)
    {idx : ℕ} {client : Client} {out : List Output}
    (hlimit : sys.client.timeLimit idx = .ok (client, out)) :
    Awaits { sys with client, cluster := withSent sys.cluster out } name := by
  have hleader : client.clusterLeader = name :=
    (Client.clusterLeader_of_timeLimit (h.leader ▸ hname) hlimit).trans h.leader
  rcases (Client.timeLimit_cases hlimit).2 with ⟨-, rfl⟩ | ⟨mbox, cmd, hmem, rfl⟩
  · rw [withSent, List.map_nil, List.append_nil]
    exact ⟨hleader, h.request, h.response⟩
  · have hmap : sys.client.mboxes = m.setCluster.mboxes :=
      hinformed.map.resolve_left fun hnone ↦ by simp [hnone] at hmem
    rw [hmap, hleader] at hmem
    have hmbox : mbox = .server name := Option.some.inj (Membership.mem_setCluster.mp hmem).2
    refine ⟨hleader, fun e he hasks ↦ ?_, ?_⟩
    · rcases List.mem_append.mp he with hold | hnew
      · exact h.request e hold hasks
      · rw [List.mem_singleton.mp hnew]
        exact hmbox
    · rintro e - hresponse ⟨hdst, hlt⟩
      refine absurd (h.count_le hresponse hdst) (not_le.mpr ?_)
      have hne : e ∉ [(⟨none, none, mbox, .clientRequest ⟨sys.client.mbox, cmd⟩⟩ : Envelope)] := by
        intro he
        rw [List.mem_singleton.mp he] at hresponse
        cases hresponse
      rwa [withSent, List.map_singleton, List.count_append, List.count_eq_zero.mpr hne,
        Nat.add_zero] at hlt

/-- A step lets the client wait exactly if it is no answer to it. -/
theorem Awaits.step_iff (h : sys.Awaits name) (hname : name ≠ [])
    (hrun : Run m initial before sys) (hstep : Step m sys a sys') :
    sys'.Awaits name ↔ answers name ⟨sys, a, sys'⟩ = false := by
  obtain ⟨hinformed, -⟩ := informed_run hrun
  unfold Step next at hstep
  cases a with
  | server b =>
    dsimp only at hstep
    split_ifs at hstep with hforeign
    simp only [except_bind_eq_ok_iff, pure, Except.pure, Except.ok.injEq] at hstep
    obtain ⟨c', hserver, rfl⟩ := hstep
    cases hanswers : answers name ⟨sys, .server b, { sys with cluster := c' }⟩ with
    | false => exact iff_of_true (h.server hforeign hserver hanswers) rfl
    | true => exact iff_of_false (not_awaits_of_answers hrun hserver hanswers) (by simp)
  | post msg =>
    dsimp only at hstep
    split_ifs at hstep
    obtain rfl := Except.ok.inj hstep
    exact iff_of_true ⟨h.leader, h.request, h.response⟩ rfl
  | deliver msg =>
    dsimp only at hstep
    split_ifs at hstep with hposted
    obtain rfl := Except.ok.inj hstep
    refine iff_of_true ⟨?_, h.request, h.response⟩ rfl
    cases msg with
    | setCluster | setMBox => exact h.leader
    | serverResponse => exact (hinformed.posted _ hposted).elim
  | respond e =>
    dsimp only at hstep
    split at hstep
    next sr hmsg =>
      split_ifs at hstep with hflight
      have hresponse : e.msg.isResponse := by
        rw [hmsg]
        rfl
      exact absurd (h.count_le hresponse hflight.1) (not_le.mpr hflight.2)
    next => cases hstep
  | timeLimit idx =>
    dsimp only at hstep
    split_ifs at hstep
    simp only [except_bind_eq_ok_iff, pure, Except.pure, Except.ok.injEq, Prod.exists] at hstep
    obtain ⟨client, out, hlimit, rfl⟩ := hstep
    exact iff_of_true (h.timeLimit hname hinformed hlimit) rfl

end System

/-- From a state of a run in which the client knows a server as the leader, has its requests in
flight to this server and no response in flight, it is in such a state after every step of a
continuation exactly if the server handles none of its requests as a leader or a follower. No other
server can tell it of another leader. -/
theorem client_awaits_iff {m : Membership} {before later : System.History} {sys sys' : System}
    {name : ByteString} (hrun : System.Run m .initial before sys) (hname : name ≠ [])
    (hawaits : sys.Awaits name) (hlater : System.Run m sys later sys') :
    (∀ t ∈ later, t.target.Awaits name) ↔ ∀ t ∈ later, System.answers name t = false := by
  refine hlater.forall_target_iff (System.Awaits · name) _ hawaits ?_
  intro during state action next hduring hstate hstep
  exact hstate.step_iff hname (hrun.append hduring) hstep

/-- The client has learned that the first server leads, which is deactivated then. The second server
is elected with its own two votes and that of the third, and the client asks the first one. -/
def Schedule.failover : List SystemAction :=
  let second := bytes "server2"
  let rv : RequestVote := .request 2 second 0 0
  let cr : ClientRequest := ⟨some System.clientInbox, bytes "ADD;1"⟩
  let election : List Action := tell (bytes "server1") .deactivate ++
    [.internal second .timeLimit] ++ requestVotes second 0 trio.names ++ vote second 2 rv ++
    vote (bytes "server3") 0 rv ++ requestVotes second 0 trio.names ++ vote second 2 rv
  election.map .server ++
    [.timeLimit 0, .timeLimit 0,
      .server (.deliver (bytes "server1")
        ⟨none, none, .server (bytes "server1"), .clientRequest cr⟩)]

/-- The second server leads, and the client still waits for the first. -/
theorem client_awaits_iff_failover :
    let sys := finalState (System.next Schedule.trio) .initial Schedule.redirection
    let trace := history (System.next Schedule.trio) sys Schedule.failover
    let sys' := finalState (System.next Schedule.trio) sys Schedule.failover
    (sys'.cluster.servers (bytes "server2")).role = .leader ∧
      ∀ t ∈ trace, t.target.Awaits (bytes "server1") := by
  intro sys trace sys'
  have hrun : System.Run Schedule.trio .initial _ sys := run_of_isOk (by decide)
  have hlater : System.Run Schedule.trio sys trace sys' := run_of_isOk (by decide)
  have hawaits : sys.Awaits (bytes "server1") := ⟨by decide, by decide, by decide⟩
  exact ⟨by decide, (client_awaits_iff hrun (by decide) hawaits hlater).mpr (by decide)⟩

end RaftConsensus
