import RaftConsensus.RegisterReplay
import RaftConsensus.Replication
import RaftConsensus.Requests

/-!
# What responses report

A leader answers a request from its register, after it has appended and applied the command of the
request. So a response with `status = 1` reports the server that it names as it was at one time: its
result is the register of a log that this server has had, and since logs only grow, of a prefix of
its log from then on. A command that is acknowledged is the last entry of this prefix
(`responses_report`). Nothing is said of the other servers.

Requests come from the clients alone (`Cluster.requested_run`), and responses answer requests, so
every response goes back to a request that was posted for the mailbox that it is sent to.
-/

set_option autoImplicit false
set_option relaxedAutoImplicit false

namespace RaftConsensus

open TransitionSystem

/-- A response reports a log with a request: it has the register of the log, and the log ends with
the command of the request, if it has one. -/
def ServerResponse.Reports (sr : ServerResponse) (log : List Entry) (cr : ClientRequest) : Prop :=
  (∃ register, Calc.replay log = .ok register ∧ sr.resp = register.getResult) ∧
    (cr.cmd ≠ [] → ∃ el, log.getLast? = some el ∧ el.2 = cr.cmd)

namespace Server

variable {s s' : Server} {x : Stimulus} {out : List Output} {dst : Mbox} {sr : ServerResponse}

/-- A server answers the request that it handles: as a leader it reports its log, and as a follower
it names the leader that it knows. -/
theorem Effect.report (h : s.Effect x s' out) (hs : Calc.replay s.log = .ok s.register)
    (hsent : (dst, .serverResponse sr) ∈ out) :
    ∃ cr, x = .handle (.clientRequest cr) ∧ cr.inbox = some dst ∧
      (sr = ⟨0, [], s.currLeader⟩ ∨ sr.status = 1 ∧ sr.leader = s.name ∧ sr.Reports s'.log cr) := by
  have hs' := h.replay hs
  cases h
  case command cr target register _ _ _ _ hinbox =>
    obtain ⟨rfl, hresponse⟩ := Prod.mk.inj (List.mem_singleton.mp hsent)
    obtain rfl := Msg.serverResponse.inj hresponse
    have hlast : ∃ el, (s.log ++ [(s.term, cr.cmd)]).getLast? = some el ∧ el.2 = cr.cmd :=
      ⟨_, List.getLast?_concat, rfl⟩
    exact ⟨cr, rfl, hinbox, Or.inr ⟨rfl, rfl, ⟨register, hs', rfl⟩, fun _ ↦ hlast⟩⟩
  case query cr target _ _ hcmd hinbox =>
    obtain ⟨rfl, hresponse⟩ := Prod.mk.inj (List.mem_singleton.mp hsent)
    obtain rfl := Msg.serverResponse.inj hresponse
    exact ⟨cr, rfl, hinbox, Or.inr ⟨rfl, rfl, ⟨s.register, hs, rfl⟩, fun h ↦ absurd hcmd h⟩⟩
  case redirect cr target _ _ hinbox =>
    obtain ⟨rfl, hresponse⟩ := Prod.mk.inj (List.mem_singleton.mp hsent)
    exact ⟨cr, rfl, hinbox, Or.inl (Msg.serverResponse.inj hresponse)⟩
  all_goals simp_all

end Server

namespace Cluster

variable {m : Membership} {c c' : Cluster} {a : Action} {trace before : History} {e : Envelope}
  {sr : ServerResponse} {cr : ClientRequest}

/-- A request has been posted. -/
def Requested (history : History) (cr : ClientRequest) : Prop :=
  ∃ t ∈ history, ∃ receiver, t.action = .post receiver (.clientRequest cr)

theorem Requested.mono (h : Requested before cr) (later : History) :
    Requested (before ++ later) cr := by
  obtain ⟨t, ht, hpost⟩ := h
  exact ⟨t, List.mem_append_left _ ht, hpost⟩

/-- Every request in flight has been posted. -/
theorem requested_run (hrun : Run m initial trace c) (he : e ∈ c.network)
    (hmsg : e.msg = .clientRequest cr) : Requested trace cr := by
  induction hrun with
  | nil => simp [initial] at he
  | snoc _ hstep ih =>
    rcases hstep.mem_network he with hold | ⟨receiver, msg, rfl, -, rfl⟩ | ⟨name, -, hsent⟩
    · exact (ih hold).mono _
    · obtain rfl : msg = .clientRequest cr := hmsg
      exact ⟨_, List.mem_append_right _ (List.mem_singleton_self _), receiver, rfl⟩
    · obtain ⟨-, x, -, -, heffect⟩ := hstep.of_mem_outputs hsent
      exact absurd hmsg ((heffect.not_sent hsent).2.1 cr)

/-- A message answers a request: the request has been posted to be answered there. A response of
status `0` has no result; any other has status `1`, and reports, with the request, a log that the
server that it names has had. -/
def Reported (history : History) (c : Cluster) (e : Envelope) (sr : ServerResponse) : Prop :=
  ∃ cr, e.cause = some (.clientRequest cr) ∧ Requested history cr ∧ cr.inbox = some e.dst ∧
    (sr.status = 0 ∧ sr.resp = [] ∨
      sr.status = 1 ∧ ∃ log, log <+: (c.servers sr.leader).log ∧ sr.Reports log cr)

/-- What a response has reported stays reported. -/
theorem Reported.step (h : Reported before c e sr) (hstep : Step m c a c') :
    Reported (before ++ [⟨c, a, c'⟩]) c' e sr := by
  obtain ⟨cr, hcause, hrequested, hinbox, hreport⟩ := h
  refine ⟨cr, hcause, hrequested.mono _, hinbox, hreport.imp_right ?_⟩
  rintro ⟨hstatus, log, hlog, hreports⟩
  exact ⟨hstatus, log, hlog.trans (logs_isPrefix hstep _), hreports⟩

/-- In a run every response in flight answers a request. -/
theorem reported_run (hrun : Run m initial trace c) (he : e ∈ c.network)
    (hmsg : e.msg = .serverResponse sr) : Reported trace c e sr := by
  induction hrun with
  | nil => simp [initial] at he
  | snoc hrest hstep ih =>
    rcases (step_effect hstep).network_of_server he hmsg id with
      hold | ⟨name, x, out, hx, havailable, heffect, hsent, -, hcause⟩
    · exact (ih hold).step hstep
    · rw [hmsg] at hsent
      obtain ⟨cr, rfl, hinbox, hreport⟩ := heffect.report (replay_run hrest name) hsent
      obtain ⟨asking, hasking, -, haskmsg⟩ := havailable _ rfl
      refine ⟨cr, hcause _ rfl, (requested_run hrest hasking haskmsg).mono _, hinbox, ?_⟩
      rcases hreport with rfl | ⟨hstatus, hleader, hreports⟩
      · exact Or.inl ⟨rfl, rfl⟩
      · rw [(coherent_initial.run hrest).name_eq] at hleader
        exact Or.inr ⟨hstatus, _, hleader ▸ List.prefix_rfl, hreports⟩

end Cluster

/-- In every run a response in flight answers a request that was posted for its mailbox, and with
the status `1` it reports a state that the server that it names has been in: the result is the
register of a prefix of its log, and a command that the request gives is the last entry of this
prefix. -/
theorem responses_report {m : Membership} {trace : Cluster.History} {c : Cluster}
    (hrun : Cluster.Run m .initial trace c) {e : Envelope} (he : e ∈ c.network)
    {sr : ServerResponse} (hmsg : e.msg = .serverResponse sr) :
    ∃ cr, e.cause = some (.clientRequest cr) ∧ Cluster.Requested trace cr ∧
      cr.inbox = some e.dst ∧
      (sr.status = 0 ∧ sr.resp = [] ∨
        sr.status = 1 ∧ ∃ log, log <+: (c.servers sr.leader).log ∧
          (∃ register, Calc.replay log = .ok register ∧ sr.resp = register.getResult) ∧
          (cr.cmd ≠ [] → ∃ el, log.getLast? = some el ∧ el.2 = cr.cmd)) :=
  Cluster.reported_run hrun he hmsg

/-- The response to the one command of a run. -/
theorem responses_report_replication :
    let c := finalState (Cluster.next Schedule.trio) .initial Schedule.replication
    ∃ log, log <+: (c.servers (bytes "server1")).log ∧
      ∃ el, log.getLast? = some el ∧ el.2 = bytes "ADD;5" := by
  intro c
  let cr : ClientRequest := ⟨some (.client 0), bytes "ADD;5"⟩
  obtain ⟨cr', hcause, -, -, hreport⟩ := responses_report (c := c) (run_of_isOk (by decide))
    (e := ⟨some (bytes "server1"), some (.clientRequest cr), .client 0,
      .serverResponse ⟨1, bytes "5", bytes "server1"⟩⟩) (by decide) rfl
  obtain rfl : cr = cr' := Msg.clientRequest.inj (Option.some.inj hcause)
  rcases hreport with ⟨hstatus, -⟩ | ⟨-, log, hlog, -, hlast⟩
  · exact absurd hstatus (by decide)
  · exact ⟨log, hlog, hlast (by decide)⟩

end RaftConsensus
