import RaftConsensus.Replication
import RaftConsensus.SelfElection

/-!
# Split brain

Servers that elect themselves can lead at the same time, each of them accepts commands and answers
them at once, and no log is ever shortened. So a command that is acknowledged can be missing from
the log of a later leader (`acknowledged_lost`), and two leaders of one term that have accepted
different commands disagree on their first entry in every state that follows (`splits_forever`):
no run brings their logs together again.
-/

set_option autoImplicit false
set_option relaxedAutoImplicit false

namespace RaftConsensus

open TransitionSystem

/-- A leader that accepts a command appends it to its log and answers it. -/
theorem Server.InOffice.act_request {s : Server} (h : s.InOffice) {cmd : ByteString}
    {register : Calc} (hcmd : cmd ≠ []) (hparse : s.register.parse cmd = .ok register)
    (mbox : Mbox) : s.act (.handle (.clientRequest ⟨some mbox, cmd⟩)) =
      .ok ({ s with log := s.log ++ [(s.term, cmd)], register,
                    file := some (writeLogTo (s.log ++ [(s.term, cmd)])) },
        [(mbox, .serverResponse ⟨1, register.getResult, s.name⟩)]) := by
  have hlength : cmd.length ≠ 0 := mt List.length_eq_zero_iff.mp hcmd
  simp only [act, h.2, if_true, handle, h.1, leaderClientRequestHandler, acceptCommand,
    if_pos hlength, hparse, send, bind, Except.bind, pure, Except.pure]

namespace Cluster

variable {m : Membership} {c c' : Cluster} {before trace : History} {name : ByteString}
  {cmd : ByteString} {register : Calc} {mbox : Mbox}

/-- A transition in which a leader in a term accepts its first command and answers it. -/
structure AcceptsFirst (name : ByteString) (term : ℤ) (cmd : ByteString) (register : Calc)
    (mbox : Mbox) (t : Transition Cluster Action) : Prop where
  stimulus : t.action.stimulus = some (name, .handle (.clientRequest ⟨some mbox, cmd⟩))
  answer : outputs name t = [(mbox, .serverResponse ⟨1, register.getResult, name⟩)]
  term_eq : (t.source.servers name).term = term
  office : (t.target.servers name).InOffice
  log : (t.target.servers name).log = [(term, cmd)]

/-- A server that has done nothing can lead in any term and accept a command, while the others stay
as they are. -/
theorem exists_acceptsFirst (hrun : Run m initial before c) (hname : name ∈ m.names)
    (hfresh : c.servers name = .initial name) (hcmd : cmd ≠ [])
    (hparse : Calc.initial.parse cmd = .ok register) (mbox : Mbox) (k : ℕ) :
    ∃ trace t, Run m c (trace ++ [t]) t.target ∧ AcceptsFirst name (k + 1) cmd register mbox t ∧
      ∀ other, other ≠ name → t.target.servers other = c.servers other := by
  obtain ⟨s₁, hs₁, hoffice, hterm, hlog, hregister⟩ := Server.attains_office_in_term hname k
  obtain ⟨c₁, hsolo, rfl⟩ := hs₁ c hfresh
  obtain ⟨trace, hc₁, -⟩ := id hsolo
  have hself : (c₁.servers name).name = name :=
    (coherent_initial.run (hrun.append hc₁)).name_eq name
  rw [← hregister] at hparse
  have hact := hoffice.act_request hcmd hparse mbox
  rw [hself, hlog, hterm, List.nil_append] at hact
  let e : Envelope := ⟨none, none, .server name, .clientRequest ⟨some mbox, cmd⟩⟩
  let c₂ : Cluster := { c₁ with network := c₁.network ++ [e] }
  have hpost : Step m c₁ (.post name e.msg) c₂ := step_post hname trivial
  have hposted := hc₁.snoc hpost
  have harrived : e ∈ c₂.network := List.mem_append_right _ (List.mem_singleton_self _)
  have hdelivers := step_deliver hname harrived rfl hact
  refine ⟨_, _, hposted.snoc hdelivers, ⟨rfl, ?_, hterm, ?_, ?_⟩, fun other hother ↦ ?_⟩
  · rw [outputs_of_stimulus rfl]
    exact Server.outputs_of_act hact
  · rw [updated_servers_self]
    exact hoffice
  · rw [updated_servers_self]
  · rw [updated_servers_of_ne hother]
    exact hsolo.others hother

/-- No run shortens a log. -/
theorem logs_isPrefix_run (hrun : Run m c trace c') (name : ByteString) :
    (c.servers name).log <+: (c'.servers name).log := by
  induction hrun with
  | nil => exact List.prefix_rfl
  | snoc _ hstep ih => exact ih.trans (logs_isPrefix hstep name)

/-- An entry stays where it is. -/
theorem getElem?_log_run (hrun : Run m c trace c') {k : ℕ} {el : Entry}
    (hel : (c.servers name).log[k]? = some el) : (c'.servers name).log[k]? = some el := by
  obtain ⟨later, hlater⟩ := logs_isPrefix_run hrun name
  rw [← hlater, List.getElem?_append_left (List.getElem?_eq_some_iff.mp hel).1]
  exact hel

end Cluster

/-- In every cluster, for any two of its servers, there is a run in which the one acknowledges a
command as leader and the other leads in a later term with an empty log. -/
theorem acknowledged_lost {m : Membership} {first second : ByteString} (hfirst : first ∈ m.names)
    (hsecond : second ∈ m.names) (hne : first ≠ second) {cmd : ByteString} (hcmd : cmd ≠ [])
    {register : Calc} (hparse : Calc.initial.parse cmd = .ok register) (mbox : Mbox) :
    ∃ before t after c, Cluster.Run m .initial (before ++ t :: after) c ∧
      t.action.stimulus = some (first, .handle (.clientRequest ⟨some mbox, cmd⟩)) ∧
      Cluster.outputs first t = [(mbox, .serverResponse ⟨1, register.getResult, first⟩)] ∧
      (c.servers second).InOffice ∧
      (t.source.servers first).term < (c.servers second).term ∧ (c.servers second).log = [] := by
  obtain ⟨before, t, hbefore, haccepts, hothers⟩ :=
    Cluster.exists_acceptsFirst .nil hfirst rfl hcmd hparse mbox 0
  have hconstructed : t.target.servers second = .initial second := hothers second hne.symm
  obtain ⟨s₂, hs₂, hoffice, hterm, hlog, -⟩ := Server.attains_office_in_term hsecond 1
  obtain ⟨c, ⟨after, hafter, -⟩, rfl⟩ := hs₂ _ hconstructed
  have hrun := hbefore.append hafter
  rw [List.append_assoc, List.singleton_append] at hrun
  refine ⟨before, t, after, c, hrun, haccepts.stimulus, haccepts.answer, hoffice, ?_, hlog⟩
  rw [hterm, haccepts.term_eq]
  norm_num

/-- The first of three servers acknowledges a command, and the second leads later without it. -/
theorem acknowledged_lost_trio : ∃ before t after c,
    Cluster.Run Schedule.trio .initial (before ++ t :: after) c ∧
      t.action.stimulus =
        some (bytes "server1", .handle (.clientRequest ⟨some (.client 0), bytes "ADD;1"⟩)) ∧
      Cluster.outputs (bytes "server1") t =
        [(.client 0, .serverResponse ⟨1, bytes "1", bytes "server1"⟩)] ∧
      (c.servers (bytes "server2")).InOffice ∧
      (t.source.servers (bytes "server1")).term < (c.servers (bytes "server2")).term ∧
      (c.servers (bytes "server2")).log = [] :=
  acknowledged_lost (by decide) (by decide) (by decide) (by decide)
    (show Calc.initial.parse (bytes "ADD;1") = .ok ⟨1⟩ by rfl) (.client 0)

/-- In every cluster, for any two of its servers and any two commands, there is a run in which both
servers lead in the same term, each acknowledges one of the commands, and in every state that
follows the two commands are the first entries of their logs. -/
theorem splits_forever {m : Membership} {first second : ByteString} (hfirst : first ∈ m.names)
    (hsecond : second ∈ m.names) (hne : first ≠ second) {cmd cmd' : ByteString} (hcmd : cmd ≠ [])
    (hcmd' : cmd' ≠ []) {register register' : Calc}
    (hparse : Calc.initial.parse cmd = .ok register)
    (hparse' : Calc.initial.parse cmd' = .ok register') (mbox : Mbox) :
    ∃ trace t u c, Cluster.Run m .initial trace c ∧ t ∈ trace ∧ u ∈ trace ∧
      Cluster.AcceptsFirst first 1 cmd register mbox t ∧
      Cluster.AcceptsFirst second 1 cmd' register' mbox u ∧
      (c.servers first).InOffice ∧ (c.servers second).InOffice ∧
      ∀ later c', Cluster.Run m c later c' →
        (c'.servers first).log[0]? = some (1, cmd) ∧
        (c'.servers second).log[0]? = some (1, cmd') := by
  obtain ⟨before, t, hbefore, haccepts, hothers⟩ :=
    Cluster.exists_acceptsFirst .nil hfirst rfl hcmd hparse mbox 0
  obtain ⟨after, u, hafter, haccepts', hothers'⟩ :=
    Cluster.exists_acceptsFirst hbefore hsecond (hothers second hne.symm) hcmd' hparse' mbox 0
  have hsame := hothers' first hne
  refine ⟨_, t, u, u.target, hbefore.append hafter, by simp, by simp, haccepts, haccepts',
    hsame ▸ haccepts.office, haccepts'.office, fun later c' hlater ↦ ⟨?_, ?_⟩⟩
  · refine Cluster.getElem?_log_run hlater ?_
    rw [hsame, haccepts.log]
    rfl
  · refine Cluster.getElem?_log_run hlater ?_
    rw [haccepts'.log]
    rfl

/-- Two of three servers lead in term `1` and never agree on their first command. -/
theorem splits_forever_trio : ∃ c : Cluster,
    (c.servers (bytes "server1")).InOffice ∧ (c.servers (bytes "server2")).InOffice ∧
      ∀ later c', Cluster.Run Schedule.trio c later c' →
        (c'.servers (bytes "server1")).log[0]? = some (1, bytes "ADD;1") ∧
        (c'.servers (bytes "server2")).log[0]? = some (1, bytes "ADD;2") := by
  have hfirst : bytes "server1" ∈ Schedule.trio.names := by decide
  have hsecond : bytes "server2" ∈ Schedule.trio.names := by decide
  obtain ⟨-, -, -, c, -, -, -, -, -, hleads, hleads', hforever⟩ :=
    splits_forever hfirst hsecond (by decide) (by decide) (by decide)
      (show Calc.initial.parse (bytes "ADD;1") = .ok ⟨1⟩ by rfl)
      (show Calc.initial.parse (bytes "ADD;2") = .ok ⟨2⟩ by rfl) (.client 0)
  exact ⟨c, hleads, hleads', hforever⟩

end RaftConsensus
