import RaftConsensus.Events
import RaftConsensus.Library.ReplicatedLog

/-!
# Replication as copying between logs

The logs of the servers as append-only replicated logs. A leader that accepts a command creates an
entry, and a server that accepts an `AppendEntry` copies a stretch of the log of the leader that
sent it: `Payloads` shows that the entries of a message in flight stand in this log, from
`prev_log_index` on, after an entry of the term `prev_log_term`.

`cellEvent` reads the event off a transition, with every created entry labelled with its leader and
its index there, and `cells` are the labelled logs after a history. `cells_entry` shows that the
logs of the servers are these, with the labels removed, so that the label of an entry tells where
it comes from.
-/

set_option autoImplicit false
set_option relaxedAutoImplicit false

namespace RaftConsensus

open TransitionSystem
open ReplicatedLog (Event Cell Logs stretch replay)

/-! ### Payloads -/

/-- A message carries a stretch of a log, with the index at which it begins and the term of the
entry before it. -/
def PayloadOf (log : List Entry) (ae : AppendEntry) : Prop :=
  ∃ front : List Entry, ae.prevLogIndex = front.length ∧ front ++ ae.entries <+: log ∧
    ∀ el ∈ front.getLast?, el.1 = ae.prevLogTerm

/-- A stretch of a log is one of a longer log. -/
theorem PayloadOf.mono {log longer : List Entry} {ae : AppendEntry} (h : PayloadOf log ae)
    (hlonger : log <+: longer) : PayloadOf longer ae := by
  obtain ⟨front, hindex, hle, hterm⟩ := h
  exact ⟨front, hindex, hle.trans hlonger, hterm⟩

/-- A heartbeat that is not empty carries a stretch of the log. -/
theorem payloadOf_heartbeatFor {s : Server} {k garbage : ℤ}
    (h : (s.heartbeatFor k garbage).entries ≠ []) : PayloadOf s.log (s.heartbeatFor k garbage) := by
  unfold Server.heartbeatFor Server.suffixFrom at h ⊢
  split_ifs at h ⊢ with hlog hk
  · obtain ⟨k, rfl⟩ := Int.eq_ofNat_of_zero_le hk
    have hlt : k < s.log.length := by
      by_contra hge
      simp [List.drop_eq_nil_of_le (not_lt.mp hge)] at h
    refine ⟨s.log.take k, by simp [hlt.le], by simp, fun el hel ↦ ?_⟩
    rw [List.getLast?_take] at hel
    split_ifs at hel with hzero
    · simp at hel
    · have hprevious : s.log[k - 1]? = some el := by
        cases hget : s.log[k - 1]? with
        | none => simp at hget; omega
        | some el' => simpa [hget] using hel
      have hindex : (((k : ℕ) : ℤ) - 1).toNat = k - 1 := by omega
      have hnonneg : (0 : ℤ) ≤ (k : ℤ) - 1 := by omega
      rw [Server.termAt, if_pos hnonneg, hindex, hprevious]
      rfl
  · simp at h
  · simp at h

/-- The stretch that a message carries. -/
theorem PayloadOf.stretch_eq {log : List Entry} {ae : AppendEntry} (h : PayloadOf log ae) :
    stretch log ae.prevLogIndex.toNat ae.entries.length = ae.entries := by
  obtain ⟨front, hindex, ⟨rest, rfl⟩, -⟩ := h
  simp [stretch, hindex]

namespace Cluster

variable {m : Membership} {c c' : Cluster} {a : Action} {trace : History}
  {t : Transition Cluster Action}

/-- The logs of the servers. -/
def logs (c : Cluster) : Logs ByteString Entry := fun name ↦ (c.servers name).log

/-- Every message in flight that is not empty carries a stretch of the log of its leader. -/
def Payloads (c : Cluster) : Prop :=
  ∀ ae, c.Carries ae → ae.entries ≠ [] → PayloadOf (c.logs ae.leaderId) ae

/-- No step shortens a log. -/
theorem logs_isPrefix (hstep : Step m c a c') (name : ByteString) :
    c.logs name <+: c'.logs name := by
  rcases (step_effect hstep).server name with hsame | ⟨x, out, -, -, heffect⟩
  · rw [logs, logs, hsame]
  · obtain ⟨entries, hlog, -⟩ := heffect.log_append
    exact ⟨entries, hlog.symm⟩

/-- Every step keeps the messages in flight stretches of the logs of their leaders. -/
theorem Payloads.step (h : Payloads c) (hc : Coherent m c) (hstep : Step m c a c') :
    Payloads c' := by
  intro ae hcarries hentries
  rcases carries_cases hstep hcarries with hold | ⟨name, i, peer, garbage, -, -, rfl, hlog, -⟩
  · exact (h ae hold hentries).mono (logs_isPrefix hstep _)
  · rw [logs, Server.heartbeatFor_leaderId, hc.name_eq, hlog]
    exact payloadOf_heartbeatFor hentries

/-- In a run the messages in flight are stretches of the logs of their leaders. -/
theorem payloads_run (hrun : Run m initial trace c) : Payloads c := by
  induction hrun with
  | nil =>
    rintro ae (⟨e, he, -⟩ | ⟨name, hpending⟩)
    · simp [initial] at he
    · simp [initial, Server.initial, Server.pending] at hpending
  | snoc hrest hstep ih => exact ih.step (coherent_initial.run hrest) hstep

/-! ### The labelled logs -/

/-- What a transition does to the logs: a leader creates an entry, or a server copies a stretch of
the log of a leader. -/
def cellEvent (t : Transition Cluster Action) : Option (Event ByteString (Cell ByteString Entry)) :=
  match observe Server.creation t, observe Server.acceptance t with
  | some (name, el), _ => some (.create name ⟨name, (t.source.servers name).log.length, el⟩)
  | none, some (name, ae) =>
    if ae.entries = [] then none
    else some (.copy ae.leaderId name ae.prevLogIndex.toNat ae.entries.length)
  | none, none => none

/-- The logs after a history, each entry labelled with the leader that created it and its index
there. -/
def cells (trace : History) : Logs ByteString (Cell ByteString Entry) :=
  replay (trace.filterMap cellEvent)

/-- No labelled log is shortened. -/
theorem cells_isPrefix (before later : History) (name : ByteString) :
    cells before name <+: cells (before ++ later) name := by
  rw [cells, cells, List.filterMap_append]
  exact ReplicatedLog.replay_isPrefix _ _ name

/-- A created cell is an entry that a leader creates, with its index. -/
theorem cellEvent_eq_create {name : ByteString} {cell : Cell ByteString Entry}
    (h : cellEvent t = some (.create name cell)) :
    observe Server.creation t = some (name, cell.entry) ∧
      cell = ⟨name, (t.source.servers name).log.length, cell.entry⟩ := by
  unfold cellEvent at h
  split at h
  case h_1 creator el acceptance hcreation =>
    obtain ⟨rfl, rfl⟩ := Event.create.inj (Option.some.inj h)
    exact ⟨hcreation, rfl⟩
  case h_2 => split_ifs at h; simp at h
  case h_3 => simp at h

/-- A copied stretch is the payload of a message that a server accepts. -/
theorem cellEvent_eq_copy {source target : ByteString} {start count : ℕ}
    (h : cellEvent t = some (.copy source target start count)) :
    ∃ ae, observe Server.acceptance t = some (target, ae) ∧ ae.entries ≠ [] ∧
      source = ae.leaderId ∧ start = ae.prevLogIndex.toNat ∧ count = ae.entries.length := by
  unfold cellEvent at h
  split at h
  case h_1 => simp at h
  case h_2 follower ae hcreation hacceptance =>
    split_ifs at h with hentries
    obtain ⟨rfl, rfl, rfl, rfl⟩ := Event.copy.inj (Option.some.inj h)
    exact ⟨ae, hacceptance, hentries, rfl, rfl, rfl⟩
  case h_3 => simp at h

/-- The logs after a step that changes one of them. -/
theorem logs_eq_update (hstep : Step m c a c') {name : ByteString} {x : Stimulus}
    (hx : a.stimulus = some (name, x)) :
    c'.logs = Function.update c.logs name (c'.logs name) := by
  funext other
  by_cases hother : other = name
  · subst hother
    rw [Function.update_self]
  · rw [Function.update_of_ne hother]
    rcases (step_effect hstep).server other with hsame | ⟨y, -, hy, -, -⟩
    · rw [logs, logs, hsame]
    · obtain ⟨rfl, -⟩ := Prod.mk.inj (Option.some.inj (hy.symm.trans hx))
      exact absurd rfl hother

/-- Every step has the effect of its event on the logs. -/
theorem logs_step (hpayloads : Payloads c) (hstep : Step m c a c') :
    c'.logs = match cellEvent ⟨c, a, c'⟩ with
      | some event => c.logs.apply (event.map Cell.entry)
      | none => c.logs := by
  cases hcreation : observe Server.creation ⟨c, a, c'⟩ with
  | some creation =>
    obtain ⟨name, el⟩ := creation
    obtain ⟨x, hx, hentry⟩ := observe_eq_some_iff.mp hcreation
    obtain ⟨cmd, hcreates, rfl⟩ := Server.creation_eq_some_iff.mp hentry
    obtain ⟨-, -, out, heffect⟩ := (step_effect hstep).of_stimulus hx
    simp only [cellEvent, hcreation, Event.map, Logs.apply]
    rw [logs_eq_update hstep hx]
    congr 1
    exact heffect.log_of_creates hcreates
  | none =>
    cases hacceptance : observe Server.acceptance ⟨c, a, c'⟩ with
    | some acceptance =>
      obtain ⟨name, ae⟩ := acceptance
      obtain ⟨x, hx, haccepts⟩ := observe_eq_some_iff.mp hacceptance
      have haccepts := Server.acceptance_eq_some_iff.mp haccepts
      obtain ⟨-, havailable, out, heffect⟩ := (step_effect hstep).of_stimulus hx
      have hlog : c'.logs name = c.logs name ++ ae.entries := (heffect.log_of_accepts haccepts).1
      simp only [cellEvent, hcreation, hacceptance]
      split_ifs with hentries
      · rw [logs_eq_update hstep hx, hlog, hentries, List.append_nil, Function.update_eq_self]
      · have hpayload := hpayloads ae (carries_of_accepts havailable haccepts) hentries
        rw [logs_eq_update hstep hx, hlog]
        simp only [Event.map, Logs.apply, hpayload.stretch_eq]
    | none =>
      simp only [cellEvent, hcreation, hacceptance]
      funext name
      rcases (step_effect hstep).server name with hsame | ⟨x, out, hx, -, heffect⟩
      · rw [logs, logs, hsame]
      · rcases heffect.log_cases with hlog | ⟨cmd, hcreates, -, -⟩ | ⟨ae, haccepts, -, -⟩
        · exact hlog
        · have hevent := Server.creation_eq_some_iff.mpr ⟨cmd, hcreates, rfl⟩
          rw [observe_eq_some hx hevent] at hcreation
          simp at hcreation
        · rw [observe_eq_some hx (Server.acceptance_eq_some_iff.mpr haccepts)] at hacceptance
          simp at hacceptance

/-- The logs of the servers are the labelled logs without the labels. -/
theorem cells_entry (hrun : Run m initial trace c) :
    (fun name ↦ (cells trace name).map Cell.entry) = c.logs := by
  induction hrun with
  | nil => rfl
  | @snoc trace middle final action hrest hstep ih =>
    rw [logs_step (payloads_run hrest) hstep, cells, List.filterMap_append]
    cases hevent : cellEvent ⟨middle, action, final⟩ with
    | none => simpa [cells, hevent] using ih
    | some event =>
      rw [List.filterMap_cons_some hevent, List.filterMap_nil, ReplicatedLog.replay_snoc,
        ReplicatedLog.apply_map]
      exact congrArg (Logs.apply · (event.map Cell.entry)) ih

/-- The logs of the servers as a replay of the events with the labels removed. -/
theorem logs_eq_replay (hrun : Run m initial trace c) :
    c.logs = replay ((trace.filterMap cellEvent).map (Event.map Cell.entry)) := by
  rw [ReplicatedLog.replay_map, ← cells_entry hrun]
  rfl

/-- A labelled log has the length of the log. -/
theorem cells_length (hrun : Run m initial trace c) (name : ByteString) :
    (cells trace name).length = (c.servers name).log.length := by
  have hlog : (cells trace name).map Cell.entry = (c.servers name).log :=
    congrFun (cells_entry hrun) name
  rw [← hlog, List.length_map]

/-! ### Conditions on the messages accepted -/

/-- A message with entries is accepted only if they begin where the log of the server ends. -/
def AppendsAtEnd (t : Transition Cluster Action) : Prop :=
  ∀ acceptance ∈ observe Server.acceptance t, acceptance.2.entries = [] ∨
    acceptance.2.prevLogIndex = (t.source.servers acceptance.1).log.length

instance : Decidable (AppendsAtEnd t) := by
  unfold AppendsAtEnd
  infer_instance

/-- The entries that leaders create are labelled with their leader and index. -/
theorem labelled_cellEvent {before : History} (hrun : Run m initial before t.source)
    {event : Event ByteString (Cell ByteString Entry)} (hevent : cellEvent t = some event) :
    ReplicatedLog.Labelled (cells before) event := by
  cases event with
  | create name cell =>
    obtain ⟨-, hcell⟩ := cellEvent_eq_create hevent
    rw [hcell]
    exact ⟨rfl, (cells_length hrun name).symm⟩
  | copy source target start count => trivial

/-- A payload that begins where the log ends is copied to the index it has in the log of its
leader. -/
theorem start_eq_of_appendsAtEnd (happends : AppendsAtEnd t) {source target : ByteString}
    {start count : ℕ} (hevent : cellEvent t = some (.copy source target start count)) :
    start = (t.source.servers target).log.length := by
  obtain ⟨ae, hacceptance, hentries, -, rfl, -⟩ := cellEvent_eq_copy hevent
  rcases happends _ hacceptance with hempty | hindex
  · exact absurd hempty hentries
  · dsimp only at hindex
    omega

end Cluster

end RaftConsensus
