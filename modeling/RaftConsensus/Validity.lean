import RaftConsensus.Model.Outputs
import RaftConsensus.TermDiscipline

/-!
# Every entry was created by a leader

`Cluster.Created` is the event that a server in the leader state has handled a client request
with a nonempty command in a term. `Cluster.allValid_run` follows entries from their creation
through logs, payloads and other logs: every entry of a log and of a message in flight was created,
in the term it carries, earlier in the run.

A leader has reached term `1`, and no entry has an empty command. So `Calc::parse` is never called
with the empty string, the only one whose `tokens[0]` is out of range
(`parse_eq_tokensIndex_zero_iff`).
-/

set_option autoImplicit false
set_option relaxedAutoImplicit false

namespace RaftConsensus

open TransitionSystem

namespace Server

variable {s s' : Server} {x : Stimulus} {out : List Output}

/-- The commands that a stimulus passes to `Calc::parse`: those of the entries of an accepted
message, and that of a request a leader accepts. -/
def Parses (s : Server) (x : Stimulus) (cmd : ByteString) : Prop :=
  (∃ ae, s.Accepts x ae ∧ cmd ∈ ae.entries.map Prod.snd) ∨ s.Creates x cmd

/-- A fault in the loop over the entries is one of `Calc::parse` on the command of an entry. -/
theorem appendEntries_eq_error {entries : List Entry} {halt : Halt}
    (h : s.appendEntries entries = .error halt) :
    ∃ register : Calc, ∃ cmd ∈ entries.map Prod.snd, ∃ fault,
      halt = .parse cmd fault ∧ register.parse cmd = .error fault := by
  induction entries generalizing s with
  | nil => simp [appendEntries] at h
  | cons el rest ih =>
    cases hparse : s.register.parse el.2 with
    | error fault =>
      simp only [appendEntries, hparse, Except.error.injEq] at h
      exact ⟨s.register, el.2, by simp, fault, h.symm, hparse⟩
    | ok register =>
      simp only [appendEntries, hparse] at h
      obtain ⟨register, cmd, hcmd, hfault⟩ := ih h
      exact ⟨register, cmd, by simp only [List.map_cons, List.mem_cons, hcmd, or_true], hfault⟩

/-- Accepting a message calls `Calc::parse` on the commands of its entries. -/
theorem acceptEntries_eq_parse_error {ae : AppendEntry} {cmd : ByteString} {fault : ParseFault}
    (h : s.acceptEntries ae = .error (.parse cmd fault)) :
    cmd ∈ ae.entries.map Prod.snd ∧ ∃ register : Calc, register.parse cmd = .error fault := by
  simp only [acceptEntries, except_bind_eq_error_iff, send_ne_parse_error, false_or, pure,
    Except.pure, reduceCtorEq, and_false, exists_false, or_false] at h
  obtain ⟨_, -, hentries⟩ := h
  obtain ⟨register, _, hcmd, _, hhalt, hfault⟩ := appendEntries_eq_error hentries
  obtain ⟨rfl, rfl⟩ := Halt.parse.inj hhalt
  exact ⟨hcmd, register, hfault⟩

/-- Handling an `AppendEntry` ends in a fault of `Calc::parse` only when it is accepted. -/
theorem heartbeatHandler_eq_parse_error {ae : AppendEntry} {cmd : ByteString} {fault : ParseFault}
    (hidle : s.agent = .idle) (h : s.heartbeatHandler ae = .error (.parse cmd fault)) :
    s.Parses (.handle (.appendEntry ae)) cmd ∧
      ∃ register : Calc, register.parse cmd = .error fault := by
  unfold heartbeatHandler at h
  split_ifs at h with hterm hfollower
  · obtain ⟨hcmd, hfault⟩ := acceptEntries_eq_parse_error h
    exact ⟨Or.inl ⟨ae, Or.inl ⟨rfl, hidle, hfollower, hterm⟩, hcmd⟩, hfault⟩
  · simp [except_bind_eq_error_iff, send_ne_parse_error, pure, Except.pure] at h

/-- Handling a client request ends in a fault of `Calc::parse` only when a leader accepts it. -/
theorem leaderClientRequestHandler_eq_parse_error {cr : ClientRequest} {cmd : ByteString}
    {fault : ParseFault} (hidle : s.agent = .idle) (hrole : s.role = .leader)
    (h : s.leaderClientRequestHandler cr = .error (.parse cmd fault)) :
    s.Parses (.handle (.clientRequest cr)) cmd ∧
      ∃ register : Calc, register.parse cmd = .error fault := by
  simp only [leaderClientRequestHandler, except_bind_eq_error_iff, send_ne_parse_error, pure,
    Except.pure, reduceCtorEq, and_false, exists_false, or_false] at h
  unfold acceptCommand at h
  split_ifs at h with hlength
  cases hparse : s.register.parse cr.cmd with
  | ok register => simp [hparse] at h
  | error reason =>
    simp only [hparse, Except.error.injEq, Halt.parse.injEq] at h
    obtain ⟨rfl, rfl⟩ := h
    exact ⟨Or.inr ⟨⟨cr.inbox, rfl⟩, hidle, hrole, mt List.length_eq_zero_iff.mpr hlength⟩,
      s.register, hparse⟩

/-- Handling a message ends in a fault of `Calc::parse` only on a command that it parses. -/
theorem handle_eq_parse_error {msg : Msg} {cmd : ByteString} {fault : ParseFault}
    (hidle : s.agent = .idle) (h : s.handle msg = .error (.parse cmd fault)) :
    s.Parses (.handle msg) cmd ∧ ∃ register : Calc, register.parse cmd = .error fault := by
  cases msg with
  | appendEntry ae =>
    cases hrole : s.role <;> simp only [handle, hrole, reduceCtorEq] at h
    all_goals exact heartbeatHandler_eq_parse_error hidle h
  | clientRequest cr =>
    cases hrole : s.role <;> simp only [handle, hrole, reduceCtorEq] at h
    case leader => exact leaderClientRequestHandler_eq_parse_error hidle hrole h
    case follower =>
      simp [followerClientRequestHandler, except_bind_eq_error_iff, send_ne_parse_error, pure,
        Except.pure] at h
  | requestVote rv =>
    cases hrole : s.role <;> simp only [handle, hrole, reduceCtorEq] at h
    all_goals
      unfold requestVoteHandler at h
      split_ifs at h
      simp [except_bind_eq_error_iff, send_ne_parse_error, pure, Except.pure] at h
  | appendEntryResult aer => cases hrole : s.role <;> simp [handle, hrole] at h
  | _ => simp [handle] at h

/-- The end of an `on_enter` handler ends in a fault of `Calc::parse` only when a message is
accepted there. -/
theorem resume_eq_parse_error {cmd : ByteString} {fault : ParseFault}
    (h : s.resume = .error (.parse cmd fault)) :
    s.Parses .resume cmd ∧ ∃ register : Calc, register.parse cmd = .error fault := by
  unfold resume at h
  cases hagent : s.agent with
  | followerUnlock handling =>
    cases handling with
    | none => simp [hagent, pure, Except.pure] at h
    | some ae =>
      simp only [hagent, except_bind_eq_error_iff, pure, Except.pure, reduceCtorEq, and_false,
        exists_false, or_false] at h
      obtain ⟨hcmd, hfault⟩ := acceptEntries_eq_parse_error h
      exact ⟨Or.inl ⟨ae, Or.inr ⟨rfl, hagent⟩, hcmd⟩, hfault⟩
  | followerLock handling | leaderLock =>
    simp only [hagent] at h
    split_ifs at h
    exact absurd h (by simp)
  | idle | leaderUnlock | leaderThread => simp [hagent] at h

/-- The sender loops do not parse commands. -/
theorem heartbeatSend_ne_parse_error {i : ℕ} {peer : ByteString} {garbage : ℤ} {cmd : ByteString}
    {fault : ParseFault} : s.heartbeatSend i peer garbage ≠ .error (.parse cmd fault) := by
  unfold heartbeatSend sendHeartbeatTo
  split <;> (try split_ifs) <;>
    simp [except_bind_eq_error_iff, send_ne_parse_error, pure, Except.pure]

/-- A step ends in a fault of `Calc::parse` only on a command that it parses. -/
theorem act_eq_parse_error {cmd : ByteString} {fault : ParseFault}
    (h : s.act x = .error (.parse cmd fault)) :
    s.Parses x cmd ∧ ∃ register : Calc, register.parse cmd = .error fault := by
  cases x with
  | handle msg =>
    simp only [act] at h
    split_ifs at h with hidle
    · exact handle_eq_parse_error hidle h
    · simp at h
  | timeLimit =>
    simp only [act, timeLimit] at h
    cases hrole : s.role <;> simp only [hrole] at h <;> split_ifs at h <;> simp at h
  | resume => exact resume_eq_parse_error h
  | heartbeatStep i =>
    simp only [act, heartbeatStep] at h
    split at h <;> (try split_ifs at h) <;> simp at h
  | heartbeatSend i peer garbage => exact absurd h heartbeatSend_ne_parse_error
  | requestVoteStep i =>
    simp only [act, requestVoteStep] at h
    split at h <;> simp at h
  | requestVoteSend i peer =>
    simp only [act, requestVoteSend] at h
    split at h <;> (try split_ifs at h) <;>
      simp [except_bind_eq_error_iff, send_ne_parse_error, pure, Except.pure] at h

end Server

namespace Cluster

variable {m : Membership} {c c' : Cluster} {a : Action} {trace : History}

/-- A server in the leader state has handled a client request with a nonempty command in a
term. -/
def Created (trace : History) (term : ℤ) (cmd : ByteString) : Prop :=
  ∃ t ∈ trace, ∃ name x, t.action.stimulus = some (name, x) ∧
    (t.source.servers name).Creates x cmd ∧ (t.source.servers name).term = term

/-- What was created stays created. -/
theorem Created.mono {term : ℤ} {cmd : ByteString} (h : Created trace term cmd)
    (later : History) : Created (trace ++ later) term cmd := by
  obtain ⟨t, ht, hcreates⟩ := h
  exact ⟨t, List.mem_append_left _ ht, hcreates⟩

/-- An entry is valid: it has a positive term and a nonempty command, and was created. -/
def Valid (trace : History) (el : Entry) : Prop :=
  1 ≤ el.1 ∧ el.2 ≠ [] ∧ Created trace el.1 el.2

/-- What is valid stays valid. -/
theorem Valid.mono {el : Entry} (h : Valid trace el) (later : History) :
    Valid (trace ++ later) el :=
  ⟨h.1, h.2.1, h.2.2.mono later⟩

/-- The entries of all logs and of all messages in flight are valid. -/
structure AllValid (trace : History) (c : Cluster) : Prop where
  log : ∀ name, ∀ el ∈ (c.servers name).log, Valid trace el
  message : ∀ ae, c.Carries ae → ∀ el ∈ ae.entries, Valid trace el

/-- Every step keeps the entries valid. -/
theorem AllValid.step (h : AllValid trace c) (hc : TermDiscipline m c) (hstep : Step m c a c') :
    AllValid (trace ++ [⟨c, a, c'⟩]) c' where
  log name el hel := by
    rcases (step_effect hstep).server name with hsame | ⟨x, out, hx, havailable, heffect⟩
    · rw [hsame] at hel
      exact (h.log name el hel).mono _
    · rcases heffect.log_cases with hlog | ⟨cmd, hcreates, hlog, -⟩ | ⟨ae, haccepts, hlog, -⟩
      · rw [hlog] at hel
        exact (h.log name el hel).mono _
      · rw [hlog, List.mem_append, List.mem_singleton] at hel
        rcases hel with hold | rfl
        · exact (h.log name el hold).mono _
        · refine ⟨hc.votes.leader name hcreates.2.2.1, hcreates.2.2.2, ⟨c, a, c'⟩, by simp, name, x,
            hx, hcreates, rfl⟩
      · rw [hlog, List.mem_append] at hel
        rcases hel with hold | hnew
        · exact (h.log name el hold).mono _
        · exact (h.message ae (carries_of_accepts havailable haccepts) el hnew).mono _
  message ae hcarries el hel := by
    rcases carries_cases hstep hcarries with hold | ⟨name, i, peer, garbage, -, -, rfl, -, -⟩
    · exact (h.message ae hold el hel).mono _
    · exact (h.log name el (Server.mem_log_of_mem_heartbeatFor hel)).mono _

/-- In every state of a run the entries of all logs and messages are valid. -/
theorem allValid_run (hrun : Run m initial trace c) : AllValid trace c := by
  induction hrun with
  | nil =>
    constructor
    · intro name el hel
      simp [initial, Server.initial] at hel
    · rintro ae (⟨e, he, -⟩ | ⟨name, hpending⟩)
      · simp [initial] at he
      · simp [initial, Server.initial, Server.pending] at hpending
  | snoc hrest hstep ih => exact ih.step (termDiscipline_initial.run hrest) hstep

/-- The commands that an enabled action passes to `Calc::parse` are not empty. -/
theorem AllValid.parses_ne_nil (h : AllValid trace c) {name : ByteString} {x : Stimulus}
    {cmd : ByteString} (havailable : c.Available name x) (hparses : (c.servers name).Parses x cmd) :
    cmd ≠ [] := by
  rcases hparses with ⟨ae, haccepts, hcmd⟩ | hcreates
  · obtain ⟨el, hel, rfl⟩ := List.mem_map.mp hcmd
    exact (h.message ae (carries_of_accepts havailable haccepts) el hel).2.1
  · exact hcreates.2.2.2

/-- An action ends in a fault of `Calc::parse` only on a command that its stimulus parses. -/
theorem next_eq_parse_error {cmd : ByteString} {fault : ParseFault}
    (h : c.next m a = .error (.parse cmd fault)) :
    ∃ name x, a.stimulus = some (name, x) ∧ (c.servers name).Parses x cmd ∧
      ∃ register : Calc, register.parse cmd = .error fault := by
  obtain ⟨name, x, hx, hact⟩ := act_of_next_error h (by simp)
  exact ⟨name, x, hx, Server.act_eq_parse_error hact⟩

end Cluster

/-- Every entry of a log, and of an `AppendEntry` in flight, has a term of at least `1` and a
nonempty command, and was created earlier in the run by a server that handled a client request
with this command in the leader state and in this term, as long as no term overflows its `int`.
Every command that an action can pass to `Calc::parse` is therefore nonempty and has a first token,
and no action ends by indexing `tokens[0]` out of range. -/
theorem validity {m : Membership} {trace : Cluster.History} {c : Cluster}
    (hrun : Cluster.Run m .initial trace c) :
    (∀ name, ∀ el ∈ (c.servers name).log,
        1 ≤ el.1 ∧ el.2 ≠ [] ∧ Cluster.Created trace el.1 el.2) ∧
      (∀ e ∈ c.network, ∀ ae, e.msg = .appendEntry ae → ∀ el ∈ ae.entries,
        1 ≤ el.1 ∧ el.2 ≠ [] ∧ Cluster.Created trace el.1 el.2) ∧
      (∀ a name x cmd, a.stimulus = some (name, x) → c.next m a ≠ .error .disabled →
        (c.servers name).Parses x cmd → cmd ≠ [] ∧ getlines 59 cmd ≠ []) ∧
      ∀ a cmd, c.next m a ≠ .error (.parse cmd (.tokensIndex 0)) := by
  have hvalid := Cluster.allValid_run hrun
  have hparses : ∀ a name x cmd, a.stimulus = some (name, x) → c.next m a ≠ .error .disabled →
      (c.servers name).Parses x cmd → cmd ≠ [] := fun a name x cmd hx henabled hparse ↦
    hvalid.parses_ne_nil (Cluster.next_of_stimulus hx henabled).2.1 hparse
  refine ⟨hvalid.log, fun e he ae hmsg ↦ hvalid.message ae (Or.inl ⟨e, he, hmsg⟩),
    fun a name x cmd hx henabled hparse ↦ ?_, fun a cmd hfault ↦ ?_⟩
  · have hcmd := hparses a name x cmd hx henabled hparse
    exact ⟨hcmd, mt getlines_eq_nil_iff.mp hcmd⟩
  · obtain ⟨name, x, hx, hparse, register, hparseFault⟩ := Cluster.next_eq_parse_error hfault
    have henabled : c.next m a ≠ .error .disabled := by simp [hfault]
    have hempty := Calc.parse_eq_tokensIndex_zero_iff.mp hparseFault
    exact hparses a name x cmd hx henabled hparse hempty

/-- A command in the log of a follower was created by a leader. -/
theorem validity_replication :
    let trace := history (Cluster.next Schedule.trio) .initial Schedule.replication
    let c := finalState (Cluster.next Schedule.trio) .initial Schedule.replication
    (1, bytes "ADD;5") ∈ (c.servers (bytes "server2")).log ∧
      Cluster.Created trace 1 (bytes "ADD;5") := by
  intro trace c
  have hlog : (1, bytes "ADD;5") ∈ (c.servers (bytes "server2")).log := by decide
  exact ⟨hlog, ((validity (run_of_isOk (by decide))).1 _ _ hlog).2.2⟩

end RaftConsensus
