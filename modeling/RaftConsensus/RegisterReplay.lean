import RaftConsensus.Model.StepFacts

/-!
# The register and the file follow the log

A server appends to its log in two places, when a leader accepts a command and when
`heartbeat_handler` accepts the entries of a message. It applies the appended commands to its
register and writes the log to its file right there. `register_eq_replay` shows that the register
is therefore at all times the result of parsing the commands of the log in order, starting from
`0`, in every server and every run, and `file_eq_log` that the file, once it is written, holds the
log line by line.
-/

set_option autoImplicit false
set_option relaxedAutoImplicit false

namespace RaftConsensus

open TransitionSystem

/-- The register of a log: its commands parsed in order, starting from `0`. -/
def Calc.replay (log : List Entry) : Except ParseFault Calc :=
  Calc.initial.parseAll (log.map Prod.snd)

/-- Replaying a longer log goes on where the shorter one ends. -/
theorem Calc.replay_append {log entries : List Entry} {c : Calc} (h : Calc.replay log = .ok c) :
    Calc.replay (log ++ entries) = c.parseAll (entries.map Prod.snd) := by
  unfold replay at h ⊢
  rw [List.map_append, Calc.parseAll_append, h]
  rfl

/-- Every effect keeps the register the replay of the log. -/
theorem Server.Effect.replay {s s' : Server} {x : Stimulus} {out : List Output}
    (h : s.Effect x s' out) (hs : Calc.replay s.log = .ok s.register) :
    Calc.replay s'.log = .ok s'.register := by
  obtain ⟨entries, hlog, hparse⟩ := h.log_append
  rw [hlog, Calc.replay_append hs, hparse]

/-- A run keeps the register of every server the replay of its log. -/
theorem Cluster.replay_run {m : Membership} {trace : History} {c : Cluster}
    (hrun : Run m initial trace c) (name : ByteString) :
    Calc.replay (c.servers name).log = .ok (c.servers name).register := by
  refine server_invariant (fun name ↦ ?_) (fun s x s' out hs heffect ↦ heffect.replay hs) hrun name
  rfl

/-- In every state of every run, the register of every server is the replay of its log. -/
theorem register_eq_replay {m : Membership} {trace : Cluster.History} {c : Cluster}
    (hrun : Cluster.Run m .initial trace c) (name : ByteString) :
    Calc.replay (c.servers name).log = .ok (c.servers name).register :=
  Cluster.replay_run hrun name

/-- A server that has accepted the command of a leader has applied it. -/
theorem register_eq_replay_replication :
    let c := finalState (Cluster.next Schedule.trio) .initial Schedule.replication
    (c.servers (bytes "server2")).log = [(1, bytes "ADD;5")] ∧
      Calc.replay (c.servers (bytes "server2")).log =
        .ok (c.servers (bytes "server2")).register :=
  ⟨by decide, register_eq_replay (run_of_isOk (by decide)) _⟩

/-! ### The file -/

/-- The line of an entry in the file: its term in decimal, a semicolon, its command and a
newline. -/
def Entry.line (el : Entry) : ByteString := toDecimal el.1 ++ bytes ";" ++ el.2 ++ bytes "\n"

/-- The file is not written and the log is empty, or the file holds the lines of the log. -/
def Server.FileMirrorsLog (s : Server) : Prop :=
  (s.file = none ∧ s.log = []) ∨ s.file = some (s.log.map Entry.line).flatten

/-- What `utils::write_log_to` writes are the lines of the log. -/
theorem writeLogTo_eq_lines (log : List Entry) : writeLogTo log = (log.map Entry.line).flatten :=
  List.flatMap_def

/-- Every effect keeps the file in step with the log: what changes the log writes it. -/
theorem Server.Effect.fileMirrorsLog {s s' : Server} {x : Stimulus} {out : List Output}
    (h : s.Effect x s' out) (hs : s.FileMirrorsLog) : s'.FileMirrorsLog := by
  cases h
  case accept | enterAccept | command =>
    right
    exact congrArg some (writeLogTo_eq_lines _)
  case countVote | answerVote => simpa [FileMirrorsLog] using hs
  all_goals exact hs

/-- In every state of every run, a server that has not written its file has an empty log, and the
file of any other holds the lines of its log in order. The file is one that no other server
writes. -/
theorem file_eq_log {m : Membership} {trace : Cluster.History} {c : Cluster}
    (hrun : Cluster.Run m .initial trace c) (name : ByteString) :
    ((c.servers name).file = none ∧ (c.servers name).log = []) ∨
      (c.servers name).file = some ((c.servers name).log.map Entry.line).flatten := by
  have hstart : ∀ name, (Cluster.initial.servers name).FileMirrorsLog := fun _ ↦ Or.inl ⟨rfl, rfl⟩
  exact Cluster.server_invariant hstart
    (fun s x s' out hs heffect ↦ heffect.fileMirrorsLog hs) hrun name

/-- A server that has accepted the command of a leader has written it to its file. -/
theorem file_eq_log_replication :
    let c := finalState (Cluster.next Schedule.trio) .initial Schedule.replication
    (c.servers (bytes "server2")).file ≠ none ∧
      (c.servers (bytes "server2")).file =
        some ((c.servers (bytes "server2")).log.map Entry.line).flatten := by
  intro c
  have hwritten : (c.servers (bytes "server2")).file ≠ none := by decide
  exact ⟨hwritten, (file_eq_log (run_of_isOk (by decide)) _).resolve_left fun h ↦ hwritten h.1⟩

end RaftConsensus
