import RaftConsensus.Redirects

/-!
# The program

The function `main` of `main.cpp`. It starts five servers and a client, sends the client the map and
its own mailbox, sends every server the map and `change_state`, in the order in which it iterates
over the map, and then four `deactivate` signals to the second server. It sleeps between these
signals, which is no step here: the agents take their steps at any time, and what `main` still has
to send is its script.

A run of the program is a run of the system whose messages of the environment are those of the
script (`Program.run_system`): the servers, the client and the threads take every step of the system
but a post.
-/

set_option autoImplicit false
set_option relaxedAutoImplicit false

namespace RaftConsensus

open TransitionSystem

/-- The servers that `main` starts. -/
def fiveServers : Membership where
  names := [bytes "server1", bytes "server2", bytes "server3", bytes "server4", bytes "server5"]
  nodup := by decide
  nonempty := by decide

/-- A call of `so_5::send` in `main`: to the client, or to a server. -/
inductive Call
  | client (msg : ClientMsg)
  | server (name : ByteString) (msg : Msg)
  deriving DecidableEq, Repr

/-- The step of the system that a call is. -/
def Call.action : Call → SystemAction
  | .client msg => .post msg
  | .server name msg => .server (.post name msg)

/-- The calls of `main`, given the order in which it iterates over `mboxes`. -/
def script (order : List ByteString) : List Call :=
  [.client (.setCluster fiveServers.setCluster), .client (.setMBox (some System.clientInbox))] ++
    order.flatMap (fun name ↦
      [.server name (.setCluster fiveServers.setCluster), .server name .changeState]) ++
    List.replicate 4 (.server (bytes "server2") .deactivate)

/-- A step of the system that posts a message of `main`. -/
def SystemAction.isPost : SystemAction → Bool
  | .post _ | .server (.post _ _) => true
  | .server (.deliver _ _) | .server (.internal _ _) | .deliver _ | .respond _ | .timeLimit _ =>
    false

/-- The agents, and the calls that `main` still has to make. -/
structure Program where
  system : System
  rest : List Call

/-- A step of the program: `main` makes its next call, or the agents take a step. -/
inductive ProgramAction
  | main
  | agents (a : SystemAction)
  deriving DecidableEq, Repr

namespace Program

/-- The program when it has started the agents. -/
def initial (order : List ByteString) : Program := ⟨.initial, script order⟩

/-- The step function of the program. -/
def next (p : Program) : ProgramAction → Except Halt Program
  | .main =>
    match p.rest with
    | [] => .error .disabled
    | call :: rest => do
      let system ← p.system.next fiveServers call.action
      return ⟨system, rest⟩
  | .agents a =>
    if a.isPost then .error .disabled
    else do
      let system ← p.system.next fiveServers a
      return { p with system }

/-- The step relation of the program. -/
def Step (p : Program) (a : ProgramAction) (p' : Program) : Prop := p.next a = .ok p'

/-- The runs of the program. -/
abbrev Run (order : List ByteString) := TransitionSystem.Run Step (initial order)

/-- The history of a run of the program. -/
abbrev History := List (Transition Program ProgramAction)

variable {p p' : Program} {a : ProgramAction} {order : List ByteString} {trace : History}

/-- A step of the program is the next call of `main`, or a step of the agents. -/
theorem step_cases (h : Step p a p') :
    (∃ call, p.rest = call :: p'.rest ∧ System.Step fiveServers p.system call.action p'.system) ∨
      ∃ b, b.isPost = false ∧ p'.rest = p.rest ∧
        System.Step fiveServers p.system b p'.system := by
  unfold Step next at h
  cases a with
  | main =>
    dsimp only at h
    split at h
    next => simp at h
    next call rest hrest =>
      simp only [except_bind_eq_ok_iff, pure, Except.pure, Except.ok.injEq] at h
      obtain ⟨system, hsystem, rfl⟩ := h
      exact Or.inl ⟨call, hrest, hsystem⟩
  | agents b =>
    dsimp only at h
    split_ifs at h with hpost
    simp only [except_bind_eq_ok_iff, pure, Except.pure, Except.ok.injEq] at h
    obtain ⟨system, hsystem, rfl⟩ := h
    exact Or.inr ⟨b, by simpa using hpost, rfl, hsystem⟩

/-- A run of the program is a run of the system. -/
theorem run_system (hrun : Run order trace p) :
    ∃ past, System.Run fiveServers .initial past p.system := by
  induction hrun with
  | nil => exact ⟨[], .nil⟩
  | snoc _ hstep ih =>
    obtain ⟨past, hpast⟩ := ih
    rcases step_cases hstep with ⟨call, -, hsystem⟩ | ⟨b, -, -, hsystem⟩
    · exact ⟨_, hpast.snoc hsystem⟩
    · exact ⟨_, hpast.snoc hsystem⟩

end Program

end RaftConsensus
