import RaftConsensus.Model.Outputs

/-!
# A server by itself

The step function of a server is defined for every stimulus, whatever the other servers do. Its runs
are the behaviour of a server in any environment, in which every message may be delivered at any
time. What a server does in a run of the cluster is one of them (`Cluster.run_server`).
-/

set_option autoImplicit false
set_option relaxedAutoImplicit false

namespace RaftConsensus

open TransitionSystem

namespace Server

/-- The step function of a server that may meet any stimulus. -/
def next (s : Server) (x : Stimulus) : Except Halt Server := (s.act x).map Prod.fst

/-- The step relation of a server by itself. -/
def Step (s : Server) (x : Stimulus) (s' : Server) : Prop := s.next x = .ok s'

/-- The runs of a server by itself. -/
abbrev Run := TransitionSystem.Run Step

/-- The history of a run of a server. -/
abbrev History := List (Transition Server Stimulus)

variable {s s' : Server} {x : Stimulus} {out : List Output}

/-- A step has an outcome of the step function with its outputs. -/
theorem Step.act (h : s.Step x s') : s.act x = .ok (s', s.outputs x) := by
  unfold Step next at h
  cases hact : s.act x with
  | error halt =>
    rw [hact] at h
    cases h
  | ok outcome =>
    rw [hact] at h
    obtain rfl := Except.ok.inj h
    rw [outputs_of_act hact]

/-- An outcome of the step function is a step. -/
theorem step_of_act (h : s.act x = .ok (s', out)) : s.Step x s' := by
  rw [Step, next, h]
  rfl

end Server

namespace Cluster

variable {m : Membership} {c c' : Cluster} {trace : History}

/-- The step of a server in a transition of the cluster. -/
def stepOf (name : ByteString) (t : Transition Cluster Action) :
    Option (Transition Server Stimulus) :=
  match t.action.stimulus with
  | some (actor, x) =>
    if actor = name then some ⟨t.source.servers name, x, t.target.servers name⟩ else none
  | none => none

/-- What a server of a cluster does in a run is a run of the server by itself. -/
theorem run_server (hrun : Run m c trace c') (name : ByteString) :
    Server.Run (c.servers name) (trace.filterMap (stepOf name)) (c'.servers name) := by
  induction hrun with
  | nil => exact TransitionSystem.Run.nil
  | @snoc trace middle final action _ hstep ih =>
    rw [List.filterMap_append]
    by_cases hactor : ∃ x, action.stimulus = some (name, x)
    · obtain ⟨x, hx⟩ := hactor
      obtain ⟨-, -, hact, -⟩ := hstep.act hx
      have hlocal : stepOf name ⟨middle, action, final⟩ =
          some ⟨middle.servers name, x, final.servers name⟩ := by
        simp [stepOf, hx]
      rw [List.filterMap_cons_some hlocal]
      exact ih.snoc (Server.step_of_act hact)
    · have hlocal : stepOf name ⟨middle, action, final⟩ = none := by
        unfold stepOf
        split
        next actor x hx =>
          refine if_neg fun hname ↦ hactor ⟨x, ?_⟩
          rw [← hname]
          exact hx
        next => rfl
      have hsame : final.servers name = middle.servers name :=
        (hstep.act_cases name).resolve_right fun ⟨x, hx, _⟩ ↦ hactor ⟨x, hx⟩
      rw [List.filterMap_cons_none hlocal, hsame]
      simpa using ih

end Cluster

end RaftConsensus
