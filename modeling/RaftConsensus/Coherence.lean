import RaftConsensus.Model.StepFacts

/-!
# What every reachable state keeps

`Cluster.Coherent` collects the facts about names and mailboxes that hold in every state of every
run: a server keeps its name, the mailbox it knows for a name is the mailbox of the member of
that name, `SetCluster` messages in flight carry the whole map, and an `AppendEntry` that a server
still has to accept is not stale.

`Cluster.Carries` says that an `AppendEntry` is in flight, either in a mailbox or in an agent that
has begun to handle it.
-/

set_option autoImplicit false
set_option relaxedAutoImplicit false

namespace RaftConsensus

namespace Cluster

variable {m : Membership} {c c' start : Cluster} {a : Action} {trace : History}

/-! ### Names and mailboxes -/

/-- The names, the mailboxes and the messages being handled are in order. -/
structure Coherent (m : Membership) (c : Cluster) : Prop where
  name_eq : ∀ name, (c.servers name).name = name
  mailbox : ∀ name peer mbox, ((c.servers name).mboxes.get peer).mbox = some mbox →
    peer ∈ m.names ∧ mbox = .server peer
  whole : ∀ e ∈ c.network, ∀ sc, e.msg = .setCluster sc → sc = m.setCluster
  pending : ∀ name ae, (c.servers name).pending = some ae → (c.servers name).term ≤ ae.term

/-- Every `SetCluster` message stays one with the whole map. -/
theorem whole_step (h : ∀ e ∈ c.network, ∀ sc, e.msg = .setCluster sc → sc = m.setCluster)
    (hstep : Step m c a c') :
    ∀ e ∈ c'.network, ∀ sc, e.msg = .setCluster sc → sc = m.setCluster := by
  intro e he sc hmsg
  rcases (step_effect hstep).network he with
      hold | ⟨_, msg, hpostable, rfl⟩ | ⟨_, _, out, -, -, heffect, hsent, -⟩
  · exact h e hold sc hmsg
  · obtain rfl : msg = .setCluster sc := hmsg
    exact hpostable
  · exact absurd hmsg ((heffect.not_sent hsent).1 sc)

/-- The cluster is coherent as it is constructed. -/
theorem coherent_initial : Coherent m initial where
  name_eq _ := rfl
  mailbox name peer mbox h := by simp [initial, Server.initial] at h
  whole e he := by simp [initial] at he
  pending name ae h := by simp [initial, Server.initial, Server.pending] at h

/-- Every step keeps the cluster coherent. -/
theorem Coherent.step (h : Coherent m c) (hstep : Step m c a c') : Coherent m c' where
  name_eq name := by
    rcases (step_effect hstep).server name with hsame | ⟨x, out, -, -, heffect⟩
    · rw [hsame, h.name_eq]
    · rw [heffect.name_eq, h.name_eq]
  mailbox name peer mbox hmbox := by
    rcases (step_effect hstep).server name with hsame | ⟨x, out, -, havailable, heffect⟩
    · rw [hsame] at hmbox
      exact h.mailbox name peer mbox hmbox
    · rcases heffect.mbox hmbox with hold | ⟨sc, rfl, hmap⟩
      · exact h.mailbox name peer mbox hold
      · obtain ⟨e, he, -, hmsg⟩ := havailable _ rfl
        obtain rfl := h.whole e he sc hmsg
        obtain ⟨hmember, hself⟩ := Membership.mem_setCluster.mp hmap
        exact ⟨hmember, Option.some.inj hself⟩
  whole := whole_step h.whole hstep
  pending name ae hpending := by
    rcases (step_effect hstep).server name with hsame | ⟨x, out, -, -, heffect⟩
    · rw [hsame] at hpending ⊢
      exact h.pending name ae hpending
    · rcases heffect.pending hpending with ⟨hold, hterm, -⟩ | ⟨-, hfresh, hterm, -⟩
      · rw [hterm]
        exact h.pending name ae hold
      · rw [hterm]
        exact hfresh

/-- Every state of a run is coherent. -/
theorem Coherent.run (h : Coherent m start) (hrun : Run m start trace c) : Coherent m c :=
  TransitionSystem.Run.invariant h (fun _ _ _ hc hstep ↦ hc.step hstep) hrun

/-! ### Messages in flight -/

/-- An `AppendEntry` is in flight: it waits in a mailbox, or an agent goes on handling it. -/
def Carries (c : Cluster) (ae : AppendEntry) : Prop :=
  (∃ e ∈ c.network, e.msg = .appendEntry ae) ∨ ∃ name, (c.servers name).pending = some ae

/-- A message that a server accepts was in flight. -/
theorem carries_of_accepts {name : ByteString} {x : Stimulus} {ae : AppendEntry}
    (havailable : c.Available name x) (haccepts : (c.servers name).Accepts x ae) :
    c.Carries ae := by
  rcases haccepts with ⟨rfl, -⟩ | ⟨-, hagent⟩
  · obtain ⟨e, he, -, hmsg⟩ := havailable _ rfl
    exact Or.inl ⟨e, he, hmsg⟩
  · exact Or.inr ⟨name, by rw [Server.pending, hagent]⟩

/-- A message in flight after a step was in flight before, or a `send_heartbeat` loop sends it. -/
theorem carries_cases {ae : AppendEntry} (hstep : Step m c a c') (h : c'.Carries ae) :
    c.Carries ae ∨ ∃ name i peer garbage,
      a.stimulus = some (name, .heartbeatSend i peer garbage) ∧ peer ≠ (c.servers name).name ∧
      ae = (c.servers name).heartbeatFor ((c.servers name).mboxes.get peer).nextIndex garbage ∧
      (c'.servers name).log = (c.servers name).log ∧
      (c'.servers name).term = (c.servers name).term := by
  rcases h with ⟨e, he, hmsg⟩ | ⟨name, hpending⟩
  · rcases (step_effect hstep).network_of_server he hmsg id with
        hold | ⟨name, x, out, hx, -, heffect, hsent, -⟩
    · exact Or.inl (Or.inl ⟨e, hold, hmsg⟩)
    · rw [hmsg] at hsent
      obtain ⟨i, peer, garbage, rfl, hpeer, -, hae, hlog, hterm⟩ := heffect.appendEntry_sent hsent
      exact Or.inr ⟨name, i, peer, garbage, hx, hpeer, hae, hlog, hterm⟩
  · left
    rcases (step_effect hstep).server name with hsame | ⟨x, out, -, havailable, heffect⟩
    · rw [hsame] at hpending
      exact Or.inr ⟨name, hpending⟩
    · rcases heffect.pending hpending with ⟨hold, -⟩ | ⟨rfl, -⟩
      · exact Or.inr ⟨name, hold⟩
      · obtain ⟨e, he, -, hmsg⟩ := havailable _ rfl
        exact Or.inl ⟨e, he, hmsg⟩

end Cluster

end RaftConsensus
