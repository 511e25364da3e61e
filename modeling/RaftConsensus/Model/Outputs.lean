import RaftConsensus.Model.Effect

/-!
# What a transition sends

`Server.outputs` are the messages that a stimulus makes a server send, and `Cluster.outputs` those
that a server sends in a transition. `Step.act_cases` and `Step.network_eq` say what a step does to
each server and to the messages in flight in terms of `Server.act` itself. They are used where the
list of effects says too little: about the mutex, about the positions of the sender loops, and
about how often a message is in flight.
-/

set_option autoImplicit false
set_option relaxedAutoImplicit false

namespace RaftConsensus

open TransitionSystem

/-- The messages that a stimulus makes a server send, none if it has no effect. -/
def Server.outputs (s : Server) (x : Stimulus) : List Output :=
  match s.act x with
  | .ok (_, out) => out
  | .error _ => []

theorem Server.outputs_of_act {s s' : Server} {x : Stimulus} {out : List Output}
    (h : s.act x = .ok (s', out)) : s.outputs x = out := by
  rw [outputs, h]

/-- The server after a stimulus, unchanged if it has no effect. -/
def Server.after (s : Server) (x : Stimulus) : Server :=
  match s.act x with
  | .ok (s', _) => s'
  | .error _ => s

theorem Server.act_of_isOk {s : Server} {x : Stimulus} (h : (s.act x).isOk) :
    s.act x = .ok (s.after x, s.outputs x) := by
  cases hact : s.act x with
  | error halt => simp [hact, Except.isOk, Except.toBool] at h
  | ok result => simp [Server.after, Server.outputs, hact]

/-- The `AppendEntry` messages among the messages that are sent. -/
def appends (out : List Output) : List (Mbox × AppendEntry) :=
  out.filterMap fun o ↦
    match o.2 with
    | .appendEntry ae => some (o.1, ae)
    | _ => none

theorem mem_appends_iff {out : List Output} {dst : Mbox} {ae : AppendEntry} :
    (dst, ae) ∈ appends out ↔ (dst, .appendEntry ae) ∈ out := by
  simp only [appends, List.mem_filterMap, Prod.exists]
  constructor
  · rintro ⟨dst', msg, hout, hmsg⟩
    split at hmsg
    · simp_all
    · simp at hmsg
  · intro hout
    exact ⟨dst, _, hout, rfl⟩

/-- The message that an action takes out of its mailbox. -/
def Action.delivered : Action → Option Envelope
  | .deliver _ e => some e
  | .post _ _ | .internal _ _ => none

namespace Cluster

variable {m : Membership} {c c' start : Cluster} {a : Action} {name : ByteString} {x : Stimulus}
  {trace : History} {e : Envelope}

/-- The messages that a server sends in a transition, with the mailboxes they are sent to. -/
def outputs (name : ByteString) (t : Transition Cluster Action) : List Output :=
  match t.action.stimulus with
  | some (actor, x) => if actor = name then (t.source.servers name).outputs x else []
  | none => []

theorem outputs_of_stimulus (hx : a.stimulus = some (name, x)) :
    outputs name ⟨c, a, c'⟩ = (c.servers name).outputs x := by
  simp [outputs, hx]

/-- A server sends something only when it meets a stimulus. -/
theorem stimulus_of_mem_outputs {t : Transition Cluster Action} {o : Output}
    (h : o ∈ outputs name t) :
    ∃ x, t.action.stimulus = some (name, x) ∧ o ∈ (t.source.servers name).outputs x := by
  unfold outputs at h
  split at h
  next actor x hx =>
    split_ifs at h with hactor
    · exact ⟨x, hactor ▸ hx, h⟩
    · simp at h
  next => simp at h

/-- The messages that are left in flight when an action has taken out the one it delivers. -/
def withdraw (c : Cluster) (a : Action) : List Envelope :=
  a.delivered.elim c.network c.network.erase

theorem mem_of_mem_withdraw (h : e ∈ c.withdraw a) : e ∈ c.network := by
  unfold withdraw at h
  cases hdelivered : a.delivered with
  | none => simpa [hdelivered] using h
  | some delivered => exact List.mem_of_mem_erase (by simpa [hdelivered] using h)

/-- A message that is not delivered is left in flight as often as before. -/
theorem count_withdraw_of_ne (hne : a.delivered ≠ some e) :
    (c.withdraw a).count e = c.network.count e := by
  unfold withdraw
  cases hdelivered : a.delivered with
  | none => rfl
  | some delivered =>
    rw [hdelivered] at hne
    exact List.count_erase_of_ne fun h ↦ hne (congrArg some h.symm)

/-- What a stimulus of one server does, in terms of the step function of the server. -/
theorem actOn_eq_act {cause : Option Msg} (h : c.actOn name cause x = .ok c') :
    (c.servers name).act x = .ok (c'.servers name, (c.servers name).outputs x) ∧
      (∀ other, other ≠ name → c'.servers other = c.servers other) ∧
      c'.network = c.network ++ ((c.servers name).outputs x).map fun o ↦
        ⟨some name, cause, o.1, o.2⟩ := by
  unfold actOn at h
  cases hact : (c.servers name).act x with
  | error halt => simp [hact] at h
  | ok result =>
    obtain ⟨s, out⟩ := result
    simp only [hact, Except.ok.injEq] at h
    subst h
    rw [Server.outputs_of_act hact]
    exact ⟨by simp, fun other hother ↦ Function.update_of_ne hother .., rfl⟩

/-- A stimulus of one server fails as the step function of the server does. -/
theorem actOn_eq_error_iff {cause : Option Msg} {halt : Halt} :
    c.actOn name cause x = .error halt ↔ (c.servers name).act x = .error halt := by
  unfold actOn
  cases (c.servers name).act x <;> simp

/-- What a stimulus does to the cluster, in terms of the step function of the server. -/
theorem Step.act (h : Step m c a c') (hx : a.stimulus = some (name, x)) :
    name ∈ m.names ∧ c.Available name x ∧
      (c.servers name).act x = .ok (c'.servers name, outputs name ⟨c, a, c'⟩) ∧
      (∀ other, other ≠ name → c'.servers other = c.servers other) ∧
      c'.network = c.withdraw a ++ (outputs name ⟨c, a, c'⟩).map fun o ↦
        ⟨some name, a.delivered.map Envelope.msg, o.1, o.2⟩ := by
  obtain ⟨hname, havailable, -⟩ := (step_effect h).of_stimulus hx
  refine ⟨hname, havailable, ?_⟩
  rw [outputs_of_stimulus hx]
  unfold Step next at h
  rcases Action.stimulus_cases hx with ⟨e, rfl, rfl⟩ | rfl
  · dsimp only at h
    split_ifs at h
    exact actOn_eq_act h
  · dsimp only at h
    split_ifs at h
    exact actOn_eq_act h

/-- An enabled action concerns a member and an available stimulus, and fails as the stimulus
does. -/
theorem next_of_stimulus (hx : a.stimulus = some (name, x))
    (henabled : c.next m a ≠ .error .disabled) :
    name ∈ m.names ∧ c.Available name x ∧
      ∀ halt, c.next m a = .error halt ↔ (c.servers name).act x = .error halt := by
  unfold next at henabled ⊢
  rcases Action.stimulus_cases hx with ⟨e, rfl, rfl⟩ | rfl
  · dsimp only at henabled ⊢
    split_ifs at henabled ⊢ with hdeliver
    · refine ⟨hdeliver.1, fun msg hmsg ↦ ?_, fun halt ↦ actOn_eq_error_iff⟩
      exact ⟨e, hdeliver.2.1, hdeliver.2.2, Stimulus.handle.inj hmsg⟩
    · exact absurd rfl henabled
  · dsimp only at henabled ⊢
    split_ifs at henabled ⊢ with hinternal
    · exact ⟨hinternal.1, available_of_isInternal hinternal.2, fun halt ↦ actOn_eq_error_iff⟩
    · exact absurd rfl henabled

/-- An action that fails although it is enabled has a stimulus that fails. -/
theorem act_of_next_error {halt : Halt} (h : c.next m a = .error halt) (hhalt : halt ≠ .disabled) :
    ∃ name x, a.stimulus = some (name, x) ∧ (c.servers name).act x = .error halt := by
  have henabled : c.next m a ≠ .error .disabled := by
    rw [h]
    exact fun hdisabled ↦ hhalt (Except.error.inj hdisabled)
  cases hx : a.stimulus with
  | none =>
    cases a with
    | post receiver msg =>
      unfold next at h henabled
      dsimp only at h henabled
      split_ifs at h henabled
      exact absurd rfl henabled
    | deliver | internal => simp [Action.stimulus] at hx
  | some actor =>
    obtain ⟨name, x⟩ := actor
    exact ⟨name, x, rfl, ((next_of_stimulus hx henabled).2.2 halt).mp h⟩

/-- What a step does to each server: nothing, or a step of its own. -/
theorem Step.act_cases (h : Step m c a c') (name : ByteString) :
    c'.servers name = c.servers name ∨
      ∃ x, a.stimulus = some (name, x) ∧ c.Available name x ∧
        (c.servers name).act x = .ok (c'.servers name, outputs name ⟨c, a, c'⟩) := by
  rcases (step_effect h).server name with hsame | ⟨x, -, hx, -⟩
  · exact Or.inl hsame
  · obtain ⟨-, havailable, hact, -⟩ := h.act hx
    exact Or.inr ⟨x, hx, havailable, hact⟩

/-- A server that an action does not concern stays as it is and sends nothing; any other takes a
step. -/
theorem Step.effect_cases (h : Step m c a c') (name : ByteString) :
    (c'.servers name = c.servers name ∧ outputs name ⟨c, a, c'⟩ = []) ∨
      ∃ x, a.stimulus = some (name, x) ∧
        (c.servers name).Effect x (c'.servers name) (outputs name ⟨c, a, c'⟩) := by
  by_cases hx : ∃ x, a.stimulus = some (name, x)
  · obtain ⟨x, hx⟩ := hx
    obtain ⟨-, -, hact, -⟩ := h.act hx
    exact Or.inr ⟨x, hx, Server.act_effect hact⟩
  · refine Or.inl ⟨?_, List.eq_nil_iff_forall_not_mem.mpr fun o ho ↦ ?_⟩
    · exact (h.act_cases name).resolve_right fun ⟨x, hx', _⟩ ↦ hx ⟨x, hx'⟩
    · obtain ⟨x, hx', -⟩ := stimulus_of_mem_outputs ho
      exact hx ⟨x, hx'⟩

/-- A server other than the one that meets the stimulus stays as it is and sends nothing. -/
theorem Step.of_ne_actor (h : Step m c a c') {other : ByteString}
    (hx : a.stimulus = some (name, x)) (hne : other ≠ name) :
    c'.servers other = c.servers other ∧ outputs other ⟨c, a, c'⟩ = [] := by
  refine (h.effect_cases other).resolve_right ?_
  rintro ⟨y, hy, -⟩
  exact hne (Prod.mk.inj (Option.some.inj (hy.symm.trans hx))).1

/-- What a step does to the messages in flight: it takes out the one that it delivers, and adds
those that the environment posts or a server sends. -/
theorem Step.network_eq (h : Step m c a c') :
    ∃ fresh, c'.network = c.withdraw a ++ fresh ∧ ∀ e ∈ fresh,
      (∃ receiver msg, a = .post receiver msg ∧ m.Postable msg ∧
        e = ⟨none, none, .server receiver, msg⟩) ∨
      ∃ name, e.sender = some name ∧ (e.dst, e.msg) ∈ outputs name ⟨c, a, c'⟩ := by
  cases hx : a.stimulus with
  | none =>
    have heffect := step_effect h
    cases heffect with
    | post receiver msg _ hpostable =>
      refine ⟨_, rfl, fun e he ↦ ?_⟩
      exact Or.inl ⟨receiver, msg, rfl, hpostable, List.mem_singleton.mp he⟩
    | deliver | internal => simp [Action.stimulus] at hx
  | some actor =>
    obtain ⟨name, x⟩ := actor
    obtain ⟨-, -, -, -, hnetwork⟩ := h.act hx
    refine ⟨_, hnetwork, fun e he ↦ ?_⟩
    obtain ⟨o, ho, rfl⟩ := List.mem_map.mp he
    exact Or.inr ⟨name, rfl, ho⟩

/-- Where a message in flight after a step comes from: it was in flight before, the environment has
posted it, or a server has sent it. -/
theorem Step.mem_network (h : Step m c a c') (he : e ∈ c'.network) :
    e ∈ c.network ∨
      (∃ receiver msg, a = .post receiver msg ∧ m.Postable msg ∧
        e = ⟨none, none, .server receiver, msg⟩) ∨
      ∃ name, e.sender = some name ∧ (e.dst, e.msg) ∈ outputs name ⟨c, a, c'⟩ := by
  obtain ⟨fresh, hnetwork, hfresh⟩ := h.network_eq
  rw [hnetwork, List.mem_append] at he
  rcases he with hold | hnew
  · exact Or.inl (mem_of_mem_withdraw hold)
  · exact Or.inr (hfresh e hnew)

/-- A message in flight that the environment cannot post was in flight before, or a server has sent
it. -/
theorem Step.mem_network_of_server (h : Step m c a c') (he : e ∈ c'.network) {msg : Msg}
    (hmsg : e.msg = msg) (hserver : ¬ m.Postable msg) :
    e ∈ c.network ∨ ∃ name, e.sender = some name ∧ (e.dst, e.msg) ∈ outputs name ⟨c, a, c'⟩ := by
  rcases h.mem_network he with hold | ⟨_, posted, -, hpostable, rfl⟩ | hsent
  · exact Or.inl hold
  · exact absurd (hmsg ▸ hpostable) hserver
  · exact Or.inr hsent

/-- What a server sends is in flight after the step. -/
theorem Step.mem_of_mem_outputs (h : Step m c a c') {o : Output}
    (ho : o ∈ outputs name ⟨c, a, c'⟩) : ∃ e ∈ c'.network, e.dst = o.1 ∧ e.msg = o.2 := by
  obtain ⟨x, hx, -⟩ := stimulus_of_mem_outputs ho
  obtain ⟨-, -, -, -, hnetwork⟩ := h.act hx
  rw [hnetwork]
  exact ⟨_, List.mem_append_right _ (List.mem_map_of_mem ho), rfl, rfl⟩

/-- A server that sends in a step belongs to the cluster and meets the stimulus of the step. -/
theorem Step.of_mem_outputs (h : Step m c a c') {o : Output} (ho : o ∈ outputs name ⟨c, a, c'⟩) :
    name ∈ m.names ∧ ∃ x, a.stimulus = some (name, x) ∧ c.Available name x ∧
      (c.servers name).Effect x (c'.servers name) (outputs name ⟨c, a, c'⟩) := by
  obtain ⟨x, hx, -⟩ := stimulus_of_mem_outputs ho
  obtain ⟨hname, havailable, hact, -⟩ := h.act hx
  exact ⟨hname, x, hx, havailable, Server.act_effect hact⟩

/-- A message in flight stays in flight unless it is delivered. -/
theorem Step.mem_of_ne_delivered (h : Step m c a c') (he : e ∈ c.network)
    (hne : a.delivered ≠ some e) : e ∈ c'.network := by
  obtain ⟨fresh, hnetwork, -⟩ := h.network_eq
  rw [hnetwork]
  refine List.mem_append_left _ ?_
  unfold withdraw
  cases hdelivered : a.delivered with
  | none => exact he
  | some delivered =>
    rw [hdelivered] at hne
    exact (List.mem_erase_of_ne fun h ↦ hne (congrArg some h.symm)).mpr he

end Cluster

end RaftConsensus
