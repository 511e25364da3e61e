import RaftConsensus.Coherence

/-!
# Events of a history

The events that the properties of runs speak of, read off the transitions of a history: a server
grants a vote, counts a vote, accepts an `AppendEntry`, creates an entry, enters the leader state.
An event of a server is a function of its state and the stimulus it meets, none when the stimulus
does not cause it, and `observe` finds it in a transition of the cluster. All of them can be
evaluated, so that a condition on the steps of a run can be checked on a concrete run.
-/

set_option autoImplicit false
set_option relaxedAutoImplicit false

namespace RaftConsensus

open TransitionSystem

namespace Server

variable {s s' : Server} {x : Stimulus} {out : List Output}

/-- The request that a server grants, by the test `rv->term >= m_term` of
`request_vote_handler`. -/
def grant (s : Server) : Stimulus → Option RequestVote
  | .handle (.requestVote rv) =>
    if s.agent = .idle ∧ s.role.subscribes (.requestVote rv) ∧ rv.voteGranted = false ∧
        s.term ≤ rv.term then some rv else none
  | _ => none

/-- The granted vote that a server counts. -/
def count (s : Server) : Stimulus → Option RequestVote
  | .handle (.requestVote rv) =>
    if s.agent = .idle ∧ s.role.subscribes (.requestVote rv) ∧ rv.voteGranted then some rv
    else none
  | _ => none

/-- The `AppendEntry` that a server accepts. -/
def acceptance (s : Server) : Stimulus → Option AppendEntry
  | .handle (.appendEntry ae) =>
    if s.agent = .idle ∧ s.role = .follower ∧ s.term ≤ ae.term then some ae else none
  | .resume =>
    match s.agent with
    | .followerUnlock handling => handling
    | _ => none
  | _ => none

/-- The entry that a leader creates for a command it accepts. -/
def creation (s : Server) : Stimulus → Option Entry
  | .handle (.clientRequest cr) =>
    if s.agent = .idle ∧ s.role = .leader ∧ cr.cmd ≠ [] then some (s.term, cr.cmd) else none
  | _ => none

/-- A server grants a request exactly when it answers it with `vote_granted = true`. -/
theorem Effect.grant_iff_answered {rv : RequestVote}
    (h : s.Effect (.handle (.requestVote rv)) s' out) :
    s.grant (.handle (.requestVote rv)) = some rv ↔
      ∃ dst answer, (dst, .requestVote answer) ∈ out ∧ answer.voteGranted = true := by
  cases h <;> simp_all [grant, RequestVote.answer]

/-- A leader creates an entry exactly when it answers a request with a nonempty command with
`status = 1`. -/
theorem Effect.creation_iff_acknowledged {cr : ClientRequest}
    (h : s.Effect (.handle (.clientRequest cr)) s' out) :
    s.creation (.handle (.clientRequest cr)) = some (s.term, cr.cmd) ↔
      cr.cmd ≠ [] ∧ ∃ dst resp, (dst, .serverResponse resp) ∈ out ∧ resp.status = 1 := by
  cases h <;> simp_all [creation, Role.subscribes]

theorem count_eq_some_iff {rv : RequestVote} : s.count x = some rv ↔ s.Counts x rv := by
  unfold count Counts
  split <;> grind

theorem acceptance_eq_some_iff {ae : AppendEntry} :
    s.acceptance x = some ae ↔ s.Accepts x ae := by
  unfold acceptance Accepts
  split <;> grind

theorem creation_eq_some_iff {el : Entry} :
    s.creation x = some el ↔ ∃ cmd, s.Creates x cmd ∧ el = (s.term, cmd) := by
  unfold creation Creates
  split
  next cr =>
    cases cr
    grind
  · grind

end Server

/-- A log position is in the payload of a message. -/
def AppendEntry.Covers (ae : AppendEntry) (p : ℕ) : Prop :=
  ae.prevLogIndex ≤ p ∧ p < ae.prevLogIndex + ae.entries.length

instance (ae : AppendEntry) (p : ℕ) : Decidable (ae.Covers p) :=
  inferInstanceAs (Decidable (_ ∧ _))

namespace Cluster

variable {m : Membership} {c c' : Cluster} {trace : History} {t : Transition Cluster Action}
  {leader : ByteString} {β : Type}

/-- The server that an event happens to in a transition, with the event. -/
def observe (event : Server → Stimulus → Option β) (t : Transition Cluster Action) :
    Option (ByteString × β) :=
  match t.action.stimulus with
  | some (name, x) => (event (t.source.servers name) x).map fun b ↦ (name, b)
  | none => none

theorem observe_eq_some_iff {event : Server → Stimulus → Option β} {name : ByteString} {b : β} :
    observe event t = some (name, b) ↔
      ∃ x, t.action.stimulus = some (name, x) ∧ event (t.source.servers name) x = some b := by
  constructor
  · intro h
    unfold observe at h
    split at h
    next receiver x hx =>
      obtain ⟨b', hevent, hpair⟩ := Option.map_eq_some_iff.mp h
      obtain ⟨rfl, rfl⟩ := Prod.mk.inj hpair
      exact ⟨x, hx, hevent⟩
    next => simp at h
  · rintro ⟨x, hx, hevent⟩
    simp only [observe, hx, hevent, Option.map_some]

/-- An event that the stimulus of an action causes is observed. -/
theorem observe_eq_some {event : Server → Stimulus → Option β} {a : Action} {name : ByteString}
    {x : Stimulus} {b : β} (hx : a.stimulus = some (name, x))
    (hevent : event (c.servers name) x = some b) : observe event ⟨c, a, c'⟩ = some (name, b) :=
  observe_eq_some_iff.mpr ⟨x, hx, hevent⟩

/-- The event that happens to a server in a transition. -/
def observeAt (name : ByteString) (event : Server → Stimulus → Option β)
    (t : Transition Cluster Action) : Option β :=
  match t.action.stimulus with
  | some (actor, x) => if actor = name then event (t.source.servers name) x else none
  | none => none

theorem observeAt_of_stimulus {event : Server → Stimulus → Option β} {a : Action}
    {name : ByteString} {x : Stimulus} (hx : a.stimulus = some (name, x)) :
    observeAt name event ⟨c, a, c'⟩ = event (c.servers name) x := by
  simp [observeAt, hx]

/-- Nothing happens to a server that an action does not concern. -/
theorem observeAt_eq_none {event : Server → Stimulus → Option β} {name : ByteString}
    (hx : ∀ x, t.action.stimulus ≠ some (name, x)) : observeAt name event t = none := by
  unfold observeAt
  split
  next actor x hactor =>
    refine if_neg ?_
    rintro rfl
    exact hx x hactor
  next => rfl

/-- A step leaves a server alone and nothing happens to it, or the server meets a stimulus and the
event is the one that the stimulus causes. -/
theorem Effect.observeAt_cases {a : Action} (h : Effect m c a c') (name : ByteString)
    (event : Server → Stimulus → Option β) :
    (c'.servers name = c.servers name ∧ observeAt name event ⟨c, a, c'⟩ = none) ∨
      ∃ x out, c.Available name x ∧ (c.servers name).Effect x (c'.servers name) out ∧
        observeAt name event ⟨c, a, c'⟩ = event (c.servers name) x := by
  by_cases hself : ∃ x, a.stimulus = some (name, x)
  · obtain ⟨x, hx⟩ := hself
    obtain ⟨-, havailable, out, heffect⟩ := h.of_stimulus hx
    exact Or.inr ⟨x, out, havailable, heffect, observeAt_of_stimulus hx⟩
  · have hnone : observeAt name event ⟨c, a, c'⟩ = none :=
      observeAt_eq_none fun x hx ↦ hself ⟨x, hx⟩
    rcases h.server name with hsame | ⟨x, out, hx, -⟩
    · exact Or.inl ⟨hsame, hnone⟩
    · exact absurd ⟨x, hx⟩ hself

/-- The server that counts a vote in a transition, with the envelope of the vote. -/
def counted (t : Transition Cluster Action) : Option (ByteString × Envelope) :=
  match t.action with
  | .deliver name e => ((t.source.servers name).count (.handle e.msg)).map fun _ ↦ (name, e)
  | _ => none

/-- A server enters the leader state in a term. -/
def EntersLeader (t : Transition Cluster Action) (name : ByteString) (term : ℤ) : Prop :=
  (t.source.servers name).role ≠ .leader ∧ (t.target.servers name).role = .leader ∧
    (t.target.servers name).term = term

instance (name : ByteString) (term : ℤ) : Decidable (EntersLeader t name term) :=
  inferInstanceAs (Decidable (_ ∧ _))

/-! ### Leaderships -/

/-- A run in which a server enters the leader state at a transition and stays leader from then
on. -/
structure Leadership (m : Membership) (leader : ByteString) (before : History)
    (t : Transition Cluster Action) (during : History) (c : Cluster) : Prop where
  run : Run m initial (before ++ t :: during) c
  enters : ∃ term, EntersLeader t leader term
  stays : ∀ u ∈ during, (u.target.servers leader).role = .leader

/-- A leadership that begins at an index of the history of a run. -/
theorem Leadership.of_index (hrun : Run m initial trace c) (leader : ByteString) (k : ℕ)
    (hk : k < trace.length)
    (henters : ∃ term, EntersLeader (trace.get ⟨k, hk⟩) leader term)
    (hstays : ∀ u ∈ trace.drop (k + 1), (u.target.servers leader).role = .leader) :
    Leadership m leader (trace.take k) (trace.get ⟨k, hk⟩) (trace.drop (k + 1)) c where
  run := (take_append_get_cons_drop trace ⟨k, hk⟩).symm ▸ hrun
  enters := henters
  stays := hstays

end Cluster

end RaftConsensus
