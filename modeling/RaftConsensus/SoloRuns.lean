import RaftConsensus.Mailboxes

/-!
# Runs in which one server acts

What a server can reach while the other servers do nothing: it takes its own steps, and it handles
messages that are in flight to it, those that it has sent itself among them. `main` may post its
messages to the server, but clients send no requests. `Cluster.Solo` is the relation between the
cluster before and after, and `Server.Attains` what it means for the server, whatever the rest of
the cluster is.

`Server.Attains.exchange` is an exchange that a server has with itself: it sends a message to its
own mailbox, handles it, and handles the answer.
-/

set_option autoImplicit false
set_option relaxedAutoImplicit false

namespace RaftConsensus

open TransitionSystem

/-- The server that an action concerns. -/
def Action.server : Action → ByteString
  | .post receiver _ | .deliver receiver _ | .internal receiver _ => receiver

/-- The action concerns the server, and is no request of a client. -/
def Action.Solo (name : ByteString) (a : Action) : Prop :=
  a.server = name ∧ ∀ cr, a ≠ .post name (.clientRequest cr)

theorem Action.server_of_stimulus {a : Action} {name : ByteString} {x : Stimulus}
    (hx : a.stimulus = some (name, x)) : a.server = name := by
  rcases Action.stimulus_cases hx with ⟨e, rfl, -⟩ | rfl
  · rfl
  · rfl

namespace Cluster

variable {m : Membership} {c c' middle : Cluster} {name other : ByteString} {x : Stimulus}
  {s : Server} {out : List Output} {msg : Msg} {e : Envelope}

/-- A run in which only one server acts. -/
def Solo (m : Membership) (name : ByteString) : Cluster → Cluster → Prop :=
  RunOf (Step m) (Action.Solo name)

theorem Solo.refl : Solo m name c c := RunOf.refl

theorem Solo.trans (hfirst : Solo m name c middle) (hsecond : Solo m name middle c') :
    Solo m name c c' :=
  RunOf.trans hfirst hsecond

/-- Such a run goes on from a run of the cluster. -/
theorem Solo.run {start : Cluster} {trace : History} (h : Solo m name c c')
    (hrun : Run m start trace c) : ∃ trace', Run m start trace' c' := by
  obtain ⟨later, hlater, -⟩ := h
  exact ⟨_, hrun.append hlater⟩

/-- The other servers stay as they are. -/
theorem Solo.others (h : Solo m name c c') (hother : other ≠ name) :
    c'.servers other = c.servers other := by
  have hkept : ∀ state a next, a.Solo name → state.servers other = c.servers other →
      Step m state a next → next.servers other = c.servers other := by
    intro state a next haction hstate hstep
    rcases hstep.act_cases other with hsame | ⟨x, hx, -⟩
    · rw [hsame, hstate]
    · exact absurd ((Action.server_of_stimulus hx).symm.trans haction.1) hother
  exact @RunOf.invariant _ _ _ _ _ _ (fun state ↦ state.servers other = c.servers other) h rfl hkept

/-- A server takes a step by itself. -/
theorem step_internal (hname : name ∈ m.names) (hx : x.IsInternal)
    (hact : (c.servers name).act x = .ok (s, out)) :
    Step m c (.internal name x) (c.updated name s c.network none out) := by
  simp only [Step, next, hname, hx, and_self, if_true, actOn, hact]
  rfl

/-- A message in flight is delivered. -/
theorem step_deliver (hname : name ∈ m.names) (he : e ∈ c.network) (hdst : e.dst = .server name)
    (hact : (c.servers name).act (.handle e.msg) = .ok (s, out)) :
    Step m c (.deliver name e) (c.updated name s (c.network.erase e) (some e.msg) out) := by
  simp only [Step, next, hname, he, hdst, and_self, if_true, actOn, hact]
  rfl

/-- The environment posts a message. -/
theorem step_post (hname : name ∈ m.names) (hpostable : m.Postable msg) :
    Step m c (.post name msg)
      { c with network := c.network ++ [⟨none, none, .server name, msg⟩] } := by
  simp only [Step, next, hname, hpostable, and_self, if_true]

/-- A step that a server takes by itself is such a run. -/
theorem solo_internal (hname : name ∈ m.names) (hx : x.IsInternal)
    (hact : (c.servers name).act x = .ok (s, out)) :
    Solo m name c (c.updated name s c.network none out) :=
  RunOf.single (step_internal hname hx hact) ⟨rfl, by simp⟩

/-- The delivery of a message to the server is such a run. -/
theorem solo_deliver (hname : name ∈ m.names) (he : e ∈ c.network) (hdst : e.dst = .server name)
    (hact : (c.servers name).act (.handle e.msg) = .ok (s, out)) :
    Solo m name c (c.updated name s (c.network.erase e) (some e.msg) out) :=
  RunOf.single (step_deliver hname he hdst hact) ⟨rfl, by simp⟩

/-- The post of a message other than a request is such a run. -/
theorem solo_post (hname : name ∈ m.names) (hpostable : m.Postable msg)
    (hrequest : ∀ cr, msg ≠ .clientRequest cr) :
    Solo m name c { c with network := c.network ++ [⟨none, none, .server name, msg⟩] } :=
  RunOf.single (step_post hname hpostable) ⟨rfl, by simpa using hrequest⟩

end Cluster

namespace Server

variable {m : Membership} {name : ByteString} {s s₁ s₂ s' : Server} {x : Stimulus}
  {msg : Msg} {out : List Output}

/-- A server can come from one state to another while the other servers do nothing, whatever is in
flight. -/
def Attains (m : Membership) (name : ByteString) (s s' : Server) : Prop :=
  ∀ c : Cluster, c.servers name = s → ∃ c', c.Solo m name c' ∧ c'.servers name = s'

theorem Attains.refl : Attains m name s s := fun c hc ↦ ⟨c, .refl, hc⟩

theorem Attains.trans (hfirst : Attains m name s s₁) (hsecond : Attains m name s₁ s') :
    Attains m name s s' := by
  intro c hc
  obtain ⟨middle, hmiddle, hs₁⟩ := hfirst c hc
  obtain ⟨c', hc', hs'⟩ := hsecond middle hs₁
  exact ⟨c', hmiddle.trans hc', hs'⟩

variable (x out) in
/-- A server attains what a step of its own leads to. -/
theorem Attains.internal (hname : name ∈ m.names) (hx : x.IsInternal)
    (hact : s.act x = .ok (s', out)) : Attains m name s s' := by
  rintro c rfl
  exact ⟨_, Cluster.solo_internal hname hx hact, Cluster.updated_servers_self ..⟩

variable (msg out) in
/-- A server attains what the handling of a message that `main` posts leads to. -/
theorem Attains.tell (hname : name ∈ m.names) (hpostable : m.Postable msg)
    (hrequest : ∀ cr, msg ≠ .clientRequest cr) (hact : s.act (.handle msg) = .ok (s', out)) :
    Attains m name s s' := by
  rintro c rfl
  refine ⟨_, (Cluster.solo_post hname hpostable hrequest).trans
    (Cluster.solo_deliver (e := ⟨none, none, .server name, msg⟩) hname ?_ rfl hact),
    Cluster.updated_servers_self ..⟩
  exact List.mem_append_right _ (List.mem_singleton_self _)

variable (x msg s₁ s₂ out) in
/-- A server that takes a step by itself in which it sends a message to itself may handle the
message, and then the answer that it sends to itself. -/
theorem Attains.exchange (answer : Msg) (hname : name ∈ m.names) (hx : x.IsInternal)
    (hsend : s.act x = .ok (s₁, [(.server name, msg)]))
    (hreply : s₁.act (.handle msg) = .ok (s₂, [(.server name, answer)]))
    (hhandle : s₂.act (.handle answer) = .ok (s', out)) : Attains m name s s' := by
  rintro c rfl
  let c₁ := c.updated name s₁ c.network none [(.server name, msg)]
  let request : Envelope := ⟨some name, none, .server name, msg⟩
  let c₂ := c₁.updated name s₂ (c₁.network.erase request) (some msg) [(.server name, answer)]
  let reply : Envelope := ⟨some name, some msg, .server name, answer⟩
  have hs₁ : c₁.servers name = s₁ := Cluster.updated_servers_self ..
  have hs₂ : c₂.servers name = s₂ := Cluster.updated_servers_self ..
  have hrequest : request ∈ c₁.network := List.mem_append_right _ (List.mem_singleton_self _)
  have hanswer : reply ∈ c₂.network := List.mem_append_right _ (List.mem_singleton_self _)
  have hfirst : c.Solo m name c₁ := Cluster.solo_internal hname hx hsend
  have hsecond : c₁.Solo m name c₂ :=
    Cluster.solo_deliver hname hrequest rfl (hs₁.symm ▸ hreply)
  have hanswered : (c₂.servers name).act (.handle answer) = .ok (s', out) := hs₂.symm ▸ hhandle
  have hthird := Cluster.solo_deliver hname hanswer rfl hanswered
  exact ⟨_, (hfirst.trans hsecond).trans hthird, Cluster.updated_servers_self ..⟩

end Server

/-- What every member can attain by itself, they can attain all, one after the other. -/
theorem Cluster.exists_run_of_solo {m : Membership} {start c : Cluster} {before : History}
    (goal : ByteString → Server → Prop) (hbefore : Run m start before c)
    (h : ∀ name ∈ m.names, ∀ trace middle, Run m start trace middle →
      middle.servers name = c.servers name →
        ∃ final, middle.Solo m name final ∧ goal name (final.servers name)) :
    ∃ trace c', Run m c trace c' ∧ ∀ name ∈ m.names, goal name (c'.servers name) := by
  have hsome (names : List ByteString) (hnodup : names.Nodup) (hnames : names ⊆ m.names) :
      ∃ trace c', Run m c trace c' ∧ (∀ name ∈ names, goal name (c'.servers name)) ∧
        ∀ name ∉ names, c'.servers name = c.servers name := by
    induction names with
    | nil => exact ⟨[], c, .nil, by simp, fun _ _ ↦ rfl⟩
    | cons name rest ih =>
      obtain ⟨hfresh, hrest⟩ := List.nodup_cons.mp hnodup
      obtain ⟨hname, hsub⟩ := List.cons_subset.mp hnames
      obtain ⟨trace, middle, hrun, hgoal, hkept⟩ := ih hrest hsub
      obtain ⟨c', hsolo, hs⟩ := h name hname _ middle (hbefore.append hrun) (hkept name hfresh)
      obtain ⟨trace', hrun'⟩ := hsolo.run hrun
      refine ⟨trace', c', hrun', fun other hother ↦ ?_, fun other hother ↦ ?_⟩
      · rcases List.mem_cons.mp hother with rfl | hother
        · exact hs
        · have hne : other ≠ name := fun heq ↦ hfresh (heq ▸ hother)
          rw [hsolo.others hne]
          exact hgoal other hother
      · obtain ⟨hne, hother⟩ := not_or.mp (mt List.mem_cons.mpr hother)
        rw [hsolo.others hne, hkept other hother]
  obtain ⟨trace, c', hrun, hgoal, -⟩ := hsome m.names m.nodup (List.Subset.refl _)
  exact ⟨trace, c', hrun, hgoal⟩

end RaftConsensus
