import RaftConsensus.AppliedOnce
import RaftConsensus.Model.Outputs

/-!
# A server that stays leader

A server that stays in the leader state handles no `AppendEntry` to its end: one that is not stale
makes it a follower first, and one that is stale is only answered. So its term is constant, and its
log grows by the commands of its clients alone (`Effect.tenure`). Every answer to a client is then
the decimal text of a register that is the replay of the whole log, whatever role the server had
when it appended the earlier entries. `leader_append_only` puts this together for a stretch of a
run.
-/

set_option autoImplicit false
set_option relaxedAutoImplicit false

namespace RaftConsensus

open TransitionSystem

/-- The nonempty command of the client request that is handled. -/
def Stimulus.command : Stimulus → Option ByteString
  | .handle (.clientRequest cr) => if cr.cmd ≠ [] then some cr.cmd else none
  | _ => none

namespace Server

variable {s s' : Server} {x : Stimulus} {out : List Output} {dst : Mbox}

/-- A step of a leader that stays leader and accepts no message keeps its term, and appends the
command that it handles. -/
theorem Effect.tenure (h : s.Effect x s' out) (hleader : s.role = .leader)
    (hstays : s'.role = .leader) (haccepts : ∀ ae, ¬ s.Accepts x ae) :
    s'.term = s.term ∧ s'.log = s.log ++ x.command.toList.map fun cmd ↦ (s.term, cmd) := by
  have hterm : s'.term = s.term := by
    rcases h.term_cases with hsame | ⟨-, -, hcandidate⟩ | ⟨ae, hae, -⟩
    · exact hsame
    · simp [hstays] at hcandidate
    · exact absurd hae (haccepts ae)
  refine ⟨hterm, ?_⟩
  cases h
  case drop msg _ hsubscribes =>
    cases msg <;> simp_all [Role.subscribes, Stimulus.command]
  case countVote hrole _ => simp [Role.subscribes, hleader] at hrole
  case answerVote hrole _ _ => simp [Role.subscribes, hleader] at hrole
  case accept ae _ _ hidle hrole hfresh _ _ =>
    exact absurd (Or.inl ⟨rfl, hidle, hrole, hfresh⟩) (haccepts ae)
  case enterAccept ae _ _ hagent _ _ => exact absurd (Or.inr ⟨rfl, hagent⟩) (haccepts ae)
  case command hcmd _ _ => simp [Stimulus.command, hcmd]
  case query hcmd _ => simp [Stimulus.command, hcmd]
  case redirect hrole _ => simp [hleader] at hrole
  all_goals exact (List.append_nil _).symm

/-- A leader answers a client with its own name and the register it has after the request. -/
theorem Effect.response_of_leader (h : s.Effect x s' out) (hleader : s.role = .leader)
    {sr : ServerResponse} (hsent : (dst, .serverResponse sr) ∈ out) :
    sr = ⟨1, s'.register.getResult, s.name⟩ := by
  cases h <;> simp_all

end Server

namespace Cluster

variable {m : Membership} {c c' start : Cluster} {a : Action} {before during : History}
  {leader : ByteString}

/-- The nonempty command of the client request that a server handles in a transition. -/
def commandTo (name : ByteString) : Transition Cluster Action → Option ByteString :=
  observeAt name fun _ x ↦ x.command

/-- A step in which a leader stays leader keeps its term, and appends the command that it
handles. -/
theorem tenure_step (hrun : Run m initial before c) (hstep : Step m c a c')
    (hleader : (c.servers leader).role = .leader) (hstays : (c'.servers leader).role = .leader) :
    (c'.servers leader).term = (c.servers leader).term ∧
      (c'.servers leader).log = (c.servers leader).log ++
        (commandTo leader ⟨c, a, c'⟩).toList.map fun cmd ↦ ((c.servers leader).term, cmd) := by
  unfold commandTo
  rcases (step_effect hstep).observeAt_cases leader fun _ x ↦ x.command with
    ⟨hsame, hnone⟩ | ⟨x, out, -, heffect, hcommand⟩
  · rw [hsame, hnone]
    exact ⟨rfl, (List.append_nil _).symm⟩
  · rw [hcommand]
    exact heffect.tenure hleader hstays (not_accepts_of_leader hrun hleader x)

/-- What a leader that stays leader has at the end of a stretch of a run: its term, and its log
with the commands handled since. -/
theorem tenure_run (hstart : Run m initial before start) (hrun : Run m start during c)
    (hleader : (start.servers leader).role = .leader)
    (hstays : ∀ u ∈ during, (u.target.servers leader).role = .leader) :
    (c.servers leader).role = .leader ∧
      (c.servers leader).term = (start.servers leader).term ∧
      (c.servers leader).log = (start.servers leader).log ++
        (during.filterMap (commandTo leader)).map fun cmd ↦
          ((start.servers leader).term, cmd) := by
  induction hrun with
  | nil => exact ⟨hleader, rfl, (List.append_nil _).symm⟩
  | @snoc during middle final action hrest hstep ih =>
    obtain ⟨hmiddle, hterm, hlog⟩ := ih fun u hu ↦ hstays u (List.mem_append_left _ hu)
    have hfinal : (final.servers leader).role = .leader :=
      hstays _ (List.mem_append_right _ (List.mem_singleton_self _))
    obtain ⟨hterm', hlog'⟩ := tenure_step (hstart.append hrest) hstep hmiddle hfinal
    refine ⟨hfinal, hterm'.trans hterm, ?_⟩
    rw [hlog', hlog, hterm, List.filterMap_append, List.map_append, List.append_assoc]
    cases hcommand : commandTo leader ⟨middle, action, final⟩ with
    | none => rw [List.filterMap_cons_none hcommand]; rfl
    | some cmd => rw [List.filterMap_cons_some hcommand]; rfl

end Cluster

/-- While a server stays leader its term is constant and its log grows by the commands of the
client requests that it handles, in their order. Every answer that it gives to a client has status
`1` and its own name, and reports the register that the whole log amounts to by then. -/
theorem leader_append_only {m : Membership} {leader : ByteString} {before during : Cluster.History}
    {start c : Cluster} (hstart : Cluster.Run m .initial before start)
    (hrun : Cluster.Run m start during c) (hleader : (start.servers leader).role = .leader)
    (hstays : ∀ u ∈ during, (u.target.servers leader).role = .leader) :
    (∀ u ∈ during, (u.target.servers leader).term = (start.servers leader).term) ∧
      (c.servers leader).log = (start.servers leader).log ++
        (during.filterMap (Cluster.commandTo leader)).map
          (fun cmd ↦ ((start.servers leader).term, cmd)) ∧
      ∀ u ∈ during, ∀ dst sr, (dst, .serverResponse sr) ∈ Cluster.outputs leader u →
        sr.status = 1 ∧ sr.leader = leader ∧
          ∃ register, Calc.replay (u.target.servers leader).log = .ok register ∧
            sr.resp = toDecimal register.result.toInt := by
  have hearlier {earlier later : Cluster.History} {middle : Cluster}
      (hsplit : during = earlier ++ later) (hmiddle : Cluster.Run m start earlier middle) :=
    Cluster.tenure_run hstart hmiddle hleader
      fun v hv ↦ hstays v (hsplit ▸ List.mem_append_left _ hv)
  refine ⟨fun u hu ↦ ?_, (Cluster.tenure_run hstart hrun hleader hstays).2.2,
    fun u hu dst sr hsent ↦ ?_⟩
  · obtain ⟨earlier, later, hsplit, hbefore, hstep, -⟩ := hrun.cut_of_mem hu
    exact (hearlier (hsplit.trans (List.append_cons ..)) (hbefore.snoc hstep)).2.1
  · obtain ⟨earlier, later, hsplit, hbefore, hstep, -⟩ := hrun.cut_of_mem hu
    have hmiddle := (hearlier hsplit hbefore).1
    obtain ⟨-, x, -, -, heffect⟩ := hstep.of_mem_outputs hsent
    obtain rfl := heffect.response_of_leader hmiddle hsent
    have hname := ((Cluster.coherent_initial.run hstart).run hbefore).name_eq leader
    exact ⟨rfl, hname, _, Cluster.replay_run ((hstart.append hbefore).snoc hstep) leader, rfl⟩

/-- A leader that has accepted the command of a client has it in its log with its term, and has
answered with the replay of the log. -/
theorem leader_append_only_replication :
    let trace := history (Cluster.next Schedule.trio) .initial Schedule.replication
    let c := finalState (Cluster.next Schedule.trio) .initial Schedule.replication
    let u := trace.get ⟨25, by decide⟩
    let sr : ServerResponse := ⟨1, bytes "5", bytes "server1"⟩
    (c.servers (bytes "server1")).log = [(1, bytes "ADD;5")] ∧
      (.client 0, .serverResponse sr) ∈ Cluster.outputs (bytes "server1") u ∧
      ∃ register, Calc.replay (u.target.servers (bytes "server1")).log = .ok register ∧
        sr.resp = toDecimal register.result.toInt := by
  intro trace c u sr
  have hrun : Cluster.Run Schedule.trio .initial trace c := run_of_isOk (by decide)
  have hleadership := Cluster.Leadership.of_index hrun (bytes "server1") 19 (by decide)
    ⟨1, by decide⟩ (by decide)
  obtain ⟨hbefore, hstep, hduring⟩ := hleadership.run.cut
  obtain ⟨-, hlog, hresponse⟩ := leader_append_only (hbefore.snoc hstep) hduring (by decide)
    hleadership.stays
  have hsent : (.client 0, .serverResponse sr) ∈ Cluster.outputs (bytes "server1") u := by decide
  have hmem : u ∈ trace.drop 20 := List.mem_of_getElem? (i := 5) rfl
  exact ⟨hlog.trans (by decide), hsent, (hresponse u hmem _ sr hsent).2.2⟩

end RaftConsensus
