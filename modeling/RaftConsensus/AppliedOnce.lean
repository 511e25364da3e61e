import RaftConsensus.RegisterReplay
import RaftConsensus.Replication

/-!
# Entries applied once

A leader sends the same suffix of its log in every round of heartbeats until a result moves the
next index, and `heartbeat_handler` appends whatever it accepts. A follower that accepts two rounds
has the entries twice, and has applied their commands twice
(`not_applied_at_most_once_secondRound`).

`ReplicatedLog.copies` counts how often the entry that a leader has created at an index is in a
labelled log, and `Cluster.received` are the labelled entries of the message that a server accepts.
`applied_at_most_once_iff` shows that a follower applies no entry of a leadership twice exactly when
it never accepts such an entry twice, in one message or in two. A message of the leader itself
carries the entries of the positions in its range (`Cluster.received_iff_covers`), so that two of
them carry none in common when their ranges do not overlap.
-/

set_option autoImplicit false
set_option relaxedAutoImplicit false

namespace RaftConsensus

open TransitionSystem
open ReplicatedLog (Event Cell copies replay stretch)

namespace Server

variable {s s' : Server} {x : Stimulus} {out : List Output}

/-- A server that still has to accept a message is a follower. -/
theorem Effect.follower_of_pending (h : s.Effect x s' out)
    (hs : ∀ ae, s.pending = some ae → s.role = .follower) :
    ∀ ae, s'.pending = some ae → s'.role = .follower := by
  intro ae hpending
  rcases h.pending hpending with ⟨hold, -, hrole⟩ | ⟨-, -, -, hrole⟩
  · rw [hrole]
    exact hs ae hold
  · exact hrole

/-- A leader accepts no message. -/
theorem not_accepts_of_leader (hs : ∀ ae, s.pending = some ae → s.role = .follower)
    (hleader : s.role = .leader) (ae : AppendEntry) : ¬ s.Accepts x ae := by
  rintro (⟨-, -, hrole, -⟩ | ⟨-, hagent⟩)
  · simp [hleader] at hrole
  · have hrole := hs ae (by rw [pending, hagent])
    simp [hleader] at hrole

end Server

namespace Cluster

variable {m : Membership} {c c' start : Cluster} {a : Action} {trace before during : History}
  {t : Transition Cluster Action} {leader : ByteString}

/-! ### Entries received -/

/-- In a run a leader accepts no message. -/
theorem not_accepts_of_leader (hrun : Run m initial trace c)
    (hleader : (c.servers leader).role = .leader) (x : Stimulus) (ae : AppendEntry) :
    ¬ (c.servers leader).Accepts x ae := by
  refine Server.not_accepts_of_leader ?_ hleader ae
  exact server_invariant (fun name ↦ by simp [initial, Server.initial, Server.pending])
    (fun s x s' out hs heffect ↦ heffect.follower_of_pending hs) hrun leader

/-- The entries of the message that a server accepts in a transition, as they are labelled in the
log of the leader that sent it. -/
def received (history : History) (name : ByteString) (u : Transition Cluster Action) :
    List (Cell ByteString Entry) :=
  match observe Server.acceptance u with
  | some (receiver, ae) =>
    if receiver = name then
      stretch (cells history ae.leaderId) ae.prevLogIndex.toNat ae.entries.length
    else []
  | none => []

/-- A transition in which a leader creates an entry is none in which a server accepts a message. -/
theorem acceptance_eq_none_of_creation {creation : ByteString × Entry}
    (h : observe Server.creation t = some creation) : observe Server.acceptance t = none := by
  obtain ⟨name, el⟩ := creation
  obtain ⟨x, hx, hcreation⟩ := observe_eq_some_iff.mp h
  obtain ⟨cmd, ⟨⟨inbox, rfl⟩, -⟩, -⟩ := Server.creation_eq_some_iff.mp hcreation
  simp [observe, hx, Server.acceptance]

/-- A server receives what the event of the transition copies into its log. -/
theorem received_eq_copied (history : History) (name : ByteString)
    (u : Transition Cluster Action) :
    received history name u = (cellEvent u).elim [] (Event.copied (cells history) name) := by
  unfold received cellEvent
  cases hcreation : observe Server.creation u with
  | some creation =>
    rw [acceptance_eq_none_of_creation hcreation]
    rfl
  | none =>
    cases observe Server.acceptance u with
    | none => rfl
    | some acceptance =>
      obtain ⟨receiver, ae⟩ := acceptance
      by_cases hentries : ae.entries = []
      · simp [hentries, stretch]
      · simp [hentries, Event.copied]

/-- A server accepts the entries that the leader creates from `base` on at most once: a message that
it accepts carries each of them once, and none that a message it has accepted before carries. -/
def AcceptsOnce (leader name : ByteString) (base : ℕ) (past earlier : History)
    (u : Transition Cluster Action) : Prop :=
  ∀ cell ∈ received (past ++ earlier) name u, cell.home = leader → base ≤ cell.index →
    copies (received (past ++ earlier) name u) leader cell.index = 1 ∧
      ∀ v ∈ earlier, copies (received (past ++ earlier) name v) leader cell.index = 0

instance (name : ByteString) (base : ℕ) (past earlier : History)
    (u : Transition Cluster Action) : Decidable (AcceptsOnce leader name base past earlier u) := by
  unfold AcceptsOnce
  infer_instance

/-- A server accepts entries once exactly when the event of the transition copies them once. -/
theorem acceptsOnce_iff {name : ByteString} {base : ℕ} {past earlier : History} :
    AcceptsOnce leader name base past earlier t ↔ ∀ event, cellEvent t = some event →
      ReplicatedLog.CopiesOnce leader name base (past.filterMap cellEvent)
        (earlier.filterMap cellEvent) event := by
  have hcells : replay (past.filterMap cellEvent ++ earlier.filterMap cellEvent) =
      cells (past ++ earlier) := by
    rw [← List.filterMap_append, cells]
  have hothers (p : ℕ) : (∀ v ∈ earlier, copies (received (past ++ earlier) name v) leader p = 0) ↔
      ∀ other ∈ earlier.filterMap cellEvent,
        copies (other.copied (cells (past ++ earlier)) name) leader p = 0 := by
    simp only [received_eq_copied, List.mem_filterMap]
    constructor
    · rintro h other ⟨v, hv, hother⟩
      simpa [hother] using h v hv
    · intro h v hv
      cases hother : cellEvent v with
      | none => rfl
      | some other => exact h other ⟨v, hv, hother⟩
  unfold AcceptsOnce
  simp only [hothers]
  rw [received_eq_copied]
  cases hevent : cellEvent t with
  | none => simp
  | some event =>
    simp only [Option.elim_some, Option.some.injEq, forall_eq', ReplicatedLog.CopiesOnce, hcells]
    constructor
    · intro h p hp hcopied
      obtain ⟨cell, hcell, hhome, rfl⟩ := ReplicatedLog.copies_ne_zero_iff.mp hcopied
      exact h cell hcell hhome hp
    · intro h cell hcell hhome hindex
      exact h _ hindex (ReplicatedLog.copies_ne_zero_iff.mpr ⟨cell, hcell, hhome, rfl⟩)

/-- The entries of an accepted message are a stretch of the log of the leader that sent it. -/
theorem payloadOf_acceptance (hrun : Run m initial trace c) (hstep : Step m c a c')
    {name : ByteString} {ae : AppendEntry}
    (hacceptance : observe Server.acceptance ⟨c, a, c'⟩ = some (name, ae))
    (hentries : ae.entries ≠ []) : PayloadOf (c.logs ae.leaderId) ae := by
  obtain ⟨x, hx, haccepts⟩ := observe_eq_some_iff.mp hacceptance
  obtain ⟨-, havailable, -⟩ := (step_effect hstep).of_stimulus hx
  exact payloads_run hrun ae
    (carries_of_accepts havailable (Server.acceptance_eq_some_iff.mp haccepts)) hentries

/-- The labels of a history are those of its leaders. -/
theorem labelled_run (hrun : Run m initial trace c) :
    Along (fun earlier event ↦ ReplicatedLog.Labelled (replay earlier) event)
      (trace.filterMap cellEvent) := by
  refine along_filterMap_iff.mpr ?_
  rintro before t after rfl event hevent
  exact labelled_cellEvent hrun.cut.1 hevent

/-- The entries of a message are in the log of the leader that sent it. -/
theorem inRange_run (hrun : Run m initial trace c) :
    Along (fun earlier event ↦ ReplicatedLog.InRange (replay earlier) event)
      (trace.filterMap cellEvent) := by
  refine along_filterMap_iff.mpr ?_
  rintro before t after rfl event hevent
  obtain ⟨hbefore, hstep, -⟩ := hrun.cut
  cases event with
  | create => trivial
  | copy source target start count =>
    obtain ⟨ae, hacceptance, hentries, rfl, rfl, rfl⟩ := cellEvent_eq_copy hevent
    obtain ⟨front, hfront, hle, -⟩ := payloadOf_acceptance hbefore hstep hacceptance hentries
    have hlength := hle.length_le
    rw [List.length_append, logs, ← cells_length hbefore] at hlength
    show ae.prevLogIndex.toNat + ae.entries.length ≤ (cells before ae.leaderId).length
    omega

/-! ### Messages of the leader -/

/-- The entries that the log of the leader gains in a leadership are those that it creates. -/
theorem own_cells (hstart : Run m initial before start) (hrun : Run m start during c)
    (hleader : (start.servers leader).role = .leader)
    (hstays : ∀ u ∈ during, (u.target.servers leader).role = .leader) :
    (c.servers leader).role = .leader ∧ ∀ (i : ℕ) (cell : Cell ByteString Entry),
      (start.servers leader).log.length ≤ i → (cells (before ++ during) leader)[i]? = some cell →
        cell.home = leader ∧ cell.index = i := by
  induction hrun with
  | nil =>
    refine ⟨hleader, fun i cell hi hcell ↦ ?_⟩
    rw [List.append_nil] at hcell
    have hlt := (List.getElem?_eq_some_iff.mp hcell).1
    rw [cells_length hstart] at hlt
    omega
  | @snoc during middle final action hrest hstep ih =>
    obtain ⟨hmiddle, hown⟩ := ih fun u hu ↦ hstays u (List.mem_append_left _ hu)
    refine ⟨hstays _ (List.mem_append_right _ (List.mem_singleton_self _)), ?_⟩
    intro i cell hi hcell
    have hrun : Run m initial (before ++ during) middle := hstart.append hrest
    rw [cells, ← List.append_assoc, List.filterMap_append] at hcell
    cases hevent : cellEvent ⟨middle, action, final⟩ with
    | none =>
      rw [List.filterMap_cons_none hevent, List.filterMap_nil, List.append_nil] at hcell
      exact hown i cell hi hcell
    | some event =>
      rw [List.filterMap_cons_some hevent, List.filterMap_nil, ReplicatedLog.replay_snoc] at hcell
      rcases ReplicatedLog.getElem?_apply hcell with
        hold | ⟨rfl, rfl⟩ | ⟨source, start, count, j, rfl, -, -⟩
      · exact hown i cell hi hold
      · exact labelled_cellEvent (t := ⟨middle, action, final⟩) hrun hevent
      · obtain ⟨ae, hacceptance, -⟩ := cellEvent_eq_copy hevent
        obtain ⟨x, -, haccepts⟩ := observe_eq_some_iff.mp hacceptance
        exact absurd (Server.acceptance_eq_some_iff.mp haccepts)
          (not_accepts_of_leader hrun hmiddle x ae)

/-- A cell that a log has had since some state, with the label of this log, has an index that the
log had then. -/
theorem index_lt_of_cells (hstart : Run m initial before start) (later : History) {i : ℕ}
    {cell : Cell ByteString Entry} (hi : i < (start.servers leader).log.length)
    (hcell : (cells (before ++ later) leader)[i]? = some cell) (hhome : cell.home = leader) :
    cell.index < (start.servers leader).log.length := by
  rw [← cells_length hstart] at hi ⊢
  obtain ⟨more, hmore⟩ := cells_isPrefix before later leader
  rw [← hmore, List.getElem?_append_left hi] at hcell
  have horiginal := ReplicatedLog.original_of_replay (labelled_run hstart) _ _ cell hcell
  rw [hhome] at horiginal
  exact (List.getElem?_eq_some_iff.mp horiginal).1

/-- A server receives the entry that the leader has created at a position exactly when the position
is in the range of the message of the leader that it accepts. -/
theorem received_iff_covers (h : Leadership m leader before t during c) {earlier later : History}
    {u : Transition Cluster Action} (hsplit : during = earlier ++ u :: later) {name : ByteString}
    {ae : AppendEntry} (hacceptance : observe Server.acceptance u = some (name, ae))
    (hsender : ae.leaderId = leader) {p : ℕ} (hp : (t.target.servers leader).log.length ≤ p) :
    copies (received (before ++ [t] ++ earlier) name u) leader p ≠ 0 ↔ ae.Covers p := by
  subst hsplit
  obtain ⟨hbefore, hstep, hduring⟩ := h.run.cut
  have hstart : Run m initial (before ++ [t]) t.target := hbefore.snoc hstep
  obtain ⟨term, henters⟩ := h.enters
  obtain ⟨hearlier, hlast, -⟩ := hduring.cut
  have hrun : Run m initial (before ++ [t] ++ earlier) u.source := hstart.append hearlier
  obtain ⟨-, hown⟩ := own_cells hstart hearlier henters.2.1
    fun v hv ↦ h.stays v (List.mem_append_left _ hv)
  have hreceived : received (before ++ [t] ++ earlier) name u = stretch
      (cells (before ++ [t] ++ earlier) leader) ae.prevLogIndex.toNat ae.entries.length := by
    rw [received, hacceptance, ← hsender]
    exact if_pos rfl
  rw [hreceived, ReplicatedLog.copies_ne_zero_iff]
  by_cases hentries : ae.entries = []
  · simp only [hentries, stretch, List.length_nil, List.take_zero, List.not_mem_nil, false_and,
      exists_false, AppendEntry.Covers, false_iff]
    omega
  · obtain ⟨front, hfront, hle, -⟩ := payloadOf_acceptance hrun hlast hacceptance hentries
    have hlength := hle.length_le
    rw [List.length_append, hsender, logs, ← cells_length hrun] at hlength
    unfold AppendEntry.Covers
    constructor
    · rintro ⟨cell, hcell, hhome, hindex⟩
      obtain ⟨j, hj⟩ := List.mem_iff_getElem?.mp hcell
      have hstand := ReplicatedLog.getElem?_of_stretch hj
      have hcount := ReplicatedLog.lt_of_stretch hj
      by_cases hnew : (t.target.servers leader).log.length ≤ ae.prevLogIndex.toNat + j
      · have hposition := (hown _ cell hnew hstand).2
        omega
      · have hold := index_lt_of_cells hstart earlier (not_le.mp hnew) hstand hhome
        omega
    · rintro ⟨hfirst, hend⟩
      have hp' : p < (cells (before ++ [t] ++ earlier) leader).length := by omega
      have hcell := List.getElem?_eq_getElem hp'
      obtain ⟨hhome, hindex⟩ := hown p _ hp hcell
      refine ⟨_, ?_, hhome, hindex⟩
      refine List.mem_of_getElem? (i := p - ae.prevLogIndex.toNat) ?_
      rw [ReplicatedLog.getElem?_stretch (by omega), ← hcell]
      congr 1
      omega

/-! ### At most one copy -/

/-- The entries that the leader has created from `base` on have been applied at most once: a log is
made of copies of entries, at most one of each of these, and the register is the result of parsing
each copy once. -/
def AppliedOnce (history : History) (leader name : ByteString) (base : ℕ) (c : Cluster) : Prop :=
  (c.servers name).log = (cells history name).map Cell.entry ∧
    Calc.replay ((cells history name).map Cell.entry) = .ok (c.servers name).register ∧
    ∀ p, base ≤ p → copies (cells history name) leader p ≤ 1

/-- In a run a log is made of the copies, and the register is their result. -/
theorem appliedOnce_iff (hrun : Run m initial trace c) {name : ByteString} {base : ℕ} :
    AppliedOnce trace leader name base c ↔
      ∀ p, base ≤ p → copies (cells trace name) leader p ≤ 1 := by
  have hlog : (cells trace name).map Cell.entry = (c.servers name).log :=
    congrFun (cells_entry hrun) name
  rw [AppliedOnce, hlog]
  exact ⟨fun h ↦ h.2.2, fun h ↦ ⟨rfl, replay_run hrun name, h⟩⟩

end Cluster

/-- In every state of a leadership a follower has applied each entry that the leader has created in
it at most once, exactly when in every step the follower accepts such entries once: a message that
it accepts carries each of them once, and none that a message it has accepted before carries. -/
theorem applied_at_most_once_iff {m : Membership} {leader follower : ByteString}
    {before during : Cluster.History} {t : Transition Cluster Action} {c : Cluster}
    (h : Cluster.Leadership m leader before t during c) (hfollower : follower ≠ leader) :
    (∀ earlier later c', during = earlier ++ later → Cluster.Run m t.target earlier c' →
        Cluster.AppliedOnce (before ++ t :: earlier) leader follower
          (t.target.servers leader).log.length c') ↔
      Along (Cluster.AcceptsOnce leader follower (t.target.servers leader).log.length
        (before ++ [t])) during := by
  obtain ⟨hbefore, hstep, hduring⟩ := h.run.cut
  have hstart : Cluster.Run m .initial (before ++ [t]) t.target := hbefore.snoc hstep
  have hbase : (replay ((before ++ [t]).filterMap Cluster.cellEvent) leader).length =
      (t.target.servers leader).log.length := Cluster.cells_length hstart leader
  have hevents : (before ++ [t]).filterMap Cluster.cellEvent ++ during.filterMap Cluster.cellEvent =
      (before ++ t :: during).filterMap Cluster.cellEvent := by
    rw [← List.filterMap_append, List.append_assoc, List.singleton_append]
  have hlabelled := Cluster.labelled_run h.run
  have hrange := Cluster.inRange_run h.run
  rw [← hevents] at hlabelled hrange
  have hiff := ReplicatedLog.copies_le_one_iff hlabelled hrange hfollower
  rw [along_filterMap_iff, hbase] at hiff
  simp only [← Cluster.acceptsOnce_iff] at hiff
  rw [← hiff]
  constructor
  · intro hstates earlier later hsplit p hp
    obtain ⟨earlier, later, rfl, rfl, rfl⟩ := List.filterMap_eq_append_iff.mp hsplit
    obtain ⟨c', hearlier, -⟩ := hduring.split
    have hone := (hstates earlier later c' rfl hearlier).2.2 p hp
    rwa [← List.filterMap_append, List.append_assoc, List.singleton_append]
  · rintro hcopies earlier later c' rfl hearlier
    have hrun : Cluster.Run m .initial (before ++ t :: earlier) c' := by
      simpa using hstart.append hearlier
    refine (Cluster.appliedOnce_iff hrun).mpr fun p hp ↦ ?_
    have hone := hcopies (earlier.filterMap Cluster.cellEvent) _ List.filterMap_append p hp
    rwa [← List.filterMap_append, List.append_assoc, List.singleton_append] at hone

/-- A follower that has accepted one message with the command of a leader has applied it once. -/
theorem applied_at_most_once_iff_replication :
    let trace := history (Cluster.next Schedule.trio) .initial Schedule.replication
    copies (Cluster.cells trace (bytes "server2")) (bytes "server1") 0 ≠ 0 ∧
      copies (Cluster.cells (trace.take 19 ++ trace.get ⟨19, by decide⟩ :: trace.drop 20)
        (bytes "server2")) (bytes "server1") 0 ≤ 1 := by
  intro trace
  have hrun : Cluster.Run Schedule.trio .initial trace _ := run_of_isOk (by decide)
  have hleadership := Cluster.Leadership.of_index hrun (bytes "server1") 19 (by decide)
    ⟨1, by decide⟩ (by decide)
  have hfollower : bytes "server2" ≠ bytes "server1" := by decide
  have hstates := (applied_at_most_once_iff hleadership hfollower).mpr (by decide)
  refine ⟨by decide, ?_⟩
  exact (hstates _ [] _ (List.append_nil _).symm hleadership.run.cut.2.2).2.2 0 (by decide)

/-- A follower that accepts two rounds of heartbeats has applied an entry twice. -/
theorem not_applied_at_most_once_secondRound :
    ¬ ∀ (m : Membership) (leader follower : ByteString) (before during : Cluster.History)
      (t : Transition Cluster Action) (c : Cluster),
      Cluster.Leadership m leader before t during c → follower ≠ leader →
        Cluster.AppliedOnce (before ++ t :: during) leader follower
          (t.target.servers leader).log.length c := by
  intro hclaim
  have hrun : (execute (Cluster.next Schedule.trio) .initial Schedule.secondRound).isOk := by decide
  have hleadership := Cluster.Leadership.of_index (run_of_isOk hrun) (bytes "server1") 19
    (by decide) ⟨1, by decide⟩ (by decide)
  have honce := hclaim _ _ (bytes "server2") _ _ _ _ hleadership (by decide)
  exact absurd (honce.2.2 0 (by decide)) (by decide)

/-- In every run in which accepted entries begin where the log of the server that accepts them
ends, an entry stands at its own index in every log, and every log holds at most one copy of it. -/
theorem copies_le_one_of_appendsAtEnd {m : Membership} {trace : Cluster.History} {c : Cluster}
    (hrun : Cluster.Run m .initial trace c) (happends : ∀ t ∈ trace, Cluster.AppendsAtEnd t)
    (name leader : ByteString) (p : ℕ) : copies (Cluster.cells trace name) leader p ≤ 1 := by
  refine (ReplicatedLog.indexed_of_replay (along_filterMap_iff.mpr ?_)).copies_le_one name leader p
  rintro before t after rfl event hevent
  obtain ⟨hbefore, -, -⟩ := hrun.cut
  refine ⟨Cluster.labelled_cellEvent hbefore hevent, ?_⟩
  cases event with
  | create => trivial
  | copy source target start count =>
    have hstart := Cluster.start_eq_of_appendsAtEnd (happends t (by simp)) hevent
    exact hstart.trans (Cluster.cells_length hbefore target).symm

end RaftConsensus
