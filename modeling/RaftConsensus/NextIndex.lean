import RaftConsensus.Model.Outputs
import RaftConsensus.Replication

/-!
# The next index

A leader keeps a next index for every follower, the index from which on it sends its log to it. A
successful `AppendEntryResult` does not say which message it answers, and `consistency_check` sets
the next index to the size that the log has when the result arrives. A command accepted after the
answered message has been sent is then never sent to the follower (`not_none_skipped_lateResult`).

`Server.raise` is the event that a next index is raised: by a result, or by a `SetCluster` message
that the leader handles. `none_skipped_iff` shows that the next index never passes an entry that
has not been sent in this leadership exactly when the last entry of the log has been sent whenever
the next index is raised.
-/

set_option autoImplicit false
set_option relaxedAutoImplicit false

namespace RaftConsensus

open TransitionSystem

/-! ### How next indices change -/

namespace Mboxes

variable {m : Mboxes} {name : ByteString}

/-- A `SetCluster` map sets the next indices of the names in it, and no others. -/
theorem get_foldl_insert_nextIndex {entries : List (ByteString × Option Mbox)} {index : ℤ} :
    (Mboxes.get (entries.foldl (fun m el ↦ m.insert el.1 ⟨el.2, index⟩) m) name).nextIndex =
      if name ∈ entries.map Prod.fst then index else (m.get name).nextIndex := by
  induction entries generalizing m with
  | nil => simp
  | cons el rest ih =>
    rw [List.foldl_cons, ih]
    by_cases hname : name = el.1
    · subst hname
      simp
    · rw [get_insert_of_ne hname]
      simp only [List.map_cons, List.mem_cons, hname, false_or]

/-- A next index after all have been set is the one they are set to, or that of no peer. -/
theorem get_setNextIndices_nextIndex {index : ℤ} :
    ((m.setNextIndices index).get name).nextIndex = index ∨
      ((m.setNextIndices index).get name).nextIndex = 0 := by
  unfold get
  rw [lookup_setNextIndices]
  cases m.lookup name with
  | none => exact Or.inr rfl
  | some peer => exact Or.inl rfl

end Mboxes

namespace Server

variable {s s' : Server} {x : Stimulus} {out : List Output} {follower : ByteString}

/-- The next index for a follower. -/
def nextIndexFor (s : Server) (follower : ByteString) : ℤ := (s.mboxes.get follower).nextIndex

/-- The size of the log, when a stimulus raises the next index for a follower to it: a successful
result, or a `SetCluster` map with the follower. -/
def raise (follower : ByteString) (s : Server) : Stimulus → Option ℕ
  | .handle (.appendEntryResult aer) =>
    if s.agent = .idle ∧ s.role = .leader ∧ aer.followerName = follower ∧ aer.success = true ∧
        0 ≤ s.nextIndexFor follower ∧ s.nextIndexFor follower < s.log.length then
      some s.log.length
    else none
  | .handle (.setCluster sc) =>
    if s.agent = .idle ∧ follower ∈ sc.mboxes.map Prod.fst ∧
        s.nextIndexFor follower < s.log.length then
      some s.log.length
    else none
  | _ => none

/-- A raised next index is the size of the log, which stays as it is. -/
theorem Effect.nextIndexFor_of_raise (h : s.Effect x s' out) {size : ℕ}
    (hraise : s.raise follower x = some size) :
    size = s.log.length ∧ s'.nextIndexFor follower = size ∧ s'.log = s.log := by
  unfold raise at hraise
  split at hraise
  next aer =>
    split_ifs at hraise with hcond
    obtain ⟨hidle, hrole, hname, hsuccess, hnonneg, hlt⟩ := hcond
    obtain rfl := Option.some.inj hraise
    cases h
    case drop hsubscribes => simp [Role.subscribes, hrole] at hsubscribes
    case result =>
      subst hname
      unfold nextIndexFor at hnonneg hlt
      simp [nextIndexFor, consistencyCheck, hsuccess, hnonneg, hlt]
  next sc =>
    split_ifs at hraise with hcond
    obtain ⟨hidle, hmem, hlt⟩ := hcond
    obtain rfl := Option.some.inj hraise
    cases h
    case drop hsubscribes => simp [Role.subscribes] at hsubscribes
    case setCluster =>
      refine ⟨rfl, ?_, rfl⟩
      rw [nextIndexFor, setClusterHandler, Mboxes.get_foldl_insert_nextIndex, if_pos hmem]
  next => simp at hraise

/-- A next index is raised, or set at the beginning of a leadership, or does not grow. -/
theorem Effect.nextIndexFor_cases (h : s.Effect x s' out)
    (hle : s.nextIndexFor follower ≤ s.log.length) :
    s.raise follower x = some s.log.length ∨
      (s.agent = .leaderUnlock ∧ s'.log = s.log ∧ s'.nextIndexFor follower ≤ s.log.length) ∨
      s'.nextIndexFor follower ≤ s.nextIndexFor follower := by
  cases h
  case setCluster sc hidle =>
    by_cases hraise : follower ∈ sc.mboxes.map Prod.fst ∧ s.nextIndexFor follower < s.log.length
    · exact Or.inl (by rw [raise, if_pos ⟨hidle, hraise⟩])
    · refine Or.inr (Or.inr ?_)
      rw [nextIndexFor, setClusterHandler, Mboxes.get_foldl_insert_nextIndex]
      split_ifs with hmem
      · exact not_lt.mp fun hlt ↦ hraise ⟨hmem, hlt⟩
      · exact le_rfl
  case result aer hidle hrole =>
    by_cases hname : aer.followerName = follower
    · subst hname
      by_cases hraise : aer.success = true ∧ 0 ≤ s.nextIndexFor aer.followerName ∧
          s.nextIndexFor aer.followerName < s.log.length
      · exact Or.inl (by rw [raise, if_pos ⟨hidle, hrole, rfl, hraise⟩])
      · refine Or.inr (Or.inr ?_)
        unfold nextIndexFor at hraise ⊢
        rw [consistencyCheck, Mboxes.get_insert_self]
        grind
    · refine Or.inr (Or.inr ?_)
      rw [nextIndexFor, consistencyCheck, Mboxes.get_insert_of_ne (Ne.symm hname)]
      exact le_rfl
  case leaderUnlock hagent =>
    refine Or.inr (Or.inl ⟨hagent, rfl, ?_⟩)
    rcases s.mboxes.get_setNextIndices_nextIndex with hindex | hindex
    · exact hindex.le
    · exact hindex.trans_le (by positivity)
  case countVote | answerVote => exact Or.inr (Or.inr (by simp [nextIndexFor]))
  all_goals exact Or.inr (Or.inr le_rfl)

/-- Every effect keeps the next indices at most the size of the log. -/
theorem Effect.nextIndexFor_le (h : s.Effect x s' out)
    (hle : s.nextIndexFor follower ≤ s.log.length) : s'.nextIndexFor follower ≤ s'.log.length := by
  obtain ⟨entries, hlog, -⟩ := h.log_append
  have hlength : s.log.length ≤ s'.log.length := by simp [hlog]
  rcases h.nextIndexFor_cases hle with hraise | ⟨-, -, hindex⟩ | hindex
  · obtain ⟨-, hindex, hsame⟩ := h.nextIndexFor_of_raise hraise
    rw [hindex, hsame]
  · omega
  · omega

/-- While a server stays leader, it is in the part of `leader.on_enter` up to the unlock only as
long as it has been since it became leader, and its log stays as it is there. -/
theorem Effect.entering_cases (h : s.Effect x s' out) (hleader : s.role = .leader)
    (hentering : s'.agent = .leaderLock ∨ s'.agent = .leaderUnlock) :
    s'.log = s.log ∧ (s.agent = .leaderLock ∨ s.agent = .leaderUnlock) := by
  cases h
  case countVote hrole _ => simp [Role.subscribes, hleader] at hrole
  case answerVote hrole _ _ => simp [Role.subscribes, hleader] at hrole
  all_goals simp_all [setClusterHandler, activateFollower, activateInactive, changeStateHandler,
    accepted, leaveFollowerEntry, consistencyCheck, exitState]

/-- What lies before the payload of a heartbeat lies before the next index. -/
theorem lt_of_lt_prevLogIndex {k garbage : ℤ} {p : ℕ}
    (hp : (p : ℤ) < (s.heartbeatFor k garbage).prevLogIndex) : (p : ℤ) < k := by
  unfold heartbeatFor at hp
  split_ifs at hp with hlog
  · exact hp
  · dsimp only at hp
    omega

/-- A step that raises a next index sends no `AppendEntry`. -/
theorem Effect.not_sent_of_raise (h : s.Effect x s' out) {size : ℕ}
    (hraise : s.raise follower x = some size) {dst : Mbox} {ae : AppendEntry} :
    (dst, .appendEntry ae) ∉ out := by
  intro hsent
  obtain ⟨i, peer, garbage, rfl, -⟩ := h.appendEntry_sent hsent
  cases hraise

end Server

namespace Cluster

variable {m : Membership} {c c' : Cluster} {a : Action} {trace before during earlier : History}
  {t u : Transition Cluster Action} {leader follower : ByteString} {base p : ℕ}

/-! ### Sent entries -/

/-- The leader has sent the entry at a position of its log to a follower. -/
def SentEntry (history : History) (leader follower : ByteString) (p : ℕ) : Prop :=
  ∃ u ∈ history, ∃ sent ∈ appends (outputs leader u), sent.1 = .server follower ∧ sent.2.Covers p

instance : Decidable (SentEntry trace leader follower p) := by
  unfold SentEntry
  infer_instance

/-- The next index has not passed an entry from `base` on that has not been sent. -/
def NoneSkipped (history : History) (leader follower : ByteString) (base : ℕ) (c : Cluster) :
    Prop :=
  ∀ p, base ≤ p → p < (c.servers leader).log.length →
    (p : ℤ) < (c.servers leader).nextIndexFor follower → SentEntry history leader follower p

/-- When the next index is raised, the last entry of the log has been sent, if it is one from
`base` on. -/
def RaisedAfterSent (leader follower : ByteString) (base : ℕ) (earlier : History)
    (u : Transition Cluster Action) : Prop :=
  ∀ raised ∈ observe (Server.raise follower) u, raised.1 = leader → base < raised.2 →
    SentEntry earlier leader follower (raised.2 - 1)

instance : Decidable (RaisedAfterSent leader follower base earlier u) := by
  unfold RaisedAfterSent
  infer_instance

theorem SentEntry.mono (h : SentEntry earlier leader follower p) (later : History) :
    SentEntry (earlier ++ later) leader follower p := by
  obtain ⟨u, hu, hsent⟩ := h
  exact ⟨u, List.mem_append_left _ hu, hsent⟩

/-- What a server sends to a follower as an `AppendEntry` is its heartbeat for the next index of the
follower. -/
theorem Step.appendEntry_sent (hstep : Step m c a c') (hc : Coherent m c) {ae : AppendEntry}
    (hsent : (.server follower, .appendEntry ae) ∈ outputs leader ⟨c, a, c'⟩) :
    ∃ garbage,
      ae = (c.servers leader).heartbeatFor ((c.servers leader).nextIndexFor follower) garbage := by
  obtain ⟨-, x, -, -, heffect⟩ := hstep.of_mem_outputs hsent
  obtain ⟨i, peer, garbage, -, -, hmbox, rfl, -, -⟩ := heffect.appendEntry_sent hsent
  obtain rfl : follower = peer := Mbox.server.inj (hc.mailbox leader peer _ hmbox).2
  exact ⟨garbage, rfl⟩

/-- In a run no next index is above the size of the log. -/
theorem nextIndexFor_le (hrun : Run m initial trace c) (name follower : ByteString) :
    (c.servers name).nextIndexFor follower ≤ (c.servers name).log.length := by
  refine server_invariant (fun name ↦ ?_) (fun s x s' out hs heffect ↦ heffect.nextIndexFor_le hs)
    hrun name
  simp [initial, Server.initial, Server.nextIndexFor]

/-! ### The next index during a leadership -/

/-- What a leadership keeps for a follower: up to the unlock in `leader.on_enter` the log is as it
was at the beginning, and neither the next index nor a message passes an entry created since then
that has not been sent. -/
structure Replicating (leader follower : ByteString) (base : ℕ) (history : History)
    (c : Cluster) : Prop where
  entering : (c.servers leader).agent = .leaderLock ∨ (c.servers leader).agent = .leaderUnlock →
    (c.servers leader).log.length = base
  nextIndex : NoneSkipped history leader follower base c
  message : ∀ u ∈ history, ∀ sent ∈ appends (outputs leader u), sent.1 = .server follower →
    ∀ p : ℕ, base ≤ p → (p : ℤ) < sent.2.prevLogIndex → SentEntry history leader follower p

/-- When the last entry has been sent, and no message has passed an entry that has not, every entry
has been sent. -/
theorem Replicating.sentEntry_of_last (h : Replicating leader follower base earlier c) {size : ℕ}
    (hlast : SentEntry earlier leader follower (size - 1)) (hbase : base ≤ p) (hp : p < size) :
    SentEntry earlier leader follower p := by
  obtain ⟨u, hu, sent, hsent, hfollower, hcovers⟩ := hlast
  by_cases hbefore : (p : ℤ) < sent.2.prevLogIndex
  · exact h.message u hu sent hsent hfollower p hbase hbefore
  · refine ⟨u, hu, sent, hsent, hfollower, not_lt.mp hbefore, ?_⟩
    have hend := hcovers.2
    omega

/-- A next index that passes no entry that has not been sent passes none after a step. -/
theorem Replicating.nextIndex_step (h : Replicating leader follower base earlier c)
    (hle : (c.servers leader).nextIndexFor follower ≤ (c.servers leader).log.length)
    (hstep : Step m c a c') (hraise : RaisedAfterSent leader follower base earlier ⟨c, a, c'⟩) :
    NoneSkipped earlier leader follower base c' := by
  intro p hbase hlength hindex
  rcases (step_effect hstep).server leader with hsame | ⟨x, out, hx, -, heffect⟩
  · rw [hsame] at hlength hindex
    exact h.nextIndex p hbase hlength hindex
  · rcases heffect.nextIndexFor_cases hle with hraised | ⟨hagent, -, hentry⟩ | hkept
    · obtain ⟨-, -, hlog⟩ := heffect.nextIndexFor_of_raise hraised
      rw [hlog] at hlength
      refine h.sentEntry_of_last (hraise _ (observe_eq_some hx hraised) rfl ?_) hbase hlength
      dsimp only
      omega
    · have hsize := h.entering (Or.inr hagent)
      omega
    · exact h.nextIndex p hbase (by omega) (by omega)

/-- Every step of a leadership in which the next index is raised only after the last entry has
been sent keeps it behind the entries that have not been sent. -/
theorem Replicating.step (h : Replicating leader follower base earlier c) (hc : Coherent m c)
    (hle : (c.servers leader).nextIndexFor follower ≤ (c.servers leader).log.length)
    (hstep : Step m c a c') (hleader : (c.servers leader).role = .leader)
    (hraise : RaisedAfterSent leader follower base earlier ⟨c, a, c'⟩) :
    Replicating leader follower base (earlier ++ [⟨c, a, c'⟩]) c' where
  entering hentering := by
    rcases (step_effect hstep).server leader with hsame | ⟨x, out, -, -, heffect⟩
    · rw [hsame] at hentering ⊢
      exact h.entering hentering
    · obtain ⟨hlog, hbefore⟩ := heffect.entering_cases hleader hentering
      rw [hlog]
      exact h.entering hbefore
  nextIndex p hbase hlength hindex :=
    (h.nextIndex_step hle hstep hraise p hbase hlength hindex).mono _
  message u hu sent hsent hreceiver p hbase hp := by
    rcases List.mem_append.mp hu with hold | hnew
    · exact (h.message u hold sent hsent hreceiver p hbase hp).mono _
    · obtain rfl := List.mem_singleton.mp hnew
      obtain ⟨dst, ae⟩ := sent
      obtain rfl : dst = .server follower := hreceiver
      obtain ⟨garbage, rfl⟩ := hstep.appendEntry_sent hc (mem_appends_iff.mp hsent)
      have hindex : (p : ℤ) < (c.servers leader).nextIndexFor follower :=
        Server.lt_of_lt_prevLogIndex hp
      exact (h.nextIndex p hbase (by omega) hindex).mono _

/-- A leadership in which the next index is raised only after the last entry has been sent keeps it
behind the entries that have not been sent. -/
theorem replicating_run {start : Cluster} (hstart : Run m initial before start)
    (hrun : Run m start during c) (hleader : (start.servers leader).role = .leader)
    (hstays : ∀ u ∈ during, (u.target.servers leader).role = .leader)
    (hraise : Along (RaisedAfterSent leader follower (start.servers leader).log.length) during) :
    (c.servers leader).role = .leader ∧
      Replicating leader follower (start.servers leader).log.length during c := by
  induction hrun with
  | nil =>
    refine ⟨hleader, fun _ ↦ rfl, fun p hbase hlength ↦ ?_, by simp⟩
    omega
  | snoc hrest hstep ih =>
    obtain ⟨hraise, hlast⟩ := along_snoc.mp hraise
    obtain ⟨hmiddle, hreplicating⟩ := ih (fun u hu ↦ hstays u (List.mem_append_left _ hu)) hraise
    exact ⟨hstays _ (List.mem_append_right _ (List.mem_singleton_self _)),
      hreplicating.step (coherent_initial.run (hstart.append hrest))
        (nextIndexFor_le (hstart.append hrest) _ _) hstep hmiddle hlast⟩

/-- When the next index is raised, an entry that has been sent has been sent before. -/
theorem sentEntry_of_raise {size : ℕ} (hstep : Step m u.source u.action u.target)
    (hraised : observe (Server.raise follower) u = some (leader, size))
    (h : SentEntry (earlier ++ [u]) leader follower p) : SentEntry earlier leader follower p := by
  obtain ⟨v, hv, sent, hsent, hreceiver, hcovers⟩ := h
  rcases List.mem_append.mp hv with hold | hnew
  · exact ⟨v, hold, sent, hsent, hreceiver, hcovers⟩
  · obtain rfl := List.mem_singleton.mp hnew
    obtain ⟨x, hx, hraise⟩ := observe_eq_some_iff.mp hraised
    obtain ⟨-, y, hy, -, heffect⟩ := hstep.of_mem_outputs (mem_appends_iff.mp hsent)
    obtain ⟨-, rfl⟩ := Prod.mk.inj (Option.some.inj (hx.symm.trans hy))
    exact absurd (mem_appends_iff.mp hsent) (heffect.not_sent_of_raise hraise)

end Cluster

/-- In every state of a leadership the next index for a follower passes no entry created in this
leadership that has not been sent to the follower in it, exactly when the last entry of the log
has been sent in every step that raises the next index. -/
theorem none_skipped_iff {m : Membership} {leader : ByteString} {before during : Cluster.History}
    {t : Transition Cluster Action} {c : Cluster}
    (h : Cluster.Leadership m leader before t during c) (follower : ByteString) :
    (∀ earlier later c', during = earlier ++ later → Cluster.Run m t.target earlier c' →
        Cluster.NoneSkipped earlier leader follower (t.target.servers leader).log.length c') ↔
      Along (Cluster.RaisedAfterSent leader follower (t.target.servers leader).log.length)
        during := by
  obtain ⟨hbefore, hstep, hduring⟩ := h.run.cut
  have hstart : Cluster.Run m .initial (before ++ [t]) t.target := hbefore.snoc hstep
  obtain ⟨term, henters⟩ := h.enters
  constructor
  · rintro hnone earlier u later rfl ⟨name, size⟩ hraised hleader hbase
    dsimp only at hleader hbase
    subst hleader
    obtain ⟨hearlier, hstep, -⟩ := hduring.cut
    obtain ⟨x, hx, hraise⟩ := Cluster.observe_eq_some_iff.mp hraised
    obtain ⟨-, -, out, heffect⟩ := (Cluster.step_effect hstep).of_stimulus hx
    obtain ⟨hsize, hindex, hlog⟩ := heffect.nextIndexFor_of_raise hraise
    refine Cluster.sentEntry_of_raise hstep hraised
      (hnone (earlier ++ [u]) later u.target (by simp) (hearlier.snoc hstep) _ ?_ ?_ ?_)
    · exact Nat.le_sub_one_of_lt hbase
    · rw [hlog]
      omega
    · rw [hindex]
      omega
  · rintro hraise earlier later c' rfl hearlier
    exact (Cluster.replicating_run hstart hearlier henters.2.1
      (fun u hu ↦ h.stays u (List.mem_append_left _ hu)) hraise.of_append).2.nextIndex

/-- A leader has sent a command to a follower when it handles the result and raises the next
index. -/
theorem none_skipped_iff_replication :
    let actions := Schedule.replication ++ Schedule.acknowledge
      (Schedule.firstLeaderEntries 0 0 ["ADD;5"]) ⟨bytes "server2", 1, true⟩
    let trace := history (Cluster.next Schedule.trio) .initial actions
    let c := finalState (Cluster.next Schedule.trio) .initial actions
    (c.servers (bytes "server1")).nextIndexFor (bytes "server2") = 1 ∧
      Cluster.NoneSkipped (trace.drop 20) (bytes "server1") (bytes "server2") 0 c := by
  intro actions trace c
  have hrun : Cluster.Run Schedule.trio .initial trace c := run_of_isOk (by decide)
  have hleadership := Cluster.Leadership.of_index hrun (bytes "server1") 19 (by decide)
    ⟨1, by decide⟩ (by decide)
  refine ⟨by decide, ?_⟩
  exact (none_skipped_iff hleadership (bytes "server2")).mpr (by decide) _ [] c
    (List.append_nil _).symm hleadership.run.cut.2.2

/-- A leader sends a heartbeat, accepts a command, and then handles the result of the heartbeat. -/
def Schedule.lateResult : List Action :=
  form trio ++ firstElection ++ heartbeats (bytes "server1") 0 trio.names ++
    append (bytes "server2") (firstLeaderEntries 0 0 []) ++ request (bytes "server1") "ADD;1" ++
    acknowledge (firstLeaderEntries 0 0 []) ⟨bytes "server2", 1, true⟩

/-- The next index for a follower passes an entry that has never been sent to it. -/
theorem not_none_skipped_lateResult :
    ¬ ∀ (m : Membership) (leader follower : ByteString) (before during : Cluster.History)
      (t : Transition Cluster Action) (c : Cluster),
      Cluster.Leadership m leader before t during c → follower ≠ leader →
        Cluster.NoneSkipped during leader follower (t.target.servers leader).log.length c := by
  intro hclaim
  have hrun : (execute (Cluster.next Schedule.trio) .initial Schedule.lateResult).isOk := by decide
  have hleadership := Cluster.Leadership.of_index (run_of_isOk hrun) (bytes "server1") 19
    (by decide) ⟨1, by decide⟩ (by decide)
  have hskipped := hclaim _ _ (bytes "server2") _ _ _ _ hleadership (by decide) 0 (by decide)
    (by decide) (by decide)
  exact absurd hskipped (by decide)

end RaftConsensus
