import RaftConsensus.HeartbeatLoops
import RaftConsensus.Mailboxes

/-!
# Rounds of heartbeats

Handlers, state changes and the steps of other loops come between the sends of a pass of
`send_heartbeat`, but no other loop sends an `AppendEntry` meanwhile: it would have to hold the
mutex (`Server.Disciplined.unique`). So what a server sends between the beginning and the end of a
pass is one `AppendEntry` for every other member, all in the term in which the pass began
(`heartbeat_round`).
-/

set_option autoImplicit false
set_option relaxedAutoImplicit false

namespace RaftConsensus

open TransitionSystem

namespace Server

variable {s s' : Server} {x : Stimulus} {out : List Output} {i j : ℕ}
  {remaining : List ByteString}

/-- Two loops that hold the mutex are the same. -/
theorem Disciplined.unique (h : s.Disciplined) {first second : HeartbeatLoop}
    (hi : s.heartbeatThreads[i]? = some first) (hj : s.heartbeatThreads[j]? = some second)
    (hfirst : first.holds = true) (hsecond : second.holds = true) : i = j := by
  by_contra hne
  have hmutex := h.mutex
  have hcount := countP_set_add (p := HeartbeatLoop.holds) (b := .done) hi
  have hother : second ∈ s.heartbeatThreads.set i .done := by
    refine List.mem_of_getElem? (i := j) ?_
    rw [List.getElem?_set_ne hne, hj]
  have hpos : 0 < (s.heartbeatThreads.set i .done).countP HeartbeatLoop.holds :=
    List.countP_pos_iff.mpr ⟨second, hother, hsecond⟩
  have hle := Bool.toNat_le s.heartbeatMtx
  rw [hfirst, Bool.toNat_true] at hcount
  change _ + 1 = _ + 0 at hcount
  unfold holders at hmutex
  omega

/-- Only a send of a `send_heartbeat` loop sends an `AppendEntry`. -/
theorem Effect.appends_eq_nil (h : s.Effect x s' out)
    (hx : ∀ i peer garbage, x ≠ .heartbeatSend i peer garbage) : appends out = [] := by
  refine List.eq_nil_iff_forall_not_mem.mpr fun ⟨dst, ae⟩ hsent ↦ ?_
  obtain ⟨i, peer, garbage, rfl, -⟩ := h.appendEntry_sent (mem_appends_iff.mp hsent)
  exact hx i peer garbage rfl

/-- What a loop sends to a peer is one `AppendEntry`, unless the peer is the server itself. -/
theorem appends_sendHeartbeatTo {peer : ByteString} {garbage : ℤ}
    (hmbox : ∀ dst, (s.mboxes.get peer).mbox = some dst → dst = .server peer)
    (hsend : s.sendHeartbeatTo peer garbage = .ok out) :
    (appends out).map Prod.fst = ([peer].filter (· ≠ s.name)).map .server := by
  unfold sendHeartbeatTo at hsend
  split_ifs at hsend with hpeer
  · obtain ⟨dst, hdst, rfl⟩ := send_eq_ok_iff.mp hsend
    simp [appends, hpeer, hmbox dst hdst]
  · obtain rfl := Except.ok.inj hsend
    simp [appends, not_not.mp hpeer]

/-- While a loop is in a pass, the server sends `AppendEntry` messages only to peers that this loop
still has to reach, and it reaches them by it. -/
theorem Disciplined.round_step (h : s.Disciplined)
    (hmbox : ∀ peer dst, (s.mboxes.get peer).mbox = some dst → dst = .server peer)
    (hi : s.heartbeatThreads[i]? = some (.sending remaining)) (hact : s.act x = .ok (s', out))
    (hx : x ≠ .heartbeatStep i) :
    ∃ sent rest, s'.heartbeatThreads[i]? = some (.sending rest) ∧
      (sent ++ rest).Perm remaining ∧
      (appends out).map Prod.fst = (sent.filter (· ≠ s.name)).map .server := by
  have hlength := (List.getElem?_eq_some_iff.mp hi).1
  have hidle (hsame : s'.heartbeatThreads[i]? = some (.sending remaining))
      (hnone : appends out = []) : ∃ sent rest, s'.heartbeatThreads[i]? = some (.sending rest) ∧
        (sent ++ rest).Perm remaining ∧
        (appends out).map Prod.fst = (sent.filter (· ≠ s.name)).map .server :=
    ⟨[], remaining, hsame, List.Perm.refl _, by simp [hnone]⟩
  by_cases hloop : x.heartbeat = false
  · have hother : ∀ i peer garbage, x ≠ .heartbeatSend i peer garbage := by
      rintro i peer garbage rfl
      simp [Stimulus.heartbeat] at hloop
    refine hidle ?_ ((act_effect hact).appends_eq_nil hother)
    rcases (act_effect hact).heartbeatThreads_cases hloop with hsame | hstart
    · rw [hsame, hi]
    · rw [hstart, List.getElem?_append_left hlength, hi]
  · cases x with
    | heartbeatStep j =>
      have hne : j ≠ i := fun hsame ↦ hx (hsame ▸ rfl)
      obtain ⟨loop, mtx, next, -, -, rfl, rfl⟩ := act_heartbeatStep hact
      exact hidle ((List.getElem?_set_ne hne).trans hi) rfl
    | heartbeatSend j peer garbage =>
      obtain ⟨peers, hj, hpeer, rfl, hsend⟩ := act_heartbeatSend hact
      obtain rfl := h.unique hi hj rfl rfl
      obtain rfl := HeartbeatLoop.sending.inj (Option.some.inj (hi.symm.trans hj))
      exact ⟨[peer], remaining.erase peer, List.getElem?_set_self hlength,
        (List.perm_cons_erase hpeer).symm, appends_sendHeartbeatTo (hmbox peer) hsend⟩
    | handle | timeLimit | resume | requestVoteStep | requestVoteSend => exact absurd rfl hloop

end Server

namespace Cluster

variable {m : Membership} {c c' : Cluster} {a : Action} {before during : History}
  {name : ByteString} {i : ℕ} {peers : List ByteString} {term : ℤ}

/-- The `AppendEntry` messages that a server sends in a history. -/
def appendsIn (name : ByteString) (history : History) : List (Mbox × AppendEntry) :=
  history.flatMap fun t ↦ appends (outputs name t)

theorem appendsIn_append (first second : History) :
    appendsIn name (first ++ second) = appendsIn name first ++ appendsIn name second :=
  List.flatMap_append

theorem appendsIn_singleton (t : Transition Cluster Action) :
    appendsIn name [t] = appends (outputs name t) :=
  List.flatMap_singleton ..

/-- A loop is in a pass over some peers, in a term. Its server has sent one `AppendEntry` to each
peer that the loop has reached, except to itself, and no others. -/
structure InPass (name : ByteString) (i : ℕ) (peers : List ByteString) (term : ℤ)
    (during : History) (c : Cluster) : Prop where
  reached : ∃ sent rest, (c.servers name).heartbeatThreads[i]? = some (.sending rest) ∧
    (sent ++ rest).Perm peers ∧
    (appendsIn name during).map Prod.fst = (sent.filter (· ≠ name)).map .server
  term_eq : (c.servers name).term = term
  stamped : ∀ el ∈ appendsIn name during, el.2.term = term ∧ el.2.leaderId = name

/-- A step of another server changes nothing in a pass. -/
theorem InPass.of_others (h : InPass name i peers term during c)
    (hsame : c'.servers name = c.servers name)
    (hnone : outputs name ⟨c, a, c'⟩ = []) :
    InPass name i peers term (during ++ [⟨c, a, c'⟩]) c' := by
  have hsent : appendsIn name (during ++ [⟨c, a, c'⟩]) = appendsIn name during := by
    rw [appendsIn_append, appendsIn_singleton, hnone]
    exact List.append_nil _
  refine ⟨?_, ?_, ?_⟩
  · rw [hsame, hsent]
    exact h.reached
  · rw [hsame, h.term_eq]
  · rw [hsent]
    exact h.stamped

/-- Every step but the end of the pass keeps a loop in its pass. -/
theorem InPass.step (h : InPass name i peers term during c) (hcoherent : Coherent m c)
    (hdisciplined : (c.servers name).Disciplined) (hstep : Step m c a c')
    (hpass : a ≠ .internal name (.heartbeatStep i)) :
    InPass name i peers term (during ++ [⟨c, a, c'⟩]) c' := by
  by_cases hactor : ∃ x, a.stimulus = some (name, x)
  · obtain ⟨x, hx⟩ := hactor
    obtain ⟨-, -, hact, -⟩ := hstep.act hx
    have hself := hcoherent.name_eq name
    have hother : x ≠ .heartbeatStep i := by
      rintro rfl
      rcases Action.stimulus_cases hx with ⟨e, -, hmsg⟩ | rfl
      · cases hmsg
      · exact hpass rfl
    obtain ⟨sent, rest, hrest, hperm, hreceivers⟩ := h.reached
    obtain ⟨now, later, hlater, hsplit, hnow⟩ := hdisciplined.round_step
      (fun peer dst hdst ↦ (hcoherent.mailbox name peer dst hdst).2) hrest hact hother
    rw [hself] at hnow
    have hkept : (c'.servers name).term = (c.servers name).term :=
      (hdisciplined.pass_step hact (List.mem_of_getElem? hlater)).2.1
    refine ⟨⟨sent ++ now, later, hlater, ?_, ?_⟩, hkept.trans h.term_eq, ?_⟩
    · rw [List.append_assoc]
      exact (hsplit.append_left sent).trans hperm
    · rw [appendsIn_append, appendsIn_singleton, List.map_append, hreceivers, hnow,
        List.filter_append, List.map_append]
    · intro el hel
      rw [appendsIn_append, appendsIn_singleton] at hel
      rcases List.mem_append.mp hel with hold | hnew
      · exact h.stamped el hold
      · obtain ⟨j, peer, garbage, -, -, -, hae, -⟩ :=
          (Server.act_effect hact).appendEntry_sent (mem_appends_iff.mp hnew)
        rw [hae, Server.heartbeatFor_term, Server.heartbeatFor_leaderId]
        exact ⟨h.term_eq, hself⟩
  · refine h.of_others ((hstep.act_cases name).resolve_right ?_) ?_
    · rintro ⟨x, hx, -⟩
      exact hactor ⟨x, hx⟩
    · refine List.eq_nil_iff_forall_not_mem.mpr fun o ho ↦ ?_
      obtain ⟨x, hx, -⟩ := stimulus_of_mem_outputs ho
      exact hactor ⟨x, hx⟩

/-- A loop that is in a pass stays in it up to its end. -/
theorem inPass_run (hbefore : Run m initial before c) (hduring : Run m c during c')
    (hi : (c.servers name).heartbeatThreads[i]? = some (.sending peers))
    (hpass : ∀ t ∈ during, t.action ≠ .internal name (.heartbeatStep i)) :
    InPass name i peers (c.servers name).term during c' := by
  induction hduring with
  | nil => exact ⟨⟨[], peers, hi, List.Perm.refl _, rfl⟩, rfl, by simp [appendsIn]⟩
  | snoc hrest hstep ih =>
    have hmiddle := hbefore.append hrest
    have hlast := hpass _ (List.mem_append_right _ (List.mem_singleton_self _))
    exact (ih fun t ht ↦ hpass t (List.mem_append_left _ ht)).step
      (coherent_initial.run hmiddle) (disciplined_run hmiddle name) hstep hlast

end Cluster

/-- In every run, whatever else happens in the server and the cluster between the beginning of a
pass of `send_heartbeat` and its end, the server sends exactly one `AppendEntry` to every other
member meanwhile, in its own name and in the term in which the pass began. -/
theorem heartbeat_round {m : Membership} {before during after : Cluster.History}
    {first last : Transition Cluster Action} {c : Cluster} {name : ByteString} {i : ℕ}
    (hrun : Cluster.Run m .initial (before ++ first :: during ++ last :: after) c)
    (hfirst : first.action = .internal name (.heartbeatStep i))
    (hbegins : (first.source.servers name).heartbeatThreads[i]? = some .test)
    (hflag : (first.source.servers name).isLeader = true)
    (hduring : ∀ t ∈ during, t.action ≠ .internal name (.heartbeatStep i))
    (hlast : last.action = .internal name (.heartbeatStep i)) :
    ((Cluster.appendsIn name during).map Prod.fst).Perm ((m.names.erase name).map .server) ∧
      ∀ el ∈ Cluster.appendsIn name during,
        el.2.term = (first.source.servers name).term ∧ el.2.leaderId = name := by
  obtain ⟨hpass, hend, -⟩ := hrun.cut
  obtain ⟨hbefore, hstep, hround⟩ := hpass.cut
  rw [hfirst] at hstep
  rw [hlast] at hend
  obtain ⟨-, -, hact, -⟩ := hstep.act rfl
  obtain ⟨-, -, hact', -⟩ := hend.act rfl
  have hbegun : (first.target.servers name).heartbeatThreads[i]? =
      some (.sending (first.source.servers name).mboxes.keys) := by
    obtain ⟨loop, mtx, next, hloop, hnext, htarget, -⟩ := Server.act_heartbeatStep hact
    obtain rfl := Option.some.inj (hbegins.symm.trans hloop)
    rw [htarget]
    cases hnext with
    | enter => exact List.getElem?_set_self (List.getElem?_eq_some_iff.mp hloop).1
    | leave hcleared => simp [hflag] at hcleared
  have hinPass := Cluster.inPass_run (hbefore.snoc hstep) hround hbegun hduring
  obtain ⟨sent, rest, hrest, hperm, hreceivers⟩ := hinPass.reached
  have hended : rest = [] := by
    obtain ⟨loop, mtx, next, hloop, hnext, -⟩ := Server.act_heartbeatStep hact'
    obtain rfl := Option.some.inj (hrest.symm.trans hloop)
    cases hnext with
    | again => rfl
  have hterm : (first.target.servers name).term = (first.source.servers name).term := by
    obtain ⟨loop, mtx, next, -, -, htarget, -⟩ := Server.act_heartbeatStep hact
    rw [htarget]
  have hleader := (Cluster.disciplined_run hbefore name).flag hflag
  have hknows := (Cluster.complete_run hbefore).leader name hleader
  rw [hended, List.append_nil] at hperm
  rw [hreceivers, m.nodup.erase_eq_filter, ← hterm]
  refine ⟨((hperm.trans (Server.knows_iff_perm.mp hknows)).filter _).map _ |>.trans ?_,
    hinPass.stamped⟩
  refine List.Perm.of_eq (congrArg _ (List.filter_congr fun peer _ ↦ ?_))
  by_cases hpeer : peer = name <;> simp [hpeer]

/-- The pass of the first leader over the three servers sends its first command to the other two. -/
theorem heartbeat_round_replication :
    let trace := history (Cluster.next Schedule.trio) .initial Schedule.replication
    let during := (trace.take 30).drop 27
    ((Cluster.appendsIn (bytes "server1") during).map Prod.fst).Perm
        [.server (bytes "server2"), .server (bytes "server3")] ∧
      ∀ el ∈ Cluster.appendsIn (bytes "server1") during, el.2.term = 1 := by
  intro trace during
  have hrun : Cluster.Run Schedule.trio .initial trace _ := run_of_isOk (by decide)
  have hij : (⟨26, by decide⟩ : Fin trace.length) < ⟨30, by decide⟩ := by decide
  rw [← take_append_get_cons_drop_of_lt trace hij] at hrun
  have hfirst : (trace.get ⟨26, by decide⟩).action =
    .internal (bytes "server1") (.heartbeatStep 0) := by decide
  have hround := heartbeat_round hrun hfirst (by decide) (by decide) (by decide) (by decide)
  exact ⟨hround.1, fun el hel ↦ (hround.2 el hel).1.trans (by decide)⟩

end RaftConsensus
