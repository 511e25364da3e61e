import RaftConsensus.Requests
import RaftConsensus.Answers
import RaftConsensus.HeartbeatRange

/-!
# What brings a follower up to date

`leader.on_enter` sets the next index for every follower to the size of the log, and only a failed
`AppendEntryResult` takes it back, by one (`Server.Effect.nextIndexFor_le_add`). So what a leader
has in its log already is sent to a follower only after the follower has sent as many failed results
(`resent_after_refusals`).

A follower sends one when it refuses a message: one that is stale, or one that gives another term
than its own entry at `prev_log_index` has (`Server.refusal`). A follower that lags behind has no
entry there, refuses nothing and is never sent what it misses.
-/

set_option autoImplicit false
set_option relaxedAutoImplicit false

namespace RaftConsensus

open TransitionSystem

/-- The message is a failed result of a follower. -/
def Msg.refuses (follower : ByteString) : Msg → Bool
  | .appendEntryResult aer => aer.followerName = follower && !aer.success
  | _ => false

/-- A failed result of a follower for a leader. -/
def refusalOf (leader follower : ByteString) (dst : Mbox) (msg : Msg) : Bool :=
  dst = .server leader && msg.refuses follower

/-- The message that a stimulus hands to a server is a failed result of a follower. -/
def Stimulus.refuses (follower : ByteString) : Stimulus → Bool
  | .handle msg => msg.refuses follower
  | _ => false

namespace Server

variable {s s' : Server} {x : Stimulus} {out : List Output} {leader follower : ByteString}

/-- A stimulus makes a server tell a leader that it refuses a message: the message is stale, or the
entry at `prev_log_index` has another term than the message gives for the one before. -/
def refusal (s : Server) (leader : ByteString) (x : Stimulus) : Bool :=
  match s.answering x with
  | some ae => s.addresseeOf ae = leader && (ae.term < s.term || !consistent s.log ae)
  | none => false

/-- No stimulus takes a next index back, except a failed result, which takes back one. -/
theorem Effect.nextIndexFor_le_add (h : s.Effect x s' out)
    (hle : s.nextIndexFor follower ≤ s.log.length) :
    s.nextIndexFor follower ≤ s'.nextIndexFor follower + (x.refuses follower).toNat := by
  have hgrows (hindex : s.nextIndexFor follower ≤ s'.nextIndexFor follower) :
      s.nextIndexFor follower ≤ s'.nextIndexFor follower + (x.refuses follower).toNat := by
    omega
  cases h
  case setCluster sc _ =>
    refine hgrows ?_
    rw [nextIndexFor, nextIndexFor, setClusterHandler, Mboxes.get_foldl_insert_nextIndex]
    split_ifs
    · exact hle
    · exact le_rfl
  case result aer _ _ =>
    by_cases hname : aer.followerName = follower
    · subst hname
      rw [nextIndexFor_consistencyCheck]
      cases hsuccess : aer.success with
      | false =>
        have hrefuses : (Stimulus.handle (.appendEntryResult aer)).refuses aer.followerName =
            true := by
          simp [Stimulus.refuses, Msg.refuses, hsuccess]
        rw [hrefuses]
        simp only [Bool.not_false, if_true, Bool.toNat_true]
        split_ifs <;> omega
      | true =>
        simp only [Bool.not_true, Bool.false_eq_true, if_false]
        split_ifs <;> omega
    · refine hgrows (le_of_eq ?_)
      rw [nextIndexFor, nextIndexFor, consistencyCheck, Mboxes.get_insert_of_ne (Ne.symm hname)]
  case leaderUnlock =>
    by_cases hmem : follower ∈ s.mboxes
    · refine hgrows (hle.trans_eq ?_)
      exact (Mboxes.get_setNextIndices_of_mem hmem).symm
    · exact hgrows (Mboxes.get_setNextIndices_of_not_mem hmem).ge
  case countVote | answerVote => exact hgrows (by simp [nextIndexFor])
  all_goals exact hgrows le_rfl

/-- One result is one refusal when it is failed and goes to the leader. -/
theorem countP_refusalOf_result {target : ByteString} {aer : AppendEntryResult} :
    [(Mbox.server target, Msg.appendEntryResult aer)].countP
        (fun o ↦ refusalOf leader follower o.1 o.2) =
      (decide (aer.followerName = follower) &&
        (decide (target = leader) && !aer.success)).toNat := by
  rw [List.countP_singleton, refusalOf, Msg.refuses]
  by_cases htarget : target = leader <;> by_cases hname : aer.followerName = follower <;>
    cases aer.success <;> simp [htarget, hname]

/-- A server refuses a message that is not stale by the test of the entry at `prev_log_index`. -/
theorem refusal_of_fresh {ae : AppendEntry} (hae : s.answering x = some ae)
    (hterm : s.term ≤ ae.term) :
    s.refusal leader x = (decide (ae.leaderId = leader) && !consistent s.log ae) := by
  have hstale : decide (ae.term < s.term) = false := decide_eq_false (not_lt.mpr hterm)
  rw [refusal, hae]
  simp only [addresseeOf, hterm, if_true, hstale, Bool.false_or]

/-- The refusals that a server sends to a leader are those that the stimulus makes it send. -/
theorem Effect.refusals_sent (h : s.Effect x s' out)
    (hmbox : ∀ peer dst, (s.mboxes.get peer).mbox = some dst → dst = .server peer)
    (hpending : ∀ ae, s.pending = some ae → s.term ≤ ae.term) :
    out.countP (fun o ↦ refusalOf leader follower o.1 o.2) =
      (decide (s.name = follower) && s.refusal leader x).toNat := by
  cases h
  case drop msg hidle hsubscribes =>
    cases msg <;> simp_all [refusal, answering, Role.subscribes]
  case accept ae mbox _ hidle hrole hterm hdst _ =>
    obtain rfl := hmbox _ _ hdst
    have hae : s.answering (.handle (.appendEntry ae)) = some ae := by
      simp [answering, hidle, hrole]
    rw [countP_refusalOf_result, refusal_of_fresh hae hterm]
    rfl
  case stepDown ae hidle hrole hterm =>
    have hnot : ¬ (s.role = .follower ∨ ae.term < s.term) := by
      rcases hrole with hrole | hrole <;> simp [hrole, hterm]
    simp [refusal, answering, hnot]
  case reject ae mbox hidle hactive hstale hdst =>
    obtain rfl := hmbox _ _ hdst
    have hrefusal : s.refusal leader (.handle (.appendEntry ae)) =
        decide (s.currLeader = leader) := by
      simp [refusal, answering, addresseeOf, hidle, hactive, hstale, hstale.not_ge]
    rw [countP_refusalOf_result, hrefusal]
    simp
  case enterAccept ae mbox _ hagent hdst _ =>
    obtain rfl := hmbox _ _ hdst
    have hterm : s.term ≤ ae.term := hpending ae (by rw [Server.pending, hagent])
    have hae : s.answering .resume = some ae := by simp [answering, hagent]
    have hsignal : refusalOf leader follower (.server s.name) .changeState = false := by
      simp [refusalOf, Msg.refuses]
    rw [List.countP_cons_of_neg (by simp [hsignal]), countP_refusalOf_result,
      refusal_of_fresh hae hterm]
    rfl
  all_goals simp_all [refusal, answering, refusalOf, Msg.refuses]

/-- A heartbeat begins at the next index, or at the beginning of an empty log. -/
theorem le_prevLogIndex {k garbage : ℤ} (hle : k ≤ s.log.length) :
    k ≤ (s.heartbeatFor k garbage).prevLogIndex := by
  unfold heartbeatFor
  split_ifs
  · exact le_rfl
  · exact hle

end Server

namespace Cluster

variable {m : Membership} {c c' start : Cluster} {a : Action} {trace before : History}
  {leader follower : ByteString}

/-- How often a server tells a leader in a transition that it refuses a message, once or not at
all. -/
def refusals (leader follower : ByteString) (t : Transition Cluster Action) : ℕ :=
  match t.action.stimulus with
  | some (name, x) => (decide (name = follower) && (t.source.servers name).refusal leader x).toNat
  | none => 0

/-- The refusals that are sent are those of the follower. -/
theorem sent_refusalOf (hcoherent : Coherent m c) (hstep : Step m c a c') :
    sent (refusalOf leader follower) ⟨c, a, c'⟩ = refusals leader follower ⟨c, a, c'⟩ := by
  unfold sent refusals
  cases hx : a.stimulus with
  | none => rfl
  | some actor =>
    obtain ⟨actor, x⟩ := actor
    obtain ⟨-, -, hact, -⟩ := hstep.act hx
    have hmbox (peer : ByteString) (dst : Mbox)
        (h : ((c.servers actor).mboxes.get peer).mbox = some dst) : dst = .server peer :=
      (hcoherent.mailbox actor peer dst h).2
    have hcount : _ = (decide (_ = follower) && (c.servers actor).refusal leader x).toNat :=
      (Server.act_effect hact).refusals_sent hmbox (hcoherent.pending actor)
    rw [hcoherent.name_eq] at hcount
    exact hcount

/-- In a run the refusals that are sent are those of the follower. -/
theorem sent_refusalOf_run (hrun : Run m initial trace c) :
    total (sent (refusalOf leader follower)) trace = total (refusals leader follower) trace :=
  total_congr hrun fun _ _ _ _ hbefore hstep ↦
    sent_refusalOf (coherent_initial.run hbefore) hstep

/-- No leader handles more refusals of a follower than the follower has sent to it. -/
theorem delivered_le_sent (hrun : Run m initial trace c) :
    total (delivered (refusalOf leader follower)) trace ≤
      total (sent (refusalOf leader follower)) trace := by
  have hposted : total (posted (refusalOf leader follower)) trace = total (fun _ ↦ 0) trace := by
    refine total_congr hrun fun _ _ _ _ _ hstep ↦ ?_
    cases step_effect hstep with
    | post receiver msg _ hpostable =>
      cases msg <;> simp_all [posted, refusalOf, Msg.refuses, Membership.Postable]
    | deliver | internal => rfl
  rw [total_zero] at hposted
  have haccount : total (posted (refusalOf leader follower)) trace + _ = _ := accounted_run hrun
  omega

/-- A refusal is delivered to a leader when it meets one. -/
theorem delivered_refusalOf {x : Stimulus} (hstep : Step m c a c')
    (hx : a.stimulus = some (leader, x)) :
    delivered (refusalOf leader follower) ⟨c, a, c'⟩ = (x.refuses follower).toNat := by
  cases step_effect hstep with
  | post => simp [Action.stimulus] at hx
  | deliver receiver e _ _ _ _ hdst =>
    obtain ⟨rfl, rfl⟩ := Prod.mk.inj (Option.some.inj hx)
    simp [delivered, refusalOf, hdst, Stimulus.refuses]
  | internal name y _ _ _ hinternal =>
    obtain ⟨rfl, rfl⟩ := Prod.mk.inj (Option.some.inj hx)
    cases y with
    | handle => exact hinternal.elim
    | _ => rfl

/-- A step takes a next index back by at most the refusals that it delivers. -/
theorem nextIndexFor_step (hle : (c.servers leader).nextIndexFor follower ≤
    (c.servers leader).log.length) (hstep : Step m c a c') :
    (c.servers leader).nextIndexFor follower ≤ (c'.servers leader).nextIndexFor follower +
      delivered (refusalOf leader follower) ⟨c, a, c'⟩ := by
  rcases (step_effect hstep).server leader with hsame | ⟨x, out, hx, -, heffect⟩
  · rw [hsame]
    omega
  · rw [delivered_refusalOf hstep hx]
    exact heffect.nextIndexFor_le_add hle

/-- A run takes a next index back by at most the refusals that it delivers. -/
theorem nextIndexFor_run (hbefore : Run m initial before start) (hrun : Run m start trace c) :
    (start.servers leader).nextIndexFor follower ≤ (c.servers leader).nextIndexFor follower +
      total (delivered (refusalOf leader follower)) trace := by
  induction hrun with
  | nil => simp [total]
  | snoc hrest hstep ih =>
    have hnext := nextIndexFor_step (nextIndexFor_le (hbefore.append hrest) leader follower) hstep
    rw [total_snoc]
    omega

end Cluster

/-- In every run, whatever happens between a state and a message that a leader sends to a follower,
the message begins at or after the next index that the leader had for the follower in the state,
less the number of failed results that the follower has sent to the leader so far. These are as
many as the messages of the leader that it has refused: stale ones, and those that give another
term than its own entry has. -/
theorem resent_after_refusals {m : Membership} {before earlier later : Cluster.History}
    {t u : Transition Cluster Action} {c : Cluster}
    (hrun : Cluster.Run m .initial (before ++ t :: earlier ++ u :: later) c)
    {leader follower : ByteString} {ae : AppendEntry}
    (hsent : (.server follower, .appendEntry ae) ∈ Cluster.outputs leader u) :
    let failed := Cluster.total (Cluster.sent (refusalOf leader follower)) (before ++ t :: earlier)
    (t.target.servers leader).nextIndexFor follower ≤ ae.prevLogIndex + failed ∧
      failed = Cluster.total (Cluster.refusals leader follower) (before ++ t :: earlier) := by
  intro failed
  obtain ⟨hrest, hlast, -⟩ := hrun.cut
  refine ⟨?_, Cluster.sent_refusalOf_run hrest⟩
  obtain ⟨hbefore, hstep, hduring⟩ := hrest.cut
  have hstart : Cluster.Run m .initial (before ++ [t]) t.target := hbefore.snoc hstep
  have hindex : (t.target.servers leader).nextIndexFor follower ≤ _ :=
    Cluster.nextIndexFor_run hstart hduring
  have hdelivered : Cluster.total (Cluster.delivered (refusalOf leader follower)) earlier ≤
      failed := by
    refine le_trans ?_ (Cluster.delivered_le_sent hrest)
    simp [Cluster.total]
    omega
  have hbegin : (u.source.servers leader).nextIndexFor follower ≤ ae.prevLogIndex := by
    have hcoherent := Cluster.coherent_initial.run hrest
    obtain ⟨garbage, rfl⟩ := hlast.appendEntry_sent hcoherent hsent
    exact Server.le_prevLogIndex (Cluster.nextIndexFor_le hrest leader follower)
  omega

/-- The second leader has the first command in its log, and goes through its first pass. -/
def Schedule.secondLeader : List Action :=
  replication ++ secondElection 1 1 ++ takeOffice (bytes "server2") 0 ++
    heartbeats (bytes "server2") 0 trio.names

/-- The second leader does not send the first command to the third server, which misses it and has
refused nothing. -/
theorem resent_after_refusals_secondLeader :
    let trace := history (Cluster.next Schedule.trio) .initial Schedule.secondLeader
    let u := trace.get ⟨56, by decide⟩
    ∃ ae, (.server (bytes "server3"), .appendEntry ae) ∈ Cluster.outputs (bytes "server2") u ∧
      (u.source.servers (bytes "server3")).log = [] ∧ 1 ≤ ae.prevLogIndex := by
  intro trace u
  have hrun : Cluster.Run Schedule.trio .initial trace _ := run_of_isOk (by decide)
  have hij : (⟨50, by decide⟩ : Fin trace.length) < ⟨56, by decide⟩ := by decide
  rw [← take_append_get_cons_drop_of_lt trace hij] at hrun
  have hsent : (.server (bytes "server3"), .appendEntry ⟨2, bytes "server2", 1, 1, [], 0⟩) ∈
    Cluster.outputs (bytes "server2") u := by decide
  obtain ⟨hindex, hfailed⟩ := resent_after_refusals hrun hsent
  have hnext : ((trace.get ⟨50, by decide⟩).target.servers (bytes "server2")).nextIndexFor
    (bytes "server3") = 1 := by decide
  have hnone : Cluster.total (Cluster.refusals (bytes "server2") (bytes "server3"))
      ((trace.take 56).take 50 ++ trace.get ⟨50, by decide⟩ :: (trace.take 56).drop 51) = 0 := by
    decide
  rw [hnext, hfailed, hnone] at hindex
  exact ⟨_, hsent, by decide, hindex⟩

end RaftConsensus
