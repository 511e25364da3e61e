import RaftConsensus.LockUp
import RaftConsensus.SelfElection

/-!
# Which servers can still lead

From a state of a run a server can come to lead, whatever the others do, unless it is locked up on
its mutex or the program ends when it has entered the follower state, by the message that it is
handling (`can_lead_iff`). It needs none of the others for it.

What a server attains depends on its map and its threads, and `Server.Fit` is what every state of a
run secures about them: the map has the mailbox of every key, the loops reach only keys, a candidate
has a `send_request_vote` loop that has not ended, and no more votes are counted than the threshold
allows. A server that is not leader attains an unlocked mutex first (`Fit.attains_unlocked`): a loop
that holds it ends its pass, finds the flag cleared and unlocks it. The agent can then run to the
end of the handler that it is in.
-/

set_option autoImplicit false
set_option relaxedAutoImplicit false

namespace RaftConsensus

open TransitionSystem

/-- The loop has not ended. -/
def RequestVoteLoop.goesOn : RequestVoteLoop → Bool
  | .test | .sending _ => true
  | .done => false

namespace Server

variable {s s' : Server} {x : Stimulus} {out : List Output}

/-! ### What every state of a run secures -/

/-- What a server needs to run its loops to their ends. -/
structure Fit (m : Membership) (name : ByteString) (s : Server) : Prop where
  name_eq : s.name = name
  flagged : s.Flagged
  disciplined : s.Disciplined
  members : ∀ peer ∈ s.mboxes.keys, peer ∈ m.names
  mailbox : ∀ peer ∈ s.mboxes.keys, (s.mboxes.get peer).mbox = some (.server peer)
  heartbeat : ∀ remaining, .sending remaining ∈ s.heartbeatThreads → remaining ⊆ s.mboxes.keys
  requestVote : ∀ remaining, .sending remaining ∈ s.requestVoteThreads → remaining ⊆ s.mboxes.keys
  campaign : s.role = .candidate → ∃ loop ∈ s.requestVoteThreads, loop.goesOn = true
  votes : s.voteCnt ≤ ceilHalf s.mboxes.size

/-- No effect takes a name out of the map. -/
theorem Effect.keys_subset (h : s.Effect x s' out) : s.mboxes.keys ⊆ s'.mboxes.keys :=
  fun _ hpeer ↦ h.mem_mboxes.mpr (Or.inl hpeer)

/-- The passes of the `send_heartbeat` loops reach only names of the map. -/
theorem heartbeat_keys_step (hact : s.act x = .ok (s', out))
    (h : ∀ remaining, .sending remaining ∈ s.heartbeatThreads → remaining ⊆ s.mboxes.keys) :
    ∀ remaining, .sending remaining ∈ s'.heartbeatThreads → remaining ⊆ s'.mboxes.keys := by
  intro remaining hpass
  have hkeys := (act_effect hact).keys_subset
  rcases heartbeat_pass_cases hact hpass with ⟨before, hbefore, hsub⟩ | rfl
  · exact List.Subset.trans (List.Subset.trans hsub (h before hbefore)) hkeys
  · exact hkeys

/-- The passes of the `send_request_vote` loops reach only names of the map. -/
theorem requestVote_keys_step (hact : s.act x = .ok (s', out))
    (h : ∀ remaining, .sending remaining ∈ s.requestVoteThreads → remaining ⊆ s.mboxes.keys) :
    ∀ remaining, .sending remaining ∈ s'.requestVoteThreads → remaining ⊆ s'.mboxes.keys := by
  intro remaining hpass
  have hkeys := (act_effect hact).keys_subset
  rcases requestVote_pass_cases hact hpass with ⟨before, hbefore, hsub⟩ | rfl
  · exact List.Subset.trans (List.Subset.trans hsub (h before hbefore)) hkeys
  · exact hkeys

/-- A server becomes a candidate only by a new candidacy. -/
theorem Effect.candidate_cases (h : s.Effect x s' out) (hrole : s'.role = .candidate) :
    s.role = .candidate ∨ s'.requestVoteThreads = s.requestVoteThreads ++ [.test] := by
  cases h
  case electionTimeout => exact Or.inr rfl
  case countVote rv _ _ _ =>
    left
    rcases tally_cases (s := { s with voteCnt := s.voteCnt + 1 }) with ⟨htally, -⟩ | ⟨htally, -⟩
    · rw [htally] at hrole
      exact hrole
    · rw [htally] at hrole
      cases hrole
  case answerVote =>
    left
    rcases s.tally_cases with ⟨htally, -⟩ | ⟨htally, -⟩
    · rwa [htally] at hrole
    · rw [htally] at hrole
      cases hrole
  case wake | deactivate | stepDown | leaderTimeout => cases hrole
  all_goals exact Or.inl hrole

/-- The loop of a candidacy does not end while the candidacy lasts. -/
theorem campaign_step (hflagged : s.Flagged) (hact : s.act x = .ok (s', out))
    (h : s.role = .candidate → ∃ loop ∈ s.requestVoteThreads, loop.goesOn = true)
    (hrole : s'.role = .candidate) : ∃ loop ∈ s'.requestVoteThreads, loop.goesOn = true := by
  rcases (act_effect hact).candidate_cases hrole with hcandidate | hnew
  · have hgoes := h hcandidate
    by_cases hx : x.voteLoop = false
    · rcases (act_effect hact).requestVoteThreads_cases hx with hsame | hstart
      · rwa [hsame]
      · obtain ⟨loop, hloop, hp⟩ := hgoes
        exact ⟨loop, hstart ▸ List.mem_append_left _ hloop, hp⟩
    · cases x with
      | requestVoteStep i =>
        obtain ⟨loop, next, hloop, hstep, rfl, -⟩ := act_requestVoteStep hact
        refine exists_mem_set hgoes hloop fun _ ↦ ?_
        cases hstep with
        | enter | again => rfl
        | leave hcleared => simp [hflagged.candidate, hcandidate] at hcleared
      | requestVoteSend i peer =>
        obtain ⟨remaining, hloop, -, rfl, -⟩ := act_requestVoteSend hact
        exact exists_mem_set hgoes hloop fun _ ↦ rfl
      | handle | timeLimit | resume | heartbeatStep | heartbeatSend => exact absurd rfl hx
  · exact ⟨.test, by simp [hnew], rfl⟩

/-- A larger cluster has no smaller threshold. -/
theorem ceilHalf_mono {size size' : ℕ} (h : size ≤ size') : ceilHalf size ≤ ceilHalf size' :=
  Nat.div_le_div_right (by omega)

/-- No more votes are counted than the threshold allows. -/
theorem Effect.votes_le (h : s.Effect x s' out) (hvotes : s.voteCnt ≤ ceilHalf s.mboxes.size) :
    s'.voteCnt ≤ ceilHalf s'.mboxes.size := by
  have hsize : ceilHalf s.mboxes.size ≤ ceilHalf s'.mboxes.size :=
    ceilHalf_mono ((AList.keys_nodup _).subperm h.keys_subset).length_le
  cases h
  case countVote rv _ _ _ =>
    rcases tally_cases (s := { s with voteCnt := s.voteCnt + 1 }) with ⟨htally, hfew⟩ | ⟨htally, -⟩
    · rw [htally]
      exact Nat.not_lt.mp hfew
    · rw [htally]
      exact Nat.zero_le _
  case answerVote =>
    rcases s.tally_cases with ⟨htally, hfew⟩ | ⟨htally, -⟩
    · rw [htally]
      exact hvotes
    · rw [htally]
      exact Nat.zero_le _
  case accept | electionTimeout | enterFollower | enterAccept => exact Nat.zero_le _
  all_goals exact hvotes.trans hsize

end Server

namespace Cluster

variable {m : Membership} {c c' : Cluster} {a : Action} {trace : History} {name : ByteString}

/-- A server has an empty map, or knows the mailboxes of all members. -/
theorem stocked_run (hrun : Run m initial trace c) :
    (∀ peer, peer ∉ (c.servers name).mboxes) ∨ (c.servers name).Stocked m := by
  induction hrun with
  | nil => exact Or.inl (by simp [initial, Server.initial])
  | snoc hrest hstep ih =>
    have hc := coherent_initial.run hrest
    have hcomplete := complete_run hrest
    rcases ih with hempty | hstocked
    · rcases (step_effect hstep).server name with hsame | ⟨x, out, -, havailable, heffect⟩
      · exact Or.inl (hsame ▸ hempty)
      · by_cases hmap : ∃ sc, x = .handle (.setCluster sc)
        · obtain ⟨sc, rfl⟩ := hmap
          obtain ⟨e, he, -, hmsg⟩ := havailable _ rfl
          obtain rfl := hc.whole e he sc hmsg
          exact Or.inr heffect.stocked_of_setCluster
        · left
          intro peer hpeer
          rcases heffect.mem_mboxes.mp hpeer with hold | ⟨sc, rfl, -⟩ | ⟨aer, rfl, hleader, -⟩
          · exact hempty peer hold
          · exact hmap ⟨sc, rfl⟩
          · obtain ⟨e, he, -, hmsg⟩ := havailable _ rfl
            exact hempty _ ((hcomplete.leader name hleader _).mpr (hcomplete.result e he aer hmsg))
    · exact Or.inr (hc.stocked_step hstep hstocked)

/-- The servers are as their loops need them. -/
theorem fit_run (hrun : Run m initial trace c) (name : ByteString) :
    (c.servers name).Fit m name where
  name_eq := (coherent_initial.run hrun).name_eq name
  flagged := flagged_run hrun name
  disciplined := disciplined_run hrun name
  members _ hpeer := mem_names_of_mem_keys hrun hpeer
  mailbox peer hpeer := by
    have hmailboxes : _ ∨ (c.servers name).Stocked m := stocked_run hrun
    rcases hmailboxes with hempty | hstocked
    · exact absurd hpeer (hempty peer)
    · exact hstocked peer (mem_names_of_mem_keys hrun hpeer)
  heartbeat := by
    induction hrun with
    | nil => simp [initial, Server.initial]
    | snoc hrest hstep ih =>
      rcases hstep.act_cases name with hsame | ⟨x, -, -, hact⟩
      · rwa [hsame]
      · exact Server.heartbeat_keys_step hact ih
  requestVote := by
    induction hrun with
    | nil => simp [initial, Server.initial]
    | snoc hrest hstep ih =>
      rcases hstep.act_cases name with hsame | ⟨x, -, -, hact⟩
      · rwa [hsame]
      · exact Server.requestVote_keys_step hact ih
  campaign := by
    induction hrun with
    | nil => simp [initial, Server.initial]
    | snoc hrest hstep ih =>
      rcases hstep.act_cases name with hsame | ⟨x, -, -, hact⟩
      · rwa [hsame]
      · exact Server.campaign_step (flagged_run hrest name) hact ih
  votes := by
    induction hrun with
    | nil => exact Nat.zero_le _
    | snoc _ hstep ih =>
      rcases (step_effect hstep).server name with hsame | ⟨x, out, -, -, heffect⟩
      · rwa [hsame]
      · exact heffect.votes_le ih

end Cluster

namespace Server

variable {m : Membership} {name peer : ByteString} {s : Server} {i : ℕ} {loop : HeartbeatLoop}
  {remaining : List ByteString}

/-! ### Unlocking the mutex -/

/-- The server with one of its `send_heartbeat` loops at a position. -/
def beating (s : Server) (i : ℕ) (loop : HeartbeatLoop) : Server :=
  { s with heartbeatThreads := s.heartbeatThreads.set i loop }

@[simp] theorem beating_beating (first second : HeartbeatLoop) :
    (s.beating i first).beating i second = s.beating i second := by
  simp [beating]

/-- A loop of a server is at some position. -/
theorem beating_self (h : s.heartbeatThreads[i]? = some loop) : s.beating i loop = s := by
  obtain ⟨hi, rfl⟩ := List.getElem?_eq_some_iff.mp h
  simp [beating]

/-- A server that is told the whole map knows the names of the cluster and no others. -/
theorem Fit.knows_setClusterHandler (h : s.Fit m name) :
    (s.setClusterHandler m.setCluster).Knows m := by
  intro peer
  rw [mem_setClusterHandler, Membership.mem_setCluster_names, or_iff_left_iff_imp]
  exact h.members peer

variable (hname : name ∈ m.names)
include hname

/-- A pass sends to a peer that it still has to reach, or passes over the server itself. -/
theorem attains_beat (hi : s.heartbeatThreads[i]? = some (.sending remaining))
    (hpeer : peer ∈ remaining) (hmbox : (s.mboxes.get peer).mbox = some (.server peer)) :
    Attains m name s (s.beating i (.sending (remaining.erase peer))) := by
  rcases eq_or_ne peer s.name with rfl | hself
  · refine Attains.internal (.heartbeatSend i s.name 0) [] hname trivial ?_
    simp only [act, heartbeatSend, hi, if_pos hpeer, sendHeartbeatTo, ne_eq, not_true_eq_false,
      if_false, bind, Except.bind, pure, Except.pure, beating]
  · refine Attains.internal (.heartbeatSend i peer 0) [(.server peer,
      .appendEntry (s.heartbeatFor (s.mboxes.get peer).nextIndex 0))] hname trivial ?_
    simp only [act, heartbeatSend, hi, if_pos hpeer, sendHeartbeatTo, hself, ne_eq,
      not_false_eq_true, if_true, hmbox, send, bind, Except.bind, pure, Except.pure, beating]

/-- A pass reaches all peers that it still has to reach. -/
theorem attains_beats (hi : s.heartbeatThreads[i]? = some (.sending remaining))
    (hmbox : ∀ peer ∈ remaining, (s.mboxes.get peer).mbox = some (.server peer)) :
    Attains m name s (s.beating i (.sending [])) := by
  induction remaining generalizing s with
  | nil =>
    rw [beating_self hi]
    exact .refl
  | cons peer rest ih =>
    have hlength := (List.getElem?_eq_some_iff.mp hi).1
    have hsend := attains_beat hname hi List.mem_cons_self (hmbox peer List.mem_cons_self)
    rw [List.erase_cons_head] at hsend
    have hrest := ih (s := s.beating i (.sending rest)) (List.getElem?_set_self hlength)
      fun other hother ↦ hmbox other (List.mem_cons_of_mem _ hother)
    rw [beating_beating] at hrest
    exact hsend.trans hrest

/-- A loop that is about to unlock the mutex unlocks it. -/
theorem attains_unlock (hi : s.heartbeatThreads[i]? = some .unlock) :
    Attains m name s { s.beating i .done with heartbeatMtx := false } := by
  refine Attains.internal (.heartbeatStep i) [] hname trivial ?_
  simp [act, heartbeatStep, hi, beating]

/-- A loop that finds the flag cleared unlocks the mutex. -/
theorem attains_leave (hi : s.heartbeatThreads[i]? = some .test) (hflag : s.isLeader = false) :
    Attains m name s { s.beating i .done with heartbeatMtx := false } := by
  have hlength := (List.getElem?_eq_some_iff.mp hi).1
  have hleave : Attains m name s (s.beating i .unlock) := by
    refine Attains.internal (.heartbeatStep i) [] hname trivial ?_
    simp [act, heartbeatStep, hi, hflag, beating]
  have hunlock := attains_unlock (s := s.beating i .unlock) hname (List.getElem?_set_self hlength)
  rw [beating_beating] at hunlock
  exact hleave.trans hunlock

/-- A loop in a pass ends it, finds the flag cleared and unlocks the mutex. -/
theorem attains_leave_of_pass (hi : s.heartbeatThreads[i]? = some (.sending remaining))
    (hmbox : ∀ peer ∈ remaining, (s.mboxes.get peer).mbox = some (.server peer))
    (hflag : s.isLeader = false) :
    Attains m name s { s.beating i .done with heartbeatMtx := false } := by
  have hlength := (List.getElem?_eq_some_iff.mp hi).1
  have hagain : Attains m name (s.beating i (.sending [])) (s.beating i .test) := by
    refine Attains.internal (.heartbeatStep i) [] hname trivial ?_
    simp [act, heartbeatStep, beating, hlength]
  have hleave := attains_leave (s := s.beating i .test) hname (List.getElem?_set_self hlength) hflag
  rw [beating_beating] at hleave
  exact ((attains_beats hname hi hmbox).trans hagain).trans hleave

/-- A loop lets go of the mutex, unless it finds the flag set. -/
theorem Fit.attains_unlocked (h : s.Fit m name) (hagent : s.agent.holds = false)
    (hleaves : s.isLeader = false ∨ ∀ loop ∈ s.heartbeatThreads, loop.goesOn ≠ true) :
    ∃ threads, Attains m name s { s with heartbeatMtx := false, heartbeatThreads := threads } := by
  cases hmtx : s.heartbeatMtx with
  | false =>
    refine ⟨s.heartbeatThreads, ?_⟩
    rw [← hmtx]
    exact .refl
  | true =>
    have hholders : 0 < s.heartbeatThreads.countP HeartbeatLoop.holds := by
      have hmutex := h.disciplined.mutex
      simp only [holders, hagent, hmtx, Bool.toNat_true, Bool.toNat_false] at hmutex
      omega
    obtain ⟨loop, hmem, hholds⟩ := List.countP_pos_iff.mp hholders
    obtain ⟨i, hi⟩ := List.mem_iff_getElem?.mp hmem
    refine ⟨s.heartbeatThreads.set i .done, ?_⟩
    cases loop with
    | test =>
      exact attains_leave hname hi (hleaves.resolve_right fun hnone ↦ hnone _ hmem rfl)
    | sending remaining =>
      exact attains_leave_of_pass hname hi (fun peer hpeer ↦ h.mailbox peer
        (h.heartbeat remaining hmem hpeer)) (hleaves.resolve_right fun hnone ↦ hnone _ hmem rfl)
    | unlock => exact attains_unlock hname hi
    | lock | done => cases hholds

/-! ### Running to the end of a handler -/

/-- Accepting the message that the agent is still handling does not end the program. -/
def Acceptable (s : Server) : Prop :=
  ∀ ae, s.pending = some ae → (∃ mbox, (s.mboxes.get ae.leaderId).mbox = some mbox) ∧
    ∃ register, s.register.parseAll (ae.entries.map Prod.snd) = .ok register

omit hname in
/-- A message that does not end the program after a step would not have ended it before. -/
theorem Effect.acceptable_of_acceptable {x : Stimulus} {s' : Server} {out : List Output}
    (h : s.Effect x s' out) (hacceptable : s'.Acceptable) : s.Acceptable := by
  intro ae hae
  cases h
  case followerLock handling hagent _ =>
    refine hacceptable ae ?_
    rw [Server.pending, hagent] at hae
    exact hae
  case enterFollower hagent => simp [Server.pending, hagent] at hae
  case enterAccept entry mbox register hagent hmbox hparse =>
    obtain rfl : entry = ae := by simpa [Server.pending, hagent] using hae
    exact ⟨⟨mbox, hmbox⟩, register, hparse⟩
  case leaderLock hagent _ => simp [Server.pending, hagent] at hae
  case leaderUnlock hagent => simp [Server.pending, hagent] at hae
  case leaderThread hagent => simp [Server.pending, hagent] at hae
  case heartbeatStep | heartbeatSkip | heartbeat | requestVoteStep | voteRequest =>
    exact hacceptable ae hae
  all_goals
    rw [pending_of_idle ‹_›] at hae
    cases hae

/-- An agent that has locked the mutex runs to the end of `follower.on_enter`. -/
theorem attains_entered {handling : Option AppendEntry}
    (hagent : s.agent = .followerUnlock handling)
    (hacceptable : s.Acceptable) :
    ∃ s', Attains m name s s' ∧ s'.agent = .idle ∧ s'.role = s.role := by
  cases handling with
  | none =>
    refine ⟨s.leaveFollowerEntry, ?_, rfl, rfl⟩
    refine Attains.internal .resume [(.server s.name, .changeState)] hname trivial ?_
    simp [act, resume, hagent, leaveFollowerEntry, pure, Except.pure]
  | some ae =>
    obtain ⟨⟨mbox, hmbox⟩, register, hparse⟩ := hacceptable ae (by rw [pending, hagent])
    have haccept : s.leaveFollowerEntry.acceptEntries ae =
        .ok (s.leaveFollowerEntry.accepted ae register, _) :=
      acceptEntries_eq_ok_iff.mpr ⟨mbox, register, hmbox, hparse, rfl, rfl⟩
    refine ⟨s.leaveFollowerEntry.accepted ae register, ?_, rfl, rfl⟩
    refine Attains.internal .resume [(.server s.name, .changeState),
      (mbox, .appendEntryResult (s.leaveFollowerEntry.acceptResult ae))] hname trivial ?_
    simp only [act, resume, hagent]
    rw [leaveFollowerEntry] at haccept
    simp only [haccept, bind, Except.bind, pure, Except.pure, leaveFollowerEntry]

/-- An agent in `follower.on_enter` runs to its end, unless the program ends there. -/
theorem Fit.attains_idle (h : s.Fit m name) {handling : Option AppendEntry}
    (hentering : s.agent = .followerLock handling ∨ s.agent = .followerUnlock handling)
    (hacceptable : s.Acceptable) :
    ∃ s', Attains m name s s' ∧ s'.agent = .idle ∧ s'.role = .follower := by
  have hrole := h.disciplined.entering handling hentering
  rcases hentering with hlock | hunlock
  · have hflag : s.isLeader = false := by simp [h.flagged.leader, hrole]
    obtain ⟨threads, hfree⟩ := h.attains_unlocked hname (by rw [hlock]; rfl) (Or.inl hflag)
    have hlocks : Attains m name { s with heartbeatMtx := false, heartbeatThreads := threads }
        { s with heartbeatMtx := true, heartbeatThreads := threads,
                 agent := .followerUnlock handling } := by
      refine Attains.internal .resume [] hname trivial ?_
      simp [act, resume, hlock]
    have hpending : s.pending = handling := by rw [pending, hlock]
    obtain ⟨s', hs', hidle, hrole'⟩ := attains_entered
      (s := { s with heartbeatMtx := true, heartbeatThreads := threads,
                     agent := .followerUnlock handling })
      hname rfl fun ae hae ↦ hacceptable ae (hpending.trans hae)
    exact ⟨s', (hfree.trans hlocks).trans hs', hidle, hrole'.trans hrole⟩
  · obtain ⟨s', hs', hidle, hrole'⟩ := attains_entered hname hunlock hacceptable
    exact ⟨s', hs', hidle, hrole'.trans hrole⟩

/-- An agent in `leader.on_enter` runs to its end, unless it is locked up. -/
theorem Fit.attains_office (h : s.Fit m name) (hentering : s.agent.entering = some .leader)
    (hfree : ¬ s.LockedUp) : ∃ s', Attains m name s s' ∧ s'.InOffice := by
  have hrole := h.flagged.entering .leader hentering
  cases hagent : s.agent with
  | idle | followerLock | followerUnlock => simp [hagent, Agent.entering] at hentering
  | leaderLock =>
    obtain ⟨threads, hunlocked⟩ := h.attains_unlocked hname (by rw [hagent]; rfl) (Or.inr
      fun loop hloop hgoes ↦ hfree (h.flagged.lockedUp_iff.mpr ⟨hagent, loop, hloop, hgoes⟩))
    exact ⟨_, hunlocked.trans (Server.attains_office hname hagent rfl), hrole, rfl⟩
  | leaderUnlock => exact ⟨_, attains_nextIndices hname hagent, hrole, rfl⟩
  | leaderThread => exact ⟨_, attains_thread hname hagent, hrole, rfl⟩

/-! ### Leading from any state -/

/-- A follower whose agent is idle can become a candidate, when it has been told the map and its
state. -/
theorem Fit.attains_poised (h : s.Fit m name) (hidle : s.agent = .idle)
    (hrole : s.role = .follower) : ∃ s', Attains m name s s' ∧ s'.Poised name := by
  have hflag : s.isLeader = false := by simp [h.flagged.leader, hrole]
  obtain ⟨threads, hfree⟩ := h.attains_unlocked hname (by rw [hidle]; rfl) (Or.inl hflag)
  let s₁ : Server := { s with heartbeatMtx := false, heartbeatThreads := threads }
  have hmap : Attains m name s₁ (s₁.setClusterHandler m.setCluster) := by
    refine Attains.tell (.setCluster m.setCluster) [] hname rfl (by simp) ?_
    simp [act, handle, s₁, hidle]
  have htimer : Attains m name (s₁.setClusterHandler m.setCluster)
      (s₁.setClusterHandler m.setCluster).changeStateHandler := by
    refine Attains.tell .changeState [] hname trivial (by simp) ?_
    simp [act, handle, s₁, setClusterHandler, hidle]
  have hlimit : (s₁.setClusterHandler m.setCluster).changeStateHandler.followerLimit = true :=
    if_pos hrole
  have hknows := h.knows_setClusterHandler
  exact ⟨_, (hfree.trans hmap).trans htimer,
    ⟨h.name_eq, hidle, hrole, hlimit, rfl, (hknows name).mpr hname, fun peer hpeer ↦
      stocked_setClusterHandler (s := s₁) m peer ((hknows peer).mp hpeer)⟩⟩

/-- A candidate whose loop is in a pass ends the pass, and elects itself. -/
theorem Campaigning.attains_office_of_goesOn {loop : RequestVoteLoop} (h : s.Campaigning name)
    (hi : s.requestVoteThreads[i]? = some loop) (hgoes : loop.goesOn = true)
    (hkeys : ∀ remaining, loop = .sending remaining → remaining ⊆ s.mboxes.keys)
    (hvotes : s.voteCnt ≤ ceilHalf s.mboxes.size) (hfree : s.heartbeatMtx = false) :
    ∃ s', Attains m name s s' ∧ s'.InOffice := by
  have hlength := (List.getElem?_eq_some_iff.mp hi).1
  cases loop with
  | test =>
    obtain ⟨s', hs', hoffice, -⟩ := h.attains_office hname hi hvotes hfree
    exact ⟨s', hs', hoffice⟩
  | sending remaining =>
    have hsent := attains_sent hname hi fun peer hpeer ↦ h.mailbox peer (hkeys _ rfl hpeer)
    have htest := attains_test (s := s.polled i (.sending []) s.voteCnt) hname
      (List.getElem?_set_self hlength)
    rw [polled_polled] at htest
    obtain ⟨s', hs', hoffice, -⟩ := (h.polled i .test s.voteCnt).attains_office hname
      (List.getElem?_set_self hlength) hvotes hfree
    exact ⟨s', (hsent.trans htest).trans hs', hoffice⟩
  | done => cases hgoes

/-- A candidate whose agent is idle takes office, when it has been told the map. -/
theorem Fit.attains_office_of_candidate (h : s.Fit m name) (hidle : s.agent = .idle)
    (hrole : s.role = .candidate) : ∃ s', Attains m name s s' ∧ s'.InOffice := by
  have hflag : s.isLeader = false := by simp [h.flagged.leader, hrole]
  obtain ⟨threads, hfree⟩ := h.attains_unlocked hname (by rw [hidle]; rfl) (Or.inl hflag)
  let s₁ : Server := { s with heartbeatMtx := false, heartbeatThreads := threads }
  let s₂ := s₁.setClusterHandler m.setCluster
  have hmap : Attains m name s₁ s₂ := by
    refine Attains.tell (.setCluster m.setCluster) [] hname rfl (by simp) ?_
    simp [act, handle, s₁, s₂, hidle]
  have heffect : s₁.Effect (.handle (.setCluster m.setCluster)) s₂ [] := .setCluster _ hidle
  have hknows : s₂.Knows m := h.knows_setClusterHandler
  have hcampaigning : s₂.Campaigning name :=
    ⟨h.name_eq, hidle, hrole, by show s.isCandidate = true; simp [h.flagged.candidate, hrole],
      (hknows name).mpr hname,
      fun peer hpeer ↦ stocked_setClusterHandler (s := s₁) m peer ((hknows peer).mp hpeer)⟩
  obtain ⟨loop, hloop, hgoes⟩ := h.campaign hrole
  obtain ⟨i, hi⟩ := List.mem_iff_getElem?.mp hloop
  obtain ⟨s', hs', hoffice⟩ := hcampaigning.attains_office_of_goesOn hname (i := i) hi hgoes
    (fun remaining hremaining ↦ List.Subset.trans
      (h.requestVote remaining (hremaining ▸ hloop)) heffect.keys_subset)
    (heffect.votes_le h.votes) rfl
  exact ⟨s', (hfree.trans hmap).trans hs', hoffice⟩

end Server

/-! ### The servers of a run -/

namespace Cluster

variable {m : Membership} {c c' start : Cluster} {trace : History} {name : ByteString}
  {s' : Server}

/-- A server can come to lead while the others do nothing. -/
def Leads (m : Membership) (name : ByteString) (c : Cluster) : Prop :=
  ∃ c', c.Solo m name c' ∧ (c'.servers name).InOffice

/-- A server can come to lead if it can from a state that it attains. -/
theorem leads_of_attains (hrun : Run m initial trace c)
    (hattains : Server.Attains m name (c.servers name) s')
    (h : ∀ trace' c', Run m initial trace' c' → c'.servers name = s' → c'.Leads m name) :
    c.Leads m name := by
  obtain ⟨c', hsolo, hs'⟩ := hattains c rfl
  obtain ⟨trace', hrun'⟩ := hsolo.run hrun
  obtain ⟨final, hsolo', hoffice⟩ := h trace' c' hrun' hs'
  exact ⟨final, hsolo.trans hsolo', hoffice⟩

theorem leads_of_office (h : ∃ s', Server.Attains m name (c.servers name) s' ∧ s'.InOffice) :
    c.Leads m name := by
  obtain ⟨s', hattains, hoffice⟩ := h
  obtain ⟨c', hsolo, rfl⟩ := hattains c rfl
  exact ⟨c', hsolo, hoffice⟩

variable (hname : name ∈ m.names)
include hname

/-- A follower whose agent is idle can come to lead. -/
theorem leads_of_follower (hrun : Run m initial trace c) (hidle : (c.servers name).agent = .idle)
    (hrole : (c.servers name).role = .follower) : c.Leads m name := by
  obtain ⟨s₁, hpoised, h⟩ := (fit_run hrun name).attains_poised hname hidle hrole
  obtain ⟨s', hs', hoffice, -⟩ := h.attains_office hname
  exact leads_of_office ⟨s', hpoised.trans hs', hoffice⟩

/-- A server that enters the follower state can come to lead, unless the program ends there. -/
theorem leads_of_entering (hrun : Run m initial trace c) {handling : Option AppendEntry}
    (hentering : (c.servers name).agent = .followerLock handling ∨
      (c.servers name).agent = .followerUnlock handling)
    (hacceptable : (c.servers name).Acceptable) : c.Leads m name := by
  obtain ⟨s', hs', hidle, hrole⟩ := (fit_run hrun name).attains_idle hname hentering hacceptable
  refine leads_of_attains hrun hs' ?_
  rintro trace' c' hrun' rfl
  exact leads_of_follower hname hrun' hidle hrole

/-- An inactive server whose agent is idle is woken up, and can then come to lead. -/
theorem leads_of_inactive (hrun : Run m initial trace c) (hidle : (c.servers name).agent = .idle)
    (hrole : (c.servers name).role = .inactive) : c.Leads m name := by
  have hwake : Server.Attains m name (c.servers name) ((c.servers name).activateFollower none) := by
    refine Server.Attains.tell .deactivate [] hname trivial (by simp) ?_
    simp [Server.act, Server.handle, Server.deactivateHandler, hidle, hrole]
  refine leads_of_attains hrun hwake ?_
  intro trace' c' hrun' hs'
  have hlock : (c'.servers name).agent = .followerLock none := by
    rw [hs']
    rfl
  refine leads_of_entering hname hrun' (Or.inl hlock) ?_
  intro ae hae
  rw [hs'] at hae
  cases hae

/-- A server that is not locked up, and is not about to end the program, can come to lead. -/
theorem leads (hrun : Run m initial trace c) (hfree : ¬ (c.servers name).LockedUp)
    (hacceptable : (c.servers name).Acceptable) : c.Leads m name := by
  have hfit := fit_run hrun name
  cases hagent : (c.servers name).agent with
  | idle =>
    cases hrole : (c.servers name).role with
    | candidate => exact leads_of_office (hfit.attains_office_of_candidate hname hagent hrole)
    | follower => exact leads_of_follower hname hrun hagent hrole
    | leader => exact ⟨c, .refl, hrole, hagent⟩
    | inactive => exact leads_of_inactive hname hrun hagent hrole
  | followerLock handling => exact leads_of_entering hname hrun (Or.inl hagent) hacceptable
  | followerUnlock handling => exact leads_of_entering hname hrun (Or.inr hagent) hacceptable
  | leaderLock | leaderUnlock | leaderThread =>
    exact leads_of_office (hfit.attains_office hname (by rw [hagent]; rfl) hfree)

omit hname in
/-- A server that is about to end the program stays so, whatever it meets. -/
theorem acceptable_of_run (hrun : Run m c trace c') (h : (c'.servers name).Acceptable) :
    (c.servers name).Acceptable := by
  induction hrun with
  | nil => exact h
  | snoc _ hstep ih =>
    rcases (step_effect hstep).server name with hsame | ⟨x, out, -, -, heffect⟩
    · exact ih (hsame ▸ h)
    · exact ih (heffect.acceptable_of_acceptable h)

omit hname in
/-- A server that comes to lead, whatever the others do, is not locked up, and not about to end the
program. -/
theorem free_of_leads (hbefore : Run m initial trace c) {later : History} (hrun : Run m c later c')
    (hoffice : (c'.servers name).InOffice) :
    ¬ (c.servers name).LockedUp ∧ (c.servers name).Acceptable := by
  obtain ⟨-, hidle⟩ := hoffice
  refine ⟨fun hlocked ↦ ?_, acceptable_of_run hrun fun ae hae ↦ ?_⟩
  · rcases (lockedUp_run hbefore hrun hlocked).waits with hlock | ⟨handling, hlock⟩
    · simp [hidle] at hlock
    · simp [hidle] at hlock
  · rw [Server.pending_of_idle hidle] at hae
    cases hae

end Cluster

/-- Whether a server can come to lead, with its agent idle, is decided by its own state: it must not
be locked up on its mutex, and the message that it may be handling must not end the program when it
is accepted. Then it can do so alone, and otherwise it cannot, whatever the others do. Alone, it
comes to lead before messages of the others arrive, and in a term that has to be an `int`. -/
theorem can_lead_iff {m : Membership} {trace : Cluster.History} {c : Cluster}
    (hrun : Cluster.Run m .initial trace c) {name : ByteString} (hname : name ∈ m.names) :
    List.TFAE [
      ∃ later c', Cluster.Run m c later c' ∧ (c'.servers name).InOffice,
      ∃ c', c.Solo m name c' ∧ (c'.servers name).InOffice,
      ¬ (c.servers name).LockedUp ∧ (c.servers name).Acceptable] := by
  tfae_have 1 → 3 := by
    rintro ⟨later, c', hlater, hoffice⟩
    exact Cluster.free_of_leads hrun hlater hoffice
  tfae_have 3 → 2 := fun ⟨hfree, hacceptable⟩ ↦ Cluster.leads hname hrun hfree hacceptable
  tfae_have 2 → 1 := by
    rintro ⟨c', ⟨later, hlater, -⟩, hoffice⟩
    exact ⟨later, c', hlater, hoffice⟩
  tfae_finish

/-- The second of three servers, which has accepted an entry of the first, can come to lead. -/
theorem can_lead_iff_replication :
    let c := finalState (Cluster.next Schedule.trio) .initial Schedule.replication
    ∃ c', c.Solo Schedule.trio (bytes "server2") c' ∧ (c'.servers (bytes "server2")).InOffice := by
  intro c
  have hrun : Cluster.Run Schedule.trio .initial _ c := run_of_isOk (by decide)
  have hflag : (c.servers (bytes "server2")).isLeader = false := by decide
  have hidle : (c.servers (bytes "server2")).agent = .idle := by decide
  have hname : bytes "server2" ∈ Schedule.trio.names := by decide
  have hiff := (can_lead_iff hrun hname).out 1 2
  refine hiff.mpr ⟨?_, ?_⟩
  · rintro ⟨-, hset, -⟩
    simp [hflag] at hset
  · intro ae hae
    rw [Server.pending_of_idle hidle] at hae
    cases hae

/-- All servers can come to lead at the same time exactly when each of them can come to lead. Each
of them does so before messages of the others arrive, and in a term that has to be an `int`. -/
theorem all_can_lead_iff {m : Membership} {trace : Cluster.History} {c : Cluster}
    (hrun : Cluster.Run m .initial trace c) :
    (∃ later c', Cluster.Run m c later c' ∧ ∀ name ∈ m.names, (c'.servers name).InOffice) ↔
      ∀ name ∈ m.names, ¬ (c.servers name).LockedUp ∧ (c.servers name).Acceptable := by
  constructor
  · rintro ⟨later, c', hlater, hoffice⟩ name hname
    exact Cluster.free_of_leads hrun hlater (hoffice name hname)
  · intro hfree
    refine Cluster.exists_run_of_solo (fun _ s ↦ s.InOffice) hrun
      fun name hname trace' middle hmiddle hsame ↦ ?_
    obtain ⟨hlocked, hacceptable⟩ := hfree name hname
    exact Cluster.leads hname hmiddle (hsame ▸ hlocked) (hsame ▸ hacceptable)

/-- All three servers can come to lead at the same time after an entry has been replicated. -/
theorem all_can_lead_iff_replication :
    let c := finalState (Cluster.next Schedule.trio) .initial Schedule.replication
    ∃ later c', Cluster.Run Schedule.trio c later c' ∧
      ∀ name ∈ Schedule.trio.names, (c'.servers name).InOffice := by
  intro c
  have hrun : Cluster.Run Schedule.trio .initial _ c := run_of_isOk (by decide)
  have hidle : ∀ name ∈ Schedule.trio.names, (c.servers name).agent = .idle := by decide
  refine (all_can_lead_iff hrun).mpr fun name hname ↦ ⟨?_, fun ae hae ↦ ?_⟩
  · rintro ⟨hlock | ⟨handling, hlock⟩, -⟩
    · simp [hidle name hname] at hlock
    · simp [hidle name hname] at hlock
  · rw [Server.pending_of_idle (hidle name hname)] at hae
    cases hae

end RaftConsensus
