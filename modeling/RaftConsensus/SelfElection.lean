import RaftConsensus.SoloRuns

/-!
# Servers that elect themselves

A candidate sends its request for a vote to every mailbox of its map, its own among them, once in
every pass of `send_request_vote`, grants it to itself each time, and counts every answer. So it
needs nobody else: after as many passes as there are votes to exceed the threshold it is leader
(`Server.Campaigning.attains_leader`), however large the cluster is.

The other servers stay as they are meanwhile, so that all servers of a cluster can become leader
one after the other and lead at the same time, in every term that an `int` can hold
(`all_lead_in_every_term`).
-/

set_option autoImplicit false
set_option relaxedAutoImplicit false

namespace RaftConsensus

open TransitionSystem

namespace Server

variable {m : Membership} {name peer : ByteString} {s s' : Server} {i votes : ℕ}
  {loop : RequestVoteLoop} {remaining : List ByteString}

/-! ### A pass -/

/-- The server with one of its `send_request_vote` loops at a position, and with a vote count. -/
def polled (s : Server) (i : ℕ) (loop : RequestVoteLoop) (votes : ℕ) : Server :=
  { s with requestVoteThreads := s.requestVoteThreads.set i loop, voteCnt := votes }

@[simp] theorem polled_polled (first second : RequestVoteLoop) (before after : ℕ) :
    (s.polled i first before).polled i second after = s.polled i second after := by
  simp [polled]

/-- A loop of a server is at some position. -/
theorem polled_self (h : s.requestVoteThreads[i]? = some loop) : s.polled i loop s.voteCnt = s := by
  obtain ⟨hi, rfl⟩ := List.getElem?_eq_some_iff.mp h
  simp [polled]

/-- The server as it enters the leader state in a pass. -/
def elected (s : Server) (name : ByteString) (i : ℕ) : Server :=
  (s.polled i (.sending (s.mboxes.keys.erase name)) 0).activateLeader

@[simp] theorem polled_elected : (s.polled i loop votes).elected name i = s.elected name i := by
  simp [elected, polled]

/-- A candidate with an idle agent that knows its own mailbox, and a mailbox for every key of its
map. -/
structure Campaigning (name : ByteString) (s : Server) : Prop where
  name_eq : s.name = name
  idle : s.agent = .idle
  role : s.role = .candidate
  flag : s.isCandidate = true
  self : name ∈ s.mboxes.keys
  mailbox : ∀ peer ∈ s.mboxes.keys, (s.mboxes.get peer).mbox = some (.server peer)

theorem Campaigning.polled (h : s.Campaigning name) (i : ℕ) (loop : RequestVoteLoop) (votes : ℕ) :
    (s.polled i loop votes).Campaigning name :=
  ⟨h.name_eq, h.idle, h.role, h.flag, h.self, h.mailbox⟩

/-- A candidate with few votes stays one when it compares them. -/
theorem tally_of_le (h : s.voteCnt ≤ ceilHalf s.mboxes.size) : s.tally = s := by
  rw [tally, if_neg (Nat.not_lt.mpr h)]

/-- A candidate with many votes enters the leader state when it compares them. -/
theorem tally_of_lt (h : ceilHalf s.mboxes.size < s.voteCnt) :
    s.tally = { s with voteCnt := 0 }.activateLeader := by
  rw [tally, if_pos h]

variable (hname : name ∈ m.names)
include hname

/-- A pass sends to a peer that it still has to reach. -/
theorem attains_send (hi : s.requestVoteThreads[i]? = some (.sending remaining))
    (hpeer : peer ∈ remaining) (hmbox : (s.mboxes.get peer).mbox = some (.server peer)) :
    Attains m name s (s.polled i (.sending (remaining.erase peer)) s.voteCnt) := by
  refine Attains.internal (.requestVoteSend i peer)
    [(.server peer, .requestVote s.voteRequest)] hname trivial ?_
  simp [act, requestVoteSend, hi, hpeer, hmbox, send, bind, Except.bind, pure, Except.pure, polled]

/-- A pass reaches all peers that it still has to reach. -/
theorem attains_sent (hi : s.requestVoteThreads[i]? = some (.sending remaining))
    (hmbox : ∀ peer ∈ remaining, (s.mboxes.get peer).mbox = some (.server peer)) :
    Attains m name s (s.polled i (.sending []) s.voteCnt) := by
  induction remaining generalizing s with
  | nil =>
    rw [polled_self hi]
    exact .refl
  | cons peer rest ih =>
    have hlength := (List.getElem?_eq_some_iff.mp hi).1
    have hsend := attains_send hname hi List.mem_cons_self (hmbox peer List.mem_cons_self)
    rw [List.erase_cons_head] at hsend
    have hrest := ih (s := s.polled i (.sending rest) s.voteCnt)
      (List.getElem?_set_self hlength)
      fun other hother ↦ hmbox other (List.mem_cons_of_mem _ hother)
    rw [polled_polled] at hrest
    exact hsend.trans hrest

/-- A pass ends. -/
theorem attains_test (hi : s.requestVoteThreads[i]? = some (.sending [])) :
    Attains m name s (s.polled i .test s.voteCnt) := by
  refine Attains.internal (.requestVoteStep i) [] hname trivial ?_
  simp [act, requestVoteStep, hi, polled]

/-- A pass of a candidate begins. -/
theorem attains_pass (hi : s.requestVoteThreads[i]? = some .test) (hflag : s.isCandidate = true) :
    Attains m name s (s.polled i (.sending s.mboxes.keys) s.voteCnt) := by
  refine Attains.internal (.requestVoteStep i) [] hname trivial ?_
  simp [act, requestVoteStep, hi, hflag, polled]

/-- A candidate sends its request to itself, grants it and counts the vote. -/
theorem Campaigning.attains_ownVote (h : s.Campaigning name)
    (hi : s.requestVoteThreads[i]? = some (.sending s.mboxes.keys))
    (hfew : s.voteCnt ≤ ceilHalf s.mboxes.size) :
    Attains m name s
      (s.polled i (.sending (s.mboxes.keys.erase name)) (s.voteCnt + 1)).tally := by
  have hself := h.mailbox name h.self
  have hreply : (s.voteRequest).candidateId = name := h.name_eq
  have hterm : (s.voteRequest).term = s.term := rfl
  have hdenied : (s.voteRequest).voteGranted = false := rfl
  refine Attains.exchange (s.polled i (.sending (s.mboxes.keys.erase name)) s.voteCnt)
    (s.polled i (.sending (s.mboxes.keys.erase name)) s.voteCnt) (.requestVoteSend i name)
    (.requestVote s.voteRequest) [] (.requestVote (.answer s.term true)) hname trivial ?_ ?_ ?_
  · simp [act, requestVoteSend, hi, h.self, hself, send, bind, Except.bind, pure, Except.pure,
      Server.polled]
  · have htally := tally_of_le
      (s := s.polled i (.sending (s.mboxes.keys.erase name)) s.voteCnt) hfew
    simp [act, handle, Server.polled, h.idle, h.role, requestVoteHandler, hdenied, hreply, hself,
      hterm, send, bind, Except.bind, pure, Except.pure] at htally ⊢
    exact htally
  · simp [act, handle, Server.polled, h.idle, h.role, requestVoteHandler, RequestVote.answer]

/-- A pass in which a candidate counts its own vote, which leaves it below the threshold. -/
theorem Campaigning.attains_round (h : s.Campaigning name)
    (hi : s.requestVoteThreads[i]? = some .test) (hfew : s.voteCnt < ceilHalf s.mboxes.size) :
    Attains m name s (s.polled i .test (s.voteCnt + 1)) := by
  have hlength := (List.getElem?_eq_some_iff.mp hi).1
  have hvote := (h.polled i (.sending s.mboxes.keys) s.voteCnt).attains_ownVote hname
    (List.getElem?_set_self hlength) hfew.le
  rw [polled_polled, tally_of_le (by exact hfew)] at hvote
  have hrest := attains_sent (s := s.polled i (.sending (s.mboxes.keys.erase name)) (s.voteCnt + 1))
    hname (List.getElem?_set_self hlength)
    fun other hother ↦ h.mailbox other (List.mem_of_mem_erase hother)
  rw [polled_polled] at hrest
  have htest := attains_test (s := s.polled i (.sending []) (s.voteCnt + 1)) hname
    (List.getElem?_set_self hlength)
  rw [polled_polled] at htest
  exact (((attains_pass hname hi h.flag).trans hvote).trans hrest).trans htest

/-- A pass in which a candidate counts its own vote, which takes it over the threshold. -/
theorem Campaigning.attains_lastRound (h : s.Campaigning name)
    (hi : s.requestVoteThreads[i]? = some .test) (hlast : s.voteCnt = ceilHalf s.mboxes.size) :
    Attains m name s (s.elected name i) := by
  have hlength := (List.getElem?_eq_some_iff.mp hi).1
  have hvote := (h.polled i (.sending s.mboxes.keys) s.voteCnt).attains_ownVote hname
    (List.getElem?_set_self hlength) hlast.le
  rw [polled_polled, tally_of_lt (hlast ▸ Nat.lt_succ_self s.voteCnt)] at hvote
  exact (attains_pass hname hi h.flag).trans hvote

/-- A candidate elects itself, pass by pass, however large the cluster is. -/
theorem Campaigning.attains_leader (h : s.Campaigning name)
    (hi : s.requestVoteThreads[i]? = some .test) (hvotes : s.voteCnt ≤ ceilHalf s.mboxes.size) :
    Attains m name s (s.elected name i) := by
  have hlength := (List.getElem?_eq_some_iff.mp hi).1
  obtain ⟨missing, hmissing⟩ := Nat.exists_eq_add_of_le hvotes
  induction missing generalizing s with
  | zero => exact h.attains_lastRound hname hi hmissing.symm
  | succ missing ih =>
    have hround := h.attains_round hname hi (by omega)
    have hrest := ih (h.polled i .test (s.voteCnt + 1)) (List.getElem?_set_self hlength)
      (by show s.voteCnt + 1 ≤ ceilHalf s.mboxes.size; omega)
      (by simpa [Server.polled] using hlength)
      (by show ceilHalf s.mboxes.size = s.voteCnt + 1 + missing; omega)
    rw [polled_elected] at hrest
    exact hround.trans hrest

/-! ### Taking office -/

/-- A leader whose agent has run to the end of `leader.on_enter`. -/
def InOffice (s : Server) : Prop := s.role = .leader ∧ s.agent = .idle

/-- The last step of `leader.on_enter`. -/
theorem attains_thread (hagent : s.agent = .leaderThread) :
    Attains m name s
      { s with agent := .idle, heartbeatThreads := s.heartbeatThreads ++ [.lock] } := by
  refine Attains.internal .resume [] hname trivial ?_
  simp [act, resume, hagent]

/-- A server that has locked the mutex runs to the end of `leader.on_enter`. -/
theorem attains_nextIndices (hagent : s.agent = .leaderUnlock) :
    Attains m name s
      { s with mboxes := s.mboxes.setNextIndices s.log.length, heartbeatMtx := false,
               agent := .idle, heartbeatThreads := s.heartbeatThreads ++ [.lock] } := by
  have hunlock : Attains m name s
      { s with mboxes := s.mboxes.setNextIndices s.log.length, heartbeatMtx := false,
               agent := .leaderThread } := by
    refine Attains.internal .resume [(.server s.name, .changeState)] hname trivial ?_
    simp [act, resume, hagent]
  exact hunlock.trans (attains_thread hname rfl)

/-- A server that finds the mutex unlocked runs to the end of `leader.on_enter`. -/
theorem attains_office (hagent : s.agent = .leaderLock) (hfree : s.heartbeatMtx = false) :
    Attains m name s
      { s with mboxes := s.mboxes.setNextIndices s.log.length, heartbeatMtx := false,
               agent := .idle, heartbeatThreads := s.heartbeatThreads ++ [.lock] } := by
  have hlock : Attains m name s { s with heartbeatMtx := true, agent := .leaderUnlock } := by
    refine Attains.internal .resume [] hname trivial ?_
    simp [act, resume, hagent, hfree]
  exact hlock.trans (attains_nextIndices hname rfl)

/-- A candidate that finds the mutex unlocked elects itself and takes office in its term. -/
theorem Campaigning.attains_office (h : s.Campaigning name)
    (hi : s.requestVoteThreads[i]? = some .test) (hvotes : s.voteCnt ≤ ceilHalf s.mboxes.size)
    (hfree : s.heartbeatMtx = false) :
    ∃ s', Attains m name s s' ∧ s'.InOffice ∧ s'.term = s.term ∧ s'.log = s.log ∧
      s'.register = s.register :=
  ⟨_, (h.attains_leader hname hi hvotes).trans (Server.attains_office hname rfl hfree),
    ⟨rfl, rfl⟩, rfl, rfl, rfl⟩

/-! ### Candidacies -/

/-- A follower that can become a candidate: its agent is idle, its time limit is set, no loop holds
the mutex, and it knows its own mailbox and a mailbox for every key of its map. -/
structure Poised (name : ByteString) (s : Server) : Prop where
  name_eq : s.name = name
  idle : s.agent = .idle
  role : s.role = .follower
  limit : s.followerLimit = true
  free : s.heartbeatMtx = false
  self : name ∈ s.mboxes.keys
  mailbox : ∀ peer ∈ s.mboxes.keys, (s.mboxes.get peer).mbox = some (.server peer)

/-- The time limit of such a follower expires, and it campaigns. -/
theorem Poised.attains_candidate (h : s.Poised name) :
    Attains m name s s.activateCandidate ∧ s.activateCandidate.Campaigning name := by
  refine ⟨Attains.internal .timeLimit [] hname trivial ?_, ?_⟩
  · simp [act, timeLimit, h.idle, h.role, h.limit]
  · exact ⟨h.name_eq, h.idle, rfl, rfl, h.self, h.mailbox⟩

/-- Such a follower takes office in the next term. -/
theorem Poised.attains_office (h : s.Poised name) :
    ∃ s', Attains m name s s' ∧ s'.InOffice ∧ s'.term = s.term + 1 ∧ s'.log = s.log ∧
      s'.register = s.register := by
  obtain ⟨hattains, hcampaigning⟩ := h.attains_candidate hname
  have hi : s.activateCandidate.requestVoteThreads[s.requestVoteThreads.length]? = some .test :=
    List.getElem?_concat_length
  obtain ⟨s', hs', hoffice, hterm, hlog, hregister⟩ :=
    hcampaigning.attains_office hname hi (Nat.zero_le _) h.free
  exact ⟨s', hattains.trans hs', hoffice, hterm, hlog, hregister⟩

/-- A server that finds the mutex unlocked runs to the end of `follower.on_enter`. -/
theorem attains_follower (hagent : s.agent = .followerLock none) (hfree : s.heartbeatMtx = false) :
    Attains m name s s.leaveFollowerEntry := by
  have hlock : Attains m name s { s with heartbeatMtx := true, agent := .followerUnlock none } := by
    refine Attains.internal .resume [] hname trivial ?_
    simp [act, resume, hagent, hfree]
  have hunlock : Attains m name { s with heartbeatMtx := true, agent := .followerUnlock none }
      s.leaveFollowerEntry := by
    refine Attains.internal .resume [(.server s.name, .changeState)] hname trivial ?_
    simp [act, resume, leaveFollowerEntry, pure, Except.pure]
  exact hlock.trans hunlock

/-- A candidate that is deactivated and woken up is a follower again, in the term of its
candidacy. -/
theorem Poised.attains_poised (h : s.Poised name) :
    ∃ s', Attains m name s s' ∧ s'.Poised name ∧ s'.term = s.term + 1 ∧ s'.log = s.log ∧
      s'.register = s.register ∧
      s'.requestVoteThreads = s.requestVoteThreads ++ [.test] := by
  obtain ⟨hcandidate, hcampaigning⟩ := h.attains_candidate hname
  have hinactive : Attains m name s.activateCandidate s.activateCandidate.activateInactive := by
    refine Attains.tell .deactivate [] hname trivial (by simp) ?_
    simp [act, handle, deactivateHandler, hcampaigning.idle, hcampaigning.role]
  have hwake : Attains m name s.activateCandidate.activateInactive
      (s.activateCandidate.activateInactive.activateFollower none) := by
    refine Attains.tell .deactivate [] hname trivial (by simp) ?_
    have hidle : s.activateCandidate.activateInactive.agent = .idle := h.idle
    have hrole : s.activateCandidate.activateInactive.role = .inactive := rfl
    simp [act, handle, deactivateHandler, hidle, hrole]
  have hfollower :=
    attains_follower (s := s.activateCandidate.activateInactive.activateFollower none)
      hname rfl h.free
  exact ⟨_, ((hcandidate.trans hinactive).trans hwake).trans hfollower,
    ⟨h.name_eq, rfl, rfl, h.limit, rfl, h.self, h.mailbox⟩, rfl, rfl, rfl, rfl⟩

/-! ### The start -/

omit hname

/-- A server that `main` has told the map knows the members. -/
theorem knows_told (m : Membership) (name : ByteString) :
    ((initial name).setClusterHandler m.setCluster).Knows m := by
  intro peer
  rw [mem_setClusterHandler, Membership.mem_setCluster_names]
  simp [initial]

/-- A server that `main` has told the map and its state can become a candidate. -/
theorem poised_told (hname : name ∈ m.names) :
    ((initial name).setClusterHandler m.setCluster).changeStateHandler.Poised name := by
  refine ⟨rfl, rfl, rfl, rfl, rfl, (knows_told m name name).mpr hname, fun peer hpeer ↦ ?_⟩
  exact stocked_setClusterHandler m peer ((knows_told m name peer).mp hpeer)

include hname

/-- A server that is told the map and its state attains this. -/
theorem attains_poised_of_initial :
    ∃ s', Attains m name (.initial name) s' ∧ s'.Poised name ∧ s'.term = 0 ∧ s'.log = [] ∧
      s'.register = Calc.initial ∧ s'.requestVoteThreads = [] := by
  let s₁ := (initial name).setClusterHandler m.setCluster
  have hmap : Attains m name (.initial name) s₁ := by
    refine Attains.tell (.setCluster m.setCluster) [] hname rfl (by simp) ?_
    simp [act, handle, initial, s₁]
  have htimer : Attains m name s₁ s₁.changeStateHandler := by
    refine Attains.tell .changeState [] hname trivial (by simp) ?_
    simp [act, handle, s₁, setClusterHandler, initial]
  exact ⟨_, hmap.trans htimer, poised_told hname, rfl, rfl, rfl, rfl⟩

/-- A server can be brought before its candidacy in any term, and none of the loops that its earlier
candidacies have started has ended. -/
theorem attains_poised_in_term (k : ℕ) :
    ∃ s', Attains m name (.initial name) s' ∧ s'.Poised name ∧ s'.term = k ∧ s'.log = [] ∧
      s'.register = Calc.initial ∧ s'.requestVoteThreads = List.replicate k .test := by
  induction k with
  | zero => exact attains_poised_of_initial hname
  | succ k ih =>
    obtain ⟨s₁, hs₁, hpoised, hterm, hlog, hregister, hthreads⟩ := ih
    obtain ⟨s', hs', hpoised', hterm', hlog', hregister', hthreads'⟩ :=
      hpoised.attains_poised hname
    exact ⟨s', hs₁.trans hs', hpoised', by rw [hterm', hterm, Nat.cast_succ],
      hlog'.trans hlog, hregister'.trans hregister,
      by rw [hthreads', hthreads, List.replicate_succ']⟩

/-- A server takes office in any term, with the log that it has as it is constructed. -/
theorem attains_office_in_term (k : ℕ) :
    ∃ s', Attains m name (.initial name) s' ∧ s'.InOffice ∧ s'.term = k + 1 ∧ s'.log = [] ∧
      s'.register = Calc.initial := by
  obtain ⟨s₁, hs₁, hpoised, hterm, hlog, hregister, -⟩ := attains_poised_in_term hname k
  obtain ⟨s', hs', hoffice, hterm', hlog', hregister'⟩ := hpoised.attains_office hname
  exact ⟨s', hs₁.trans hs', hoffice, by rw [hterm', hterm], hlog'.trans hlog,
    hregister'.trans hregister⟩

end Server

/-- In every cluster, and for every positive term that is an `int`, there is a run at whose end all
servers lead in this term, and in which no term overflows. -/
theorem all_lead_in_every_term (m : Membership) {k : ℕ} (hk : (k : ℤ) + 1 < 2 ^ 31) :
    ∃ trace c, Cluster.Run m .initial trace c ∧
      (∀ t ∈ trace, ∀ name ∈ m.names, (t.target.servers name).term < 2 ^ 31) ∧
      ∀ name ∈ m.names, (c.servers name).InOffice ∧ (c.servers name).term = k + 1 := by
  have hleads : ∃ trace c, Cluster.Run m .initial trace c ∧
      ∀ name ∈ m.names, (c.servers name).InOffice ∧ (c.servers name).term = k + 1 := by
    refine Cluster.exists_run_of_solo (fun _ s ↦ s.InOffice ∧ s.term = k + 1) .nil
      fun name hname trace middle _ hsame ↦ ?_
    obtain ⟨s, hs, hoffice, hterm, -⟩ := Server.attains_office_in_term hname k
    obtain ⟨final, hsolo, rfl⟩ := hs middle hsame
    exact ⟨final, hsolo, hoffice, hterm⟩
  obtain ⟨trace, c, hrun, hleads⟩ := hleads
  refine ⟨trace, c, hrun, fun t ht name hname ↦ ?_, hleads⟩
  obtain ⟨before, after, -, hbefore, hstep, hafter⟩ := hrun.cut_of_mem ht
  have hcoherent := Cluster.coherent_initial.run (hbefore.snoc hstep)
  calc (t.target.servers name).term ≤ (c.servers name).term := hcoherent.term_mono hafter name
    _ = k + 1 := (hleads name hname).2
    _ < 2 ^ 31 := hk

/-- All three servers can lead in the last term that is an `int`. -/
theorem all_lead_in_every_term_trio :
    ∃ trace c, Cluster.Run Schedule.trio .initial trace c ∧
      ∀ name ∈ Schedule.trio.names,
        (c.servers name).InOffice ∧ (c.servers name).term = 2 ^ 31 - 1 := by
  obtain ⟨trace, c, hrun, -, hleads⟩ :=
    all_lead_in_every_term Schedule.trio (k := 2 ^ 31 - 2) (by norm_num)
  refine ⟨trace, c, hrun, fun name hname ↦ (hleads name hname).imp_right fun hterm ↦ ?_⟩
  rw [hterm]
  norm_num

end RaftConsensus
