import RaftConsensus.Events
import RaftConsensus.Flags
import RaftConsensus.Model.Loops

/-!
# The `send_heartbeat` loops

A leadership starts a `send_heartbeat` loop, which sends until it finds `m_is_leader` cleared. It
tests the flag once in a pass and reads `m_term` anew in every send, so that it may go on after its
server has ceased to lead. That it never sends under a term its server has not led in is due to
the mutex `m_heartbeat_mtx`: a loop holds it while it sends, and `follower.on_enter` locks it
before the server can take a new term.

`Server.Disciplined` is what the mutex secures in a single server, and `Cluster.LedTerms` adds the
history: a server that leads, and one with a loop in a pass, has entered the leader state in its
present term.
-/

set_option autoImplicit false
set_option relaxedAutoImplicit false

namespace RaftConsensus

open TransitionSystem

/-! ### The mutex -/

/-- A loop holds the mutex from its lock to its unlock. -/
def HeartbeatLoop.holds : HeartbeatLoop → Bool
  | .test | .sending _ | .unlock => true
  | .lock | .done => false

/-- The agent holds the mutex between the lock and the unlock in an `on_enter` handler. -/
def Agent.holds : Agent → Bool
  | .followerUnlock _ | .leaderUnlock => true
  | .idle | .followerLock _ | .leaderLock | .leaderThread => false

/-- Setting an element of a list changes a count by what it counts for. -/
theorem countP_set_add {α : Type} {p : α → Bool} {l : List α} {i : ℕ} {a b : α}
    (h : l[i]? = some a) :
    (l.set i b).countP p + (p a).toNat = l.countP p + (p b).toNat := by
  obtain ⟨hi, hget⟩ := List.getElem?_eq_some_iff.mp h
  have hpos : (if p l[i] then 1 else 0) ≤ l.countP p := by
    split_ifs with hp
    · exact List.countP_pos_iff.mpr ⟨_, List.getElem_mem hi, hp⟩
    · exact Nat.zero_le _
  rw [List.countP_set hi]
  rw [hget] at hpos ⊢
  cases hpa : p a <;> cases hpb : p b <;> simp_all

namespace Server

variable {s s' : Server} {x : Stimulus} {out : List Output} {i : ℕ}

/-- How many hold the mutex, of the loops and the agent. -/
def holders (s : Server) : ℕ :=
  s.heartbeatThreads.countP HeartbeatLoop.holds + s.agent.holds.toNat

/-- What the mutex secures. The flag is set in a leader only, the agent locks the mutex for the
follower state in a follower, at most one holds the mutex, and a server with a loop in a pass leads,
or is inactive, or waits for the mutex to become a follower. -/
structure Disciplined (s : Server) : Prop where
  flag : s.isLeader = true → s.role = .leader
  entering : ∀ handling, s.agent = .followerLock handling ∨ s.agent = .followerUnlock handling →
    s.role = .follower
  mutex : s.holders = s.heartbeatMtx.toNat
  pass : ∀ remaining, .sending remaining ∈ s.heartbeatThreads →
    s.role = .leader ∨ s.role = .inactive ∨ ∃ handling, s.agent = .followerLock handling

/-- The server is disciplined as it is constructed. -/
theorem disciplined_initial (name : ByteString) : (initial name).Disciplined := by
  constructor <;> simp [initial, holders, Agent.holds]

/-- While a loop holds the mutex, it is locked, and the agent does not hold it. -/
theorem Disciplined.of_holds (h : s.Disciplined) {loop : HeartbeatLoop}
    (hloop : loop ∈ s.heartbeatThreads) (hholds : loop.holds = true) :
    s.heartbeatMtx = true ∧ s.agent.holds = false := by
  have hpos : 0 < s.heartbeatThreads.countP HeartbeatLoop.holds :=
    List.countP_pos_iff.mpr ⟨loop, hloop, hholds⟩
  have hmutex := h.mutex
  unfold holders at hmutex
  cases hmtx : s.heartbeatMtx <;> cases hagent : s.agent.holds <;> simp_all

/-- The tally leaves an idle agent idle, or in `leader.on_enter`. -/
theorem tally_agent (hidle : s.agent = .idle) :
    s.tally.agent = .idle ∨ s.tally.agent = .leaderLock := by
  rcases s.tally_cases with ⟨htally, -⟩ | ⟨htally, -⟩
  · exact Or.inl (by rw [htally, hidle])
  · exact Or.inr (by rw [htally]; rfl)

/-- The tally leaves an idle agent without the mutex. -/
theorem tally_holds (hidle : s.agent = .idle) : s.tally.agent.holds = false := by
  rcases tally_agent hidle with hagent | hagent
  · rw [hagent]
    rfl
  · rw [hagent]
    rfl

/-- What the agent does to the mutex: nothing, or it locks or unlocks it. -/
theorem Effect.mutex_cases (h : s.Effect x s' out) (hx : x.heartbeat = false) :
    (s'.heartbeatMtx = s.heartbeatMtx ∧ s'.agent.holds = s.agent.holds) ∨
      (s.heartbeatMtx = false ∧ s.agent.holds = false ∧ s'.heartbeatMtx = true ∧
        s'.agent.holds = true) ∨
      (s.agent.holds = true ∧ s'.heartbeatMtx = false ∧ s'.agent.holds = false) := by
  cases h
  case countVote hidle _ _ =>
    have hholds := tally_holds (s := { s with voteCnt := s.voteCnt + 1 }) hidle
    exact Or.inl ⟨tally_heartbeatMtx, hholds.trans (by rw [hidle]; rfl)⟩
  case answerVote hidle _ _ _ =>
    exact Or.inl ⟨tally_heartbeatMtx, (tally_holds hidle).trans (by rw [hidle]; rfl)⟩
  case wake hidle _ => exact Or.inl ⟨rfl, by rw [hidle]; rfl⟩
  case stepDown hidle _ _ => exact Or.inl ⟨rfl, by rw [hidle]; rfl⟩
  case leaderTimeout hidle _ => exact Or.inl ⟨rfl, by rw [hidle]; rfl⟩
  case followerLock hagent hfree =>
    exact Or.inr (Or.inl ⟨hfree, by rw [hagent]; rfl, rfl, rfl⟩)
  case leaderLock hagent hfree => exact Or.inr (Or.inl ⟨hfree, by rw [hagent]; rfl, rfl, rfl⟩)
  case enterFollower hagent => exact Or.inr (Or.inr ⟨by rw [hagent]; rfl, rfl, rfl⟩)
  case enterAccept hagent _ _ => exact Or.inr (Or.inr ⟨by rw [hagent]; rfl, rfl, rfl⟩)
  case leaderUnlock hagent => exact Or.inr (Or.inr ⟨by rw [hagent]; rfl, rfl, rfl⟩)
  case leaderThread hagent => exact Or.inl ⟨rfl, by rw [hagent]; rfl⟩
  case heartbeatStep | heartbeatSkip | heartbeat => simp [Stimulus.heartbeat] at hx
  all_goals exact Or.inl ⟨rfl, rfl⟩

/-- A loop in a pass does not let its server become a follower or a candidate, or take another
term: it holds the mutex, which `follower.on_enter` needs. -/
theorem Effect.pass (h : s.Effect x s' out) (hmtx : s.heartbeatMtx = true)
    (hagent : s.agent.holds = false) (hs : s.role = .leader ∨ s.role = .inactive ∨
      ∃ handling, s.agent = .followerLock handling) :
    s'.term = s.term ∧
      (s'.role = .leader ∨ s'.role = .inactive ∨
        ∃ handling, s'.agent = .followerLock handling) := by
  cases h
  case wake | stepDown | leaderTimeout => exact ⟨rfl, Or.inr (Or.inr ⟨_, rfl⟩)⟩
  case deactivate => exact ⟨rfl, Or.inr (Or.inl rfl)⟩
  case countVote hidle hrole _ =>
    rcases hs with hleader | hinactive | ⟨handling, hlock⟩
    · simp [Role.subscribes, hleader] at hrole
    · simp [Role.subscribes, hinactive] at hrole
    · simp [hidle] at hlock
  case answerVote hidle hrole _ _ =>
    rcases hs with hleader | hinactive | ⟨handling, hlock⟩
    · simp [Role.subscribes, hleader] at hrole
    · simp [Role.subscribes, hinactive] at hrole
    · simp [hidle] at hlock
  case followerLock hfree => simp [hmtx] at hfree
  case leaderLock hfree => simp [hmtx] at hfree
  all_goals simp_all [Agent.holds, setClusterHandler, changeStateHandler, consistencyCheck]

/-- Every step keeps the count of those that hold the mutex. -/
theorem Disciplined.holders_step (h : s.Disciplined) (hact : s.act x = .ok (s', out)) :
    s'.holders = s'.heartbeatMtx.toNat := by
  have hmutex := h.mutex
  unfold holders at hmutex ⊢
  by_cases hx : x.heartbeat = false
  · have hcount : s'.heartbeatThreads.countP HeartbeatLoop.holds =
        s.heartbeatThreads.countP HeartbeatLoop.holds := by
      rcases (act_effect hact).heartbeatThreads_cases hx with hsame | hstart
      · rw [hsame]
      · rw [hstart, List.countP_append]
        rfl
    rw [hcount]
    rcases (act_effect hact).mutex_cases hx with
      ⟨hmtx, hagent⟩ | ⟨hmtx, hagent, hmtx', hagent'⟩ | ⟨hagent, hmtx', hagent'⟩
    · rw [hmtx, hagent, hmutex]
    · simp only [hmtx, hagent, hmtx', hagent', Bool.toNat_true, Bool.toNat_false] at hmutex ⊢
      omega
    · have hle := Bool.toNat_le s.heartbeatMtx
      simp only [hagent, hmtx', hagent', Bool.toNat_true, Bool.toNat_false] at hmutex ⊢
      omega
  · cases x with
    | heartbeatStep i =>
      obtain ⟨loop, mtx, next, hloop, hstep, rfl, -⟩ := act_heartbeatStep hact
      have hcount := countP_set_add (p := HeartbeatLoop.holds) (b := next) hloop
      cases hstep with
      | lock hfree =>
        simp only [HeartbeatLoop.holds, hfree, Bool.toNat_true, Bool.toNat_false]
          at hcount hmutex ⊢
        omega
      | enter | leave | again =>
        simp only [HeartbeatLoop.holds, Bool.toNat_true] at hcount ⊢
        omega
      | unlock =>
        have hheld := (h.of_holds (List.mem_of_getElem? hloop) rfl).1
        simp only [HeartbeatLoop.holds, hheld, Bool.toNat_true, Bool.toNat_false]
          at hcount hmutex ⊢
        omega
    | heartbeatSend i peer garbage =>
      obtain ⟨remaining, hloop, -, rfl, -⟩ := act_heartbeatSend hact
      have hcount := countP_set_add (p := HeartbeatLoop.holds)
        (b := .sending (remaining.erase peer)) hloop
      simp only [HeartbeatLoop.holds, Bool.toNat_true] at hcount ⊢
      omega
    | handle | timeLimit | resume | requestVoteStep | requestVoteSend => exact absurd rfl hx

/-- A server that has a loop in a pass after a step had one before, or was leader, and its term is
the same. -/
theorem Disciplined.pass_step (h : s.Disciplined) (hact : s.act x = .ok (s', out))
    {remaining : List ByteString} (hpass : .sending remaining ∈ s'.heartbeatThreads) :
    (s.role = .leader ∨ ∃ before, .sending before ∈ s.heartbeatThreads) ∧ s'.term = s.term ∧
      (s'.role = .leader ∨ s'.role = .inactive ∨
        ∃ handling, s'.agent = .followerLock handling) := by
  by_cases hx : x.heartbeat = false
  · have hold : .sending remaining ∈ s.heartbeatThreads := by
      rcases (act_effect hact).heartbeatThreads_cases hx with hsame | hstart
      · exact hsame ▸ hpass
      · simpa [hstart] using hpass
    obtain ⟨hmtx, hagent⟩ := h.of_holds hold rfl
    exact ⟨Or.inr ⟨remaining, hold⟩, (act_effect hact).pass hmtx hagent (h.pass remaining hold)⟩
  · cases x with
    | heartbeatStep i =>
      obtain ⟨loop, mtx, next, hloop, hstep, rfl, -⟩ := act_heartbeatStep hact
      rcases List.mem_or_eq_of_mem_set hpass with hold | rfl
      · exact ⟨Or.inr ⟨remaining, hold⟩, rfl, h.pass remaining hold⟩
      · cases hstep with
        | enter hleader => exact ⟨Or.inl (h.flag hleader), rfl, Or.inl (h.flag hleader)⟩
    | heartbeatSend i peer garbage =>
      obtain ⟨before, hloop, -, rfl, -⟩ := act_heartbeatSend hact
      have hold := List.mem_of_getElem? hloop
      exact ⟨Or.inr ⟨before, hold⟩, rfl, h.pass before hold⟩
    | handle | timeLimit | resume | requestVoteStep | requestVoteSend => exact absurd rfl hx

/-- Every step keeps the server disciplined. -/
theorem Disciplined.step (h : s.Disciplined) (hflagged : s'.Flagged)
    (hact : s.act x = .ok (s', out)) : s'.Disciplined where
  flag hflag := by simpa [hflagged.leader] using hflag
  entering handling hentering := by
    refine hflagged.entering .follower ?_
    rcases hentering with hagent | hagent
    · rw [hagent]
      rfl
    · rw [hagent]
      rfl
  mutex := h.holders_step hact
  pass _ hpass := (h.pass_step hact hpass).2.2

/-- In a run of a server by itself it is disciplined. -/
theorem disciplined_run {name : ByteString} {trace : History} (hrun : Run (initial name) trace s) :
    s.Disciplined := by
  induction hrun with
  | nil => exact disciplined_initial name
  | snoc hrest hstep ih => exact ih.step (flagged_run (hrest.snoc hstep)) hstep.act

/-- A server that is leader after a step has become so in it, or was leader in the same term. -/
theorem Disciplined.leader_step (h : s.Disciplined) (hact : s.act x = .ok (s', out))
    (hleader : s'.role = .leader) :
    s.role ≠ .leader ∨ (s.role = .leader ∧ s'.term = s.term) := by
  by_cases hrole : s.role = .leader
  · right
    refine ⟨hrole, ?_⟩
    rcases (act_effect hact).term_cases with hsame | ⟨-, -, hcandidate⟩ | ⟨ae, haccepts, -⟩
    · exact hsame
    · simp [hleader] at hcandidate
    · have hfollower : s.role = .follower := by
        rcases haccepts with ⟨-, -, hfollower, -⟩ | ⟨-, hagent⟩
        · exact hfollower
        · exact h.entering _ (Or.inr hagent)
      simp [hrole] at hfollower
  · exact Or.inl hrole

end Server

namespace Cluster

variable {m : Membership} {c c' start : Cluster} {a : Action} {trace before : History}
  {name : ByteString} {term : ℤ}

/-! ### Terms that a server has led in -/

/-- In a run every server is disciplined. -/
theorem disciplined_run (hrun : Run m initial trace c) (name : ByteString) :
    (c.servers name).Disciplined :=
  Server.disciplined_run (run_server hrun name)

/-- A server has entered the leader state in a term. -/
def Led (history : History) (name : ByteString) (term : ℤ) : Prop :=
  ∃ v ∈ history, EntersLeader v name term

theorem Led.mono (h : Led before name term) (later : History) :
    Led (before ++ later) name term := by
  obtain ⟨v, hv, henters⟩ := h
  exact ⟨v, List.mem_append_left _ hv, henters⟩

/-- The server that an `AppendEntry` names has sent it to a mailbox, and had led in its term. -/
def SentAsLeader (history : History) (dst : Mbox) (ae : AppendEntry) : Prop :=
  ∃ before u after, history = before ++ u :: after ∧
    (dst, .appendEntry ae) ∈ outputs ae.leaderId u ∧ Led before ae.leaderId ae.term

theorem SentAsLeader.mono {dst : Mbox} {ae : AppendEntry} (h : SentAsLeader before dst ae)
    (later : History) : SentAsLeader (before ++ later) dst ae := by
  obtain ⟨first, u, rest, rfl, hsent, hled⟩ := h
  exact ⟨first, u, rest ++ later, by simp, hsent, hled⟩

theorem SentAsLeader.led {dst : Mbox} {ae : AppendEntry} (h : SentAsLeader before dst ae) :
    Led before ae.leaderId ae.term := by
  obtain ⟨first, u, rest, rfl, -, hled⟩ := h
  exact hled.mono _

/-- The terms of leaders, of servers with a loop in a pass and of every `AppendEntry` in flight
are terms that the server in question has led in. -/
structure LedTerms (history : History) (c : Cluster) : Prop where
  leader : ∀ name, (c.servers name).role = .leader → Led history name (c.servers name).term
  pass : ∀ name remaining, .sending remaining ∈ (c.servers name).heartbeatThreads →
    Led history name (c.servers name).term
  message : ∀ e ∈ c.network, ∀ ae, e.msg = .appendEntry ae →
    e.sender = some ae.leaderId ∧ SentAsLeader history e.dst ae
  handling : ∀ name ae, (c.servers name).pending = some ae → Led history ae.leaderId ae.term

/-- Every step of a run keeps the terms led in. -/
theorem LedTerms.step (h : LedTerms before c) (hrun : Run m initial before c)
    (hstep : Step m c a c') : LedTerms (before ++ [⟨c, a, c'⟩]) c' where
  leader name hleader := by
    rcases hstep.act_cases name with hsame | ⟨x, -, -, hact⟩
    · rw [hsame] at hleader ⊢
      exact (h.leader name hleader).mono _
    · rcases (disciplined_run hrun name).leader_step hact hleader with hnew | ⟨hold, hterm⟩
      · exact ⟨_, List.mem_append_right _ (List.mem_singleton_self _), hnew, hleader, rfl⟩
      · rw [hterm]
        exact (h.leader name hold).mono _
  pass name remaining hpass := by
    rcases hstep.act_cases name with hsame | ⟨x, -, -, hact⟩
    · rw [hsame] at hpass ⊢
      exact (h.pass name remaining hpass).mono _
    · obtain ⟨hold, hterm, -⟩ := (disciplined_run hrun name).pass_step hact hpass
      rw [hterm]
      rcases hold with hleader | ⟨earlier, hold⟩
      · exact (h.leader name hleader).mono _
      · exact (h.pass name earlier hold).mono _
  message e he ae hmsg := by
    rcases hstep.mem_network_of_server he hmsg id with hold | ⟨name, hsender, hsent⟩
    · obtain ⟨hsender, hsent⟩ := h.message e hold ae hmsg
      exact ⟨hsender, hsent.mono _⟩
    · rw [hmsg] at hsent
      obtain ⟨x, hx, -⟩ := stimulus_of_mem_outputs hsent
      obtain ⟨-, -, hact, -⟩ := hstep.act hx
      obtain ⟨i, peer, garbage, rfl, -, -, rfl, -⟩ :=
        (Server.act_effect hact).appendEntry_sent hsent
      obtain ⟨remaining, hloop, -⟩ := Server.act_heartbeatSend hact
      have hname := (coherent_initial.run hrun).name_eq name
      have hled := h.pass name remaining (List.mem_of_getElem? hloop)
      simp only [SentAsLeader, Server.heartbeatFor_leaderId, Server.heartbeatFor_term, hname]
      exact ⟨hsender, before, _, [], rfl, hsent, hled⟩
  handling name ae hpending := by
    rcases (step_effect hstep).server name with hsame | ⟨x, out, -, havailable, heffect⟩
    · rw [hsame] at hpending
      exact (h.handling name ae hpending).mono _
    · rcases heffect.pending hpending with ⟨hold, -⟩ | ⟨rfl, -⟩
      · exact (h.handling name ae hold).mono _
      · obtain ⟨e, he, -, hmsg⟩ := havailable _ rfl
        exact (h.message e he ae hmsg).2.led.mono _

/-- In a run the terms of leaders, of servers with a loop in a pass and of every `AppendEntry` in
flight are terms led in. -/
theorem ledTerms_run (hrun : Run m initial trace c) : LedTerms trace c := by
  induction hrun with
  | nil => constructor <;> simp [initial, Server.initial, Server.pending]
  | snoc hrest hstep ih => exact ih.step hrest hstep

end Cluster

/-- In every state of every run, every `AppendEntry` in flight has been sent by the server that it
names as leader, and this server had entered the leader state with the term of the message before
it sent it. -/
theorem sent_under_led_term {m : Membership} {trace : Cluster.History} {c : Cluster}
    (hrun : Cluster.Run m .initial trace c) :
    ∀ e ∈ c.network, ∀ ae, e.msg = .appendEntry ae →
      e.sender = some ae.leaderId ∧ ∃ before u after, trace = before ++ u :: after ∧
        (e.dst, .appendEntry ae) ∈ Cluster.outputs ae.leaderId u ∧
        ∃ v ∈ before, Cluster.EntersLeader v ae.leaderId ae.term :=
  (Cluster.ledTerms_run hrun).message

/-- The message of the first leader to the third server was sent after the leader was elected. -/
theorem sent_under_led_term_replication :
    let trace := history (Cluster.next Schedule.trio) .initial Schedule.replication
    let ae := Schedule.firstLeaderEntries 0 0 ["ADD;5"]
    ∃ before u after, trace = before ++ u :: after ∧
      (.server (bytes "server3"), .appendEntry ae) ∈ Cluster.outputs (bytes "server1") u ∧
      ∃ v ∈ before, Cluster.EntersLeader v (bytes "server1") 1 := by
  intro trace ae
  have hrun : Cluster.Run Schedule.trio .initial trace _ := run_of_isOk (by decide)
  exact (sent_under_led_term hrun
    ⟨some (bytes "server1"), none, .server (bytes "server3"), .appendEntry ae⟩ (by decide)
    ae rfl).2

end RaftConsensus
