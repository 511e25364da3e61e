import RaftConsensus.Model.Effect

/-!
# Facts about single steps

Case analyses of the effects of a stimulus on one server, by what they touch: the mailboxes a
server knows, its term and vote count, its log, the state it is in, and the messages it sends.

`Server.Accepts` is the event that a server accepts an `AppendEntry`: a follower handles one that
is not stale, or a server that stepped down on one reaches the end of `follower.on_enter`.
-/

set_option autoImplicit false
set_option relaxedAutoImplicit false

namespace RaftConsensus

namespace Mboxes

variable {m : Mboxes} {name other : ByteString} {peer : Peer}

@[simp] theorem get_empty : (∅ : Mboxes).get name = ⟨none, 0⟩ := rfl

@[simp] theorem get_insert_self : Mboxes.get (m.insert name peer) name = peer := by
  simp [get]

theorem get_insert_of_ne (h : other ≠ name) :
    Mboxes.get (m.insert name peer) other = m.get other := by
  simp [get, AList.lookup_insert_ne h]

/-- Setting the next indices sets them in the entries there are. -/
theorem lookup_setNextIndices (index : ℤ) :
    (m.setNextIndices index).lookup name =
      (m.lookup name).map fun peer ↦ { peer with nextIndex := index } :=
  List.dlookup_map₂ name

/-- Setting the next indices keeps the mailboxes. -/
@[simp] theorem get_setNextIndices_mbox (index : ℤ) :
    ((m.setNextIndices index).get name).mbox = (m.get name).mbox := by
  unfold get
  rw [lookup_setNextIndices]
  cases m.lookup name <;> rfl

/-- A mailbox known after a `SetCluster` map is in the map or was known before. -/
theorem get_foldl_insert_mbox {entries : List (ByteString × Option Mbox)} {index : ℤ}
    {mbox : Mbox} (h : (Mboxes.get (entries.foldl
      (fun m el ↦ m.insert el.1 ⟨el.2, index⟩) m) name).mbox = some mbox) :
    (name, some mbox) ∈ entries ∨ (m.get name).mbox = some mbox := by
  induction entries generalizing m with
  | nil => exact Or.inr h
  | cons el rest ih =>
    rcases ih h with hrest | hinsert
    · exact Or.inl (List.mem_cons_of_mem _ hrest)
    · by_cases hname : name = el.1
      · subst hname
        rw [get_insert_self] at hinsert
        exact Or.inl (by rw [← hinsert]; exact List.mem_cons_self)
      · rw [get_insert_of_ne hname] at hinsert
        exact Or.inr hinsert

/-- A name with a mailbox is known. -/
theorem mem_of_mbox {mbox : Mbox} (h : (m.get name).mbox = some mbox) : name ∈ m := by
  by_contra hmissing
  rw [get, AList.lookup_eq_none.mpr hmissing] at h
  simp at h

end Mboxes

namespace Server

variable {s s' : Server} {x : Stimulus} {out : List Output} {dst : Mbox}

/-! ### Mailboxes -/

/-- Handling a result keeps the mailboxes. -/
@[simp] theorem consistencyCheck_mbox (aer : AppendEntryResult) (name : ByteString) :
    ((s.consistencyCheck aer).mboxes.get name).mbox = (s.mboxes.get name).mbox := by
  unfold consistencyCheck
  by_cases hname : name = aer.followerName
  · subst hname
    simp
  · simp [Mboxes.get_insert_of_ne hname]

/-- A mailbox known after a step was known before, or comes from a `SetCluster` map. -/
theorem Effect.mbox (h : s.Effect x s' out) {name : ByteString} {mbox : Mbox}
    (hmbox : (s'.mboxes.get name).mbox = some mbox) :
    (s.mboxes.get name).mbox = some mbox ∨
      ∃ sc, x = .handle (.setCluster sc) ∧ (name, some mbox) ∈ sc.mboxes := by
  cases h
  case setCluster sc _ =>
    rcases Mboxes.get_foldl_insert_mbox hmbox with hnew | hold
    · exact Or.inr ⟨sc, rfl, hnew⟩
    · exact Or.inl hold
  case result => exact Or.inl (by simpa using hmbox)
  case leaderUnlock => exact Or.inl (by simpa using hmbox)
  case countVote | answerVote => exact Or.inl (by simpa using hmbox)
  all_goals exact Or.inl hmbox

/-! ### The message an agent is still handling -/

/-- The `AppendEntry` whose handler an agent goes on with at the end of `follower.on_enter`. -/
def pending (s : Server) : Option AppendEntry :=
  match s.agent with
  | .followerLock handling | .followerUnlock handling => handling
  | .idle | .leaderLock | .leaderUnlock | .leaderThread => none

/-- An idle agent handles nothing. -/
theorem pending_of_idle (h : s.agent = .idle) : s.pending = none := by
  rw [pending, h]

/-- The tally leaves nothing to be handled. -/
theorem tally_pending (h : s.agent = .idle) : s.tally.pending = none := by
  rcases s.tally_cases with ⟨htally, -⟩ | ⟨htally, -⟩
  · rw [htally]
    exact pending_of_idle h
  · rw [htally]
    rfl

/-- A message that is still being handled was so before, or has made the server step down. -/
theorem Effect.pending (h : s.Effect x s' out) {ae : AppendEntry}
    (hpending : s'.pending = some ae) :
    (s.pending = some ae ∧ s'.term = s.term ∧ s'.role = s.role) ∨
      (x = .handle (.appendEntry ae) ∧ s.term ≤ ae.term ∧ s'.term = s.term ∧
        s'.role = .follower) := by
  cases h
  case stepDown entry hidle _ hterm =>
    obtain rfl : entry = ae := Option.some.inj hpending
    exact Or.inr ⟨rfl, hterm, rfl, rfl⟩
  case followerLock handling hagent _ =>
    refine Or.inl ⟨?_, rfl, rfl⟩
    rw [Server.pending, hagent]
    exact hpending
  case heartbeatStep | heartbeatSkip | heartbeat | requestVoteStep | voteRequest =>
    exact Or.inl ⟨hpending, rfl, rfl⟩
  case countVote hidle _ _ =>
    have hnone := tally_pending (s := { s with voteCnt := s.voteCnt + 1 }) hidle
    simp [hnone] at hpending
  case answerVote hidle _ _ _ => simp [tally_pending hidle] at hpending
  case wake | leaderTimeout | enterFollower | enterAccept | leaderLock | leaderUnlock |
      leaderThread =>
    simp [Server.pending, activateFollower, leaveFollowerEntry, accepted] at hpending
  all_goals
    have hnone := pending_of_idle (s := s) ‹_›
    exact absurd (hnone.symm.trans hpending) (by simp)

/-! ### Terms, votes and roles -/

/-- The event that a server accepts an `AppendEntry`. -/
def Accepts (s : Server) (x : Stimulus) (ae : AppendEntry) : Prop :=
  (x = .handle (.appendEntry ae) ∧ s.agent = .idle ∧ s.role = .follower ∧ s.term ≤ ae.term) ∨
    (x = .resume ∧ s.agent = .followerUnlock (some ae))

/-- The event that a server handles an answer to its vote request that grants the vote. -/
def Counts (s : Server) (x : Stimulus) (rv : RequestVote) : Prop :=
  x = .handle (.requestVote rv) ∧ s.agent = .idle ∧
    s.role.subscribes (.requestVote rv) = true ∧ rv.voteGranted = true

/-- A term stays as it is, grows by one in a new candidacy, or is that of an accepted message. -/
theorem Effect.term_cases (h : s.Effect x s' out) :
    s'.term = s.term ∨ (s'.term = s.term + 1 ∧ s'.voteCnt = 0 ∧ s'.role = .candidate) ∨
      ∃ ae, s.Accepts x ae ∧ s'.term = ae.term ∧ s'.voteCnt = 0 ∧ s'.role = s.role := by
  cases h
  case electionTimeout => exact Or.inr (Or.inl ⟨rfl, rfl, rfl⟩)
  case accept ae _ _ hidle hrole hterm _ _ =>
    exact Or.inr (Or.inr ⟨ae, Or.inl ⟨rfl, hidle, hrole, hterm⟩, rfl, rfl, rfl⟩)
  case enterAccept ae _ _ hagent _ _ =>
    exact Or.inr (Or.inr ⟨ae, Or.inr ⟨rfl, hagent⟩, rfl, rfl, rfl⟩)
  case countVote | answerVote => exact Or.inl tally_term
  all_goals exact Or.inl rfl

/-- A vote count is reset, stays as it is within a term, or counts a granted vote. -/
theorem Effect.voteCnt_cases (h : s.Effect x s' out) :
    s'.voteCnt = 0 ∨ (s'.term = s.term ∧ s'.voteCnt = s.voteCnt) ∨
      (s'.term = s.term ∧ ∃ rv, s.Counts x rv ∧ s'.voteCnt = s.voteCnt + 1) := by
  cases h
  case countVote rv hidle hrole hgranted =>
    rcases tally_cases (s := { s with voteCnt := s.voteCnt + 1 }) with ⟨htally, -⟩ | ⟨htally, -⟩
    · exact Or.inr (Or.inr ⟨tally_term, rv, ⟨rfl, hidle, hrole, hgranted⟩, by rw [htally]⟩)
    · exact Or.inl (by rw [htally]; rfl)
  case answerVote =>
    rcases s.tally_cases with ⟨htally, -⟩ | ⟨htally, -⟩
    · exact Or.inr (Or.inl ⟨tally_term, by rw [htally]⟩)
    · exact Or.inl (by rw [htally]; rfl)
  case electionTimeout | accept | enterFollower | enterAccept => exact Or.inl rfl
  all_goals exact Or.inr (Or.inl ⟨rfl, rfl⟩)

/-- A server becomes leader only by handling a `RequestVote`, in its present term and with a vote
count above the threshold. -/
theorem Effect.leader_cases (h : s.Effect x s' out) (hleader : s'.role = .leader) :
    s.role = .leader ∨ (s'.term = s.term ∧
      (ceilHalf s.mboxes.size < s.voteCnt ∨
        ∃ rv, s.Counts x rv ∧ ceilHalf s.mboxes.size < s.voteCnt + 1)) := by
  cases h
  case countVote rv hidle hrole hgranted =>
    refine Or.inr ⟨tally_term, Or.inr ⟨rv, ⟨rfl, hidle, hrole, hgranted⟩, ?_⟩⟩
    rcases tally_cases (s := { s with voteCnt := s.voteCnt + 1 }) with ⟨htally, -⟩ | ⟨-, hmajority⟩
    · rw [htally] at hleader
      simp [Role.subscribes, show s.role = .leader from hleader] at hrole
    · exact hmajority
  case answerVote rv _ _ hrole _ _ =>
    refine Or.inr ⟨tally_term, Or.inl ?_⟩
    rcases s.tally_cases with ⟨htally, -⟩ | ⟨-, hmajority⟩
    · rw [htally] at hleader
      simp [Role.subscribes, hleader] at hrole
    · exact hmajority
  case wake | deactivate | stepDown | electionTimeout | leaderTimeout =>
    simp [activateFollower, activateInactive, activateCandidate] at hleader
  all_goals exact Or.inl hleader

/-- A server has a `send_request_vote` thread only once it has been a candidate. -/
theorem Effect.requestVoteThreads (h : s.Effect x s' out) (hthreads : s'.requestVoteThreads ≠ []) :
    s.requestVoteThreads ≠ [] ∨ s'.term = s.term + 1 := by
  cases h
  case electionTimeout => exact Or.inr rfl
  case requestVoteStep hlength | voteRequest hlength _ _ =>
    refine Or.inl fun hnil ↦ hthreads ?_
    rw [hnil] at hlength
    exact List.length_eq_zero_iff.mp hlength
  case countVote | answerVote => exact Or.inl (by simpa using hthreads)
  all_goals exact Or.inl hthreads

/-! ### Logs -/

/-- The event that a leader accepts a command. -/
def Creates (s : Server) (x : Stimulus) (cmd : ByteString) : Prop :=
  (∃ inbox, x = .handle (.clientRequest ⟨inbox, cmd⟩)) ∧ s.agent = .idle ∧ s.role = .leader ∧
    cmd ≠ []

/-- A log stays as it is, grows by a command that the leader accepts in its term, or by the
entries of an accepted message. -/
theorem Effect.log_cases (h : s.Effect x s' out) :
    s'.log = s.log ∨
      (∃ cmd, s.Creates x cmd ∧ s'.log = s.log ++ [(s.term, cmd)] ∧ s'.term = s.term) ∨
      ∃ ae, s.Accepts x ae ∧ s'.log = s.log ++ ae.entries ∧ s'.term = ae.term := by
  cases h
  case command cr _ _ hidle hrole hcmd _ _ =>
    exact Or.inr (Or.inl ⟨cr.cmd, ⟨⟨cr.inbox, rfl⟩, hidle, hrole, hcmd⟩, rfl, rfl⟩)
  case accept ae _ _ hidle hrole hterm _ _ =>
    exact Or.inr (Or.inr ⟨ae, Or.inl ⟨rfl, hidle, hrole, hterm⟩, rfl, rfl⟩)
  case enterAccept ae _ _ hagent _ _ =>
    exact Or.inr (Or.inr ⟨ae, Or.inr ⟨rfl, hagent⟩, rfl, rfl⟩)
  case countVote | answerVote => exact Or.inl tally_log
  all_goals exact Or.inl rfl

/-- Accepting a message appends its entries. -/
theorem Effect.log_of_accepts (h : s.Effect x s' out) {ae : AppendEntry}
    (haccept : s.Accepts x ae) :
    s'.log = s.log ++ ae.entries ∧ s'.term = ae.term := by
  rcases haccept with ⟨rfl, hidle, hrole, hterm⟩ | ⟨rfl, hagent⟩
  · cases h
    case drop hsubscribes => simp [Role.subscribes, hrole] at hsubscribes
    case accept => exact ⟨rfl, rfl⟩
    case stepDown hrole' _ => simp [hrole] at hrole'
    case reject hstale _ => omega
  · cases h <;> simp_all
    exact ⟨rfl, rfl⟩

/-- Creating an entry appends it. -/
theorem Effect.log_of_creates (h : s.Effect x s' out) {cmd : ByteString}
    (hcreates : s.Creates x cmd) : s'.log = s.log ++ [(s.term, cmd)] := by
  obtain ⟨⟨inbox, rfl⟩, -, hrole, hcmd⟩ := hcreates
  cases h
  case drop hsubscribes => simp [Role.subscribes, hrole] at hsubscribes
  case command => rfl
  case query hempty _ => exact absurd hempty hcmd
  case redirect hfollower _ => simp [hrole] at hfollower

/-! ### Messages sent -/

/-- Servers send no `SetCluster` message, no request of a client and no `deactivate` signal. -/
theorem Effect.not_sent (h : s.Effect x s' out) {msg : Msg} (hsent : (dst, msg) ∈ out) :
    (∀ sc, msg ≠ .setCluster sc) ∧ (∀ cr, msg ≠ .clientRequest cr) ∧ msg ≠ .deactivate := by
  cases h
  case enterAccept =>
    simp only [List.mem_cons, Prod.mk.injEq, List.not_mem_nil, or_false] at hsent
    rcases hsent with ⟨-, rfl⟩ | ⟨-, rfl⟩ <;> simp
  all_goals simp_all

/-- A `RequestVote` is an answer to a request, or a request of a `send_request_vote` loop. -/
theorem Effect.requestVote_sent (h : s.Effect x s' out) {rv : RequestVote}
    (hsent : (dst, .requestVote rv) ∈ out) :
    (∃ request, x = .handle (.requestVote request) ∧ s.agent = .idle ∧
        s.role.subscribes (.requestVote request) = true ∧ request.voteGranted = false ∧
        (s.mboxes.get request.candidateId).mbox = some dst ∧
        rv = .answer s.term (s.term ≤ request.term)) ∨
      (s.requestVoteThreads ≠ [] ∧ (∃ peer, (s.mboxes.get peer).mbox = some dst) ∧
        rv = s.voteRequest) := by
  cases h <;> simp_all
  case voteRequest peer mbox _ _ _ hmbox => exact ⟨peer, hmbox⟩

/-- The payload of a heartbeat is taken from the log. -/
theorem mem_log_of_mem_heartbeatFor {k garbage : ℤ} {el : Entry}
    (hel : el ∈ (s.heartbeatFor k garbage).entries) : el ∈ s.log := by
  unfold heartbeatFor suffixFrom at hel
  split_ifs at hel with hlog hk
  · exact List.mem_of_mem_drop hel
  · simp at hel
  · simp at hel

/-- A heartbeat carries the term of its sender. -/
@[simp] theorem heartbeatFor_term {k garbage : ℤ} :
    (s.heartbeatFor k garbage).term = s.term := by
  unfold heartbeatFor
  split_ifs <;> rfl

/-- A heartbeat names its sender. -/
@[simp] theorem heartbeatFor_leaderId {k garbage : ℤ} :
    (s.heartbeatFor k garbage).leaderId = s.name := by
  unfold heartbeatFor
  split_ifs <;> rfl

/-- An `AppendEntry` is sent by a `send_heartbeat` loop. -/
theorem Effect.appendEntry_sent (h : s.Effect x s' out) {ae : AppendEntry}
    (hsent : (dst, .appendEntry ae) ∈ out) :
    ∃ i peer garbage, x = .heartbeatSend i peer garbage ∧ peer ≠ s.name ∧
      (s.mboxes.get peer).mbox = some dst ∧
      ae = s.heartbeatFor (s.mboxes.get peer).nextIndex garbage ∧
      s'.log = s.log ∧ s'.term = s.term := by
  cases h <;> simp_all

end Server

end RaftConsensus
