import Mathlib.Data.Finset.Card
import RaftConsensus.Events

/-!
# Elections

A candidate becomes leader when it has counted more granted votes than half of its cluster, rounded
up. Votes are only counted: an answer carries neither the name of the voter nor the request it
answers. A candidate asks again every election timeout and counts every answer, so that one voter
can be counted several times, and answers to an earlier candidacy count in a later one
(`not_majority_repeatedVotes`). A voter keeps no record of the votes it grants, and can grant two
candidates of one term (`not_election_safety_doubleVotes`).

`CountsFreshVote` says that a vote that is counted is the first of its voter in this term and
answers a request of this term. In runs in which it holds of every step a leader has been granted
its office by a majority (`leader_has_majority`). When moreover no voter grants two candidates of
one term, no two servers enter the leader state in the same term (`election_safety`).
-/

set_option autoImplicit false
set_option relaxedAutoImplicit false

namespace RaftConsensus

open TransitionSystem

/-! ### The size of the cluster -/

namespace Server

variable {s s' : Server} {x : Stimulus} {out : List Output} {name : ByteString}

/-- The names after a `SetCluster` map are the old ones and those in the map. -/
theorem mem_setClusterHandler {sc : SetCluster} :
    name ∈ (s.setClusterHandler sc).mboxes ↔ name ∈ sc.mboxes.map Prod.fst ∨ name ∈ s.mboxes := by
  unfold setClusterHandler
  generalize s.mboxes = mboxes
  induction sc.mboxes generalizing mboxes with
  | nil => simp
  | cons el rest ih =>
    rw [List.foldl_cons, ih, AList.mem_insert, List.map_cons, List.mem_cons]
    tauto

/-- Setting the next indices keeps the names. -/
theorem mem_setNextIndices {mboxes : Mboxes} {index : ℤ} :
    name ∈ mboxes.setNextIndices index ↔ name ∈ mboxes := by
  rw [← AList.lookup_isSome, ← AList.lookup_isSome, Mboxes.lookup_setNextIndices,
    Option.isSome_map]

/-- A server knows a name after a step if it did before, or by a `SetCluster` map or a result. -/
theorem Effect.mem_mboxes (h : s.Effect x s' out) :
    name ∈ s'.mboxes ↔ name ∈ s.mboxes ∨
      (∃ sc, x = .handle (.setCluster sc) ∧ s.agent = .idle ∧ name ∈ sc.mboxes.map Prod.fst) ∨
      ∃ aer, x = .handle (.appendEntryResult aer) ∧ s.role = .leader ∧ name = aer.followerName := by
  cases h
  case setCluster sc hidle =>
    rw [mem_setClusterHandler, or_comm]
    simp [hidle]
  case result hrole => simp [consistencyCheck, AList.mem_insert, hrole, or_comm]
  case leaderUnlock => simp [mem_setNextIndices]
  case countVote | answerVote => simp
  case drop msg hidle hsubscribes =>
    cases msg <;> simp_all [Role.subscribes]
  all_goals simp [exitState, activateFollower, activateInactive, activateCandidate,
    changeStateHandler, accepted, leaveFollowerEntry]

/-- A result names the server that sends it. -/
theorem Effect.result_sent (h : s.Effect x s' out) {dst : Mbox} {aer : AppendEntryResult}
    (hsent : (dst, .appendEntryResult aer) ∈ out) : aer.followerName = s.name := by
  cases h <;> simp_all [acceptResult]

/-- A server knows the names of the cluster and no others. -/
def Knows (m : Membership) (s : Server) : Prop := ∀ peer, peer ∈ s.mboxes ↔ peer ∈ m.names

/-- The keys of its map are then the names, in some order. -/
theorem knows_iff_perm {m : Membership} : s.Knows m ↔ s.mboxes.keys.Perm m.names :=
  (List.perm_ext_iff_of_nodup (AList.keys_nodup _) m.nodup).symm

instance (m : Membership) (s : Server) : Decidable (s.Knows m) :=
  decidable_of_iff _ knows_iff_perm.symm

/-- The number of mailboxes of a server that knows the names is the size of the cluster. -/
theorem Knows.size {m : Membership} (h : s.Knows m) : s.mboxes.size = m.names.length :=
  (knows_iff_perm.mp h).length_eq

end Server

/-- The term of the request that an envelope with a vote answers. -/
def Envelope.requestTerm (e : Envelope) : Option ℤ :=
  match e.cause with
  | some (.requestVote request) => some request.term
  | _ => none

namespace Cluster

variable {m : Membership} {c c' : Cluster} {a : Action} {trace : History}

/-- Every server that takes part in an election knows the names of the cluster and no others:
one that knows a name at all, that has asked for votes, been granted one or counted one, and a
leader. -/
structure Complete (m : Membership) (c : Cluster) : Prop where
  names : ∀ name, ∀ peer ∈ (c.servers name).mboxes, (c.servers name).Knows m
  result : ∀ e ∈ c.network, ∀ aer, e.msg = .appendEntryResult aer → aer.followerName ∈ m.names
  request : ∀ e ∈ c.network, ∀ rv, e.msg = .requestVote rv → rv.candidateId ∈ m.names →
    (c.servers rv.candidateId).Knows m
  vote : ∀ e ∈ c.network, ∀ rv name, e.msg = .requestVote rv → rv.voteGranted = true →
    e.dst = .server name → (c.servers name).Knows m
  counted : ∀ name, 0 < (c.servers name).voteCnt → (c.servers name).Knows m
  leader : ∀ name, (c.servers name).role = .leader → (c.servers name).Knows m

/-- As the cluster is constructed no server knows a name. -/
theorem complete_initial : Complete m initial := by
  constructor <;> simp [initial, Server.initial]

/-- A server that counts a granted vote knows the names. -/
theorem Complete.of_counts (h : Complete m c) {name : ByteString} {x : Stimulus}
    {rv : RequestVote} (havailable : c.Available name x)
    (hcounts : (c.servers name).Counts x rv) : (c.servers name).Knows m := by
  obtain ⟨rfl, -, -, hgranted⟩ := hcounts
  obtain ⟨e, he, hdst, hmsg⟩ := havailable _ rfl
  exact h.vote e he rv name hmsg hgranted hdst

/-- A server that knows the names of the cluster knows them after a step. -/
theorem Complete.knows (h : Complete m c) (hc : Coherent m c) (hstep : Step m c a c')
    {name : ByteString} (hname : (c.servers name).Knows m) : (c'.servers name).Knows m := by
  intro peer
  rcases (step_effect hstep).server name with hsame | ⟨x, out, -, havailable, heffect⟩
  · rw [hsame, hname]
  · rw [heffect.mem_mboxes, hname, or_iff_left_iff_imp]
    rintro (⟨sc, rfl, -, hmap⟩ | ⟨aer, rfl, -, rfl⟩)
    · obtain ⟨e, he, -, hmsg⟩ := havailable _ rfl
      rw [hc.whole e he sc hmsg] at hmap
      exact Membership.mem_setCluster_names.mp hmap
    · obtain ⟨e, he, -, hmsg⟩ := havailable _ rfl
      exact h.result e he aer hmsg

/-- A server that knows a name after a step knows all of them. -/
theorem Complete.names_step (h : Complete m c) (hc : Coherent m c) (hstep : Step m c a c')
    {name peer : ByteString} (hpeer : peer ∈ (c'.servers name).mboxes) :
    (c'.servers name).Knows m := by
  rcases (step_effect hstep).server name with hsame | ⟨x, out, -, havailable, heffect⟩
  · exact h.knows hc hstep (h.names name peer (hsame ▸ hpeer))
  · rcases heffect.mem_mboxes.mp hpeer with hold | ⟨sc, rfl, hidle, -⟩ | ⟨-, -, hleader, -⟩
    · exact h.knows hc hstep (h.names name peer hold)
    · obtain ⟨e, he, -, hmsg⟩ := havailable _ rfl
      obtain rfl := hc.whole e he sc hmsg
      have hknown : ∀ other ∈ (c.servers name).mboxes, other ∈ m.names :=
        fun other hold ↦ (h.names name other hold other).mp hold
      intro other
      rw [heffect.mem_mboxes]
      constructor
      · rintro (hold | ⟨sc, hsc, -, hmap⟩ | ⟨_, hsc, -⟩)
        · exact hknown other hold
        · cases hsc
          exact Membership.mem_setCluster_names.mp hmap
        · cases hsc
      · intro hother
        exact Or.inr (Or.inl ⟨_, rfl, hidle, Membership.mem_setCluster_names.mpr hother⟩)
    · exact h.knows hc hstep (h.leader name hleader)

/-- A server that has asked for votes knows the names after a step. -/
theorem Complete.request_step (h : Complete m c) (hc : Coherent m c) (hstep : Step m c a c')
    {e : Envelope} (he : e ∈ c'.network) {rv : RequestVote} (hmsg : e.msg = .requestVote rv)
    (hcandidate : rv.candidateId ∈ m.names) : (c'.servers rv.candidateId).Knows m := by
  rcases (step_effect hstep).network_of_server he hmsg id with
      hold | ⟨name, x, out, -, -, heffect, hsent, -⟩
  · exact h.knows hc hstep (h.request e hold rv hmsg hcandidate)
  · rw [hmsg] at hsent
    rcases heffect.requestVote_sent hsent with ⟨_, -, -, -, -, -, rfl⟩ | ⟨-, ⟨peer, hmbox⟩, rfl⟩
    · exact absurd hcandidate m.nonempty
    · have hself : (c.servers name).voteRequest.candidateId = name := hc.name_eq name
      rw [hself]
      exact h.knows hc hstep (h.names name peer (Mboxes.mem_of_mbox hmbox))

/-- A server that has been granted a vote knows the names after a step. -/
theorem Complete.vote_step (h : Complete m c) (hc : Coherent m c) (hstep : Step m c a c')
    {e : Envelope} (he : e ∈ c'.network) {rv : RequestVote} {name : ByteString}
    (hmsg : e.msg = .requestVote rv) (hgranted : rv.voteGranted = true)
    (hdst : e.dst = .server name) : (c'.servers name).Knows m := by
  rcases (step_effect hstep).network_of_server he hmsg id with
      hold | ⟨voter, x, out, -, havailable, heffect, hsent, -⟩
  · exact h.knows hc hstep (h.vote e hold rv name hmsg hgranted hdst)
  · rw [hmsg] at hsent
    rcases heffect.requestVote_sent hsent with ⟨request, rfl, -, -, -, hmbox, -⟩ | ⟨-, -, rfl⟩
    · obtain ⟨e', he', -, hrequest⟩ := havailable _ rfl
      obtain ⟨hmember, hcandidate⟩ := hc.mailbox voter _ _ hmbox
      obtain rfl : name = request.candidateId := Mbox.server.inj (hdst.symm.trans hcandidate)
      exact h.knows hc hstep (h.request e' he' request hrequest hmember)
    · exact absurd hgranted (by simp [Server.voteRequest, RequestVote.request])

/-- Every step keeps the knowledge of the servers that take part in an election. -/
theorem Complete.step (h : Complete m c) (hc : Coherent m c) (hstep : Step m c a c') :
    Complete m c' where
  names name peer hpeer := h.names_step hc hstep hpeer
  result e he aer hmsg := by
    rcases (step_effect hstep).network_of_server he hmsg id with
        hold | ⟨name, x, out, hx, -, heffect, hsent, -⟩
    · exact h.result e hold aer hmsg
    · rw [hmsg] at hsent
      rw [heffect.result_sent hsent, hc.name_eq]
      exact ((step_effect hstep).of_stimulus hx).1
  request e he rv hmsg hcandidate := h.request_step hc hstep he hmsg hcandidate
  vote e he rv name hmsg hgranted hdst := h.vote_step hc hstep he hmsg hgranted hdst
  counted name hvotes := by
    rcases (step_effect hstep).server name with hsame | ⟨x, out, -, havailable, heffect⟩
    · exact h.knows hc hstep (h.counted name (hsame ▸ hvotes))
    · rcases heffect.voteCnt_cases with hzero | ⟨-, hsame⟩ | ⟨-, rv, hcounts, -⟩
      · omega
      · exact h.knows hc hstep (h.counted name (hsame ▸ hvotes))
      · exact h.knows hc hstep (h.of_counts havailable hcounts)
  leader name hleader := by
    rcases (step_effect hstep).server name with hsame | ⟨x, out, -, havailable, heffect⟩
    · exact h.knows hc hstep (h.leader name (hsame ▸ hleader))
    · rcases heffect.leader_cases hleader with hold | ⟨-, hmany | ⟨rv, hcounts, -⟩⟩
      · exact h.knows hc hstep (h.leader name hold)
      · exact h.knows hc hstep (h.counted name (Nat.zero_lt_of_lt hmany))
      · exact h.knows hc hstep (h.of_counts havailable hcounts)

/-! ### Votes -/

/-- A voter has granted the request of a candidate in a term. -/
def Granted (trace : History) (voter candidate : ByteString) (term : ℤ) : Prop :=
  ∃ t ∈ trace, ∃ rv, observe Server.grant t = some (voter, rv) ∧ rv.candidateId = candidate ∧
    rv.term = term

/-- A candidate has counted a vote of a voter in a term. -/
def Counted (trace : History) (candidate voter : ByteString) (term : ℤ) : Prop :=
  ∃ t ∈ trace, ∃ e, counted t = some (candidate, e) ∧ e.sender = some voter ∧
    (t.source.servers candidate).term = term

/-- More than half of the servers of the cluster have granted the request of a candidate in a
term. -/
def GrantedByMajority (m : Membership) (trace : History) (candidate : ByteString) (term : ℤ) :
    Prop :=
  ∃ voters : Finset ByteString, m.names.length < 2 * voters.card ∧
    ∀ voter ∈ voters, voter ∈ m.names ∧ Granted trace voter candidate term

theorem Granted.mono {voter candidate : ByteString} {term : ℤ}
    (h : Granted trace voter candidate term) (later : History) :
    Granted (trace ++ later) voter candidate term := by
  obtain ⟨t, ht, hgrant⟩ := h
  exact ⟨t, List.mem_append_left _ ht, hgrant⟩

theorem Counted.mono {candidate voter : ByteString} {term : ℤ}
    (h : Counted trace candidate voter term) (later : History) :
    Counted (trace ++ later) candidate voter term := by
  obtain ⟨t, ht, hcount⟩ := h
  exact ⟨t, List.mem_append_left _ ht, hcount⟩

/-- The granted votes in flight answer requests that their senders have granted. -/
def Answered (m : Membership) (trace : History) (c : Cluster) : Prop :=
  ∀ e ∈ c.network, ∀ rv, e.msg = .requestVote rv → rv.voteGranted = true →
    ∃ voter request, e.sender = some voter ∧ voter ∈ m.names ∧
      e.cause = some (.requestVote request) ∧ e.dst = .server request.candidateId ∧
      Granted trace voter request.candidateId request.term

/-- Every step keeps the granted votes in flight answers to granted requests. -/
theorem Answered.step (h : Answered m trace c) (hc : Coherent m c) (hstep : Step m c a c') :
    Answered m (trace ++ [⟨c, a, c'⟩]) c' := by
  intro e he rv hmsg hgranted
  rcases (step_effect hstep).network_of_server he hmsg id with
      hold | ⟨voter, x, out, hx, -, heffect, hsent, hsender, hcause⟩
  · obtain ⟨voter, request, hsender, hvoter, hcause, hdst, hgrant⟩ := h e hold rv hmsg hgranted
    exact ⟨voter, request, hsender, hvoter, hcause, hdst, hgrant.mono _⟩
  · rw [hmsg] at hsent
    rcases heffect.requestVote_sent hsent with ⟨request, rfl, -, -, -, hmbox, rfl⟩ | ⟨-, -, rfl⟩
    · refine ⟨voter, request, hsender, ((step_effect hstep).of_stimulus hx).1, hcause _ rfl,
        (hc.mailbox voter _ _ hmbox).2, ⟨c, a, c'⟩, by simp, request, ?_, rfl, rfl⟩
      exact observe_eq_some hx (heffect.grant_iff_answered.mpr ⟨_, _, hsent, hgranted⟩)
    · exact absurd hgranted (by simp [Server.voteRequest, RequestVote.request])

/-! ### Fresh votes -/

/-- The vote counted in a transition answers a request of the present term, and no vote of its
voter has been counted in this term before. -/
def CountsFreshVote (before : History) (t : Transition Cluster Action) : Prop :=
  ∀ vote ∈ counted t,
    vote.2.requestTerm = some (t.source.servers vote.1).term ∧
    ∀ y ∈ before, ∀ earlier ∈ counted y, earlier.1 = vote.1 →
      (y.source.servers vote.1).term = (t.source.servers vote.1).term →
      earlier.2.sender ≠ vote.2.sender

instance (before : History) (t : Transition Cluster Action) :
    Decidable (CountsFreshVote before t) := by
  unfold CountsFreshVote
  infer_instance

/-- The votes of every server are those of distinct voters, which have granted them in its present
term. -/
def Backed (m : Membership) (trace : History) (c : Cluster) : Prop :=
  ∀ name, ∃ voters : Finset ByteString, (c.servers name).voteCnt ≤ voters.card ∧
    ∀ voter ∈ voters, voter ∈ m.names ∧ Granted trace voter name (c.servers name).term ∧
      Counted trace name voter (c.servers name).term

/-- A server that counts a fresh vote has the votes counted so far and this one from distinct
voters. -/
theorem Backed.count (h : Backed m trace c) (hanswered : Answered m trace c)
    (hstep : Step m c a c') (hfresh : CountsFreshVote trace ⟨c, a, c'⟩) {name : ByteString}
    {x : Stimulus} {rv : RequestVote} (hx : a.stimulus = some (name, x))
    (hcounts : (c.servers name).Counts x rv) :
    ∃ voters : Finset ByteString, (c.servers name).voteCnt + 1 ≤ voters.card ∧
      ∀ voter ∈ voters, voter ∈ m.names ∧ Granted trace voter name (c.servers name).term ∧
        Counted (trace ++ [⟨c, a, c'⟩]) name voter (c.servers name).term := by
  obtain rfl := hcounts.1
  obtain ⟨e, rfl, hrv, he, hdst⟩ := (step_effect hstep).deliver_of_handle hx
  have hcount : counted ⟨c, .deliver name e, c'⟩ = some (name, e) := by
    simp [counted, hrv, Server.count_eq_some_iff.mpr hcounts]
  obtain ⟨hterm, hnew⟩ := hfresh _ hcount
  obtain ⟨voter, request, hsender, hvoter, hcause, hreceiver, hgranted⟩ :=
    hanswered e he rv hrv hcounts.2.2.2
  obtain rfl : name = request.candidateId := Mbox.server.inj (hdst.symm.trans hreceiver)
  have hrequest : request.term = (c.servers request.candidateId).term := by
    simpa [Envelope.requestTerm, hcause] using hterm
  obtain ⟨voters, hcard, hvoters⟩ := h request.candidateId
  have hfirst : voter ∉ voters := by
    intro hmem
    obtain ⟨y, hy, earlier, hearlier, hsame, hyterm⟩ := (hvoters voter hmem).2.2
    exact hnew y hy _ hearlier rfl hyterm (hsame.trans hsender.symm)
  refine ⟨insert voter voters, by rw [Finset.card_insert_of_notMem hfirst]; omega, ?_⟩
  intro other hother
  rcases Finset.mem_insert.mp hother with rfl | hother
  · exact ⟨hvoter, hrequest ▸ hgranted, _, List.mem_append_right _ (List.mem_singleton_self _), e,
      hcount, hsender, rfl⟩
  · obtain ⟨hmember, hgrant, hcounted⟩ := hvoters other hother
    exact ⟨hmember, hgrant, hcounted.mono _⟩

/-- Every step that counts only fresh votes keeps the votes those of distinct voters. -/
theorem Backed.step (h : Backed m trace c) (hanswered : Answered m trace c)
    (hstep : Step m c a c') (hfresh : CountsFreshVote trace ⟨c, a, c'⟩) :
    Backed m (trace ++ [⟨c, a, c'⟩]) c' := by
  intro name
  have hkeep : ∀ {s : Server}, s.term = (c.servers name).term →
      s.voteCnt ≤ (c.servers name).voteCnt → ∃ voters : Finset ByteString,
        s.voteCnt ≤ voters.card ∧ ∀ voter ∈ voters, voter ∈ m.names ∧
          Granted (trace ++ [⟨c, a, c'⟩]) voter name s.term ∧
          Counted (trace ++ [⟨c, a, c'⟩]) name voter s.term := by
    intro s hterm hvotes
    obtain ⟨voters, hcard, hvoters⟩ := h name
    refine ⟨voters, hvotes.trans hcard, fun voter hvoter ↦ ?_⟩
    obtain ⟨hmember, hgrant, hcounted⟩ := hvoters voter hvoter
    rw [hterm]
    exact ⟨hmember, hgrant.mono _, hcounted.mono _⟩
  rcases (step_effect hstep).server name with hsame | ⟨x, out, hx, -, heffect⟩
  · rw [hsame]
    exact hkeep rfl le_rfl
  · rcases heffect.voteCnt_cases with hzero | ⟨hterm, hvotes⟩ | ⟨hterm, rv, hcounts, hvotes⟩
    · exact ⟨∅, by simp [hzero], by simp⟩
    · exact hkeep hterm hvotes.le
    · obtain ⟨voters, hcard, hvoters⟩ := h.count hanswered hstep hfresh hx hcounts
      refine ⟨voters, hvotes.trans_le hcard, fun voter hvoter ↦ ?_⟩
      obtain ⟨hmember, hgrant, hcounted⟩ := hvoters voter hvoter
      rw [hterm]
      exact ⟨hmember, hgrant.mono _, hcounted⟩

/-- What a run keeps when only fresh votes are counted. -/
structure Electing (m : Membership) (trace : History) (c : Cluster) : Prop where
  coherent : Coherent m c
  complete : Complete m c
  answered : Answered m trace c
  backed : Backed m trace c

/-- A run in which only fresh votes are counted keeps the votes those of distinct voters. -/
theorem electing_run (hrun : Run m initial trace c) (hfresh : Along CountsFreshVote trace) :
    Electing m trace c := by
  induction hrun with
  | nil =>
    refine ⟨coherent_initial, complete_initial, fun e he ↦ ?_, fun name ↦ ⟨∅, ?_, ?_⟩⟩ <;>
      simp_all [initial, Server.initial]
  | snoc _ hstep ih =>
    obtain ⟨hrest, hlast⟩ := along_snoc.mp hfresh
    have hprevious := ih hrest
    exact ⟨hprevious.coherent.step hstep, hprevious.complete.step hprevious.coherent hstep,
      hprevious.answered.step hprevious.coherent hstep,
      hprevious.backed.step hprevious.answered hstep hlast⟩

/-- More votes than half of the cluster, rounded up, are a majority. -/
theorem majority_of_ceilHalf_lt {size votes : ℕ} (h : Server.ceilHalf size < votes) :
    size < 2 * votes := by
  unfold Server.ceilHalf at h
  omega

/-- A server that enters the leader state has been granted its office by more voters than half of
the cluster, rounded up. -/
theorem Electing.quorum (h : Electing m trace c) (hstep : Step m c a c')
    (hfresh : CountsFreshVote trace ⟨c, a, c'⟩) {name : ByteString} {term : ℤ}
    (henters : EntersLeader ⟨c, a, c'⟩ name term) :
    ∃ voters : Finset ByteString, Server.ceilHalf m.names.length < voters.card ∧
      ∀ voter ∈ voters, voter ∈ m.names ∧ Granted trace voter name term := by
  obtain ⟨hbefore, hafter, hterm⟩ := henters
  dsimp only at hbefore hafter hterm
  rcases (step_effect hstep).server name with hsame | ⟨x, out, hx, havailable, heffect⟩
  · exact absurd (hsame ▸ hafter) hbefore
  · rcases heffect.leader_cases hafter with hleader | ⟨hkept, hvotes⟩
    · exact absurd hleader hbefore
    · rw [← hterm, hkept]
      rcases hvotes with hmany | ⟨rv, hcounts, hmany⟩
      · rw [(h.complete.counted name (Nat.zero_lt_of_lt hmany)).size] at hmany
        obtain ⟨voters, hcard, hvoters⟩ := h.backed name
        exact ⟨voters, hmany.trans_le hcard,
          fun voter hvoter ↦ (hvoters voter hvoter).imp_right And.left⟩
      · rw [(h.complete.of_counts havailable hcounts).size] at hmany
        obtain ⟨voters, hcard, hvoters⟩ := h.backed.count h.answered hstep hfresh hx hcounts
        exact ⟨voters, hmany.trans_le hcard,
          fun voter hvoter ↦ (hvoters voter hvoter).imp_right And.left⟩

/-- A server that enters the leader state has been granted its office by a majority. -/
theorem Electing.majority (h : Electing m trace c) (hstep : Step m c a c')
    (hfresh : CountsFreshVote trace ⟨c, a, c'⟩) {name : ByteString} {term : ℤ}
    (henters : EntersLeader ⟨c, a, c'⟩ name term) : GrantedByMajority m trace name term := by
  obtain ⟨voters, hmany, hvoters⟩ := h.quorum hstep hfresh henters
  exact ⟨voters, majority_of_ceilHalf_lt hmany, hvoters⟩

/-- In a run in which only fresh votes are counted, every leader has been granted its office by a
majority. -/
theorem grantedByMajority_run (hrun : Run m initial trace c)
    (hfresh : Along CountsFreshVote trace) {before after : History} {t : Transition Cluster Action}
    (htrace : trace = before ++ t :: after) {name : ByteString} {term : ℤ}
    (henters : EntersLeader t name term) : GrantedByMajority m before name term := by
  subst htrace
  obtain ⟨hbefore, hstep, -⟩ := hrun.cut
  exact (electing_run hbefore hfresh.of_append).majority hstep hfresh.at henters

/-- No voter grants two candidates of one term in two transitions. -/
def SameCandidate (y t : Transition Cluster Action) : Prop :=
  ∀ first ∈ observe Server.grant y, ∀ second ∈ observe Server.grant t,
    first.1 = second.1 → first.2.term = second.2.term →
    first.2.candidateId = second.2.candidateId

/-- A voter that grants a request has not granted another candidate in its term. -/
def GrantsOnce (before : History) (t : Transition Cluster Action) : Prop :=
  ∀ y ∈ before, SameCandidate y t

instance (before : History) (t : Transition Cluster Action) : Decidable (GrantsOnce before t) := by
  unfold GrantsOnce SameCandidate
  infer_instance

/-- When voters grant once, the candidate that a voter has granted in a term is unique. -/
theorem Granted.unique (honce : Along GrantsOnce trace) {voter first second : ByteString}
    {term : ℤ} (hfirst : Granted trace voter first term)
    (hsecond : Granted trace voter second term) : first = second := by
  obtain ⟨y, hy, request, hgrant, rfl, rfl⟩ := hfirst
  obtain ⟨z, hz, request', hgrant', rfl, hterm⟩ := hsecond
  have hsame : SameCandidate y z := by
    refine honce.forall_mem ?_ ?_ hy hz
    · intro t first hfirst second hsecond _ _
      rw [Option.mem_unique hfirst hsecond]
    · intro t u h first hfirst second hsecond hvoter hterm
      exact (h second hsecond first hfirst hvoter.symm hterm.symm).symm
  exact hsame _ hgrant _ hgrant' rfl hterm.symm

/-- Two majorities have a server in common. -/
theorem exists_mem_of_majorities {first second : Finset ByteString}
    (hfirst : m.names.length < 2 * first.card) (hsecond : m.names.length < 2 * second.card)
    (hmembers : ∀ name ∈ first, name ∈ m.names) (hmembers' : ∀ name ∈ second, name ∈ m.names) :
    ∃ name, name ∈ first ∧ name ∈ second := by
  have hnames : m.names.toFinset.card = m.names.length := List.toFinset_card_of_nodup m.nodup
  have hsub : first ⊆ m.names.toFinset := fun name hname ↦ List.mem_toFinset.mpr (hmembers _ hname)
  have hsub' : second ⊆ m.names.toFinset :=
    fun name hname ↦ List.mem_toFinset.mpr (hmembers' _ hname)
  obtain ⟨name, hname⟩ := Finset.inter_nonempty_of_card_lt_card_add_card hsub hsub' (by omega)
  exact ⟨name, Finset.mem_inter.mp hname⟩

/-- Two candidates with a majority have a voter in common. -/
theorem GrantedByMajority.inter {first second : ByteString} {term : ℤ} {trace' : History}
    (hfirst : GrantedByMajority m trace first term)
    (hsecond : GrantedByMajority m trace' second term) :
    ∃ voter, Granted trace voter first term ∧ Granted trace' voter second term := by
  obtain ⟨voters, hcard, hvoters⟩ := hfirst
  obtain ⟨voters', hcard', hvoters'⟩ := hsecond
  obtain ⟨voter, hvoter, hvoter'⟩ := exists_mem_of_majorities hcard hcard'
    (fun voter h ↦ (hvoters voter h).1) (fun voter h ↦ (hvoters' voter h).1)
  exact ⟨voter, (hvoters voter hvoter).2, (hvoters' voter hvoter').2⟩

end Cluster

/-! ### Every leader has a majority -/

/-- In every run in which only fresh votes are counted, a server that enters the leader state in a
term has been granted its request of this term by more than half of the servers. -/
theorem leader_has_majority {m : Membership} {trace : Cluster.History} {c : Cluster}
    (hrun : Cluster.Run m .initial trace c) (hfresh : Along Cluster.CountsFreshVote trace) :
    Along (fun before t ↦ ∀ name term, Cluster.EntersLeader t name term →
      Cluster.GrantedByMajority m before name term) trace :=
  fun _ _ _ htrace _ _ henters ↦ Cluster.grantedByMajority_run hrun hfresh htrace henters

/-- The first server enters the leader state after a majority has granted its request. -/
theorem leader_has_majority_firstElection :
    let trace := history (Cluster.next Schedule.trio) .initial
      (Schedule.form Schedule.trio ++ Schedule.firstElection)
    Cluster.EntersLeader (trace.get ⟨19, by decide⟩) (bytes "server1") 1 ∧
      Cluster.GrantedByMajority Schedule.trio (trace.take 19) (bytes "server1") 1 := by
  intro trace
  have henters : Cluster.EntersLeader (trace.get ⟨19, by decide⟩) (bytes "server1") 1 := by decide
  have hrun : Cluster.Run Schedule.trio .initial trace _ := run_of_isOk (by decide)
  have hmajority := along_iff_forall_fin.mp (leader_has_majority hrun (by decide))
  exact ⟨henters, hmajority ⟨19, by decide⟩ _ _ henters⟩

/-- A candidate asks three times and counts its own vote three times. -/
def Schedule.repeatedVotes : List Action :=
  let rv : RequestVote := .request 1 (bytes "server1") 0 0
  form trio ++ candidacy (bytes "server1") ++
    (List.replicate 3 (requestVotes (bytes "server1") 0 trio.names)).flatten ++
    (List.replicate 3 (vote (bytes "server1") 1 rv)).flatten

/-- A candidate becomes leader of three servers with its own vote alone. -/
theorem not_majority_repeatedVotes :
    ¬ ∀ (m : Membership) (trace : Cluster.History) (c : Cluster),
      Cluster.Run m .initial trace c →
        Along (fun before t ↦ ∀ name term, Cluster.EntersLeader t name term →
          Cluster.GrantedByMajority m before name term) trace := by
  intro hclaim
  have hrun : (execute (Cluster.next Schedule.trio) .initial
    Schedule.repeatedVotes).isOk := by decide
  have halong := hclaim Schedule.trio _ _ (run_of_isOk hrun)
  have hlast := along_iff_forall_fin.mp halong ⟨29, by decide⟩
  obtain ⟨voters, hcard, hvoters⟩ := hlast (bytes "server1") 1 (by decide)
  have hself : ∀ t ∈ (history (Cluster.next Schedule.trio) .initial
      Schedule.repeatedVotes).take 29, ∀ grant ∈ Cluster.observe Server.grant t,
      grant.1 = bytes "server1" := by decide
  have hsub : voters ⊆ {bytes "server1"} := by
    intro voter hvoter
    obtain ⟨t, ht, rv, hgrant, -, -⟩ := (hvoters voter hvoter).2
    exact Finset.mem_singleton.mpr (hself t ht _ hgrant)
  have hone := Finset.card_le_card hsub
  simp only [Schedule.trio, List.length_cons, List.length_nil] at hcard
  rw [Finset.card_singleton] at hone
  omega

/-! ### One leader a term -/

/-- In every run in which only fresh votes are counted and no voter grants two candidates of one
term, no two servers enter the leader state in the same term. -/
theorem election_safety {m : Membership} {trace : Cluster.History} {c : Cluster}
    (hrun : Cluster.Run m .initial trace c) (hfresh : Along Cluster.CountsFreshVote trace)
    (honce : Along Cluster.GrantsOnce trace) {t u : Transition Cluster Action} (ht : t ∈ trace)
    (hu : u ∈ trace) {first second : ByteString} {term : ℤ}
    (hfirst : Cluster.EntersLeader t first term) (hsecond : Cluster.EntersLeader u second term) :
    first = second := by
  obtain ⟨before, after, htrace⟩ := List.append_of_mem ht
  obtain ⟨before', after', htrace'⟩ := List.append_of_mem hu
  obtain ⟨voter, hgrant, hgrant'⟩ :=
    (Cluster.grantedByMajority_run hrun hfresh htrace hfirst).inter
      (Cluster.grantedByMajority_run hrun hfresh htrace' hsecond)
  have hmono : Cluster.Granted trace voter first term := htrace ▸ hgrant.mono _
  have hmono' : Cluster.Granted trace voter second term := htrace' ▸ hgrant'.mono _
  exact hmono.unique honce hmono'

/-- The first server is the only one that can enter the leader state in the term it is elected
in. -/
theorem election_safety_firstElection :
    let trace := history (Cluster.next Schedule.trio) .initial
        (Schedule.form Schedule.trio ++ Schedule.firstElection)
    ∃ t ∈ trace, Cluster.EntersLeader t (bytes "server1") 1 ∧
      ∀ u ∈ trace, ∀ name, Cluster.EntersLeader u name 1 → bytes "server1" = name := by
  intro trace
  have hleader : ∃ t ∈ trace, Cluster.EntersLeader t (bytes "server1") 1 := by decide
  obtain ⟨t, ht, henters⟩ := hleader
  exact ⟨t, ht, henters, fun u hu name hname ↦
    election_safety (run_of_isOk (by decide)) (by decide) (by decide) ht hu henters hname⟩

/-- Two servers become candidates in term `1`, all three grant both of them, and each counts three
votes. -/
def Schedule.doubleVotes : List Action :=
  let rv : RequestVote := .request 1 (bytes "server1") 0 0
  let rv' : RequestVote := .request 1 (bytes "server2") 0 0
  candidacy (bytes "server1") ++ requestVotes (bytes "server1") 0 trio.names ++
    candidacy (bytes "server2") ++ requestVotes (bytes "server2") 0 trio.names ++
    vote (bytes "server1") 1 rv' ++ vote (bytes "server2") 1 rv ++ vote (bytes "server1") 1 rv ++
    vote (bytes "server2") 1 rv' ++ vote (bytes "server3") 0 rv ++ vote (bytes "server3") 0 rv'

/-- Two of three servers that all know the cluster become leader in the same term, each with a
vote of every server. -/
theorem not_election_safety_doubleVotes :
    ¬ ∀ (m : Membership) (before trace : Cluster.History) (formed c : Cluster),
      Cluster.Run m .initial before formed → (∀ name ∈ m.names, (formed.servers name).Knows m) →
        Cluster.Run m formed trace c → ∀ t ∈ trace, ∀ u ∈ trace, ∀ first second term,
          Cluster.EntersLeader t first term → Cluster.EntersLeader u second term →
            first = second := by
  intro hclaim
  let formed := finalState (Cluster.next Schedule.trio) .initial (Schedule.form Schedule.trio)
  let trace := history (Cluster.next Schedule.trio) formed Schedule.doubleVotes
  have hform : (execute (Cluster.next Schedule.trio) .initial
    (Schedule.form Schedule.trio)).isOk := by decide
  have hrun : (execute (Cluster.next Schedule.trio) formed Schedule.doubleVotes).isOk := by decide
  have hknows : ∀ name ∈ Schedule.trio.names, (formed.servers name).Knows Schedule.trio := by
    decide
  have hfirst : ∃ t ∈ trace, Cluster.EntersLeader t (bytes "server1") 1 := by decide
  have hsecond : ∃ t ∈ trace, Cluster.EntersLeader t (bytes "server2") 1 := by decide
  obtain ⟨t, ht, hfirst⟩ := hfirst
  obtain ⟨u, hu, hsecond⟩ := hsecond
  exact absurd (hclaim _ _ _ _ _ (run_of_isOk hform) hknows (run_of_isOk hrun) t ht u hu _ _ _
    hfirst hsecond) (by decide)

end RaftConsensus
