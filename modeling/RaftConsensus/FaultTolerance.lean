import RaftConsensus.Elections
import RaftConsensus.SelfElection

/-!
# How many servers must be up

A server that has crashed takes no step. When only fresh votes are counted, a candidate needs the
votes of more than half of the cluster, rounded up, and so as many servers that are up
(`Electing.quorum`). These are enough: they learn the map, one of them becomes a candidate and asks
them one after the other (`Canvassing`). So a cluster can elect a leader exactly when more than half
of it, rounded up, is up (`elects_iff`): an odd cluster tolerates one crash less than a majority
would allow.

The code counts votes that are not fresh, and a server that is alone then elects itself
(`all_lead_in_every_term`).
-/

set_option autoImplicit false
set_option relaxedAutoImplicit false

namespace RaftConsensus

open TransitionSystem

namespace Server

variable {s : Server} {candidate : ByteString} {rv : RequestVote} {i votes : ℕ}
  {remaining : List ByteString}

/-- A server with an idle agent that takes part in elections, knows the mailbox of a candidate and
has not reached a later term, with too few votes to be elected itself. -/
structure Willing (candidate : ByteString) (s : Server) : Prop where
  idle : s.agent = .idle
  role : s.role = .candidate ∨ s.role = .follower
  term : s.term ≤ 1
  mailbox : (s.mboxes.get candidate).mbox = some (.server candidate)
  votes : s.voteCnt ≤ ceilHalf s.mboxes.size

/-- Such a server grants the request of the candidate, and stays as it is. -/
theorem Willing.act_request (h : s.Willing candidate) (hcandidate : rv.candidateId = candidate)
    (hterm : rv.term = 1) (hrequest : rv.voteGranted = false) :
    s.act (.handle (.requestVote rv)) =
      .ok (s, [(.server candidate, .requestVote (.answer s.term true))]) := by
  have hgranted : s.term ≤ rv.term := hterm ▸ h.term
  have hhandle : s.requestVoteHandler rv =
      .ok (s, [(.server candidate, .requestVote (.answer s.term true))]) := by
    simp [requestVoteHandler, hrequest, hcandidate, h.mailbox, hgranted, tally_of_le h.votes, send,
      bind, Except.bind, pure, Except.pure]
  rcases h.role with hrole | hrole <;> simp [act, h.idle, handle, hrole, hhandle]

/-- A candidate counts a vote. -/
theorem Campaigning.act_vote (h : s.Campaigning candidate) (hgranted : rv.voteGranted = true) :
    s.act (.handle (.requestVote rv)) = .ok ({ s with voteCnt := s.voteCnt + 1 }.tally, []) := by
  simp [act, handle, h.idle, h.role, requestVoteHandler, hgranted]

/-- A pass of a candidate asks a peer that it still has to reach. -/
theorem Campaigning.act_ask (h : s.Campaigning candidate)
    (hi : s.requestVoteThreads[i]? = some (.sending remaining)) {voter : ByteString}
    (hvoter : voter ∈ remaining) (hpeer : voter ∈ s.mboxes.keys) :
    s.act (.requestVoteSend i voter) = .ok (s.polled i (.sending (remaining.erase voter)) s.voteCnt,
      [(.server voter, .requestVote s.voteRequest)]) := by
  simp [act, requestVoteSend, hi, hvoter, h.mailbox voter hpeer, send, bind, Except.bind, pure,
    Except.pure, Server.polled]

end Server

namespace Cluster

variable {m : Membership} {up : Finset ByteString} {done : List ByteString} {c c' : Cluster}
  {a : Action} {name candidate voter : ByteString} {x : Stimulus} {s : Server} {out : List Output}
  {e : Envelope} {msg : Msg} {votes : ℕ}

/-- The server that takes a step in a transition is one of a set. -/
def ActsAmong (up : Finset ByteString) (t : Transition Cluster Action) : Prop :=
  ∀ name x, t.action.stimulus = some (name, x) → name ∈ up

/-- The cluster can be reached when the servers of a set are up and only fresh votes are counted,
with votes of some voters. -/
def Reaches (m : Membership) (up : Finset ByteString) (done : List ByteString) (c : Cluster) :
    Prop :=
  ∃ trace, Run m initial trace c ∧ Along CountsFreshVote trace ∧
    (∀ t ∈ trace, ActsAmong up t) ∧
    ∀ t ∈ trace, ∀ vote ∈ counted t, ∃ voter ∈ done, vote.2.sender = some voter

/-- The cluster is reached with the votes of no one. -/
theorem reaches_initial : Reaches m up [] initial := ⟨[], .nil, Along.nil, by simp, by simp⟩

/-- A step of a server that is up, in which no vote is counted, goes on. -/
theorem Reaches.snoc (h : Reaches m up done c) (hstep : Step m c a c')
    (hacts : ActsAmong up ⟨c, a, c'⟩) (hnone : counted ⟨c, a, c'⟩ = none) :
    Reaches m up done c' := by
  obtain ⟨trace, hrun, hfresh, hup, hvotes⟩ := h
  refine ⟨_, hrun.snoc hstep, along_snoc.mpr ⟨hfresh, ?_⟩, ?_, ?_⟩
  · intro vote hvote
    rw [hnone] at hvote
    cases hvote
  · exact List.forall_mem_append.mpr ⟨hup, by simpa using hacts⟩
  · exact List.forall_mem_append.mpr ⟨hvotes, by simp [hnone]⟩

/-- A candidate of the first term has asked some voters in its first pass and has a number of votes;
the other servers that are up know the map and have done nothing else. -/
structure Canvassing (m : Membership) (up : Finset ByteString) (candidate : ByteString)
    (asked : List ByteString) (votes : ℕ) (c : Cluster) : Prop where
  campaigning : (c.servers candidate).Campaigning candidate
  knows : (c.servers candidate).Knows m
  term : (c.servers candidate).term = 1
  votes_eq : (c.servers candidate).voteCnt = votes
  loop : ∃ remaining, (c.servers candidate).requestVoteThreads[0]? = some (.sending remaining) ∧
    ∀ voter ∈ up, voter ∉ asked → voter ∈ remaining
  others : ∀ voter ∈ up, voter ≠ candidate →
    c.servers voter = (Server.initial voter).setClusterHandler m.setCluster

/-- A canvass depends on the servers only. -/
theorem Canvassing.of_servers (h : Canvassing m up candidate done votes c)
    (hsame : c'.servers = c.servers) : Canvassing m up candidate done votes c' := by
  obtain ⟨servers, network⟩ := c'
  obtain rfl := hsame
  exact ⟨h.campaigning, h.knows, h.term, h.votes_eq, h.loop, h.others⟩

/-- The canvass goes on when the candidate has asked a voter. -/
theorem Canvassing.asked (h : Canvassing m up candidate done votes c) {remaining : List ByteString}
    (hi : (c.servers candidate).requestVoteThreads[0]? = some (.sending remaining))
    (hremaining : ∀ voter ∈ up, voter ∉ done → voter ∈ remaining)
    (hservers : c'.servers = Function.update c.servers candidate
      ((c.servers candidate).polled 0 (.sending (remaining.erase voter))
        (c.servers candidate).voteCnt)) :
    Canvassing m up candidate (voter :: done) votes c' := by
  have hself : c'.servers candidate = (c.servers candidate).polled 0
      (.sending (remaining.erase voter)) (c.servers candidate).voteCnt := by
    rw [hservers, Function.update_self]
  constructor
  · rw [hself]
    exact h.campaigning.polled 0 _ _
  · rw [hself]
    exact h.knows
  · rw [hself]
    exact h.term
  · rw [hself]
    exact h.votes_eq
  · rw [hself]
    refine ⟨remaining.erase voter,
      List.getElem?_set_self (List.getElem?_eq_some_iff.mp hi).1, fun other hother hnew ↦ ?_⟩
    obtain ⟨hne, hnew⟩ := not_or.mp (mt List.mem_cons.mpr hnew)
    exact (List.mem_erase_of_ne hne).mpr (hremaining other hother hnew)
  · intro other hother hne
    rw [hservers, Function.update_of_ne hne]
    exact h.others other hother hne

/-- The canvass goes on when the candidate has counted a vote that leaves it below the threshold. -/
theorem Canvassing.counts (h : Canvassing m up candidate done votes c)
    (hservers : c'.servers = Function.update c.servers candidate
      { c.servers candidate with voteCnt := (c.servers candidate).voteCnt + 1 }) :
    Canvassing m up candidate done (votes + 1) c' := by
  have hself : c'.servers candidate =
      { c.servers candidate with voteCnt := (c.servers candidate).voteCnt + 1 } := by
    rw [hservers, Function.update_self]
  obtain ⟨hname, hidle, hrole, hflag, hmember, hmailbox⟩ := h.campaigning
  constructor
  · rw [hself]
    exact ⟨hname, hidle, hrole, hflag, hmember, hmailbox⟩
  · rw [hself]
    exact h.knows
  · rw [hself]
    exact h.term
  · rw [hself]
    exact congrArg (· + 1) h.votes_eq
  · rw [hself]
    exact h.loop
  · intro other hother hne
    rw [hservers, Function.update_of_ne hne]
    exact h.others other hother hne

/-- The servers that are up are willing to vote for the candidate. -/
theorem Canvassing.willing (h : Canvassing m up candidate done votes c)
    (hfew : votes ≤ Server.ceilHalf m.names.length) (hvoter : voter ∈ up) :
    (c.servers voter).Willing candidate := by
  have hcandidate := h.campaigning.self
  by_cases hself : voter = candidate
  · subst hself
    refine ⟨h.campaigning.idle, Or.inl h.campaigning.role, h.term.le,
      h.campaigning.mailbox voter hcandidate, ?_⟩
    rw [h.votes_eq, h.knows.size]
    exact hfew
  · rw [h.others voter hvoter hself]
    exact ⟨rfl, Or.inr rfl, zero_le_one,
      Server.stocked_setClusterHandler m candidate ((h.knows candidate).mp hcandidate),
      Nat.zero_le _⟩

/-- A vote of a voter that has not voted is fresh. -/
theorem Canvassing.fresh (h : Canvassing m up candidate done votes c) {trace : History}
    {voters : List ByteString}
    (hvotes : ∀ t ∈ trace, ∀ vote ∈ counted t, ∃ other ∈ voters, vote.2.sender = some other)
    (hsender : e.sender = some voter) (hterm : e.requestTerm = some 1) (hnew : voter ∉ voters) :
    CountsFreshVote trace ⟨c, .deliver candidate e, c'⟩ := by
  intro vote hvote
  obtain ⟨rv, -, rfl⟩ := Option.map_eq_some_iff.mp hvote
  refine ⟨hterm.trans (congrArg some h.term.symm), fun t ht earlier hearlier _ _ hsame ↦ ?_⟩
  obtain ⟨other, hother, hsender'⟩ := hvotes t ht earlier hearlier
  have hvoter : other = voter := Option.some.inj (hsender'.symm.trans (hsame.trans hsender))
  exact hnew (hvoter ▸ hother)

variable (hup : ∀ name ∈ up, name ∈ m.names)
include hup

/-- A server that is up takes a step by itself. -/
theorem Reaches.internal (h : Reaches m up done c) (hname : name ∈ up)
    (hact : (c.servers name).act x = .ok (s, out)) (hx : x.IsInternal) :
    ∃ c', Reaches m up done c' ∧ c'.servers = Function.update c.servers name s ∧
      ∀ o ∈ out, ⟨some name, none, o.1, o.2⟩ ∈ c'.network := by
  refine ⟨_, h.snoc (step_internal (hup name hname) hx hact) ?_ rfl, rfl, fun o ho ↦ ?_⟩
  · rintro actor y hy
    obtain ⟨rfl, -⟩ := Prod.mk.inj (Option.some.inj hy)
    exact hname
  · exact List.mem_append_right _ (List.mem_map_of_mem ho)

/-- A message that is no vote is delivered to a server that is up. -/
theorem Reaches.deliver (h : Reaches m up done c) (hname : name ∈ up) (he : e ∈ c.network)
    (hdst : e.dst = .server name) (hact : (c.servers name).act (.handle e.msg) = .ok (s, out))
    (hvote : (c.servers name).count (.handle e.msg) = none) :
    ∃ c', Reaches m up done c' ∧ c'.servers = Function.update c.servers name s ∧
      ∀ o ∈ out, ⟨some name, some e.msg, o.1, o.2⟩ ∈ c'.network := by
  refine ⟨_, h.snoc (step_deliver (hup name hname) he hdst hact) ?_ ?_, rfl, fun o ho ↦ ?_⟩
  · rintro actor y hy
    obtain ⟨rfl, -⟩ := Prod.mk.inj (Option.some.inj hy)
    exact hname
  · simp [counted, hvote]
  · exact List.mem_append_right _ (List.mem_map_of_mem ho)

/-- `main` sends a message to a server that is up, which handles it. -/
theorem Reaches.tell (h : Reaches m up done c) (hname : name ∈ up)
    (hact : (c.servers name).act (.handle msg) = .ok (s, out)) (hpostable : m.Postable msg) :
    ∃ c', Reaches m up done c' ∧ c'.servers = Function.update c.servers name s := by
  let e : Envelope := ⟨none, none, .server name, msg⟩
  have hposted : Reaches m up done { c with network := c.network ++ [e] } :=
    h.snoc (step_post (hup name hname) hpostable) (fun _ _ hx ↦ by cases hx) rfl
  have hvote : (c.servers name).count (.handle msg) = none := by
    cases msg <;> first | rfl | exact hpostable.elim
  obtain ⟨c', hc', hservers, -⟩ := hposted.deliver hup hname
    (List.mem_append_right _ (List.mem_singleton_self e)) rfl hact hvote
  exact ⟨c', hc', hservers⟩

/-- The servers that are up learn the map. -/
theorem reaches_told : ∃ c, Reaches m up [] c ∧
    ∀ name ∈ up, c.servers name = (Server.initial name).setClusterHandler m.setCluster := by
  have hsome (told : Finset ByteString) (htold : told ⊆ up) : ∃ c, Reaches m up [] c ∧
      (∀ name ∈ told, c.servers name = (Server.initial name).setClusterHandler m.setCluster) ∧
        ∀ name ∉ told, c.servers name = .initial name := by
    induction told using Finset.induction with
    | empty => exact ⟨initial, reaches_initial, by simp, fun _ _ ↦ rfl⟩
    | insert name told hfresh ih =>
      obtain ⟨hname, hsub⟩ := Finset.insert_subset_iff.mp htold
      obtain ⟨c, hc, hmap, hrest⟩ := ih hsub
      have hact : (c.servers name).act (.handle (.setCluster m.setCluster)) =
          .ok ((Server.initial name).setClusterHandler m.setCluster, []) := by
        simp [hrest name hfresh, Server.act, Server.handle, Server.initial]
      obtain ⟨c', hc', hservers⟩ := hc.tell hup hname hact rfl
      refine ⟨c', hc', fun other hother ↦ ?_, fun other hother ↦ ?_⟩
      · rw [hservers]
        by_cases hsame : other = name
        · rw [hsame, Function.update_self]
        · rw [Function.update_of_ne hsame]
          exact hmap other ((Finset.mem_insert.mp hother).resolve_left hsame)
      · obtain ⟨hne, hother⟩ := not_or.mp (mt Finset.mem_insert.mpr hother)
        rw [hservers, Function.update_of_ne hne]
        exact hrest other hother
  obtain ⟨c, hc, hmap, -⟩ := hsome up (Finset.Subset.refl _)
  exact ⟨c, hc, hmap⟩

/-! ### The canvass -/

/-- A server that is up becomes a candidate and begins its first pass. -/
theorem exists_canvassing (hcandidate : candidate ∈ up) :
    ∃ c, Reaches m up [] c ∧ Canvassing m up candidate [] 0 c := by
  obtain ⟨c, hc, htold⟩ := reaches_told hup
  let s₁ := (Server.initial candidate).setClusterHandler m.setCluster
  have hpoised : s₁.changeStateHandler.Poised candidate :=
    Server.poised_told (hup candidate hcandidate)
  let s₂ := s₁.changeStateHandler.activateCandidate
  have hcampaigning : s₂.Campaigning candidate :=
    (hpoised.attains_candidate (hup candidate hcandidate)).2
  have htimer : (c.servers candidate).act (.handle .changeState) =
      .ok (s₁.changeStateHandler, []) := by
    simp [htold candidate hcandidate, Server.act, Server.handle, s₁, Server.setClusterHandler,
      Server.initial]
  obtain ⟨c₁, hc₁, hservers⟩ := hc.tell hup hcandidate htimer trivial
  have hs₁ : c₁.servers candidate = s₁.changeStateHandler := by rw [hservers, Function.update_self]
  have hlimit : (c₁.servers candidate).act .timeLimit = .ok (s₂, []) := by
    simp [hs₁, Server.act, Server.timeLimit, hpoised.idle, hpoised.role, hpoised.limit, s₂]
  obtain ⟨c₂, hc₂, hservers₂, -⟩ := hc₁.internal hup hcandidate hlimit trivial
  have hs₂ : c₂.servers candidate = s₂ := by rw [hservers₂, Function.update_self]
  have hi : s₂.requestVoteThreads[0]? = some .test := rfl
  have hpass : (c₂.servers candidate).act (.requestVoteStep 0) =
      .ok (s₂.polled 0 (.sending s₂.mboxes.keys) s₂.voteCnt, []) := by
    simp [hs₂, Server.act, Server.requestVoteStep, hi, hcampaigning.flag, Server.polled]
  obtain ⟨c₃, hc₃, hservers₃, -⟩ := hc₂.internal hup hcandidate hpass trivial
  have hs₃ : c₃.servers candidate = s₂.polled 0 (.sending s₂.mboxes.keys) s₂.voteCnt := by
    rw [hservers₃, Function.update_self]
  have hknows : s₂.Knows m := Server.knows_told m candidate
  refine ⟨c₃, hc₃, ?_⟩
  constructor
  · rw [hs₃]
    exact hcampaigning.polled 0 _ _
  · rw [hs₃]
    exact hknows
  · rw [hs₃]
    rfl
  · rw [hs₃]
    rfl
  · rw [hs₃]
    exact ⟨s₂.mboxes.keys, rfl, fun voter hvoter _ ↦ (hknows voter).mpr (hup voter hvoter)⟩
  · intro voter hvoter hother
    rw [hservers₃, Function.update_of_ne hother, hservers₂, Function.update_of_ne hother, hservers,
      Function.update_of_ne hother]
    exact htold voter hvoter

/-- The candidate asks a voter that is up, which grants its request. -/
theorem Canvassing.ask (h : Canvassing m up candidate done votes c) {voters : List ByteString}
    (hreaches : Reaches m up voters c) (hfew : votes ≤ Server.ceilHalf m.names.length)
    (hcandidate : candidate ∈ up) (hvoter : voter ∈ up) (hnew : voter ∉ done) :
    ∃ c' e term, Reaches m up voters c' ∧ Canvassing m up candidate (voter :: done) votes c' ∧
      e ∈ c'.network ∧ e.dst = .server candidate ∧ e.sender = some voter ∧
      e.requestTerm = some 1 ∧ e.msg = .requestVote (.answer term true) := by
  obtain ⟨remaining, hi, hremaining⟩ := h.loop
  let rv := (c.servers candidate).voteRequest
  have hself : rv.candidateId = candidate := h.campaigning.name_eq
  have hpeer : voter ∈ (c.servers candidate).mboxes.keys := (h.knows voter).mpr (hup voter hvoter)
  obtain ⟨c₁, hc₁, hservers₁, hsent₁⟩ := hreaches.internal hup hcandidate
    (h.campaigning.act_ask hi (hremaining voter hvoter hnew) hpeer) trivial
  have hasked : Canvassing m up candidate (voter :: done) votes c₁ :=
    h.asked hi hremaining hservers₁
  have hgrant : (c₁.servers voter).act (.handle (.requestVote rv)) = _ :=
    (hasked.willing hfew hvoter).act_request hself h.term rfl
  have hnone : (c₁.servers voter).count (.handle (.requestVote rv)) = none :=
    if_neg fun hvote ↦ Bool.false_ne_true hvote.2.2
  obtain ⟨c₂, hc₂, hservers₂, hsent₂⟩ := hc₁.deliver hup hvoter
    (hsent₁ _ (List.mem_singleton_self _)) rfl hgrant hnone
  rw [Function.update_eq_self] at hservers₂
  refine ⟨c₂, _, (c₁.servers voter).term, hc₂, ?_, hsent₂ _ (List.mem_singleton_self _), rfl, rfl,
    congrArg some h.term, rfl⟩
  exact hasked.of_servers hservers₂

/-- The candidate counts the vote of a voter that has not voted yet. -/
theorem Canvassing.vote (h : Canvassing m up candidate done votes c) {voters : List ByteString}
    (hreaches : Reaches m up voters c) (hcandidate : candidate ∈ up) (he : e ∈ c.network)
    (hdst : e.dst = .server candidate) (hsender : e.sender = some voter)
    (hterm : e.requestTerm = some 1) (hnew : voter ∉ voters)
    (hact : (c.servers candidate).act (.handle e.msg) = .ok (s, [])) :
    ∃ c' trace, c'.servers = Function.update c.servers candidate s ∧
      Run m initial (trace ++ [⟨c, .deliver candidate e, c'⟩]) c' ∧
      Along CountsFreshVote (trace ++ [⟨c, .deliver candidate e, c'⟩]) ∧
      (∀ t ∈ trace ++ [⟨c, .deliver candidate e, c'⟩], ActsAmong up t) ∧
      ∀ t ∈ trace ++ [⟨c, .deliver candidate e, c'⟩], ∀ vote ∈ counted t,
        ∃ other ∈ voter :: voters, vote.2.sender = some other := by
  obtain ⟨trace, hrun, hfresh, hacts, hvotes⟩ := hreaches
  refine ⟨_, trace, rfl, hrun.snoc (step_deliver (hup candidate hcandidate) he hdst hact),
    along_snoc.mpr ⟨hfresh, h.fresh hvotes hsender hterm hnew⟩, ?_, ?_⟩
  · refine List.forall_mem_append.mpr ⟨hacts, List.forall_mem_singleton.mpr ?_⟩
    rintro actor y hy
    obtain ⟨rfl, -⟩ := Prod.mk.inj (Option.some.inj hy)
    exact hcandidate
  · refine List.forall_mem_append.mpr ⟨fun t ht vote hvote ↦ ?_,
      List.forall_mem_singleton.mpr fun vote hvote ↦ ?_⟩
    · obtain ⟨other, hother, hsame⟩ := hvotes t ht vote hvote
      exact ⟨other, List.mem_cons_of_mem _ hother, hsame⟩
    · obtain ⟨rv, -, rfl⟩ := Option.map_eq_some_iff.mp hvote
      exact ⟨voter, List.mem_cons_self, hsender⟩

/-- Voters that are up, no more than the threshold, have voted for the candidate. -/
theorem exists_votes (hcandidate : candidate ∈ up) (voters : List ByteString)
    (hnodup : voters.Nodup) (hvoters : ∀ voter ∈ voters, voter ∈ up)
    (hfew : voters.length ≤ Server.ceilHalf m.names.length) :
    ∃ c, Reaches m up voters c ∧ Canvassing m up candidate voters voters.length c := by
  induction voters with
  | nil => exact exists_canvassing hup hcandidate
  | cons voter voters ih =>
    obtain ⟨hnew, hrest⟩ := List.nodup_cons.mp hnodup
    obtain ⟨hvoter, hothers⟩ := List.forall_mem_cons.mp hvoters
    rw [List.length_cons] at hfew
    obtain ⟨c, hreaches, hcanvassing⟩ := ih hrest hothers (by omega)
    obtain ⟨c₁, e, term, hc₁, hasked, he, hdst, hsender, hterm, hmsg⟩ :=
      hcanvassing.ask hup hreaches (by omega) hcandidate hvoter hnew
    let s : Server :=
      { c₁.servers candidate with voteCnt := (c₁.servers candidate).voteCnt + 1 }
    have hbelow : s.voteCnt ≤ Server.ceilHalf s.mboxes.size := by
      show (c₁.servers candidate).voteCnt + 1 ≤ _
      rw [hasked.votes_eq, hasked.knows.size]
      exact hfew
    have hact : (c₁.servers candidate).act (.handle e.msg) = .ok (s, []) := by
      rw [hmsg, hasked.campaigning.act_vote rfl, Server.tally_of_le hbelow]
    obtain ⟨c', trace, hservers, hreaches'⟩ :=
      hasked.vote hup hc₁ hcandidate he hdst hsender hterm hnew hact
    exact ⟨c', ⟨_, hreaches'⟩, hasked.counts hservers⟩

/-- More servers than the threshold elect one of them. -/
theorem exists_leader (hmany : Server.ceilHalf m.names.length < up.card) :
    ∃ trace c, Run m initial trace c ∧ Along CountsFreshVote trace ∧
      (∀ t ∈ trace, ActsAmong up t) ∧ ∃ t ∈ trace, ∃ name term, EntersLeader t name term := by
  obtain ⟨candidate, hcandidate⟩ := Finset.card_pos.mp (Nat.zero_lt_of_lt hmany)
  let voters := up.toList.take (Server.ceilHalf m.names.length)
  have hlength : voters.length = Server.ceilHalf m.names.length := by
    rw [List.length_take, Finset.length_toList, min_eq_left hmany.le]
  have hvoters : ∀ voter ∈ voters, voter ∈ up :=
    fun voter hvoter ↦ Finset.mem_toList.mp (List.mem_of_mem_take hvoter)
  obtain ⟨c, hreaches, hcanvassing⟩ := exists_votes hup hcandidate voters
    ((Finset.nodup_toList up).sublist (List.take_sublist _ _)) hvoters hlength.le
  have hremaining : ∃ voter ∈ up, voter ∉ voters := by
    by_contra! hall
    have hcard := Finset.card_le_card fun voter hvoter ↦ List.mem_toFinset.mpr (hall voter hvoter)
    have hle := hcard.trans (List.toFinset_card_le voters)
    omega
  obtain ⟨voter, hvoter, hnew⟩ := hremaining
  obtain ⟨c₁, e, term, hc₁, hasked, he, hdst, hsender, hterm, hmsg⟩ :=
    hcanvassing.ask hup hreaches hlength.le hcandidate hvoter hnew
  let s : Server :=
    { c₁.servers candidate with voteCnt := (c₁.servers candidate).voteCnt + 1 }
  have habove : Server.ceilHalf s.mboxes.size < s.voteCnt := by
    show Server.ceilHalf (c₁.servers candidate).mboxes.size < (c₁.servers candidate).voteCnt + 1
    rw [hasked.votes_eq, hasked.knows.size, hlength]
    exact Nat.lt_succ_self _
  have hact : (c₁.servers candidate).act (.handle e.msg) =
      .ok ({ s with voteCnt := 0 }.activateLeader, []) := by
    rw [hmsg, hasked.campaigning.act_vote rfl, Server.tally_of_lt habove]
  obtain ⟨c', trace, hservers, hrun, hfresh, hacts, -⟩ :=
    hasked.vote hup hc₁ hcandidate he hdst hsender hterm hnew hact
  refine ⟨_, c', hrun, hfresh, hacts, _, List.mem_append_right _ (List.mem_singleton_self _),
    candidate, _, ?_, ?_, rfl⟩
  · show (c₁.servers candidate).role ≠ .leader
    rw [hasked.campaigning.role]
    decide
  · show (c'.servers candidate).role = .leader
    rw [hservers, Function.update_self]
    rfl

end Cluster

/-- When only fresh votes are counted, the servers of a set can elect a leader by themselves exactly
when they are more than half of the cluster, rounded up. -/
theorem elects_iff {m : Membership} {up : Finset ByteString} (hup : ∀ name ∈ up, name ∈ m.names) :
    (∃ trace c, Cluster.Run m .initial trace c ∧ Along Cluster.CountsFreshVote trace ∧
        (∀ t ∈ trace, Cluster.ActsAmong up t) ∧
        ∃ t ∈ trace, ∃ name term, Cluster.EntersLeader t name term) ↔
      Server.ceilHalf m.names.length < up.card := by
  constructor
  · rintro ⟨trace, c, hrun, hfresh, hacts, t, ht, name, term, henters⟩
    obtain ⟨before, after, rfl, hbefore, hstep, -⟩ := hrun.cut_of_mem ht
    obtain ⟨voters, hmany, hvoters⟩ :=
      (Cluster.electing_run hbefore hfresh.of_append).quorum hstep hfresh.at henters
    refine hmany.trans_le (Finset.card_le_card fun voter hvoter ↦ ?_)
    obtain ⟨u, hu, rv, hgrant, -⟩ := (hvoters voter hvoter).2
    obtain ⟨x, hx, -⟩ := Cluster.observe_eq_some_iff.mp hgrant
    exact hacts u (List.mem_append_left _ hu) voter x hx
  · exact Cluster.exists_leader hup

/-- Two of three servers elect no leader, when only fresh votes are counted. -/
theorem elects_iff_trio :
    ¬ ∃ trace c, Cluster.Run Schedule.trio .initial trace c ∧
      Along Cluster.CountsFreshVote trace ∧
      (∀ t ∈ trace, Cluster.ActsAmong {bytes "server1", bytes "server2"} t) ∧
      ∃ t ∈ trace, ∃ name term, Cluster.EntersLeader t name term :=
  mt (elects_iff (by decide)).mp (by decide)

end RaftConsensus
