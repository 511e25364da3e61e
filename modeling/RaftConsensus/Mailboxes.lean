import RaftConsensus.Elections
import RaftConsensus.Redirects

/-!
# Mailboxes

A handler or a loop that sends to a peer looks up its mailbox in `m_mboxes` by name. The names come
from the map itself, from messages and from `m_curr_leader`, and `operator[]` inserts the empty
mailbox for a name that the map does not have. `Server.addressee` is the name that a stimulus looks
up, and `act_emptyMailbox_iff` shows that a step fails for want of a mailbox exactly when the
addressee has none.

When every server has handled a `SetCluster` message before its first other message, the map of a
server has the names of the cluster with their mailboxes, and the addressee is a member in all but
two cases (`sends_to_members_iff`): a denied vote is handled like a request for a vote from the
server with the empty name, and a stale `AppendEntry` is answered to the empty name by a server that
knows no leader.
-/

set_option autoImplicit false
set_option relaxedAutoImplicit false

namespace RaftConsensus

open TransitionSystem

namespace Server

variable {s s' : Server} {x : Stimulus} {out : List Output} {dst : Mbox} {msg : Msg}

/-! ### Addressees -/

/-- The peer whose mailbox a stimulus makes a server look up to send to it. -/
def addressee (s : Server) : Stimulus → Option ByteString
  | .handle (.requestVote rv) =>
    if s.agent = .idle ∧ s.role.subscribes (.requestVote rv) ∧ rv.voteGranted = false then
      some rv.candidateId
    else none
  | .handle (.appendEntry ae) =>
    if s.agent = .idle ∧ s.role ≠ .inactive then
      if ae.term < s.term then some s.currLeader
      else if s.role = .follower then some ae.leaderId else none
    else none
  | .resume =>
    match s.agent with
    | .followerUnlock (some ae) => some ae.leaderId
    | _ => none
  | .heartbeatSend i peer _ =>
    match s.heartbeatThreads[i]? with
    | some (.sending remaining) => if peer ∈ remaining ∧ peer ≠ s.name then some peer else none
    | _ => none
  | .requestVoteSend i peer =>
    match s.requestVoteThreads[i]? with
    | some (.sending remaining) => if peer ∈ remaining then some peer else none
    | _ => none
  | _ => none

/-- The message is a denied vote that a candidate or a follower handles, or a stale `AppendEntry`
that a server handles that knows no leader. -/
def Misaddresses (s : Server) : Msg → Prop
  | .requestVote rv => rv.voteGranted = false ∧ rv.candidateId = [] ∧
      (s.role = .candidate ∨ s.role = .follower)
  | .appendEntry ae => ae.term < s.term ∧ s.role ≠ .inactive ∧ s.currLeader = []
  | _ => False

instance : (msg : Msg) → Decidable (s.Misaddresses msg)
  | .requestVote _ | .appendEntry _ => inferInstanceAs (Decidable (_ ∧ _ ∧ _))
  | .setCluster _ | .deactivate | .changeState | .appendEntryResult _ | .clientRequest _
  | .serverResponse _ => .isFalse id

/-- An idle server that answers a message to the empty name has the empty name as addressee. -/
theorem addressee_of_misaddresses (hidle : s.agent = .idle) (h : s.Misaddresses msg) :
    s.addressee (.handle msg) = some [] := by
  cases msg with
  | requestVote rv =>
    obtain ⟨hdenied, hnone, hrole⟩ := h
    simp [addressee, hidle, hdenied, hnone, Role.subscribes, hrole]
  | appendEntry ae =>
    obtain ⟨hstale, hrole, hnone⟩ := h
    simp [addressee, hidle, hstale, hrole, hnone]
  | setCluster | deactivate | changeState | appendEntryResult | clientRequest | serverResponse =>
    exact h.elim

/-- `so_5::send` fails on the empty mailbox. -/
theorem send_eq_emptyMailbox_iff {target : Option Mbox} :
    send target msg = .error .emptyMailbox ↔ target = none := by
  cases target <;> simp [send]

/-- The loop over the entries sends nothing. -/
theorem appendEntries_ne_emptyMailbox (entries : List Entry) :
    s.appendEntries entries ≠ .error .emptyMailbox := by
  induction entries generalizing s with
  | nil => simp [appendEntries]
  | cons el rest ih =>
    unfold appendEntries
    split
    · exact ih
    · simp

/-- Accepting a message fails for want of a mailbox when its `leader_id` has none. -/
theorem acceptEntries_eq_emptyMailbox_iff {ae : AppendEntry} :
    s.acceptEntries ae = .error .emptyMailbox ↔ (s.mboxes.get ae.leaderId).mbox = none := by
  simp only [acceptEntries, except_bind_eq_error_iff, send_eq_emptyMailbox_iff, pure, Except.pure,
    reduceCtorEq, and_false, exists_false, or_false, or_iff_left_iff_imp]
  rintro ⟨out, -, hentries⟩
  exact absurd hentries (appendEntries_ne_emptyMailbox _)

/-- Handling a vote fails for want of a mailbox when the one who asked for it has none. -/
theorem requestVoteHandler_eq_emptyMailbox_iff {rv : RequestVote} :
    s.requestVoteHandler rv = .error .emptyMailbox ↔
      rv.voteGranted = false ∧ (s.mboxes.get rv.candidateId).mbox = none := by
  unfold requestVoteHandler
  split_ifs with hgranted
  · simp [hgranted]
  · simp [hgranted, except_bind_eq_error_iff, send_eq_emptyMailbox_iff, pure, Except.pure]

/-- Handling an `AppendEntry` fails for want of a mailbox when the leader that is answered has
none. -/
theorem heartbeatHandler_eq_emptyMailbox_iff {ae : AppendEntry} :
    s.heartbeatHandler ae = .error .emptyMailbox ↔
      if ae.term < s.term then (s.mboxes.get s.currLeader).mbox = none
      else s.role = .follower ∧ (s.mboxes.get ae.leaderId).mbox = none := by
  unfold heartbeatHandler
  split_ifs with hterm hrole hstale hstale hstale
  · omega
  · simp [hrole, acceptEntries_eq_emptyMailbox_iff]
  · omega
  · simp [hrole]
  · simp [except_bind_eq_error_iff, send_eq_emptyMailbox_iff, pure, Except.pure]
  · omega

/-- The end of `follower.on_enter` fails for want of a mailbox when the leader whose message it
handles has none. -/
theorem resume_eq_emptyMailbox_iff :
    s.resume = .error .emptyMailbox ↔
      ∃ ae, s.agent = .followerUnlock (some ae) ∧ (s.mboxes.get ae.leaderId).mbox = none := by
  unfold resume
  cases s.agent with
  | idle | leaderUnlock | leaderThread => simp
  | followerLock | leaderLock => cases s.heartbeatMtx <;> simp
  | followerUnlock handling =>
    cases handling with
    | none => simp [pure, Except.pure]
    | some ae =>
      simp [except_bind_eq_error_iff, acceptEntries_eq_emptyMailbox_iff, pure, Except.pure]

/-- A send of `send_heartbeat` fails for want of a mailbox when the peer is another server and has
none. -/
theorem heartbeatSend_eq_emptyMailbox_iff {i : ℕ} {peer : ByteString} {garbage : ℤ} :
    s.heartbeatSend i peer garbage = .error .emptyMailbox ↔
      ∃ remaining, s.heartbeatThreads[i]? = some (.sending remaining) ∧
        (peer ∈ remaining ∧ peer ≠ s.name) ∧ (s.mboxes.get peer).mbox = none := by
  unfold heartbeatSend
  cases s.heartbeatThreads[i]? with
  | none => simp
  | some loop =>
    cases loop with
    | lock | test | unlock | done => simp
    | sending remaining =>
      by_cases hpeer : peer ∈ remaining
      · rcases eq_or_ne peer s.name with rfl | hself
        · simp [hpeer, sendHeartbeatTo, bind, Except.bind, pure, Except.pure]
        · simp [hpeer, hself, except_bind_eq_error_iff, sendHeartbeatTo, send_eq_emptyMailbox_iff,
            pure, Except.pure]
      · simp [hpeer]

/-- A send of `send_request_vote` fails for want of a mailbox when the peer has none. -/
theorem requestVoteSend_eq_emptyMailbox_iff {i : ℕ} {peer : ByteString} :
    s.requestVoteSend i peer = .error .emptyMailbox ↔
      ∃ remaining, s.requestVoteThreads[i]? = some (.sending remaining) ∧
        peer ∈ remaining ∧ (s.mboxes.get peer).mbox = none := by
  unfold requestVoteSend
  cases s.requestVoteThreads[i]? with
  | none => simp
  | some loop =>
    cases loop with
    | test | done => simp
    | sending remaining =>
      by_cases hpeer : peer ∈ remaining
      · simp [hpeer, except_bind_eq_error_iff, send_eq_emptyMailbox_iff, pure, Except.pure]
      · simp [hpeer]

/-- A step other than the handling of a client request fails for want of a mailbox exactly when its
addressee has none. -/
theorem act_emptyMailbox_iff (hx : ∀ cr, x ≠ .handle (.clientRequest cr)) :
    s.act x = .error .emptyMailbox ↔
      ∃ peer, s.addressee x = some peer ∧ (s.mboxes.get peer).mbox = none := by
  cases x with
  | handle msg =>
    by_cases hidle : s.agent = .idle
    · cases msg with
      | setCluster | deactivate | changeState | serverResponse =>
        simp [act, hidle, handle, addressee]
      | requestVote rv =>
        cases hrole : s.role <;>
          simp [act, hidle, handle, addressee, hrole, Role.subscribes,
            requestVoteHandler_eq_emptyMailbox_iff]
      | appendEntry ae =>
        by_cases hstale : ae.term < s.term <;> cases hrole : s.role <;>
          simp [act, hidle, handle, addressee, hrole, hstale, heartbeatHandler_eq_emptyMailbox_iff]
      | appendEntryResult aer =>
        cases hrole : s.role <;> simp [act, hidle, handle, addressee, hrole]
      | clientRequest cr => exact absurd rfl (hx cr)
    · cases msg <;> simp [act, hidle, addressee]
  | timeLimit =>
    by_cases hidle : s.agent = .idle
    · cases hrole : s.role <;> cases hlimit : s.followerLimit <;>
        simp [act, hidle, timeLimit, addressee, hrole, hlimit]
    · simp [act, hidle, addressee]
  | resume =>
    rw [act, resume_eq_emptyMailbox_iff, addressee]
    split <;> simp_all
  | heartbeatStep i =>
    simp only [act, heartbeatStep, addressee]
    cases hmtx : s.heartbeatMtx <;> split <;> simp
  | heartbeatSend i peer garbage =>
    rw [act, heartbeatSend_eq_emptyMailbox_iff, addressee]
    split <;> simp_all
  | requestVoteStep i =>
    simp only [act, requestVoteStep, addressee]
    split <;> simp
  | requestVoteSend i peer =>
    rw [act, requestVoteSend_eq_emptyMailbox_iff, addressee]
    split <;> simp_all

/-- Messages go to clients in response, to the server itself, or to a mailbox of the map. -/
theorem Effect.sent_to (h : s.Effect x s' out) {o : Output} (ho : o ∈ out) :
    (∃ sr, o.2 = .serverResponse sr) ∨ o.1 = .server s.name ∨
      ∃ peer, (s.mboxes.get peer).mbox = some o.1 := by
  cases h
  case answerVote rv mbox _ _ _ hmbox =>
    obtain rfl := List.mem_singleton.mp ho
    exact Or.inr (Or.inr ⟨_, hmbox⟩)
  case accept hmbox _ =>
    obtain rfl := List.mem_singleton.mp ho
    exact Or.inr (Or.inr ⟨_, hmbox⟩)
  case reject hmbox =>
    obtain rfl := List.mem_singleton.mp ho
    exact Or.inr (Or.inr ⟨_, hmbox⟩)
  case enterAccept hmbox _ =>
    rcases List.mem_pair.mp ho with rfl | rfl
    · exact Or.inr (Or.inl rfl)
    · exact Or.inr (Or.inr ⟨_, hmbox⟩)
  case heartbeat hmbox =>
    obtain rfl := List.mem_singleton.mp ho
    exact Or.inr (Or.inr ⟨_, hmbox⟩)
  case voteRequest hmbox =>
    obtain rfl := List.mem_singleton.mp ho
    exact Or.inr (Or.inr ⟨_, hmbox⟩)
  all_goals simp_all

/-! ### Known mailboxes -/

/-- The server knows the mailbox of every member. -/
def Stocked (m : Membership) (s : Server) : Prop :=
  ∀ peer ∈ m.names, (s.mboxes.get peer).mbox = some (.server peer)

/-- Entries that agree on the mailbox of a name set it, or leave it as it is. -/
theorem get_foldl_insert_eq_mbox {entries : List (ByteString × Option Mbox)} {mboxes : Mboxes}
    {index : ℤ} {name : ByteString} {mbox : Mbox}
    (hagree : ∀ el ∈ entries, el.1 = name → el.2 = some mbox)
    (h : name ∈ entries.map Prod.fst ∨ (mboxes.get name).mbox = some mbox) :
    (Mboxes.get (entries.foldl (fun m el ↦ m.insert el.1 ⟨el.2, index⟩) mboxes) name).mbox =
      some mbox := by
  induction entries generalizing mboxes with
  | nil => exact h.resolve_left (by simp)
  | cons el rest ih =>
    rw [List.foldl_cons]
    refine ih (fun other hother ↦ hagree other (List.mem_cons_of_mem _ hother)) ?_
    by_cases hname : el.1 = name
    · right
      rw [hname, Mboxes.get_insert_self]
      exact hagree el List.mem_cons_self hname
    · rw [Mboxes.get_insert_of_ne (Ne.symm hname)]
      exact h.imp_left fun hmem ↦ (List.mem_cons.mp hmem).resolve_left (Ne.symm hname)

/-- The `SetCluster` message with the whole map makes the mailboxes of all members known. -/
theorem stocked_setClusterHandler (m : Membership) :
    (s.setClusterHandler m.setCluster).Stocked m := by
  intro peer hpeer
  refine get_foldl_insert_eq_mbox (fun el hel hname ↦ ?_)
    (Or.inl (Membership.mem_setCluster_names.mpr hpeer))
  rw [(Membership.mem_setCluster.mp hel).2, hname]

/-- A server that handles the `SetCluster` message with the whole map knows all mailboxes. -/
theorem Effect.stocked_of_setCluster {m : Membership}
    (h : s.Effect (.handle (.setCluster m.setCluster)) s' out) : s'.Stocked m := by
  cases h
  case setCluster => exact stocked_setClusterHandler m
  case drop hsubscribes => simp [Role.subscribes] at hsubscribes

/-- No effect loses a mailbox. -/
theorem Effect.stocked (h : s.Effect x s' out) {m : Membership}
    (hwhole : ∀ sc, x = .handle (.setCluster sc) → sc = m.setCluster) (hs : s.Stocked m) :
    s'.Stocked m := by
  intro peer hpeer
  have hbefore := hs peer hpeer
  cases h
  case setCluster sc _ =>
    obtain rfl := hwhole sc rfl
    exact stocked_setClusterHandler m peer hpeer
  case result aer _ _ => rw [consistencyCheck_mbox, hbefore]
  case leaderUnlock => rw [Mboxes.get_setNextIndices_mbox, hbefore]
  case countVote | answerVote => rw [tally_mboxes, hbefore]
  all_goals exact hbefore

/-- A server that has handled nothing does nothing by itself. -/
theorem initial_act_of_isInternal (name : ByteString) (hx : x.IsInternal) :
    (initial name).act x = .error .disabled := by
  cases x with
  | handle msg => exact hx.elim
  | timeLimit | resume | heartbeatStep | heartbeatSend | requestVoteStep | requestVoteSend => rfl

/-- A server that has handled nothing sends to nobody by itself. -/
theorem initial_addressee_of_isInternal (name : ByteString) (hx : x.IsInternal) :
    (initial name).addressee x = none := by
  cases x with
  | handle msg => exact hx.elim
  | timeLimit | resume | heartbeatStep | heartbeatSend | requestVoteStep | requestVoteSend => rfl

end Server

/-! ### Informed servers -/

namespace Cluster

variable {m : Membership} {c c' : Cluster} {a : Action} {trace before : History}
  {name : ByteString}

/-- An action delivers a `SetCluster` message to a server. -/
def Introduces (name : ByteString) : Action → Bool
  | .deliver receiver e =>
    match e.msg with
    | .setCluster _ => receiver = name
    | _ => false
  | .post _ _ | .internal _ _ => false

/-- A server has handled a `SetCluster` message. -/
def Informed (history : History) (name : ByteString) : Prop :=
  ∃ u ∈ history, Introduces name u.action = true

/-- A message that is delivered is a `SetCluster` message, or its receiver has handled one. -/
def InformedFirst (history : History) : Action → Prop
  | .deliver receiver e => Introduces receiver (.deliver receiver e) = true ∨
      Informed history receiver
  | .post _ _ | .internal _ _ => True

instance : Decidable (Informed trace name) := by
  unfold Informed
  infer_instance

instance : (a : Action) → Decidable (InformedFirst trace a)
  | .deliver _ _ => inferInstanceAs (Decidable (_ ∨ _))
  | .post _ _ | .internal _ _ => .isTrue trivial

theorem informed_snoc {t : Transition Cluster Action} :
    Informed (before ++ [t]) name ↔ Informed before name ∨ Introduces name t.action = true := by
  simp [Informed, List.mem_append, or_and_right, exists_or]

/-- What an action that introduces a server delivers. -/
theorem introduces_iff : Introduces name a = true ↔
    ∃ e sc, a = .deliver name e ∧ e.msg = .setCluster sc := by
  unfold Introduces
  split
  next receiver e =>
    split
    next sc hmsg => simp [hmsg]
    next hmsg => simpa using fun _ : receiver = name ↦ hmsg
  all_goals simp

/-- What a server does by itself is no delivery. -/
theorem isInternal_of_enabled {x : Stimulus} (henabled : c.next m (.internal name x) ≠
    .error .disabled) : x.IsInternal := by
  by_contra hx
  exact henabled (if_neg fun h ↦ hx h.2)

/-- In a run a server that knows a name knows all of them. -/
theorem complete_run (hrun : Run m initial trace c) : Complete m c := by
  induction hrun with
  | nil => exact complete_initial
  | snoc hrest hstep ih => exact ih.step (coherent_initial.run hrest) hstep

/-- What holds when every server handles a `SetCluster` message first. A server that has handled
one knows the mailboxes of all members, and one that has not is as it was constructed. The loops
have only members to reach, and a request for a vote names a member. -/
structure Introduced (m : Membership) (history : History) (c : Cluster) : Prop where
  informed : ∀ name, Informed history name → (c.servers name).Stocked m
  fresh : ∀ name, ¬ Informed history name → c.servers name = .initial name
  heartbeat : ∀ name remaining, .sending remaining ∈ (c.servers name).heartbeatThreads →
    ∀ peer ∈ remaining, peer ∈ m.names
  requestVote : ∀ name remaining, .sending remaining ∈ (c.servers name).requestVoteThreads →
    ∀ peer ∈ remaining, peer ∈ m.names
  candidate : ∀ e ∈ c.network, ∀ rv, e.msg = .requestVote rv →
    rv.candidateId = [] ∨ rv.candidateId ∈ m.names

/-- Nobody has been introduced as the cluster is constructed. -/
theorem introduced_initial : Introduced m [] initial where
  informed name h := by simp [Informed] at h
  fresh name _ := rfl
  heartbeat name remaining h := by simp [initial, Server.initial] at h
  requestVote name remaining h := by simp [initial, Server.initial] at h
  candidate e he := by simp [initial] at he

/-- A server that knows the mailboxes of all members knows them after a step. -/
theorem Coherent.stocked_step (h : Coherent m c) (hstep : Step m c a c')
    (hstocked : (c.servers name).Stocked m) : (c'.servers name).Stocked m := by
  rcases (step_effect hstep).server name with hsame | ⟨x, out, -, havailable, heffect⟩
  · rw [hsame]
    exact hstocked
  · refine heffect.stocked ?_ hstocked
    rintro sc rfl
    obtain ⟨e, he, -, hmsg⟩ := havailable _ rfl
    exact h.whole e he sc hmsg

/-- A server that has handled a `SetCluster` message after a step knows all mailboxes. -/
theorem Introduced.informed_step (h : Introduced m before c) (hc : Coherent m c)
    (hstep : Step m c a c') (hinformed : Informed (before ++ [⟨c, a, c'⟩]) name) :
    (c'.servers name).Stocked m := by
  rcases informed_snoc.mp hinformed with hold | hnew
  · exact hc.stocked_step hstep (h.informed name hold)
  · obtain ⟨e, sc, rfl, hmsg⟩ := introduces_iff.mp hnew
    obtain ⟨-, havailable, out, heffect⟩ := (step_effect hstep).of_stimulus rfl
    obtain ⟨e', he', -, hmsg'⟩ := havailable _ rfl
    obtain rfl := hc.whole e' he' sc (hmsg'.trans hmsg)
    rw [hmsg] at heffect
    exact heffect.stocked_of_setCluster

/-- A server that has handled no `SetCluster` message after a step is as it was constructed. -/
theorem Introduced.fresh_step (h : Introduced m before c) (hstep : Step m c a c')
    (hfirst : InformedFirst before a) (hfresh : ¬ Informed (before ++ [⟨c, a, c'⟩]) name) :
    c'.servers name = .initial name := by
  rw [informed_snoc, not_or] at hfresh
  rcases hstep.act_cases name with hsame | ⟨x, hx, -, hact⟩
  · rw [hsame]
    exact h.fresh name hfresh.1
  · rw [h.fresh name hfresh.1] at hact
    rcases a.stimulus_cases hx with ⟨e, rfl, -⟩ | rfl
    · rcases hfirst with hnew | hold
      · exact absurd hnew hfresh.2
      · exact absurd hold hfresh.1
    · have henabled : c.next m (.internal name x) ≠ .error .disabled := by
        rw [show c.next m (.internal name x) = .ok c' from hstep]
        simp
      simp [Server.initial_act_of_isInternal name (isInternal_of_enabled henabled)] at hact

/-- A pass of a loop that begins reaches the names of the map, and these are members. -/
theorem mem_names_of_mem_keys (hrun : Run m initial trace c) {peer : ByteString}
    (hpeer : peer ∈ (c.servers name).mboxes.keys) : peer ∈ m.names :=
  ((complete_run hrun).names name peer hpeer peer).mp hpeer

/-- Every step keeps the servers introduced. -/
theorem Introduced.step (h : Introduced m before c) (hrun : Run m initial before c)
    (hstep : Step m c a c') (hfirst : InformedFirst before a) :
    Introduced m (before ++ [⟨c, a, c'⟩]) c' where
  informed _ := h.informed_step (coherent_initial.run hrun) hstep
  fresh _ := h.fresh_step hstep hfirst
  heartbeat name remaining hpass := by
    rcases hstep.act_cases name with hsame | ⟨x, -, -, hact⟩
    · exact h.heartbeat name remaining (hsame ▸ hpass)
    · rcases Server.heartbeat_pass_cases hact hpass with ⟨peers, hold, hsub⟩ | rfl
      · exact fun peer hpeer ↦ h.heartbeat name peers hold peer (hsub hpeer)
      · exact fun peer ↦ mem_names_of_mem_keys hrun
  requestVote name remaining hpass := by
    rcases hstep.act_cases name with hsame | ⟨x, -, -, hact⟩
    · exact h.requestVote name remaining (hsame ▸ hpass)
    · rcases Server.requestVote_pass_cases hact hpass with ⟨peers, hold, hsub⟩ | rfl
      · exact fun peer hpeer ↦ h.requestVote name peers hold peer (hsub hpeer)
      · exact fun peer ↦ mem_names_of_mem_keys hrun
  candidate e he rv hmsg := by
    rcases (step_effect hstep).network_of_server he hmsg id with
        hold | ⟨name, x, out, hx, -, heffect, hsent, -⟩
    · exact h.candidate e hold rv hmsg
    · rw [hmsg] at hsent
      rcases heffect.requestVote_sent hsent with ⟨_, -, -, -, -, -, rfl⟩ | ⟨-, -, rfl⟩
      · exact Or.inl rfl
      · right
        show (c.servers name).name ∈ m.names
        rw [(coherent_initial.run hrun).name_eq]
        exact ((step_effect hstep).of_stimulus hx).1

/-- In a run in which every server handles a `SetCluster` message first, the servers are
introduced. -/
theorem introduced_run (hrun : Run m initial trace c)
    (hfirst : Along (fun before t ↦ InformedFirst before t.action) trace) :
    Introduced m trace c := by
  induction hrun with
  | nil => exact introduced_initial
  | snoc hrest hstep ih =>
    obtain ⟨hbefore, hlast⟩ := along_snoc.mp hfirst
    exact (ih hbefore).step hrest hstep hlast

/-! ### The empty name -/

/-- The action delivers a message that its receiver answers to the empty name. -/
def Misaddressed (c : Cluster) : Action → Prop
  | .deliver name e => (c.servers name).Misaddresses e.msg
  | .post _ _ | .internal _ _ => False

instance : (a : Action) → Decidable (Misaddressed c a)
  | .deliver name e => inferInstanceAs (Decidable ((c.servers name).Misaddresses e.msg))
  | .post _ _ | .internal _ _ => .isFalse id

/-- A stimulus that handles a message is a delivery of it. -/
theorem eq_deliver_of_stimulus {msg : Msg} (hx : a.stimulus = some (name, .handle msg))
    (henabled : c.next m a ≠ .error .disabled) : ∃ e, a = .deliver name e ∧ e.msg = msg := by
  rcases a.stimulus_cases hx with ⟨e, rfl, hmsg⟩ | rfl
  · exact ⟨e, rfl, (Stimulus.handle.inj hmsg).symm⟩
  · exact (isInternal_of_enabled henabled).elim

/-- The addressee of a step is a member, unless the action is misaddressed. -/
theorem Introduced.addressee_mem (h : Introduced m trace c) (hrun : Run m initial trace c)
    {x : Stimulus} (hx : a.stimulus = some (name, x)) (henabled : c.next m a ≠ .error .disabled)
    {peer : ByteString} (hpeer : (c.servers name).addressee x = some peer) :
    peer ∈ m.names ∨ (peer = [] ∧ Misaddressed c a) := by
  obtain ⟨hname, havailable, -⟩ := next_of_stimulus hx henabled
  unfold Server.addressee at hpeer
  split at hpeer
  next rv =>
    split_ifs at hpeer with hrequest
    obtain rfl := Option.some.inj hpeer
    obtain ⟨e, rfl, hmsg⟩ := eq_deliver_of_stimulus hx henabled
    obtain ⟨e', he', -, hmsg'⟩ := havailable _ rfl
    rcases h.candidate e' he' rv hmsg' with hnone | hmember
    · right
      refine ⟨hnone, ?_⟩
      rw [Misaddressed, hmsg]
      exact ⟨hrequest.2.2, hnone, by simpa [Role.subscribes] using hrequest.2.1⟩
    · exact Or.inl hmember
  next ae =>
    split_ifs at hpeer with hactive hstale hfollower
    · obtain rfl := Option.some.inj hpeer
      rcases (redirects_run hrun).currLeader name with hnone | ⟨hmember, -⟩
      · obtain ⟨e, rfl, hmsg⟩ := eq_deliver_of_stimulus hx henabled
        right
        refine ⟨hnone, ?_⟩
        rw [Misaddressed, hmsg]
        exact ⟨hstale, hactive.2, hnone⟩
      · exact Or.inl hmember
    · obtain rfl := Option.some.inj hpeer
      obtain ⟨e, he, -, hmsg⟩ := havailable _ rfl
      exact Or.inl (mem_names_of_led hrun (led_of_carries hrun (Or.inl ⟨e, he, hmsg⟩)))
  next =>
    split at hpeer
    next ae hagent =>
      obtain rfl := Option.some.inj hpeer
      have hpending : (c.servers name).pending = some ae := by rw [Server.pending, hagent]
      exact Or.inl (mem_names_of_led hrun (led_of_carries hrun (Or.inr ⟨name, hpending⟩)))
    next => simp at hpeer
  next i receiver garbage =>
    split at hpeer
    next remaining hloop =>
      split_ifs at hpeer with hremaining
      obtain rfl := Option.some.inj hpeer
      exact Or.inl (h.heartbeat name remaining (List.mem_of_getElem? hloop) _ hremaining.1)
    next => simp at hpeer
  next i receiver =>
    split at hpeer
    next remaining hloop =>
      split_ifs at hpeer with hremaining
      obtain rfl := Option.some.inj hpeer
      exact Or.inl (h.requestVote name remaining (List.mem_of_getElem? hloop) _ hremaining)
    next => simp at hpeer
  next => simp at hpeer

/-- A server with an addressee has handled a `SetCluster` message. -/
theorem Introduced.informed_of_addressee (h : Introduced m trace c)
    (hfirst : InformedFirst trace a) {x : Stimulus} (hx : a.stimulus = some (name, x))
    (henabled : c.next m a ≠ .error .disabled) {peer : ByteString}
    (hpeer : (c.servers name).addressee x = some peer) : Informed trace name := by
  by_contra hfresh
  rw [h.fresh name hfresh] at hpeer
  rcases a.stimulus_cases hx with ⟨e, rfl, rfl⟩ | rfl
  · have hnew := hfirst.resolve_right hfresh
    obtain ⟨e', sc, heq, hmsg⟩ := introduces_iff.mp hnew
    obtain rfl := (Action.deliver.inj heq).2
    simp [hmsg, Server.addressee] at hpeer
  · simp [Server.initial_addressee_of_isInternal _ (isInternal_of_enabled henabled)] at hpeer

/-- The delivery of a misaddressed message fails for want of a mailbox. -/
theorem Coherent.fails_of_misaddressed (h : Coherent m c) {e : Envelope}
    (henabled : c.next m (.deliver name e) ≠ .error .disabled)
    (hmisaddressed : (c.servers name).Misaddresses e.msg) :
    c.next m (.deliver name e) = .error .emptyMailbox ∧ ∀ cr, e.msg ≠ .clientRequest cr := by
  obtain ⟨-, -, hnext⟩ := next_of_stimulus rfl henabled
  have hidle : (c.servers name).agent = .idle := by
    by_contra hbusy
    exact henabled ((hnext _).mpr (if_neg hbusy))
  have hother (cr : ClientRequest) : e.msg ≠ .clientRequest cr := by
    intro hcr
    rw [hcr] at hmisaddressed
    exact hmisaddressed
  have hnobody : ((c.servers name).mboxes.get []).mbox = none := by
    by_contra hmbox
    obtain ⟨mbox, hmbox⟩ := Option.ne_none_iff_exists'.mp hmbox
    exact m.nonempty (h.mailbox name [] mbox hmbox).1
  have haddressee := Server.addressee_of_misaddresses hidle hmisaddressed
  have hfails := (Server.act_emptyMailbox_iff fun cr hcr ↦
    hother cr (Stimulus.handle.inj hcr)).mpr ⟨[], haddressee, hnobody⟩
  exact ⟨(hnext _).mpr hfails, hother⟩

/-- The map of a server that has handled a `SetCluster` message has the names of the cluster as its
keys. -/
theorem Introduced.keys_perm (h : Introduced m trace c) (hrun : Run m initial trace c)
    (hinformed : Informed trace name) : (c.servers name).mboxes.keys.Perm m.names := by
  obtain ⟨u, hu, hintroduces⟩ := id hinformed
  obtain ⟨before, after, rfl⟩ := List.append_of_mem hu
  obtain ⟨e, sc, hdeliver, -⟩ := introduces_iff.mp hintroduces
  have hname := ((step_effect hrun.cut.2.1).of_stimulus (congrArg Action.stimulus hdeliver)).1
  have hself := Mboxes.mem_of_mbox (h.informed name hinformed name hname)
  exact Server.knows_iff_perm.mp ((complete_run hrun).names name name hself)

/-- In a run a server sends its messages to members, or answers a client. -/
theorem sent_to_member (hrun : Run m initial trace c) {u : Transition Cluster Action}
    (hu : u ∈ trace) {o : Output} (ho : o ∈ outputs name u) :
    (∃ sr, o.2 = .serverResponse sr) ∨ ∃ peer ∈ m.names, o.1 = .server peer := by
  obtain ⟨before, after, rfl, hbefore, hstep, -⟩ := hrun.cut_of_mem hu
  obtain ⟨hname, x, -, -, heffect⟩ := hstep.of_mem_outputs ho
  have hsource := coherent_initial.run hbefore
  rcases heffect.sent_to ho with hresponse | hself | ⟨peer, hmbox⟩
  · exact Or.inl hresponse
  · exact Or.inr ⟨name, hname, by rw [hself, hsource.name_eq]⟩
  · obtain ⟨hmember, hdst⟩ := hsource.mailbox name peer o.1 hmbox
    exact Or.inr ⟨peer, hmember, hdst⟩

/-- An action that is not misaddressed fails for want of a mailbox only when a client has given
none. -/
theorem Introduced.request_of_emptyMailbox (h : Introduced m trace c)
    (hrun : Run m initial trace c) (hfirst : InformedFirst trace a)
    (hmisaddressed : ¬ Misaddressed c a) (hfails : c.next m a = .error .emptyMailbox) :
    ∃ name e cr, a = .deliver name e ∧ e.msg = .clientRequest cr := by
  have henabled : c.next m a ≠ .error .disabled := by simp [hfails]
  obtain ⟨name, x, hx, hact⟩ := act_of_next_error hfails (by simp)
  by_cases hrequest : ∃ cr, x = .handle (.clientRequest cr)
  · obtain ⟨cr, rfl⟩ := hrequest
    obtain ⟨e, rfl, hmsg⟩ := eq_deliver_of_stimulus hx henabled
    exact ⟨name, e, cr, rfl, hmsg⟩
  · obtain ⟨peer, hpeer, hnobody⟩ :=
      (Server.act_emptyMailbox_iff fun cr hcr ↦ hrequest ⟨cr, hcr⟩).mp hact
    rcases h.addressee_mem hrun hx henabled hpeer with hmember | ⟨-, hwrong⟩
    · have hinformed := h.informed_of_addressee hfirst hx henabled hpeer
      simp [h.informed name hinformed peer hmember] at hnobody
    · exact absurd hwrong hmisaddressed

end Cluster

/-- In every run in which every server handles a `SetCluster` message before any other, the map of
a server that has handled one has the names of the cluster as its keys, every message goes to a
client in response or to a member, and an enabled action never makes a server send to an empty
mailbox of a peer, exactly when the action does not deliver a denied vote to a candidate or a
follower, or a stale `AppendEntry` to a server that knows no leader. -/
theorem sends_to_members_iff {m : Membership} {trace : Cluster.History} {c : Cluster}
    (hrun : Cluster.Run m .initial trace c)
    (hfirst : Along (fun before t ↦ Cluster.InformedFirst before t.action) trace) {a : Action}
    (ha : Cluster.InformedFirst trace a) (henabled : c.next m a ≠ .error .disabled) :
    ((∀ name, Cluster.Informed trace name → (c.servers name).mboxes.keys.Perm m.names) ∧
        (∀ u ∈ trace, ∀ name, ∀ o ∈ Cluster.outputs name u,
          (∃ sr, o.2 = .serverResponse sr) ∨ ∃ peer ∈ m.names, o.1 = .server peer) ∧
        (c.next m a = .error .emptyMailbox →
          ∃ name e cr, a = .deliver name e ∧ e.msg = .clientRequest cr)) ↔
      ¬ Cluster.Misaddressed c a := by
  have hintroduced := Cluster.introduced_run hrun hfirst
  constructor
  · rintro ⟨-, -, hnever⟩ hmisaddressed
    cases a with
    | post | internal => exact hmisaddressed
    | deliver name e =>
      obtain ⟨hfails, hother⟩ :=
        (Cluster.coherent_initial.run hrun).fails_of_misaddressed henabled hmisaddressed
      obtain ⟨name', e', cr, heq, hcr⟩ := hnever hfails
      obtain rfl := (Action.deliver.inj heq).2
      exact hother cr hcr
  · exact fun hmisaddressed ↦ ⟨fun name ↦ hintroduced.keys_perm hrun,
      fun u hu name o ho ↦ Cluster.sent_to_member hrun hu ho,
      hintroduced.request_of_emptyMailbox hrun ha hmisaddressed⟩

/-- The servers of a run that has sent a command know each other, and the delivery of the command
to the third server sends to no empty mailbox. -/
theorem sends_to_members_iff_replication :
    let c := finalState (Cluster.next Schedule.trio) .initial Schedule.replication
    let a : Action := .deliver (bytes "server3") ⟨some (bytes "server1"), none,
      .server (bytes "server3"), .appendEntry (Schedule.firstLeaderEntries 0 0 ["ADD;5"])⟩
    (c.servers (bytes "server3")).mboxes.keys.Perm Schedule.trio.names ∧
      c.next Schedule.trio a ≠ .error .emptyMailbox := by
  intro c a
  have hrun : Cluster.Run Schedule.trio .initial _ c := run_of_isOk (by decide)
  have henabled : c.next Schedule.trio a ≠ .error .disabled :=
    mt failure_eq_some_iff.mpr (by decide)
  obtain ⟨hkeys, -, hnever⟩ := (sends_to_members_iff hrun (by decide) (a := a) (by decide)
    henabled).mpr (by decide)
  refine ⟨hkeys (bytes "server3") (by decide), fun hfails ↦ ?_⟩
  obtain ⟨name, e, cr, heq, hmsg⟩ := hnever hfails
  obtain rfl := (Action.deliver.inj heq).2
  simp at hmsg

/-- The second server has heard from the leader and is a candidate in the next term. It denies the
vote that the third server asks for in the term of the leader. -/
def Schedule.denial : List Action :=
  form trio ++ firstElection ++ heartbeats (bytes "server1") 0 trio.names ++
    append (bytes "server2") (firstLeaderEntries 0 0 []) ++
    [.internal (bytes "server2") .timeLimit] ++ candidacy (bytes "server3") ++
    requestVotes (bytes "server3") 0 trio.names ++
    [.deliver (bytes "server2") ⟨some (bytes "server3"), none, .server (bytes "server2"),
      .requestVote (.request 1 (bytes "server3") 0 0)⟩]

/-- The candidate that handles a denied vote sends to the empty mailbox. -/
theorem not_sends_to_members_denial :
    ¬ ∀ (m : Membership) (trace : Cluster.History) (c : Cluster) (a : Action),
      Cluster.Run m .initial trace c →
        Along (fun before t ↦ Cluster.InformedFirst before t.action) trace →
        Cluster.InformedFirst trace a → c.next m a = .error .emptyMailbox →
          ∃ name e cr, a = .deliver name e ∧ e.msg = .clientRequest cr := by
  intro hclaim
  have hrun : (execute (Cluster.next Schedule.trio) .initial Schedule.denial).isOk := by decide
  let e : Envelope := ⟨some (bytes "server2"),
    some (.requestVote (.request 1 (bytes "server3") 0 0)), .server (bytes "server3"),
    .requestVote (.answer 2 false)⟩
  obtain ⟨name, e', cr, heq, hmsg⟩ := hclaim _ _ _ (.deliver (bytes "server3") e)
    (run_of_isOk hrun) (by decide) (by decide) (failure_eq_some_iff.mp (by decide))
  obtain rfl := (Action.deliver.inj heq).2
  simp [e] at hmsg

end RaftConsensus
