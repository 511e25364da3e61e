import RaftConsensus.Events
import RaftConsensus.Model.Loops

/-!
# Answers to an `AppendEntry`

`heartbeat_handler` answers every `AppendEntry` that it handles with one `AppendEntryResult`. In a
candidate or a leader it first goes through `follower.on_enter`, where it waits for the mutex while
the loops of the server go on. `Server.Handles` is the handler from its beginning to its end, with
everything that the server does and sends meanwhile, and `Handles.cases` is what it amounts to.

Three properties of the answers fail. The test compares the term before the payload with the entry
at the index of the payload, one too far, and passes when there is no such entry
(`agrees_on_test_iff`). The entries are appended whatever the answer (`rejected_unchanged_iff`). A
stale message is answered to the leader that the server follows, not to the sender
(`answers_to_sender_iff`).
-/

set_option autoImplicit false
set_option relaxedAutoImplicit false

namespace RaftConsensus

open TransitionSystem

/-- The results of `AppendEntry` messages among the messages that are sent. -/
def results (out : List Output) : List (Mbox × AppendEntryResult) :=
  out.filterMap fun o ↦
    match o.2 with
    | .appendEntryResult aer => some (o.1, aer)
    | _ => none

theorem results_append (out rest : List Output) :
    results (out ++ rest) = results out ++ results rest :=
  List.filterMap_append

theorem mem_results_iff {out : List Output} {dst : Mbox} {aer : AppendEntryResult} :
    (dst, aer) ∈ results out ↔ (dst, .appendEntryResult aer) ∈ out := by
  simp only [results, List.mem_filterMap, Prod.exists]
  constructor
  · rintro ⟨dst', msg, hout, hmsg⟩
    split at hmsg
    · simp_all
    · simp at hmsg
  · intro hout
    exact ⟨dst, _, hout, rfl⟩

/-- No result is sent where the list of results is empty. -/
theorem not_mem_of_results {out : List Output} {dst : Mbox} {aer : AppendEntryResult}
    (h : results out = []) : (dst, .appendEntryResult aer) ∉ out := by
  intro hsent
  simpa [h] using mem_results_iff.mpr hsent

namespace Server

variable {s s' s₁ : Server} {x : Stimulus} {out : List Output} {ae : AppendEntry}

/-! ### The handler -/

/-- A server goes on until its agent is idle, with the messages it sends meanwhile. -/
inductive Resumes : Server → List Output → Server → Prop
  | idle {s : Server} : s.agent = .idle → Resumes s [] s
  | step {s s₁ s' : Server} {x : Stimulus} {out rest : List Output} : s.agent ≠ .idle →
      s.act x = .ok (s₁, out) → Resumes s₁ rest s' → Resumes s (out ++ rest) s'

/-- `heartbeat_handler` handles an `AppendEntry` to its end, in a server that is not inactive. -/
def Handles (s : Server) (ae : AppendEntry) (s' : Server) (out : List Output) : Prop :=
  s.role ≠ .inactive ∧ ∃ s₁ first rest, s.act (.handle (.appendEntry ae)) = .ok (s₁, first) ∧
    Resumes s₁ rest s' ∧ out = first ++ rest

/-- The agent is in `follower.on_enter` on its way to accept a message. -/
def Entering (s : Server) (ae : AppendEntry) : Prop :=
  s.agent = .followerLock (some ae) ∨ s.agent = .followerUnlock (some ae)

/-- What the acceptance of a message depends on is the same in two servers. -/
structure SameData (s s' : Server) : Prop where
  name : s'.name = s.name
  mboxes : s'.mboxes = s.mboxes
  log : s'.log = s.log
  register : s'.register = s.register

/-- A message is accepted: it is answered to its `leader_id`, and its entries are appended and
applied. -/
def AcceptedAs (s : Server) (ae : AppendEntry) (s' : Server)
    (answers : List (Mbox × AppendEntryResult)) : Prop :=
  ∃ dst, (s.mboxes.get ae.leaderId).mbox = some dst ∧ answers = [(dst, s.acceptResult ae)] ∧
    s'.log = s.log ++ ae.entries ∧
    s.register.parseAll (ae.entries.map Prod.snd) = .ok s'.register

/-- A step of a server that is about to accept a message leaves what this depends on as it is, or
accepts it. -/
theorem Effect.of_entering (h : s.Effect x s₁ out) (hentering : s.Entering ae) :
    (s₁.Entering ae ∧ s.SameData s₁ ∧ results out = []) ∨
      (s₁.agent = .idle ∧ s.AcceptedAs ae s₁ (results out)) := by
  have hkept (hagent : s₁.agent = s.agent) (hdata : s.SameData s₁) (hout : results out = []) :
      s₁.Entering ae ∧ s.SameData s₁ ∧ results out = [] :=
    ⟨by rwa [Entering, hagent], hdata, hout⟩
  cases h
  case followerLock handling hagent _ =>
    rcases hentering with hlock | hunlock
    · obtain rfl : handling = some ae := Agent.followerLock.inj (hagent.symm.trans hlock)
      exact Or.inl ⟨Or.inr rfl, ⟨rfl, rfl, rfl, rfl⟩, rfl⟩
    · simp [hagent] at hunlock
  case enterAccept entry mbox register hagent hmbox hparse =>
    rcases hentering with hlock | hunlock
    · simp [hagent] at hlock
    · obtain rfl : entry = ae :=
        Option.some.inj (Agent.followerUnlock.inj (hagent.symm.trans hunlock))
      exact Or.inr ⟨rfl, mbox, hmbox, rfl, rfl, hparse⟩
  case heartbeatStep | heartbeatSkip | requestVoteStep =>
    exact Or.inl (hkept rfl ⟨rfl, rfl, rfl, rfl⟩ rfl)
  case heartbeat | voteRequest => exact Or.inl (hkept rfl ⟨rfl, rfl, rfl, rfl⟩ rfl)
  all_goals simp_all [Entering]

/-- An agent that is about to accept a message accepts it before it is idle. -/
theorem Resumes.accepted (h : s.Resumes out s') (hentering : s.Entering ae) :
    s.AcceptedAs ae s' (results out) := by
  induction h with
  | idle hidle => simp [Entering, hidle] at hentering
  | @step s s₁ s' x out rest _ hact hrest ih =>
    rw [results_append]
    rcases (act_effect hact).of_entering hentering with
      ⟨hstill, hdata, hnone⟩ | ⟨hidle, dst, hmbox, hanswer, hlog, hparse⟩
    · obtain ⟨dst, hmbox, hanswer, hlog, hparse⟩ := ih hstill
      refine ⟨dst, hdata.mboxes ▸ hmbox, ?_, hdata.log ▸ hlog, hdata.register ▸ hparse⟩
      rw [hnone, hanswer, acceptResult, acceptResult, hdata.name, hdata.log]
      rfl
    · cases hrest with
      | idle => exact ⟨dst, hmbox, by rw [hanswer]; rfl, hlog, hparse⟩
      | step hbusy => exact absurd hidle hbusy

/-- What the handler amounts to. It answers the message once. A stale one is answered to the leader
that the server knows and changes nothing; any other is accepted. -/
theorem Handles.cases (h : s.Handles ae s' out) :
    (ae.term < s.term ∧ s'.log = s.log ∧ s'.register = s.register ∧
        ∃ dst, (s.mboxes.get s.currLeader).mbox = some dst ∧
          results out = [(dst, ⟨s.name, s.term, false⟩)]) ∨
      (s.term ≤ ae.term ∧ s.AcceptedAs ae s' (results out)) := by
  obtain ⟨hactive, s₁, first, rest, hact, hrest, rfl⟩ := h
  rw [results_append]
  have heffect := act_effect hact
  have hidle_rest (hidle : s₁.agent = .idle) : rest = [] ∧ s' = s₁ := by
    cases hrest with
    | idle => exact ⟨rfl, rfl⟩
    | step hbusy => exact absurd hidle hbusy
  cases heffect
  case drop hsubscribes => simp [Role.subscribes, hactive] at hsubscribes
  case accept mbox register hidle hrole hterm hmbox hparse =>
    obtain ⟨rfl, rfl⟩ := hidle_rest hidle
    exact Or.inr ⟨hterm, mbox, hmbox, rfl, rfl, hparse⟩
  case stepDown hidle hrole hterm =>
    obtain ⟨dst, hmbox, hanswer, hlog, hparse⟩ := hrest.accepted (Or.inl rfl)
    exact Or.inr ⟨hterm, dst, hmbox, hanswer, hlog, hparse⟩
  case reject mbox hidle _ hmbox hstale =>
    obtain ⟨rfl, rfl⟩ := hidle_rest hidle
    exact Or.inl ⟨hstale, rfl, rfl, mbox, hmbox, rfl⟩

/-- A follower handles a message in one step. -/
theorem handles_of_isOk (hactive : s.role ≠ .inactive)
    (hact : (s.act (.handle (.appendEntry ae))).isOk)
    (hidle : (s.after (.handle (.appendEntry ae))).agent = .idle) :
    s.Handles ae (s.after (.handle (.appendEntry ae)))
      (s.outputs (.handle (.appendEntry ae))) :=
  ⟨hactive, _, _, [], act_of_isOk hact, .idle hidle, (List.append_nil _).symm⟩

/-- A message is answered with a result of the given success. -/
def Answered (out : List Output) (success : Bool) : Prop :=
  ∃ dst aer, (dst, .appendEntryResult aer) ∈ out ∧ aer.success = success

/-- A single result decides how a message is answered. -/
theorem answered_iff {dst : Mbox} {aer : AppendEntryResult} {success : Bool}
    (h : results out = [(dst, aer)]) : Answered out success ↔ aer.success = success := by
  simp only [Answered, ← mem_results_iff, h, List.mem_singleton, Prod.mk.injEq]
  constructor
  · rintro ⟨_, _, ⟨-, rfl⟩, hsuccess⟩
    exact hsuccess
  · exact fun hsuccess ↦ ⟨dst, aer, ⟨rfl, rfl⟩, hsuccess⟩

/-! ### The consistency test -/

/-- The test fails: there is an entry at the index of the payload, and it does not have the term
that the message gives for the entry before the payload. -/
def Mismatch (log : List Entry) (ae : AppendEntry) : Prop :=
  ae.prevLogTerm ≠ 0 ∧ 0 ≤ ae.prevLogIndex ∧
    ∃ el, log[ae.prevLogIndex.toNat]? = some el ∧ el.1 ≠ ae.prevLogTerm

theorem consistent_eq_false_iff {log : List Entry} :
    consistent log ae = false ↔ Mismatch log ae := by
  unfold consistent Mismatch
  by_cases hterm : ae.prevLogTerm = 0
  · simp [hterm]
  · by_cases hindex : 0 ≤ ae.prevLogIndex
    · cases log[ae.prevLogIndex.toNat]? <;> simp [hterm, hindex]
    · simp [hterm, hindex]

/-- The term of an entry of a log. -/
def entryTerm (log : List Entry) (i : ℕ) : Option ℤ := log[i]?.map Prod.fst

/-- What the receiver tests in a heartbeat for the next index `k`: that the entry at `k`, if there
is one, has the term of the entry before `k` in the log of the sender. -/
theorem consistent_heartbeatFor_iff {leader : Server} {log : List Entry} {k : ℕ} {garbage : ℤ}
    (hk : 1 ≤ k) (hle : k ≤ leader.log.length) (hterms : ∀ el ∈ leader.log, 1 ≤ el.1) :
    consistent log (leader.heartbeatFor k garbage) = true ↔
      (k < log.length → entryTerm log k = entryTerm leader.log (k - 1)) := by
  have hpos : k - 1 < leader.log.length := by omega
  have hlog : leader.log.length ≠ 0 := by omega
  have hcast : ((k : ℤ) - 1).toNat = k - 1 := by omega
  have hnonneg : (0 : ℤ) ≤ (k : ℤ) - 1 := by omega
  have hread : termAt leader.log ((k : ℤ) - 1) garbage = leader.log[k - 1].1 := by
    rw [termAt, if_pos hnonneg, hcast, List.getElem?_eq_getElem hpos]
    rfl
  have hterm : leader.log[k - 1].1 ≠ 0 := by
    have hone := hterms _ (List.getElem_mem hpos)
    omega
  rw [← Bool.not_eq_false, consistent_eq_false_iff, Mismatch, heartbeatFor, if_pos hlog]
  simp only [hread, ne_eq, hterm, not_false_eq_true, Nat.cast_nonneg, Int.toNat_natCast, true_and,
    entryTerm, List.getElem?_eq_getElem hpos, Option.map_some]
  by_cases hlt : k < log.length
  · simp [hlt]
  · simp [hlt]

/-! ### The receiver of an answer -/

/-- The `AppendEntry` that a server answers with a step: a follower any that it handles, a candidate
and a leader a stale one, and the agent one that it goes on with at the end of
`follower.on_enter`. -/
def answering (s : Server) : Stimulus → Option AppendEntry
  | .handle (.appendEntry ae) =>
    if s.agent = .idle ∧ s.role ≠ .inactive ∧ (s.role = .follower ∨ ae.term < s.term) then some ae
    else none
  | .resume =>
    match s.agent with
    | .followerUnlock handling => handling
    | _ => none
  | _ => none

/-- The server that a server answers: the one that a message names, or the leader that it follows
when the message is stale. -/
def addresseeOf (s : Server) (ae : AppendEntry) : ByteString :=
  if s.term ≤ ae.term then ae.leaderId else s.currLeader

/-- A step that answers a message sends one result, to the mailbox known for its addressee. -/
theorem Effect.answer_sent (h : s.Effect x s₁ out) (hae : s.answering x = some ae)
    (hpending : ∀ ae, s.pending = some ae → s.term ≤ ae.term) :
    ∃ dst aer, results out = [(dst, aer)] ∧ (s.mboxes.get (s.addresseeOf ae)).mbox = some dst := by
  cases h
  case drop msg hidle hsubscribes => cases msg <;> simp_all [answering, Role.subscribes]
  case accept entry mbox _ hidle hrole hterm hmbox _ =>
    obtain rfl : entry = ae := by simpa [answering, hidle, hrole] using hae
    refine ⟨mbox, _, rfl, ?_⟩
    rwa [addresseeOf, if_pos hterm]
  case stepDown entry hidle hrole hterm =>
    have hnot : ¬ (s.role = .follower ∨ entry.term < s.term) := by
      rcases hrole with hrole | hrole <;> simp [hrole, hterm]
    simp [answering, hnot] at hae
  case reject entry mbox hidle hactive hstale hmbox =>
    obtain rfl : entry = ae := by simpa [answering, hidle, hactive, hstale] using hae
    refine ⟨mbox, _, rfl, ?_⟩
    rwa [addresseeOf, if_neg (not_le.mpr hstale)]
  case enterAccept entry mbox _ hagent hmbox _ =>
    obtain rfl : entry = ae := by simpa [answering, hagent] using hae
    refine ⟨mbox, _, rfl, ?_⟩
    rwa [addresseeOf, if_pos (hpending _ (by rw [Server.pending, hagent]))]
  all_goals simp_all [answering]

/-- A result is only sent by a step that answers a message. -/
theorem Effect.answering_of_sent (h : s.Effect x s₁ out) {dst : Mbox} {aer : AppendEntryResult}
    (hsent : (dst, .appendEntryResult aer) ∈ out) : ∃ ae, s.answering x = some ae := by
  cases h <;> simp_all [answering]

end Server

namespace Cluster

variable {m : Membership} {c c' : Cluster} {a : Action} {trace before : History} {e : Envelope}
  {u : Transition Cluster Action} {replier : ByteString} {ae : AppendEntry} {dst : Mbox}
  {aer : AppendEntryResult}

/-- A server answers an `AppendEntry` with a result in a transition. -/
structure AnswerTo (u : Transition Cluster Action) (replier : ByteString) (ae : AppendEntry)
    (dst : Mbox) (aer : AppendEntryResult) : Prop where
  answering : observe Server.answering u = some (replier, ae)
  sent : (dst, .appendEntryResult aer) ∈ outputs replier u

/-- In a run every message that a server answers is answered once, to the addressee. -/
theorem results_of_answering (hrun : Run m initial trace c) (hu : u ∈ trace)
    (hae : observe Server.answering u = some (replier, ae)) :
    ∃ aer, results (outputs replier u) =
      [(.server ((u.source.servers replier).addresseeOf ae), aer)] := by
  obtain ⟨before, after, rfl, hbefore, hstep, -⟩ := hrun.cut_of_mem hu
  obtain ⟨x, hx, hanswering⟩ := observe_eq_some_iff.mp hae
  obtain ⟨-, -, hact, -⟩ := hstep.act hx
  have hcoherent := coherent_initial.run hbefore
  obtain ⟨dst, aer, hresults, hmbox⟩ :=
    (Server.act_effect hact).answer_sent hanswering (hcoherent.pending replier)
  obtain ⟨-, rfl⟩ := hcoherent.mailbox _ _ _ hmbox
  exact ⟨aer, hresults⟩

/-- A result in flight answers an `AppendEntry`. -/
theorem exists_answerTo (hrun : Run m initial trace c) (he : e ∈ c.network)
    (hmsg : e.msg = .appendEntryResult aer) :
    ∃ u ∈ trace, ∃ replier ae, e.sender = some replier ∧ AnswerTo u replier ae e.dst aer := by
  induction hrun with
  | nil => simp [initial] at he
  | @snoc trace middle final action hrest hstep ih =>
    rcases hstep.mem_network_of_server he hmsg id with hold | ⟨name, hsender, hsent⟩
    · obtain ⟨u, hu, hanswer⟩ := ih hold
      exact ⟨u, List.mem_append_left _ hu, hanswer⟩
    · rw [hmsg] at hsent
      obtain ⟨-, x, hx, -, heffect⟩ := hstep.of_mem_outputs hsent
      obtain ⟨ae, hae⟩ := heffect.answering_of_sent hsent
      exact ⟨_, List.mem_append_right _ (List.mem_singleton_self _), name, ae, hsender,
        observe_eq_some hx hae, hsent⟩

/-- A server has sent an `AppendEntry` as its own. -/
def SentAsOwn (history : History) (name : ByteString) (ae : AppendEntry) : Prop :=
  ae.leaderId = name ∧ ∃ u ∈ history, ∃ dst, (dst, .appendEntry ae) ∈ outputs name u

/-- A carried `AppendEntry` has been sent by the server that it names. -/
theorem sentAsOwn_of_carries (hrun : Run m initial trace c) (h : c.Carries ae) :
    SentAsOwn trace ae.leaderId ae := by
  refine ⟨rfl, ?_⟩
  induction hrun with
  | nil => simp [Carries, initial, Server.initial, Server.pending] at h
  | @snoc trace middle final action hrest hstep ih =>
    rcases carries_cases hstep h with hold | ⟨name, i, peer, garbage, hx, hpeer, rfl, -⟩
    · obtain ⟨u, hu, hsent⟩ := ih hold
      exact ⟨u, List.mem_append_left _ hu, hsent⟩
    · refine ⟨_, List.mem_append_right _ (List.mem_singleton_self _), ?_⟩
      obtain ⟨-, -, hact, -⟩ := hstep.act hx
      obtain ⟨-, -, -, -, hsend⟩ := Server.act_heartbeatSend hact
      rw [Server.sendHeartbeatTo, if_pos hpeer, send_eq_ok_iff] at hsend
      obtain ⟨mbox, -, hout⟩ := hsend
      rw [Server.heartbeatFor_leaderId, (coherent_initial.run hrest).name_eq, hout]
      exact ⟨mbox, List.mem_singleton_self _⟩

/-- A message that a server answers was carried. -/
theorem carries_of_answering (hstep : Step m c a c')
    (hae : observe Server.answering ⟨c, a, c'⟩ = some (replier, ae)) : c.Carries ae := by
  obtain ⟨x, hx, hanswering⟩ := observe_eq_some_iff.mp hae
  obtain ⟨-, havailable, -⟩ := hstep.act hx
  unfold Server.answering at hanswering
  split at hanswering
  next entry =>
    split_ifs at hanswering
    obtain rfl := Option.some.inj hanswering
    obtain ⟨e, he, -, hmsg⟩ := havailable _ rfl
    exact Or.inl ⟨e, he, hmsg⟩
  next =>
    split at hanswering
    next handling hagent =>
      refine Or.inr ⟨replier, ?_⟩
      dsimp only at hagent
      rw [Server.pending, hagent]
      exact hanswering
    next => simp at hanswering
  next => simp at hanswering

/-- Every answer to an `AppendEntry` goes to the server that the message names. -/
def AnswersToSender (history : History) : Prop :=
  ∀ u ∈ history, ∀ replier ae dst aer, AnswerTo u replier ae dst aer → dst = .server ae.leaderId

/-- A message in flight is the answer to an `AppendEntry`. -/
def IsAnswerTo (history : History) (e : Envelope) (ae : AppendEntry) : Prop :=
  ∃ u ∈ history, ∃ replier aer, e.sender = some replier ∧ e.msg = .appendEntryResult aer ∧
    AnswerTo u replier ae e.dst aer

/-- Every result that a leader handles is the answer to an `AppendEntry`, and only to one that the
leader has sent as its own. -/
def HandlesOwnResults (history : History) : Prop :=
  Along (fun before t ↦ ∀ leader e aer, t.action = .deliver leader e →
    e.msg = .appendEntryResult aer → (t.source.servers leader).role = .leader →
      (∃ ae, IsAnswerTo before e ae) ∧
        ∀ ae, IsAnswerTo before e ae → SentAsOwn before leader ae) history

/-- When answers go to the senders, leaders handle the results of their own messages. -/
theorem AnswersToSender.handlesOwnResults (hrun : Run m initial trace c)
    (h : AnswersToSender trace) : HandlesOwnResults trace := by
  rintro before t after rfl leader e aer haction hmsg -
  obtain ⟨hbefore, hstep, -⟩ := hrun.cut
  have heffect := step_effect hstep
  rw [haction] at heffect
  obtain ⟨he, hdst⟩ := heffect.of_deliver
  constructor
  · obtain ⟨u, hu, replier, ae, hsender, hanswer⟩ := exists_answerTo hbefore he hmsg
    exact ⟨ae, u, hu, replier, aer, hsender, hmsg, hanswer⟩
  · rintro ae ⟨u, hu, replier, aer', -, -, hanswer⟩
    have hleader := h u (List.mem_append_left _ hu) replier ae e.dst aer' hanswer
    obtain rfl := Mbox.server.inj (hdst.symm.trans hleader)
    obtain ⟨first, rest, rfl, hfirst, hanswered, -⟩ := hbefore.cut_of_mem hu
    obtain ⟨hself, v, hv, hsent⟩ :=
      sentAsOwn_of_carries hfirst (carries_of_answering hanswered hanswer.answering)
    exact ⟨hself, v, List.mem_append_left _ hv, hsent⟩

end Cluster

/-- A heartbeat for the next index `k` of a leader is answered with success exactly when the log of
the receiver has `k` entries and the last of them has the same term in both logs, exactly when the
receiver has these entries and the entry after them does not mislead the test: if there is none, the
terms agree, and if there is one, either both it and the entry before it have the term of the
sender, or neither. -/
theorem agrees_on_test_iff {leader follower follower' : Server} {k : ℕ} {garbage : ℤ}
    {out : List Output} (hk : 1 ≤ k) (hle : k ≤ leader.log.length)
    (hterms : ∀ el ∈ leader.log, 1 ≤ el.1) (hfresh : follower.term ≤ leader.term)
    (h : follower.Handles (leader.heartbeatFor k garbage) follower' out) :
    let sent := Server.entryTerm leader.log (k - 1)
    let last := Server.entryTerm follower.log (k - 1)
    let following := Server.entryTerm follower.log k
    ((Server.Answered out true ↔ k ≤ follower.log.length ∧ last = sent) ↔
      k ≤ follower.log.length ∧
        if follower.log.length = k then last = sent else (following = sent ↔ last = sent)) := by
  intro sent last following
  have hanswered : Server.Answered out true ↔ (k < follower.log.length → following = sent) := by
    rcases h.cases with ⟨hstale, -⟩ | ⟨-, dst, -, hanswer, -⟩
    · rw [Server.heartbeatFor_term] at hstale
      omega
    · rw [Server.answered_iff hanswer]
      exact Server.consistent_heartbeatFor_iff hk hle hterms
  rw [hanswered]
  rcases lt_trichotomy follower.log.length k with hshort | hequal | hlong
  · have hmissing : ¬ k < follower.log.length := by omega
    simp [hmissing, not_le.mpr hshort]
  · simp [hequal]
  · simp [hlong, hlong.le, hlong.ne']

/-- A server that has accepted the first command answers a heartbeat that follows it. -/
theorem agrees_on_test_iff_replication :
    let c := finalState (Cluster.next Schedule.trio) .initial Schedule.replication
    let heartbeat := (c.servers (bytes "server1")).heartbeatFor 1 0
    Server.Answered ((c.servers (bytes "server2")).outputs (.handle (.appendEntry heartbeat)))
      true := by
  intro c heartbeat
  have hhandles : (c.servers (bytes "server2")).Handles heartbeat _ _ :=
    Server.handles_of_isOk (by decide) (by decide) (by decide)
  have hiff := agrees_on_test_iff (k := 1) (by decide) (by decide) (by decide) (by decide) hhandles
  exact (hiff.mpr (by decide)).mpr (by decide)

/-- A server with an empty log answers a heartbeat that follows the first command with success. -/
theorem not_agrees_on_test_replication :
    ¬ ∀ (leader follower follower' : Server) (k : ℕ) (garbage : ℤ) (out : List Output),
      1 ≤ k → k ≤ leader.log.length → (∀ el ∈ leader.log, 1 ≤ el.1) →
        (∀ el ∈ follower.log, 1 ≤ el.1) → follower.term ≤ leader.term →
        follower.Handles (leader.heartbeatFor k garbage) follower' out →
        (Server.Answered out true ↔ k ≤ follower.log.length ∧
          Server.entryTerm follower.log (k - 1) = Server.entryTerm leader.log (k - 1)) := by
  intro hclaim
  let c := finalState (Cluster.next Schedule.trio) .initial Schedule.replication
  let heartbeat := (c.servers (bytes "server1")).heartbeatFor 1 0
  have hhandles : (c.servers (bytes "server3")).Handles heartbeat _ _ :=
    Server.handles_of_isOk (by decide) (by decide) (by decide)
  have hiff := hclaim _ _ _ 1 0 _ (by decide) (by decide) (by decide) (by decide) (by decide)
    hhandles
  have hanswered : Server.Answered
      ((c.servers (bytes "server3")).outputs (.handle (.appendEntry heartbeat))) true :=
    ⟨.server (bytes "server1"), ⟨bytes "server3", 1, true⟩, by decide, rfl⟩
  exact absurd (hiff.mp hanswered).1 (by decide)

/-- A rejected message changes nothing exactly when it is stale or has no entries, or the test does
not fail. -/
theorem rejected_unchanged_iff {s s' : Server} {ae : AppendEntry} {out : List Output}
    (h : s.Handles ae s' out) :
    (Server.Answered out false → s'.log = s.log ∧ s'.register = s.register) ↔
      ae.term < s.term ∨ ae.entries = [] ∨ ¬ Server.Mismatch s.log ae := by
  rcases h.cases with ⟨hstale, hlog, hregister, -⟩ | ⟨hterm, dst, -, hanswer, hlog, hparse⟩
  · exact iff_of_true (fun _ ↦ ⟨hlog, hregister⟩) (Or.inl hstale)
  · have hanswered : Server.Answered out false ↔ Server.Mismatch s.log ae := by
      rw [Server.answered_iff hanswer]
      exact Server.consistent_eq_false_iff
    have hunchanged : (s'.log = s.log ∧ s'.register = s.register) ↔ ae.entries = [] := by
      rw [hlog, List.append_right_eq_self]
      refine and_iff_left_of_imp fun hnil ↦ ?_
      rw [hnil] at hparse
      exact (Except.ok.inj hparse).symm
    rw [hanswered, hunchanged, imp_iff_or_not]
    exact (or_iff_right (not_lt.mpr hterm)).symm

/-- The follower of the second round has two entries of term `1`. -/
theorem rejected_unchanged_iff_secondRound :
    let c := finalState (Cluster.next Schedule.trio) .initial Schedule.secondRound
    let follower := c.servers (bytes "server2")
    let heartbeat : AppendEntry := Schedule.firstLeaderEntries 1 2 []
    (follower.after (.handle (.appendEntry heartbeat))).log = follower.log := by
  intro c follower heartbeat
  have hhandles : follower.Handles heartbeat _ _ :=
    Server.handles_of_isOk (by decide) (by decide) (by decide)
  have hanswered : Server.Answered (follower.outputs (.handle (.appendEntry heartbeat))) false :=
    ⟨.server (bytes "server1"), ⟨bytes "server2", 1, false⟩, by decide, rfl⟩
  exact ((rejected_unchanged_iff hhandles).mpr (Or.inr (Or.inl rfl)) hanswered).1

/-- A follower with two entries of term `1` rejects a message whose previous entry has term `2`, and
appends its entries. -/
theorem not_rejected_unchanged_secondRound :
    ¬ ∀ (s s' : Server) (ae : AppendEntry) (out : List Output), s.Handles ae s' out →
      Server.Answered out false → s'.log = s.log ∧ s'.register = s.register := by
  intro hclaim
  let c := finalState (Cluster.next Schedule.trio) .initial Schedule.secondRound
  let ae : AppendEntry := ⟨2, bytes "server1", 1, 2, [(2, bytes "ADD;2")], 0⟩
  have hhandles : (c.servers (bytes "server2")).Handles ae _ _ :=
    Server.handles_of_isOk (by decide) (by decide) (by decide)
  have hanswered : Server.Answered ((c.servers (bytes "server2")).outputs
      (.handle (.appendEntry ae))) false :=
    ⟨.server (bytes "server1"), ⟨bytes "server2", 2, false⟩, by decide, rfl⟩
  exact absurd (hclaim _ _ _ _ hhandles hanswered).1 (by decide)

/-- In a run every answer to an `AppendEntry` goes to the server that the message names, and leaders
only handle results of their own messages, exactly when no server answers a stale message of a
server other than the leader that it follows. -/
theorem answers_to_sender_iff {m : Membership} {trace : Cluster.History} {c : Cluster}
    (hrun : Cluster.Run m .initial trace c) :
    (Cluster.AnswersToSender trace ∧ Cluster.HandlesOwnResults trace) ↔
      ∀ u ∈ trace, ∀ replier ae, Cluster.observe Server.answering u = some (replier, ae) →
        (u.source.servers replier).term ≤ ae.term ∨
          (u.source.servers replier).currLeader = ae.leaderId := by
  rw [and_iff_left_of_imp (Cluster.AnswersToSender.handlesOwnResults hrun)]
  have haddressee {s : Server} {ae : AppendEntry} : s.addresseeOf ae = ae.leaderId ↔
      s.term ≤ ae.term ∨ s.currLeader = ae.leaderId := by
    unfold Server.addresseeOf
    split_ifs with hfresh
    · simp [hfresh]
    · simp [hfresh]
  constructor
  · intro h u hu replier ae hae
    obtain ⟨aer, hresults⟩ := Cluster.results_of_answering hrun hu hae
    have hsent := mem_results_iff.mp (hresults ▸ List.mem_singleton_self _)
    exact haddressee.mp (Mbox.server.inj (h u hu replier ae _ aer ⟨hae, hsent⟩))
  · intro h u hu replier ae dst aer hanswer
    obtain ⟨aer', hresults⟩ := Cluster.results_of_answering hrun hu hanswer.answering
    have hmem := mem_results_iff.mpr hanswer.sent
    rw [hresults, List.mem_singleton, Prod.mk.injEq] at hmem
    rw [hmem.1, haddressee.mpr (h u hu replier ae hanswer.answering)]

/-- The first leader handles the result of its first command, which answers its own message. -/
theorem answers_to_sender_iff_replication :
    let trace := history (Cluster.next Schedule.trio) .initial (Schedule.replication ++
      Schedule.acknowledge (Schedule.firstLeaderEntries 0 0 ["ADD;5"]) ⟨bytes "server2", 1, true⟩)
    Cluster.AnswersToSender trace ∧ Cluster.HandlesOwnResults trace := by
  intro trace
  have hrun : Cluster.Run Schedule.trio .initial trace _ := run_of_isOk (by decide)
  have hfresh : ∀ u ∈ trace, (Cluster.observe Server.answering u).all
      (fun answer ↦ (u.source.servers answer.1).term ≤ answer.2.term) = true := by decide
  refine (answers_to_sender_iff hrun).mpr fun u hu replier ae hae ↦ Or.inl ?_
  have hanswer := hfresh u hu
  rw [hae] at hanswer
  exact of_decide_eq_true hanswer

/-- A message of the first leader reaches the third server when this follows the second leader,
which handles the result. -/
def Schedule.misdirection : List Action :=
  let entries : AppendEntry := ⟨2, bytes "server2", 0, 0, [], 0⟩
  let late := firstLeaderEntries 0 0 []
  form trio ++ firstElection ++ heartbeats (bytes "server1") 0 trio.names ++
    append (bytes "server2") late ++ secondElection 0 0 ++ takeOffice (bytes "server2") 0 ++
    heartbeats (bytes "server2") 0 trio.names ++ append (bytes "server3") entries ++
    append (bytes "server3") late ++
    [.deliver (bytes "server2") ⟨some (bytes "server3"), some (.appendEntry late),
      .server (bytes "server2"), .appendEntryResult ⟨bytes "server3", 2, false⟩⟩]

/-- The result of a late message is handled by a leader that has not sent this message. -/
theorem not_answers_to_sender_misdirection :
    ¬ ∀ (m : Membership) (trace : Cluster.History) (c : Cluster), Cluster.Run m .initial trace c →
      Cluster.AnswersToSender trace ∧ Cluster.HandlesOwnResults trace := by
  intro hclaim
  let trace := history (Cluster.next Schedule.trio) .initial Schedule.misdirection
  have hrun : (execute (Cluster.next Schedule.trio) .initial Schedule.misdirection).isOk := by
    decide
  let late := Schedule.firstLeaderEntries 0 0 []
  let aer : AppendEntryResult := ⟨bytes "server3", 2, false⟩
  obtain ⟨-, hown⟩ := (hclaim _ _ _ (run_of_isOk hrun)).2 _ (trace.get ⟨58, by decide⟩) _
    (take_append_get_cons_drop trace ⟨58, by decide⟩).symm (bytes "server2") _ aer rfl rfl
    (by decide)
  have hanswer : Cluster.IsAnswerTo (trace.take 58) ⟨some (bytes "server3"),
      some (.appendEntry late), .server (bytes "server2"), .appendEntryResult aer⟩ late :=
    ⟨trace.get ⟨57, by decide⟩, List.mem_of_getElem? (i := 57) rfl, bytes "server3", aer, rfl, rfl,
      by decide, by decide⟩
  exact absurd (hown late hanswer).1 (by decide)

end RaftConsensus
