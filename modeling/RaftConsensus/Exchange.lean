import RaftConsensus.HeartbeatRange
import RaftConsensus.Rounds

/-!
# The exchange of a round

All messages of a round are equal: their payload is what the requests of the clients have appended,
and their `prev_log_index` is the size of the log before them, so that the test of the receiver is
past the end of its log and succeeds (`Batch`). A follower gets exactly one of them. `Progress` says
how far it has come with it, and `Exchanging` what holds between the first send of the pass and the
last result.
-/

set_option autoImplicit false
set_option relaxedAutoImplicit false

namespace RaftConsensus

open TransitionSystem

namespace Server

variable {s s' base lead : Server} {x : Stimulus} {out : List Output} {ae : AppendEntry}

/-- A server with the log and the register of `base` that can accept messages of a term. -/
structure Waiting (s base : Server) (term : ℤ) : Prop where
  active : s.role ≠ .inactive
  pending : s.pending = none
  term_le : s.term ≤ term
  log : s.log = base.log
  register : s.register = base.register

/-- A follower that has everything its leader has. -/
structure Following (s lead : Server) : Prop where
  role : s.role = .follower
  pending : s.pending = none
  term : s.term = lead.term
  currLeader : s.currLeader = lead.name
  log : s.log = lead.log
  register : s.register = lead.register

theorem Waiting.of_kept {term : ℤ} (h : s.Waiting base term) (hkept : s.Kept s') :
    s'.Waiting base term where
  active := hkept.role ▸ h.active
  pending := hkept.pending.trans h.pending
  term_le := hkept.term ▸ h.term_le
  log := hkept.log.trans h.log
  register := hkept.register.trans h.register

theorem Following.of_kept (h : s.Following lead) (hkept : s.Kept s') : s'.Following lead where
  role := hkept.role.trans h.role
  pending := hkept.pending.trans h.pending
  term := hkept.term.trans h.term
  currLeader := hkept.currLeader.trans h.currLeader
  log := hkept.log.trans h.log
  register := hkept.register.trans h.register

theorem Following.of_lead_kept {lead' : Server} (h : s.Following lead) (hkept : lead.Kept lead') :
    s.Following lead' where
  role := h.role
  pending := h.pending
  term := h.term.trans hkept.term.symm
  currLeader := h.currLeader.trans hkept.name.symm
  log := h.log.trans hkept.log.symm
  register := h.register.trans hkept.register.symm

/-- A follower of a leader is ready for its next messages. -/
theorem Following.waiting (h : s.Following lead) : s.Waiting lead lead.term where
  active := by simp [h.role]
  pending := h.pending
  term_le := h.term.le
  log := h.log
  register := h.register

/-- The message of a round: it takes a server from the log and the register of `base` to those of
the leader, and passes its test. -/
structure Batch (base lead : Server) (ae : AppendEntry) : Prop where
  sent : ∀ garbage, lead.heartbeatFor base.log.length garbage = ae
  log : lead.log = base.log ++ ae.entries
  register : base.register.parseAll (ae.entries.map Prod.snd) = .ok lead.register
  consistent : consistent base.log ae = true

theorem Batch.term (h : Batch base lead ae) : ae.term = lead.term := by
  rw [← h.sent 0, heartbeatFor_term]

theorem Batch.leaderId (h : Batch base lead ae) : ae.leaderId = lead.name := by
  rw [← h.sent 0, heartbeatFor_leaderId]

/-- The test of a message for the index after the last entry is past the end of the log. -/
theorem consistent_of_length_le {log : List Entry} (h : (log.length : ℤ) ≤ ae.prevLogIndex) :
    consistent log ae = true := by
  have hnone : log[ae.prevLogIndex.toNat]? = none := by
    rw [List.getElem?_eq_none_iff]
    omega
  unfold consistent
  simp [hnone]

/-- What a leader has appended to a nonempty log is the payload of the message of a round. -/
theorem exists_batch {entries : List Entry} (hbase : base.log ≠ [])
    (hlog : lead.log = base.log ++ entries)
    (hregister : base.register.parseAll (entries.map Prod.snd) = .ok lead.register) :
    ∃ ae, Batch base lead ae := by
  have hne : lead.log ≠ [] := by simp [hlog, hbase]
  have hpos := List.length_pos_iff.mpr hbase
  have hle : base.log.length ≤ lead.log.length := by simp [hlog]
  have hentries : (lead.heartbeatFor base.log.length 0).entries = entries := by
    simp [heartbeatFor, suffixFrom, hlog, hbase]
  have hindex : (lead.heartbeatFor base.log.length 0).prevLogIndex = base.log.length := by
    simp [heartbeatFor, hne]
  refine ⟨lead.heartbeatFor base.log.length 0, fun garbage ↦ ?_, ?_, ?_, ?_⟩
  · exact (heartbeatFor_eq_iff hne).mpr ⟨by omega, by omega⟩ garbage 0
  · rw [hentries, hlog]
  · rw [hentries, hregister]
  · exact consistent_of_length_le hindex.ge

/-- A successful result sets the next index for its follower to the size of the log. -/
theorem nextIndexFor_of_success {aer : AppendEntryResult} (hsuccess : aer.success = true)
    (hnonneg : 0 ≤ s.nextIndexFor aer.followerName)
    (hle : s.nextIndexFor aer.followerName ≤ s.log.length) :
    (s.consistencyCheck aer).nextIndexFor aer.followerName = s.log.length := by
  rw [nextIndexFor_consistencyCheck]
  simp only [hsuccess, Bool.not_true, Bool.false_eq_true, ↓reduceIte]
  split_ifs with hlt
  · rfl
  · omega

/-- A result leaves the next indices for the other servers as they are. -/
theorem nextIndexFor_of_ne {aer : AppendEntryResult} {name : ByteString}
    (hne : name ≠ aer.followerName) :
    (s.consistencyCheck aer).nextIndexFor name = s.nextIndexFor name := by
  rw [nextIndexFor, consistencyCheck, Mboxes.get_insert_of_ne hne, nextIndexFor]

/-- A server that accepts the message of a round follows the leader, and answers with success. -/
theorem Batch.following (h : Batch base lead ae) (heffect : s.Effect x s' out)
    (haccepts : s.Accepts x ae) (hrole : s.role = .follower) (hlog : s.log = base.log)
    (hregister : s.register = base.register) :
    s'.Following lead ∧ ∃ dst, results out = [(dst, ⟨s.name, lead.term, true⟩)] := by
  obtain ⟨hrole', hterm, hleader, hpending, dst, -, hresults, hlog', hparse⟩ :=
    heffect.of_accepts haccepts
  constructor
  · refine ⟨hrole'.trans hrole, hpending, hterm.trans h.term, hleader.trans h.leaderId, ?_, ?_⟩
    · rw [hlog', hlog, h.log]
    · rw [hregister, h.register] at hparse
      exact (Except.ok.inj hparse).symm
  · refine ⟨dst, ?_⟩
    rw [hresults, acceptResult, h.term, hlog, h.consistent]

end Server

namespace Cluster

variable {m : Membership} {leader : ByteString} {c c' : Cluster} {a : Action} {e : Envelope}
  {base lead : Server} {ae : AppendEntry} {i : ℕ} {remaining : List ByteString}

/-! ### In the background -/

/-- What holds all through a round: the servers know the members, and the leader stays leader. -/
structure Normal (m : Membership) (leader : ByteString) (c : Cluster) : Prop where
  member : leader ∈ m.names
  coherent : Coherent m c
  stocked : ∀ name ∈ m.names, (c.servers name).Stocked m
  leads : (c.servers leader).Leads

/-- A step after which the leader still leads keeps what holds all through a round. -/
theorem Normal.step (h : Normal m leader c) (hstep : Step m c a c')
    (hleads : (c'.servers leader).Leads) : Normal m leader c' where
  member := h.member
  coherent := h.coherent.step hstep
  stocked name hname := h.coherent.stocked_step hstep (h.stocked name hname)
  leads := hleads

/-- A background action keeps a server that is not handling a message. -/
theorem kept_of_background (hstep : Step m c a c') (ha : Background leader a) {name : ByteString}
    (hpending : (c.servers name).pending = none) :
    (c.servers name).Kept (c'.servers name) ∧ results (outputs name ⟨c, a, c'⟩) = [] := by
  rcases hstep.effect_cases name with ⟨hsame, hout⟩ | ⟨x, hx, heffect⟩
  · rw [hsame, hout]
    exact ⟨Server.Kept.refl _, rfl⟩
  · exact heffect.calm (ha.calm hx).1 hpending

/-- A background action keeps the map of the leader, and sends no `AppendEntry` of it. -/
theorem leader_of_background (hstep : Step m c a c') (ha : Background leader a)
    (hleads : (c.servers leader).Leads) :
    (c'.servers leader).mboxes = (c.servers leader).mboxes ∧
      ∀ dst ae, (dst, .appendEntry ae) ∉ outputs leader ⟨c, a, c'⟩ := by
  rcases hstep.effect_cases leader with ⟨hsame, hout⟩ | ⟨x, hx, heffect⟩
  · rw [hsame, hout]
    exact ⟨rfl, fun _ _ ↦ List.not_mem_nil⟩
  · obtain ⟨hcalm, hsend⟩ := ha.calm hx
    refine ⟨heffect.calm_mboxes hcalm hleads.idle, fun dst ae hae ↦ ?_⟩
    obtain ⟨i, peer, garbage, rfl, -⟩ := heffect.appendEntry_sent hae
    exact hsend rfl i peer garbage rfl

/-- An `AppendEntry` of the leader that is in flight after a step in which it sends none was in
flight before. -/
theorem mem_of_append (hstep : Step m c a c')
    (happend : ∀ dst ae, (dst, .appendEntry ae) ∉ outputs leader ⟨c, a, c'⟩) (he : e ∈ c'.network)
    (hsender : e.sender = some leader) (hmsg : e.msg = .appendEntry ae) : e ∈ c.network := by
  rcases hstep.mem_network he with hold | ⟨_, _, -, -, rfl⟩ | ⟨name, hname, hsent⟩
  · exact hold
  · simp at hsender
  · obtain rfl := Option.some.inj (hname.symm.trans hsender)
    exact absurd (hmsg ▸ hsent) (happend _ ae)

/-! ### The exchange -/

/-- The message of a round to a follower, in flight. -/
def copy (leader : ByteString) (ae : AppendEntry) (name : ByteString) : Envelope :=
  ⟨some leader, none, .server name, .appendEntry ae⟩

/-- The result of a follower is in flight, or the leader has set its next index for it. -/
def Answering (leader : ByteString) (lead : Server) (c : Cluster) (name : ByteString) : Prop :=
  (∃ e ∈ c.network, ∃ aer, e.msg = .appendEntryResult aer ∧ aer.followerName = name) ∨
    (c.servers leader).nextIndexFor name = lead.log.length

/-- How far a follower has come: its message is still to be sent, is in flight, is being handled, or
has been accepted. -/
inductive Progress (leader : ByteString) (base lead : Server) (ae : AppendEntry)
    (remaining : List ByteString) (c : Cluster) (name : ByteString) : Prop
  | unsent : name ∈ remaining → c.network.count (copy leader ae name) = 0 →
      (c.servers name).Waiting base lead.term → Progress leader base lead ae remaining c name
  | sent : name ∉ remaining → c.network.count (copy leader ae name) = 1 →
      (c.servers name).Waiting base lead.term → Progress leader base lead ae remaining c name
  | handling : name ∉ remaining → c.network.count (copy leader ae name) = 0 →
      (c.servers name).role = .follower → (c.servers name).pending = some ae →
      (c.servers name).log = base.log → (c.servers name).register = base.register →
      Progress leader base lead ae remaining c name
  | accepted : name ∉ remaining → c.network.count (copy leader ae name) = 0 →
      (c.servers name).Following lead → Answering leader lead c name →
      Progress leader base lead ae remaining c name

/-- A follower that is kept has come as far after a step that leaves its message and its result
where they are. -/
theorem Progress.of_kept {name : ByteString} {remaining' : List ByteString}
    (h : Progress leader base lead ae remaining c name)
    (hmem : name ∈ remaining' ↔ name ∈ remaining)
    (hcount : c'.network.count (copy leader ae name) = c.network.count (copy leader ae name))
    (hkept : (c.servers name).Kept (c'.servers name))
    (hanswer : Answering leader lead c name → Answering leader lead c' name) :
    Progress leader base lead ae remaining' c' name := by
  cases h with
  | unsent hremaining hnone hwaiting =>
    exact .unsent (hmem.mpr hremaining) (hcount.trans hnone) (hwaiting.of_kept hkept)
  | sent hremaining hone hwaiting =>
    exact .sent (mt hmem.mp hremaining) (hcount.trans hone) (hwaiting.of_kept hkept)
  | handling hremaining hnone hrole hpending hlog hregister =>
    exact .handling (mt hmem.mp hremaining) (hcount.trans hnone) (hkept.role.trans hrole)
      (hkept.pending.trans hpending) (hkept.log.trans hlog) (hkept.register.trans hregister)
  | accepted hremaining hnone hfollowing hanswering =>
    exact .accepted (mt hmem.mp hremaining) (hcount.trans hnone) (hfollowing.of_kept hkept)
      (hanswer hanswering)

/-- What holds from the beginning of the pass to the last result. -/
structure Exchanging (m : Membership) (leader : ByteString) (base lead : Server) (ae : AppendEntry)
    (i : ℕ) (remaining : List ByteString) (c : Cluster) : Prop extends Normal m leader c where
  kept : lead.Kept (c.servers leader)
  thread : (c.servers leader).heartbeatThreads[i]? = some (.sending remaining)
  nodup : remaining.Nodup
  index : ∀ name ∈ m.names, name ≠ leader → 0 ≤ (c.servers leader).nextIndexFor name ∧
    (c.servers leader).nextIndexFor name ≤ lead.log.length ∧
    (name ∈ remaining → (c.servers leader).nextIndexFor name = base.log.length)
  copies : ∀ e ∈ c.network, e.sender = some leader → ∀ sent, e.msg = .appendEntry sent →
    ∃ name ∈ m.names, name ≠ leader ∧ e = copy leader ae name
  results : ∀ e ∈ c.network, ∀ aer, e.msg = .appendEntryResult aer →
    aer.success = true ∧ aer.followerName ∉ remaining
  progress : ∀ name ∈ m.names, name ≠ leader → Progress leader base lead ae remaining c name

/-- How often the message to a follower is in flight only changes with a delivery when the leader
sends nothing. -/
theorem count_copy (hstep : Step m c a c')
    (happend : ∀ dst ae, (dst, .appendEntry ae) ∉ outputs leader ⟨c, a, c'⟩) (name : ByteString) :
    c'.network.count (copy leader ae name) = (c.withdraw a).count (copy leader ae name) := by
  obtain ⟨fresh, hnetwork, hfresh⟩ := hstep.network_eq
  have hnone : copy leader ae name ∉ fresh := by
    intro hmem
    rcases hfresh _ hmem with ⟨_, _, -, -, hcopy⟩ | ⟨sender, hsender, hsent⟩
    · simp [copy] at hcopy
    · obtain rfl := Option.some.inj hsender
      exact happend _ ae hsent
  rw [hnetwork, List.count_append, List.count_eq_zero.mpr hnone, add_zero]

/-- The exchange goes on after a step in which the leader sends nothing, if it keeps the loop and
the next indices, only results of followers that have accepted are sent, and every follower has made
progress. -/
theorem Exchanging.of_step (h : Exchanging m leader base lead ae i remaining c)
    (hlead : lead.Leads) (hstep : Step m c a c')
    (hkept : (c.servers leader).Kept (c'.servers leader))
    (hthread : (c'.servers leader).heartbeatThreads[i]? = some (.sending remaining))
    (hindex : ∀ name ∈ m.names, name ≠ leader → 0 ≤ (c'.servers leader).nextIndexFor name ∧
      (c'.servers leader).nextIndexFor name ≤ lead.log.length ∧
      (name ∈ remaining → (c'.servers leader).nextIndexFor name = base.log.length))
    (happend : ∀ dst ae, (dst, .appendEntry ae) ∉ outputs leader ⟨c, a, c'⟩)
    (hresults : ∀ name dst aer, (dst, .appendEntryResult aer) ∈ outputs name ⟨c, a, c'⟩ →
      aer.success = true ∧ aer.followerName ∉ remaining)
    (hprogress : ∀ name ∈ m.names, name ≠ leader →
      Progress leader base lead ae remaining c' name) :
    Exchanging m leader base lead ae i remaining c' where
  toNormal := h.toNormal.step hstep (hlead.of_kept (h.kept.trans hkept))
  kept := h.kept.trans hkept
  thread := hthread
  nodup := h.nodup
  index := hindex
  copies e he hsender sent hmsg :=
    h.copies e (mem_of_append hstep happend he hsender hmsg) hsender sent hmsg
  results e he aer hmsg := by
    rcases hstep.mem_network_of_server he hmsg id with hold | ⟨name, -, hsent⟩
    · exact h.results e hold aer hmsg
    · exact hresults name e.dst aer (hmsg ▸ hsent)
  progress := hprogress

/-- A result that is not delivered is still in flight, and the leader keeps its next index. -/
theorem Answering.step {name : ByteString} (h : Answering leader lead c name)
    (hstep : Step m c a c')
    (hdelivered : ∀ e aer, a.delivered = some e → e.msg ≠ .appendEntryResult aer)
    (hmboxes : (c'.servers leader).mboxes = (c.servers leader).mboxes) :
    Answering leader lead c' name := by
  rcases h with ⟨e, he, aer, hmsg, hname⟩ | hindex
  · exact Or.inl ⟨e, hstep.mem_of_ne_delivered he fun h ↦ hdelivered e aer h hmsg, aer, hmsg, hname⟩
  · right
    rw [Server.nextIndexFor, hmboxes]
    exact hindex

/-- A follower that accepts the message of the round, which is no longer in flight, has come to the
end of it. -/
theorem Progress.of_accepts (hbatch : Server.Batch base lead ae) (hc : Coherent m c)
    (hstep : Step m c a c') {name : ByteString} {x : Stimulus}
    (heffect : (c.servers name).Effect x (c'.servers name) (outputs name ⟨c, a, c'⟩))
    (haccepts : (c.servers name).Accepts x ae) (hrole : (c.servers name).role = .follower)
    (hlog : (c.servers name).log = base.log) (hregister : (c.servers name).register = base.register)
    (hremaining : name ∉ remaining) (hnone : c'.network.count (copy leader ae name) = 0) :
    Progress leader base lead ae remaining c' name ∧
      ∀ dst aer, (dst, .appendEntryResult aer) ∈ outputs name ⟨c, a, c'⟩ →
        aer.success = true ∧ aer.followerName ∉ remaining := by
  obtain ⟨hfollowing, dst, hresults⟩ :=
    hbatch.following heffect haccepts hrole hlog hregister
  rw [hc.name_eq] at hresults
  have hsent := mem_results_iff.mp (hresults ▸ List.mem_singleton_self _)
  obtain ⟨e, he, -, hmsg⟩ := hstep.mem_of_mem_outputs hsent
  refine ⟨.accepted hremaining hnone hfollowing (Or.inl ⟨e, he, _, hmsg, rfl⟩),
    fun dst' aer haer ↦ ?_⟩
  have hmem := mem_results_iff.mpr haer
  rw [hresults, List.mem_singleton, Prod.mk.injEq] at hmem
  rw [hmem.2]
  exact ⟨rfl, hremaining⟩

/-- In the background a follower makes progress: it is kept, or it accepts the message that it is
handling. -/
theorem Exchanging.background_progress (h : Exchanging m leader base lead ae i remaining c)
    (hbatch : Server.Batch base lead ae) (hlead : lead.Leads) (hstep : Step m c a c')
    (ha : Background leader a) {name : ByteString} (hname : name ∈ m.names) (hne : name ≠ leader) :
    Progress leader base lead ae remaining c' name ∧
      ∀ dst aer, (dst, .appendEntryResult aer) ∈ outputs name ⟨c, a, c'⟩ →
        aer.success = true ∧ aer.followerName ∉ remaining := by
  obtain ⟨hmboxes, happend⟩ := leader_of_background hstep ha (hlead.of_kept h.kept)
  have hdelivered : a.delivered ≠ some (copy leader ae name) := fun he ↦ by
    simpa [copy] using ha.delivered he
  have hcount : c'.network.count (copy leader ae name) = c.network.count (copy leader ae name) :=
    (count_copy hstep happend name).trans (count_withdraw_of_ne hdelivered)
  have hkeep (hkept : (c.servers name).Kept (c'.servers name)) :
      Progress leader base lead ae remaining c' name := by
    refine (h.progress name hname hne).of_kept Iff.rfl hcount hkept fun hanswer ↦ ?_
    exact hanswer.step hstep (fun e aer he hmsg ↦ by simp [ha.delivered he] at hmsg) hmboxes
  rcases hstep.effect_cases name with ⟨hsame, hout⟩ | ⟨x, hx, heffect⟩
  · refine ⟨hkeep (hsame ▸ Server.Kept.refl _), fun dst aer haer ↦ ?_⟩
    simp [hout] at haer
  · rcases heffect.calm_cases (ha.calm hx).1 with ⟨hkept, hnone⟩ | ⟨sent, haccepts⟩
    · exact ⟨hkeep hkept, fun dst aer haer ↦ absurd haer (not_mem_of_results hnone)⟩
    · have hpending : (c.servers name).pending = some sent := by
        rcases haccepts with ⟨rfl, -⟩ | ⟨-, hagent⟩
        · simpa [Stimulus.Calm] using (ha.calm hx).1
        · rw [Server.pending, hagent]
      cases h.progress name hname hne with
      | unsent _ _ hwaiting => simp [hwaiting.pending] at hpending
      | sent _ _ hwaiting => simp [hwaiting.pending] at hpending
      | handling hremaining hnone hrole hhandling hlog hregister =>
        obtain rfl : ae = sent := Option.some.inj (hhandling.symm.trans hpending)
        exact Progress.of_accepts hbatch h.coherent hstep heffect haccepts hrole hlog hregister
          hremaining (hcount.trans hnone)
      | accepted _ _ hfollowing _ => simp [hfollowing.pending] at hpending

/-- The exchange goes on in the background. -/
theorem Exchanging.background (h : Exchanging m leader base lead ae i remaining c)
    (hbatch : Server.Batch base lead ae) (hlead : lead.Leads) (hstep : Step m c a c')
    (ha : Background leader a) (hloop : a ≠ .internal leader (.heartbeatStep i)) :
    Exchanging m leader base lead ae i remaining c' := by
  have hleads := hlead.of_kept h.kept
  obtain ⟨hmboxes, happend⟩ := leader_of_background hstep ha hleads
  obtain ⟨hkept, hnone⟩ :=
    kept_of_background hstep ha (Server.pending_of_idle hleads.idle)
  have hthread : (c'.servers leader).heartbeatThreads[i]? = some (.sending remaining) := by
    rcases hstep.act_cases leader with hsame | ⟨x, hx, -, hact⟩
    · rw [hsame, h.thread]
    · refine Server.heartbeatThread_kept hact ?_ ((ha.calm hx).2 rfl i) h.thread
      rintro rfl
      exact hloop (Action.eq_internal hx (by simp))
  have hfollower (name : ByteString) (hname : name ∈ m.names) (hne : name ≠ leader) :=
    h.background_progress hbatch hlead hstep ha hname hne
  refine h.of_step hlead hstep hkept hthread ?_ happend (fun name dst aer haer ↦ ?_)
    fun name hname hne ↦ (hfollower name hname hne).1
  · simp only [Server.nextIndexFor, hmboxes]
    exact h.index
  · by_cases hne : name = leader
    · subst hne
      exact absurd haer (not_mem_of_results hnone)
    · exact (hfollower name (hstep.of_mem_outputs haer).1 hne).2 dst aer haer

/-- A follower that gets its message makes progress: it accepts it, or begins to handle it. -/
theorem Exchanging.append_progress (h : Exchanging m leader base lead ae i remaining c)
    (hbatch : Server.Batch base lead ae) {name : ByteString}
    (hstep : Step m c (.deliver name (copy leader ae name)) c') (hne : name ≠ leader)
    (hcount : c'.network.count (copy leader ae name) =
      (c.network.erase (copy leader ae name)).count (copy leader ae name)) :
    Progress leader base lead ae remaining c' name ∧
      ∀ dst aer, (dst, .appendEntryResult aer) ∈
        outputs name ⟨c, .deliver name (copy leader ae name), c'⟩ →
        aer.success = true ∧ aer.followerName ∉ remaining := by
  obtain ⟨hname, -, hact, -⟩ := hstep.act rfl
  have heffect : (c.servers name).Effect (.handle (.appendEntry ae)) _ _ := Server.act_effect hact
  have hpos : 0 < c.network.count (copy leader ae name) :=
    List.count_pos_iff.mpr (step_effect hstep).of_deliver.1
  cases h.progress name hname hne with
  | unsent _ hnone _ => omega
  | handling _ hnone _ _ _ _ => omega
  | accepted _ hnone _ _ => omega
  | sent hremaining hone hwaiting =>
    have hnone : c'.network.count (copy leader ae name) = 0 := by
      rw [hcount, List.count_erase_self, hone]
    have hterm : (c.servers name).term ≤ ae.term := hbatch.term ▸ hwaiting.term_le
    rcases heffect.append_cases hwaiting.active hterm with
      ⟨hrole, haccepts⟩ | ⟨hrole, hpending, hlog, hregister, hresults⟩
    · exact Progress.of_accepts hbatch h.coherent hstep heffect haccepts hrole hwaiting.log
        hwaiting.register hremaining hnone
    · exact ⟨.handling hremaining hnone hrole hpending (hlog.trans hwaiting.log)
        (hregister.trans hwaiting.register),
        fun dst aer haer ↦ absurd haer (not_mem_of_results hresults)⟩

/-- The exchange goes on when a follower gets its message. -/
theorem Exchanging.append (h : Exchanging m leader base lead ae i remaining c)
    (hbatch : Server.Batch base lead ae) (hlead : lead.Leads) {receiver : ByteString}
    (hstep : Step m c (.deliver receiver e) c') (hne : receiver ≠ leader)
    (hsender : e.sender = some leader) {sent : AppendEntry} (hmsg : e.msg = .appendEntry sent) :
    Exchanging m leader base lead ae i remaining c' := by
  obtain ⟨-, -, -, hothers, -⟩ := hstep.act rfl
  obtain ⟨he, hdst⟩ := (step_effect hstep).of_deliver
  obtain ⟨name, -, -, rfl⟩ := h.copies e he hsender sent hmsg
  obtain rfl : name = receiver := Mbox.server.inj hdst
  have hsilent (other : ByteString) (hother : other ≠ name) := (hstep.of_ne_actor rfl hother).2
  have hleader := hothers leader hne.symm
  have happend (dst : Mbox) (ae' : AppendEntry) :
      (dst, .appendEntry ae') ∉ outputs leader ⟨c, .deliver name (copy leader ae name), c'⟩ := by
    rw [hsilent leader hne.symm]
    exact List.not_mem_nil
  have hcount (other : ByteString) : c'.network.count (copy leader ae other) =
      (c.network.erase (copy leader ae name)).count (copy leader ae other) :=
    count_copy hstep happend other
  have hreceived := h.append_progress hbatch hstep hne (hcount name)
  refine h.of_step hlead hstep (hleader ▸ Server.Kept.refl _) (hleader ▸ h.thread)
    (hleader ▸ h.index) happend (fun other dst aer haer ↦ ?_) fun other hother hne' ↦ ?_
  · by_cases hself : other = name
    · subst hself
      exact hreceived.2 dst aer haer
    · simp [hsilent other hself] at haer
  · by_cases hself : other = name
    · rw [hself]
      exact hreceived.1
    · have hcopy : copy leader ae other ≠ copy leader ae name := by simp [copy, hself]
      refine (h.progress other hother hne').of_kept Iff.rfl ?_ ?_ fun hanswer ↦ ?_
      · rw [hcount, List.count_erase_of_ne hcopy]
      · rw [hothers other hself]
        exact Server.Kept.refl _
      · refine hanswer.step hstep (fun e aer hdelivered hmsg ↦ ?_) (by rw [hleader])
        obtain rfl := Option.some.inj hdelivered
        simp [copy] at hmsg

/-- A result that is delivered has set the next index for its follower; any other one is still in
flight. -/
theorem Answering.result {name : ByteString} (h : Answering leader lead c name)
    (hstep : Step m c (.deliver leader e) c') {aer : AppendEntryResult}
    (hmsg : e.msg = .appendEntryResult aer)
    (hindex : (c'.servers leader).nextIndexFor name =
      if name = aer.followerName then (lead.log.length : ℤ)
      else (c.servers leader).nextIndexFor name) :
    Answering leader lead c' name := by
  unfold Answering
  rw [hindex]
  split_ifs with hself
  · exact Or.inr rfl
  · refine h.imp_left ?_
    rintro ⟨e', he', aer', hmsg', rfl⟩
    refine ⟨e', hstep.mem_of_ne_delivered he' fun hsame ↦ hself ?_, aer', hmsg', rfl⟩
    rw [Option.some.inj hsame, hmsg'] at hmsg
    exact congrArg AppendEntryResult.followerName (Msg.appendEntryResult.inj hmsg)

/-- The exchange goes on when the leader handles a result. -/
theorem Exchanging.result (h : Exchanging m leader base lead ae i remaining c)
    (hlead : lead.Leads) (hstep : Step m c (.deliver leader e) c') {aer : AppendEntryResult}
    (hmsg : e.msg = .appendEntryResult aer) :
    Exchanging m leader base lead ae i remaining c' := by
  obtain ⟨-, -, hact, hothers, -⟩ := hstep.act rfl
  obtain ⟨he, -⟩ := (step_effect hstep).of_deliver
  obtain ⟨hsuccess, hanswered⟩ := h.results e he aer hmsg
  have hleads := hlead.of_kept h.kept
  rw [hmsg] at hact
  obtain ⟨hkept, hcheck, hout⟩ := hleads.result (Server.act_effect hact)
  have hsilent (other : ByteString) : outputs other ⟨c, .deliver leader e, c'⟩ = [] := by
    by_cases hother : other = leader
    · rw [hother, hout]
    · exact (hstep.of_ne_actor rfl hother).2
  have hindex (name : ByteString) (hname : name ∈ m.names) (hne : name ≠ leader) :
      (c'.servers leader).nextIndexFor name =
        if name = aer.followerName then (lead.log.length : ℤ)
        else (c.servers leader).nextIndexFor name := by
    obtain ⟨hnonneg, hle, -⟩ := h.index name hname hne
    rw [hcheck]
    split_ifs with hself
    · subst hself
      rw [← h.kept.log] at hle ⊢
      exact Server.nextIndexFor_of_success hsuccess hnonneg hle
    · exact Server.nextIndexFor_of_ne hself
  have happend (dst : Mbox) (ae' : AppendEntry) :
      (dst, .appendEntry ae') ∉ outputs leader ⟨c, .deliver leader e, c'⟩ := by
    rw [hsilent]
    exact List.not_mem_nil
  have hthread : (c'.servers leader).heartbeatThreads[i]? = some (.sending remaining) :=
    Server.heartbeatThread_kept hact (by simp) (by simp) h.thread
  refine h.of_step hlead hstep hkept hthread (fun name hname hne ↦ ?_) happend
    (fun name dst aer haer ↦ ?_) fun name hname hne ↦ ?_
  · obtain ⟨hnonneg, hle, hremaining⟩ := h.index name hname hne
    rw [hindex name hname hne]
    split_ifs with hself
    · exact ⟨Nat.cast_nonneg _, le_rfl, fun hmem ↦ absurd (hself ▸ hmem) hanswered⟩
    · exact ⟨hnonneg, hle, hremaining⟩
  · simp [hsilent] at haer
  · have hdelivered : (Action.deliver leader e).delivered ≠ some (copy leader ae name) := by
      intro hcopy
      rw [Option.some.inj hcopy] at hmsg
      simp [copy] at hmsg
    refine (h.progress name hname hne).of_kept Iff.rfl ?_ ?_ fun hanswer ↦ ?_
    · exact (count_copy hstep happend name).trans (count_withdraw_of_ne hdelivered)
    · rw [hothers name hne]
      exact Server.Kept.refl _
    · exact hanswer.result hstep hmsg (hindex name hname hne)

/-- A send of the pass puts the message of the round into the mailbox of a follower, and passes over
the leader. -/
theorem Exchanging.network_of_send (h : Exchanging m leader base lead ae i remaining c)
    (hbatch : Server.Batch base lead ae) {peer : ByteString} {garbage : ℤ}
    (hstep : Step m c (.internal leader (.heartbeatSend i peer garbage)) c')
    (hpeer : peer ∈ remaining) :
    (peer = leader ∧ c'.network = c.network) ∨
      (peer ≠ leader ∧ peer ∈ m.names ∧ c'.network = c.network ++ [copy leader ae peer]) := by
  obtain ⟨-, -, hact, -, hnetwork⟩ := hstep.act rfl
  obtain ⟨-, -, -, -, hsend⟩ := Server.act_heartbeatSend hact
  have hname := h.coherent.name_eq leader
  unfold Server.sendHeartbeatTo at hsend
  split_ifs at hsend with hself
  · obtain ⟨mbox, hmbox, hout⟩ := send_eq_ok_iff.mp hsend
    obtain ⟨hmember, rfl⟩ := h.coherent.mailbox leader peer mbox hmbox
    rw [hname] at hself
    have hindex : ((c.servers leader).mboxes.get peer).nextIndex = base.log.length :=
      (h.index peer hmember hself).2.2 hpeer
    rw [hindex, h.kept.heartbeatFor_eq, hbatch.sent] at hout
    refine Or.inr ⟨hself, hmember, ?_⟩
    rw [hnetwork, hout]
    rfl
  · refine Or.inl ⟨(not_not.mp hself).trans hname, ?_⟩
    rw [hnetwork, ← Except.ok.inj hsend, List.map_nil, List.append_nil]
    rfl

/-- A send of the pass takes the peer that it reaches a step further, and leaves the other followers
where they are. -/
theorem Exchanging.send_progress (h : Exchanging m leader base lead ae i remaining c)
    (hbatch : Server.Batch base lead ae) {peer : ByteString} {garbage : ℤ}
    (hstep : Step m c (.internal leader (.heartbeatSend i peer garbage)) c')
    (hpeer : peer ∈ remaining) (hmboxes : (c'.servers leader).mboxes = (c.servers leader).mboxes)
    {name : ByteString} (hname : name ∈ m.names) (hne : name ≠ leader) :
    Progress leader base lead ae (remaining.erase peer) c' name := by
  obtain ⟨-, -, -, hothers, -⟩ := hstep.act rfl
  have hsame : c'.servers name = c.servers name := hothers name hne
  have hnetwork := h.network_of_send hbatch hstep hpeer
  by_cases hself : name = peer
  · subst hself
    obtain ⟨-, -, hnew⟩ := hnetwork.resolve_left fun h ↦ hne h.1
    cases h.progress name hname hne with
    | unsent _ hnone hwaiting =>
      refine .sent h.nodup.not_mem_erase ?_ (hsame ▸ hwaiting)
      rw [hnew, List.count_append, hnone, List.count_singleton_self]
    | sent hremaining => exact absurd hpeer hremaining
    | handling hremaining => exact absurd hpeer hremaining
    | accepted hremaining => exact absurd hpeer hremaining
  · refine (h.progress name hname hne).of_kept (List.mem_erase_of_ne hself) ?_
      (hsame ▸ Server.Kept.refl _) fun hanswer ↦ ?_
    · rcases hnetwork with ⟨-, hold⟩ | ⟨-, -, hnew⟩
      · rw [hold]
      · have hcopy : copy leader ae name ∉ [copy leader ae peer] := by simp [copy, hself]
        rw [hnew, List.count_append, List.count_eq_zero.mpr hcopy, add_zero]
    · exact hanswer.step hstep (by simp [Action.delivered]) hmboxes

/-- The exchange goes on with a send, after which the pass has one peer less to reach. -/
theorem Exchanging.send (h : Exchanging m leader base lead ae i remaining c)
    (hbatch : Server.Batch base lead ae) (hlead : lead.Leads) {peer : ByteString} {garbage : ℤ}
    (hstep : Step m c (.internal leader (.heartbeatSend i peer garbage)) c') :
    Exchanging m leader base lead ae i (remaining.erase peer) c' := by
  obtain ⟨-, -, hact, -⟩ := hstep.act rfl
  obtain ⟨remaining', hloop, hpeer, hserver, -⟩ := Server.act_heartbeatSend hact
  obtain rfl : remaining = remaining' :=
    HeartbeatLoop.sending.inj (Option.some.inj (h.thread.symm.trans hloop))
  have hkept : (c.servers leader).Kept (c'.servers leader) := by
    rw [hserver]
    exact Server.kept_loops ..
  have hmboxes : (c'.servers leader).mboxes = (c.servers leader).mboxes := by rw [hserver]
  have hnetwork := h.network_of_send hbatch hstep hpeer
  have hcases (e : Envelope) (he : e ∈ c'.network) :
      e ∈ c.network ∨ (peer ∈ m.names ∧ peer ≠ leader ∧ e = copy leader ae peer) := by
    rcases hnetwork with ⟨-, hsame⟩ | ⟨hne, hmember, hnew⟩
    · exact Or.inl (hsame ▸ he)
    · rw [hnew, List.mem_append, List.mem_singleton] at he
      exact he.imp_right fun hcopy ↦ ⟨hmember, hne, hcopy⟩
  refine ⟨h.toNormal.step hstep (hlead.of_kept (h.kept.trans hkept)), h.kept.trans hkept, ?_,
    h.nodup.erase peer, fun name hname hne ↦ ?_, fun e he hsender sent hmsg ↦ ?_,
    fun e he aer hmsg ↦ ?_, fun name hname hne ↦ ?_⟩
  · obtain ⟨hi, -⟩ := List.getElem?_eq_some_iff.mp hloop
    rw [hserver]
    exact List.getElem?_set_self hi
  · obtain ⟨hnonneg, hle, hremaining⟩ := h.index name hname hne
    rw [Server.nextIndexFor, hmboxes]
    exact ⟨hnonneg, hle, fun hmem ↦ hremaining (List.mem_of_mem_erase hmem)⟩
  · rcases hcases e he with hold | ⟨hmember, hne, rfl⟩
    · exact h.copies e hold hsender sent hmsg
    · exact ⟨peer, hmember, hne, rfl⟩
  · rcases hcases e he with hold | ⟨-, -, rfl⟩
    · obtain ⟨hsuccess, hanswered⟩ := h.results e hold aer hmsg
      exact ⟨hsuccess, mt List.mem_of_mem_erase hanswered⟩
    · simp [copy] at hmsg
  · exact h.send_progress hbatch hstep hpeer hmboxes hname hne

/-- The actions in the rest of a round keep the exchange going. -/
theorem Exchanging.step (h : Exchanging m leader base lead ae i remaining c)
    (hbatch : Server.Batch base lead ae) (hlead : lead.Leads) (ha : Exchange leader i a)
    (hstep : Step m c a c') : ∃ remaining, Exchanging m leader base lead ae i remaining c' := by
  cases ha with
  | send peer garbage => exact ⟨_, h.send hbatch hlead hstep⟩
  | append receiver e sent hne hsender hmsg =>
    exact ⟨_, h.append hbatch hlead hstep hne hsender hmsg⟩
  | result e aer hmsg => exact ⟨_, h.result hlead hstep hmsg⟩
  | background _ hbackground hloop => exact ⟨_, h.background hbatch hlead hstep hbackground hloop⟩

end Cluster

end RaftConsensus
