import RaftConsensus.Coherence

/-!
# Terms

Terms never go back (`term_mono`), and they bound what is stored and sent under them: every entry
of a log has a term at most that of its server, and every entry of an `AppendEntry` in flight a
term at most that of the message. The two bounds support each other, and are carried together as
`Cluster.EntryTerms`.

`Cluster.VoteTerms` follows a vote from the candidacy that asks for it back to the candidate. A
request names a candidate that has reached its term, so that a granted vote never carries a term
above the one its receiver has reached, and only servers that have been a candidate, and so have
reached term `1`, can be granted votes or become leader.
-/

set_option autoImplicit false
set_option relaxedAutoImplicit false

namespace RaftConsensus

open TransitionSystem

namespace Cluster

variable {m : Membership} {c c' start : Cluster} {a : Action} {trace : History}

/-! ### Terms never go back -/

/-- An accepted message is not stale. -/
theorem Coherent.term_le_of_accepts (h : Coherent m c) {name : ByteString} {x : Stimulus}
    {ae : AppendEntry} (haccepts : (c.servers name).Accepts x ae) :
    (c.servers name).term ≤ ae.term := by
  rcases haccepts with ⟨-, -, -, hterm⟩ | ⟨-, hagent⟩
  · exact hterm
  · exact h.pending name ae (by rw [Server.pending, hagent])

/-- No step lowers the term of a server. -/
theorem Coherent.term_le (h : Coherent m c) (hstep : Step m c a c') (name : ByteString) :
    (c.servers name).term ≤ (c'.servers name).term := by
  rcases (step_effect hstep).server name with hsame | ⟨x, out, -, -, heffect⟩
  · rw [hsame]
  · rcases heffect.term_cases with hterm | ⟨hterm, -⟩ | ⟨ae, haccepts, hterm, -⟩
    · rw [hterm]
    · omega
    · rw [hterm]
      exact h.term_le_of_accepts haccepts

/-- No run lowers the term of a server. -/
theorem Coherent.term_mono (h : Coherent m start) (hrun : Run m start trace c)
    (name : ByteString) : (start.servers name).term ≤ (c.servers name).term := by
  induction hrun with
  | nil => exact le_rfl
  | snoc hrest hstep ih => exact ih.trans ((h.run hrest).term_le hstep name)

/-! ### Entries -/

/-- Entries have terms at most that of the server that stores them and of the message that
carries them. -/
structure EntryTerms (c : Cluster) : Prop where
  log : ∀ name, ∀ el ∈ (c.servers name).log, el.1 ≤ (c.servers name).term
  message : ∀ ae, c.Carries ae → ∀ el ∈ ae.entries, el.1 ≤ ae.term

/-- The bounds on the entries hold when there are none. -/
theorem entryTerms_of_empty (hlog : ∀ name, (c.servers name).log = []) (hnetwork : c.network = [])
    (hpending : ∀ name, (c.servers name).pending = none) : EntryTerms c where
  log name el hel := by simp [hlog] at hel
  message ae h := by
    rcases h with ⟨e, he, -⟩ | ⟨name, h⟩
    · simp [hnetwork] at he
    · simp [hpending] at h

/-- Every step keeps the bounds on the entries. -/
theorem EntryTerms.step (h : EntryTerms c) (hc : Coherent m c) (hstep : Step m c a c') :
    EntryTerms c' where
  log name el hel := by
    have hmono := hc.term_le hstep name
    rcases (step_effect hstep).server name with hsame | ⟨x, out, -, havailable, heffect⟩
    · rw [hsame] at hel ⊢
      exact h.log name el hel
    · rcases heffect.log_cases with hlog | ⟨cmd, -, hlog, hterm⟩ | ⟨ae, haccepts, hlog, hterm⟩
      · rw [hlog] at hel
        exact (h.log name el hel).trans hmono
      · rw [hlog, List.mem_append, List.mem_singleton] at hel
        rcases hel with hold | rfl
        · exact (h.log name el hold).trans hmono
        · exact hterm.ge
      · rw [hlog, List.mem_append] at hel
        rcases hel with hold | hnew
        · exact (h.log name el hold).trans hmono
        · rw [hterm]
          exact h.message ae (carries_of_accepts havailable haccepts) el hnew
  message ae hcarries el hel := by
    rcases carries_cases hstep hcarries with hold | ⟨name, i, peer, garbage, -, -, rfl, -, -⟩
    · exact h.message ae hold el hel
    · rw [Server.heartbeatFor_term]
      exact h.log name el (Server.mem_log_of_mem_heartbeatFor hel)

/-! ### Votes -/

/-- Votes go to servers that have been candidates, with terms that these have reached. -/
structure VoteTerms (m : Membership) (c : Cluster) : Prop where
  nonneg : ∀ name, 0 ≤ (c.servers name).term
  thread : ∀ name, (c.servers name).requestVoteThreads ≠ [] → 1 ≤ (c.servers name).term
  request : ∀ e ∈ c.network, ∀ rv, e.msg = .requestVote rv → rv.voteGranted = false →
    rv.candidateId ∈ m.names →
      1 ≤ (c.servers rv.candidateId).term ∧ rv.term ≤ (c.servers rv.candidateId).term
  grant : ∀ e ∈ c.network, ∀ rv, e.msg = .requestVote rv → rv.voteGranted = true →
    ∃ name, e.dst = .server name ∧ 1 ≤ (c.servers name).term ∧ rv.term ≤ (c.servers name).term
  votes : ∀ name, 0 < (c.servers name).voteCnt → 1 ≤ (c.servers name).term
  leader : ∀ name, (c.servers name).role = .leader → 1 ≤ (c.servers name).term

/-- A vote that a server counts was granted for a term that it has reached. -/
theorem VoteTerms.of_counts (h : VoteTerms m c) {name : ByteString} {x : Stimulus}
    {rv : RequestVote} (havailable : c.Available name x) (hcounts : (c.servers name).Counts x rv) :
    1 ≤ (c.servers name).term ∧ rv.term ≤ (c.servers name).term := by
  obtain ⟨rfl, -, -, hgranted⟩ := hcounts
  obtain ⟨e, he, hdst, hmsg⟩ := havailable _ rfl
  obtain ⟨receiver, hreceiver, hterm⟩ := h.grant e he rv hmsg hgranted
  obtain rfl := Mbox.server.inj (hdst.symm.trans hreceiver)
  exact hterm

/-- Where a request in flight comes from: the candidate it names has sent it. -/
theorem VoteTerms.request_step (h : VoteTerms m c) (hc : Coherent m c) (hstep : Step m c a c')
    {e : Envelope} (he : e ∈ c'.network) {rv : RequestVote} (hmsg : e.msg = .requestVote rv)
    (hrequest : rv.voteGranted = false) (hmember : rv.candidateId ∈ m.names) :
    1 ≤ (c.servers rv.candidateId).term ∧ rv.term ≤ (c.servers rv.candidateId).term := by
  rcases (step_effect hstep).network_of_server he hmsg id with
      hold | ⟨name, x, out, -, -, heffect, hsent, -⟩
  · exact h.request e hold rv hmsg hrequest hmember
  · rw [hmsg] at hsent
    rcases heffect.requestVote_sent hsent with ⟨_, -, -, -, -, -, rfl⟩ | ⟨hthreads, -, rfl⟩
    · exact absurd hmember m.nonempty
    · simp only [Server.voteRequest, RequestVote.request, hc.name_eq]
      exact ⟨h.thread name hthreads, le_rfl⟩

/-- Where a granted vote in flight comes from: it answers a request of its receiver. -/
theorem VoteTerms.grant_step (h : VoteTerms m c) (hc : Coherent m c) (hstep : Step m c a c')
    {e : Envelope} (he : e ∈ c'.network) {rv : RequestVote} (hmsg : e.msg = .requestVote rv)
    (hgranted : rv.voteGranted = true) :
    ∃ name, e.dst = .server name ∧ 1 ≤ (c.servers name).term ∧
      rv.term ≤ (c.servers name).term := by
  rcases (step_effect hstep).network_of_server he hmsg id with
      hold | ⟨name, x, out, -, havailable, heffect, hsent, -⟩
  · exact h.grant e hold rv hmsg hgranted
  · rw [hmsg] at hsent
    rcases heffect.requestVote_sent hsent with ⟨request, rfl, -, -, hask, hmbox, rfl⟩ | ⟨-, -, rfl⟩
    · obtain ⟨asking, hasking, -, haskmsg⟩ := havailable _ rfl
      obtain ⟨hmember, hdst⟩ := hc.mailbox _ _ _ hmbox
      obtain ⟨hone, hterm⟩ := h.request asking hasking request haskmsg hask hmember
      have hvoter : (c.servers name).term ≤ request.term := by
        simpa [RequestVote.answer] using hgranted
      exact ⟨request.candidateId, hdst, hone, hvoter.trans hterm⟩
    · simp [Server.voteRequest, RequestVote.request] at hgranted

/-- Every step keeps the terms of votes in order. -/
theorem VoteTerms.step (h : VoteTerms m c) (hc : Coherent m c) (hstep : Step m c a c') :
    VoteTerms m c' where
  nonneg name := (h.nonneg name).trans (hc.term_le hstep name)
  thread name hthreads := by
    have hmono := hc.term_le hstep name
    rcases (step_effect hstep).server name with hsame | ⟨x, out, -, -, heffect⟩
    · rw [hsame] at hthreads ⊢
      exact h.thread name hthreads
    · rcases heffect.requestVoteThreads hthreads with hold | hcandidate
      · exact (h.thread name hold).trans hmono
      · have hnonneg := h.nonneg name
        omega
  request e he rv hmsg hrequest hmember := by
    obtain ⟨hone, hterm⟩ := h.request_step hc hstep he hmsg hrequest hmember
    have hmono := hc.term_le hstep rv.candidateId
    exact ⟨hone.trans hmono, hterm.trans hmono⟩
  grant e he rv hmsg hgranted := by
    obtain ⟨name, hdst, hone, hterm⟩ := h.grant_step hc hstep he hmsg hgranted
    have hmono := hc.term_le hstep name
    exact ⟨name, hdst, hone.trans hmono, hterm.trans hmono⟩
  votes name hvotes := by
    rcases (step_effect hstep).server name with hsame | ⟨x, out, -, havailable, heffect⟩
    · rw [hsame] at hvotes ⊢
      exact h.votes name hvotes
    · rcases heffect.voteCnt_cases with hzero | ⟨hterm, hsame⟩ | ⟨hterm, rv, hcounts, -⟩
      · omega
      · rw [hterm]
        exact h.votes name (hsame ▸ hvotes)
      · rw [hterm]
        exact (h.of_counts havailable hcounts).1
  leader name hleader := by
    have hmono := hc.term_le hstep name
    rcases (step_effect hstep).server name with hsame | ⟨x, out, -, havailable, heffect⟩
    · rw [hsame] at hleader ⊢
      exact h.leader name hleader
    · rcases heffect.leader_cases hleader with hold | ⟨hterm, hvotes | ⟨rv, hcounts, -⟩⟩
      · exact (h.leader name hold).trans hmono
      · rw [hterm]
        exact h.votes name (Nat.zero_lt_of_lt hvotes)
      · rw [hterm]
        exact (h.of_counts havailable hcounts).1

/-! ### Runs -/

/-- The facts about terms that every state of a run keeps. -/
structure TermDiscipline (m : Membership) (c : Cluster) : Prop where
  coherent : Coherent m c
  entries : EntryTerms c
  votes : VoteTerms m c

/-- Every step keeps the discipline of terms. -/
theorem TermDiscipline.step (h : TermDiscipline m c) (hstep : Step m c a c') :
    TermDiscipline m c' :=
  ⟨h.coherent.step hstep, h.entries.step h.coherent hstep, h.votes.step h.coherent hstep⟩

/-- The discipline of terms holds in the cluster as it is constructed. -/
theorem termDiscipline_initial : TermDiscipline m initial where
  coherent := coherent_initial
  entries := entryTerms_of_empty (fun _ ↦ rfl) rfl (fun _ ↦ rfl)
  votes := by constructor <;> simp [initial, Server.initial]

/-- Every state of a run keeps the discipline of terms. -/
theorem TermDiscipline.run (h : TermDiscipline m start) (hrun : Run m start trace c) :
    TermDiscipline m c :=
  TransitionSystem.Run.invariant h (fun _ _ _ hc hstep ↦ hc.step hstep) hrun

end Cluster

/-- Terms never go back in a run, and in every state it reaches the entries of every log have
terms at most the term of the server, those of every `AppendEntry` in flight at most the term of
the message, and every granted vote in flight carries a term that its receiver has reached, as long
as no term overflows its `int`. -/
theorem term_discipline {m : Membership} {trace : Cluster.History} {c : Cluster}
    (hrun : Cluster.Run m .initial trace c) :
    (∀ x ∈ trace, ∀ name, (x.source.servers name).term ≤ (x.target.servers name).term) ∧
      (∀ name, ∀ el ∈ (c.servers name).log, el.1 ≤ (c.servers name).term) ∧
      (∀ e ∈ c.network, ∀ ae, e.msg = .appendEntry ae → ∀ el ∈ ae.entries, el.1 ≤ ae.term) ∧
      (∀ e ∈ c.network, ∀ rv name, e.msg = .requestVote rv → rv.voteGranted = true →
        e.dst = .server name → rv.term ≤ (c.servers name).term) := by
  have hdiscipline := Cluster.termDiscipline_initial.run hrun
  refine ⟨fun x hx name ↦ ?_, hdiscipline.entries.log, fun e he ae hmsg ↦
    hdiscipline.entries.message ae (Or.inl ⟨e, he, hmsg⟩), fun e he rv name hmsg hgranted hdst ↦ ?_⟩
  · obtain ⟨before, after, rfl, hbefore, hstep, -⟩ := hrun.cut_of_mem hx
    exact (Cluster.coherent_initial.run hbefore).term_le hstep name
  · obtain ⟨receiver, hreceiver, -, hterm⟩ := hdiscipline.votes.grant e he rv hmsg hgranted
    obtain rfl := Mbox.server.inj (hdst.symm.trans hreceiver)
    exact hterm

/-- The terms of a server that has accepted the command of a leader. -/
theorem term_discipline_replication :
    let c := finalState (Cluster.next Schedule.trio) .initial Schedule.replication
    (1, bytes "ADD;5") ∈ (c.servers (bytes "server2")).log ∧
      1 ≤ (c.servers (bytes "server2")).term := by
  intro c
  have hlog : (1, bytes "ADD;5") ∈ (c.servers (bytes "server2")).log := by decide
  exact ⟨hlog, (term_discipline (run_of_isOk (by decide))).2.1 _ _ hlog⟩

end RaftConsensus
