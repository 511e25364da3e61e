import Mathlib.Data.Int.Interval
import RaftConsensus.Events
import RaftConsensus.LogRoundTrip
import RaftConsensus.RegisterReplay
import RaftConsensus.TermDiscipline

/-!
# Where terms come from

The only step that makes a term is a candidacy: a follower whose time limit expires adds one to its
own. All other terms are copied. So no term is skipped: when a term occurs anywhere, in a server, an
entry or a message, there has been a candidacy in it and in every term below it
(`terms_from_candidacies`), and the largest term is at most the number of candidacies. `m_term` is
an `int`, and it takes as many candidacies as there are positive values to overflow it.

Until then the file of a server holds what it needs to be restored: it is read back to the log of
the server exactly when no command has a newline, and replaying what is read yields its register
(`recovers_iff`).
-/

set_option autoImplicit false
set_option relaxedAutoImplicit false

namespace RaftConsensus

open TransitionSystem

/-- The term that a message carries. -/
def Msg.term : Msg → Option ℤ
  | .requestVote rv => some rv.term
  | .appendEntry ae => some ae.term
  | .appendEntryResult aer => some aer.term
  | .setCluster _ | .deactivate | .changeState | .clientRequest _ | .serverResponse _ => none

namespace Server

variable {s s' : Server} {x : Stimulus} {out : List Output} {dst : Mbox} {msg : Msg}

/-- The term of the candidacy that an expired time limit begins. -/
def candidacy (s : Server) : Stimulus → Option ℤ
  | .timeLimit =>
    if s.agent = .idle ∧ s.role = .follower ∧ s.followerLimit = true then some (s.term + 1)
    else none
  | _ => none

/-- A term stays as it is, is that of a candidacy that begins, or that of an accepted message. -/
theorem Effect.term_origin (h : s.Effect x s' out) :
    s'.term = s.term ∨ s.candidacy x = some s'.term ∨ ∃ ae, s.Accepts x ae ∧ s'.term = ae.term := by
  cases h
  case electionTimeout hidle hrole hlimit =>
    exact Or.inr (Or.inl (if_pos ⟨hidle, hrole, hlimit⟩))
  case accept ae _ _ hidle hrole hterm _ _ =>
    exact Or.inr (Or.inr ⟨ae, Or.inl ⟨rfl, hidle, hrole, hterm⟩, rfl⟩)
  case enterAccept ae _ _ hagent _ _ => exact Or.inr (Or.inr ⟨ae, Or.inr ⟨rfl, hagent⟩, rfl⟩)
  case countVote | answerVote => exact Or.inl tally_term
  all_goals exact Or.inl rfl

/-- A message carries the term of its sender, before the step or after it. -/
theorem Effect.term_sent (h : s.Effect x s' out) (hsent : (dst, msg) ∈ out) {t : ℤ}
    (ht : msg.term = some t) : t = s.term ∨ t = s'.term := by
  cases h
  case accept ae mbox register _ _ _ _ _ =>
    obtain ⟨-, rfl⟩ := Prod.mk.inj (List.mem_singleton.mp hsent)
    exact Or.inr (Option.some.inj ht).symm
  case enterAccept ae mbox register _ _ _ =>
    rcases List.mem_pair.mp hsent with hentered | hresult
    · obtain ⟨-, rfl⟩ := Prod.mk.inj hentered
      cases ht
    · obtain ⟨-, rfl⟩ := Prod.mk.inj hresult
      exact Or.inr (Option.some.inj ht).symm
  case voteRequest =>
    obtain ⟨-, rfl⟩ := Prod.mk.inj (List.mem_singleton.mp hsent)
    exact Or.inl (Option.some.inj ht).symm
  all_goals
    left
    simp_all [Msg.term, RequestVote.answer]

end Server

namespace Cluster

variable {m : Membership} {c c' : Cluster} {a : Action} {trace before : History} {k t : ℤ}

/-! ### Candidacies -/

/-- The terms of the candidacies that have begun, in order. -/
def candidacyTerms (history : History) : List ℤ :=
  history.filterMap fun x ↦ (observe Server.candidacy x).map Prod.snd

theorem candidacyTerms_subset (later : History) :
    candidacyTerms before ⊆ candidacyTerms (before ++ later) := by
  rw [candidacyTerms, candidacyTerms, List.filterMap_append]
  exact List.subset_append_left _ _

/-- A term is not negative, and there has been a candidacy in it and in every positive term below
it. -/
def Reached (history : History) (t : ℤ) : Prop :=
  0 ≤ t ∧ ∀ k, 1 ≤ k → k ≤ t → k ∈ candidacyTerms history

theorem Reached.mono (h : Reached before t) (later : History) : Reached (before ++ later) t :=
  ⟨h.1, fun k hk hkt ↦ candidacyTerms_subset later (h.2 k hk hkt)⟩

/-- A candidacy in the next term reaches it. -/
theorem Reached.succ {x : Transition Cluster Action} {name : ByteString} (h : Reached before t)
    (hx : observe Server.candidacy x = some (name, t + 1)) : Reached (before ++ [x]) (t + 1) := by
  refine ⟨by linarith [h.1], fun k hk hkt ↦ ?_⟩
  rcases (show k ≤ t ∨ k = t + 1 by omega) with hold | rfl
  · exact candidacyTerms_subset _ (h.2 k hk hold)
  · rw [candidacyTerms, List.filterMap_append]
    refine List.mem_append_right _ (List.mem_filterMap.mpr ⟨x, List.mem_singleton_self x, ?_⟩)
    rw [hx]
    rfl

/-- A term that is reached is at most the number of candidacies. -/
theorem Reached.le_length (h : Reached trace t) : t ≤ (candidacyTerms trace).length := by
  have hsub : Finset.Icc 1 t ⊆ (candidacyTerms trace).toFinset := by
    intro k hk
    obtain ⟨hone, hle⟩ := Finset.mem_Icc.mp hk
    exact List.mem_toFinset.mpr (h.2 k hone hle)
  have hcard := (Finset.card_le_card hsub).trans (List.toFinset_card_le _)
  rw [Int.card_Icc] at hcard
  omega

/-! ### The terms of a run -/

/-- Every term that occurs has been reached. -/
structure Founded (history : History) (c : Cluster) : Prop where
  server : ∀ name, Reached history (c.servers name).term
  log : ∀ name, ∀ el ∈ (c.servers name).log, Reached history el.1
  message : ∀ e ∈ c.network, ∀ t, e.msg.term = some t → Reached history t
  payload : ∀ ae, c.Carries ae → Reached history ae.term ∧ ∀ el ∈ ae.entries, Reached history el.1

/-- As the cluster is constructed, only the term `0` occurs. -/
theorem founded_initial : Founded [] initial where
  server name := ⟨le_rfl, fun k hk hkt ↦ absurd (hk.trans hkt) (by simp [initial, Server.initial])⟩
  log name el hel := by simp [initial, Server.initial] at hel
  message e he := by simp [initial] at he
  payload ae h := by
    rcases h with ⟨e, he, -⟩ | ⟨name, h⟩
    · simp [initial] at he
    · simp [initial, Server.initial, Server.pending] at h

/-- The term of a server after a step has been reached. -/
theorem Founded.server_step (h : Founded before c) (hstep : Step m c a c') (name : ByteString) :
    Reached (before ++ [⟨c, a, c'⟩]) (c'.servers name).term := by
  rcases (step_effect hstep).server name with hsame | ⟨x, out, hx, havailable, heffect⟩
  · rw [hsame]
    exact (h.server name).mono _
  · rcases heffect.term_origin with hterm | hcandidacy | ⟨ae, haccepts, hterm⟩
    · rw [hterm]
      exact (h.server name).mono _
    · have hnext : (c'.servers name).term = (c.servers name).term + 1 := by
        unfold Server.candidacy at hcandidacy
        split at hcandidacy
        · split_ifs at hcandidacy
          exact (Option.some.inj hcandidacy).symm
        · cases hcandidacy
      rw [hnext] at hcandidacy ⊢
      exact (h.server name).succ (observe_eq_some hx hcandidacy)
    · rw [hterm]
      exact (h.payload ae (carries_of_accepts havailable haccepts)).1.mono _

/-- Every step keeps the terms reached. -/
theorem Founded.step (h : Founded before c) (hstep : Step m c a c') :
    Founded (before ++ [⟨c, a, c'⟩]) c' where
  server := h.server_step hstep
  log name el hel := by
    rcases (step_effect hstep).server name with hsame | ⟨x, out, -, havailable, heffect⟩
    · exact (h.log name el (hsame ▸ hel)).mono _
    · rcases heffect.log_cases with hlog | ⟨cmd, -, hlog, -⟩ | ⟨ae, haccepts, hlog, -⟩
      · exact (h.log name el (hlog ▸ hel)).mono _
      · rw [hlog, List.mem_append, List.mem_singleton] at hel
        rcases hel with hold | rfl
        · exact (h.log name el hold).mono _
        · exact (h.server name).mono _
      · rw [hlog, List.mem_append] at hel
        rcases hel with hold | hnew
        · exact (h.log name el hold).mono _
        · exact ((h.payload ae (carries_of_accepts havailable haccepts)).2 el hnew).mono _
  message e he t ht := by
    have hserver : ¬ m.Postable e.msg := by
      intro hpostable
      cases hmsg : e.msg <;> rw [hmsg] at hpostable ht <;> cases ht <;> exact hpostable
    rcases (step_effect hstep).network_of_server he rfl hserver with
        hold | ⟨name, x, out, -, -, heffect, hsent, -⟩
    · exact (h.message e hold t ht).mono _
    · rcases heffect.term_sent hsent ht with rfl | rfl
      · exact (h.server name).mono _
      · exact h.server_step hstep name
  payload ae hcarries := by
    rcases carries_cases hstep hcarries with hold | ⟨name, i, peer, garbage, -, -, rfl, -, -⟩
    · obtain ⟨hterm, hentries⟩ := h.payload ae hold
      exact ⟨hterm.mono _, fun el hel ↦ (hentries el hel).mono _⟩
    · rw [Server.heartbeatFor_term]
      exact ⟨(h.server name).mono _, fun el hel ↦
        (h.log name el (Server.mem_log_of_mem_heartbeatFor hel)).mono _⟩

/-- In every state of a run the terms that occur have been reached. -/
theorem founded_run (hrun : Run m initial trace c) : Founded trace c := by
  induction hrun with
  | nil => exact founded_initial
  | snoc _ hstep ih => exact ih.step hstep

/-- A term occurs in a cluster: it is the term of a server, of an entry of a log, of a message in
flight, or of an entry that an `AppendEntry` carries. -/
def Occurs (c : Cluster) (t : ℤ) : Prop :=
  (∃ name, (c.servers name).term = t) ∨ (∃ name, ∃ el ∈ (c.servers name).log, el.1 = t) ∨
    (∃ e ∈ c.network, e.msg.term = some t) ∨ ∃ ae, c.Carries ae ∧ ∃ el ∈ ae.entries, el.1 = t

end Cluster

/-- A term that occurs in a run is at most the number of candidacies that have begun, and there has
been one in it and in every positive term below it. -/
theorem terms_from_candidacies {m : Membership} {trace : Cluster.History} {c : Cluster}
    (hrun : Cluster.Run m .initial trace c) {t : ℤ} (ht : c.Occurs t) :
    0 ≤ t ∧ t ≤ (Cluster.candidacyTerms trace).length ∧
      ∀ k, 1 ≤ k → k ≤ t → k ∈ Cluster.candidacyTerms trace := by
  have hfounded := Cluster.founded_run hrun
  have hreached : Cluster.Reached trace t := by
    rcases ht with ⟨name, rfl⟩ | ⟨name, el, hel, rfl⟩ | ⟨e, he, hterm⟩ | ⟨ae, hae, el, hel, rfl⟩
    · exact hfounded.server name
    · exact hfounded.log name el hel
    · exact hfounded.message e he t hterm
    · exact (hfounded.payload ae hae).2 el hel
  exact ⟨hreached.1, hreached.le_length, hreached.2⟩

/-- The terms of a server that has accepted the command of a leader, after one candidacy. -/
theorem terms_from_candidacies_replication :
    let c := finalState (Cluster.next Schedule.trio) .initial Schedule.replication
    let trace := history (Cluster.next Schedule.trio) .initial Schedule.replication
    Cluster.candidacyTerms trace = [1] ∧ (c.servers (bytes "server2")).term ≤ 1 := by
  intro c trace
  have hterms : Cluster.candidacyTerms trace = [1] := by decide
  have hrun : Cluster.Run Schedule.trio .initial trace c := run_of_isOk (by decide)
  obtain ⟨-, hle, -⟩ := terms_from_candidacies hrun (Or.inl ⟨bytes "server2", rfl⟩)
  rw [hterms] at hle
  exact ⟨hterms, hle⟩

/-! ### Restoring a server from its file -/

/-- What is read from the file of a server is its log, and its commands yield the register. -/
def Server.Restores (s : Server) : Prop :=
  ∃ log, readLogFrom s.file = .ok log ∧ log = s.log ∧ Calc.replay log = .ok s.register

/-- A server whose terms are `int`s and whose commands have no newline is restored from its file. -/
theorem Cluster.restores {m : Membership} {trace : History} {c : Cluster}
    (hrun : Run m initial trace c) {name : ByteString}
    (hlines : ∀ el ∈ (c.servers name).log, InInt el.1 ∧ 10 ∉ el.2) :
    (c.servers name).Restores := by
  refine ⟨_, ?_, rfl, replay_run hrun name⟩
  have hmirrors : (c.servers name).FileMirrorsLog :=
    server_invariant (fun _ ↦ Or.inl ⟨rfl, rfl⟩)
      (fun _ _ _ _ hs heffect ↦ heffect.fileMirrorsLog hs) hrun name
  rcases hmirrors with ⟨hfile, hlog⟩ | hfile
  · rw [hfile, hlog]
    rfl
  · rw [hfile, ← writeLogTo_eq_lines]
    exact readLogFrom_writeLogTo hlines

/-- As long as there have been fewer candidacies than `m_term` has positive values and one, a server
is restored from its file, which no other server writes, exactly when no command of its log has a
newline. -/
theorem recovers_iff {m : Membership} {trace : Cluster.History} {c : Cluster}
    (hrun : Cluster.Run m .initial trace c)
    (hfew : (Cluster.candidacyTerms trace).length < 2 ^ 31) (name : ByteString) :
    (c.servers name).Restores ↔ ∀ el ∈ (c.servers name).log, 10 ∉ el.2 := by
  have hterms : ∀ el ∈ (c.servers name).log, InInt el.1 := by
    intro el hel
    have hreached := (Cluster.founded_run hrun).log name el hel
    have hle := hreached.le_length
    have hnonneg := hreached.1
    constructor <;> omega
  constructor
  · rintro ⟨log, hread, rfl, -⟩ el hel
    exact (of_readLogFrom hread el hel).2
  · exact fun hlines ↦ Cluster.restores hrun fun el hel ↦ ⟨hterms el hel, hlines el hel⟩

/-- A follower of three servers is restored from its file with the entry that it has accepted. -/
theorem recovers_iff_replication :
    let c := finalState (Cluster.next Schedule.trio) .initial Schedule.replication
    (c.servers (bytes "server2")).log = [(1, bytes "ADD;5")] ∧
      (c.servers (bytes "server2")).Restores := by
  intro c
  have hlog : (c.servers (bytes "server2")).log = [(1, bytes "ADD;5")] := by decide
  refine ⟨hlog, (recovers_iff (run_of_isOk (by decide)) (by decide) _).mpr ?_⟩
  rw [hlog]
  decide

end RaftConsensus
