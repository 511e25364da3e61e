import Mathlib.Logic.Relation
import RaftConsensus.Exchange

/-!
# Normal-case replication

The servers of a cluster have the log and the register of a leader, and its next index for each of
them is the size of the log. A round then brings all of them to the log and the register that the
leader has after the requests of its clients, and the next indices to the size of the new log. So it
can be followed by another round, and `normal_case` is an induction over any sequence of rounds.
-/

set_option autoImplicit false
set_option relaxedAutoImplicit false

namespace RaftConsensus

open TransitionSystem

namespace Cluster

variable {m : Membership} {leader : ByteString} {c c' : Cluster} {a : Action} {e : Envelope}
  {base lead : Server} {ae : AppendEntry} {i : ℕ} {remaining : List ByteString}

/-! ### Requests -/

/-- The servers are in sync with a leader that has a nonempty log. They know the mailboxes of all
members, and no message of a round is on its way. Every other server has the log and the register of
the leader and is able to accept its messages, and the next index for it is the size of the log. -/
structure InSync (m : Membership) (leader : ByteString) (c : Cluster) : Prop extends
    Normal m leader c where
  nonempty : (c.servers leader).log ≠ []
  waiting : ∀ name ∈ m.names, name ≠ leader →
    (c.servers name).Waiting (c.servers leader) (c.servers leader).term
  index : ∀ name ∈ m.names, name ≠ leader →
    (c.servers leader).nextIndexFor name = (c.servers leader).log.length
  quiet : Quiet m leader c

/-- What holds while the leader handles requests: its log and register extend those of `base`, which
the other servers have. -/
structure Prepared (m : Membership) (leader : ByteString) (base : Server) (c : Cluster) : Prop
    extends Normal m leader c where
  log : ∃ entries, (c.servers leader).log = base.log ++ entries ∧
    base.register.parseAll (entries.map Prod.snd) = .ok (c.servers leader).register
  waiting : ∀ name ∈ m.names, name ≠ leader →
    (c.servers name).Waiting base (c.servers leader).term
  index : ∀ name ∈ m.names, name ≠ leader →
    (c.servers leader).nextIndexFor name = base.log.length
  quiet : Quiet m leader c

theorem InSync.prepared (h : InSync m leader c) : Prepared m leader (c.servers leader) c where
  toNormal := h.toNormal
  log := ⟨[], (List.append_nil _).symm, rfl⟩
  waiting := h.waiting
  index := h.index
  quiet := h.quiet

/-- An action that delivers no message of a round leaves the cluster quiet when no server sends a
result and the leader no `AppendEntry`. -/
theorem Quiet.step (h : Quiet m leader c) (hstep : Step m c a c')
    (happend : ∀ dst ae, (dst, .appendEntry ae) ∉ outputs leader ⟨c, a, c'⟩)
    (hresult : ∀ name ∈ m.names, results (outputs name ⟨c, a, c'⟩) = [])
    (hpending : ∀ name ∈ m.names, (c'.servers name).pending = none) : Quiet m leader c' where
  append e he hsender ae hmsg :=
    h.append e (mem_of_append hstep happend he hsender hmsg) hsender ae hmsg
  result e he aer hmsg := by
    rcases hstep.mem_network_of_server he hmsg id with hold | ⟨name, -, hsent⟩
    · exact h.result e hold aer hmsg
    · have hname := (hstep.of_mem_outputs hsent).1
      exact not_mem_of_results (hresult name hname) (hmsg ▸ hsent)
  pending := hpending

/-- A leader that handles a request extends its log and register, and keeps its map and term. -/
theorem leader_of_request (hstep : Step m c (.deliver leader e) c') {cr : ClientRequest}
    (hmsg : e.msg = .clientRequest cr) (hleads : (c.servers leader).Leads) :
    (c'.servers leader).Leads ∧ (c'.servers leader).term = (c.servers leader).term ∧
      (c'.servers leader).mboxes = (c.servers leader).mboxes ∧
      (∃ entries, (c'.servers leader).log = (c.servers leader).log ++ entries ∧
        (c.servers leader).register.parseAll (entries.map Prod.snd) =
          .ok (c'.servers leader).register) ∧
      results (outputs leader ⟨c, .deliver leader e, c'⟩) = [] ∧
      ∀ dst ae, (dst, .appendEntry ae) ∉ outputs leader ⟨c, .deliver leader e, c'⟩ := by
  obtain ⟨-, -, hact, -⟩ := hstep.act rfl
  have heffect := Server.act_effect hact
  rw [hmsg] at heffect
  obtain ⟨hleads', hterm, hmboxes, hresults⟩ := hleads.request heffect
  refine ⟨hleads', hterm, hmboxes, heffect.log_append, hresults, fun dst ae hae ↦ ?_⟩
  obtain ⟨_, _, _, hx, -⟩ := heffect.appendEntry_sent hae
  simp at hx

/-- The actions at the beginning of a round keep the servers prepared. -/
theorem Prepared.step (h : Prepared m leader base c) (ha : Asking leader a)
    (hstep : Step m c a c') : Prepared m leader base c' := by
  obtain ⟨entries, hlog, hparse⟩ := h.log
  cases ha with
  | request e cr hmsg =>
    obtain ⟨hleads, hterm, hmboxes, ⟨added, hlog', hparse'⟩, hresults, happend⟩ :=
      leader_of_request hstep hmsg h.leads
    have hother (name : ByteString) (hne : name ≠ leader) := hstep.of_ne_actor rfl hne
    refine ⟨h.toNormal.step hstep hleads, ⟨entries ++ added, ?_, ?_⟩, fun name hname hne ↦ ?_,
      fun name hname hne ↦ ?_, h.quiet.step hstep happend (fun name hname ↦ ?_) fun name hname ↦ ?_⟩
    · rw [hlog', hlog, List.append_assoc]
    · rw [List.map_append, Calc.parseAll_append, hparse]
      exact hparse'
    · rw [(hother name hne).1, hterm]
      exact h.waiting name hname hne
    · rw [Server.nextIndexFor, hmboxes]
      exact h.index name hname hne
    · by_cases hne : name = leader
      · rw [hne, hresults]
      · rw [(hother name hne).2]
        rfl
    · by_cases hne : name = leader
      · rw [hne, Server.pending_of_idle hleads.idle]
      · rw [(hother name hne).1]
        exact h.quiet.pending name hname
  | background _ hbackground =>
    have hkept (name : ByteString) (hname : name ∈ m.names) :=
      kept_of_background hstep hbackground (h.quiet.pending name hname)
    obtain ⟨hmboxes, happend⟩ := leader_of_background hstep hbackground h.leads
    have hlead := (hkept leader h.member).1
    refine ⟨h.toNormal.step hstep (h.leads.of_kept hlead), ⟨entries, ?_, ?_⟩,
      fun name hname hne ↦ ?_, fun name hname hne ↦ ?_,
      h.quiet.step hstep happend (fun name hname ↦ (hkept name hname).2) fun name hname ↦ ?_⟩
    · rw [hlead.log, hlog]
    · rw [hlead.register, hparse]
    · rw [hlead.term]
      exact (h.waiting name hname hne).of_kept (hkept name hname).1
    · rw [Server.nextIndexFor, hmboxes]
      exact h.index name hname hne
    · rw [(hkept name hname).1.pending, h.quiet.pending name hname]

/-! ### Whole rounds -/

/-- The exchange begins with a pass over the whole map. -/
theorem Prepared.exchanging (h : Prepared m leader base c) (hbase : base.log ≠ [])
    (hthread : (c.servers leader).heartbeatThreads[i]? = some .test)
    (hstep : Step m c (.internal leader (.heartbeatStep i)) c') :
    ∃ ae, Server.Batch base (c.servers leader) ae ∧
      Exchanging m leader base (c.servers leader) ae i (c.servers leader).mboxes.keys c' := by
  obtain ⟨entries, hlog, hparse⟩ := h.log
  obtain ⟨ae, hbatch⟩ := Server.exists_batch hbase hlog hparse
  obtain ⟨-, -, hact, hothers, hnetwork⟩ := hstep.act rfl
  obtain ⟨loop, mtx, next, hloop, hnext, hserver, hout⟩ := Server.act_heartbeatStep hact
  obtain rfl : loop = .test := Option.some.inj (hloop.symm.trans hthread)
  obtain rfl : next = .sending (c.servers leader).mboxes.keys := by
    cases hnext with
    | enter => rfl
    | leave hleave => simp [h.leads.isLeader] at hleave
  have hsame : c'.network = c.network := by
    rw [hnetwork, hout, List.map_nil, List.append_nil]
    rfl
  have hkept : (c.servers leader).Kept (c'.servers leader) := by
    rw [hserver]
    exact Server.kept_loops ..
  have hmboxes : (c'.servers leader).mboxes = (c.servers leader).mboxes := by rw [hserver]
  refine ⟨ae, hbatch, h.toNormal.step hstep (h.leads.of_kept hkept), hkept, ?_,
    AList.keys_nodup _, fun name hname hne ↦ ?_, fun e he hsender sent hmsg ↦ ?_,
    fun e he aer hmsg ↦ ?_, fun name hname hne ↦ ?_⟩
  · obtain ⟨hi, -⟩ := List.getElem?_eq_some_iff.mp hloop
    rw [hserver]
    exact List.getElem?_set_self hi
  · have hle : base.log.length ≤ (c.servers leader).log.length := by simp [hlog]
    rw [Server.nextIndexFor, hmboxes, ← Server.nextIndexFor, h.index name hname hne]
    exact ⟨Nat.cast_nonneg _, Nat.cast_le.mpr hle, fun _ ↦ rfl⟩
  · exact absurd hmsg (h.quiet.append e (hsame ▸ he) hsender sent)
  · exact absurd hmsg (h.quiet.result e (hsame ▸ he) aer)
  · refine .unsent (Mboxes.mem_of_mbox (h.stocked leader h.member name hname)) ?_ ?_
    · rw [hsame]
      exact List.count_eq_zero.mpr fun he ↦ h.quiet.append _ he rfl ae rfl
    · rw [hothers name hne]
      exact h.waiting name hname hne

/-- When the pass has reached all peers and everything has been handled, every follower has what the
leader has. -/
theorem Exchanging.done (h : Exchanging m leader base lead ae i [] c) (hquiet : Quiet m leader c)
    {name : ByteString} (hname : name ∈ m.names) (hne : name ≠ leader) :
    (c.servers name).Following lead ∧
      (c.servers leader).nextIndexFor name = lead.log.length := by
  cases h.progress name hname hne with
  | unsent hremaining => exact absurd hremaining List.not_mem_nil
  | sent _ hone _ =>
    have hcopy : copy leader ae name ∈ c.network := List.count_pos_iff.mp (by omega)
    exact absurd rfl (hquiet.append _ hcopy rfl ae)
  | handling _ _ _ hpending _ _ => simp [hquiet.pending name hname] at hpending
  | accepted _ _ hfollowing hanswer =>
    refine ⟨hfollowing, hanswer.resolve_left ?_⟩
    rintro ⟨e, he, aer, hmsg, -⟩
    exact hquiet.result e he aer hmsg

/-- A round leaves the servers in sync, and all others follow the leader. -/
theorem InSync.round (h : InSync m leader c) (hround : Round m leader c c') :
    InSync m leader c' ∧ ∀ name ∈ m.names, name ≠ leader →
      (c'.servers name).Following (c'.servers leader) := by
  obtain ⟨i, asked, begun, hasking, hthread, hbegin, hexchange, hover, hquiet⟩ := hround
  have hprepared : Prepared m leader (c.servers leader) asked :=
    hasking.invariant h.prepared fun _ _ _ ha hprepared hstep ↦ hprepared.step ha hstep
  obtain ⟨ae, hbatch, hfirst⟩ := hprepared.exchanging h.nonempty hthread hbegin
  have hstep (state : Cluster) (a : Action) (next : Cluster) (ha : Exchange leader i a)
      (h : ∃ remaining, Exchanging m leader (c.servers leader) (asked.servers leader) ae i remaining
        state) (hstep : Step m state a next) : ∃ remaining,
        Exchanging m leader (c.servers leader) (asked.servers leader) ae i remaining next := by
    obtain ⟨_, hexchanging⟩ := h
    exact hexchanging.step hbatch hprepared.leads ha hstep
  obtain ⟨remaining, hlast⟩ := hexchange.invariant ⟨_, hfirst⟩ hstep
  obtain rfl : remaining = [] :=
    HeartbeatLoop.sending.inj (Option.some.inj (hlast.thread.symm.trans hover))
  have hfollowing (name : ByteString) (hname : name ∈ m.names) (hne : name ≠ leader) :
      (c'.servers name).Following (c'.servers leader) :=
    (hlast.done hquiet hname hne).1.of_lead_kept hlast.kept
  refine ⟨⟨hlast.toNormal, ?_, fun name hname hne ↦ (hfollowing name hname hne).waiting,
    fun name hname hne ↦ ?_, hquiet⟩, hfollowing⟩
  · rw [hlast.kept.log, hbatch.log]
    exact List.append_ne_nil_of_left_ne_nil h.nonempty _
  · rw [(hlast.done hquiet hname hne).2, hlast.kept.log]

end Cluster

/-- When all servers have the log and the register of a leader with a nonempty log, then after every
round of every sequence of rounds each of the others is a follower of this leader with its term, its
log and its register, and the next index for it is the size of the log. -/
theorem normal_case {m : Membership} {leader : ByteString} {start final : Cluster}
    (hsync : Cluster.InSync m leader start)
    (hrounds : Relation.TransGen (Cluster.Round m leader) start final) :
    ∀ name ∈ m.names, name ≠ leader →
      (final.servers name).role = .follower ∧
      (final.servers name).term = (final.servers leader).term ∧
      (final.servers name).currLeader = leader ∧
      (final.servers name).log = (final.servers leader).log ∧
      (final.servers name).register = (final.servers leader).register ∧
      (final.servers leader).nextIndexFor name = (final.servers leader).log.length := by
  have hrun : Cluster.InSync m leader final ∧ ∀ name ∈ m.names, name ≠ leader →
      (final.servers name).Following (final.servers leader) := by
    induction hrounds with
    | single hround => exact hsync.round hround
    | tail _ hround ih => exact ih.1.round hround
  intro name hname hne
  have hfollowing := hrun.2 name hname hne
  refine ⟨hfollowing.role, hfollowing.term, ?_, hfollowing.log, hfollowing.register,
    hrun.1.index name hname hne⟩
  rw [hfollowing.currLeader, hrun.1.coherent.name_eq]

/-- The first command of a leader has been replicated to both of its followers. -/
def Schedule.firstRound : List Action :=
  let entries := firstLeaderEntries 0 0 ["ADD;5"]
  replication ++ append (bytes "server3") entries ++
    acknowledge entries ⟨bytes "server2", 1, true⟩ ++
    acknowledge entries ⟨bytes "server3", 1, true⟩

/-- A pass of the first leader for its second command, with all that it sends. -/
def Schedule.secondExchange : List Action :=
  let entries := firstLeaderEntries 1 1 ["ADD;7"]
  trio.names.map (fun peer ↦ .internal (bytes "server1") (.heartbeatSend 0 peer 0)) ++
    append (bytes "server2") entries ++ append (bytes "server3") entries ++
    acknowledge entries ⟨bytes "server2", 1, true⟩ ++
    acknowledge entries ⟨bytes "server3", 1, true⟩

/-- Both followers of the first leader have its two commands after the second round. -/
theorem normal_case_firstRound :
    let start := finalState (Cluster.next Schedule.trio) .initial Schedule.firstRound
    let asked := finalState (Cluster.next Schedule.trio) start
      (Schedule.request (bytes "server1") "ADD;7")
    let begun := finalState (Cluster.next Schedule.trio) asked
      [.internal (bytes "server1") (.heartbeatStep 0)]
    let final := finalState (Cluster.next Schedule.trio) begun Schedule.secondExchange
    (final.servers (bytes "server3")).log = (final.servers (bytes "server1")).log ∧
      (final.servers (bytes "server1")).log = [(1, bytes "ADD;5"), (1, bytes "ADD;7")] := by
  intro start asked begun final
  have hrun : Cluster.Run Schedule.trio .initial _ start := run_of_isOk (by decide)
  have hwaiting : ∀ name ∈ Schedule.trio.names, name ≠ bytes "server1" →
      (start.servers name).role ≠ .inactive ∧ (start.servers name).pending = none ∧
      (start.servers name).term ≤ (start.servers (bytes "server1")).term ∧
      (start.servers name).log = (start.servers (bytes "server1")).log ∧
      (start.servers name).register = (start.servers (bytes "server1")).register := by decide
  have hstocked : ∀ name ∈ Schedule.trio.names, ∀ peer ∈ Schedule.trio.names,
      ((start.servers name).mboxes.get peer).mbox = some (.server peer) := by decide
  have hsync : Cluster.InSync Schedule.trio (bytes "server1") start :=
    { member := by decide
      coherent := Cluster.coherent_initial.run hrun
      stocked := hstocked
      leads := ⟨by decide, by decide, by decide⟩
      nonempty := by decide
      waiting := fun name hname hne ↦
        have ⟨hactive, hpending, hterm, hlog, hregister⟩ := hwaiting name hname hne
        ⟨hactive, hpending, hterm, hlog, hregister⟩
      index := by decide
      quiet := .of_network (by decide) (by decide) }
  have hasking : RunOf (Cluster.Step Schedule.trio) (Asking (bytes "server1")) start asked := by
    refine runOf_of_isOk (by decide) ?_
    simp only [Schedule.request, Schedule.tell, List.forall_mem_cons]
    exact ⟨.background _ trivial, .request _ _ rfl, by simp⟩
  have hexchange : RunOf (Cluster.Step Schedule.trio) (Exchange (bytes "server1") 0) begun
      final := by
    refine runOf_of_isOk (by decide) ?_
    simp only [Schedule.secondExchange, Schedule.append, Schedule.acknowledge, Schedule.trio,
      List.map_cons, List.map_nil, List.cons_append, List.nil_append, List.forall_mem_cons]
    exact ⟨.send _ _, .send _ _, .send _ _, .append _ _ _ (by decide) rfl rfl,
      .append _ _ _ (by decide) rfl rfl, .result _ _ rfl, .result _ _ rfl, by simp⟩
  have hround : Cluster.Round Schedule.trio (bytes "server1") start final :=
    .mk 0 asked begun hasking (by decide) rfl hexchange (by decide)
      (.of_network (by decide) (by decide))
  obtain ⟨-, -, -, hlog, -⟩ :=
    normal_case hsync (.single hround) (bytes "server3") (by decide) (by decide)
  exact ⟨hlog, by decide⟩

end RaftConsensus
