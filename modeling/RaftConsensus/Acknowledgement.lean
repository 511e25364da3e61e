import RaftConsensus.Elections
import RaftConsensus.Model.Outputs
import RaftConsensus.Replication

/-!
# Acknowledged commands

`leader_client_request_handler` appends a command to the log of the leader, applies it and answers
at once: `status = 1` says that a leader has answered, not that other servers have the entry
(`Effect.creation_iff_acknowledged`). `send_request_vote` sends `last_log_index` and
`last_log_term`, but `request_vote_handler` reads neither, so that a server without the entry can be
elected later (`not_acknowledged_kept_lostCommand`).

Both would be needed. `Secured` says that more than half of the servers have an entry before they
vote in a later term, and `GrantsComplete` that a voter grants a request only to a candidate that
has its own entries. A later leader has a majority of voters, this majority meets the one that has
the entry, and the voter in both makes sure that the leader has it (`acknowledged_kept`). An entry
is followed by its label, the leader that has appended it and its index there, so that a command
that is acknowledged twice counts as two.
-/

set_option autoImplicit false
set_option relaxedAutoImplicit false

namespace RaftConsensus

open TransitionSystem
open ReplicatedLog (Cell)

namespace Cluster

variable {m : Membership} {c : Cluster} {trace past : History} {t u : Transition Cluster Action}
  {leader name : ByteString} {cr : ClientRequest} {cell : Cell ByteString Entry} {term : ℤ}

/-! ### Acknowledged entries -/

/-- A leader acknowledges a command: it answers the request that gives it with `status = 1`. -/
structure Acknowledges (t : Transition Cluster Action) (leader : ByteString) (cr : ClientRequest) :
    Prop where
  request : t.action.stimulus = some (leader, .handle (.clientRequest cr))
  command : cr.cmd ≠ []
  response : ∃ dst resp, (dst, .serverResponse resp) ∈ outputs leader t ∧ resp.status = 1

/-- The entry for a command that a server appends to its log, labelled with the server and the index
at which it does. -/
def entryFor (t : Transition Cluster Action) (leader : ByteString) (cr : ClientRequest) :
    Cell ByteString Entry :=
  ⟨leader, (t.source.servers leader).log.length, ((t.source.servers leader).term, cr.cmd)⟩

/-- The labelled entry that a leader creates in a transition. -/
def created (t : Transition Cluster Action) : Option (Cell ByteString Entry) :=
  (observe Server.creation t).map fun creation ↦
    ⟨creation.1, (t.source.servers creation.1).log.length, creation.2⟩

/-- A command is acknowledged in the transition that creates its entry. -/
theorem Acknowledges.created_eq (h : Acknowledges t leader cr)
    (hstep : Step m t.source t.action t.target) : created t = some (entryFor t leader cr) := by
  obtain ⟨dst, resp, hsent, hstatus⟩ := h.response
  obtain ⟨-, x, hx, -, heffect⟩ := hstep.of_mem_outputs hsent
  obtain ⟨-, rfl⟩ := Prod.mk.inj (Option.some.inj (hx.symm.trans h.request))
  have hcreation := heffect.creation_iff_acknowledged.mpr ⟨h.command, dst, resp, hsent, hstatus⟩
  rw [created, observe_eq_some_iff.mpr ⟨_, hx, hcreation⟩]
  rfl

/-- A labelled entry stands in the log of a server. -/
def HasEntry (history : History) (c : Cluster) (name : ByteString) (cell : Cell ByteString Entry) :
    Prop :=
  ∃ i : ℕ, (cells history name)[i]? = some cell ∧ (c.servers name).log[i]? = some cell.entry

/-- In a run a server has the entries of its labelled log. -/
theorem hasEntry_iff (hrun : Run m initial trace c) :
    HasEntry trace c name cell ↔ cell ∈ cells trace name := by
  have hlog : (cells trace name).map Cell.entry = (c.servers name).log :=
    congrFun (cells_entry hrun) name
  rw [List.mem_iff_getElem?]
  refine exists_congr fun i ↦ and_iff_left_of_imp fun hcell ↦ ?_
  rw [← hlog, List.getElem?_map, hcell]
  rfl

/-- A server keeps the entries of its labelled log. -/
theorem mem_cells_append (h : cell ∈ cells past name) (later : History) :
    cell ∈ cells (past ++ later) name :=
  (cells_isPrefix past later name).subset h

/-! ### Conditions on votes -/

/-- A voter grants a request only to a candidate that has every entry of a lower term that the voter
has. -/
def GrantsComplete (past : History) (t : Transition Cluster Action) : Prop :=
  ∀ grant ∈ observe Server.grant t, ∀ cell ∈ cells past grant.1,
    cell.entry.1 < grant.2.term → cell ∈ cells past grant.2.candidateId

instance : Decidable (GrantsComplete past t) := by
  unfold GrantsComplete
  infer_instance

/-- A server that grants a request of a higher term than that of an entry has the entry. -/
def GrantsWith (name : ByteString) (cell : Cell ByteString Entry) (past : History)
    (t : Transition Cluster Action) : Prop :=
  ∀ grant ∈ observe Server.grant t, grant.1 = name → cell.entry.1 < grant.2.term →
    cell ∈ cells past name

instance : Decidable (GrantsWith name cell past t) := by
  unfold GrantsWith
  infer_instance

/-- More than half of the servers have granted requests of higher terms only since they have an
entry. -/
def Secured (m : Membership) (history : History) (cell : Cell ByteString Entry) : Prop :=
  m.names.length < 2 * (m.names.filter fun name ↦ Along (GrantsWith name cell) history).length

instance : Decidable (Secured m trace cell) := inferInstanceAs (Decidable (_ < _))

/-- A server enters the leader state only when the entries created in lower terms are secured. -/
def ElectsSecured (m : Membership) (past : History) (u : Transition Cluster Action) : Prop :=
  ∀ name ∈ m.names, EntersLeader u name (u.target.servers name).term → ∀ t ∈ past,
    ∀ cell ∈ created t, cell.entry.1 < (u.target.servers name).term → Secured m past cell

instance : Decidable (ElectsSecured m past u) := by
  unfold ElectsSecured
  infer_instance

/-- A majority of voters and the servers that secure an entry have a server in common. -/
theorem GrantedByMajority.inter_secured (hmajority : GrantedByMajority m past name term)
    (hsecured : Secured m past cell) :
    ∃ voter, Granted past voter name term ∧ Along (GrantsWith voter cell) past := by
  obtain ⟨voters, hcard, hvoters⟩ := hmajority
  let holders := m.names.filter fun name ↦ Along (GrantsWith name cell) past
  have hholders : holders.toFinset.card = holders.length :=
    List.toFinset_card_of_nodup (m.nodup.filter _)
  have hmany : m.names.length < 2 * holders.toFinset.card := by
    rw [hholders]
    exact hsecured
  have hmembers : ∀ name ∈ holders.toFinset, name ∈ m.names :=
    fun name hname ↦ List.mem_of_mem_filter (List.mem_toFinset.mp hname)
  obtain ⟨voter, hvoter, hholder⟩ :=
    exists_mem_of_majorities hcard hmany (fun voter h ↦ (hvoters voter h).1) hmembers
  have hgrants := (List.mem_filter.mp (List.mem_toFinset.mp hholder)).2
  exact ⟨voter, (hvoters voter hvoter).2, of_decide_eq_true hgrants⟩

/-- A candidate that a voter has granted its vote has the entries that the voter has had. -/
theorem mem_cells_of_granted (hcomplete : Along GrantsComplete past) {voter : ByteString}
    (hgranted : Granted past voter name term) (hholds : Along (GrantsWith voter cell) past)
    (hterm : cell.entry.1 < term) : cell ∈ cells past name := by
  obtain ⟨g, hg, rv, hgrant, rfl, rfl⟩ := hgranted
  obtain ⟨before, after, rfl⟩ := List.append_of_mem hg
  have hvoter : cell ∈ cells before voter := hholds.at _ hgrant rfl hterm
  have hcandidate : cell ∈ cells before rv.candidateId := hcomplete.at _ hgrant cell hvoter hterm
  exact mem_cells_append hcandidate _

/-- A server that enters the leader state belongs to the cluster. -/
theorem EntersLeader.mem_names (h : EntersLeader u name term)
    (hstep : Step m u.source u.action u.target) : name ∈ m.names := by
  rcases (step_effect hstep).server name with hsame | ⟨x, out, hx, -, -⟩
  · have hleader := h.2.1
    rw [hsame] at hleader
    exact absurd hleader h.1
  · exact ((step_effect hstep).of_stimulus hx).1

end Cluster

/-- In every run in which only fresh votes are counted, voters grant requests only to candidates
that have their entries, and a server enters the leader state only when the entries of lower terms
are secured: once a leader has acknowledged a command, every server that enters the leader state
later with a higher term has the entry that was appended for it. -/
theorem acknowledged_kept {m : Membership} {trace before middle after : Cluster.History}
    {t u : Transition Cluster Action} {c : Cluster} (hrun : Cluster.Run m .initial trace c)
    (hfresh : Along Cluster.CountsFreshVote trace) (hcomplete : Along Cluster.GrantsComplete trace)
    (hsecured : Along (Cluster.ElectsSecured m) trace)
    (htrace : trace = before ++ t :: middle ++ u :: after) {leader name : ByteString}
    {cr : ClientRequest} {term : ℤ} (hack : Cluster.Acknowledges t leader cr)
    (henters : Cluster.EntersLeader u name term)
    (hterm : (t.source.servers leader).term < term) :
    Cluster.HasEntry (before ++ t :: middle ++ [u]) u.target name
      (Cluster.entryFor t leader cr) := by
  have hmajority := Cluster.grantedByMajority_run hrun hfresh htrace henters
  subst htrace
  obtain ⟨hbefore, hlast, -⟩ := hrun.cut
  obtain ⟨-, hstep, -⟩ := hbefore.cut
  obtain rfl : (u.target.servers name).term = term := henters.2.2
  have hentry : Cluster.Secured m (before ++ t :: middle) (Cluster.entryFor t leader cr) :=
    hsecured.at name (henters.mem_names hlast) henters t (by simp) _ (hack.created_eq hstep) hterm
  obtain ⟨voter, hgranted, hholds⟩ := hmajority.inter_secured hentry
  have hcandidate := Cluster.mem_cells_of_granted hcomplete.of_append hgranted hholds hterm
  exact (Cluster.hasEntry_iff (hbefore.snoc hlast)).mpr (Cluster.mem_cells_append hcandidate _)

/-- A follower that has accepted the command of a leader has it when it becomes leader. -/
theorem acknowledged_kept_secondElection :
    let trace := history (Cluster.next Schedule.trio) .initial
      (Schedule.replication ++ Schedule.secondElection 1 1)
    ∃ before middle after t u, trace = before ++ t :: middle ++ u :: after ∧
      Cluster.EntersLeader u (bytes "server2") 2 ∧
      Cluster.HasEntry (before ++ t :: middle ++ [u]) u.target (bytes "server2")
        ⟨bytes "server1", 0, (1, bytes "ADD;5")⟩ := by
  intro trace
  have hrun : Cluster.Run Schedule.trio .initial trace _ := run_of_isOk (by decide)
  have hij : (⟨25, by decide⟩ : Fin trace.length) < ⟨48, by decide⟩ := by decide
  have htrace := (take_append_get_cons_drop_of_lt trace hij).symm
  let cr : ClientRequest := ⟨some (.client 0), bytes "ADD;5"⟩
  have hack : Cluster.Acknowledges (trace.get ⟨25, by decide⟩) (bytes "server1") cr :=
    ⟨by decide, by decide, .client 0, ⟨1, bytes "5", bytes "server1"⟩, by decide, rfl⟩
  have henters : Cluster.EntersLeader (trace.get ⟨48, by decide⟩) (bytes "server2") 2 := by decide
  have hkept := acknowledged_kept hrun (by decide) (by decide) (by decide) htrace hack henters
    (by decide)
  have hentry : Cluster.entryFor (trace.get ⟨25, by decide⟩) (bytes "server1") cr =
    ⟨bytes "server1", 0, (1, bytes "ADD;5")⟩ := by decide
  exact ⟨_, _, _, _, _, htrace, henters, hentry ▸ hkept⟩

/-- A leader sends a heartbeat, acknowledges a command and steps down before it sends the command,
and a server without it is elected by all. -/
def Schedule.lostCommand : List Action :=
  form trio ++ firstElection ++ heartbeats (bytes "server1") 0 trio.names ++
    append (bytes "server2") (firstLeaderEntries 0 0 []) ++ request (bytes "server1") "ADD;5" ++
    secondElection 0 0

/-- A server enters the leader state in term `2` without an entry acknowledged in term `1`. -/
theorem not_acknowledged_kept_lostCommand :
    ¬ ∀ (m : Membership) (before middle after : Cluster.History)
      (t u : Transition Cluster Action) (c : Cluster),
      Cluster.Run m .initial (before ++ t :: middle ++ u :: after) c →
        ∀ (leader name : ByteString) (cr : ClientRequest) (term : ℤ),
          Cluster.Acknowledges t leader cr → Cluster.EntersLeader u name term →
            (t.source.servers leader).term < term →
              Cluster.HasEntry (before ++ t :: middle ++ [u]) u.target name
                (Cluster.entryFor t leader cr) := by
  intro hclaim
  have hrun : (execute (Cluster.next Schedule.trio) .initial Schedule.lostCommand).isOk := by decide
  have hrun := run_of_isOk hrun
  have hij : (⟨31, by decide⟩ : Fin (history (Cluster.next Schedule.trio) .initial
    Schedule.lostCommand).length) < ⟨48, by decide⟩ := by decide
  rw [← take_append_get_cons_drop_of_lt _ hij] at hrun
  have hack : Cluster.Acknowledges ((history (Cluster.next Schedule.trio) .initial
      Schedule.lostCommand).get ⟨31, by decide⟩) (bytes "server1")
      ⟨some (.client 0), bytes "ADD;5"⟩ :=
    ⟨by decide, by decide, .client 0, ⟨1, bytes "5", bytes "server1"⟩, by decide, rfl⟩
  obtain ⟨i, -, hentry⟩ := hclaim _ _ _ _ _ _ _ hrun (bytes "server1") (bytes "server2") _ 2
    hack (by decide) (by decide)
  have hempty : (((history (Cluster.next Schedule.trio) .initial Schedule.lostCommand).get
    ⟨48, by decide⟩).target.servers (bytes "server2")).log = [] := by decide
  have hmem := List.mem_of_getElem? hentry
  rw [hempty] at hmem
  exact List.not_mem_nil hmem

end RaftConsensus
