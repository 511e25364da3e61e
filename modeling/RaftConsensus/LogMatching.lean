import RaftConsensus.RegisterReplay
import RaftConsensus.Replication

/-!
# Logs that match

`heartbeat_handler` compares `prev_log_index` and `prev_log_term` with its log only to choose its
answer. Whatever it answers, it appends the entries of the message to the end of its log, and it
never removes any. Two rounds of heartbeats before the first answer are enough to make a follower
store the entries twice (`not_log_matching_secondRound`).

Log Matching holds in the runs in which the entries of an accepted message continue the log of the
server, after an entry of the term `prev_log_term`, and no two leaders create entries in the same
term (`log_matching`). Replicas with logs of one size have the same register in the runs in which
accepted entries continue the log, and a leader accepts a command only while no server has a longer
log (`replicas_agree`).
-/

set_option autoImplicit false
set_option relaxedAutoImplicit false

namespace RaftConsensus

open TransitionSystem
open ReplicatedLog (Event Cell Logs replay)

/-- The entry before a payload and the last entry of a log that the payload continues have one
term. -/
theorem PayloadOf.getLast?_take_eq {log target : List Entry} {ae : AppendEntry}
    (h : PayloadOf log ae) (hindex : ae.prevLogIndex = target.length)
    (hterm : ∀ el ∈ target.getLast?, el.1 = ae.prevLogTerm) :
    (log.take ae.prevLogIndex.toNat).getLast?.map Prod.fst = target.getLast?.map Prod.fst := by
  obtain ⟨front, hfront, ⟨rest, rfl⟩, hfrontTerm⟩ := h
  have hlength : front.length = target.length := by omega
  have htake : (front ++ ae.entries ++ rest).take ae.prevLogIndex.toNat = front := by
    rw [List.append_assoc, hfront, Int.toNat_natCast, List.take_left]
  rw [htake]
  rcases front.eq_nil_or_concat with rfl | ⟨front, el, rfl⟩
  · have htarget : target = [] := List.length_eq_zero_iff.mp hlength.symm
    rw [htarget]
  · rcases target.eq_nil_or_concat with rfl | ⟨target, el', rfl⟩
    · simp at hlength
    · have hel := hfrontTerm el (by simp)
      have hel' := hterm el' (by simp)
      simp [hel, hel']

namespace Cluster

variable {m : Membership} {c c' : Cluster} {a : Action} {trace before : History}
  {t : Transition Cluster Action}

/-! ### Log Matching -/

/-- A message with entries is accepted only if they continue the log of the server: they begin
where it ends, and `prev_log_term` is the term of its last entry. -/
def ContinuesLog (t : Transition Cluster Action) : Prop :=
  ∀ acceptance ∈ observe Server.acceptance t, acceptance.2.entries = [] ∨
    acceptance.2.prevLogIndex = (t.source.servers acceptance.1).log.length ∧
      ∀ el ∈ (t.source.servers acceptance.1).log.getLast?, el.1 = acceptance.2.prevLogTerm

instance : Decidable (ContinuesLog t) := by
  unfold ContinuesLog
  infer_instance

/-- No two leaders create entries of one term in two transitions. -/
def SameLeader (y t : Transition Cluster Action) : Prop :=
  ∀ first ∈ observe Server.creation y, ∀ second ∈ observe Server.creation t,
    first.2.1 = second.2.1 → first.1 = second.1

/-- A leader that creates an entry is the only one that has created entries of its term. -/
def CreatesAlone (before : History) (t : Transition Cluster Action) : Prop :=
  ∀ y ∈ before, SameLeader y t

instance : Decidable (CreatesAlone before t) := by
  unfold CreatesAlone SameLeader
  infer_instance

/-- Accepted entries that continue the log fit it. -/
theorem fits_of_continuesLog (hrun : Run m initial before t.source) (hpayloads : Payloads t.source)
    (hstep : Step m t.source t.action t.target) (hcontinues : ContinuesLog t)
    {event : Event ByteString (Cell ByteString Entry)} (hevent : cellEvent t = some event) :
    ReplicatedLog.Fits (fun cell ↦ cell.entry.1) (cells before) event := by
  cases event with
  | create name cell => trivial
  | copy source target start count =>
    obtain ⟨ae, hacceptance, hentries, rfl, rfl, -⟩ := cellEvent_eq_copy hevent
    rcases hcontinues _ hacceptance with hempty | ⟨hindex, hterm⟩
    · exact absurd hempty hentries
    · obtain ⟨x, hx, haccepts⟩ := observe_eq_some_iff.mp hacceptance
      obtain ⟨-, havailable, -⟩ := (step_effect hstep).of_stimulus hx
      have hpayload := hpayloads ae
        (carries_of_accepts havailable (Server.acceptance_eq_some_iff.mp haccepts)) hentries
      dsimp only at hindex hterm
      refine ⟨by rw [cells_length hrun]; omega, ?_⟩
      have hlog (name : ByteString) : (cells before name).map Cell.entry = t.source.logs name :=
        congrFun (cells_entry hrun) name
      have hlast : ((t.source.logs ae.leaderId).take ae.prevLogIndex.toNat).getLast?.map Prod.fst =
          (t.source.logs target).getLast?.map Prod.fst :=
        hpayload.getLast?_take_eq hindex hterm
      rw [← hlog, ← hlog, ← List.map_take, List.getLast?_map, List.getLast?_map, Option.map_map,
        Option.map_map] at hlast
      exact hlast

/-- A leader that creates its entries alone is the only creator of their term. -/
theorem sameCreator_of_sameLeader {y : Transition Cluster Action} (h : SameLeader y t)
    {first second : Event ByteString (Cell ByteString Entry)} (hfirst : cellEvent y = some first)
    (hsecond : cellEvent t = some second) :
    ReplicatedLog.SameCreator (fun cell ↦ cell.entry.1) first second := by
  cases first with
  | copy => trivial
  | create name cell =>
    cases second with
    | copy => trivial
    | create name' cell' =>
      exact h _ (cellEvent_eq_create hfirst).1 _ (cellEvent_eq_create hsecond).1

/-- The labelled logs match in every run in which accepted entries continue the log and leaders
create their entries alone. -/
theorem matching_cells (hrun : Run m initial trace c) (hcontinues : ∀ t ∈ trace, ContinuesLog t)
    (halone : Along CreatesAlone trace) :
    ReplicatedLog.Matching (fun cell ↦ cell.entry.1) (cells trace) := by
  refine ReplicatedLog.matching_of_replay (along_filterMap_iff.mpr ?_)
  rintro before t after rfl event hevent
  obtain ⟨hbefore, hstep, -⟩ := hrun.cut
  refine ⟨fits_of_continuesLog hbefore (payloads_run hbefore) hstep (hcontinues t (by simp)) hevent,
    fun earlier hearlier ↦ ?_⟩
  obtain ⟨y, hy, hearlier⟩ := List.mem_filterMap.mp hearlier
  exact sameCreator_of_sameLeader (halone.at y hy) hearlier hevent

end Cluster

/-- In every run in which accepted entries continue the log of the server that accepts them, and
no two leaders create entries of one term, logs that have entries of one term at one index are
equal up to and including there. -/
theorem log_matching {m : Membership} {trace : Cluster.History} {c : Cluster}
    (hrun : Cluster.Run m .initial trace c) (hcontinues : ∀ t ∈ trace, Cluster.ContinuesLog t)
    (halone : Along Cluster.CreatesAlone trace) {first second : ByteString} {i : ℕ}
    {el el' : Entry} (hel : (c.servers first).log[i]? = some el)
    (hel' : (c.servers second).log[i]? = some el') (hterm : el.1 = el'.1) :
    (c.servers first).log.take (i + 1) = (c.servers second).log.take (i + 1) := by
  have hlog (name : ByteString) :
      (Cluster.cells trace name).map ReplicatedLog.Cell.entry = (c.servers name).log :=
    congrFun (Cluster.cells_entry hrun) name
  rw [← hlog, List.getElem?_map, Option.map_eq_some_iff] at hel hel'
  obtain ⟨cell, hcell, rfl⟩ := hel
  obtain ⟨cell', hcell', rfl⟩ := hel'
  have hcells := Cluster.matching_cells hrun hcontinues halone _ _ i cell cell' hcell hcell' hterm
  rw [← hlog, ← hlog, ← List.map_take, ← List.map_take, hcells]

/-- A follower that has accepted the command of a leader has the log of the leader. -/
theorem log_matching_replication :
    let c := finalState (Cluster.next Schedule.trio) .initial Schedule.replication
    (c.servers (bytes "server1")).log.take 1 = (c.servers (bytes "server2")).log.take 1 := by
  intro c
  have hfirst : (c.servers (bytes "server1")).log[0]? = some (1, bytes "ADD;5") := by decide
  have hsecond : (c.servers (bytes "server2")).log[0]? = some (1, bytes "ADD;5") := by decide
  exact log_matching (run_of_isOk (by decide)) (by decide) (by decide) hfirst hsecond rfl

/-- Two logs with entries of one term at index `1` have different entries there. -/
theorem not_log_matching_secondRound :
    ¬ ∀ (m : Membership) (trace : Cluster.History) (c : Cluster),
      Cluster.Run m .initial trace c → ∀ (first second : ByteString) (i : ℕ) (el el' : Entry),
        (c.servers first).log[i]? = some el → (c.servers second).log[i]? = some el' →
          el.1 = el'.1 →
            (c.servers first).log.take (i + 1) = (c.servers second).log.take (i + 1) := by
  intro hclaim
  have hrun : (execute (Cluster.next Schedule.trio) .initial Schedule.secondRound).isOk := by decide
  have hequal := hclaim _ _ _ (run_of_isOk hrun) (bytes "server1") (bytes "server2") 1
    (1, bytes "ADD;2") (1, bytes "ADD;1") (by decide) (by decide) rfl
  exact absurd hequal (by decide)

/-! ### Replicas agree -/

namespace Cluster

variable {m : Membership} {c c' : Cluster} {trace before : History} {t : Transition Cluster Action}

/-- A leader accepts a command only while no server has a longer log. -/
def LeadsLogs (m : Membership) (t : Transition Cluster Action) : Prop :=
  ∀ creation ∈ observe Server.creation t, ∀ name ∈ m.names,
    (t.source.servers name).log.length ≤ (t.source.servers creation.1).log.length

instance : Decidable (LeadsLogs m t) := by
  unfold LeadsLogs
  infer_instance

/-- Only the members of the cluster have entries. -/
theorem logs_eq_nil (hrun : Run m initial trace c) {name : ByteString} (hname : name ∉ m.names) :
    c.logs name = [] := by
  induction hrun with
  | nil => rfl
  | snoc hrest hstep ih =>
    rcases (step_effect hstep).server name with hsame | ⟨x, out, hx, -, -⟩
    · rw [logs, hsame]
      exact ih
    · exact absurd ((step_effect hstep).of_stimulus hx).1 hname

/-- Any two logs are comparable in every run in which accepted entries begin where the log ends
and leaders accept commands only while no server has a longer log. -/
theorem comparable_logs (hrun : Run m initial trace c) (happends : ∀ t ∈ trace, AppendsAtEnd t)
    (hleads : ∀ t ∈ trace, LeadsLogs m t) : ReplicatedLog.Comparable c.logs := by
  rw [logs_eq_replay hrun, List.map_filterMap]
  refine ReplicatedLog.comparable_of_replay (along_filterMap_iff.mpr ?_)
  rintro before t after rfl entryEvent hentryEvent
  obtain ⟨event, hevent, rfl⟩ := Option.map_eq_some_iff.mp hentryEvent
  obtain ⟨hbefore, hstep, -⟩ := hrun.cut
  rw [← List.map_filterMap, ← logs_eq_replay hbefore]
  cases event with
  | copy source target start count =>
    exact ⟨start_eq_of_appendsAtEnd (happends t (by simp)) hevent, trivial⟩
  | create name cell =>
    refine ⟨trivial, fun other ↦ ?_⟩
    by_cases hother : other ∈ m.names
    · exact hleads t (by simp) _ (cellEvent_eq_create hevent).1 other hother
    · rw [logs_eq_nil hbefore hother]
      exact Nat.zero_le _

end Cluster

/-- In every run in which accepted entries begin where the log of the server that accepts them
ends, and a leader accepts a command only while no server has a longer log, servers with logs of
one size have the same register. -/
theorem replicas_agree {m : Membership} {trace : Cluster.History} {c : Cluster}
    (hrun : Cluster.Run m .initial trace c) (happends : ∀ t ∈ trace, Cluster.AppendsAtEnd t)
    (hleads : ∀ t ∈ trace, Cluster.LeadsLogs m t) {first second : ByteString}
    (hsize : (c.servers first).log.length = (c.servers second).log.length) :
    (c.servers first).register = (c.servers second).register := by
  have hlog : (c.servers first).log = (c.servers second).log := by
    rcases Cluster.comparable_logs hrun happends hleads first second with hle | hle
    · exact hle.eq_of_length hsize
    · exact (hle.eq_of_length hsize.symm).symm
  have hfirst := Cluster.replay_run hrun first
  have hsecond := Cluster.replay_run hrun second
  rw [hlog, hsecond] at hfirst
  exact (Except.ok.inj hfirst).symm

/-- A follower that has accepted the command of a leader has the register of the leader. -/
theorem replicas_agree_replication :
    let c := finalState (Cluster.next Schedule.trio) .initial Schedule.replication
    (c.servers (bytes "server1")).register = (c.servers (bytes "server2")).register :=
  replicas_agree (run_of_isOk (by decide)) (by decide) (by decide) (by decide)

/-- A leader and a follower with two entries each have the registers `3` and `2`. -/
theorem not_replicas_agree_secondRound :
    ¬ ∀ (m : Membership) (trace : Cluster.History) (c : Cluster),
      Cluster.Run m .initial trace c → ∀ first second : ByteString,
        (c.servers first).log.length = (c.servers second).log.length →
          (c.servers first).register = (c.servers second).register := by
  intro hclaim
  have hrun : (execute (Cluster.next Schedule.trio) .initial Schedule.secondRound).isOk := by decide
  have hequal := hclaim _ _ _ (run_of_isOk hrun) (bytes "server1") (bytes "server2") (by decide)
  exact absurd (congrArg Calc.result hequal) (by decide)

end RaftConsensus
