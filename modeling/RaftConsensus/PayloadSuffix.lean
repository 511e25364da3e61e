import RaftConsensus.HeartbeatRange

/-!
# Payloads are suffixes

The next index of a server for a peer always lies between `0` and the size of the log: a
`SetCluster` message and the end of `leader.on_enter` set it to the size, a name that is not known
has `0`, and `consistency_check` keeps both bounds. The payload of an `AppendEntry` is therefore the
rest of the log from the next index on, with nothing left out and nothing sent twice in one message.
-/

set_option autoImplicit false
set_option relaxedAutoImplicit false

namespace RaftConsensus

open TransitionSystem

namespace Server

variable {s s' : Server} {out : List Output} {peer : ByteString}

/-- The log up to an index and the entries from it on are the log. -/
theorem take_append_suffixFrom {log : List Entry} {k : ℤ} (hk : 0 ≤ k) :
    log.take k.toNat ++ suffixFrom log k = log := by
  rw [suffixFrom, if_pos hk, List.take_append_drop]

/-- The payload of a heartbeat from a nonempty log is the rest of the log after the index that it
carries. -/
theorem heartbeatFor_payload {k : ℤ} (garbage : ℤ) (hlog : s.log ≠ []) (hk : 0 ≤ k) :
    (s.heartbeatFor k garbage).prevLogIndex = k ∧
      s.log.take k.toNat ++ (s.heartbeatFor k garbage).entries = s.log := by
  rw [heartbeatFor, if_pos (mt List.length_eq_zero_iff.mp hlog)]
  exact ⟨rfl, take_append_suffixFrom hk⟩

/-- What a result does to a next index: a successful one does not lower it, and a failed one lowers
it by at most one, and not below `0`. -/
theorem Effect.nextIndexFor_of_result {aer : AppendEntryResult}
    (h : s.Effect (.handle (.appendEntryResult aer)) s' out) (hnonneg : 0 ≤ s.nextIndexFor peer) :
    (aer.success = true → s.nextIndexFor peer ≤ s'.nextIndexFor peer) ∧
      (aer.success = false → s.nextIndexFor peer - 1 ≤ s'.nextIndexFor peer ∧
        s'.nextIndexFor peer ≤ s.nextIndexFor peer ∧ 0 ≤ s'.nextIndexFor peer) := by
  cases h with
  | drop => exact ⟨fun _ ↦ le_rfl, fun _ ↦ ⟨by omega, le_rfl, hnonneg⟩⟩
  | result =>
    by_cases hname : aer.followerName = peer
    · subst hname
      rw [nextIndexFor_consistencyCheck]
      constructor
      · intro hsuccess
        simp only [hsuccess, Bool.not_true, Bool.false_eq_true, ↓reduceIte]
        split_ifs with hbehind
        · exact hbehind.2.le
        · exact le_rfl
      · intro hfailed
        simp only [hfailed, Bool.not_false, ↓reduceIte]
        split_ifs <;> omega
    · have hsame : (s.consistencyCheck aer).nextIndexFor peer = s.nextIndexFor peer := by
        rw [nextIndexFor, consistencyCheck, Mboxes.get_insert_of_ne (Ne.symm hname), nextIndexFor]
      rw [hsame]
      exact ⟨fun _ ↦ le_rfl, fun _ ↦ ⟨by omega, le_rfl, hnonneg⟩⟩

end Server

/-- In every state of every run, every next index of a server lies between `0` and the size of its
log. Every `AppendEntry` that it has sent from a nonempty log carried the next index of the peer
that it was sent to, and as its entries the rest of the log from there on. No successful result has
lowered a next index, and no failed one has lowered it by more than one, or below `0`. -/
theorem payloads_are_suffixes {m : Membership} {trace : Cluster.History} {c : Cluster}
    (hrun : Cluster.Run m .initial trace c) (name : ByteString) :
    (∀ peer, 0 ≤ (c.servers name).nextIndexFor peer ∧
        (c.servers name).nextIndexFor peer ≤ (c.servers name).log.length) ∧
      (∀ t ∈ trace, ∀ dst ae, (dst, .appendEntry ae) ∈ Cluster.outputs name t →
        (t.source.servers name).log ≠ [] →
          (∃ peer ∈ (t.source.servers name).mboxes, dst = .server peer ∧
            ae.prevLogIndex = (t.source.servers name).nextIndexFor peer) ∧
          (t.source.servers name).log.take ae.prevLogIndex.toNat ++ ae.entries =
            (t.source.servers name).log) ∧
      ∀ t ∈ trace, ∀ aer, t.action.stimulus = some (name, .handle (.appendEntryResult aer)) →
        ∀ peer, let before := (t.source.servers name).nextIndexFor peer
          let after := (t.target.servers name).nextIndexFor peer
          (aer.success = true → before ≤ after) ∧
            (aer.success = false → before - 1 ≤ after ∧ after ≤ before ∧ 0 ≤ after) := by
  refine ⟨fun peer ↦
      ⟨(Cluster.nextIndexFor_pos_iff hrun).1, Cluster.nextIndexFor_le hrun name peer⟩,
    fun t ht dst ae hsent hlog ↦ ?_, fun t ht aer hx peer ↦ ?_⟩
  · obtain ⟨before, after, rfl, hbefore, hstep, -⟩ := hrun.cut_of_mem ht
    obtain ⟨-, x, -, -, heffect⟩ := hstep.of_mem_outputs hsent
    obtain ⟨i, peer, garbage, -, -, hmbox, rfl, -⟩ := heffect.appendEntry_sent hsent
    have hnonneg : 0 ≤ (t.source.servers name).nextIndexFor peer :=
      (Cluster.nextIndexFor_pos_iff hbefore).1
    obtain ⟨hindex, hpayload⟩ := Server.heartbeatFor_payload garbage hlog hnonneg
    have hdst : dst = .server peer :=
      ((Cluster.coherent_initial.run hbefore).mailbox name peer dst hmbox).2
    exact ⟨⟨peer, Mboxes.mem_of_mbox hmbox, hdst, hindex⟩, hindex.symm ▸ hpayload⟩
  · obtain ⟨before, after, rfl, hbefore, hstep, -⟩ := hrun.cut_of_mem ht
    obtain ⟨-, -, hact, -⟩ := hstep.act hx
    exact (Server.act_effect hact).nextIndexFor_of_result (Cluster.nextIndexFor_pos_iff hbefore).1

/-- The message with the first command carries the whole log. -/
theorem payloads_are_suffixes_replication :
    let trace := history (Cluster.next Schedule.trio) .initial Schedule.replication
    let ae := Schedule.firstLeaderEntries 0 0 ["ADD;5"]
    ∃ t ∈ trace,
      (.server (bytes "server2"), .appendEntry ae) ∈ Cluster.outputs (bytes "server1") t ∧
        (t.source.servers (bytes "server1")).nextIndexFor (bytes "server2") = 0 ∧
        (t.source.servers (bytes "server1")).log.take 0 ++ ae.entries =
          (t.source.servers (bytes "server1")).log := by
  intro trace ae
  have hrun : Cluster.Run Schedule.trio .initial trace _ := run_of_isOk (by decide)
  obtain ⟨t, ht, hsent, hlog⟩ : ∃ t ∈ trace,
      (.server (bytes "server2"), .appendEntry ae) ∈ Cluster.outputs (bytes "server1") t ∧
        (t.source.servers (bytes "server1")).log ≠ [] := by decide
  obtain ⟨⟨peer, -, hdst, hindex⟩, hpayload⟩ :=
    (payloads_are_suffixes hrun (bytes "server1")).2.1 t ht _ ae hsent hlog
  obtain rfl := Mbox.server.inj hdst
  exact ⟨t, ht, hsent, hindex.symm, hpayload⟩

end RaftConsensus
