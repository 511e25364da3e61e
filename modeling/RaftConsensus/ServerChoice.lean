import RaftConsensus.Redirects

/-!
# The server that a client asks first

A client that knows no leader draws an index when it enters the state `on`, counts the servers of
its map up to the index and asks the one it comes to (`selectionLoop`). Indices below the size of
the map pick servers, different ones different servers (`Client.exists_picks_iff`,
`Client.picks_inj`). But the distribution is constructed with the size as its upper bound, which
belongs to its range: with this index the loop runs out of servers, and the client asks nobody until
it draws another one (`picks_server_iff`). In a run of the system nothing else goes wrong
(`System.exists_picks_iff`).
-/

set_option autoImplicit false
set_option relaxedAutoImplicit false

namespace RaftConsensus

/-! ### The loop -/

/-- The loop over the map: `cnt` counts the elements, and the loop breaks when it is `idx`. It does
not pass `idx` before, so that the `int` does not overflow. -/
def selectionLoop {α : Type*} (idx : ℕ) : ℕ → List α → Option α
  | _, [] => none
  | cnt, el :: rest => if cnt = idx then some el else selectionLoop idx (cnt + 1) rest

/-- The loop comes to the element that has the index, as long as it has not counted past it. -/
theorem selectionLoop_eq_getElem? {α : Type*} {idx cnt : ℕ} {entries : List α} (h : cnt ≤ idx) :
    selectionLoop idx cnt entries = entries[idx - cnt]? := by
  induction entries generalizing cnt with
  | nil => rfl
  | cons el rest ih =>
    rw [selectionLoop]
    split_ifs with hcnt
    · rw [hcnt, Nat.sub_self]
      rfl
    · have hlt : cnt < idx := lt_of_le_of_ne h hcnt
      rw [ih hlt, show idx - cnt = idx - (cnt + 1) + 1 by omega]
      rfl

namespace Client

variable {c c' : Client} {idx idx' : ℕ} {name : ByteString}

/-- The conversion `(int)m_mboxes.size()`. -/
def intOfSize (size : ℕ) : ℤ := (size : ℤ).bmod (2 ^ 32)

/-- The distribution `dist(0, (int)m_mboxes.size())` can draw an index: its range is closed. -/
def Draws (c : Client) (idx : ℕ) : Prop := (idx : ℤ) ≤ intOfSize c.mboxes.length

instance (c : Client) (idx : ℕ) : Decidable (c.Draws idx) :=
  inferInstanceAs (Decidable (_ ≤ _))

/-- The size of a map that fits an `int` is not changed by the conversion, and is drawn like every
index below it. -/
theorem draws_iff (h : c.mboxes.length < 2 ^ 31) : c.Draws idx ↔ idx ≤ c.mboxes.length := by
  have hsize : intOfSize c.mboxes.length = c.mboxes.length := by
    refine Int.bmod_eq_of_le ?_ ?_ <;> omega
  rw [Draws, hsize, Int.ofNat_le]

/-- A client that knows no leader asks the server that the loop comes to. -/
theorem enterOn_eq_selectionLoop (hunknown : c.clusterLeader = []) (hmap : c.mboxes ≠ []) :
    c.enterOn idx =
      match selectionLoop idx 0 c.mboxes with
      | some el =>
        (send el.2 (.clientRequest ⟨c.mbox, []⟩)).map fun out ↦
          ({ c with clusterLeader := el.1 }, out)
      | none => .ok (c, []) := by
  rw [enterOn, if_pos ⟨hunknown, List.length_pos_iff.mpr hmap⟩,
    selectionLoop_eq_getElem? (Nat.zero_le idx), Nat.sub_zero]
  cases c.mboxes[idx]? with
  | none => rfl
  | some el => cases hsend : send el.2 (.clientRequest ⟨c.mbox, []⟩) <;> simp [hsend] <;> rfl

/-! ### Which servers are picked -/

/-- Entering the state `on` with an index picks a server of the map: one message is sent, a request
to its mailbox, and the client takes it for the leader. -/
def Picks (c : Client) (idx : ℕ) (name : ByteString) : Prop :=
  ∃ mbox c', (name, some mbox) ∈ c.mboxes ∧
    c.enterOn idx = .ok (c', [(mbox, .clientRequest ⟨c.mbox, []⟩)]) ∧ c'.clusterLeader = name

/-- Every index that can be drawn picks a server, and different indices pick different servers. -/
def AlwaysPicks (c : Client) : Prop :=
  (∀ idx, c.Draws idx → ∃ name, c.Picks idx name) ∧
    ∀ idx idx' name, c.Picks idx name → c.Picks idx' name → idx = idx'

/-- An index picks the server that has it in the map, if this server has a mailbox. -/
theorem picks_iff (hunknown : c.clusterLeader = []) :
    c.Picks idx name ↔ ∃ mbox, c.mboxes[idx]? = some (name, some mbox) := by
  constructor
  · rintro ⟨mbox, c', hmem, henter, rfl⟩
    rw [enterOn_eq_selectionLoop hunknown (List.ne_nil_of_mem hmem),
      selectionLoop_eq_getElem? (Nat.zero_le idx), Nat.sub_zero] at henter
    cases hel : c.mboxes[idx]? with
    | none => simp [hel] at henter
    | some el =>
      obtain ⟨first, target⟩ := el
      cases target with
      | none => simp [hel, send, Except.map] at henter
      | some other =>
        simp only [hel, send, Except.map, Except.ok.injEq, Prod.mk.injEq, List.cons.injEq,
          and_true] at henter
        obtain ⟨rfl, -⟩ := henter
        exact ⟨other, rfl⟩
  · rintro ⟨mbox, hel⟩
    have hmem := List.mem_of_getElem? hel
    refine ⟨mbox, { c with clusterLeader := name }, hmem, ?_, rfl⟩
    rw [enterOn_eq_selectionLoop hunknown (List.ne_nil_of_mem hmem),
      selectionLoop_eq_getElem? (Nat.zero_le idx), Nat.sub_zero, hel]
    rfl

/-- An index picks a server exactly when it is below the size of the map and the server that has it
has a mailbox. -/
theorem exists_picks_iff (hunknown : c.clusterLeader = []) :
    (∃ name, c.Picks idx name) ↔
      idx < c.mboxes.length ∧ ∀ el, c.mboxes[idx]? = some el → el.2 ≠ none := by
  simp only [picks_iff hunknown]
  constructor
  · rintro ⟨name, mbox, hel⟩
    refine ⟨(List.getElem?_eq_some_iff.mp hel).1, fun el hsame ↦ ?_⟩
    rw [← Option.some.inj (hel.symm.trans hsame)]
    exact Option.some_ne_none mbox
  · rintro ⟨hlt, hmbox⟩
    have hel := List.getElem?_eq_getElem hlt
    obtain ⟨mbox, htarget⟩ := Option.ne_none_iff_exists'.mp (hmbox _ hel)
    exact ⟨_, mbox, hel.trans (congrArg some (Prod.ext rfl htarget))⟩

/-- A server is picked by one index only, since the map has it once. -/
theorem picks_inj (hkeys : (c.mboxes.map Prod.fst).Nodup) (hunknown : c.clusterLeader = [])
    (h : c.Picks idx name) (h' : c.Picks idx' name) : idx = idx' := by
  obtain ⟨mbox, hel⟩ := (picks_iff hunknown).mp h
  obtain ⟨mbox', hel'⟩ := (picks_iff hunknown).mp h'
  have hkey : (c.mboxes.map Prod.fst)[idx]? = some name := by rw [List.getElem?_map, hel]; rfl
  have hkey' : (c.mboxes.map Prod.fst)[idx']? = some name := by rw [List.getElem?_map, hel']; rfl
  exact (List.getElem?_inj (List.getElem?_eq_some_iff.mp hkey).1 hkeys).mp (hkey.trans hkey'.symm)

/-- The size of the map picks no server: the client asks nobody and knows no leader. -/
theorem enterOn_length (hunknown : c.clusterLeader = []) :
    c.enterOn c.mboxes.length = .ok (c, []) := by
  by_cases hmap : c.mboxes = []
  · simp [enterOn, hmap]
  · rw [enterOn_eq_selectionLoop hunknown hmap, selectionLoop_eq_getElem? (Nat.zero_le _),
      Nat.sub_zero, List.getElem?_eq_none le_rfl]

/-- A client whose map has a size that fits an `int` does not always pick a server: the size itself
can be drawn. -/
theorem not_alwaysPicks (hunknown : c.clusterLeader = []) (hsize : c.mboxes.length < 2 ^ 31) :
    ¬ c.AlwaysPicks := by
  rintro ⟨hpicks, -⟩
  obtain ⟨name, mbox, c', -, henter, -⟩ := hpicks c.mboxes.length ((draws_iff hsize).mpr le_rfl)
  rw [enterOn_length hunknown] at henter
  simp at henter

end Client

/-! ### The client of the system -/

namespace System

variable {m : Membership} {trace : History} {sys : System} {idx : ℕ}

/-- In a run of the system the map of the client has every server once, with a mailbox. -/
theorem mboxes_run (hrun : Run m initial trace sys) :
    (sys.client.mboxes.map Prod.fst).Nodup ∧ ∀ el ∈ sys.client.mboxes, el.2 ≠ none := by
  rcases (informed_run hrun).1.map with hnone | hwhole
  · simp [hnone]
  · rw [hwhole]
    refine ⟨?_, fun el hel ↦ ?_⟩
    · simpa [Membership.setCluster, Function.comp_def] using m.nodup
    · rw [(Membership.mem_setCluster.mp hel).2]
      exact Option.some_ne_none _

/-- In a run of the system an index picks a server exactly when it is below the size of the map. -/
theorem exists_picks_iff (hrun : Run m initial trace sys)
    (hunknown : sys.client.clusterLeader = []) :
    (∃ name, sys.client.Picks idx name) ↔ idx < sys.client.mboxes.length := by
  rw [Client.exists_picks_iff hunknown]
  exact and_iff_left fun el hel ↦ (mboxes_run hrun).2 el (List.mem_of_getElem? hel)

end System

/-- When a client that knows no leader enters the state `on`, an index that can be drawn picks a
server exactly when it is below the size of the map and the server that has it has a mailbox.
Different indices pick different servers. The size of the map can be drawn too, as long as it fits
an `int`, so that the client does not always pick a server. -/
theorem picks_server_iff {c : Client} (hkeys : (c.mboxes.map Prod.fst).Nodup)
    (hunknown : c.clusterLeader = []) :
    (∀ idx, c.Draws idx → ((∃ name, c.Picks idx name) ↔
        idx < c.mboxes.length ∧ ∀ el, c.mboxes[idx]? = some el → el.2 ≠ none)) ∧
      (∀ idx idx' name, c.Picks idx name → c.Picks idx' name → idx = idx') ∧
      (c.mboxes.length < 2 ^ 31 → ¬ c.AlwaysPicks) :=
  ⟨fun _ _ ↦ Client.exists_picks_iff hunknown,
    fun _ _ _ h h' ↦ Client.picks_inj hkeys hunknown h h',
    Client.not_alwaysPicks hunknown⟩

/-- The client of the system after it has handled the messages of `main`. -/
def Schedule.introduced (m : Membership) : Client :=
  (Client.initial.handle (.setCluster m.setCluster)).handle (.setMBox (some System.clientInbox))

/-- The last index below the size picks the last of three servers. -/
theorem picks_server_iff_introduced :
    ∃ name, (Schedule.introduced Schedule.trio).Picks 2 name :=
  ((picks_server_iff (by decide) rfl).1 2 (by decide)).mpr (by decide)

/-- The client of three servers draws the index `3` and asks none of them. -/
theorem not_picks_server_lastDraw :
    ¬ ∀ c : Client, (c.mboxes.map Prod.fst).Nodup → c.clusterLeader = [] → c.mboxes ≠ [] →
      c.AlwaysPicks := by
  intro hclaim
  have hpicks := (hclaim (Schedule.introduced Schedule.trio) (by decide) rfl (by decide)).1
  obtain ⟨name, mbox, c', -, henter, -⟩ := hpicks 3 (by decide)
  have hasked : (Schedule.introduced Schedule.trio).enterOn 3 =
      .ok (Schedule.introduced Schedule.trio, []) := by
    decide
  rw [hasked] at henter
  simp at henter

end RaftConsensus
