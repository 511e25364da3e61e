import Mathlib.Data.List.Infix
import Mathlib.Logic.Function.Basic
import RaftConsensus.Library.TransitionSystem

/-!
# Append-only replicated logs

Replicas of type `N` hold logs of entries of type `E`. A log only grows, by an entry that the
replica creates, or by a stretch of the log of another replica that it copies. `replay` gives the
logs after a list of events.

Nothing keeps such logs together by itself. The results say what follows when every event of a
history meets a condition on the logs before it.

- Entries that know their `home` and `index` are found there, however often they have been copied
  (`original_of_replay`). When moreover every stretch is copied to the index it has in its source,
  an entry stands at its own index wherever it is (`indexed_of_replay`), and so at most once in
  each log.
- A replica has two copies of an entry exactly when it has copied the entry twice, in one stretch
  or in two (`copies_le_one_iff`).
- When a stretch is copied only after an entry of the term that precedes it in its source, and no
  two replicas create entries of one term, logs that have an entry of one term at one index are
  equal up to there (`matching_of_replay`).
- When every stretch is copied to its own index, and a replica creates an entry only while no other
  log is longer than its own, any two logs are prefixes one of the other (`comparable_of_replay`).
-/

set_option autoImplicit false
set_option relaxedAutoImplicit false

namespace ReplicatedLog

open TransitionSystem

variable {N E F T : Type*}

/-- What happens to the logs: a replica creates an entry, or copies a stretch of the log of another
one, given by its first index and its length. -/
inductive Event (N E : Type*)
  | create (replica : N) (entry : E)
  | copy (source target : N) (start count : ℕ)
  deriving DecidableEq, Repr

/-- The same event with relabelled entries. -/
def Event.map (f : E → F) : Event N E → Event N F
  | .create replica entry => .create replica (f entry)
  | .copy source target start count => .copy source target start count

/-- The log of every replica. -/
abbrev Logs (N E : Type*) := N → List E

/-! ### Stretches of a log -/

/-- The stretch of a log with a first index and a length. -/
def stretch (log : List E) (start count : ℕ) : List E := (log.drop start).take count

theorem stretch_map (f : E → F) (log : List E) (start count : ℕ) :
    stretch (log.map f) start count = (stretch log start count).map f := by
  simp [stretch]

/-- The entries of a stretch stand in the log from its first index on. -/
theorem getElem?_stretch {log : List E} {start count i : ℕ} (h : i < count) :
    (stretch log start count)[i]? = log[start + i]? := by
  rw [stretch, List.getElem?_take_of_lt h, List.getElem?_drop]

/-- An index within a stretch is below its length. -/
theorem lt_of_stretch {log : List E} {start count i : ℕ} {e : E}
    (h : (stretch log start count)[i]? = some e) : i < count :=
  (List.getElem?_eq_some_iff.mp h).1.trans_le (List.length_take_le _ _)

/-- An entry of a stretch is one of the log. -/
theorem getElem?_of_stretch {log : List E} {start count i : ℕ} {e : E}
    (h : (stretch log start count)[i]? = some e) : log[start + i]? = some e := by
  rwa [getElem?_stretch (lt_of_stretch h)] at h

/-- A stretch that ends within a log is one of a longer log. -/
theorem stretch_append {log more : List E} {start count : ℕ} (h : start + count ≤ log.length) :
    stretch (log ++ more) start count = stretch log start count := by
  rw [stretch, stretch, List.drop_append_of_le_length (by omega),
    List.take_append_of_le_length (by rw [List.length_drop]; omega)]

/-- A prefix of a log, continued by the stretch that follows it, is a prefix. -/
theorem append_stretch_isPrefix {front log : List E} (h : front <+: log) (count : ℕ) :
    front ++ stretch log front.length count <+: log := by
  obtain ⟨rest, rfl⟩ := h
  rw [stretch, List.drop_left]
  exact (List.prefix_append_right_inj front).mpr (List.take_prefix count rest)

/-- There is no stretch behind the end of a log. -/
theorem stretch_eq_nil {log : List E} {start : ℕ} (h : log.length ≤ start) (count : ℕ) :
    stretch log start count = [] := by
  simp [stretch, List.drop_eq_nil_of_le h]

/-- Logs of which one is a prefix of the other are equal up to the end of the shorter one. -/
theorem take_eq_of_isPrefix {front log : List E} (h : front <+: log) {i : ℕ}
    (hi : i ≤ front.length) : log.take i = front.take i := by
  obtain ⟨rest, rfl⟩ := h
  exact List.take_append_of_le_length hi

/-! ### Conditions on events -/

variable {logs : Logs N E} {events : List (Event N E)} {event : Event N E}

/-- A stretch is copied to the index that it has in its source. -/
def Aligned (logs : Logs N E) : Event N E → Prop
  | .create _ _ => True
  | .copy _ target start _ => start = (logs target).length

/-- A stretch is copied to the index that it has in its source, after an entry of the term that
precedes it there. -/
def Fits (term : E → T) (logs : Logs N E) : Event N E → Prop
  | .create _ _ => True
  | .copy source target start _ => start = (logs target).length ∧
      ((logs source).take start).getLast?.map term = (logs target).getLast?.map term

/-- No two replicas create entries of one term. -/
def SameCreator (term : E → T) : Event N E → Event N E → Prop
  | .create first entry, .create second entry' => term entry = term entry' → first = second
  | _, _ => True

/-- A replica creates an entry only while no log is longer than its own. -/
def Leads (logs : Logs N E) : Event N E → Prop
  | .create replica _ => ∀ n, (logs n).length ≤ (logs replica).length
  | .copy _ _ _ _ => True

/-- A replica has created an entry of a term. -/
def Created (term : E → T) (events : List (Event N E)) (t : T) (n : N) : Prop :=
  ∃ e, .create n e ∈ events ∧ term e = t

/-- A term has one creator when no two replicas create entries of one term. -/
theorem Created.unique {term : E → T}
    (h : Along (fun earlier event ↦ ∀ y ∈ earlier, SameCreator term y event) events) {t : T}
    {m n : N} (hm : Created term events t m) (hn : Created term events t n) : m = n := by
  obtain ⟨e, he, rfl⟩ := hm
  obtain ⟨e', he', hterm⟩ := hn
  have hpair : SameCreator term (.create m e) (.create n e') := by
    refine h.forall_mem ?_ ?_ he he'
    · rintro (_ | _) <;> simp [SameCreator]
    · rintro (_ | _) (_ | _) hsame
      · exact fun hterm ↦ (hsame hterm.symm).symm
      all_goals trivial
  exact hpair hterm.symm

/-! ### Logs that match -/

/-- An entry of a log is in the log of a replica that creates entries of its term, after the same
entries: `creator` relates terms to these replicas. -/
def Rooted (term : E → T) (creator : T → N → Prop) (logs : Logs N E) : Prop :=
  ∀ (n : N) (i : ℕ) (e : E), (logs n)[i]? = some e →
    ∃ replica, creator (term e) replica ∧ (logs n).take (i + 1) <+: logs replica

/-- Logs that have an entry of one term at one index are equal up to there. -/
def Matching (term : E → T) (logs : Logs N E) : Prop :=
  ∀ (m n : N) (i : ℕ) (e e' : E), (logs m)[i]? = some e → (logs n)[i]? = some e' →
    term e = term e' → (logs m).take (i + 1) = (logs n).take (i + 1)

/-- Logs whose entries are rooted match when every term has one creator. -/
theorem Rooted.matching {term : E → T} {creator : T → N → Prop} (h : Rooted term creator logs)
    (hunique : ∀ t m n, creator t m → creator t n → m = n) : Matching term logs := by
  intro m n i e e' he he' hterm
  obtain ⟨replica, hcreator, hle⟩ := h m i e he
  obtain ⟨replica', hcreator', hle'⟩ := h n i e' he'
  obtain rfl := hunique _ _ _ hcreator (hterm ▸ hcreator')
  obtain ⟨hi, -⟩ := List.getElem?_eq_some_iff.mp he
  obtain ⟨hi', -⟩ := List.getElem?_eq_some_iff.mp he'
  rw [List.prefix_iff_eq_take.mp hle, List.prefix_iff_eq_take.mp hle',
    List.length_take_of_le hi, List.length_take_of_le hi']

/-- A stretch that fits continues a log that matches its source. -/
theorem Matching.append_stretch {term : E → T} (h : Matching term logs) {source target : N}
    {count : ℕ}
    (hfits : Fits term logs (.copy source target (logs target).length count))
    (hstretch : stretch (logs source) (logs target).length count ≠ []) :
    logs target ++ stretch (logs source) (logs target).length count <+: logs source := by
  refine append_stretch_isPrefix ?_ count
  rcases (logs target).eq_nil_or_concat with htarget | ⟨front, last, htarget⟩
  · rw [htarget]
    exact List.nil_prefix
  · have hlong : (logs target).length < (logs source).length := by
      by_contra hshort
      exact hstretch (stretch_eq_nil (not_lt.mp hshort) count)
    have hlast : (logs target)[front.length]? = some last := by simp [htarget]
    have hlength : (logs target).length = front.length + 1 := by simp [htarget]
    obtain ⟨e, he⟩ : ∃ e, (logs source)[front.length]? = some e :=
      ⟨_, List.getElem?_eq_getElem (by omega)⟩
    have hterm : term e = term last := by
      have hpair := hfits.2
      rw [hlength, List.getLast?_take, if_neg (by omega), Nat.add_sub_cancel, he,
        htarget] at hpair
      simpa using hpair
    have hequal := h source target front.length e last he hlast hterm
    rw [← hlength, List.take_length] at hequal
    exact hequal ▸ List.take_prefix _ _

variable [DecidableEq N]

/-! ### Replaying events -/

/-- The effect of an event on the logs. -/
def Logs.apply (logs : Logs N E) : Event N E → Logs N E
  | .create replica entry => Function.update logs replica (logs replica ++ [entry])
  | .copy source target start count =>
    Function.update logs target (logs target ++ stretch (logs source) start count)

/-- The logs after a list of events. -/
def replay (events : List (Event N E)) : Logs N E := events.foldl Logs.apply fun _ ↦ []

@[simp] theorem replay_nil : replay ([] : List (Event N E)) = fun _ ↦ [] := rfl

@[simp] theorem replay_snoc : replay (events ++ [event]) = (replay events).apply event := by
  simp [replay]

/-- An event with relabelled entries has its effect on the logs with relabelled entries. -/
theorem apply_map (f : E → F) (logs : Logs N E) (event : Event N E) :
    (fun n ↦ (logs.apply event n).map f) = Logs.apply (fun n ↦ (logs n).map f) (event.map f) := by
  funext n
  cases event with
  | create replica entry =>
    by_cases hn : n = replica
    · subst hn
      simp [Logs.apply, Event.map]
    · simp [Logs.apply, Event.map, Function.update_of_ne hn]
  | copy source target start count =>
    by_cases hn : n = target
    · subst hn
      simp [Logs.apply, Event.map, stretch_map]
    · simp [Logs.apply, Event.map, Function.update_of_ne hn]

/-- Replaying events with relabelled entries relabels the entries of the logs. -/
theorem replay_map (f : E → F) (events : List (Event N E)) :
    replay (events.map (Event.map f)) = fun n ↦ (replay events n).map f := by
  induction events using List.reverseRecOn with
  | nil => rfl
  | append_singleton events event ih =>
    rw [List.map_append, List.map_singleton, replay_snoc, ih, replay_snoc, apply_map]

/-- An event lets every log grow. -/
theorem prefix_apply (logs : Logs N E) (event : Event N E) (n : N) :
    logs n <+: logs.apply event n := by
  cases event with
  | create replica entry =>
    by_cases hn : n = replica
    · subst hn
      simp [Logs.apply]
    · simp [Logs.apply, Function.update_of_ne hn]
  | copy source target start count =>
    by_cases hn : n = target
    · subst hn
      simp [Logs.apply]
    · simp [Logs.apply, Function.update_of_ne hn]

/-- A history lets every log grow. -/
theorem replay_isPrefix (past recent : List (Event N E)) (n : N) :
    replay past n <+: replay (past ++ recent) n := by
  induction recent using List.reverseRecOn with
  | nil => rw [List.append_nil]
  | append_singleton recent event ih =>
    rw [← List.append_assoc, replay_snoc]
    exact ih.trans (prefix_apply _ event n)

/-- An entry of a log after an event was there before, has been created, or has been copied. -/
theorem getElem?_apply {n : N} {i : ℕ} {e : E} (h : (logs.apply event n)[i]? = some e) :
    (logs n)[i]? = some e ∨
      (event = .create n e ∧ i = (logs n).length) ∨
      ∃ source start count j, event = .copy source n start count ∧ i = (logs n).length + j ∧
        (stretch (logs source) start count)[j]? = some e := by
  have hnew : ∀ {added : List E}, (logs n ++ added)[i]? = some e →
      (logs n)[i]? = some e ∨ ∃ j, i = (logs n).length + j ∧ added[j]? = some e := by
    intro added hadded
    rw [List.getElem?_append] at hadded
    split_ifs at hadded with hi
    · exact Or.inl hadded
    · exact Or.inr ⟨i - (logs n).length, by omega, hadded⟩
  cases event with
  | create replica entry =>
    by_cases hn : n = replica
    · subst hn
      rw [Logs.apply, Function.update_self] at h
      rcases hnew h with hold | ⟨j, hi, hentry⟩
      · exact Or.inl hold
      · obtain ⟨rfl, rfl⟩ : j = 0 ∧ entry = e := by
          cases j <;> simp_all
        exact Or.inr (Or.inl ⟨rfl, hi⟩)
    · rw [Logs.apply, Function.update_of_ne hn] at h
      exact Or.inl h
  | copy source target start count =>
    by_cases hn : n = target
    · subst hn
      rw [Logs.apply, Function.update_self] at h
      rcases hnew h with hold | ⟨j, hi, hentry⟩
      · exact Or.inl hold
      · exact Or.inr (Or.inr ⟨source, start, count, j, rfl, hi, hentry⟩)
    · rw [Logs.apply, Function.update_of_ne hn] at h
      exact Or.inl h

/-- An entry of a log is there after an event. -/
theorem getElem?_apply_of_getElem? {n : N} {i : ℕ} {e : E} (h : (logs n)[i]? = some e)
    (event : Event N E) : (logs.apply event n)[i]? = some e := by
  obtain ⟨added, hadded⟩ := prefix_apply logs event n
  rw [← hadded, List.getElem?_append_left (List.getElem?_eq_some_iff.mp h).1]
  exact h

/-! ### Where an entry is found -/

/-- An entry with the replica that creates it and the index at which it does. -/
structure Cell (N E : Type*) where
  home : N
  index : ℕ
  entry : E
  deriving DecidableEq, Repr

/-- A created entry is labelled with its replica and its index. -/
def Labelled (logs : Logs N (Cell N E)) : Event N (Cell N E) → Prop
  | .create replica cell => cell.home = replica ∧ cell.index = (logs replica).length
  | .copy _ _ _ _ => True

section Cells

variable {logs : Logs N (Cell N E)} {events : List (Event N (Cell N E))}
  {event : Event N (Cell N E)}

/-- The original of every entry stands where its label says. -/
def Original (logs : Logs N (Cell N E)) : Prop :=
  ∀ (n : N) (i : ℕ) (cell : Cell N E), (logs n)[i]? = some cell →
    (logs cell.home)[cell.index]? = some cell

theorem Original.apply (h : Original logs) (hlabelled : Labelled logs event) :
    Original (logs.apply event) := by
  intro n i cell hcell
  rcases getElem?_apply hcell with hold | ⟨rfl, rfl⟩ | ⟨source, start, count, j, rfl, -, hsource⟩
  · exact getElem?_apply_of_getElem? (h n i cell hold) event
  · obtain ⟨rfl, hindex⟩ := hlabelled
    rw [hindex]
    exact hcell
  · exact getElem?_apply_of_getElem? (h source _ cell (getElem?_of_stretch hsource)) _

/-- The original of every entry stands where its label says, in every history. -/
theorem original_of_replay
    (h : Along (fun earlier event ↦ Labelled (replay earlier) event) events) :
    Original (replay events) := by
  induction events using List.reverseRecOn with
  | nil => simp [Original]
  | append_singleton events event ih =>
    obtain ⟨hrest, hlast⟩ := along_snoc.mp h
    rw [replay_snoc]
    exact (ih hrest).apply hlast

/-- Every entry stands at its own index. -/
def Indexed (logs : Logs N (Cell N E)) : Prop :=
  ∀ (n : N) (i : ℕ) (cell : Cell N E), (logs n)[i]? = some cell → cell.index = i

theorem Indexed.apply (h : Indexed logs) (hlabelled : Labelled logs event)
    (haligned : Aligned logs event) : Indexed (logs.apply event) := by
  intro n i cell hcell
  rcases getElem?_apply hcell with hold | ⟨rfl, rfl⟩ | ⟨source, start, count, j, rfl, rfl, hsource⟩
  · exact h n i cell hold
  · exact hlabelled.2
  · obtain rfl : start = (logs n).length := haligned
    exact h source _ cell (getElem?_of_stretch hsource)

/-- Every entry stands at its own index when every stretch is copied to its own index. -/
theorem indexed_of_replay (h : Along (fun earlier event ↦
      Labelled (replay earlier) event ∧ Aligned (replay earlier) event) events) :
    Indexed (replay events) := by
  induction events using List.reverseRecOn with
  | nil => simp [Indexed]
  | append_singleton events event ih =>
    obtain ⟨hrest, hlabelled, haligned⟩ := along_snoc.mp h
    rw [replay_snoc]
    exact (ih hrest).apply hlabelled haligned

/-- The number of copies in a log of the entry that a replica created at an index. -/
def copies (log : List (Cell N E)) (home : N) (index : ℕ) : ℕ :=
  log.countP fun cell ↦ cell.home = home ∧ cell.index = index

/-- A log in which the copies of an entry can only stand at one index has at most one of them. -/
theorem copies_le_one {log : List (Cell N E)} {home : N} {index i : ℕ}
    (h : ∀ (j : ℕ) (cell : Cell N E), log[j]? = some cell → cell.home = home →
      cell.index = index → j = i) : copies log home index ≤ 1 := by
  induction log generalizing i with
  | nil => simp [copies]
  | cons first rest ih =>
    rw [copies, List.countP_cons]
    split_ifs with hfirst
    · have hzero : rest.countP (fun cell ↦ cell.home = home ∧ cell.index = index) = 0 := by
        refine List.countP_eq_zero.mpr fun cell hcell hcopy ↦ ?_
        obtain ⟨j, hj⟩ := List.mem_iff_getElem?.mp hcell
        obtain ⟨hhome, hindex⟩ := of_decide_eq_true hcopy
        obtain ⟨hhome', hindex'⟩ := of_decide_eq_true hfirst
        have hlater := h (j + 1) cell hj hhome hindex
        have hzero := h 0 first rfl hhome' hindex'
        omega
      omega
    · have hrest : copies rest home index ≤ 1 := by
        refine ih fun j cell hj hhome hindex ↦ show j = i - 1 from ?_
        have hlater := h (j + 1) cell hj hhome hindex
        omega
      exact hrest

/-- A log without a copy of an entry has none. -/
theorem copies_eq_zero {log : List (Cell N E)} {home : N} {index : ℕ}
    (h : ∀ cell ∈ log, cell.home = home → cell.index ≠ index) : copies log home index = 0 := by
  refine List.countP_eq_zero.mpr fun cell hcell hcopy ↦ ?_
  obtain ⟨hhome, hindex⟩ := of_decide_eq_true hcopy
  exact h cell hcell hhome hindex

/-- A log has a copy of an entry exactly when it has a cell with its label. -/
theorem copies_ne_zero_iff {log : List (Cell N E)} {home : N} {index : ℕ} :
    copies log home index ≠ 0 ↔ ∃ cell ∈ log, cell.home = home ∧ cell.index = index := by
  rw [copies, ← Nat.pos_iff_ne_zero, List.countP_pos_iff]
  simp only [decide_eq_true_eq]

theorem copies_append (log added : List (Cell N E)) (home : N) (index : ℕ) :
    copies (log ++ added) home index = copies log home index + copies added home index :=
  List.countP_append

/-- When every stretch is copied to its own index, a log has at most one copy of an entry. -/
theorem Indexed.copies_le_one (h : Indexed logs) (n home : N) (index : ℕ) :
    copies (logs n) home index ≤ 1 :=
  ReplicatedLog.copies_le_one fun j cell hcell _ hindex ↦ (h n j cell hcell).symm.trans hindex

end Cells

/-! ### How often an entry is copied -/

/-- The stretch that an event copies into the log of a replica. -/
def Event.copied (logs : Logs N E) (n : N) : Event N E → List E
  | .create _ _ => []
  | .copy source target start count => if target = n then stretch (logs source) start count else []

/-- A stretch that is copied ends within its source. -/
def InRange (logs : Logs N E) : Event N E → Prop
  | .create _ _ => True
  | .copy source _ start count => start + count ≤ (logs source).length

/-- What an event copies stays in its source. -/
theorem InRange.copied_apply {logs : Logs N E} {event : Event N E} (h : InRange logs event)
    (later : Event N E) (n : N) : event.copied (logs.apply later) n = event.copied logs n := by
  cases event with
  | create => rfl
  | copy source target start count =>
    obtain ⟨added, hadded⟩ := prefix_apply logs later source
    rw [Event.copied, Event.copied, ← hadded, stretch_append h]

/-- The events of a history stay in range. -/
theorem inRange_of_mem {events : List (Event N E)}
    (h : Along (fun earlier event ↦ InRange (replay earlier) event) events) {event : Event N E}
    (hevent : event ∈ events) : InRange (replay events) event := by
  induction events using List.reverseRecOn with
  | nil => simp at hevent
  | append_singleton events last ih =>
    obtain ⟨hrest, hlast⟩ := along_snoc.mp h
    have hrange : InRange (replay events) event := by
      rcases List.mem_append.mp hevent with hold | hnew
      · exact ih hrest hold
      · exact List.mem_singleton.mp hnew ▸ hlast
    rw [replay_snoc]
    cases event with
    | create => trivial
    | copy source target start count =>
      exact hrange.trans (prefix_apply (replay events) last source).length_le

section Copies

variable {logs : Logs N (Cell N E)} {event : Event N (Cell N E)}
  {past recent : List (Event N (Cell N E))} {home n : N} {p : ℕ}

/-- Copies of an entry come into another log than that of its home by being copied. -/
theorem Labelled.copies_apply (h : Labelled logs event) (hn : n ≠ home) :
    copies (logs.apply event n) home p =
      copies (logs n) home p + copies (event.copied logs n) home p := by
  cases event with
  | create replica cell =>
    by_cases hreplica : n = replica
    · subst hreplica
      have hcell : copies [cell] home p = 0 := by
        refine copies_eq_zero fun other hother hhome ↦ ?_
        rw [List.mem_singleton.mp hother, h.1] at hhome
        exact absurd hhome hn
      rw [Logs.apply, Function.update_self, copies_append, hcell]
      rfl
    · rw [Logs.apply, Function.update_of_ne hreplica]
      rfl
  | copy source target start count =>
    by_cases htarget : target = n
    · subst htarget
      rw [Logs.apply, Function.update_self, copies_append, Event.copied, if_pos rfl]
    · rw [Logs.apply, Function.update_of_ne (Ne.symm htarget), Event.copied, if_neg htarget]
      rfl

/-- No log has a copy of an entry that has not been created. -/
theorem copies_eq_zero_of_length_le
    (hlabelled : Along (fun earlier event ↦ Labelled (replay earlier) event) past)
    (hp : (replay past home).length ≤ p) : copies (replay past n) home p = 0 := by
  refine copies_eq_zero fun cell hcell hhome hindex ↦ ?_
  obtain ⟨i, hi⟩ := List.mem_iff_getElem?.mp hcell
  have horiginal := original_of_replay hlabelled n i cell hi
  rw [hhome, hindex] at horiginal
  have hlt := (List.getElem?_eq_some_iff.mp horiginal).1
  omega

/-- A log other than that of its home has no copy of an entry exactly when none of the events since
its creation has copied it there. -/
theorem copies_replay_eq_zero_iff
    (hlabelled : Along (fun earlier event ↦ Labelled (replay earlier) event) (past ++ recent))
    (hrange : Along (fun earlier event ↦ InRange (replay earlier) event) (past ++ recent))
    (hn : n ≠ home) (hp : (replay past home).length ≤ p) :
    copies (replay (past ++ recent) n) home p = 0 ↔
      ∀ event ∈ recent, copies (event.copied (replay (past ++ recent)) n) home p = 0 := by
  induction recent using List.reverseRecOn with
  | nil =>
    rw [List.append_nil] at hlabelled ⊢
    simp [copies_eq_zero_of_length_le hlabelled hp]
  | append_singleton recent event ih =>
    rw [← List.append_assoc] at hlabelled hrange ⊢
    obtain ⟨hlabelledRest, hlabelledLast⟩ := along_snoc.mp hlabelled
    obtain ⟨hrangeRest, hrangeLast⟩ := along_snoc.mp hrange
    have hkept : ∀ earlier ∈ recent, earlier.copied ((replay (past ++ recent)).apply event) n =
        earlier.copied (replay (past ++ recent)) n := fun earlier hearlier ↦
      (inRange_of_mem hrangeRest (List.mem_append_right _ hearlier)).copied_apply event n
    rw [replay_snoc, hlabelledLast.copies_apply hn, Nat.add_eq_zero_iff,
      ih hlabelledRest hrangeRest, List.forall_mem_append, List.forall_mem_singleton,
      hrangeLast.copied_apply]
    refine and_congr_left fun _ ↦ forall₂_congr fun earlier hearlier ↦ ?_
    rw [hkept earlier hearlier]

/-- The entries that a replica has created from an index on are copied into another log at most
once: an event copies each of them once, and none that an earlier event has copied there. -/
def CopiesOnce (home n : N) (base : ℕ) (past earlier : List (Event N (Cell N E)))
    (event : Event N (Cell N E)) : Prop :=
  ∀ p, base ≤ p → copies (event.copied (replay (past ++ earlier)) n) home p ≠ 0 →
    copies (event.copied (replay (past ++ earlier)) n) home p = 1 ∧
      ∀ other ∈ earlier, copies (other.copied (replay (past ++ earlier)) n) home p = 0

/-- A log never has two copies of an entry that another replica has created since some events,
exactly when every event copies these entries once. -/
theorem copies_le_one_iff
    (hlabelled : Along (fun earlier event ↦ Labelled (replay earlier) event) (past ++ recent))
    (hrange : Along (fun earlier event ↦ InRange (replay earlier) event) (past ++ recent))
    (hn : n ≠ home) :
    (∀ earlier later, recent = earlier ++ later → ∀ p, (replay past home).length ≤ p →
        copies (replay (past ++ earlier) n) home p ≤ 1) ↔
      Along (CopiesOnce home n (replay past home).length past) recent := by
  refine along_iff_forall_append (fun p hp ↦ ?_) fun earlier event later hrecent hone ↦ ?_
  · rw [List.append_nil, copies_eq_zero_of_length_le hlabelled.of_append hp]
    exact Nat.zero_le 1
  · subst hrecent
    rw [← List.append_assoc] at hlabelled hrange
    have hcopies (p : ℕ) : copies (replay (past ++ (earlier ++ [event])) n) home p =
        copies (replay (past ++ earlier) n) home p +
          copies (event.copied (replay (past ++ earlier)) n) home p := by
      rw [← List.append_assoc, replay_snoc, hlabelled.at.copies_apply hn]
    have hzero (p : ℕ) (hp : (replay past home).length ≤ p) :
        copies (replay (past ++ earlier) n) home p = 0 ↔
          ∀ other ∈ earlier, copies (other.copied (replay (past ++ earlier)) n) home p = 0 :=
      copies_replay_eq_zero_iff hlabelled.of_append hrange.of_append hn hp
    constructor
    · intro hnext p hp hcopied
      have hle := hnext p hp
      rw [hcopies] at hle
      exact ⟨by omega, (hzero p hp).mp (by omega)⟩
    · intro honce p hp
      rw [hcopies]
      have hle := hone p hp
      by_cases hcopied : copies (event.copied (replay (past ++ earlier)) n) home p = 0
      · omega
      · obtain ⟨hcount, hothers⟩ := honce p hp hcopied
        have hbefore := (hzero p hp).mpr hothers
        omega

end Copies

/-! ### Histories of matching logs -/

/-- An event that fits keeps the entries of the logs rooted, with its own creation counted. -/
theorem Rooted.apply {term : E → T} {creator creator' : T → N → Prop}
    (h : Rooted term creator logs) (hmatching : Matching term logs)
    (hfits : Fits term logs event) (hold : ∀ t n, creator t n → creator' t n)
    (hnew : ∀ n e, event = .create n e → creator' (term e) n) :
    Rooted term creator' (logs.apply event) := by
  intro n i e he
  rcases getElem?_apply he with hkept | ⟨rfl, rfl⟩ | ⟨source, start, count, j, rfl, rfl, hcopied⟩
  · obtain ⟨replica, hcreator, hle⟩ := h n i e hkept
    obtain ⟨hi, -⟩ := List.getElem?_eq_some_iff.mp hkept
    refine ⟨replica, hold _ _ hcreator, ?_⟩
    rw [take_eq_of_isPrefix (prefix_apply logs event n) hi]
    exact hle.trans (prefix_apply logs event replica)
  · exact ⟨n, hnew n e rfl, List.take_prefix _ _⟩
  · obtain rfl : start = (logs n).length := hfits.1
    have hstretch : stretch (logs source) (logs n).length count ≠ [] := by
      intro hnil
      simp [hnil] at hcopied
    have hsource := hmatching.append_stretch hfits hstretch
    obtain ⟨replica, hcreator, hle⟩ := h source _ e (getElem?_of_stretch hcopied)
    have hlog : logs.apply (.copy source n (logs n).length count) n =
        logs n ++ stretch (logs source) (logs n).length count := by simp [Logs.apply]
    obtain ⟨hi, -⟩ := List.getElem?_eq_some_iff.mp he
    rw [hlog] at hi ⊢
    refine ⟨replica, hold _ _ hcreator, ?_⟩
    rw [← take_eq_of_isPrefix hsource hi]
    exact hle.trans (prefix_apply logs _ replica)

/-- Logs match when every copied stretch fits and every term has one creator. -/
theorem matching_of_replay {term : E → T} (h : Along (fun earlier event ↦
      Fits term (replay earlier) event ∧ ∀ y ∈ earlier, SameCreator term y event) events) :
    Matching term (replay events) := by
  suffices hrooted : Rooted term (Created term events) (replay events) from
    hrooted.matching fun _ _ _ ↦ Created.unique (h.mono fun _ _ hguard ↦ hguard.2)
  induction events using List.reverseRecOn with
  | nil => simp [Rooted]
  | append_singleton events event ih =>
    obtain ⟨hrest, hfits, -⟩ := along_snoc.mp h
    have hmatching := (ih hrest).matching fun _ _ _ ↦
      Created.unique (hrest.mono fun _ _ hguard ↦ hguard.2)
    rw [replay_snoc]
    refine (ih hrest).apply hmatching hfits ?_ ?_
    · rintro t n ⟨e, he, hterm⟩
      exact ⟨e, List.mem_append_left _ he, hterm⟩
    · rintro n e rfl
      exact ⟨e, by simp, rfl⟩

/-! ### Histories of comparable logs -/

/-- Of any two logs one is a prefix of the other. -/
def Comparable (logs : Logs N E) : Prop := ∀ m n, logs m <+: logs n ∨ logs n <+: logs m

/-- A prefix of a log is comparable to every log that the log is comparable to. -/
theorem comparable_of_isPrefix {front log other : List E} (hfront : front <+: log)
    (h : log <+: other ∨ other <+: log) : front <+: other ∨ other <+: front := by
  rcases h with hlog | hother
  · exact Or.inl (hfront.trans hlog)
  · exact List.prefix_or_prefix_of_prefix hfront hother

/-- When one log changes so that it stays comparable to the others, all logs stay comparable. -/
theorem Comparable.update (h : Comparable logs) {n : N} {log : List E}
    (hlog : ∀ m, m ≠ n → log <+: logs m ∨ logs m <+: log) :
    Comparable (Function.update logs n log) := by
  intro m m'
  by_cases hm : m = n <;> by_cases hm' : m' = n
  · subst hm hm'
    exact Or.inl List.prefix_rfl
  · subst hm
    simpa [Function.update_of_ne hm'] using hlog m' hm'
  · subst hm'
    simpa [Function.update_of_ne hm] using (hlog m hm).symm
  · simpa [Function.update_of_ne hm, Function.update_of_ne hm'] using h m m'

theorem Comparable.apply (h : Comparable logs) (haligned : Aligned logs event)
    (hleads : Leads logs event) : Comparable (logs.apply event) := by
  cases event with
  | create replica entry =>
    refine h.update fun m _ ↦ Or.inr ?_
    have hfront : logs m <+: logs replica := by
      rcases h m replica with hle | hle
      · exact hle
      · rw [hle.eq_of_length_le (hleads m)]
    exact hfront.trans (List.prefix_append _ _)
  | copy source target start count =>
    obtain rfl : start = (logs target).length := haligned
    refine h.update fun m _ ↦ ?_
    rcases h target source with hle | hle
    · exact comparable_of_isPrefix (append_stretch_isPrefix hle count) (h source m)
    · rw [stretch_eq_nil hle.length_le, List.append_nil]
      exact h target m

/-- Any two logs are comparable when every stretch is copied to its own index and entries are
created only by replicas whose logs are as long as all others. -/
theorem comparable_of_replay (h : Along (fun earlier event ↦
      Aligned (replay earlier) event ∧ Leads (replay earlier) event) events) :
    Comparable (replay events) := by
  induction events using List.reverseRecOn with
  | nil => simp [Comparable]
  | append_singleton events event ih =>
    obtain ⟨hrest, haligned, hleads⟩ := along_snoc.mp h
    rw [replay_snoc]
    exact (ih hrest).apply haligned hleads

end ReplicatedLog
