import Mathlib.Data.List.Induction

/-!
# Runs of a labelled step relation

A system is a step relation `step : σ → α → σ → Prop` on states, with the label of a step naming
what happened. `Run step start trace final` is a finite run with its whole history: the list of
its transitions, oldest first, each with the state it left and the state it reached. Histories
are what properties such as "was sent earlier" or "no two of them ever" talk about.

`Run.append` and `Run.split` compose and cut runs, and `Run.cut` cuts a run at one of its
transitions. `Run.invariant` carries a one-step invariant along a run, and `RunOf.invariant` one
that only the steps with labels of a kind keep; such runs compose as well (`RunOf.trans`).
`Run.forall_target_iff` is for a property that some steps end: it holds throughout the runs that
have no such step.
`Along guard trace` says that every element of a history satisfies a condition that may look at
the part of the history before it; it is how a property of the runs "whose steps all meet a
condition" is stated. `along_filterMap_iff` takes guards from a history to one that only keeps some
of its elements, and `along_iff_forall_append` finds the guard that characterises a property of all
states of a run.

`execute` runs a computable successor function on a list of labels, so that a concrete run can
be evaluated (`run_of_execute`).
-/

set_option autoImplicit false
set_option relaxedAutoImplicit false

namespace TransitionSystem

variable {σ α : Type*}

/-- One step of a history: the state it left, its label and the state it reached. -/
structure Transition (σ α : Type*) where
  source : σ
  action : α
  target : σ

/-- The finite runs of a step relation from a state, with their histories, oldest first. -/
inductive Run (step : σ → α → σ → Prop) (start : σ) : List (Transition σ α) → σ → Prop
  | nil : Run step start [] start
  | snoc {trace : List (Transition σ α)} {middle final : σ} {action : α} :
      Run step start trace middle → step middle action final →
        Run step start (trace ++ [⟨middle, action, final⟩]) final

section Runs

variable {step : σ → α → σ → Prop} {start middle final : σ}
  {trace before after : List (Transition σ α)}

/-- A run with the empty history stays where it starts. -/
theorem run_nil_iff : Run step start [] final ↔ start = final := by
  constructor
  · intro hrun
    generalize htrace : ([] : List (Transition σ α)) = trace at hrun
    cases hrun with
    | nil => rfl
    | snoc _ _ => simp at htrace
  · rintro rfl
    exact Run.nil

/-- A run ends with the last transition of its history. -/
theorem run_snoc_iff {x : Transition σ α} : Run step start (trace ++ [x]) final ↔
    Run step start trace x.source ∧ step x.source x.action x.target ∧ x.target = final := by
  constructor
  · intro hrun
    generalize htrace : trace ++ [x] = whole at hrun
    cases hrun with
    | nil => simp at htrace
    | snoc hrest hstep =>
      obtain ⟨rfl, hlast⟩ := List.append_inj' htrace rfl
      obtain rfl : x = _ := List.singleton_inj.mp hlast
      exact ⟨hrest, hstep, rfl⟩
  · rintro ⟨hrest, hstep, rfl⟩
    exact hrest.snoc hstep

/-- A single step is a run. -/
theorem Run.single {action : α} (hstep : step start action final) :
    Run step start [⟨start, action, final⟩] final :=
  Run.nil.snoc hstep

/-- A run followed by a run is a run. -/
theorem Run.append (hbefore : Run step start before middle) (hafter : Run step middle after final) :
    Run step start (before ++ after) final := by
  induction hafter with
  | nil => simpa using hbefore
  | snoc _ hstep ih =>
    rw [← List.append_assoc]
    exact ih.snoc hstep

/-- A run can be cut between any two of its transitions. -/
theorem Run.split (hrun : Run step start (before ++ after) final) :
    ∃ middle, Run step start before middle ∧ Run step middle after final := by
  induction after using List.reverseRecOn generalizing final with
  | nil => exact ⟨final, by simpa using hrun, Run.nil⟩
  | append_singleton after last ih =>
    rw [← List.append_assoc, run_snoc_iff] at hrun
    obtain ⟨hrest, hstep, rfl⟩ := hrun
    obtain ⟨middle, hfirst, hsecond⟩ := ih hrest
    exact ⟨middle, hfirst, hsecond.snoc hstep⟩

/-- A nonempty run begins with a step. -/
theorem Run.cons_inv {x : Transition σ α} (hrun : Run step start (x :: after) final) :
    x.source = start ∧ step x.source x.action x.target ∧ Run step x.target after final := by
  have hcons : Run step start ([x] ++ after) final := hrun
  obtain ⟨middle, hfirst, hrest⟩ := hcons.split
  rw [← List.nil_append [x], run_snoc_iff] at hfirst
  obtain ⟨hnil, hstep, rfl⟩ := hfirst
  exact ⟨(run_nil_iff.mp hnil).symm, hstep, hrest⟩

/-- A run is cut at one of its transitions into the run before it, its step and the run after
it. -/
theorem Run.cut {x : Transition σ α} (hrun : Run step start (before ++ x :: after) final) :
    Run step start before x.source ∧ step x.source x.action x.target ∧
      Run step x.target after final := by
  obtain ⟨middle, hbefore, hrest⟩ := hrun.split
  obtain ⟨hsource, hstep, hafter⟩ := hrest.cons_inv
  exact ⟨hsource ▸ hbefore, hstep, hafter⟩

/-- A run is cut at each of its transitions. -/
theorem Run.cut_of_mem {x : Transition σ α} (hrun : Run step start trace final) (hx : x ∈ trace) :
    ∃ before after, trace = before ++ x :: after ∧ Run step start before x.source ∧
      step x.source x.action x.target ∧ Run step x.target after final := by
  obtain ⟨before, after, rfl⟩ := List.append_of_mem hx
  exact ⟨before, after, rfl, hrun.cut⟩

/-- A property of states that holds at the start and that every step keeps holds at the end. -/
theorem Run.invariant {property : σ → Prop} (hstart : property start)
    (hstep : ∀ state action next, property state → step state action next → property next)
    (hrun : Run step start trace final) : property final := by
  induction hrun with
  | nil => exact hstart
  | snoc _ hlast ih => exact hstep _ _ _ ih hlast

/-- If a property of states holds at the start and every step keeps it exactly when the step is
good, it holds throughout a run exactly when all its steps are good. -/
theorem Run.forall_target_iff (hrun : Run step start trace final) (property : σ → Prop)
    (good : Transition σ α → Prop) (hstart : property start)
    (hstep : ∀ before state action next, Run step start before state → property state →
      step state action next → (property next ↔ good ⟨state, action, next⟩)) :
    (∀ x ∈ trace, property x.target) ↔ ∀ x ∈ trace, good x := by
  have hfinal {trace : List (Transition σ α)} {final : σ} (hrun : Run step start trace final)
      (h : ∀ x ∈ trace, property x.target) : property final := by
    cases hrun with
    | nil => exact hstart
    | snoc => exact h _ (List.mem_append_right _ (List.mem_singleton_self _))
  induction hrun with
  | nil => simp
  | snoc hrest hlast ih =>
    rw [List.forall_mem_append, List.forall_mem_append]
    refine (and_congr_right fun hkept ↦ ?_).trans (and_congr_left' ih)
    simpa using hstep _ _ _ _ hrest (hfinal hrest hkept) hlast

/-! ### Runs with labels of a kind -/

/-- A run whose labels all satisfy a condition. -/
def RunOf (step : σ → α → σ → Prop) (allowed : α → Prop) (start final : σ) : Prop :=
  ∃ trace, Run step start trace final ∧ ∀ x ∈ trace, allowed x.action

/-- A property that holds at the start of such a run and that every step with such a label keeps
holds at its end. -/
theorem RunOf.invariant {allowed : α → Prop} {property : σ → Prop}
    (hrun : RunOf step allowed start final) (hstart : property start)
    (hstep : ∀ state action next, allowed action → property state → step state action next →
      property next) : property final := by
  obtain ⟨trace, hrun, hallowed⟩ := hrun
  induction hrun with
  | nil => exact hstart
  | snoc _ hlast ih =>
    obtain ⟨hrest, haction⟩ := List.forall_mem_append.mp hallowed
    exact hstep _ _ _ (haction _ (List.mem_singleton_self _)) (ih hrest) hlast

/-- The empty run is such a run. -/
theorem RunOf.refl {allowed : α → Prop} : RunOf step allowed start start :=
  ⟨[], Run.nil, by simp⟩

/-- A step with an allowed label is such a run. -/
theorem RunOf.single {allowed : α → Prop} {action : α} (hstep : step start action final)
    (haction : allowed action) : RunOf step allowed start final :=
  ⟨_, Run.single hstep, by simpa using haction⟩

/-- Such runs compose. -/
theorem RunOf.trans {allowed : α → Prop} (hfirst : RunOf step allowed start middle)
    (hsecond : RunOf step allowed middle final) : RunOf step allowed start final := by
  obtain ⟨before, hbefore, hallowed⟩ := hfirst
  obtain ⟨after, hafter, hallowed'⟩ := hsecond
  exact ⟨before ++ after, hbefore.append hafter, List.forall_mem_append.mpr ⟨hallowed, hallowed'⟩⟩

/-- Labels of a kind are labels of a wider kind. -/
theorem RunOf.mono {allowed wider : α → Prop} (hrun : RunOf step allowed start final)
    (hwider : ∀ action, allowed action → wider action) : RunOf step wider start final := by
  obtain ⟨trace, hrun, hallowed⟩ := hrun
  exact ⟨trace, hrun, fun x hx ↦ hwider _ (hallowed x hx)⟩

end Runs

/-! ### Guarded histories -/

section Guards

variable {γ δ : Type*}

/-- Every element of the history satisfies `guard`, which may look at the history before it. -/
def Along (guard : List γ → γ → Prop) (trace : List γ) : Prop :=
  ∀ before x after, trace = before ++ x :: after → guard before x

variable {guard : List γ → γ → Prop} {trace before after : List γ} {x : γ}

/-- The empty history satisfies every guard. -/
@[simp] theorem Along.nil : Along guard [] := by
  intro before x after h
  simp at h

/-- A guarded history grows by an element that satisfies the guard. -/
theorem along_snoc : Along guard (trace ++ [x]) ↔ Along guard trace ∧ guard trace x := by
  constructor
  · intro h
    refine ⟨fun before y after hy ↦ h before y (after ++ [x]) (by simp [hy]), h trace x [] rfl⟩
  · rintro ⟨htrace, hlast⟩ before y after hy
    rcases after.eq_nil_or_concat with rfl | ⟨after, last, rfl⟩
    · obtain ⟨rfl, hyx⟩ := List.append_inj' hy rfl
      rw [← List.singleton_inj.mp hyx]
      exact hlast
    · rw [List.concat_eq_append, ← List.cons_append, ← List.append_assoc] at hy
      exact htrace before y after (List.append_inj' hy rfl).1

/-- A guard holds at every element that a history contains. -/
theorem Along.at (h : Along guard (before ++ x :: after)) : guard before x :=
  h before x after rfl

/-- The beginning of a guarded history is guarded. -/
theorem Along.of_append (h : Along guard (before ++ after)) : Along guard before := by
  rintro first x rest rfl
  exact h first x (rest ++ after) (by simp)

/-- A guard may be replaced by one that it implies. -/
theorem Along.mono {weaker : List γ → γ → Prop} (h : Along guard trace)
    (hweaker : ∀ before x, guard before x → weaker before x) : Along weaker trace :=
  fun before x after htrace ↦ hweaker before x (h before x after htrace)

/-- A guard that relates every element to the earlier ones holds between them pairwise. -/
theorem Along.pairwise {R : γ → γ → Prop} (h : Along (fun before x ↦ ∀ y ∈ before, R y x) trace) :
    trace.Pairwise R := by
  induction trace using List.reverseRecOn with
  | nil => exact List.Pairwise.nil
  | append_singleton trace x ih =>
    obtain ⟨hrest, hlast⟩ := along_snoc.mp h
    refine List.pairwise_append.mpr ⟨ih hrest, List.pairwise_singleton R x, ?_⟩
    intro y hy z hz
    rw [List.mem_singleton.mp hz]
    exact hlast y hy

/-- A guard that relates every element to the earlier ones, symmetrically, relates any two. -/
theorem Along.forall_mem {R : γ → γ → Prop} (h : Along (fun before x ↦ ∀ y ∈ before, R y x) trace)
    (hrefl : ∀ x, R x x) (hsymm : ∀ {x y}, R x y → R y x) {y z : γ} (hy : y ∈ trace)
    (hz : z ∈ trace) : R y z :=
  h.pairwise.forall_of_forall_of_flip (fun x _ ↦ hrefl x) (h.pairwise.imp hsymm) hy hz

/-- A history of selected and relabelled elements satisfies a guard exactly when every element
that is selected does. -/
theorem along_filterMap_iff {select : γ → Option δ} {guard : List δ → δ → Prop} :
    Along guard (trace.filterMap select) ↔
      Along (fun before x ↦ ∀ y, select x = some y → guard (before.filterMap select) y) trace := by
  induction trace using List.reverseRecOn with
  | nil => exact ⟨fun _ ↦ Along.nil, fun _ ↦ Along.nil⟩
  | append_singleton trace x ih =>
    rw [along_snoc, List.filterMap_append, ← ih]
    cases hx : select x with
    | none => simp [hx]
    | some y =>
      rw [List.filterMap_cons_some hx, List.filterMap_nil, along_snoc]
      simp

/-- A property of histories that an element keeps exactly when it satisfies a guard holds of every
beginning of a history exactly when the history is guarded. -/
theorem along_iff_forall_append {property : List γ → Prop} (hnil : property [])
    (hstep : ∀ before x after, trace = before ++ x :: after → property before →
      (property (before ++ [x]) ↔ guard before x)) :
    (∀ before after, trace = before ++ after → property before) ↔ Along guard trace := by
  constructor
  · intro h before x after htrace
    have hnext := h (before ++ [x]) after (by simp [htrace])
    exact (hstep before x after htrace (h before _ htrace)).mp hnext
  · intro h before
    induction before using List.reverseRecOn with
    | nil => exact fun _ _ ↦ hnil
    | append_singleton before x ih =>
      intro after htrace
      rw [List.append_assoc, List.singleton_append] at htrace
      exact (hstep before x after htrace (ih _ htrace)).mpr (h before x after htrace)

/-- A guard is checked at one position after the other. -/
theorem along_iff_forall_fin :
    Along guard trace ↔ ∀ i : Fin trace.length, guard (trace.take i) (trace.get i) := by
  constructor
  · intro h i
    exact h _ _ (trace.drop (i + 1)) (by simp)
  · rintro h before x after rfl
    simpa using h ⟨before.length, by simp⟩

instance [∀ before x, Decidable (guard before x)] : Decidable (Along guard trace) :=
  decidable_of_iff _ along_iff_forall_fin.symm

end Guards

/-! ### Positions in a history -/

/-- A history is cut at one of its positions. -/
theorem take_append_get_cons_drop {γ : Type*} (trace : List γ) (k : Fin trace.length) :
    trace.take k ++ trace.get k :: trace.drop (k + 1) = trace := by
  rw [List.get_eq_getElem, List.getElem_cons_drop, List.take_append_drop]

/-- A history is cut at two of its positions. -/
theorem take_append_get_cons_drop_of_lt {γ : Type*} (trace : List γ) {i j : Fin trace.length}
    (hij : i < j) : (trace.take j).take i ++ trace.get i :: (trace.take j).drop (i + 1) ++
      trace.get j :: trace.drop (j + 1) = trace := by
  have hi : (i : ℕ) < (trace.take j).length := by
    rw [List.length_take]
    exact Nat.lt_min.mpr ⟨hij, i.isLt⟩
  have hfirst := take_append_get_cons_drop (trace.take j) ⟨i, hi⟩
  rw [List.get_eq_getElem, List.getElem_take] at hfirst
  rw [List.get_eq_getElem, hfirst, take_append_get_cons_drop]

/-! ### Executing a computable step function -/

section Execution

variable {ε : Type*} (next : σ → α → Except ε σ)

/-- The state after a list of labels, if every one of them has a successor. -/
def execute : σ → List α → Except ε σ
  | state, [] => .ok state
  | state, action :: actions =>
    match next state action with
    | .ok target => execute target actions
    | .error reason => .error reason

/-- The history of a list of labels, up to the first that has no successor. -/
def history : σ → List α → List (Transition σ α)
  | _, [] => []
  | state, action :: actions =>
    match next state action with
    | .ok target => ⟨state, action, target⟩ :: history target actions
    | .error _ => []

/-- The state that a list of labels leads to, or the start if there is none. -/
def finalState (state : σ) (actions : List α) : σ :=
  match execute next state actions with
  | .ok target => target
  | .error _ => state

/-- Why a computation has no result. -/
def failure {β : Type*} : Except ε β → Option ε
  | .ok _ => none
  | .error reason => some reason

theorem failure_eq_some_iff {β : Type*} {result : Except ε β} {reason : ε} :
    failure result = some reason ↔ result = .error reason := by
  cases result <;> simp [failure]

variable {next}

/-- Executing a list of labels is a run. -/
theorem run_of_execute {state target : σ} {actions : List α}
    (h : execute next state actions = .ok target) :
    Run (fun s a t ↦ next s a = .ok t) state (history next state actions) target := by
  induction actions generalizing state with
  | nil =>
    obtain rfl := Except.ok.inj h
    exact Run.nil
  | cons action actions ih =>
    cases hnext : next state action with
    | error reason => simp [execute, hnext] at h
    | ok middle =>
      simp only [execute, hnext] at h
      simp only [history, hnext]
      exact (Run.single hnext).append (ih h)

/-- The labels of a history are labels of the list. -/
theorem action_mem_of_mem_history {state : σ} {actions : List α} {x : Transition σ α}
    (h : x ∈ history next state actions) : x.action ∈ actions := by
  induction actions generalizing state with
  | nil => simp [history] at h
  | cons action actions ih =>
    cases hnext : next state action with
    | error reason => simp [history, hnext] at h
    | ok target =>
      simp only [history, hnext, List.mem_cons] at h
      rcases h with rfl | hrest
      · exact List.mem_cons_self
      · exact List.mem_cons_of_mem _ (ih hrest)

/-- A list of labels that can be executed is a run to its final state. -/
theorem run_of_isOk {state : σ} {actions : List α} (h : (execute next state actions).isOk) :
    Run (fun s a t ↦ next s a = .ok t) state (history next state actions)
      (finalState next state actions) := by
  cases hexecute : execute next state actions with
  | error reason => simp [hexecute, Except.isOk, Except.toBool] at h
  | ok target =>
    simp only [finalState, hexecute]
    exact run_of_execute hexecute

/-- A list of labels is executed by executing its second part from the end of the first. -/
theorem execute_append {state : σ} {first rest : List α} :
    execute next state (first ++ rest) =
      (execute next state first).bind fun middle ↦ execute next middle rest := by
  induction first generalizing state with
  | nil => rfl
  | cons action first ih =>
    cases hnext : next state action with
    | error reason => simp only [List.cons_append, execute, hnext, Except.bind]
    | ok middle => simp only [List.cons_append, execute, hnext, ih]

/-- A list of labels that can be executed leads where its second part leads from the end of the
first. -/
theorem finalState_append {state : σ} {first rest : List α}
    (h : (execute next state (first ++ rest)).isOk) :
    finalState next state (first ++ rest) =
      finalState next (finalState next state first) rest := by
  cases hfirst : execute next state first with
  | error reason => simp [execute_append, hfirst, Except.bind, Except.isOk, Except.toBool] at h
  | ok middle =>
    cases hrest : execute next middle rest with
    | error reason =>
      simp [execute_append, hfirst, hrest, Except.bind, Except.isOk, Except.toBool] at h
    | ok target => simp only [finalState, execute_append, hfirst, hrest, Except.bind]

/-- A list of labels of a kind that can be executed is such a run to its final state. -/
theorem runOf_of_isOk {allowed : α → Prop} {state : σ} {actions : List α}
    (h : (execute next state actions).isOk) (hallowed : ∀ action ∈ actions, allowed action) :
    RunOf (fun s a t ↦ next s a = .ok t) allowed state (finalState next state actions) :=
  ⟨_, run_of_isOk h, fun _ hx ↦ hallowed _ (action_mem_of_mem_history hx)⟩

end Execution

end TransitionSystem
