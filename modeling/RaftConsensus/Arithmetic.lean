import RaftConsensus.Commands

/-!
# Register arithmetic

A sequence of well-formed commands has an exact value: the integer that they make of zero
(`evaluate`). The register reaches it as long as no intermediate value leaves the range of
`long long` (`register_of_fits`), and this is also necessary for no operation to overflow or trap
on the way (`exactlyEvaluated_iff`). Only a zero divisor is guarded against.
-/

set_option autoImplicit false
set_option relaxedAutoImplicit false

namespace RaftConsensus

/-- The exact result of a command. -/
def Command.exact (command : Command) (result : ℤ) : ℤ :=
  command.operation.exact result command.value

/-- The exact integer evaluation of a sequence of commands, from zero. -/
def evaluate (commands : List Command) : ℤ :=
  commands.foldl (fun result command ↦ command.exact result) 0

/-- The register after a sequence of commands. -/
def register (commands : List Command) : Except ParseFault Calc :=
  Calc.initial.parseAll (commands.map Command.text)

/-- A sequence of commands is evaluated exactly: the exact result of each operation on the register
that it finds is a `long long`, so that none overflows or traps, and the register is the exact
integer evaluation in the end. -/
def ExactlyEvaluated (commands : List Command) : Prop :=
  (∀ first command rest, commands = first ++ command :: rest →
      ∃ c, register first = .ok c ∧ InLongLong (command.exact c.result.toInt)) ∧
    ∃ c, register commands = .ok c ∧ c.result.toInt = evaluate commands

/-- Every intermediate value of the exact evaluation is a `long long`. -/
def Fits (commands : List Command) : Prop :=
  ∀ first, first <+: commands → InLongLong (evaluate first)

variable {commands first : List Command} {command : Command} {c : Calc}

@[simp] theorem evaluate_nil : evaluate [] = 0 := rfl

/-- The last command is evaluated last. -/
theorem evaluate_snoc : evaluate (first ++ [command]) = command.exact (evaluate first) := by
  simp [evaluate]

/-- The last command is parsed last. -/
theorem register_snoc (h : register first = .ok c) :
    register (first ++ [command]) = command.operation.apply c command.operand64 := by
  rw [register, List.map_append, Calc.parseAll_append]
  change (register first).bind _ = _
  rw [h, List.map_singleton]
  change (c.parseAll [command.text]) = _
  rw [Calc.parseAll_cons, Calc.parse_eq_dispatch, dispatch_text]
  change (command.operation.apply c command.operand64).bind Except.ok = _
  cases command.operation.apply c command.operand64 <;> rfl

/-- A command whose exact result on the register is a `long long` leaves it there. -/
theorem register_snoc_of_inLongLong (h : register first = .ok c)
    (hfits : InLongLong (command.exact c.result.toInt)) :
    ∃ c', register (first ++ [command]) = .ok c' ∧
      c'.result.toInt = command.exact c.result.toInt := by
  unfold Command.exact at hfits ⊢
  rw [register_snoc h]
  rw [← command.toInt_operand64] at hfits ⊢
  exact Operation.exists_apply_of_inLongLong hfits

/-- The register of commands whose intermediate values are `long long`s is their exact value. -/
theorem register_of_fits (hfits : Fits commands) :
    ∃ c, register commands = .ok c ∧ c.result.toInt = evaluate commands := by
  induction commands using List.reverseRecOn with
  | nil => exact ⟨Calc.initial, rfl, rfl⟩
  | append_singleton first command ih =>
    obtain ⟨c, hregister, hvalue⟩ :=
      ih fun earlier hearlier ↦ hfits earlier (hearlier.trans (List.prefix_append _ _))
    have hlast := hfits _ (List.prefix_refl (first ++ [command]))
    rw [evaluate_snoc, ← hvalue] at hlast
    rw [evaluate_snoc, ← hvalue]
    exact register_snoc_of_inLongLong hregister hlast

/-- A register that no operation made overflow is the exact value. -/
theorem toInt_register_of_no_overflow
    (hfits : ∀ first command rest, commands = first ++ command :: rest →
      ∃ c, register first = .ok c ∧ InLongLong (command.exact c.result.toInt))
    (hregister : register commands = .ok c) : c.result.toInt = evaluate commands := by
  induction commands using List.reverseRecOn generalizing c with
  | nil =>
    obtain rfl := Except.ok.inj hregister
    rfl
  | append_singleton first command ih =>
    obtain ⟨middle, hmiddle, hlast⟩ := hfits first command [] rfl
    have hvalue := ih (fun earlier next later h ↦
      hfits earlier next (later ++ [command]) (by rw [h]; simp)) hmiddle
    obtain ⟨c', hregister', hvalue'⟩ := register_snoc_of_inLongLong hmiddle hlast
    obtain rfl := Except.ok.inj (hregister.symm.trans hregister')
    rw [hvalue', hvalue, evaluate_snoc]

/-- The intermediate values are `long long`s when no operation overflows. -/
theorem fits_of_no_overflow
    (hfits : ∀ first command rest, commands = first ++ command :: rest →
      ∃ c, register first = .ok c ∧ InLongLong (command.exact c.result.toInt)) :
    Fits commands := by
  rintro first ⟨rest, rfl⟩
  cases first using List.reverseRecOn with
  | nil => decide
  | append_singleton first command =>
    obtain ⟨c, hregister, hlast⟩ := hfits first command rest (by simp)
    have hvalue := toInt_register_of_no_overflow (fun earlier next later h ↦
      hfits earlier next (later ++ command :: rest) (by rw [h]; simp)) hregister
    rw [evaluate_snoc, ← hvalue]
    exact hlast

/-- A sequence of commands is evaluated exactly if and only if every intermediate value of the exact
evaluation is a `long long`. -/
theorem exactlyEvaluated_iff (commands : List Command) :
    ExactlyEvaluated commands ↔ Fits commands := by
  refine ⟨fun h ↦ fits_of_no_overflow h.1, fun hfits ↦ ⟨fun first command rest h ↦ ?_, ?_⟩⟩
  · subst h
    obtain ⟨c, hregister, hvalue⟩ := register_of_fits fun earlier hearlier ↦
      hfits earlier (hearlier.trans (List.prefix_append first _))
    refine ⟨c, hregister, ?_⟩
    rw [hvalue, ← evaluate_snoc]
    exact hfits _ ⟨rest, by simp⟩
  · exact register_of_fits hfits

/-- The largest `long long` and one more are added up to a number that is none. -/
theorem not_exactlyEvaluated_overflow : ¬ ∀ commands, ExactlyEvaluated commands := by
  intro hclaim
  have hfits := fits_of_no_overflow (hclaim
    [⟨.add, bytes "9223372036854775807", 9223372036854775807, by decide, by decide⟩,
      ⟨.add, bytes "1", 1, by decide, by decide⟩]).1
  exact absurd (hfits _ (List.prefix_refl _)) (by decide)

end RaftConsensus
