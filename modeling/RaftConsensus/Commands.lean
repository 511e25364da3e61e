import RaftConsensus.Model.Calc
import RaftConsensus.Model.Decimal

/-!
# Commands

`Calc::parse` first finds out what to do, from the command alone, and then does it to the register.
`dispatch` is the first part and `Operation.apply` the second (`Calc.parse_eq_dispatch`).

A `Command` is a well-formed one: the name of an operation, a semicolon and a number of type
`long long`. The interpreter does what a well-formed command says (`dispatch_text`), but it also
executes others. It compares names by their `hash`, which reads them only up to their first NUL
and is not injective (`dispatchedByName_iff`), and it reads the number at the front of the second
token, which has to be there (`harmless_iff`).
-/

set_option autoImplicit false
set_option relaxedAutoImplicit false

namespace RaftConsensus

open DelimitedText

/-! ### Operations -/

/-- The operations of `Calc`. -/
inductive Operation
  | add
  | sub
  | mul
  | div
  deriving DecidableEq, Repr

namespace Operation

/-- The name of an operation in a command. -/
def name : Operation → ByteString
  | add => bytes "ADD"
  | sub => bytes "SUB"
  | mul => bytes "MUL"
  | div => bytes "DIV"

/-- The operation on a register. -/
def apply (c : Calc) (value : Int64) : Operation → Except ParseFault Calc
  | add => .ok (c.add value)
  | sub => .ok (c.sub value)
  | mul => .ok (c.mul value)
  | div => c.div value

/-- The `switch` of `Calc::parse` on the hash of a name. -/
def ofCode (code : UInt64) : Option Operation :=
  if code = hash (bytes "ADD") then some add
  else if code = hash (bytes "SUB") then some sub
  else if code = hash (bytes "MUL") then some mul
  else if code = hash (bytes "DIV") then some div
  else none

/-- The four names have different hashes. -/
theorem ofCode_hash_name (op : Operation) : ofCode (hash op.name) = some op := by
  cases op <;> decide

/-- The `switch` selects an operation exactly on the hash of its name. -/
theorem ofCode_eq_some_iff {code : UInt64} {op : Operation} :
    ofCode code = some op ↔ code = hash op.name := by
  constructor
  · intro h
    unfold ofCode at h
    split_ifs at h with hadd hsub hmul hdiv
    · obtain rfl := Option.some.inj h
      exact hadd
    · obtain rfl := Option.some.inj h
      exact hsub
    · obtain rfl := Option.some.inj h
      exact hmul
    · obtain rfl := Option.some.inj h
      exact hdiv
  · rintro rfl
    exact ofCode_hash_name op

end Operation

/-! ### Dispatch -/

/-- What `Calc::parse` does with a command: an operation with its operand, or nothing. -/
def dispatch (cmd : ByteString) : Except ParseFault (Option (Operation × Int64)) := do
  let tokens := getlines 59 cmd
  if tokens.length > 2 then return none
  match Operation.ofCode (hash (← tokenAt tokens 0)) with
  | some op => return some (op, ← stoll (← tokenAt tokens 1))
  | none => return none

/-- `Calc::parse` applies to the register what the command is dispatched to. -/
theorem Calc.parse_eq_dispatch (c : Calc) (cmd : ByteString) :
    c.parse cmd = dispatch cmd >>= fun
      | some (op, value) => op.apply c value
      | none => .ok c := by
  simp only [parse, dispatch]
  split_ifs with hmany
  · rfl
  · cases tokenAt (getlines 59 cmd) 0 with
    | error fault => rfl
    | ok name =>
      simp only [bind, Except.bind, Operation.ofCode]
      split_ifs
      all_goals
        cases tokenAt (getlines 59 cmd) 1 with
        | error fault => rfl
        | ok operand =>
          cases hvalue : stoll operand with
          | error fault => simp [hvalue, pure, Except.pure]
          | ok value => simp [hvalue, pure, Except.pure, Operation.apply]

variable {cmd name operand : ByteString} {op : Operation} {value : Int64}

/-- `std::stoll` returns the number at the front of its argument. -/
theorem stoll_eq_ok_iff : stoll operand = .ok value ↔ parseInteger operand = some value.toInt := by
  unfold stoll
  cases hnumber : parseInteger operand with
  | none => simp
  | some number =>
    dsimp only
    split_ifs with hrange
    · rw [Except.ok.injEq, Option.some.injEq, ← Int64.toInt_inj,
        Int64.toInt_ofInt_of_le hrange.1 hrange.2]
    · simp only [Option.some.injEq, false_iff]
      rintro rfl
      exact hrange ⟨value.le_toInt, value.toInt_lt⟩

/-- The first token of a command is what stands before its first semicolon. -/
theorem before_eq_of_getlines {operands : List ByteString}
    (h : getlines 59 cmd = name :: operands) : before 59 cmd = name := by
  have hne : cmd ≠ [] := by
    rintro rfl
    cases h
  rw [getlines_eq_tokens, tokens_eq_cons hne] at h
  exact (List.cons.inj h).1

/-- A command of more than two tokens is dropped. -/
theorem dispatch_of_many (h : 2 < (getlines 59 cmd).length) : dispatch cmd = .ok none := by
  unfold dispatch
  rw [if_pos h]
  rfl

/-- A command of one token has no operand. -/
theorem dispatch_of_single (h : getlines 59 cmd = [name]) :
    dispatch cmd =
      match Operation.ofCode (hash name) with
      | some _ => .error (.tokensIndex 1)
      | none => .ok none := by
  unfold dispatch
  rw [h]
  cases hcode : Operation.ofCode (hash name) <;>
    simp [tokenAt, bind, Except.bind, pure, Except.pure, hcode]

/-- The operand of a command of two tokens is read from the second one. -/
theorem dispatch_of_pair (h : getlines 59 cmd = [name, operand]) :
    dispatch cmd =
      match Operation.ofCode (hash name) with
      | some op => (stoll operand).map fun value ↦ some (op, value)
      | none => .ok none := by
  unfold dispatch
  rw [h]
  cases hcode : Operation.ofCode (hash name) <;> cases hvalue : stoll operand <;>
    simp [tokenAt, bind, Except.bind, pure, Except.pure, Except.map, hcode, hvalue]

/-- A nonempty command has one token, two, or more than two. -/
theorem getlines_cases (h : cmd ≠ []) :
    (∃ name, getlines 59 cmd = [name]) ∨ (∃ name operand, getlines 59 cmd = [name, operand]) ∨
      2 < (getlines 59 cmd).length := by
  cases htokens : getlines 59 cmd with
  | nil => exact absurd (getlines_eq_nil_iff.mp htokens) h
  | cons name operands =>
    cases operands with
    | nil => exact Or.inl ⟨name, rfl⟩
    | cons operand others =>
      cases others with
      | nil => exact Or.inr (Or.inl ⟨name, operand, rfl⟩)
      | cons other others => exact Or.inr (Or.inr (by simp))

/-- A name and an operand separated by a semicolon are the two tokens. -/
theorem getlines_pair (hname : 59 ∉ name) (hoperand : 59 ∉ operand) (hne : operand ≠ []) :
    getlines 59 (name ++ 59 :: operand) = [name, operand] := by
  rw [getlines_eq_tokens, tokens_append hname, tokens_of_not_mem hne hoperand]

/-- A command is dispatched to an operation exactly when it has two tokens, the first has the hash
of the operation's name and the second begins with the operand. -/
theorem dispatch_eq_some_iff :
    dispatch cmd = .ok (some (op, value)) ↔
      ∃ name operand, getlines 59 cmd = [name, operand] ∧ hash name = hash op.name ∧
        stoll operand = .ok value := by
  constructor
  · intro h
    have hne : cmd ≠ [] := by
      rintro rfl
      cases h
    rcases getlines_cases hne with ⟨name, htokens⟩ | ⟨name, operand, htokens⟩ | hmany
    · rw [dispatch_of_single htokens] at h
      split at h <;> cases h
    · rw [dispatch_of_pair htokens] at h
      split at h
      next performed hcode =>
        cases hvalue : stoll operand with
        | error fault =>
          rw [hvalue] at h
          cases h
        | ok number =>
          rw [hvalue] at h
          cases h
          exact ⟨name, operand, htokens, Operation.ofCode_eq_some_iff.mp hcode, hvalue⟩
      next => cases h
    · rw [dispatch_of_many hmany] at h
      cases h
  · rintro ⟨name, operand, htokens, hhash, hvalue⟩
    rw [dispatch_of_pair htokens, Operation.ofCode_eq_some_iff.mpr hhash, hvalue]
    rfl

/-- A nonempty command is dropped exactly when it has more than two tokens or its name has the hash
of no operation's name. -/
theorem dispatch_eq_none_iff (h : cmd ≠ []) :
    dispatch cmd = .ok none ↔
      2 < (getlines 59 cmd).length ∨ ∀ op : Operation, hash (before 59 cmd) ≠ hash op.name := by
  have hcode : Operation.ofCode (hash (before 59 cmd)) = none ↔
      ∀ op : Operation, hash (before 59 cmd) ≠ hash op.name := by
    rw [Option.eq_none_iff_forall_ne_some]
    exact forall_congr' fun op ↦ not_congr Operation.ofCode_eq_some_iff
  rw [← hcode]
  rcases getlines_cases h with ⟨name, htokens⟩ | ⟨name, operand, htokens⟩ | hmany
  · rw [before_eq_of_getlines htokens, dispatch_of_single htokens, htokens]
    cases Operation.ofCode (hash name) <;> simp
  · rw [before_eq_of_getlines htokens, dispatch_of_pair htokens, htokens]
    cases Operation.ofCode (hash name) <;> cases stoll operand <;> simp [Except.map]
  · exact iff_of_true (dispatch_of_many hmany) (Or.inl hmany)

/-! ### Names -/

/-- `Calc::parse` performs an operation with an operand: its `switch` selects the operation, and
parsing the command does to every register what the operation does. The effect on registers alone
does not tell the operation, since adding a number is subtracting its negative. -/
def Performs (cmd : ByteString) (op : Operation) (value : Int64) : Prop :=
  dispatch cmd = .ok (some (op, value)) ∧ ∀ c : Calc, c.parse cmd = op.apply c value

/-- A command performs the operation that it is dispatched to. -/
theorem performs_iff : Performs cmd op value ↔ dispatch cmd = .ok (some (op, value)) := by
  refine ⟨And.left, fun hdispatch ↦ ⟨hdispatch, fun c ↦ ?_⟩⟩
  rw [Calc.parse_eq_dispatch, hdispatch]
  rfl

/-- A command is dispatched by its exact name: the operation performed is the one that the command
names, and a command that names no operation leaves every register as it is. -/
def DispatchedByName (cmd : ByteString) : Prop :=
  (∀ op value, Performs cmd op value → before 59 cmd = op.name) ∧
    ((∀ op : Operation, before 59 cmd ≠ op.name) → ∀ c c' : Calc, c.parse cmd = .ok c' → c' = c)

/-- What follows the first NUL of a name is not hashed. -/
theorem hash_append_nul (name rest : ByteString) : hash (name ++ 0 :: rest) = hash name := by
  induction name with
  | nil => rfl
  | cons m name ih =>
    rw [List.cons_append, hash, hash, ih]

/-- A command is dispatched by its exact name exactly when it is not executed on a collision: unless
it has two tokens and the second begins with an operand, its name is the one of an operation or has
the hash of none. -/
theorem dispatchedByName_iff (cmd : ByteString) :
    DispatchedByName cmd ↔
      ∀ name operand value, getlines 59 cmd = [name, operand] → stoll operand = .ok value →
        (∃ op : Operation, name = op.name) ∨ ∀ op : Operation, hash name ≠ hash op.name := by
  constructor
  · rintro ⟨hperformed, -⟩ name operand value htokens hvalue
    by_contra hcollision
    obtain ⟨hname, hnone⟩ := not_or.mp hcollision
    obtain ⟨op, hhash⟩ := not_forall.mp hnone
    have hop := hperformed op value <| performs_iff.mpr <|
      dispatch_eq_some_iff.mpr ⟨name, operand, htokens, not_not.mp hhash, hvalue⟩
    exact hname ⟨op, (before_eq_of_getlines htokens).symm.trans hop⟩
  · intro hcollision
    have hperformed : ∀ op value, Performs cmd op value → before 59 cmd = op.name := by
      intro op value h
      obtain ⟨name, operand, htokens, hhash, hvalue⟩ :=
        dispatch_eq_some_iff.mp (performs_iff.mp h)
      rw [before_eq_of_getlines htokens]
      rcases hcollision name operand value htokens hvalue with ⟨named, rfl⟩ | hnone
      · have hcode := Operation.ofCode_hash_name named
        rw [hhash, Operation.ofCode_hash_name op] at hcode
        rw [Option.some.inj hcode]
      · exact absurd hhash (hnone op)
    refine ⟨hperformed, fun hname c c' hparse ↦ ?_⟩
    rw [Calc.parse_eq_dispatch] at hparse
    cases hdispatch : dispatch cmd with
    | error fault =>
      rw [hdispatch] at hparse
      cases hparse
    | ok action =>
      cases action with
      | some performed =>
        exact absurd (hperformed _ _ (performs_iff.mpr hdispatch)) (hname _)
      | none =>
        rw [hdispatch] at hparse
        exact (Except.ok.inj hparse).symm

/-- A name continued after a NUL names no operation, but the command is executed. -/
theorem not_dispatchedByName_nul (op : Operation) {rest : ByteString} (hrest : 59 ∉ rest)
    (hoperand : 59 ∉ operand) (hne : operand ≠ []) (hvalue : stoll operand = .ok value) :
    ¬ DispatchedByName (op.name ++ 0 :: rest ++ 59 :: operand) := by
  intro hdispatched
  have hname : (59 : UInt8) ∉ op.name ++ 0 :: rest := by
    have hop : (59 : UInt8) ∉ op.name := by cases op <;> decide
    simp [hop, hrest]
  have htokens := getlines_pair hname hoperand hne
  have hperformed := hdispatched.1 op value <| performs_iff.mpr <|
    dispatch_eq_some_iff.mpr ⟨_, _, htokens, hash_append_nul op.name rest, hvalue⟩
  have hnul : (0 : UInt8) ∈ op.name := by
    rw [← hperformed, before_eq_of_getlines htokens]
    simp
  revert hnul
  cases op <;> decide

/-- The name of three characters that begins with `A`, a byte `0xC4` and `E` has the hash of `ADD`:
the command adds. -/
theorem not_dispatchedByName_collision : ¬ ∀ cmd, DispatchedByName cmd := by
  intro hclaim
  have hname := (hclaim ([65, 196, 69] ++ bytes ";5")).1 .add 5 (performs_iff.mpr (by decide))
  exact absurd hname (by decide)

/-! ### Well-formed commands -/

/-- A number of type `long long`. -/
abbrev InLongLong (value : ℤ) : Prop := -2 ^ 63 ≤ value ∧ value < 2 ^ 63

/-- A well-formed command: an operation and the text of a number in the range of `long long`. -/
structure Command where
  operation : Operation
  operand : ByteString
  value : ℤ
  reads : wholeInteger operand = some value
  inRange : InLongLong value

/-- The bytes of a well-formed command. -/
def Command.text (command : Command) : ByteString :=
  command.operation.name ++ 59 :: command.operand

/-- The operand of a well-formed command in the register's type. -/
def Command.operand64 (command : Command) : Int64 := Int64.ofInt command.value

/-- A command is an operation name followed by a semicolon and a number in the range of
`long long`. -/
def WellFormed (cmd : ByteString) : Prop := ∃ command : Command, command.text = cmd

/-- The operand has the command's value. -/
theorem Command.toInt_operand64 (command : Command) :
    command.operand64.toInt = command.value :=
  Int64.toInt_ofInt_of_le command.inRange.1 command.inRange.2

/-- A well-formed command is dispatched to what it says. -/
theorem dispatch_text (command : Command) :
    dispatch command.text = .ok (some (command.operation, command.operand64)) := by
  have hname : (59 : UInt8) ∉ command.operation.name := by cases command.operation <;> decide
  have hoperand : 59 ∉ command.operand :=
    not_mem_of_wholeInteger (by decide) (by decide) (by decide) command.reads
  refine dispatch_eq_some_iff.mpr ⟨_, _,
    getlines_pair hname hoperand (ne_nil_of_wholeInteger command.reads), rfl, ?_⟩
  rw [stoll_eq_ok_iff, command.toInt_operand64]
  exact parseInteger_of_wholeInteger command.reads

/-! ### Malformed commands -/

namespace Operation

/-- The operation returns, and does not trap. -/
def Returns (c : Calc) (value : Int64) (op : Operation) : Prop :=
  ¬ (op = div ∧ c.result = Int64.minValue ∧ value = -1)

/-- The operation leaves the register as it is. -/
def Keeps (c : Calc) (value : Int64) : Operation → Prop
  | add | sub => value = 0
  | mul => (2 ^ 64 : ℤ) ∣ c.result.toInt * (value.toInt - 1)
  | div => value = 0 ∨ value = 1 ∨ c.result = 0

/-- The operation on an integer: divisions truncate toward zero and a zero divisor is ignored. -/
def exact (result value : ℤ) : Operation → ℤ
  | add => result + value
  | sub => result - value
  | mul => result * value
  | div => if value = 0 then result else result.tdiv value

/-- An operation traps in the division of the least `long long` by `-1` only. -/
theorem exists_apply_eq_ok_iff {c : Calc} :
    (∃ c', op.apply c value = .ok c') ↔ op.Returns c value := by
  cases op with
  | add => simp [apply, Returns]
  | sub => simp [apply, Returns]
  | mul => simp [apply, Returns]
  | div =>
    simp only [apply, Calc.div, Returns, true_and]
    by_cases hzero : value = 0
    · subst hzero
      simp
    · rw [if_pos hzero]
      split_ifs with htrap <;> simp [htrap]

/-- The register after an operation is the exact result modulo `2 ^ 64`. -/
theorem toInt_of_apply {c c' : Calc} (h : op.apply c value = .ok c') :
    c'.result.toInt = (op.exact c.result.toInt value.toInt).bmod (2 ^ 64) := by
  cases op with
  | add =>
    obtain rfl := Except.ok.inj h
    exact Int64.toInt_add _ _
  | sub =>
    obtain rfl := Except.ok.inj h
    exact Int64.toInt_sub _ _
  | mul =>
    obtain rfl := Except.ok.inj h
    exact Int64.toInt_mul _ _
  | div =>
    simp only [apply, Calc.div] at h
    split_ifs at h with hzero
    · obtain rfl := Except.ok.inj h
      have hne : value.toInt ≠ 0 := by
        rwa [ne_eq, ← Int64.toInt_zero, Int64.toInt_inj]
      rw [exact, if_neg hne]
      exact Int64.toInt_div _ _
    · obtain rfl := Except.ok.inj h
      obtain rfl := not_not.mp hzero
      simp [exact]

/-- An operation whose exact result is a `long long` returns it. -/
theorem exists_apply_of_inLongLong {c : Calc}
    (h : InLongLong (op.exact c.result.toInt value.toInt)) :
    ∃ c', op.apply c value = .ok c' ∧ c'.result.toInt = op.exact c.result.toInt value.toInt := by
  have hreturns : op.Returns c value := by
    rintro ⟨rfl, hmin, rfl⟩
    rw [hmin] at h
    exact absurd h (by decide)
  obtain ⟨c', happly⟩ := exists_apply_eq_ok_iff.mpr hreturns
  refine ⟨c', happly, ?_⟩
  rw [toInt_of_apply happly]
  exact Int.bmod_eq_of_le h.1 h.2

/-- A division that returns has the exact quotient as its result. -/
theorem toInt_div_of_returns {c : Calc} (h : div.Returns c value) :
    (c.result / value).toInt = c.result.toInt.tdiv value.toInt := by
  by_cases hmin : c.result = Int64.minValue
  · exact Int64.toInt_div_of_ne_right _ _ fun hvalue ↦ h ⟨rfl, hmin, hvalue⟩
  · exact Int64.toInt_div_of_ne_left _ _ hmin

/-- A quotient equals its dividend exactly when the divisor is one or the dividend zero. -/
theorem tdiv_eq_self_iff {z v : ℤ} (hv : v ≠ 0) : z.tdiv v = z ↔ v = 1 ∨ z = 0 := by
  constructor
  · intro h
    by_contra hneither
    obtain ⟨hone, hzero⟩ := not_or.mp hneither
    have habs : z.natAbs / v.natAbs = z.natAbs :=
      (Int.natAbs_tdiv z v).symm.trans (congrArg Int.natAbs h)
    have hunit : ¬ 1 < v.natAbs := fun hlt ↦
      (Nat.div_lt_self (Int.natAbs_pos.mpr hzero) hlt).ne habs
    obtain rfl : v = -1 := by omega
    rw [Int.tdiv_neg, Int.tdiv_one] at h
    omega
  · rintro (rfl | rfl)
    · exact Int.tdiv_one z
    · exact Int.zero_tdiv v

/-- The only multiple of `2 ^ 64` of type `long long` is zero. -/
theorem dvd_toInt_iff : (2 ^ 64 : ℤ) ∣ value.toInt ↔ value = 0 := by
  rw [← Int64.toInt_inj, Int64.toInt_zero]
  have hle := value.le_toInt
  have hlt := value.toInt_lt
  omega

/-- An operation leaves the register as it is exactly when its exact result is the same modulo
`2 ^ 64`. -/
theorem apply_eq_self_iff_dvd {c c' : Calc} (h : op.apply c value = .ok c') :
    c' = c ↔ (2 ^ 64 : ℤ) ∣ op.exact c.result.toInt value.toInt - c.result.toInt := by
  have hself : c.result.toInt = c.result.toInt.bmod (2 ^ 64) :=
    (Int.bmod_eq_of_le c.result.le_toInt c.result.toInt_lt).symm
  calc c' = c ↔ c'.result = c.result := by
        cases c
        cases c'
        simp
    _ ↔ (op.exact c.result.toInt value.toInt).bmod (2 ^ 64) = c.result.toInt.bmod (2 ^ 64) := by
        rw [← Int64.toInt_inj, toInt_of_apply h, ← hself]
    _ ↔ (2 ^ 64 : ℤ) ∣ op.exact c.result.toInt value.toInt - c.result.toInt := by
        rw [Int.bmod_eq_bmod_iff_bmod_sub_eq_zero, ← Int.dvd_iff_bmod_eq_zero]
        norm_num

/-- The values for which each operation leaves the register as it is. -/
theorem apply_eq_self_iff {c c' : Calc} (h : op.apply c value = .ok c') :
    c' = c ↔ op.Keeps c value := by
  cases op with
  | add => rw [apply_eq_self_iff_dvd h, exact, add_sub_cancel_left, dvd_toInt_iff, Keeps]
  | sub =>
    rw [apply_eq_self_iff_dvd h, exact, sub_sub_cancel_left, Int.dvd_neg, dvd_toInt_iff, Keeps]
  | mul => rw [apply_eq_self_iff_dvd h, exact, Keeps, mul_sub, mul_one]
  | div =>
    have hreturns := exists_apply_eq_ok_iff.mp ⟨c', h⟩
    simp only [apply, Calc.div] at h
    split_ifs at h with hzero
    · obtain rfl := Except.ok.inj h
      have hne : value.toInt ≠ 0 := by
        rwa [ne_eq, ← Int64.toInt_zero, Int64.toInt_inj]
      calc (⟨c.result / value⟩ : Calc) = c ↔ c.result / value = c.result := by
            cases c
            simp
        _ ↔ c.result.toInt.tdiv value.toInt = c.result.toInt := by
            rw [← Int64.toInt_inj, toInt_div_of_returns hreturns]
        _ ↔ value.toInt = 1 ∨ c.result.toInt = 0 := tdiv_eq_self_iff hne
        _ ↔ value = 0 ∨ value = 1 ∨ c.result = 0 := by
            rw [or_iff_right hzero, ← Int64.toInt_inj, ← Int64.toInt_inj]
            rfl
    · obtain rfl := Except.ok.inj h
      simp [Keeps, not_not.mp hzero]

end Operation

/-- A command cannot harm a register: it is parsed to the end, and unless it is well-formed it
leaves the register as it is. -/
def Harmless (c : Calc) (cmd : ByteString) : Prop :=
  ∃ c', c.parse cmd = .ok c' ∧ (¬ WellFormed cmd → c' = c)

/-- Parsing a command returns exactly when the command is dropped, or dispatched to an operation
that returns. -/
theorem parse_eq_ok_iff {c c' : Calc} :
    c.parse cmd = .ok c' ↔
      (dispatch cmd = .ok none ∧ c' = c) ∨
        ∃ op value, dispatch cmd = .ok (some (op, value)) ∧ op.apply c value = .ok c' := by
  rw [Calc.parse_eq_dispatch]
  cases hdispatch : dispatch cmd with
  | error fault => simp [bind, Except.bind]
  | ok action =>
    cases action with
    | none => simp [bind, Except.bind, eq_comm]
    | some performed =>
      obtain ⟨op, value⟩ := performed
      simp [bind, Except.bind]

/-- A nonempty command cannot harm a register exactly when it has more than two tokens, or its name
has the hash of no operation's name, or the operation that it is dispatched to has an operand and
does not trap, and the command is well-formed or the operation leaves the register as it is. -/
theorem harmless_iff (c : Calc) (hcmd : cmd ≠ []) :
    Harmless c cmd ↔
      2 < (getlines 59 cmd).length ∨ (∀ op : Operation, hash (before 59 cmd) ≠ hash op.name) ∨
        ∃ (name operand : ByteString) (op : Operation) (value : Int64),
          getlines 59 cmd = [name, operand] ∧ hash name = hash op.name ∧
            stoll operand = .ok value ∧ op.Returns c value ∧
              (WellFormed cmd ∨ op.Keeps c value) := by
  rw [← or_assoc, ← dispatch_eq_none_iff hcmd]
  constructor
  · rintro ⟨c', hparse, hmalformed⟩
    rcases parse_eq_ok_iff.mp hparse with ⟨hnone, -⟩ | ⟨op, value, hsome, happly⟩
    · exact Or.inl hnone
    · obtain ⟨name, operand, htokens, hhash, hvalue⟩ := dispatch_eq_some_iff.mp hsome
      refine Or.inr ⟨name, operand, op, value, htokens, hhash, hvalue,
        Operation.exists_apply_eq_ok_iff.mp ⟨c', happly⟩, ?_⟩
      rw [← Operation.apply_eq_self_iff happly]
      exact or_iff_not_imp_left.mpr hmalformed
  · rintro (hnone | ⟨name, operand, op, value, htokens, hhash, hvalue, hreturns, hkept⟩)
    · exact ⟨c, parse_eq_ok_iff.mpr (Or.inl ⟨hnone, rfl⟩), fun _ ↦ rfl⟩
    · obtain ⟨c', happly⟩ := Operation.exists_apply_eq_ok_iff.mpr hreturns
      have hsome := dispatch_eq_some_iff.mpr ⟨name, operand, htokens, hhash, hvalue⟩
      refine ⟨c', parse_eq_ok_iff.mpr (Or.inr ⟨op, value, hsome, happly⟩), ?_⟩
      rw [Operation.apply_eq_self_iff happly]
      exact or_iff_not_imp_left.mp hkept

/-- Division by zero is well-formed and leaves the register as it is. -/
theorem harmless_iff_div_zero : Harmless ⟨7⟩ (bytes "DIV;0") :=
  (harmless_iff ⟨7⟩ (by decide)).mpr <| Or.inr <| Or.inr
    ⟨bytes "DIV", bytes "0", .div, 0, by decide, by decide, by decide, by simp [Operation.Returns],
      Or.inr (Or.inl rfl)⟩

/-- A command that is only a name makes the interpreter index an operand that is not there. -/
theorem not_harmless_noOperand : ¬ ∀ (c : Calc) (cmd : ByteString), cmd ≠ [] → Harmless c cmd := by
  intro hclaim
  obtain ⟨c', hparse, -⟩ := hclaim Calc.initial (bytes "ADD") (by decide)
  have hfault : Calc.initial.parse (bytes "ADD") = .error (.tokensIndex 1) := by decide
  rw [hfault] at hparse
  cases hparse

end RaftConsensus
