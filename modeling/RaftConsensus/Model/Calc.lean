import RaftConsensus.Model.ByteString

/-!
# The command interpreter

`utils::hash` and the class `Calc` of `utils.h` and `functionality.h`. A command is a name and a
number separated by a semicolon; `Calc.parse` dispatches on the hash of the name and changes the
register. The register is a `long long`, here an `Int64`, whose arithmetic wraps around.

A call of `parse` can end in four ways other than by returning: `std::stoll` throws one of its
two exceptions, the code indexes `tokens` past its end, or the division traps. They are the cases
of `ParseFault`.

`Calc.parseAll` is a sequence of commands parsed in order, and `Calc.replay` the register of a
log: all its commands from the initial register.
-/

set_option autoImplicit false
set_option relaxedAutoImplicit false

namespace RaftConsensus

/-! ### `utils::hash` -/

/-- `utils::mix`. The `char` is signed: it is extended to 64 bits before it is complemented. -/
def mix (m : UInt8) (s : UInt64) : UInt64 :=
  ((s <<< 7) + ~~~(s >>> 3)) + ~~~m.toInt8.toInt64.toUInt64

/-- `utils::hash` of a NUL-terminated string: the bytes from the first NUL on are not read. -/
def hash : ByteString → UInt64
  | [] => 0
  | m :: rest => if m = 0 then 0 else mix m (hash rest)

/-! ### The class `Calc` -/

/-- How a call of `Calc::parse` can fail to return. -/
inductive ParseFault
  /-- `tokens` is indexed past its end. -/
  | tokensIndex (index : ℕ)
  /-- `std::stoll` throws `std::invalid_argument`. -/
  | invalidArgument
  /-- `std::stoll` throws `std::out_of_range`. -/
  | outOfRange
  /-- The division of the least `long long` by `-1` traps: its quotient is not a `long long`. -/
  | quotientOverflow
  deriving DecidableEq, Repr

/-- `std::stoll`. -/
def stoll (text : ByteString) : Except ParseFault Int64 :=
  match parseInteger text with
  | none => .error .invalidArgument
  | some value =>
    if -2 ^ 63 ≤ value ∧ value < 2 ^ 63 then .ok (Int64.ofInt value) else .error .outOfRange

/-- `tokens[index]`. -/
def tokenAt (tokens : List ByteString) (index : ℕ) : Except ParseFault ByteString :=
  match tokens[index]? with
  | some token => .ok token
  | none => .error (.tokensIndex index)

/-- The class `Calc`: a register. -/
structure Calc where
  result : Int64
  deriving DecidableEq, Repr

namespace Calc

/-- `Calc::Calc()`. -/
def initial : Calc := ⟨0⟩

/-- `Calc::add`. -/
def add (c : Calc) (value : Int64) : Calc := ⟨c.result + value⟩

/-- `Calc::sub`. -/
def sub (c : Calc) (value : Int64) : Calc := ⟨c.result - value⟩

/-- `Calc::mul`. -/
def mul (c : Calc) (value : Int64) : Calc := ⟨c.result * value⟩

/-- `Calc::div`: a zero divisor leaves the register as it is. -/
def div (c : Calc) (value : Int64) : Except ParseFault Calc :=
  if value ≠ 0 then
    if c.result = Int64.minValue ∧ value = -1 then .error .quotientOverflow
    else .ok ⟨c.result / value⟩
  else .ok c

/-- `Calc::parse`. -/
def parse (c : Calc) (cmd : ByteString) : Except ParseFault Calc := do
  let tokens := getlines 59 cmd
  if tokens.length > 2 then return c
  let code := hash (← tokenAt tokens 0)
  if code = hash (bytes "ADD") then return c.add (← stoll (← tokenAt tokens 1))
  else if code = hash (bytes "SUB") then return c.sub (← stoll (← tokenAt tokens 1))
  else if code = hash (bytes "MUL") then return c.mul (← stoll (← tokenAt tokens 1))
  else if code = hash (bytes "DIV") then c.div (← stoll (← tokenAt tokens 1))
  else return c

/-- `Calc::get_result`. -/
def getResult (c : Calc) : ByteString := toDecimal c.result.toInt

/-- `std::stoll` indexes no token. -/
theorem stoll_ne_tokensIndex (text : ByteString) (index : ℕ) :
    stoll text ≠ .error (.tokensIndex index) := by
  unfold stoll
  cases parseInteger text with
  | none => simp
  | some value =>
    dsimp only
    split_ifs <;> simp

/-- A division indexes no token. -/
theorem div_ne_tokensIndex (c : Calc) (value : Int64) (index : ℕ) :
    c.div value ≠ .error (.tokensIndex index) := by
  unfold div
  split_ifs <;> simp

/-- Reading the operand `std::stoll(tokens[1])` never indexes `tokens[0]`. -/
theorem operand_ne_tokensIndex_zero {tokens : List ByteString}
    {next : Int64 → Except ParseFault Calc}
    (hnext : ∀ value, next value ≠ .error (.tokensIndex 0)) :
    (do next (← stoll (← tokenAt tokens 1)) : Except ParseFault Calc) ≠
      .error (.tokensIndex 0) := by
  simp only [bind, Except.bind, tokenAt]
  cases tokens[1]? with
  | none => simp
  | some token =>
    have hstoll := stoll_ne_tokensIndex token 0
    cases hvalue : stoll token with
    | error fault =>
      rw [hvalue] at hstoll
      simpa [hvalue] using hstoll
    | ok value => simpa [hvalue] using hnext value

/-- The empty command is the only one whose `tokens[0]` is out of range. -/
theorem parse_eq_tokensIndex_zero_iff {c : Calc} {cmd : ByteString} :
    c.parse cmd = .error (.tokensIndex 0) ↔ cmd = [] := by
  constructor
  · intro hfault
    by_contra hne
    obtain ⟨name, operands, htokens⟩ :=
      List.exists_cons_of_ne_nil (mt getlines_eq_nil_iff.mp hne : getlines 59 cmd ≠ [])
    have hname : tokenAt (name :: operands) 0 = .ok name := rfl
    revert hfault
    simp only [parse, htokens, hname, imp_false]
    by_cases hmany : (name :: operands).length > 2
    · simp only [hmany, ↓reduceIte, pure, Except.pure, reduceCtorEq, not_false_eq_true]
    · simp only [hmany, ↓reduceIte]
      change ¬ (if hash name = _ then _ else if _ then _ else if _ then _ else if _ then _
        else _) = _
      split_ifs
      · exact operand_ne_tokensIndex_zero fun _ ↦ by simp [pure, Except.pure]
      · exact operand_ne_tokensIndex_zero fun _ ↦ by simp [pure, Except.pure]
      · exact operand_ne_tokensIndex_zero fun _ ↦ by simp [pure, Except.pure]
      · exact operand_ne_tokensIndex_zero fun value ↦ div_ne_tokensIndex c value 0
      · simp [pure, Except.pure]
  · rintro rfl
    rfl

/-! ### Sequences of commands -/

/-- The commands of a list parsed one after the other. -/
def parseAll (c : Calc) (cmds : List ByteString) : Except ParseFault Calc :=
  cmds.foldlM parse c

@[simp] theorem parseAll_nil (c : Calc) : c.parseAll [] = .ok c := rfl

/-- The first command is parsed before the others. -/
theorem parseAll_cons (c : Calc) (cmd : ByteString) (cmds : List ByteString) :
    c.parseAll (cmd :: cmds) = (c.parse cmd).bind fun next ↦ next.parseAll cmds :=
  rfl

/-- Parsing two lists in a row is parsing their concatenation. -/
theorem parseAll_append (c : Calc) (first second : List ByteString) :
    c.parseAll (first ++ second) = (c.parseAll first).bind fun middle ↦ middle.parseAll second := by
  simp only [parseAll, List.foldlM_append]
  rfl

end Calc

end RaftConsensus
