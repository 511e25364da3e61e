import RaftConsensus.Model.Decimal
import RaftConsensus.Model.Messages

/-!
# Reading a log file

`utils::read_log_from` of `utils.h`. It takes the file apart into lines, and each line with two
calls of `std::getline` on a `std::stringstream`. A `getline` on a stream that is not good any more
does not touch the string that it is given, and `read_log_from` gives the second call the result of
the first.

`Stream` is an input stream with the part of its text that has not been read and its two error
flags. `getlines_eq_getline` connects it to the loop over the tokens of a text.
-/

set_option autoImplicit false
set_option relaxedAutoImplicit false

namespace RaftConsensus

open DelimitedText

/-! ### Input streams -/

/-- An input stream: what has not been read, `eofbit` and `failbit`. -/
structure Stream where
  rest : ByteString
  eof : Bool
  fail : Bool
  deriving DecidableEq, Repr

namespace Stream

/-- A stream over a text of which nothing has been read. -/
def ofText (text : ByteString) : Stream := ⟨text, false, false⟩

/-- `good()`. -/
def good (is : Stream) : Bool := !is.eof && !is.fail

/-- `std::getline`, with the string as it is after the call. It extracts the text up to the
delimiter, which it drops; at the end of the text it sets `eofbit`, and `failbit` if it has
extracted nothing. A stream that is not good only gets `failbit`. -/
def getline (is : Stream) (line : ByteString) (delim : UInt8) : Stream × ByteString :=
  if is.good then
    if delim ∈ is.rest then ({ is with rest := after delim is.rest }, before delim is.rest)
    else (⟨[], true, is.rest = []⟩, is.rest)
  else ({ is with fail := true }, line)

end Stream

/-- The loop `while (std::getline(is, line, delim))` goes on as long as the call does not set
`failbit`. -/
theorem getlines_eq_getline (text line : ByteString) (delim : UInt8) :
    getlines delim text =
      let (is, token) := (Stream.ofText text).getline line delim
      if is.fail then [] else token :: getlines delim is.rest := by
  rw [getlines_eq_tokens]
  by_cases htext : text = []
  · subst htext
    rfl
  · rw [tokens_eq_cons htext]
    by_cases hdelim : delim ∈ text
    · simp [Stream.getline, Stream.ofText, Stream.good, hdelim, getlines_eq_tokens]
    · simp [Stream.getline, Stream.ofText, Stream.good, hdelim, htext, getlines_eq_tokens,
        before_of_not_mem, after_of_not_mem]

/-! ### `utils::read_log_from` -/

/-- How `std::stoi` can fail. -/
inductive ReadFault
  /-- It throws `std::invalid_argument`. -/
  | invalidArgument
  /-- It throws `std::out_of_range`. -/
  | outOfRange
  deriving DecidableEq, Repr

/-- An `int`. -/
def InInt (value : ℤ) : Prop := -2 ^ 31 ≤ value ∧ value < 2 ^ 31

instance (value : ℤ) : Decidable (InInt value) := inferInstanceAs (Decidable (_ ∧ _))

/-- `std::stoi`. -/
def stoi (text : ByteString) : Except ReadFault ℤ :=
  match parseInteger text with
  | none => .error .invalidArgument
  | some value => if InInt value then .ok value else .error .outOfRange

/-- The entry that a line of the file holds. -/
def readEntry (line : ByteString) : Except ReadFault Entry := do
  let ss := Stream.ofText line
  let (ss, tmp) := ss.getline [] 59
  let var1 := tmp
  let (_, tmp) := ss.getline tmp 10
  let var2 := tmp
  return (← stoi var1, var2)

/-- `utils::read_log_from`, given the content of the file if there is one. -/
def readLogFrom (file : Option ByteString) : Except ReadFault (List Entry) :=
  match file with
  | some content => (getlines 10 content).mapM readEntry
  | none => .ok []

/-- The part of a line before its first semicolon. -/
def termText (line : ByteString) : ByteString := before 59 line

/-- What `read_log_from` takes for the command of a line: the text after its first semicolon, and
the whole line if it has none. -/
def commandText (line : ByteString) : ByteString := if 59 ∈ line then after 59 line else line

/-- The entry of a line without a newline. -/
theorem readEntry_eq {line : ByteString} (hline : 10 ∉ line) :
    readEntry line = (stoi (termText line)).map fun term ↦ (term, commandText line) := by
  by_cases hsemi : 59 ∈ line
  · have hafter : 10 ∉ after 59 line := fun h ↦ hline (mem_of_mem_after h)
    simp [readEntry, Stream.getline, Stream.ofText, Stream.good, hsemi, hafter, termText,
      commandText, Except.map, bind, Except.bind, pure, Except.pure]
  · simp [readEntry, Stream.getline, Stream.ofText, Stream.good, hsemi, termText, commandText,
      before_of_not_mem, Except.map, bind, Except.bind, pure, Except.pure]

end RaftConsensus
