import Mathlib.Data.Nat.Digits.Defs
import RaftConsensus.Library.DelimitedText

/-!
# Strings of the standard library

A `std::string` is a sequence of bytes, here a list of `UInt8`. The functions are the parts of
the standard library that the program calls on strings: `std::getline` with a delimiter until the
stream is exhausted (`getlines`), `std::to_string` (`toDecimal`) and the number that `std::stoll`
reads at the front of a string (`parseInteger`).

`bytes` gives the bytes of an ASCII literal.
-/

set_option autoImplicit false
set_option relaxedAutoImplicit false

namespace RaftConsensus

/-- A `std::string`: a sequence of bytes. -/
abbrev ByteString := List UInt8

/-- The `operator==` of strings is equality. -/
instance : LawfulBEq ByteString := inferInstance

/-- The bytes of an ASCII literal. -/
def bytes (literal : String) : ByteString :=
  literal.toList.map fun c ↦ UInt8.ofNat c.toNat

/-! ### `std::getline` -/

/-- The tokens of the loop `while (std::getline(ss, token, delim))` over a stream holding the
text. A delimiter ends a token and is dropped; what is left at the end of the stream is a last
token only if it is nonempty, since a `getline` that extracts nothing fails. -/
def getlines (delim : UInt8) : ByteString → List ByteString
  | [] => []
  | c :: rest =>
    if c = delim then [] :: getlines delim rest
    else
      match getlines delim rest with
      | [] => [[c]]
      | token :: tokens => (c :: token) :: tokens

/-- The loop finds the tokens of the text. -/
theorem getlines_eq_tokens (delim : UInt8) (text : ByteString) :
    getlines delim text = DelimitedText.tokens delim text := by
  induction text with
  | nil => rfl
  | cons c rest ih =>
    rw [getlines, DelimitedText.tokens, ih]
    cases DelimitedText.tokens delim rest <;> rfl

/-- The loop finds no token exactly in the empty text. -/
theorem getlines_eq_nil_iff {delim : UInt8} {text : ByteString} :
    getlines delim text = [] ↔ text = [] := by
  cases text with
  | nil => simp [getlines]
  | cons c rest =>
    simp only [getlines, reduceCtorEq, iff_false]
    split_ifs
    · simp
    · cases getlines delim rest <;> simp

/-! ### Decimal numbers -/

/-- The decimal digits of a natural number, most significant first. -/
def natDecimal (n : ℕ) : ByteString :=
  if n = 0 then bytes "0" else (Nat.digits 10 n).reverse.map fun d ↦ UInt8.ofNat (48 + d)

/-- `std::to_string` of an integer. -/
def toDecimal (z : ℤ) : ByteString :=
  if z < 0 then bytes "-" ++ natDecimal z.natAbs else natDecimal z.natAbs

/-- `std::isspace` in the default locale: space, tab, newline, vertical tab, form feed and
carriage return. -/
def isSpace (c : UInt8) : Bool := c = 32 || (9 ≤ c && c ≤ 13)

/-- `std::isdigit`. -/
def isDigit (c : UInt8) : Bool := 48 ≤ c && c ≤ 57

/-- The value of a sequence of decimal digits. -/
def digitsValue (digits : ByteString) : ℕ :=
  digits.foldl (fun value d ↦ 10 * value + (d.toNat - 48)) 0

/-- The number at the front of a string, as the `strtol` family reads it in base ten: leading
white space, an optional sign and as many digits as follow; `none` when there is no digit. What
stands after the digits is ignored. -/
def parseInteger (text : ByteString) : Option ℤ :=
  let unspaced := text.dropWhile isSpace
  let negative := unspaced.head? = some 45
  let unsigned := if negative ∨ unspaced.head? = some 43 then unspaced.tail else unspaced
  let digits := unsigned.takeWhile isDigit
  if digits = [] then none
  else if negative then some (-(digitsValue digits : ℤ)) else some (digitsValue digits)

end RaftConsensus
