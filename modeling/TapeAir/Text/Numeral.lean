import TapeAir.Text.Quoted
/-! # Integers in decimal notation

An integer is read from its digits, with a sign or none. Underscores may part the digits one at a
time, and blanks may surround the whole. Digits and blanks are those of ASCII. A numeral of more
digits than the limit is neither read nor written.
-/
namespace TapeAir

inductive NumeralError where
  | malformed (text : String)
  | tooManyDigits (found : Nat)
  | tooLarge
deriving DecidableEq, Repr

namespace Numeral

def limit : Nat := 4300

def bound : Nat := Nat.pow 10 limit

def isWritable (z : Int) : Bool := z.natAbs < bound

/-- Space, tab, and the four characters that end a line or a page. -/
def isBlank (c : Char) : Bool := c == ' ' || (9 ≤ c.toNat && c.toNat ≤ 13)

def sign : List Char → Bool × List Char
  | '-' :: cs => (true, cs)
  | '+' :: cs => (false, cs)
  | cs => (false, cs)

/-- Whether a sequence of digits and underscores starts and ends with a digit and has no two
underscores together. -/
def isParted : List Char → Bool
  | [] => false
  | '_' :: _ => false
  | _ :: '_' :: cs => isParted cs
  | _ :: cs => cs.isEmpty || isParted cs

def value (digits : List Char) : Nat :=
  digits.foldl (fun n d => 10 * n + (d.toNat - '0'.toNat)) 0

/-- The integer that a text writes. The digits are counted before what follows them is looked at. -/
def read (s : String) : Except NumeralError Int :=
  let (negative, cs) := sign (s.toList.dropWhile isBlank)
  let (run, rest) := cs.span fun c => c.isDigit || c == '_'
  let digits := run.filter Char.isDigit
  if !isParted run then .error (.malformed s)
  else if limit < digits.length then .error (.tooManyDigits digits.length)
  else if !rest.all isBlank then .error (.malformed s)
  else .ok (if negative then -(value digits : Int) else value digits)

end Numeral

namespace NumeralError

def shownLength : Nat := 200

def message : NumeralError → String
  | .malformed text =>
    let shown := String.ofList ((Text.quoted text).toList.take shownLength)
    s!"invalid literal for int() with base 10: {shown}"
  | .tooManyDigits found =>
    s!"Exceeds the limit ({Numeral.limit} digits) for integer string conversion: "
      ++ s!"value has {found} digits; use sys.set_int_max_str_digits() to increase the limit"
  | .tooLarge =>
    s!"Exceeds the limit ({Numeral.limit} digits) for integer string conversion; "
      ++ "use sys.set_int_max_str_digits() to increase the limit"

end NumeralError

end TapeAir
