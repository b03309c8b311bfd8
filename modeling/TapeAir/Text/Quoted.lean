import TapeAir.Text.Printable
/-! # Quoted text

A text is shown between single quotes, or between double quotes if it holds a single quote and no
double one. A backslash stands before itself, before the quote in use and in the short forms of tab,
line feed and carriage return. Characters that do not print are written by number, with two, four or
eight hexadecimal digits.
-/
namespace TapeAir.Text

def hexDigits (width n : Nat) : String :=
  String.ofList ((List.range width).reverse.map fun i => (n >>> (4 * i) % 16).digitChar)

def quoteFor (s : String) : Char :=
  if s.toList.contains '\'' && !s.toList.contains '"' then '"' else '\''

def escape (quote c : Char) : String :=
  if c == quote || c == '\\' then String.ofList ['\\', c]
  else if c == '\t' then "\\t"
  else if c == '\n' then "\\n"
  else if c == '\r' then "\\r"
  else if isPrintable c then c.toString
  else if c.toNat < 0x100 then "\\x" ++ hexDigits 2 c.toNat
  else if c.toNat < 0x10000 then "\\u" ++ hexDigits 4 c.toNat
  else "\\U" ++ hexDigits 8 c.toNat

def quoted (s : String) : String :=
  let quote := quoteFor s
  let body := String.join (s.toList.map (escape quote))
  quote.toString ++ body ++ quote.toString

end TapeAir.Text
