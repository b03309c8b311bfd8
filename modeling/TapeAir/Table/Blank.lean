import TapeAir.Error
/-! # A table without operations

A table of which nothing but the outline is defined. Every operation is refused by name: what has no
definition is not taken to hold vacuously.
-/
namespace TapeAir.Blank

def outline (length : Int) : Outline where
  name := "Stub table"
  baseWidth := 1
  fullWidth := 2
  length := length
  numRandomizers := 0
  generator := 1
  order := 1

inductive Request where
  | operation (what : Undefined)
  | unsummarised
  /-- The symbols of a table that is neither input nor output. -/
  | symbols
  | shown
deriving DecidableEq, Repr

def answer (length : Int) : Request → Except Error String
  | .operation what => .error (.undefined (outline length).name what)
  | .unsummarised => .error (.undefined "No more" .summary)
  | .symbols => .error (.undefined "None" .symbols)
  | .shown => .ok s!"StubTable({(outline length).text})"

end TapeAir.Blank
