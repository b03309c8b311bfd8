import TapeAir.Field.Cubic
/-! # Rows of a matrix

A matrix is a list of rows, and rows are lists of any length: a table keeps what it is given. A rule
that needs a cell which a row lacks has no result.
-/
namespace TapeAir

abbrev Row := List Goldilocks

abbrev ExtendedRow := List Cubic

def Row.lift (row : Row) : ExtendedRow := List.map Cubic.lift row

end TapeAir
