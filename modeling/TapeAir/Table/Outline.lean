import TapeAir.Field.RootOfUnity
import TapeAir.Text.Quoted
/-! # Outlines of tables

The numbers that describe a table apart from its rows. The padded height is the least power of two
that holds the length, and the rows of a padded table are indexed by the powers of a generator of
that order.
-/
namespace TapeAir

structure Outline where
  name : String
  baseWidth : Int
  fullWidth : Int
  /-- The number of rows before padding. -/
  length : Int
  numRandomizers : Int
  generator : Goldilocks
  order : Int

namespace Outline

/-- The number of rows after padding. An empty table stays empty. -/
def height (o : Outline) : Nat := nextPowerOfTwo o.length

/-- The generator of the trace domain. An empty table has none. -/
def omicron? (o : Outline) : Option Goldilocks :=
  if o.height = 0 then none else some (o.generator ^ (o.order / o.height).toNat)

def isPadded (o : Outline) (rows : Nat) : Bool :=
  rows == o.height && (rows == 0 || isPowerOfTwo rows)

def text (o : Outline) : String :=
  let name := Text.quoted o.name
  s!"Table(name={name}, length={o.length}, height={o.height}, " ++
    s!"base_width={o.baseWidth}, full_width={o.fullWidth})"

end Outline

end TapeAir
