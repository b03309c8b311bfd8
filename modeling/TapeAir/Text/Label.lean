import TapeAir.Text.Decimal
import TapeAir.Text.Quoted
/-! # Scalars of a document

Names and seeds arrive as any scalar of a document. Shown among other text a scalar keeps its
quotes; as a seed a text stands for itself.
-/
namespace TapeAir

inductive Label where
  | absent
  | truth (b : Bool)
  | int (z : Int)
  | decimal (d : Decimal)
  | text (s : String)
deriving DecidableEq, Repr

namespace Label

def shown : Label → String
  | .absent => "None"
  | .truth true => "True"
  | .truth false => "False"
  | .int z => toString z
  | .decimal d => d.text
  | .text s => Text.quoted s

def plain : Label → String
  | .text s => s
  | l => l.shown

end Label

end TapeAir
