import TapeAir.Field.Cubic
/-! # Evaluation of symbols

The input and output tables hold one column of symbols. Their argument compresses the symbols to the
value of a polynomial that has them as coefficients, and the added column shows that value as it
grows. Padding appends zeros, so the value at the last padded row is the terminal times a power of
the challenge.
-/
namespace TapeAir

/-- The value at `point` of the polynomial with the given coefficients, highest first. -/
def evaluation (point : Cubic) (symbols : List Cubic) : Cubic :=
  symbols.foldl (fun acc s => acc * point + s) 0

structure SymbolRow (α : Type) where
  symbol : α
  evaluation : α

namespace SymbolRow
variable {α : Type} [Add α] [Sub α] [Mul α]

def ofColumns {α : Type} (column : Nat → α) : SymbolRow α := ⟨column 0, column 1⟩

def transition (point : α) (r s : SymbolRow α) : α :=
  r.evaluation * point + s.symbol - s.evaluation

def boundary (r : SymbolRow α) : α := r.evaluation - r.symbol

def ends (r : SymbolRow α) (terminal : α) : α := r.evaluation - terminal

end SymbolRow

end TapeAir
