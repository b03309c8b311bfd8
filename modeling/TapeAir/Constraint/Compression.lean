import TapeAir.Argument
/-! # Compressed triples

A permutation argument compares collections of triples. A triple is compressed to a linear
combination, and its factor in the running product is the point of the argument less that
combination. The same formula is used with field elements and with polynomials.
-/
namespace TapeAir

structure Weights (α : Type) where
  point : α
  first : α
  second : α
  third : α

namespace Weights

def map {α β : Type} (f : α → β) (w : Weights α) : Weights β :=
  ⟨f w.point, f w.first, f w.second, f w.third⟩

def factor {α : Type} [Sub α] [Mul α] (w : Weights α) (x y z : α) : α :=
  w.point - w.first * x - w.second * y - w.third * z

end Weights

namespace Challenges

def instructionWeights (ch : Challenges) : Weights Cubic := ⟨ch.alpha, ch.a, ch.b, ch.c⟩

def memoryWeights (ch : Challenges) : Weights Cubic := ⟨ch.beta, ch.d, ch.e, ch.f⟩

end Challenges

end TapeAir
