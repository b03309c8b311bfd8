import TapeAir.Calculator.Operator
/-! # Formulas over values

A constraint formula can be evaluated at the values of the calculator, whose types and shapes are
known only as data. Constants take one given shape. The outcome is the value, or the first error in
the order in which the formula is written.
-/
namespace TapeAir

structure Outcome (s : Shape) where
  value : Except Error Value

namespace Outcome
variable {s : Shape}

def ofValue (v : Value) : Outcome s := ⟨.ok v⟩

def ofInt (z : Int) : Outcome s := ⟨((Value.int z).toConstant s).map .poly⟩

def combine (op : Operator) (a b : Outcome s) : Outcome s where
  value := do op.apply (← a.value) (← b.value)

instance : Zero (Outcome s) := ⟨ofValue (.poly (.zero s))⟩
instance : One (Outcome s) := ⟨ofInt 1⟩
instance : NatCast (Outcome s) := ⟨fun k => ofInt k⟩
instance : Add (Outcome s) := ⟨combine .add⟩
instance : Sub (Outcome s) := ⟨combine .sub⟩
instance : Mul (Outcome s) := ⟨combine .mul⟩

def values (l : List (Outcome s)) : Except Error (List Value) := l.mapM value

end Outcome

end TapeAir
