/-! # Powers by repeated squaring

One definition serves both fields: it asks for a product and a unit, and for no law.
-/
namespace TapeAir

def power {α : Type} [One α] [Mul α] (a : α) (e : Nat) : α :=
  if e = 0 then 1
  else if e % 2 = 0 then power (a * a) (e / 2)
  else power (a * a) (e / 2) * a
termination_by e

section
variable {α : Type} [One α] [Mul α] (a : α)

theorem power_zero : power a 0 = 1 := by
  rw [power]
  rfl

theorem power_even {e : Nat} (he : e ≠ 0) (h : e % 2 = 0) :
    power a e = power (a * a) (e / 2) := by
  rw [power, if_neg he, if_pos h]

theorem power_odd {e : Nat} (h : e % 2 = 1) :
    power a e = power (a * a) (e / 2) * a := by
  rw [power, if_neg (by omega), if_neg (by omega)]

end

end TapeAir
