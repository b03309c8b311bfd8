import TapeAir.Field.Level
import TapeAir.Poly.Basic
/-! # Points that mix the two fields

An extension polynomial accepts base coordinates and multiplies by them coefficient by coefficient.
A base polynomial cannot use an extension coordinate, and no polynomial can use a coordinate that is
missing. Either is harmless where its variable does not occur.
-/
namespace TapeAir.Poly
variable (l : Level) {n : Nat}

def termValue? (point : Vector (Option Element) n) (m : Monomial n) (c : l.Carrier) :
    Option l.Carrier :=
  (List.finRange n).foldlM (fun acc i =>
    if m.get i = 0 then some acc
    else (point.get i).bind fun a => l.timesPower? acc a (m.get i)) c

def evalMixed? (p : Poly l.Carrier n) (point : Vector (Option Element) n) : Option l.Carrier :=
  p.terms.foldlM (fun acc t => (termValue? l point t.1 t.2).map (acc + ·)) 0

end TapeAir.Poly
