/-
The floating-point operations of the target, by the IEEE 754 definitions of `Lib.Binary64`.
-/
import Look.Arith.Strtod

namespace Look

/-- The cast to `int64_t`; beyond its range the instruction of the target gives the least one. -/
def Double.truncate (d : Double) : Int64 :=
  let i := Binary64.toInt d.bits
  if Binary64.isNaN d.bits || i < int64Min || int64Max < i then Int64.ofInt int64Min
  else Int64.ofInt i

/-- IEEE arithmetic, comparison and conversion, with the `pow` and `look_format_double` of a
library. -/
@[reducible] def DoubleOps.ieee (lib : DoubleOps) : DoubleOps where
  add x y := ⟨Binary64.add x.bits y.bits⟩
  sub x y := ⟨Binary64.sub x.bits y.bits⟩
  mul x y := ⟨Binary64.mul x.bits y.bits⟩
  div x y := ⟨Binary64.div x.bits y.bits⟩
  pow := lib.pow
  neg x := ⟨Binary64.neg x.bits⟩
  ofInt64 i := ⟨Binary64.ofInt i.toInt⟩
  toInt64 := Double.truncate
  eq x y := Binary64.eq x.bits y.bits
  lt x y := Binary64.lt x.bits y.bits
  le x y := Binary64.le x.bits y.bits
  format := lib.format
  stod := Look.stod

namespace DoubleOps

section Comparison

variable {lib : DoubleOps} {x y : Double}

theorem ieee_eq : @DoubleOps.eq (.ieee lib) x y = Binary64.eq x.bits y.bits := rfl

theorem ieee_lt : @DoubleOps.lt (.ieee lib) x y = Binary64.lt x.bits y.bits := rfl

theorem ieee_stod {s : String} : @DoubleOps.stod (.ieee lib) s = Look.stod s := rfl

theorem ieee_le : @DoubleOps.le (.ieee lib) x y = Binary64.le x.bits y.bits := rfl

end Comparison

end DoubleOps

end Look
