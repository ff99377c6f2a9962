import Minima.Scalar

/-!
# Double precision

The arithmetic that programs run on: IEEE 754 doubles, rounded to nearest.  There is one undefined
value among them, without a sign bit.
-/

namespace Minima

instance : Scalar Float where
  zero := 0
  one := 1
  natCast := Float.ofNat
  decLt := inferInstance
  decLe := inferInstance
  abs := Float.abs
  sqrt := Float.sqrt
  cbrt := Float.cbrt
  ln := Float.log
  pow := Float.pow
  isNegative x := x.toBits >>> 63 == 1
  isFinite := Float.isFinite
  epsilon := Float.ofBits 0x3CB0000000000000
  largest := Float.ofBits 0x7FEFFFFFFFFFFFFF
  smallest := Float.ofBits 0x0010000000000000
  infinity := Float.ofBits 0x7FF0000000000000

end Minima
