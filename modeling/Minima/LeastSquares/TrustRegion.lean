import Minima.Factorization.Damped

/-!
# The step inside a trust region

Given a damped system, a scaling `D` and a radius, `trustStep` looks for a
damping `λ` such that the solution `p` for the diagonal `√λ D` has `|D p|`
within a tenth of the radius.  It starts from bounds on `λ` and improves them
by Newton steps, with at most ten damped solutions.
-/

namespace Minima

structure TrustStep (α : Type) where
  step : Vec α
  damping : α
  /-- The length of the scaled step. -/
  length : α

namespace TrustStep

variable {α : Type} [Scalar α]

structure Search (α : Type) where
  damping : α
  lower : α
  upper : α
  /-- How much the last scaled step was longer than the radius. -/
  excess : α

def correction (norm : Norm) (factor : Factor α) (scaling scaled : Vec α)
    (length excess radius : α) : α :=
  let n := norm.length (factor.solve (Vec.divide (Vec.mul scaled scaling) length))
  excess / radius / n / n

def search (norm : Norm) (scaling : Vec α) (radius : α) :
    (more : Nat) → DampedSystem α → Search α → TrustStep α × DampedSystem α
  | more, system, s =>
    let damping :=
      if Scalar.isZero s.damping then Scalar.max Scalar.smallest (s.upper * 0.001) else s.damping
    let (step, system) := system.solve (Vec.scale (Scalar.sqrt damping) scaling)
    let scaled := Vec.mul step scaling
    let length := norm.length scaled
    let done : TrustStep α := ⟨step, damping, length⟩
    match more with
    | 0 => (done, system)
    | more + 1 =>
      let excess := length - radius
      if Scalar.abs excess ≤ radius * 0.1
          ∨ (Scalar.isZero s.lower ∧ excess ≤ s.excess ∧ Scalar.isNegative s.excess) then
        (done, system)
      else
        let newton := correction norm system.lowerFactor scaling scaled length excess radius
        -- an undefined radius is exceeded by every step
        let tooLong := Scalar.isUndefined radius ∨ 0 < excess
        let lower := if tooLong then Scalar.max s.lower damping else s.lower
        let upper := if tooLong then s.upper else Scalar.min s.upper damping
        search norm scaling radius more system
          ⟨Scalar.max lower (damping + newton), lower, upper, excess⟩

end TrustStep

/-- The step, and the system with the triangle of the last damping. -/
def trustStep {α : Type} [Scalar α] (norm : Norm) (system : DampedSystem α) (scaling : Vec α)
    (radius damping : α) : TrustStep α × DampedSystem α :=
  let step := system.solveUndamped
  let scaled := Vec.mul step scaling
  let length := norm.length scaled
  let excess := length - radius
  if excess ≤ radius * 0.1 then (⟨step, 0, length⟩, system)
  else
    let factor := system.upperFactor
    let lower :=
      if factor.isNonSingular then
        TrustStep.correction norm factor scaling scaled length excess radius
      else 0
    let gradient :=
      norm.length (List.zipWith (· / ·) factor.mulRhs (gather system.permutation scaling))
    let bound := gradient / radius
    let upper :=
      if Scalar.isZero bound then Scalar.smallest / Scalar.min radius 0.1 else bound
    let start := Scalar.min (Scalar.max damping lower) upper
    let start := if Scalar.isZero start then gradient / length else start
    TrustStep.search norm scaling radius 9 system ⟨start, lower, upper, excess⟩

end Minima
