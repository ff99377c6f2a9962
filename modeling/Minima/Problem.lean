import Minima.Objective
import Minima.Region

/-!
# Problems and the progress on them

A problem is an objective on a region.  Work on it keeps the current point, the
value and squared gradient norm last stored for it, and counts of the
evaluations made through the problem.
-/

namespace Minima

structure Problem (σ α : Type) where
  objective : Objective σ α
  region : Region α

structure Progress (σ α : Type) where
  /-- The state of the objective. -/
  oracle : σ
  point : Vec α
  value : Option α
  gradientNormSq : Option α
  valueCount : Nat
  gradientCount : Nat

def Progress.start {σ α : Type} (oracle : σ) (point : Vec α) : Progress σ α :=
  ⟨oracle, point, none, none, 0, 0⟩

def Progress.reset {σ α : Type} (p : Progress σ α) : Progress σ α :=
  { p with value := none, gradientNormSq := none, valueCount := 0, gradientCount := 0 }

abbrev Work (σ α β : Type) := ExceptT (Failure α) (StateM (Progress σ α)) β

namespace Problem

variable {σ α : Type}

def uncounted {β : Type} (e : Eval σ α β) : Work σ α β := fun p =>
  let (answer, oracle) := e p.oracle
  (answer, { p with oracle })

def countValue : Work σ α Unit := modify fun p => { p with valueCount := p.valueCount + 1 }

def countGradient : Work σ α Unit :=
  modify fun p => { p with gradientCount := p.gradientCount + 1 }

def value (P : Problem σ α) (x : Vec α) : Work σ α α := do
  countValue
  uncounted (P.objective.value x)

def values (P : Problem σ α) (x : Vec α) : Work σ α (Vec α) := do
  countValue
  uncounted (P.objective.values x)

def gradient (P : Problem σ α) (x : Vec α) : Work σ α (Vec α) := do
  countGradient
  uncounted (P.objective.gradient x)

def valueAndGradient (P : Problem σ α) (x : Vec α) : Work σ α (α × Vec α) := do
  countValue
  countGradient
  uncounted (P.objective.valueAndGradient x)

def settle (x : Vec α) (value : α) : Work σ α Unit :=
  modify fun p => { p with point := x, value := some value }

def settleWithGradient (x : Vec α) (value gradientNormSq : α) : Work σ α Unit :=
  modify fun p => { p with point := x, value := some value, gradientNormSq := some gradientNormSq }

end Problem

end Minima
