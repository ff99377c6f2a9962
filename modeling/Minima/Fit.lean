import Minima.Method
import Minima.Objective.Model

/-!
# Fitting a model

A fit minimises the objective of a model within a region by any of the methods,
and keeps the results of the last run that succeeded.
-/

namespace Minima

structure Fit (ρ α : Type) where
  region : Region α
  accuracy : α
  maxIterations : Nat
  method : Method ρ α
  /-- Where the next run starts. -/
  initial : Vec α
  results : Vec α
  residualNorm : α
  evaluations : Nat
  exit : Outcome

namespace Fit

variable {ρ σ α : Type} [Scalar α] [RandomSource ρ]

def usualMethod : Method ρ α :=
  .descent ⟨.conjugate .fletcherReeves none, .backtracking .usual⟩

def new (region : Region α) (accuracy : α) (maxIterations : Nat) (method : Method ρ α) :
    Fit ρ α where
  region
  accuracy
  maxIterations
  method
  initial := []
  results := []
  residualNorm := 0
  evaluations := 0
  exit := .running

def rule (f : Fit ρ α) : Checked α (StoppingRule α) :=
  StoppingRule.new f.maxIterations (some (min (f.maxIterations / 2) 100)) f.accuracy f.accuracy
    (some f.accuracy)

/-- Fits a model from the initial value.  The method is left behind even if
the run fails; the results then stay as they were. -/
def perform (f : Fit ρ α) (m : Model σ α) (oracle : σ) :
    Checked α (Vec α) × Fit ρ α × σ :=
  if f.initial.length ≠ m.size then
    (.error (.invalid (.startLength f.initial.length m.size)), f, oracle)
  else
    match f.rule with
    | .error failure => (.error failure, f, oracle)
    | .ok rule =>
      let P : Problem σ α := ⟨m.objective, f.region⟩
      let (answer, s) := Method.minimize P ⟨Progress.start oracle f.initial, rule, f.method⟩
      let f := { f with method := s.memory }
      match answer with
      | .error failure => (.error failure, f, s.progress.oracle)
      | .ok exit =>
        let f := { f with exit, results := s.progress.point }
        let finished value : Fit ρ α :=
          { f with residualNorm := value, evaluations := s.progress.valueCount }
        match s.progress.value with
        | some value => (.ok f.results, finished value, s.progress.oracle)
        | none =>
          match m.objective.value f.results s.progress.oracle with
          | (.ok value, oracle) => (.ok f.results, finished value, oracle)
          | (.error failure, oracle) => (.error failure, f, oracle)

end Fit

end Minima
