import Minima.StoppingRule
import Minima.Problem

/-!
# Sessions

A method works in a session: the progress on the problem, the stopping rule, and
a memory of its own, all of which are left behind however the run ends.
-/

namespace Minima

structure Session (σ μ α : Type) where
  progress : Progress σ α
  rule : StoppingRule α
  memory : μ

abbrev Run (σ μ α β : Type) := ExceptT (Failure α) (StateM (Session σ μ α)) β

namespace Run

variable {σ μ α β : Type}

def work (w : Work σ α β) : Run σ μ α β := fun s =>
  let (answer, progress) := w s.progress
  (answer, { s with progress })

def check (c : StoppingRule α → Bool × StoppingRule α) : Run σ μ α Bool := fun s =>
  let (fired, rule) := c s.rule
  (.ok fired, { s with rule })

def mark (o : Outcome) : Run σ μ α Unit := modify fun s => { s with rule := (s.rule.mark o).2 }

def remember (f : μ → μ) : Run σ μ α Unit := modify fun s => { s with memory := f s.memory }

def draw {ρ : Type} (source : μ → ρ) (put : ρ → μ → μ) (d : StateM ρ β) : Run σ μ α β := fun s =>
  let (b, r) := d (source s.memory)
  (.ok b, { s with memory := put r s.memory })

def outcome : Run σ μ α Outcome := do return (← get).rule.outcome

def reset : Run σ μ α Unit :=
  modify fun s => { s with progress := s.progress.reset, rule := s.rule.reset }

/-- Runs with another memory, made from this one and put back into it. -/
def within {ν : Type} (memory : μ) (restore : μ → ν) (r : Run σ μ α β) : Run σ ν α β := fun s =>
  let (answer, t) := r ⟨s.progress, s.rule, memory⟩
  (answer, ⟨t.progress, t.rule, restore t.memory⟩)

end Run

end Minima
