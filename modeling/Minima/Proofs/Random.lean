import Mathlib.Data.List.Forall2
import Minima.Random

/-!
# What draws can come to

A draw is described by what holds of the drawn value whatever the source hands out.
Shuffles come to permutations.
-/

namespace Minima

variable {ρ β γ : Type}

/-- Whatever the source hands out, the drawn value has the property. -/
def Draws (d : StateM ρ β) (post : β → Prop) : Prop := ∀ r, post (d r).1

variable {d : StateM ρ β} {post : β → Prop}

theorem Draws.mono {post' : β → Prop} (h : Draws d post) (himp : ∀ b, post b → post' b) :
    Draws d post' :=
  fun r => himp _ (h r)

theorem draws_true (d : StateM ρ β) : Draws d fun _ => True := fun _ => trivial

theorem draws_pure {b : β} (h : post b) : Draws (pure b : StateM ρ β) post := fun _ => h

theorem Draws.bind {next : β → StateM ρ γ} {good : β → Prop} {post : γ → Prop}
    (h : Draws d good) (hnext : ∀ b, good b → Draws (next b) post) : Draws (d >>= next) post :=
  fun r => hnext _ (h r) (d r).2

theorem draws_ite {p : Prop} [Decidable p] {d' : StateM ρ β} (h : p → Draws d post)
    (h' : ¬ p → Draws d' post) : Draws (if p then d else d') post := by
  split
  · exact h ‹_›
  · exact h' ‹_›

theorem draws_mapM {f : β → StateM ρ γ} {inputs : List β} {R : β → γ → Prop}
    (h : ∀ b ∈ inputs, Draws (f b) (R b)) : Draws (inputs.mapM f) (List.Forall₂ R inputs) := by
  induction inputs with
  | nil =>
      rw [List.mapM_nil]
      exact draws_pure .nil
  | cons b inputs ih =>
      rw [List.mapM_cons]
      obtain ⟨hb, hinputs⟩ := List.forall_mem_cons.mp h
      refine hb.bind fun c hc => ?_
      exact (ih hinputs).bind fun made hmade => draws_pure (.cons hc hmade)

theorem draws_mapM_all {f : β → StateM ρ γ} {inputs : List β} {Q : γ → Prop}
    (h : ∀ b ∈ inputs, Draws (f b) Q) :
    Draws (inputs.mapM f) fun made => made.length = inputs.length ∧ ∀ c ∈ made, Q c := by
  refine (draws_mapM h).mono fun made hmade => ⟨hmade.length_eq.symm, ?_⟩
  rw [← List.forall₂_same]
  induction hmade with
  | nil => exact .nil
  | cons hc _ ih =>
      obtain ⟨-, hinputs⟩ := List.forall_mem_cons.mp h
      exact .cons hc (ih hinputs)

namespace Random

variable [RandomSource ρ]

theorem swapIfInBounds_perm (a : Array β) (i j : Nat) :
    (a.swapIfInBounds i j).toList.Perm a.toList := by
  unfold Array.swapIfInBounds
  split
  · split
    · exact (Array.swap_perm _ _).toList
    · exact .refl _
  · exact .refl _

theorem draws_shuffle_go (i : Nat) (a : Array β) :
    Draws (shuffle.go i a : StateM ρ (Array β)) fun b => b.toList.Perm a.toList := by
  induction i generalizing a with
  | zero => exact draws_pure (.refl _)
  | succ i ih =>
      rw [shuffle.go]
      refine (draws_true _).bind fun j _ => ?_
      exact (ih _).mono fun b hb => hb.trans (swapIfInBounds_perm a (i + 1) j)

theorem draws_shuffle (l : List β) : Draws (shuffle l : StateM ρ (List β)) (List.Perm l) :=
  (draws_shuffle_go _ _).bind fun _ hb => draws_pure hb.symm

theorem draws_permutation (n : Nat) :
    Draws (permutation n : StateM ρ (List Nat)) (List.Perm (List.range n)) :=
  draws_shuffle _

end Random

end Minima
