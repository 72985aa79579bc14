import Mathlib.Logic.Function.Basic
/-!
# Interleave — processes that share a state

Processes, each with a state of its own, take atomic steps on a shared state in any order, and an environment steps in
between.  What a process knows of the shared state may rest on what it read many steps ago, so it has to be stable
under every step of the others: `Guarantee` asks this of each step, and `Guarantee.run` gives it for every
interleaving.
-/
namespace Interleave

variable {S L I E A : Type}

/-- The shared state, and the state of each process. -/
structure World (S L I : Type) where
  shared : S
  locals : I → L

/-- A step of the environment, or of a process. -/
inductive Act (I E A : Type) where
  | env (e : E)
  | proc (i : I) (a : A)

/-- What the steps do. -/
structure System (S L I E A : Type) where
  env : E → S → S
  proc : I → A → S → L → S × L

variable [DecidableEq I] (sys : System S L I E A)

def System.step (w : World S L I) : Act I E A → World S L I
  | .env e => { w with shared := sys.env e w.shared }
  | .proc i a =>
    ⟨(sys.proc i a w.shared (w.locals i)).1,
      Function.update w.locals i (sys.proc i a w.shared (w.locals i)).2⟩

def System.run (w : World S L I) (acts : List (Act I E A)) : World S L I := acts.foldl sys.step w

/-- **What every step guarantees**: it keeps the invariant of the shared state, moves the shared state upwards, and
leaves a process with knowledge that no move upwards takes away. -/
structure Guarantee (Inv : S → Prop) (le : S → S → Prop) (Knows : I → S → L → Prop) : Prop where
  refl : ∀ s, le s s
  trans : ∀ s s' s'', le s s' → le s' s'' → le s s''
  stable : ∀ i s s' x, le s s' → Knows i s x → Knows i s' x
  env : ∀ e s, Inv s → Inv (sys.env e s) ∧ le s (sys.env e s)
  proc : ∀ i a s x, Inv s → Knows i s x →
    Inv (sys.proc i a s x).1 ∧ le s (sys.proc i a s x).1 ∧ Knows i (sys.proc i a s x).1 (sys.proc i a s x).2

namespace Guarantee
variable {sys} {Inv : S → Prop} {le : S → S → Prop} {Knows : I → S → L → Prop} (G : Guarantee sys Inv le Knows)
include G

theorem step {w : World S L I} (hs : Inv w.shared) (hl : ∀ i, Knows i w.shared (w.locals i)) (act : Act I E A) :
    Inv (sys.step w act).shared ∧ le w.shared (sys.step w act).shared ∧
      ∀ i, Knows i (sys.step w act).shared ((sys.step w act).locals i) := by
  cases act with
  | env e =>
    obtain ⟨hinv, hle⟩ := G.env e w.shared hs
    exact ⟨hinv, hle, fun i => G.stable i _ _ _ hle (hl i)⟩
  | proc i a =>
    obtain ⟨hinv, hle, hknows⟩ := G.proc i a w.shared (w.locals i) hs (hl i)
    refine ⟨hinv, hle, fun j => ?_⟩
    show Knows j _ (Function.update w.locals i _ j)
    by_cases hj : j = i
    · subst hj
      rw [Function.update_self]
      exact hknows
    · rw [Function.update_of_ne hj]
      exact G.stable j _ _ _ hle (hl j)

/-- **Every interleaving keeps the invariant and what each process knows**, and moves the shared state upwards. -/
theorem run {w : World S L I} (hs : Inv w.shared) (hl : ∀ i, Knows i w.shared (w.locals i)) :
    ∀ acts : List (Act I E A), Inv (sys.run w acts).shared ∧ le w.shared (sys.run w acts).shared ∧
      ∀ i, Knows i (sys.run w acts).shared ((sys.run w acts).locals i) := by
  intro acts
  induction acts generalizing w with
  | nil => exact ⟨hs, G.refl _, hl⟩
  | cons act acts ih =>
    obtain ⟨h1, h2, h3⟩ := G.step hs hl act
    obtain ⟨h4, h5, h6⟩ := ih h1 h3
    exact ⟨h4, G.trans _ _ _ h2 h5, h6⟩

end Guarantee

end Interleave
