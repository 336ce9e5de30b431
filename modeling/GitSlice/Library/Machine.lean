import Mathlib.Data.List.Induction

/-! # Runs of a deterministic machine
A machine is a step function `σ → α → σ`: the action carries everything that is not determined by
the state (who acts, at what time, with which fresh identifier), so that a run is a list of actions.
This module holds the rules a development needs about runs: `Machine.run_induction` proves an
invariant of every run whose steps all meet a condition, `Machine.history_induction` a property of
the actions themselves, and `Machine.run_invariant` an invariant of every run. -/

namespace GitSlice

universe u v w x

namespace Machine

variable {σ : Type u} {α : Type v} (step : σ → α → σ)

/-- The state a machine reaches from `s` by the actions `as`. -/
def run (s : σ) (as : List α) : σ := as.foldl step s

@[simp] theorem run_nil (s : σ) : run step s [] = s := rfl

@[simp] theorem run_cons (s : σ) (a : α) (as : List α) :
    run step s (a :: as) = run step (step s a) as := rfl

theorem run_append (s : σ) (as bs : List α) : run step s (as ++ bs) = run step (run step s as) bs :=
  List.foldl_append

/-- Every step of the run of `as` from `s` meets `cond`, a condition on the state before the step
and on the action. -/
def Meets (cond : σ → α → Prop) : σ → List α → Prop
  | _, [] => True
  | s, a :: as => cond s a ∧ Meets cond (step s a) as

instance Meets.instDecidable {cond : σ → α → Prop} [∀ s a, Decidable (cond s a)] :
    ∀ s as, Decidable (Meets step cond s as)
  | _, [] => instDecidableTrue
  | s, a :: as => @instDecidableAnd (cond s a) _ _ (Meets.instDecidable (step s a) as)

variable {step} {cond : σ → α → Prop} {s : σ} {as : List α}

theorem meets_append {bs : List α} :
    Meets step cond s (as ++ bs) ↔ Meets step cond s as ∧ Meets step cond (run step s as) bs := by
  induction as generalizing s with
  | nil => simp [Meets]
  | cons a as ih => simp only [List.cons_append, Meets, ih, run_cons, and_assoc]

theorem Meets.mono {cond' : σ → α → Prop} (h : ∀ s a, cond s a → cond' s a)
    (hs : Meets step cond s as) : Meets step cond' s as := by
  induction as generalizing s with
  | nil => trivial
  | cons a as ih => exact ⟨h s a hs.1, ih hs.2⟩

variable (inv : σ → Prop)

/-- **Invariant rule**: what holds at the start and is kept by every step that meets the condition
holds at the end of every run whose steps all meet it. -/
theorem run_induction (hstep : ∀ s a, inv s → cond s a → inv (step s a)) (h : inv s)
    (hs : Meets step cond s as) : inv (run step s as) := by
  induction as generalizing s with
  | nil => exact h
  | cons a as ih => exact ih (hstep s a h hs.1) hs.2

/-- **History rule**: a property of the actions so far, kept by every step that meets the condition,
holds of every run whose steps all meet it. -/
theorem history_induction (P : List α → Prop) (h : P [])
    (hstep : ∀ as a, P as → cond (run step s as) a → P (as ++ [a])) (hs : Meets step cond s as) :
    P as := by
  induction as using List.reverseRecOn with
  | nil => exact h
  | append_singleton as a ih =>
    obtain ⟨hprev, hlast, -⟩ := meets_append.mp hs
    exact hstep as a (ih hprev) hlast

theorem run_invariant (hstep : ∀ s a, inv s → inv (step s a)) (h : inv s) (as : List α) :
    inv (run step s as) := by
  induction as generalizing s with
  | nil => exact h
  | cons a as ih => exact ih (hstep s a h)

end Machine

end GitSlice
