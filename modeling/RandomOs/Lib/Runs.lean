import Mathlib.Init

/-!
# Runs of labelled transition systems

A system is given by its initial states and a labelled step relation.  `Reach` collects the states
of the runs all of whose steps meet a condition on the state before the step and the label.
-/

namespace Lib

variable {σ α : Type}

/-- States reached by runs whose every step `s -a→ t` satisfies `ok s a`. -/
inductive Reach (init : σ → Prop) (step : σ → α → σ → Prop) (ok : σ → α → Prop) : σ → Prop
  | start {s} : init s → Reach init step ok s
  | next {s a t} : Reach init step ok s → step s a t → ok s a → Reach init step ok t

variable {init : σ → Prop} {step : σ → α → σ → Prop} {ok : σ → α → Prop}

theorem Reach.invariant {inv : σ → Prop} (hinit : ∀ s, init s → inv s)
    (hstep : ∀ s a t, inv s → ok s a → step s a t → inv t) {s : σ}
    (hs : Reach init step ok s) : inv s := by
  induction hs with
  | start h => exact hinit _ h
  | next _ hst hok ih => exact hstep _ _ _ ih hok hst

theorem Reach.mono {ok' : σ → α → Prop} (h : ∀ s a, ok s a → ok' s a) {s : σ}
    (hs : Reach init step ok s) : Reach init step ok' s := by
  induction hs with
  | start h => exact .start h
  | next _ hst hok ih => exact .next ih hst (h _ _ hok)

end Lib
