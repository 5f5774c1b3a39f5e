import Mathlib.Logic.Relation

/-!
# Loops and what they read

A loop is a step function on its states that says `none` at the end.  `rounds` runs it for a number
of rounds and collects what it reads.
-/

namespace Lib

open Relation

variable {σ ρ : Type}

/-- What the loop reads from `s` on; `none` if it is still running after `k` rounds. -/
def rounds (step : σ → Option σ) (reads : σ → List ρ) : (k : Nat) → σ → Option (List ρ)
  | 0, _ => none
  | k + 1, s =>
    match step s with
    | none => some (reads s)
    | some t => (rounds step reads k t).map (reads s ++ ·)

/-- The states of the loop that starts in `s`. -/
def Visits (step : σ → Option σ) : σ → σ → Prop := ReflTransGen fun s t => step s = some t

/-- The loop ends, and all that it reads meets `P`. -/
def Ends (step : σ → Option σ) (reads : σ → List ρ) (P : ρ → Prop) (s : σ) : Prop :=
  ∃ k rs, rounds step reads k s = some rs ∧ ∀ r ∈ rs, P r

section Loop

variable {step : σ → Option σ} {reads : σ → List ρ} {P : ρ → Prop} {s t : σ}

theorem rounds_last (k : Nat) (h : step s = none) :
    rounds step reads (k + 1) s = some (reads s) := by
  rw [rounds, h]

theorem rounds_next (k : Nat) (h : step s = some t) :
    rounds step reads (k + 1) s = (rounds step reads k t).map (reads s ++ ·) := by
  rw [rounds, h]

-- a state that comes back
theorem rounds_stuck (h : step s = some s) (k : Nat) : rounds step reads k s = none := by
  induction k with
  | zero => rfl
  | succ k ih => rw [rounds_next k h, ih, Option.map_none]

theorem Visits.eq_of_last (h : Visits step s t) (hlast : step s = none) : t = s := by
  rcases ReflTransGen.cases_head h with rfl | ⟨u, hu, -⟩
  · rfl
  · rw [hlast] at hu
    cases hu

section

variable (h : Ends step reads P s)

include h

theorem Ends.not_stuck : step s ≠ some s := by
  intro hstuck
  obtain ⟨k, rs, hrun, -⟩ := h
  rw [rounds_stuck hstuck] at hrun
  cases hrun

theorem Ends.reads_ok : ∀ r ∈ reads s, P r := by
  obtain ⟨k, rs, hrun, hrs⟩ := h
  cases k with
  | zero => cases hrun
  | succ k =>
    cases hstep : step s with
    | none =>
      rw [rounds_last k hstep] at hrun
      cases hrun
      exact hrs
    | some t =>
      rw [rounds_next k hstep] at hrun
      obtain ⟨rs', -, rfl⟩ := Option.map_eq_some_iff.mp hrun
      exact fun r hr => hrs r (List.mem_append_left _ hr)

theorem Ends.next (hstep : step s = some t) : Ends step reads P t := by
  obtain ⟨k, rs, hrun, hrs⟩ := h
  cases k with
  | zero => cases hrun
  | succ k =>
    rw [rounds_next k hstep] at hrun
    obtain ⟨rs', hrun', rfl⟩ := Option.map_eq_some_iff.mp hrun
    exact ⟨k, rs', hrun', fun r hr => hrs r (List.mem_append_right _ hr)⟩

theorem Ends.visits (ht : Visits step s t) : Ends step reads P t := by
  induction ht with
  | refl => exact h
  | tail _ hstep ih => exact ih.next hstep

end

/-- A loop whose every step makes progress or stands still ends with good reads if and only if it
never stands still and every state reads well. -/
theorem ends_iff (μ : σ → Nat) (hμ : ∀ s t, step s = some t → t = s ∨ μ t < μ s) :
    Ends step reads P s ↔ ∀ t, Visits step s t → step t ≠ some t ∧ ∀ r ∈ reads t, P r := by
  constructor
  · intro h t ht
    exact ⟨(h.visits ht).not_stuck, (h.visits ht).reads_ok⟩
  intro h
  -- on the distance to the end
  induction hk : μ s using Nat.strongRecOn generalizing s with
  | _ k ih =>
    obtain ⟨hmoves, hreads⟩ := h s .refl
    cases hstep : step s with
    | none => exact ⟨1, reads s, rounds_last 0 hstep, hreads⟩
    | some t =>
      rcases hμ s t hstep with rfl | hlt
      · exact absurd hstep hmoves
      obtain ⟨j, rs, hrun, hrs⟩ := ih (μ t) (by omega)
        (fun u hu => h u (ReflTransGen.head hstep hu)) rfl
      refine ⟨j + 1, reads s ++ rs, ?_, ?_⟩
      · rw [rounds_next j hstep, hrun]
        rfl
      · intro r hr
        rcases List.mem_append.mp hr with hr | hr
        · exact hreads r hr
        · exact hrs r hr

end Loop

end Lib
