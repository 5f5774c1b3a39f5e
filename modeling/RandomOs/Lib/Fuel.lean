import Mathlib.Data.Fintype.Order
import Mathlib.Logic.Relation
import Mathlib.Order.WellFounded

/-!
# Recursion of bounded depth

A recursive function is run with a bound on its depth and gives `none` if that is not enough.  It
returns when every bound from some point on gives the same result.
-/

namespace Lib

variable {α σ : Type} {run : Nat → Option σ} {l : List α} {f : σ → α → Option σ} {inv : σ → Prop}

/-- Every bound that is large enough gives `r`. -/
def Returns (run : Nat → Option σ) (r : σ) : Prop := ∃ k, ∀ depth ≥ k, run depth = some r

theorem Returns.exists {r : σ} (h : Returns run r) : ∃ depth, run depth = some r := by
  obtain ⟨k, hk⟩ := h
  exact ⟨k, hk k (Nat.le_refl k)⟩

theorem returns_const (r : σ) : Returns (fun _ => some r) r := ⟨0, fun _ _ => rfl⟩

-- one level more
theorem Returns.succ {r : σ} (h : Returns (fun k => run (k + 1)) r) : Returns run r := by
  obtain ⟨k, hk⟩ := h
  refine ⟨k + 1, ?_⟩
  intro depth hle
  obtain ⟨j, rfl⟩ := Nat.exists_eq_add_of_le' (Nat.le_trans (Nat.le_add_left 1 k) hle)
  exact hk j (by omega)

theorem Returns.bind {next : Nat → σ → Option σ} {r r' : σ} (h : Returns run r)
    (h' : Returns (fun k => next k r) r') : Returns (fun k => run k >>= next k) r' := by
  obtain ⟨k, hk⟩ := h
  obtain ⟨k', hk'⟩ := h'
  refine ⟨max k k', ?_⟩
  intro depth hle
  dsimp only
  rw [hk depth (by omega)]
  exact hk' depth (by omega)

theorem returns_foldlM {run : Nat → α → σ → Option σ} {Q : List α → σ → Prop} {s : σ}
    (hstart : Q [] s)
    (hround : ∀ before a s, a ∈ l → Q before s →
      ∃ s', Returns (fun k => run k a s) s' ∧ Q (before ++ [a]) s') :
    ∃ s', Returns (fun k => l.foldlM (fun s a => run k a s) s) s' ∧ Q l s' := by
  -- the rounds still to come, behind those that were made
  have hgo : ∀ rest before s, (∀ a ∈ rest, a ∈ l) → Q before s →
      ∃ s', Returns (fun k => rest.foldlM (fun s a => run k a s) s) s' ∧ Q (before ++ rest) s' := by
    intro rest
    induction rest with
    | nil =>
      intro before s _ hq
      rw [List.append_nil]
      exact ⟨s, returns_const s, hq⟩
    | cons a rest ih =>
      intro before s hmem hq
      obtain ⟨s₁, hret, hq₁⟩ := hround before a s (hmem a List.mem_cons_self) hq
      obtain ⟨s₂, hret₂, hq₂⟩ :=
        ih (before ++ [a]) s₁ (fun b hb => hmem b (List.mem_cons_of_mem a hb)) hq₁
      rw [List.append_assoc] at hq₂
      refine ⟨s₂, ?_, hq₂⟩
      exact hret.bind hret₂
  exact hgo l [] s (fun _ h => h) hstart

theorem foldlM_mono {f f' : σ → α → Option σ} (hle : ∀ a s s', f s a = some s' → f' s a = some s')
    {s s' : σ} (h : l.foldlM f s = some s') : l.foldlM f' s = some s' := by
  induction l generalizing s with
  | nil => exact h
  | cons a l ih =>
    rw [List.foldlM_cons] at h ⊢
    obtain ⟨s₁, hfa, h⟩ := Option.bind_eq_some_iff.1 h
    rw [hle a s s₁ hfa]
    exact ih h

-- a result that a greater bound keeps is the one that is returned
theorem Returns.eq_of_some {r r' : σ} (h : Returns run r)
    (hmono : ∀ depth s, run depth = some s → run (depth + 1) = some s) {depth : Nat}
    (hsome : run depth = some r') : r' = r := by
  obtain ⟨k, hk⟩ := h
  have hall : ∀ j, run (depth + j) = some r' := by
    intro j
    induction j with
    | zero => exact hsome
    | succ j ih => exact hmono _ _ ih
  have heq := (hall k).symm.trans (hk (depth + k) (Nat.le_add_left k depth))
  exact Option.some.inj heq

theorem foldlM_invariant {s s' : σ} (hround : ∀ a s s', a ∈ l → inv s → f s a = some s' → inv s')
    (hs : inv s) (h : l.foldlM f s = some s') : inv s' := by
  induction l generalizing s with
  | nil =>
    cases h
    exact hs
  | cons a l ih =>
    rw [List.foldlM_cons] at h
    obtain ⟨s₁, hfa, h⟩ := Option.bind_eq_some_iff.1 h
    exact ih (fun b s s' hb => hround b s s' (List.mem_cons_of_mem a hb))
      (hround a s s₁ List.mem_cons_self hs hfa) h

theorem foldlM_eq_none {s : σ} (hround : ∀ a s s', a ∈ l → inv s → f s a = some s' → inv s')
    (hs : inv s) {a : α} (ha : a ∈ l) (hnone : ∀ s, inv s → f s a = none) :
    l.foldlM f s = none := by
  induction l generalizing s with
  | nil => cases ha
  | cons b l ih =>
    rw [List.foldlM_cons]
    cases hfb : f s b with
    | none => rfl
    | some s₁ =>
      have hs₁ := hround b s s₁ List.mem_cons_self hs hfb
      rcases List.mem_cons.mp ha with rfl | ha
      · rw [hnone s hs] at hfb
        cases hfb
      · exact ih (fun c s s' hc => hround c s s' (List.mem_cons_of_mem b hc)) hs₁ ha

/-! ## Accessible elements of a finite graph -/

open Relation

theorem acc_irrefl {r : α → α → Prop} {a : α} (h : Acc r a) : ¬ r a a := by
  induction h with
  | intro a _ ih => exact fun hr => ih a hr hr

theorem acc_iff_acyclic [Finite α] {needs : α → α → Prop} {root : α} :
    Acc (fun b a => needs a b) root ↔
      ∀ a, ReflTransGen needs root a → ¬ TransGen needs a a := by
  constructor
  · intro hacc a hreach hcycle
    have hacc' : Acc (fun b a => needs a b) a := by
      clear hcycle
      induction hreach with
      | refl => exact hacc
      | tail _ hstep ih => exact ih.inv hstep
    apply acc_irrefl hacc'.transGen
    rw [← transGen_swap] at hcycle
    exact hcycle
  · intro hacyclic
    -- the relation on what is reached has no cycles, so it is well founded
    let below : α → α → Prop := fun b a => needs a b ∧ ReflTransGen needs root a
    have hirrefl : ∀ a, ¬ TransGen below a a := by
      intro a hcycle
      have hreach : ReflTransGen needs root a := by
        obtain ⟨b, -, hb⟩ := TransGen.tail'_iff.mp hcycle
        exact hb.2
      apply hacyclic a hreach
      have hle : below ≤ Function.swap needs := fun _ _ h => h.1
      exact transGen_swap.mp (TransGen.mono hle a a hcycle)
    have hwf : WellFounded below := by
      have : Std.Irrefl (TransGen below) := ⟨hirrefl⟩
      exact (Finite.wellFounded_of_trans_of_irrefl (TransGen below)).mono
        fun _ _ h => TransGen.single h
    have hall : ∀ a, ReflTransGen needs root a → Acc (fun b a => needs a b) a := by
      intro a
      induction a using hwf.induction with
      | _ a ih =>
        intro hreach
        refine ⟨a, fun b hb => ih b ⟨hb, hreach⟩ (hreach.tail hb)⟩
    exact hall root .refl

end Lib
