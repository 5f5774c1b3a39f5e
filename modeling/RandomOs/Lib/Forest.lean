import Mathlib.Data.List.Infix

/-!
# Forests of linked nodes

A store gives for every node and every entry the node that the entry points to.  A place is a root
with a path of entries.  The store is a forest on the places `ok` if no node is at two of them; a
fresh node may then be linked at an empty place, and the nodes below a place may be dropped.
-/

namespace Lib

variable {ν : Type} {es : List Nat}

/-- The node reached from `c` along a path. -/
def walk (next : ν → Nat → Option ν) : ν → List Nat → Option ν
  | c, [] => some c
  | c, e :: es =>
    match next c e with
    | none => none
    | some d => walk next d es

section Walk

variable {next next' : ν → Nat → Option ν}

theorem walk_nil (c : ν) : walk next c [] = some c := rfl

theorem walk_cons (c : ν) (e : Nat) (es : List Nat) :
    walk next c (e :: es) = (next c e).bind fun d => walk next d es := by
  rw [walk]
  cases next c e <;> rfl

theorem walk_append (c : ν) (es fs : List Nat) :
    walk next c (es ++ fs) = (walk next c es).bind fun d => walk next d fs := by
  induction es generalizing c with
  | nil => rfl
  | cons e es ih =>
    rw [List.cons_append, walk_cons, walk_cons]
    cases next c e with
    | none => rfl
    | some d => exact ih d

theorem walk_snoc (c : ν) (es : List Nat) (e : Nat) :
    walk next c (es ++ [e]) = (walk next c es).bind fun d => next d e := by
  rw [walk_append]
  congr
  funext d
  rw [walk_cons]
  cases next d e <;> rfl

theorem walk_congr {c : ν}
    (h : ∀ es₁ e, es₁ ++ [e] <+: es → ∀ d, walk next c es₁ = some d → next' d e = next d e) :
    walk next' c es = walk next c es := by
  induction es using List.reverseRecOn with
  | nil => rfl
  | append_singleton es e ih =>
    have hes : walk next' c es = walk next c es :=
      ih fun es₁ e₁ hpre => h es₁ e₁ (hpre.trans (List.prefix_append es [e]))
    rw [walk_snoc, walk_snoc, hes]
    cases hd : walk next c es with
    | none => rfl
    | some d => exact h es e (List.prefix_refl _) d hd

end Walk

/-- No node is at two places. -/
def Unique (next : ν → Nat → Option ν) (ok : ν → List Nat → Prop) : Prop :=
  ∀ r es r' es' c, ok r es → ok r' es' → walk next r es = some c → walk next r' es' = some c →
    r = r' ∧ es = es'

theorem Unique.mono {next next' : ν → Nat → Option ν} {ok ok' : ν → List Nat → Prop}
    (hu : Unique next ok)
    (h : ∀ r es c, ok' r es → walk next' r es = some c → ok r es ∧ walk next r es = some c) :
    Unique next' ok' := by
  intro r es r' es' c hok hok' hc hc'
  obtain ⟨h1, h2⟩ := h r es c hok hc
  obtain ⟨h1', h2'⟩ := h r' es' c hok' hc'
  exact hu r es r' es' c h1 h1' h2 h2'

/-- One entry of one node is changed; other nodes that are at a place keep their entries. -/
structure Rewires (next next' : ν → Nat → Option ν) (ok : ν → List Nat → Prop) (r₀ : ν)
    (es₀ : List Nat) (e₀ : Nat) (c₀ : ν) : Prop where
  place : ok r₀ (es₀ ++ [e₀])
  at_place : walk next r₀ es₀ = some c₀
  rest : ∀ r es x c, ok r (es ++ [x]) → walk next r es = some c → ¬ (c = c₀ ∧ x = e₀) →
    ¬ (r = r₀ ∧ es₀ ++ [e₀] <+: es) → next' c x = next c x

section Rewires

variable {next next' : ν → Nat → Option ν} {ok : ν → List Nat → Prop} {r₀ : ν} {es₀ : List Nat}
  {e₀ : Nat} {c₀ : ν}

section

variable (h : Rewires next next' ok r₀ es₀ e₀ c₀) (hok : ∀ r es fs, ok r (es ++ fs) → ok r es)
  (hu : Unique next ok) {b : ν}

include h hok hu

theorem Rewires.walk_of_not_below {r : ν} (hes : ok r es) (hnot : ¬ (r = r₀ ∧ es₀ ++ [e₀] <+: es)) :
    walk next' r es = walk next r es := by
  apply walk_congr
  rintro es₁ x ⟨fs, hfs⟩ d hd
  have hes₁ : ok r (es₁ ++ [x]) := by
    rw [← hfs] at hes
    exact hok r _ fs hes
  apply h.rest r es₁ x d hes₁ hd
  · -- the changed entry is on the way to places below it only
    rintro ⟨rfl, rfl⟩
    obtain ⟨hr, hes'⟩ := hu r es₁ r₀ es₀ d (hok r es₁ [x] hes₁) (hok r₀ es₀ [x] h.place) hd
      h.at_place
    exact hnot ⟨hr, fs, by rw [← hes', hfs]⟩
  · rintro ⟨hr, hpre⟩
    refine hnot ⟨hr, hpre.trans ?_⟩
    rw [← hfs, List.append_assoc]
    exact List.prefix_append es₁ _

theorem Rewires.walk_at (fs : List Nat) :
    walk next' r₀ (es₀ ++ e₀ :: fs) = (next' c₀ e₀).bind fun d => walk next' d fs := by
  have hes₀ : walk next' r₀ es₀ = some c₀ := by
    rw [h.walk_of_not_below hok hu (hok r₀ es₀ [e₀] h.place), h.at_place]
    rintro ⟨-, hpre⟩
    have := hpre.length_le
    rw [List.length_append, List.length_singleton] at this
    omega
  rw [walk_append, hes₀, Option.bind_some, walk_cons]

/-- A fresh node at an empty place: it is the only change. -/
theorem Rewires.walk_link (hwas : next c₀ e₀ = none) (hnow : next' c₀ e₀ = some b)
    (hleaf : ∀ x fs, ok r₀ (es₀ ++ e₀ :: x :: fs) → next' b x = none) {r : ν} (hes : ok r es)
    (hne : ¬ (r = r₀ ∧ es = es₀ ++ [e₀])) : walk next' r es = walk next r es := by
  by_cases hbelow : r = r₀ ∧ es₀ ++ [e₀] <+: es
  · obtain ⟨rfl, fs, hfs⟩ := hbelow
    rw [List.append_assoc, List.singleton_append] at hfs
    subst hfs
    cases fs with
    | nil => exact absurd ⟨rfl, rfl⟩ hne
    | cons x fs =>
      rw [h.walk_at hok hu, hnow, Option.bind_some, walk_cons, hleaf x fs hes, Option.bind_none,
        walk_append, h.at_place, Option.bind_some, walk_cons, hwas, Option.bind_none]
  · exact h.walk_of_not_below hok hu hes hbelow

theorem Rewires.walk_new (hnow : next' c₀ e₀ = some b) : walk next' r₀ (es₀ ++ [e₀]) = some b := by
  rw [h.walk_at hok hu, hnow, Option.bind_some, walk_nil]

theorem Rewires.unique_link (hwas : next c₀ e₀ = none) (hnow : next' c₀ e₀ = some b)
    (hleaf : ∀ x fs, ok r₀ (es₀ ++ e₀ :: x :: fs) → next' b x = none)
    (hfresh : ∀ r es, ok r es → walk next r es ≠ some b) : Unique next' ok := by
  -- what `next'` has at a place is new or was there before
  have hcases : ∀ r es c, ok r es → walk next' r es = some c →
      (r = r₀ ∧ es = es₀ ++ [e₀] ∧ c = b) ∨ walk next r es = some c := by
    intro r es c hes hc
    by_cases hplace : r = r₀ ∧ es = es₀ ++ [e₀]
    · left
      rw [hplace.1, hplace.2, h.walk_new hok hu hnow] at hc
      exact ⟨hplace.1, hplace.2, (Option.some.inj hc).symm⟩
    · right
      rwa [h.walk_link hok hu hwas hnow hleaf hes hplace] at hc
  intro r es r' es' c hes hes' hc hc'
  rcases hcases r es c hes hc with ⟨hr, hpath, hb⟩ | hold
  · rcases hcases r' es' c hes' hc' with ⟨hr', hpath', -⟩ | hold'
    · exact ⟨hr.trans hr'.symm, hpath.trans hpath'.symm⟩
    · rw [hb] at hold'
      exact absurd hold' (hfresh r' es' hes')
  · rcases hcases r' es' c hes' hc' with ⟨-, -, hb⟩ | hold'
    · rw [hb] at hold
      exact absurd hold (hfresh r es hes)
    · exact hu r es r' es' c hes hes' hold hold'

/-- A cleared entry: nothing is below it any more, and the rest stays. -/
theorem Rewires.walk_unlink
    (hnow : next' c₀ e₀ = none) {fs : List Nat} : walk next' r₀ (es₀ ++ e₀ :: fs) = none := by
  rw [h.walk_at hok hu, hnow, Option.bind_none]

end

end Rewires

end Lib
