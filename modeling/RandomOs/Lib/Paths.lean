import Mathlib.Data.List.DropRight
import Mathlib.Tactic.Common

/-!
# Strings as lists of components

A path is a string over any alphabet, cut at a separator.  `comps` are its non-empty pieces, `join`
puts them together again, and `canon` takes the dots out: one dot is dropped, and two dots drop the
component before.
-/

namespace Lib.Paths

open List

variable {α : Type} {cs : List (List α)}

def comps [DecidableEq α] (sep : α) (s : List α) : List (List α) :=
  (s.splitOn sep).filter fun c => !c.isEmpty

/-- A piece that can be a component. -/
def Word (sep : α) (c : List α) : Prop := c ≠ [] ∧ sep ∉ c

def join (sep : α) (cs : List (List α)) : List α := cs.flatMap (sep :: ·)

def push [DecidableEq α] (dot : α) (st : List (List α)) (c : List α) : List (List α) :=
  if c = [dot] then st else if c = [dot, dot] then st.dropLast else st ++ [c]

def canon [DecidableEq α] (dot : α) (cs : List (List α)) : List (List α) := cs.foldl (push dot) []

/-! ## Components -/

section Comps

variable [DecidableEq α] {sep : α} {s c : List α}

theorem comps_nil (sep : α) : comps sep [] = [] := by
  unfold comps
  simp [List.splitOn]

theorem comps_append_sep (sep : α) (s t : List α) :
    comps sep (s ++ sep :: t) = comps sep s ++ comps sep t := by
  unfold comps List.splitOn
  rw [splitOnP_append_cons s t (by simp), filter_append]

theorem comps_sep_cons (t : List α) : comps sep (sep :: t) = comps sep t := by
  have h := comps_append_sep sep [] t
  rwa [comps_nil] at h

theorem comps_word (h : Word sep c) : comps sep c = [c] := by
  obtain ⟨hne, hsep⟩ := h
  unfold comps List.splitOn
  rw [splitOnP_eq_singleton]
  · simp [hne]
  · intro x hx
    rw [beq_eq_false_iff_ne]
    rintro rfl
    exact hsep hx

theorem comps_dropWhile_sep (sep : α) (s : List α) :
    comps sep (s.dropWhile (· == sep)) = comps sep s := by
  induction s with
  | nil => rfl
  | cons x s ih =>
    rw [dropWhile_cons]
    split
    · rename_i hx
      rw [ih, beq_iff_eq.mp hx, comps_sep_cons]
    · rfl

theorem comps_rdropWhile_sep (sep : α) (s : List α) :
    comps sep (s.rdropWhile (· == sep)) = comps sep s := by
  induction s using reverseRecOn with
  | nil => rfl
  | append_singleton s x ih =>
    rw [rdropWhile_concat]
    split
    · rename_i hx
      rw [ih, eq_of_beq hx, comps_append_sep, comps_nil, append_nil]
    · rfl

-- the first component and the rest of the string
theorem comps_takeWhile {s : List α} (hs : s ≠ []) (hhead : s.head? ≠ some sep) :
    Word sep (s.takeWhile (· != sep)) ∧
      comps sep s = s.takeWhile (· != sep) :: comps sep (s.dropWhile (· != sep)) := by
  have hword : Word sep (s.takeWhile (· != sep)) := by
    constructor
    · cases s with
      | nil => exact absurd rfl hs
      | cons x s =>
        rw [takeWhile_cons, if_pos (by simpa using hhead)]
        exact cons_ne_nil _ _
    · intro hmem
      have := mem_takeWhile_imp hmem
      simp at this
  refine ⟨hword, ?_⟩
  have hsplit := takeWhile_append_dropWhile (p := (· != sep)) (l := s)
  cases hrest : s.dropWhile (· != sep) with
  | nil =>
    rw [hrest, append_nil] at hsplit
    rw [comps_nil, hsplit, comps_word]
    rwa [hsplit] at hword
  | cons x t =>
    have hx : x = sep := by
      have hnot := List.head?_dropWhile_not (· != sep) s
      rw [hrest] at hnot
      simpa using hnot
    subst hx
    rw [hrest] at hsplit
    conv_lhs => rw [← hsplit]
    rw [comps_append_sep, comps_word hword, comps_sep_cons, singleton_append]

theorem head?_dropWhile_sep (sep : α) (s : List α) : (s.dropWhile (· == sep)).head? ≠ some sep := by
  have hnot := List.head?_dropWhile_not (· == sep) s
  intro heq
  rw [heq] at hnot
  simp at hnot

theorem takeWhile_eq_self_of_comps_nil (h : comps sep s = []) : s.takeWhile (· == sep) = s := by
  have hsplit := takeWhile_append_dropWhile (p := (· == sep)) (l := s)
  rw [← comps_dropWhile_sep] at h
  by_cases hne : s.dropWhile (· == sep) = []
  · rwa [hne, append_nil] at hsplit
  · rw [(comps_takeWhile hne (head?_dropWhile_sep sep s)).2] at h
    cases h

theorem comps_eq_nil_iff : comps sep s = [] ↔ ∀ x ∈ s, x = sep := by
  constructor
  · intro h x hx
    rw [← takeWhile_eq_self_of_comps_nil h] at hx
    have := mem_takeWhile_imp hx
    simpa using this
  · intro h
    induction s with
    | nil => exact comps_nil sep
    | cons x s ih =>
      rw [h x mem_cons_self, comps_sep_cons]
      exact ih fun y hy => h y (mem_cons_of_mem _ hy)

-- the separators in front, the first component and what follows it
theorem exists_word (h : comps sep s ≠ []) :
    ∃ a w t, s = a ++ w ++ t ∧ Word sep w ∧ s.takeWhile (· == sep) = a ∧
      (w ++ t).takeWhile (· != sep) = w ∧ (t = [] ∨ ∃ t', t = sep :: t') ∧
      comps sep s = w :: comps sep t := by
  have hst := comps_dropWhile_sep sep s
  have hne : s.dropWhile (· == sep) ≠ [] := by
    intro hnil
    rw [hnil] at hst
    exact h hst.symm
  have hword := comps_takeWhile hne (head?_dropWhile_sep sep s)
  have hsplit := takeWhile_append_dropWhile (p := (· != sep)) (l := s.dropWhile (· == sep))
  refine ⟨s.takeWhile (· == sep), (s.dropWhile (· == sep)).takeWhile (· != sep),
    (s.dropWhile (· == sep)).dropWhile (· != sep), ?_, hword.1, rfl, ?_, ?_, ?_⟩
  · rw [append_assoc, hsplit, takeWhile_append_dropWhile]
  · rw [hsplit]
  · cases hrest : (s.dropWhile (· == sep)).dropWhile (· != sep) with
    | nil => exact .inl rfl
    | cons x t =>
      have hnot := List.head?_dropWhile_not (· != sep) (s.dropWhile (· == sep))
      rw [hrest] at hnot
      have hx : x = sep := by simpa using hnot
      exact .inr ⟨t, by rw [hx]⟩
  · rw [← hst, hword.2]

theorem length_dropWhile_lt (hs : s ≠ []) (hhead : s.head? ≠ some sep) :
    (s.dropWhile (· != sep)).length < s.length := by
  cases s with
  | nil => exact absurd rfl hs
  | cons x s =>
    rw [dropWhile_cons, if_pos (by simpa using hhead), length_cons]
    have := (dropWhile_suffix (l := s) (· != sep)).length_le
    omega

-- by induction on the length, one component or one separator at a time
theorem word_of_mem_comps {s : List α} (hc : c ∈ comps sep s) : Word sep c := by
  by_cases hs : s = []
  · rw [hs] at hc
    cases hc
  by_cases hhead : s.head? = some sep
  · obtain ⟨t, rfl⟩ := List.head?_eq_some_iff.mp hhead
    rw [comps_sep_cons] at hc
    exact word_of_mem_comps hc
  · have hword := comps_takeWhile hs hhead
    have hlt := length_dropWhile_lt hs hhead
    rw [hword.2, mem_cons] at hc
    cases hc with
    | inl h => exact h ▸ hword.1
    | inr h => exact word_of_mem_comps h
termination_by s.length
decreasing_by all_goals simp_all

-- one component after the other
theorem comps_induction {P : List α → Prop} (sep : α) (nil : ∀ s, comps sep s = [] → P s)
    (last : ∀ a w, Word sep w → comps sep (a ++ w) = [w] → P (a ++ w))
    (cons : ∀ a w t, Word sep w → comps sep (a ++ w ++ sep :: t) = w :: comps sep t → P t →
      P (a ++ w ++ sep :: t)) (s : List α) : P s := by
  induction hlen : s.length using Nat.strong_induction_on generalizing s with
  | h len ih =>
    by_cases hnil : comps sep s = []
    · exact nil s hnil
    obtain ⟨a, w, t, rfl, hw, _, _, rfl | ⟨t, rfl⟩, hcs⟩ := exists_word hnil
    · rw [append_nil] at hcs ⊢
      exact last a w hw hcs
    · rw [comps_sep_cons] at hcs
      apply cons a w t hw hcs
      rw [length_append, length_cons] at hlen
      exact ih t.length (by omega) t rfl

-- a component takes a byte, and another one parts it from the next
theorem length_comps_le (sep : α) (s : List α) : 2 * (comps sep s).length ≤ s.length + 1 := by
  induction s using comps_induction sep with
  | nil s h =>
    rw [h]
    exact Nat.zero_le _
  | last a w hw h =>
    have := length_pos_iff.mpr hw.1
    rw [h, length_singleton, length_append]
    omega
  | cons a w t hw h ih =>
    have := length_pos_iff.mpr hw.1
    rw [h, length_cons, length_append, length_append, length_cons]
    omega

theorem mem_of_mem_comps {x : α} (s : List α) (hc : c ∈ comps sep s) (hx : x ∈ c) : x ∈ s := by
  induction s using comps_induction sep with
  | nil s h =>
    rw [h] at hc
    cases hc
  | last a w hw h =>
    rw [h, mem_singleton] at hc
    exact mem_append_right a (hc ▸ hx)
  | cons a w t hw h ih =>
    rw [h, mem_cons] at hc
    rcases hc with rfl | hc
    · exact mem_append_left _ (mem_append_right a hx)
    · exact mem_append_right _ (mem_cons_of_mem sep (ih hc))

theorem comps_join (h : ∀ c ∈ cs, Word sep c) : comps sep (join sep cs) = cs := by
  induction cs with
  | nil => exact comps_nil sep
  | cons c cs ih =>
    have hc := h c mem_cons_self
    have hcs := ih fun d hd => h d (mem_cons_of_mem _ hd)
    change comps sep (sep :: c ++ join sep cs) = c :: cs
    rw [cons_append, comps_sep_cons]
    cases cs with
    | nil =>
      change comps sep (c ++ []) = [c]
      rw [append_nil, comps_word hc]
    | cons d cs =>
      change comps sep (sep :: (d ++ join sep cs)) = d :: cs at hcs
      change comps sep (c ++ sep :: (d ++ join sep cs)) = c :: d :: cs
      rw [comps_append_sep, comps_word hc, ← comps_sep_cons, hcs, singleton_append]

end Comps

/-! ## Joining -/

section Join

variable {sep : α}

theorem join_nil (sep : α) : join sep [] = [] := rfl

theorem join_concat (st : List (List α)) (c : List α) :
    join sep (st ++ [c]) = join sep st ++ sep :: c := by
  unfold join
  rw [flatMap_append, flatMap_singleton]

theorem length_join_concat (st : List (List α)) (c : List α) :
    (join sep (st ++ [c])).length = (join sep st).length + (c.length + 1) := by
  rw [join_concat, length_append, length_cons]

theorem length_join_le_of_isPrefix (sep : α) {as bs : List (List α)} (h : as <+: bs) :
    (join sep as).length ≤ (join sep bs).length := by
  obtain ⟨t, rfl⟩ := h
  unfold join
  rw [flatMap_append, length_append]
  omega

-- a join of words ends in a letter of its last word
theorem length_join_comps_le [DecidableEq α] (sep : α) (s : List α) :
    (join sep (comps sep s)).length ≤ s.length + 1 := by
  have hjoin : ∀ w ws, (join sep (w :: ws)).length = w.length + 1 + (join sep ws).length := by
    intro w ws
    change (sep :: w ++ join sep ws).length = _
    rw [length_append, length_cons]
  induction s using comps_induction sep with
  | nil s h =>
    rw [h]
    exact Nat.zero_le _
  | last a w hw h =>
    rw [h, hjoin, join_nil, length_nil, length_append]
    omega
  | cons a w t hw h ih =>
    rw [h, hjoin, length_append, length_append, length_cons]
    omega

theorem getLast?_join (h : ∀ c ∈ cs, Word sep c) : (join sep cs).getLast? ≠ some sep := by
  rcases eq_nil_or_concat cs with rfl | ⟨st, c, rfl⟩
  · rw [join_nil]
    exact nofun
  obtain ⟨hne, hsep⟩ := h c (by simp)
  rw [concat_eq_append, join_concat, ← singleton_append, ← append_assoc,
    List.getLast?_append_of_ne_nil _ hne]
  intro hlast
  exact hsep (mem_of_getLast? hlast)

end Join

/-! ## Dots -/

section Canon

variable [DecidableEq α] {dot : α} {c : List α} {cs : List (List α)}

theorem push_dot (st : List (List α)) : push dot st [dot] = st := if_pos rfl

theorem push_dotdot (st : List (List α)) : push dot st [dot, dot] = st.dropLast := by
  unfold push
  rw [if_neg (by simp), if_pos rfl]

theorem push_of_ne (st : List (List α)) (h₁ : c ≠ [dot]) (h₂ : c ≠ [dot, dot]) :
    push dot st c = st ++ [c] := by
  unfold push
  rw [if_neg h₁, if_neg h₂]

theorem canon_concat (cs : List (List α)) (c : List α) :
    canon dot (cs ++ [c]) = push dot (canon dot cs) c := by
  unfold canon
  rw [foldl_append, foldl_cons, foldl_nil]

theorem mem_canon (hc : c ∈ canon dot cs) : c ∈ cs ∧ c ≠ [dot] ∧ c ≠ [dot, dot] := by
  induction cs using List.reverseRecOn with
  | nil => cases hc
  | append_singleton cs d ih =>
    rw [canon_concat] at hc
    unfold push at hc
    split at hc
    · exact ⟨mem_append_left _ (ih hc).1, (ih hc).2⟩
    split at hc
    · have hmem := ih (dropLast_subset _ hc)
      exact ⟨mem_append_left _ hmem.1, hmem.2⟩
    rename_i h₁ h₂
    rw [mem_append, mem_singleton] at hc
    cases hc with
    | inl h => exact ⟨mem_append_left _ (ih h).1, (ih h).2⟩
    | inr h =>
      subst h
      exact ⟨by simp, h₁, h₂⟩

theorem length_join_canon_le (sep dot : α) (cs : List (List α)) :
    (join sep (canon dot cs)).length ≤ (join sep cs).length := by
  induction cs using List.reverseRecOn with
  | nil => exact Nat.le_refl _
  | append_singleton cs c ih =>
    rw [canon_concat, length_join_concat]
    by_cases h₁ : c = [dot]
    · rw [h₁, push_dot]
      omega
    by_cases h₂ : c = [dot, dot]
    · have hpre := dropLast_prefix (canon dot cs)
      have := length_join_le_of_isPrefix sep hpre
      rw [h₂, push_dotdot]
      omega
    · rw [push_of_ne _ h₁ h₂, length_join_concat]
      omega

theorem canon_of_noDots (h : ∀ c ∈ cs, c ≠ [dot] ∧ c ≠ [dot, dot]) : canon dot cs = cs := by
  induction cs using List.reverseRecOn with
  | nil => rfl
  | append_singleton cs d ih =>
    have hd := h d (by simp)
    rw [canon_concat, push_of_ne _ hd.1 hd.2, ih fun c hc => h c (mem_append_left _ hc)]

end Canon

end Lib.Paths
