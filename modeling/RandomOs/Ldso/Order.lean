import Mathlib.Data.Fin.VecNotation
import RandomOs.Lib.Fuel

/-!
# Initialisers and finalisers (`ldso.c`)

`run_inits` goes into the dependencies of an object that is not initialised and marks the object
afterwards, so it never comes back from a cycle.  `run_finis` marks first, but goes into the
dependencies whether or not it has been there.  It calls the entries of `finiarray` without the
test for NULL that `run_inits` has.
-/

namespace Ldso

open Lib Relation Function List

/-! ## Model -/

inductive ObjState
  | loaded
  | preinited
  | inited
  | finied
  deriving DecidableEq

/-- The objects of a process: whom they need, and their functions; 0 is NULL. -/
structure Objects (n : Nat) where
  deps : Fin n → List (Fin n)
  initarray : Fin n → List Nat
  init : Fin n → Nat
  finiarray : Fin n → List Nat
  fini : Fin n → Nat

-- the states of the objects, and the functions called so far
structure LdState (n : Nat) where
  state : Fin n → ObjState
  called : List (Fin n × Nat)

variable {n : Nat} {i : Fin n}

-- `if (obj->init) obj->init();`
def single (fn : Nat) : List Nat := if fn = 0 then [] else [fn]

def Objects.inits (g : Objects n) (i : Fin n) : List (Fin n × Nat) :=
  ((g.initarray i).filter (· ≠ 0) ++ single (g.init i)).map (i, ·)

def Objects.finis (g : Objects n) (i : Fin n) : List (Fin n × Nat) :=
  (g.finiarray i ++ single (g.fini i)).map (i, ·)

def LdState.mark (s : LdState n) (i : Fin n) (st : ObjState) (calls : List (Fin n × Nat)) :
    LdState n :=
  ⟨Function.update s.state i st, s.called ++ calls⟩

-- `none` if the depth is not enough
def runInits (g : Objects n) : (depth : Nat) → Fin n → LdState n → Option (LdState n)
  | 0, _, _ => none
  | depth + 1, i, s =>
    if s.state i = .inited then some s
    else do
      let s ← (g.deps i).foldlM (fun s d => runInits g depth d s) s
      if s.state i = .preinited ∨ s.state i = .loaded then some (s.mark i .inited (g.inits i))
      else some (s.mark i .inited [])

-- `none` also if NULL is called
def finiObject (g : Objects n) (i : Fin n) (s : LdState n) : Option (LdState n) :=
  if s.state i = .inited then
    if 0 ∈ g.finiarray i then none else some (s.mark i .finied (g.finis i))
  else some s

def runFinis (g : Objects n) : (depth : Nat) → Fin n → LdState n → Option (LdState n)
  | 0, _, _ => none
  | depth + 1, i, s => do
      let s ← finiObject g i s
      (g.deps i).foldlM (fun s d => runFinis g depth d s) s

/-! ## Cycles -/

def Objects.Needs (g : Objects n) (i d : Fin n) : Prop := d ∈ g.deps i

instance (g : Objects n) (i d : Fin n) : Decidable (g.Needs i d) :=
  inferInstanceAs (Decidable (d ∈ g.deps i))

section Cycles

variable {g : Objects n}

-- `g.Grounded i`: no way down from `i` goes on for ever
def Objects.Grounded (g : Objects n) (i : Fin n) : Prop := Acc (fun d i => g.Needs i d) i

theorem exists_not_grounded (h : ¬ g.Grounded i) : ∃ d ∈ g.deps i, ¬ g.Grounded d := by
  by_contra hall
  apply h
  refine ⟨i, fun d hd => ?_⟩
  by_contra hd'
  exact hall ⟨d, hd, hd'⟩

-- an object above a cycle is never marked, because the call for it does not return
theorem runInits_of_not_grounded (depth : Nat) (i : Fin n) (s : LdState n)
    (hs : ∀ j, s.state j = .inited → g.Grounded j) :
    (¬ g.Grounded i → runInits g depth i s = none) ∧
      ∀ s', runInits g depth i s = some s' → ∀ j, s'.state j = .inited → g.Grounded j := by
  induction depth generalizing i s with
  | zero => exact ⟨fun _ => rfl, fun _ h => nomatch h⟩
  | succ depth ih =>
    have hround : ∀ d s s', d ∈ g.deps i → (∀ j, s.state j = .inited → g.Grounded j) →
        runInits g depth d s = some s' → ∀ j, s'.state j = .inited → g.Grounded j :=
      fun d s s' _ hs h => (ih d s hs).2 s' h
    have hloop : ¬ g.Grounded i → (g.deps i).foldlM (fun s d => runInits g depth d s) s = none := by
      intro hi
      obtain ⟨d, hd, hbad⟩ := exists_not_grounded hi
      exact foldlM_eq_none hround hs hd fun s hs => (ih d s hs).1 hbad
    unfold runInits
    by_cases hdone : s.state i = .inited
    · rw [if_pos hdone]
      refine ⟨fun hi => absurd (hs i hdone) hi, ?_⟩
      intro s' h
      cases h
      exact hs
    · rw [if_neg hdone]
      refine ⟨fun hi => by rw [hloop hi]; rfl, ?_⟩
      intro s' h j hj
      by_cases hi : g.Grounded i
      swap
      · rw [hloop hi] at h
        cases h
      cases hfold : (g.deps i).foldlM (fun s d => runInits g depth d s) s with
      | none =>
        rw [hfold] at h
        cases h
      | some s₁ =>
        have hs₁ := foldlM_invariant hround hs hfold
        rw [hfold] at h
        -- the only new mark is that of the object itself
        have hmark : ∀ calls, s' = s₁.mark i .inited calls → g.Grounded j := by
          rintro calls rfl
          by_cases hji : j = i
          · rw [hji]
            exact hi
          · apply hs₁
            change update s₁.state i .inited j = .inited at hj
            rwa [update_of_ne hji] at hj
        change (if _ then _ else _) = some s' at h
        split at h
        · exact hmark _ (Option.some.inj h).symm
        · exact hmark _ (Option.some.inj h).symm

theorem runInits_mono (depth : Nat) (i : Fin n) (s s' : LdState n)
    (h : runInits g depth i s = some s') : runInits g (depth + 1) i s = some s' := by
  induction depth generalizing i s s' with
  | zero => cases h
  | succ depth ih =>
    unfold runInits at h ⊢
    by_cases hdone : s.state i = .inited
    · rw [if_pos hdone] at h ⊢
      exact h
    rw [if_neg hdone] at h ⊢
    obtain ⟨s₁, hfold, h⟩ := Option.bind_eq_some_iff.1 h
    rw [foldlM_mono (fun d s s' => ih d s s') hfold]
    exact h

end Cycles

/-! ## Initialisers -/

/-- Every object of the list stands behind those it needs. -/
def Objects.InOrder (g : Objects n) (order : List (Fin n)) : Prop :=
  ∀ before i after, order = before ++ i :: after → ∀ d ∈ g.deps i, d ∈ before

/-- The objects in `order` are those that are initialised, and their functions were called in that
order, behind `base`. -/
structure Ordered (g : Objects n) (base : List (Fin n × Nat)) (s : LdState n)
    (order : List (Fin n)) : Prop where
  called : s.called = base ++ order.flatMap g.inits
  nodup : order.Nodup
  marked : ∀ j, j ∈ order ↔ s.state j = .inited
  fresh : ∀ j, s.state j ≠ .finied
  inOrder : g.InOrder order

section Inits

variable {g : Objects n} {base : List (Fin n × Nat)} {s : LdState n} {order : List (Fin n)}

theorem Objects.InOrder.append (h : g.InOrder order) (hdeps : ∀ d ∈ g.deps i, d ∈ order) :
    g.InOrder (order ++ [i]) := by
  intro before j after heq
  rcases eq_nil_or_concat after with rfl | ⟨after', last, rfl⟩
  · obtain ⟨rfl, hji⟩ := append_inj' heq rfl
    cases hji
    exact hdeps
  · rw [concat_eq_append, ← cons_append, ← append_assoc] at heq
    obtain ⟨hord, -⟩ := append_inj' heq rfl
    exact h before j after' hord

theorem Objects.InOrder.of_transGen (h : g.InOrder order) {i d : Fin n}
    (hd : TransGen g.Needs i d) : ∀ before after, order = before ++ i :: after → d ∈ before := by
  induction hd using TransGen.head_induction_on with
  | single hstep => exact fun before after heq => h before _ after heq d hstep
  | @head i j hstep _ ih =>
    intro before after heq
    obtain ⟨before', after', hj⟩ := append_of_mem (h before i after heq j hstep)
    have hmem := ih before' (after' ++ i :: after) (by
      rw [heq, hj, append_assoc, cons_append])
    rw [hj]
    exact mem_append_left _ hmem

theorem Ordered.mark (h : Ordered g base s order) (hi : s.state i ≠ .inited)
    (hdeps : ∀ d ∈ g.deps i, d ∈ order) :
    Ordered g base (s.mark i .inited (g.inits i)) (order ++ [i]) := by
  have hnot : i ∉ order := fun hmem => hi ((h.marked i).mp hmem)
  refine ⟨?_, ?_, ?_, ?_, h.inOrder.append hdeps⟩
  · change s.called ++ g.inits i = _
    rw [h.called, flatMap_append, append_assoc, flatMap_singleton]
  · rw [nodup_append]
    refine ⟨h.nodup, nodup_singleton i, ?_⟩
    intro a ha b hb
    rw [mem_singleton.mp hb]
    rintro rfl
    exact hnot ha
  · intro j
    change _ ↔ update s.state i .inited j = .inited
    rw [mem_append, mem_singleton, h.marked]
    by_cases hji : j = i
    · rw [hji, update_self]
      exact iff_of_true (Or.inr rfl) rfl
    · rw [update_of_ne hji]
      exact or_iff_left hji
  · intro j
    change update s.state i .inited j ≠ .finied
    by_cases hji : j = i
    · rw [hji, update_self]
      exact ObjState.noConfusion
    · rw [update_of_ne hji]
      exact h.fresh j

/-- Below no cycle the call returns, and the objects it marks are below the object. -/
theorem runInits_returns (hi : g.Grounded i) :
    ∀ s order, Ordered g base s order →
      ∃ s' new, Returns (fun k => runInits g k i s) s' ∧ Ordered g base s' (order ++ new) ∧
        i ∈ order ++ new ∧ ∀ j ∈ new, ReflTransGen g.Needs i j := by
  induction hi with
  | intro i hacc ih =>
    intro s order hs
    by_cases hdone : s.state i = .inited
    · refine ⟨s, [], Returns.succ ?_, ?_, ?_, fun j hj => nomatch hj⟩
      · simp only [runInits, if_pos hdone]
        exact returns_const s
      · rwa [append_nil]
      · rw [append_nil]
        exact (hs.marked i).mpr hdone
    -- the objects marked in the rounds so far
    obtain ⟨s₁, hret, new, hs₁, hdeps, hbelow⟩ := @returns_foldlM _ _ (g.deps i)
      (fun k d s => runInits g k d s)
      (fun before s' => ∃ new, Ordered g base s' (order ++ new) ∧ (∀ d ∈ before, d ∈ order ++ new) ∧
        ∀ j ∈ new, ∃ d ∈ g.deps i, ReflTransGen g.Needs d j) s
      ⟨[], by rwa [append_nil], fun d hd => (nomatch hd), fun j hj => (nomatch hj)⟩
      (by
        rintro before d s₁ hd ⟨new, hs₁, hbefore, hnew⟩
        obtain ⟨s₂, new₂, hret₂, hs₂, hd₂, hnew₂⟩ := ih d hd s₁ (order ++ new) hs₁
        rw [append_assoc] at hs₂ hd₂
        refine ⟨s₂, hret₂, new ++ new₂, hs₂, ?_, ?_⟩
        · intro d' hd'
          rcases mem_append.mp hd' with hd' | hd'
          · rw [← append_assoc]
            exact mem_append_left _ (hbefore d' hd')
          · rw [mem_singleton.mp hd']
            exact hd₂
        · intro j hj
          rcases mem_append.mp hj with hj | hj
          · exact hnew j hj
          · exact ⟨d, hd, hnew₂ j hj⟩)
    -- the object itself is not among them: there is no cycle
    have hnot : s₁.state i ≠ .inited := by
      intro hmark
      rcases mem_append.mp ((hs₁.marked i).mpr hmark) with hmem | hmem
      · exact hdone ((hs.marked i).mp hmem)
      · obtain ⟨d, hd, hreach⟩ := hbelow i hmem
        have hcycle : TransGen g.Needs i i := TransGen.head' hd hreach
        have hgrounded : Acc (fun d i => g.Needs i d) i := ⟨i, hacc⟩
        exact acc_irrefl hgrounded.transGen (transGen_swap.mpr hcycle)
    have hstate : s₁.state i = .preinited ∨ s₁.state i = .loaded := by
      cases hst : s₁.state i with
      | loaded => exact Or.inr rfl
      | preinited => exact Or.inl rfl
      | inited => exact absurd hst hnot
      | finied => exact absurd hst (hs₁.fresh i)
    refine ⟨s₁.mark i .inited (g.inits i), new ++ [i], Returns.succ ?_, ?_, ?_, ?_⟩
    · simp only [runInits, if_neg hdone]
      apply hret.bind
      simp only [if_pos hstate]
      exact returns_const _
    · rw [← append_assoc]
      exact hs₁.mark hnot hdeps
    · rw [← append_assoc]
      exact mem_append_right _ (mem_singleton.mpr rfl)
    intro j hj
    rcases mem_append.mp hj with hj | hj
    · obtain ⟨d, hd, hreach⟩ := hbelow j hj
      exact hreach.head hd
    · rw [mem_singleton.mp hj]

-- what is initialised stands above what it needs, so everything reached is initialised
theorem Ordered.of_reaches (h : Ordered g base s order) {i j : Fin n} (hi : i ∈ order)
    (hreach : ReflTransGen g.Needs i j) : j ∈ order := by
  induction hreach with
  | refl => exact hi
  | tail _ hstep ih =>
    obtain ⟨before, after, heq⟩ := append_of_mem ih
    rw [heq]
    exact mem_append_left _ (h.inOrder before _ after heq _ hstep)

end Inits

/-! ## Finalisers -/

/-- Between `s` and `s'` the initialised objects that `T` picks were finalised, each once. -/
def Finied (g : Objects n) (T : Fin n → Prop) (s s' : LdState n) : Prop :=
  ∃ order : List (Fin n), s'.called = s.called ++ order.flatMap g.finis ∧ order.Nodup ∧
    (∀ j, j ∈ order ↔ s.state j = .inited ∧ T j) ∧
    ∀ j, s'.state j = if j ∈ order then .finied else s.state j

section Finis

variable {g : Objects n} {s s₁ s' : LdState n} {T U : Fin n → Prop} {i : Fin n}

theorem Finied.refl (h : ∀ j, s.state j = .inited → ¬ T j) : Finied g T s s := by
  refine ⟨[], (append_nil _).symm, nodup_nil, ?_, ?_⟩
  · exact fun j => iff_of_false not_mem_nil fun hj => h j hj.1 hj.2
  · exact fun j => (if_neg not_mem_nil).symm

theorem Finied.congr (h : Finied g T s s') (hTU : ∀ j, T j ↔ U j) : Finied g U s s' := by
  obtain ⟨order, hcalled, hnodup, hmem, hstate⟩ := h
  exact ⟨order, hcalled, hnodup, fun j => by rw [hmem, hTU], hstate⟩

theorem Finied.trans (h : Finied g T s s₁) (h' : Finied g U s₁ s') :
    Finied g (fun j => T j ∨ U j) s s' := by
  obtain ⟨order, hcalled, hnodup, hmem, hstate⟩ := h
  obtain ⟨order', hcalled', hnodup', hmem', hstate'⟩ := h'
  -- the second part finds only what the first has left
  have hrest : ∀ j, j ∈ order' ↔ j ∉ order ∧ s.state j = .inited ∧ U j := by
    intro j
    rw [hmem', hstate]
    by_cases hj : j ∈ order
    · rw [if_pos hj]
      exact iff_of_false (fun h => nomatch h.1) fun h => h.1 hj
    · rw [if_neg hj]
      exact (and_iff_right hj).symm
  refine ⟨order ++ order', ?_, ?_, ?_, ?_⟩
  · rw [hcalled', hcalled, flatMap_append, append_assoc]
  · rw [nodup_append]
    refine ⟨hnodup, hnodup', ?_⟩
    rintro a ha b hb rfl
    exact ((hrest a).mp hb).1 ha
  · intro j
    have h1 := hmem j
    have h2 := hrest j
    rw [mem_append]
    tauto
  · intro j
    rw [hstate', hstate]
    by_cases hj : j ∈ order
    · rw [if_pos (mem_append_left _ hj)]
      split
      · rfl
      · rfl
    · rw [if_neg hj]
      by_cases hj' : j ∈ order'
      · rw [if_pos hj', if_pos (mem_append_right _ hj')]
      · rw [if_neg hj', if_neg fun hmem => (mem_append.mp hmem).elim hj hj']

theorem finiObject_finied (hnull : 0 ∉ g.finiarray i) :
    ∃ s', finiObject g i s = some s' ∧ Finied g (· = i) s s' := by
  unfold finiObject
  by_cases hst : s.state i = .inited
  · rw [if_pos hst, if_neg hnull]
    refine ⟨_, rfl, [i], ?_, nodup_singleton i, ?_, ?_⟩
    · rw [flatMap_singleton]
      rfl
    · intro j
      rw [mem_singleton]
      refine ⟨?_, fun h => h.2⟩
      rintro rfl
      exact ⟨hst, rfl⟩
    · intro j
      change update s.state i .finied j = _
      rw [update_apply]
      by_cases hji : j = i
      · rw [if_pos hji, if_pos (mem_singleton.mpr hji)]
      · rw [if_neg hji, if_neg fun hmem => hji (mem_singleton.mp hmem)]
  · rw [if_neg hst]
    refine ⟨s, rfl, Finied.refl ?_⟩
    rintro j hj rfl
    exact hst hj

/-- Below no cycle and no NULL the call returns, and everything below is finalised once. -/
theorem runFinis_returns (hi : g.Grounded i)
    (hnull : ∀ j, ReflTransGen g.Needs i j → 0 ∉ g.finiarray j) :
    ∀ s, ∃ s', Returns (fun k => runFinis g k i s) s' ∧
      Finied g (ReflTransGen g.Needs i) s s' := by
  induction hi with
  | intro i hacc ih =>
    intro s
    obtain ⟨s₁, hobj, hs₁⟩ := @finiObject_finied n g s i (hnull i .refl)
    obtain ⟨s₂, hret, hs₂⟩ := @returns_foldlM _ _ (g.deps i) (fun k d s => runFinis g k d s)
      (fun before s' => Finied g (fun j => j = i ∨ ∃ d ∈ before, ReflTransGen g.Needs d j) s s') s₁
      (hs₁.congr fun j => by simp)
      (by
        intro before d s₂ hd hs₂
        obtain ⟨s₃, hret₃, hs₃⟩ := ih d hd (fun j hj => hnull j (hj.head hd)) s₂
        refine ⟨s₃, hret₃, (hs₂.trans hs₃).congr fun j => ?_⟩
        simp only [mem_append, mem_singleton, or_and_right, exists_or, exists_eq_left, or_assoc])
    refine ⟨s₂, Returns.succ ?_, hs₂.congr fun j => ?_⟩
    · simp only [runFinis, hobj]
      exact hret
    · rw [ReflTransGen.cases_head_iff]
      exact or_congr eq_comm Iff.rfl

-- an object with a NULL in its array is never finalised, because the call does not return
theorem runFinis_of_null (depth : Nat) {j : Fin n} (hnull : 0 ∈ g.finiarray j)
    (h : runFinis g depth i s = some s') (hj : s.state j = .inited) :
    s'.state j = .inited ∧ ¬ ReflTransGen g.Needs i j := by
  induction depth generalizing i s s' with
  | zero => cases h
  | succ depth ih =>
    obtain ⟨s₁, hobj, h⟩ := Option.bind_eq_some_iff.1 h
    -- the object itself is another one
    have hne : j ≠ i := by
      rintro rfl
      unfold finiObject at hobj
      rw [if_pos hj, if_pos hnull] at hobj
      cases hobj
    have hs₁ : s₁.state j = .inited := by
      unfold finiObject at hobj
      split at hobj
      · split at hobj
        · cases hobj
        · cases hobj
          change update s.state i .finied j = _
          rwa [update_of_ne hne]
      · cases hobj
        exact hj
    have hround : ∀ d s s', d ∈ g.deps i → s.state j = .inited →
        runFinis g depth d s = some s' → s'.state j = .inited :=
      fun d s s' _ hs hd => (ih hd hs).1
    refine ⟨@foldlM_invariant _ _ _ _ (fun s => s.state j = .inited) _ _ hround hs₁ h, ?_⟩
    intro hreach
    rcases ReflTransGen.cases_head hreach with heq | ⟨d, hd, hreach'⟩
    · exact hne heq.symm
    have hnone := foldlM_eq_none hround hs₁ hd (fun s hs => by
      cases hrun : runFinis g depth d s with
      | none => rfl
      | some s'' => exact absurd hreach' (ih hrun hs).2)
    rw [hnone] at h
    cases h

end Finis

/-! ## Both -/

/-- The functions of everything below `root` are called once, those of a dependency first unless
the two need each other. -/
def InitsOnce (g : Objects n) (root : Fin n) (s s' : LdState n) : Prop :=
  ∃ order : List (Fin n), s'.called = s.called ++ order.flatMap g.inits ∧ order.Nodup ∧
    (∀ j, j ∈ order ↔ ReflTransGen g.Needs root j) ∧
    ∀ before i after, order = before ++ i :: after →
      ∀ d, TransGen g.Needs i d → ¬ TransGen g.Needs d i → d ∈ before

def FinisOnce (g : Objects n) (root : Fin n) (s s' : LdState n) : Prop :=
  ∃ order : List (Fin n), s'.called = s.called ++ order.flatMap g.finis ∧ order.Nodup ∧
    ∀ j, j ∈ order ↔ ReflTransGen g.Needs root j

/-- `run_inits` on the executable, then `run_finis` twice: they return, call the functions of every
object once and in order, and nothing the second time. -/
def RunsOnce (g : Objects n) (root : Fin n) (s : LdState n) : Prop :=
  ∃ depth s₁, runInits g depth root s = some s₁ ∧ InitsOnce g root s s₁ ∧
    ∃ depth s₂, runFinis g depth root s₁ = some s₂ ∧ FinisOnce g root s₁ s₂ ∧
      ∃ depth s₃, runFinis g depth root s₂ = some s₃ ∧ s₃.called = s₂.called

/-- This is so exactly if no cycle can be reached from the executable and no NULL stands in an
array of finalisers. -/
theorem runsOnce_iff {n : Nat} (g : Objects n) (root : Fin n) (s : LdState n)
    (hs : ∀ j, s.state j = .loaded ∨ s.state j = .preinited) : RunsOnce g root s ↔
      ∀ i, ReflTransGen g.Needs root i → ¬ TransGen g.Needs i i ∧ 0 ∉ g.finiarray i := by
  have hnone : ∀ j, s.state j ≠ .inited := by
    intro j hj
    rcases hs j with h | h
    · rw [h] at hj
      cases hj
    · rw [h] at hj
      cases hj
  have hstart : Ordered g s.called s [] := by
    refine ⟨(append_nil _).symm, nodup_nil, fun j => iff_of_false not_mem_nil (hnone j), ?_, ?_⟩
    · intro j hj
      rcases hs j with h | h
      · rw [h] at hj
        cases hj
      · rw [h] at hj
        cases hj
    · intro before i after heq
      cases before <;> cases heq
  constructor
  · rintro ⟨depth, s₁, hinits, -, depth₂, s₂, hfinis, -, -⟩
    have hgrounded : g.Grounded root := by
      by_contra hbad
      rw [(runInits_of_not_grounded depth root s fun j hj => absurd hj (hnone j)).1 hbad] at hinits
      cases hinits
    intro i hreach
    refine ⟨acc_iff_acyclic.mp hgrounded i hreach, ?_⟩
    intro hnull
    obtain ⟨s', new, hret, hs', hroot, -⟩ := runInits_returns hgrounded s [] hstart
    obtain rfl := hret.eq_of_some (fun depth s' => runInits_mono depth root s s') hinits
    have hi := (hs'.marked i).mp (hs'.of_reaches hroot hreach)
    exact (runFinis_of_null depth₂ hnull hfinis hi).2 hreach
  · intro hok
    have hgrounded : g.Grounded root := acc_iff_acyclic.mpr fun i hi => (hok i hi).1
    have hnull : ∀ j, ReflTransGen g.Needs root j → 0 ∉ g.finiarray j := fun j hj => (hok j hj).2
    obtain ⟨s₁, order, hret, hs₁, hroot, hbelow⟩ := runInits_returns hgrounded s [] hstart
    have hmem : ∀ j, j ∈ order ↔ ReflTransGen g.Needs root j :=
      fun j => ⟨hbelow j, hs₁.of_reaches hroot⟩
    obtain ⟨s₂, hret₂, hs₂⟩ := runFinis_returns hgrounded hnull s₁
    obtain ⟨s₃, hret₃, hs₃⟩ := runFinis_returns hgrounded hnull s₂
    obtain ⟨depth, hdepth⟩ := hret.exists
    obtain ⟨depth₂, hdepth₂⟩ := hret₂.exists
    obtain ⟨depth₃, hdepth₃⟩ := hret₃.exists
    obtain ⟨order₂, hcalled₂, hnodup₂, hmem₂, hstate₂⟩ := hs₂
    have hinited : ∀ j, ReflTransGen g.Needs root j → s₁.state j = .inited :=
      fun j hj => (hs₁.marked j).mp ((hmem j).mpr hj)
    refine ⟨depth, s₁, hdepth, ⟨order, hs₁.called, hs₁.nodup, hmem, ?_⟩, depth₂, s₂, hdepth₂,
      ⟨order₂, hcalled₂, hnodup₂, ?_⟩, depth₃, s₃, hdepth₃, ?_⟩
    · intro before i after heq d hd _
      exact hs₁.inOrder.of_transGen hd before after heq
    · intro j
      rw [hmem₂]
      exact ⟨fun h => h.2, fun h => ⟨hinited j h, h⟩⟩
    · -- nothing is left for the second time
      obtain ⟨order₃, hcalled₃, -, hmem₃, -⟩ := hs₃
      obtain rfl : order₃ = [] := by
        rw [eq_nil_iff_forall_not_mem]
        intro j hj
        obtain ⟨hst, hreach⟩ := (hmem₃ j).mp hj
        rw [hstate₂, if_pos ((hmem₂ j).mpr ⟨hinited j hreach, hreach⟩)] at hst
        cases hst
      rw [hcalled₃]
      exact append_nil _

-- the executable needs two objects that both need a third; each has an initialiser
def diamond : Objects 4 where
  deps := ![[1, 2], [3], [3], []]
  initarray := ![[16], [32, 0], [48], []]
  init := ![0, 0, 0, 64]
  finiarray := ![[], [80], [], []]
  fini := ![96, 0, 0, 112]

def justLoaded (n : Nat) (exe : Fin n) : LdState n :=
  ⟨fun i => if i = exe then .preinited else .loaded, []⟩

theorem justLoaded_state (n : Nat) (exe j : Fin n) :
    (justLoaded n exe).state j = .loaded ∨ (justLoaded n exe).state j = .preinited := by
  unfold justLoaded
  dsimp only
  split
  · exact Or.inr rfl
  · exact Or.inl rfl

theorem diamond_runsOnce : RunsOnce diamond 0 (justLoaded 4 0) := by
  rw [runsOnce_iff diamond 0 (justLoaded 4 0) (justLoaded_state 4 0)]
  -- every object needs only objects with a greater index
  have hup : ∀ i j, diamond.Needs i j → i < j := by decide
  have hnull : ∀ i, 0 ∉ diamond.finiarray i := by decide
  intro i _
  refine ⟨fun hcycle => ?_, hnull i⟩
  have hlt : ∀ i j, TransGen diamond.Needs i j → i < j := by
    intro i j h
    induction h with
    | single h => exact hup _ _ h
    | tail _ h ih => exact ih.trans (hup _ _ h)
  exact absurd (hlt i i hcycle) (lt_irrefl i)

-- two libraries that need each other
def mutualLibs : Objects 3 where
  deps := ![[1], [2], [1]]
  initarray := fun _ => []
  init := fun _ => 16
  finiarray := fun _ => []
  fini := fun _ => 32

/-- `run_inits` does not come back from libraries that need each other. -/
theorem mutualLibs_not_runsOnce : (∀ depth, runInits mutualLibs depth 0 (justLoaded 3 0) = none) ∧
      ¬ RunsOnce mutualLibs 0 (justLoaded 3 0) := by
  have hnone : ∀ depth, runInits mutualLibs depth 0 (justLoaded 3 0) = none := by
    intro depth
    apply (runInits_of_not_grounded depth 0 _ ?_).1
    · intro hacc
      have h1 : mutualLibs.Needs 0 1 := by decide
      have h2 : mutualLibs.Needs 1 2 := by decide
      have h3 : mutualLibs.Needs 2 1 := by decide
      exact acc_iff_acyclic.mp hacc 1 (.single h1) (.tail (.single h2) h3)
    · intro j hj
      rcases justLoaded_state 3 0 j with h | h
      · rw [h] at hj
        cases hj
      · rw [h] at hj
        cases hj
  refine ⟨hnone, ?_⟩
  rintro ⟨depth, s₁, hinits, -⟩
  rw [hnone] at hinits
  cases hinits

end Ldso
