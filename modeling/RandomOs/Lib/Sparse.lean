import Mathlib.Tactic.ByContra

/-!
# Sparse arrays that fill their lowest hole

An array of bytes in blocks of `bs`; a block that is not held reads as zero.  Bytes are put block
by block.  A put to a block that is not held takes the lowest hole instead, which is the wrong block
unless everything below is held.
-/

namespace Lib

structure Sparse where
  held : Nat → Prop
  byte : Nat → UInt8

namespace Sparse

variable {bs : Nat} {D : Nat → UInt8} {f f' g : Sparse} {x : Nat}

def Blank (bs : Nat) (f : Sparse) : Prop := ∀ x, ¬ f.held (x / bs) → f.byte x = 0

/-- The bytes `D pos`, ..., `D (pos + m - 1)` go to block `q`. -/
structure PutAt (bs : Nat) (D : Nat → UInt8) (f f' : Sparse) (pos m q : Nat) : Prop where
  held : ∀ i, f'.held i ↔ f.held i ∨ i = q
  byte : ∀ x, f'.byte x = if q * bs + pos % bs ≤ x ∧ x < q * bs + pos % bs + m
    then D (pos + (x - (q * bs + pos % bs))) else f.byte x

/-- The block of the position if it is held, else the lowest hole. -/
def Target (bs : Nat) (f : Sparse) (pos q : Nat) : Prop :=
  q = pos / bs ∧ f.held q ∨ ¬ f.held (pos / bs) ∧ ¬ f.held q ∧ ∀ i < q, f.held i

/-- All bytes from `pos` up to `e` are put, one block at a time. -/
inductive Run (bs : Nat) (D : Nat → UInt8) : Sparse → Nat → Nat → Sparse → Prop
  | done (f : Sparse) (e : Nat) : Run bs D f e e f
  | step {f f₁ f' : Sparse} {pos m e q : Nat} (hlt : pos < e)
      (hm : m = min (bs - pos % bs) (e - pos)) (hq : Target bs f pos q)
      (hput : PutAt bs D f f₁ pos m q) (hrun : Run bs D f₁ (pos + m) e f') : Run bs D f pos e f'

/-! ## One put -/

-- a block and an offset
theorem div_mul_add {q o : Nat} (ho : o < bs) : (q * bs + o) / bs = q := by
  rw [Nat.mul_comm, Nat.mul_add_div (by omega), Nat.div_eq_of_lt ho, Nat.add_zero]

-- a chunk stays in its block
theorem div_eq_of_chunk {bs pos m y : Nat} (h : pos % bs + m ≤ bs) (hy : pos ≤ y)
    (hy' : y < pos + m) : y / bs = pos / bs := by
  have hpos := Nat.div_add_mod' pos bs
  rw [show y = pos / bs * bs + (pos % bs + (y - pos)) by omega]
  exact div_mul_add (by omega)

section Put

variable {pos m q : Nat}

-- the target is not behind the position
theorem Target.le (hq : Target bs f pos q) : q ≤ pos / bs := by
  rcases hq with ⟨heq, -⟩ | ⟨hhole, -, hlow⟩
  · exact Nat.le_of_eq heq
  · by_contra hgt
    exact hhole (hlow _ (by omega))

theorem Target.eq_of_below (hq : Target bs f pos q) (hbelow : ∀ i < pos / bs, f.held i) :
    q = pos / bs := by
  rcases Nat.lt_or_eq_of_le hq.le with hlt | heq
  · rcases hq with ⟨heq, -⟩ | ⟨-, hhole, -⟩
    · exact heq
    · exact absurd (hbelow q hlt) hhole
  · exact heq

section

variable (h : PutAt bs D f f' pos m q)

include h

-- the bytes that a put changes are in its block
theorem PutAt.byte_of_ne (hm : pos % bs + m ≤ bs) (hx : x / bs ≠ q) : f'.byte x = f.byte x := by
  rw [h.byte, if_neg]
  rintro ⟨hlow, hhigh⟩
  apply hx
  rw [show x = q * bs + (x - q * bs) by omega]
  exact div_mul_add (by omega)

theorem PutAt.blank (hm : pos % bs + m ≤ bs) (hf : f.Blank bs) :
    f'.Blank bs := by
  intro x hx
  rw [h.held, not_or] at hx
  rw [h.byte_of_ne hm hx.2]
  exact hf x hx.1

-- a held byte before the position stays
theorem PutAt.byte_of_held (hq : Target bs f pos q) (hm : pos % bs + m ≤ bs) (hx : x < pos)
    (hheld : f.held (x / bs)) : f'.byte x = f.byte x := by
  rcases hq with ⟨rfl, -⟩ | ⟨-, hhole, -⟩
  · rw [h.byte, if_neg]
    have := Nat.div_add_mod' pos bs
    omega
  · apply h.byte_of_ne hm
    rintro rfl
    exact hhole hheld

/-- The put is right if its block is the one of the position, or if it puts zeros into holes. -/
theorem PutAt.byte_eq (hq : Target bs f pos q) (hf : f.Blank bs)
    (hm : pos % bs + m ≤ bs) (hcond : (∀ i < pos / bs, f.held i) ∨
      ∀ x, pos ≤ x → x < pos + m → ¬ f.held (x / bs) → D x = 0) (x : Nat) :
    f'.byte x = if pos ≤ x ∧ x < pos + m then D x else f.byte x := by
  have hpos := Nat.div_add_mod' pos bs
  by_cases hsame : q = pos / bs
  · rw [h.byte, hsame, hpos]
    split
    · rename_i hx
      rw [Nat.add_sub_cancel' hx.1]
    · rfl
  · rcases hcond with hbelow | hzero
    · exact absurd (hq.eq_of_below hbelow) hsame
    -- zeros are put where zeros are read
    rcases hq with ⟨heq, -⟩ | ⟨hhole, hq, -⟩
    · exact absurd heq hsame
    have hdiv := fun y => @div_eq_of_chunk bs pos m y (by omega)
    have hold : f'.byte x = f.byte x := by
      by_cases hx : x / bs = q
      · rw [h.byte]
        split
        · have hq' : ¬ f.held (x / bs) := by rwa [hx]
          rw [hf x hq']
          apply hzero _ (by omega) (by omega)
          rwa [hdiv _ (by omega) (by omega)]
        · rfl
      · exact h.byte_of_ne hm hx
    rw [hold]
    split
    · rename_i hx
      have hx' : ¬ f.held (x / bs) := by rwa [hdiv x hx.1 hx.2]
      rw [hzero x hx.1 hx.2 hx', hf x hx']
    · rfl

end

end Put

/-! ## Runs -/

section Run

variable {pos m e q : Nat}

theorem chunk_le (hm : m = min (bs - pos % bs) (e - pos)) (hbs : 0 < bs) : pos % bs + m ≤ bs := by
  have := Nat.mod_lt pos hbs
  omega

-- a chunk ends at the end or at the head of the next block
theorem chunk_end (hm : m = min (bs - pos % bs) (e - pos)) (hbs : 0 < bs) (hlt : pos < e) :
    pos + m = e ∨ (pos + m) / bs = pos / bs + 1 := by
  have hpos := Nat.div_add_mod' pos bs
  have hmod := Nat.mod_lt pos hbs
  by_cases hlast : e - pos ≤ bs - pos % bs
  · left
    omega
  · right
    rw [show pos + m = (pos / bs + 1) * bs by rw [Nat.succ_mul]; omega]
    exact Nat.mul_div_cancel _ hbs

theorem div_le_chunk (bs pos m : Nat) : pos / bs ≤ (pos + m) / bs :=
  Nat.div_le_div_right (Nat.le_add_right pos m)

theorem Run.byte_of_held (hbs : 0 < bs) (h : Run bs D f pos e f') (hx : x < pos)
    (hheld : f.held (x / bs)) : f'.byte x = f.byte x := by
  induction h with
  | done => rfl
  | step hlt hm hq hput _ ih =>
    rw [ih (by omega) ((hput.held _).mpr (Or.inl hheld))]
    exact hput.byte_of_held hq (chunk_le hm hbs) hx hheld

/-- A run over held blocks, or one that brings only zeros to holes, puts every byte in its place. -/
theorem Run.byte_eq (hbs : 0 < bs) (h : Run bs D f pos e f') (hf : f.Blank bs)
    (hcond : (∀ i < pos / bs, f.held i) ∨
      ∀ x, pos ≤ x → x < e → ¬ f.held (x / bs) → D x = 0) (x : Nat) :
    f'.byte x = if pos ≤ x ∧ x < e then D x else f.byte x := by
  induction h with
  | done =>
    rw [if_neg]
    omega
  | @step f f₁ f' pos m e q hlt hm hq hput _ ih =>
    have hle := chunk_le hm hbs
    have hone := hput.byte_eq hq hf hle (hcond.imp id fun hzero y hy hy' => hzero y hy (by omega)) x
    have hcond' : (∀ i < (pos + m) / bs, f₁.held i) ∨
        ∀ x, pos + m ≤ x → x < e → ¬ f₁.held (x / bs) → D x = 0 := by
      rcases hcond with hbelow | hzero
      · rcases chunk_end hm hbs hlt with hend | hnext
        · right
          intro y hy hy'
          omega
        · left
          intro i hi
          rw [hput.held]
          by_cases hi' : i < pos / bs
          · exact Or.inl (hbelow i hi')
          · right
            have hq' := hq.eq_of_below hbelow
            omega
      · right
        intro y hy hy' hnot
        apply hzero y (by omega) hy'
        intro hheld
        exact hnot ((hput.held _).mpr (Or.inl hheld))
    rw [ih (hput.blank hle hf) hcond', hone]
    by_cases h1 : pos + m ≤ x ∧ x < e
    · rw [if_pos h1, if_pos (by omega)]
    · rw [if_neg h1]
      by_cases h2 : pos ≤ x ∧ x < pos + m
      · rw [if_pos h2, if_pos (by omega)]
      · rw [if_neg h2, if_neg (by omega)]

/-- Behind a hole, the bytes for blocks that were not held end up in earlier blocks. -/
theorem Run.zero_of_correct {f₀ : Sparse} {a : Nat} (hbs : 0 < bs) (h : Run bs D g pos e f')
    (hf₀ : f₀.Blank bs) (hle : a ≤ pos) (hmono : ∀ i, f₀.held i → g.held i)
    (hahead : ∀ i, pos / bs ≤ i → g.held i → f₀.held i)
    (hhole : pos < e → ∃ i < pos / bs, ¬ g.held i)
    (hdone : ∀ x, a ≤ x → x < pos → ¬ f₀.held (x / bs) → D x = 0)
    (hin : ∀ x, a ≤ x → x < e → f'.byte x = D x) (hbefore : ∀ x < a, f'.byte x = f₀.byte x) :
    ∀ x, a ≤ x → x < e → ¬ f₀.held (x / bs) → D x = 0 := by
  induction h with
  | done => exact hdone
  | @step g g₁ f' pos m e q hlt hm hq hput hrun ih =>
    have hpos := Nat.div_add_mod' pos bs
    obtain ⟨i₀, hi₀, hhole₀⟩ := hhole hlt
    have hmono₁ : ∀ i, f₀.held i → g₁.held i := fun i hi => (hput.held i).mpr (Or.inl (hmono i hi))
    have hmod := Nat.mod_lt pos hbs
    have hdiv := fun y => @div_eq_of_chunk bs pos m y (by omega)
    rcases hq with ⟨rfl, hheld⟩ | ⟨hnot, hqhole, hlow⟩
    · -- the block is there, and was from the beginning
      refine ih (by omega) hmono₁ ?_ ?_ ?_ hin hbefore
      · intro i hi hi'
        have hge := div_le_chunk bs pos m
        rcases (hput.held i).mp hi' with hg | rfl
        · exact hahead i (by omega) hg
        · exact hahead _ (Nat.le_refl _) hheld
      · intro _
        have hge := div_le_chunk bs pos m
        refine ⟨i₀, by omega, ?_⟩
        rw [hput.held, not_or]
        exact ⟨hhole₀, by omega⟩
      · intro x hx hx' hnot
        by_cases hxp : x < pos
        · exact hdone x hx hxp hnot
        · rw [hdiv x (by omega) hx'] at hnot
          exact absurd (hahead _ (Nat.le_refl _) hheld) hnot
    · -- the bytes go to a block before the position
      have hqlt : q < pos / bs := by
        by_contra hge
        exact hhole₀ (hlow i₀ (by omega))
      have hqmul : q * bs + bs ≤ pos / bs * bs := by
        rw [← Nat.succ_mul]
        exact Nat.mul_le_mul_right bs hqlt
      have hzero : ∀ x, pos ≤ x → x < pos + m → D x = 0 := by
        intro x hx hx'
        have hydiv : (q * bs + (pos % bs + (x - pos))) / bs = q := div_mul_add (by omega)
        have hheld₁ : g₁.held ((q * bs + (pos % bs + (x - pos))) / bs) := by
          rw [hydiv]
          exact (hput.held q).mpr (Or.inr rfl)
        have hq₀ : ¬ f₀.held ((q * bs + (pos % bs + (x - pos))) / bs) := by
          rw [hydiv]
          exact fun hf => hqhole (hmono q hf)
        have hy := hrun.byte_of_held hbs (by omega) hheld₁
        rw [hput.byte, if_pos (by omega),
          show pos + (q * bs + (pos % bs + (x - pos)) - (q * bs + pos % bs)) = x by omega] at hy
        by_cases hya : q * bs + (pos % bs + (x - pos)) < a
        · rw [hbefore _ hya, hf₀ _ hq₀] at hy
          exact hy.symm
        · rw [hin _ (by omega) (by omega), hdone _ (by omega) (by omega) hq₀] at hy
          exact hy.symm
      refine ih (by omega) hmono₁ ?_ ?_ ?_ hin hbefore
      · intro i hi hi'
        have hge := div_le_chunk bs pos m
        rcases (hput.held i).mp hi' with hg | rfl
        · exact hahead i (by omega) hg
        · omega
      · intro hlt'
        rcases chunk_end hm hbs hlt with hend | hnext
        · omega
        · refine ⟨pos / bs, by omega, ?_⟩
          rw [hput.held, not_or]
          exact ⟨hnot, by omega⟩
      · intro x hx hx' hnot'
        by_cases hxp : x < pos
        · exact hdone x hx hxp hnot'
        · exact hzero x (by omega) hx'

theorem Run.correct_iff (hbs : 0 < bs) (h : Run bs D f pos e f') (hf : f.Blank bs) :
    ((∀ x, pos ≤ x → x < e → f'.byte x = D x) ∧ ∀ x < pos, f'.byte x = f.byte x) ↔
      (∀ i < pos / bs, f.held i) ∨ ∀ x, pos ≤ x → x < e → ¬ f.held (x / bs) → D x = 0 := by
  constructor
  · rintro ⟨hin, hbefore⟩
    by_cases hall : ∀ i < pos / bs, f.held i
    · exact Or.inl hall
    right
    obtain ⟨i, hi⟩ := Classical.not_forall.mp hall
    obtain ⟨hi, hhole⟩ := Classical.not_imp.mp hi
    exact h.zero_of_correct hbs hf (Nat.le_refl pos) (fun _ h => h) (fun _ _ h => h)
      (fun _ => ⟨i, hi, hhole⟩) (fun x hx hx' => by omega) hin hbefore
  · intro hcond
    refine ⟨fun x hx hx' => ?_, fun x hx => ?_⟩
    · rw [h.byte_eq hbs hf hcond, if_pos ⟨hx, hx'⟩]
    · rw [h.byte_eq hbs hf hcond, if_neg (by omega)]

end Run

end Sparse

end Lib
