import RandomOs.Lib.Paths
import RandomOs.Libc.Env

/-!
# The command line of the kernel (`kern/cmdline.c`)

Both functions go over the words of the line.  A string is the list of its bytes, and what is read
behind the last one is its terminator.
-/

namespace Kern

open Lib.Paths Libc List

def space : UInt8 := 32

def strncmp : List UInt8 → List UInt8 → Nat → Int
  | _, _, 0 => 0
  | s1, s2, n + 1 =>
    let a := s1.headD 0
    let b := s2.headD 0
    if a ≠ b then a.toInt8.toInt - b.toInt8.toInt
    else if a = 0 then 0
    else strncmp s1.tail s2.tail n

variable {β : Type}

/-- The loop of both functions: `test` gets what `st` points to and the length of the word there. -/
def scanWords (test : List UInt8 → Nat → Option β) (p : List UInt8) : Option β :=
  let st := p.dropWhile (· == space)
  if st = [] then none
  else (test st (st.takeWhile (· != space)).length).or (scanWords test (st.dropWhile (· != space)))
termination_by p.length
decreasing_by
  exact (length_dropWhile_lt (by assumption) (head?_dropWhile_sep space p)).trans_le
    (dropWhile_suffix _).length_le

def cmdlineHas (kcmdline name : List UInt8) : Bool :=
  (scanWords (fun st len =>
    if len = name.length ∧ strneq st name name.length then some () else none) kcmdline).isSome

def cmdlineGet (kcmdline name : List UInt8) (malloc : Bool) : Option (List UInt8) :=
  (scanWords (fun st len =>
    if name.length < len ∧ strncmp st name name.length = 0 ∧ st.getD name.length 0 = 61 then
      -- the copy from `valst` to the end of the word
      some (if malloc then
        some ((st.drop (name.length + 1)).take (len - (name.length + 1))) else none)
    else none) kcmdline).join

/-- The value in a word of the form `name=value`. -/
def valueOf (name w : List UInt8) : Option (List UInt8) :=
  if name ++ [61] <+: w then some (w.drop (name.length + 1)) else none

theorem scanWords_eq {test : List UInt8 → Nat → Option β} {g : List UInt8 → Option β}
    (h : ∀ w t, test (w ++ t) w.length = g w) (p : List UInt8) :
    scanWords test p = (comps space p).findSome? g := by
  fun_induction scanWords test p with
  | case1 p st hst =>
    rw [← comps_dropWhile_sep, show p.dropWhile (· == space) = [] from hst, comps_nil]
    rfl
  | case2 p st hst ih =>
    have hword := (comps_takeWhile hst (head?_dropWhile_sep space p)).2
    have htest := h (st.takeWhile (· != space)) (st.dropWhile (· != space))
    rw [takeWhile_append_dropWhile] at htest
    rw [← comps_dropWhile_sep, hword, findSome?_cons, htest, ih]
    cases g _ <;> rfl

variable {s t name : List UInt8}

theorem strneq_succ (s t : List UInt8) (n : Nat) :
    strneq s t (n + 1) = (s.headD 0 == t.headD 0 && strneq s.tail t.tail n) := by
  unfold strneq
  rw [range_succ_eq_map, all_cons, all_map]
  cases s <;> cases t <;> simp [Function.comp_def]

-- a name has no terminator inside, so `strncmp` does not stop there
theorem strncmp_eq_zero_iff {n : Nat} (ht : 0 ∉ t) (hn : n ≤ t.length) :
    strncmp s t n = 0 ↔ strneq s t n = true := by
  induction n generalizing s t with
  | zero => exact iff_of_true rfl rfl
  | succ n ih =>
    obtain ⟨b, t, rfl⟩ := exists_cons_of_length_pos (Nat.zero_lt_of_lt hn)
    rw [mem_cons, not_or] at ht
    rw [strncmp, strneq_succ, Bool.and_eq_true, beq_iff_eq, headD_cons, tail_cons]
    by_cases heq : s.headD 0 = b
    · rw [if_neg (not_not.2 heq), if_neg (heq ▸ Ne.symm ht.1),
        ih ht.2 (Nat.le_of_succ_le_succ hn), and_iff_right heq]
    · rw [if_pos heq, Int.sub_eq_zero, Int8.toInt_inj]
      exact iff_of_false (fun h => heq (congrArg Int8.toUInt8 h)) fun h => heq h.1

theorem hasTest_eq (name w t : List UInt8) :
    (w.length = name.length ∧ strneq (w ++ t) name name.length = true) ↔ w = name := by
  constructor
  · rintro ⟨hlen, hcmp⟩
    rw [strneq_iff (by simp [hlen])] at hcmp
    have hpre := prefix_of_prefix_length_le hcmp (prefix_append w t) hlen.ge
    exact (hpre.eq_of_length hlen.symm).symm
  · rintro rfl
    exact ⟨rfl, (strneq_iff (by simp)).mpr (prefix_append _ _)⟩

theorem getTest_eq (hname : 0 ∉ name) (w t : List UInt8) :
    (name.length < w.length ∧ strncmp (w ++ t) name name.length = 0 ∧
      (w ++ t).getD name.length 0 = 61) ↔ name ++ [61] <+: w := by
  have hlen : (name ++ [61]).length = name.length + 1 := length_append
  have hentry := @isEntry_iff (w ++ t) name
  unfold isEntry at hentry
  rw [Bool.and_eq_true, beq_iff_eq] at hentry
  rw [strncmp_eq_zero_iff hname (Nat.le_refl _), hentry]
  constructor
  · rintro ⟨hlt, hpre⟩
    exact prefix_of_prefix_length_le hpre (prefix_append w t) (by omega)
  · intro hpre
    have hle := hpre.length_le
    exact ⟨by omega, hpre.trans (prefix_append w t)⟩

/-- For every command line, `cmdline_has` tells whether the name is one of its words, and
`cmdline_get` gives the value in the first word of the form `name=value`. -/
theorem cmdline_exact (kcmdline : List UInt8) (malloc : Bool) (hname : 0 ∉ name) :
    (cmdlineHas kcmdline name = true ↔ name ∈ comps space kcmdline) ∧
      cmdlineGet kcmdline name malloc =
        if malloc then (comps space kcmdline).findSome? (valueOf name) else none := by
  constructor
  · unfold cmdlineHas
    rw [@scanWords_eq _ _ (fun w => if w = name then some () else none), findSome?_isSome_iff]
    · simp
    · intro w t
      simp only [hasTest_eq]
  · unfold cmdlineGet
    rw [@scanWords_eq _ _ fun w => (valueOf name w).map fun v => if malloc then some v else none,
      ← Function.comp_def, ← map_findSome?]
    · cases malloc <;> cases findSome? _ _ <;> rfl
    · intro w t
      unfold valueOf
      simp only [getTest_eq hname]
      split
      · rename_i hpre
        have hle : name.length + 1 ≤ w.length := by simpa using hpre.length_le
        rw [drop_append_of_le_length hle, take_left' (length_drop ..)]
        rfl
      · rfl

theorem cmdline_exact_root : cmdlineGet [32, 97, 32, 97, 61, 98] [97] true = some [98] := by
  rw [(cmdline_exact _ _ (by simp)).2]
  decide

end Kern
