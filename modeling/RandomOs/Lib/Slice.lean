import RandomOs.Lib.Bytes

/-!
# Parts of a memory

`slice m a n` is the list of the `n` bytes at `a`.  `store m a bs` writes a list of bytes.
-/

namespace Lib

open List

namespace Bytes

def slice (m : Bytes) (a n : Nat) : List UInt8 := (List.range n).map fun i => m (a + i)

def store (m : Bytes) (a : Nat) (bs : List UInt8) : Bytes := fun i =>
  if a ≤ i then bs.getD (i - a) (m i) else m i

variable {m m' src : Bytes} {a d s k n : Nat} {bs : List UInt8}

@[simp] theorem length_slice : (slice m a n).length = n := by
  rw [slice, length_map, length_range]

@[simp] theorem slice_zero : slice m a 0 = [] := rfl

theorem getElem_slice {i : Nat} (h : i < (slice m a n).length) : (slice m a n)[i] = m (a + i) := by
  simp only [slice, getElem_map, getElem_range]

theorem slice_congr (h : ∀ i < n, m (a + i) = m' (d + i)) : slice m a n = slice m' d n := by
  apply map_congr_left
  intro i hi
  exact h i (mem_range.mp hi)

theorem slice_add : slice m a (k + n) = slice m a k ++ slice m (a + k) n := by
  unfold slice
  rw [range_add, map_append, map_map]
  congr 1
  apply map_congr_left
  intro i _
  exact congrArg m (Nat.add_assoc a k i).symm

theorem take_slice (h : k ≤ n) : (slice m a n).take k = slice m a k := by
  obtain ⟨j, rfl⟩ := Nat.exists_eq_add_of_le h
  rw [slice_add, take_left' length_slice]

theorem slice_copy_below (h : a + k ≤ d) : slice (copy m d src s n) a k = slice m a k :=
  slice_congr fun _ _ => copy_of_ne (by omega)

theorem slice_copy : slice (copy m d src s n) d n = slice src s n :=
  slice_congr fun _ hi => copy_apply hi

-- bytes copied behind others
theorem slice_copy_append : slice (copy m k src s n) 0 (k + n) = slice m 0 k ++ slice src s n := by
  rw [slice_add, slice_copy_below (by omega), Nat.zero_add, slice_copy]

theorem store_apply {i : Nat} (h : i < bs.length) : store m a bs (a + i) = bs[i] := by
  unfold store
  rw [if_pos (Nat.le_add_right a i), Nat.add_sub_cancel_left, getD_eq_getElem?_getD,
    List.getElem?_eq_getElem h, Option.getD_some]

theorem slice_store : slice (store m a bs) a bs.length = bs := by
  apply ext_getElem
  · exact length_slice
  · intro i h1 h2
    rw [getElem_slice, store_apply h2]

end Bytes

end Lib
