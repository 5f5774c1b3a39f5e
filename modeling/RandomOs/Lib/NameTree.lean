import Mathlib.Data.List.Infix
import Mathlib.Tactic.Common

/-!
# Trees of names

Nodes with named children.  The inner nodes form a tree under a root; a leaf may have several names.
-/

namespace Lib.NameTree

variable {ι ν : Type}

def follow (child : ι → ν → Option ι) : ι → List ν → Option ι
  | d, [] => some d
  | d, n :: ns => (child d n).bind fun c => follow child c ns

structure Rooted (child : ι → ν → Option ι) (dir : ι → Prop) (root : ι) : Prop where
  inner : ∀ {d n c}, child d n = some c → dir d
  root_dir : dir root
  root_top : ∀ d n, child d n ≠ some root
  single : ∀ {d e c m n}, child d m = some c → child e n = some c → dir c → d = e ∧ m = n
  connected : ∀ {c}, dir c → c ≠ root → ∃ d n, child d n = some c
  height : ∃ h : ι → Nat, ∀ {d n c}, child d n = some c → dir c → h c = h d + 1

section Follow

variable {child child' : ι → ν → Option ι} {d e c : ι} {p q : List ν} {n : ν}

@[simp] theorem follow_nil : follow child d [] = some d := rfl

theorem follow_cons : follow child d (n :: p) = (child d n).bind fun c => follow child c p := rfl

theorem follow_append :
    follow child d (p ++ q) = (follow child d p).bind fun e => follow child e q := by
  induction p generalizing d with
  | nil => rfl
  | cons n p ih =>
    rw [List.cons_append, follow_cons, follow_cons, Option.bind_assoc]
    congr 1
    funext c
    exact ih

theorem follow_concat : follow child d (p ++ [n]) = (follow child d p).bind fun e => child e n := by
  rw [follow_append]
  congr 1
  funext e
  rw [follow_cons]
  cases child e n <;> rfl

theorem follow_concat_of (h : follow child d p = some e) :
    follow child d (p ++ [n]) = child e n := by
  rw [follow_concat, h, Option.bind_some]

end Follow

namespace Rooted

variable {child : ι → ν → Option ι} {dir : ι → Prop} {root : ι} {c d e : ι} {p q : List ν} {n : ν}

section

variable (hr : Rooted child dir root)

include hr

theorem exists_path (hc : dir c) : ∃ p, follow child root p = some c := by
  obtain ⟨h, hh⟩ := hr.height
  induction hk : h c generalizing c with
  | zero =>
    by_cases hroot : c = root
    · exact ⟨[], by rw [follow_nil, hroot]⟩
    · obtain ⟨d, n, hn⟩ := hr.connected hc hroot
      have := hh hn hc
      omega
  | succ k ih =>
    by_cases hroot : c = root
    · exact ⟨[], by rw [follow_nil, hroot]⟩
    · obtain ⟨d, n, hn⟩ := hr.connected hc hroot
      have hd := hh hn hc
      obtain ⟨p, hp⟩ := ih (hr.inner hn) (by omega)
      exact ⟨p ++ [n], by rw [follow_concat_of hp, hn]⟩

end

end Rooted

end Lib.NameTree
