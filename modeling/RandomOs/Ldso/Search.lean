import RandomOs.Ldso.Reloc

/-!
# The hash tables and the symbols they are built over (`resolve.c`)

Both tables of an object answer like a search through its symbols, when they are built with the hash
functions of the specifications.  The one of the System V table is defined on 32 bits, while
`elf_hash` keeps 64.
-/

namespace Ldso

open Lib List

def sysvHashStep (h c : Nat) : Nat :=
  let h := (h * 16 + c) % 2 ^ 32
  let g := h &&& 0xf0000000
  let h := if g ≠ 0 then h ^^^ (g >>> 24) else h
  h &&& (2 ^ 32 - 1 - g)

def sysvHash (name : List UInt8) : Nat := name.foldl (fun h c => sysvHashStep h c.toNat) 0

/-- The first symbol that defines the name, by a search through all of them. -/
def SymObj.search (o : SymObj) (name : List UInt8) : Option (Nat × Nat) :=
  ((range o.nsyms).find? (o.hit name)).map fun i => (o.addr (o.dynsym i), (o.dynsym i).size)

/-- The loop of `locate_gnuhashsym` comes to an end from `symix` on. -/
inductive GnuEnds (o : SymObj) (t : GnuTab) (name : List UInt8) : Nat → Prop
  | found {symix} : o.hit name symix = true → GnuEnds o t name symix
  | last {symix} : t.chains (symix - t.symoffset) % 2 = 1 → GnuEnds o t name symix
  | next {symix} : GnuEnds o t name (symix + 1) → GnuEnds o t name symix

-- what `elf_hash` has above bit 31 never comes down again
theorem elfHashStep_mod (h c : Nat) : elfHashStep h c % 2 ^ 32 = sysvHashStep (h % 2 ^ 32) c := by
  have hlow : (h * 16 + c) % 2 ^ 64 % 2 ^ 32 = (h % 2 ^ 32 * 16 + c) % 2 ^ 32 := by omega
  have hle : (h * 16 + c) % 2 ^ 64 &&& 0xf0000000 ≤ 0xf0000000 := Nat.and_le_right
  have hg : (h * 16 + c) % 2 ^ 64 &&& 0xf0000000 =
      (h % 2 ^ 32 * 16 + c) % 2 ^ 32 &&& 0xf0000000 := by
    have hmod := @Nat.and_mod_two_pow ((h * 16 + c) % 2 ^ 64) 0xf0000000 32
    rwa [Nat.mod_eq_of_lt (by omega), hlow] at hmod
  unfold elfHashStep sysvHashStep
  dsimp only
  rw [← hg]
  generalize (h * 16 + c) % 2 ^ 64 &&& 0xf0000000 = g at hle
  have hmask : (2 ^ 64 - 1 - g) % 2 ^ 32 = 2 ^ 32 - 1 - g := by omega
  have hshift : (g >>> 24) % 2 ^ 32 = g >>> 24 := by
    omega
  rw [Nat.and_mod_two_pow, hmask, ← hlow]
  split
  · rw [Nat.xor_mod_two_pow, hshift]
  · rfl

theorem elfHashSpec_mod (name : List UInt8) : elfHashSpec name % 2 ^ 32 = sysvHash name := by
  have hfold : ∀ (l : List UInt8) (a : Nat), l.foldl (fun h c => elfHashStep h c.toNat) a % 2 ^ 32 =
      l.foldl (fun h c => sysvHashStep h c.toNat) (a % 2 ^ 32) := by
    intro l
    induction l with
    | nil => exact fun a => rfl
    | cons c l ih =>
      intro a
      rw [foldl_cons, foldl_cons, ih, elfHashStep_mod]
  exact hfold name 0

section Search

variable {o : SymObj} {name : List UInt8}

theorem search_none (hno : ∀ i, ¬ o.Defines name i) : o.search name = none := by
  rw [SymObj.search, find_eq_none (fun j hj => mem_range.mp hj) hno]
  rfl

theorem search_some {i : Nat} (hunique : ∀ i j, o.Defines name i → o.Defines name j → i = j)
    (hi : o.Defines name i) : o.search name = some (o.addr (o.dynsym i), (o.dynsym i).size) := by
  rw [SymObj.search, find_eq_some (fun j hj => mem_range.mp hj) hunique hi (mem_range.mpr hi.1)]
  rfl

theorem gnuEnds_of_odd {t : GnuTab} {start e : Nat} (he : start ≤ e)
    (hodd : t.chains (e - t.symoffset) % 2 = 1) : GnuEnds o t name start := by
  obtain ⟨d, rfl⟩ := Nat.exists_eq_add_of_le he
  induction d generalizing start with
  | zero => exact .last hodd
  | succ d ih =>
    rw [show start + (d + 1) = start + 1 + d by omega] at hodd
    exact .next (ih (by omega) hodd)

/-- Both tables give the answer of a search through the symbols, and both lookups end. -/
theorem locate_eq_search (hunique : ∀ i j, o.Defines name i → o.Defines name j → i = j)
    (hname : ∀ c ∈ name, c < 128) : (∀ n, elfHashSpec n % 2 ^ 32 = sysvHash n) ∧
    (∀ t : HashTab, 0 < t.nbuckets → t.Lists o → locateHashsym o t name = o.search name ∧
      (firstLinked (fun i => toIndex (t.chains i)) (o.hit name) o.nsyms
        (toIndex (t.buckets (elfHash name % 2 ^ 32 % t.nbuckets)))).isSome) ∧
    ∀ t : GnuTab, 0 < t.nbuckets → 0 < t.bloomSize → t.Lists o →
      locateGnuhashsym o t name = o.search name ∧
      (t.symoffset ≤ t.buckets (gnuHash name % t.nbuckets) →
        GnuEnds o t name (t.buckets (gnuHash name % t.nbuckets))) := by
  refine ⟨elfHashSpec_mod, fun t _ ht => ⟨?_, ?_⟩, fun t _ _ ht => ⟨?_, fun hstart => ?_⟩⟩
  · by_cases hdef : ∃ i, o.Defines name i
    · obtain ⟨i, hi⟩ := hdef
      rw [search_some hunique hi, locateHashsym_some hunique ht hi hname]
    · rw [search_none (not_exists.mp hdef), locateHashsym_none ht (not_exists.mp hdef)]
  · obtain ⟨l, hlinked, hlen, -⟩ := ht.chain (elfHash name % 2 ^ 32 % t.nbuckets)
    rw [firstLinked_eq_find hlinked _ hlen]
    rfl
  · by_cases hdef : ∃ i, o.Defines name i
    · obtain ⟨i, hi⟩ := hdef
      rw [search_some hunique hi, locateGnuhashsym_some hunique ht hi]
    · rw [search_none (not_exists.mp hdef), locateGnuhashsym_none ht (not_exists.mp hdef)]
  · obtain ⟨e, he, -, hodd⟩ := ht.ends _ hstart
    exact gnuEnds_of_odd he hodd

end Search

/-- The null symbol, `x` and `y`. -/
def twoSyms : SymObj :=
  { oneSym 0x1000 libSym with
    nsyms := 3
    dynsym := fun i => if i = 2 then ⟨[121], 7, 0x20, 8⟩ else (oneSym 0x1000 libSym).dynsym i }

/-- One bucket with both symbols. -/
def twoHash : HashTab := ⟨1, fun _ => 1, fun i => if i = 1 then 2 else 0⟩

/-- One run with both symbols. -/
def twoGnu : GnuTab :=
  ⟨1, 1, 1, 0, fun _ => 2 ^ 64 - 1, fun _ => 1,
    fun k => if k = 0 then gnuHash oneName / 2 * 2 else gnuHash [121] ||| 1⟩

theorem twoHash_lists : twoHash.Lists twoSyms := by
  refine ⟨fun b => ⟨[1, 2], ⟨rfl, rfl, rfl⟩, by decide, by decide, fun i hi hdef _ => ?_⟩⟩
  change i < 3 at hi
  interval_cases i
  · exact absurd rfl hdef
  · decide
  · decide

theorem twoGnu_lists : twoGnu.Lists twoSyms := by
  refine ⟨fun i hi hdef => ?_, fun i hi hdef => ?_,
    fun b _ => ⟨2, Nat.le_succ 1, by decide, by decide⟩⟩
  · change i < 3 at hi
    interval_cases i
    · exact absurd rfl hdef
    · decide
    · decide
  · change i < 3 at hi
    interval_cases i
    · exact absurd rfl hdef
    · decide
    · refine ⟨by decide, by decide, fun k hk hk' => ?_, by decide⟩
      change 1 ≤ k at hk
      interval_cases k
      decide

-- both tables lead past `x` to `y`
theorem locate_eq_search_two : locateHashsym twoSyms twoHash [121] = some (0x1020, 8) ∧
    locateGnuhashsym twoSyms twoGnu [121] = some (0x1020, 8) := by
  have honly : ∀ i, twoSyms.Defines [121] i → i = 2 := by
    rintro i ⟨hi, -, hname⟩
    change i < 3 at hi
    interval_cases i
    · cases hname
    · exact absurd hname (by decide)
    · rfl
  obtain ⟨-, hsysv, hgnu⟩ := @locate_eq_search twoSyms [121]
    (fun i j hi hj => (honly i hi).trans (honly j hj).symm) (by simp)
  have hsearch : twoSyms.search [121] = some (0x1020, 8) := rfl
  rw [← hsearch]
  exact ⟨(hsysv _ Nat.one_pos twoHash_lists).1, (hgnu _ Nat.one_pos Nat.one_pos twoGnu_lists).1⟩

end Ldso
