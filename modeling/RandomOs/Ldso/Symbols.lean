import Mathlib.Data.Nat.Bitwise
import RandomOs.Lib.Chain

/-!
# Symbol lookup (`resolve.c`)

An object has a table of symbols and one or two hash tables over it.  A chain of the System V table
ends at index 0; a chain of the GNU table is a run of indices that ends at an odd hash.  The tables
were built by the linker, with the hash functions of the specifications; `elf_hash` adds the
characters of a name as signed ones.
-/

namespace Ldso

open Lib

/-! ## Model -/

structure Sym where
  name : List UInt8
  shndx : Nat
  value : Nat
  size : Nat

def SHN_UNDEF : Nat := 0
def SHN_ABS : Nat := 0xfff1

structure HashTab where
  nbuckets : Nat
  buckets : Nat → Nat
  chains : Nat → Nat

structure GnuTab where
  nbuckets : Nat
  symoffset : Nat
  bloomSize : Nat
  bloomShift : Nat
  bloom : Nat → Nat
  buckets : Nat → Nat
  chains : Nat → Nat

structure Rela where
  offset : Nat
  info : Nat
  addend : Nat

-- what relocation and lookup read of an `object_t`; `nsyms` bounds the symbol table
structure SymObj where
  base : Nat
  pltrelType : Nat
  pltrel : Nat → Rela
  nsyms : Nat
  dynsym : Nat → Sym
  htab : Option HashTab
  gnuHtab : Option GnuTab

def elfHashStep (h c : Nat) : Nat :=
  let h := (h * 16 + c) % 2 ^ 64
  let g := h &&& 0xf0000000
  let h := if g ≠ 0 then h ^^^ (g >>> 24) else h
  h &&& (2 ^ 64 - 1 - g)

-- a `char`, extended to 64 bits
def charValue (c : UInt8) : Nat := if c < 128 then c.toNat else 2 ^ 64 - 256 + c.toNat

def elfHash (name : List UInt8) : Nat := name.foldl (fun h c => elfHashStep h (charValue c)) 0

def gnuHash (name : List UInt8) : Nat := name.foldl (fun h c => (h * 33 + c.toNat) % 2 ^ 32) 5381

-- `sym->st_shndx != SHN_UNDEF && streq(obj->dynstr + sym->st_name, name)`
def SymObj.hit (o : SymObj) (name : List UInt8) (i : Nat) : Bool :=
  (o.dynsym i).shndx ≠ SHN_UNDEF && (o.dynsym i).name == name

def SymObj.addr (o : SymObj) (s : Sym) : Nat := (o.base + s.value) % 2 ^ 64

-- an index with 0 as `STN_UNDEF`
def toIndex (i : Nat) : Option Nat := if i = 0 then none else some i

-- the address and the size of the symbol, or `none` for `STN_UNDEF`; a chain longer than the symbol
-- table goes round, where the loop of the source does not end
def locateHashsym (o : SymObj) (t : HashTab) (name : List UInt8) : Option (Nat × Nat) :=
  let h := elfHash name % 2 ^ 32
  let i := (firstLinked (fun i => toIndex (t.chains i)) (o.hit name) o.nsyms
    (toIndex (t.buckets (h % t.nbuckets)))).join
  i.map fun i => (o.addr (o.dynsym i), (o.dynsym i).size)

def gnuLoop (o : SymObj) (t : GnuTab) (name : List UInt8) (h : Nat) : Nat → Nat → Option Nat
  | 0, _ => none
  | rounds + 1, symix =>
    let chain := t.chains (symix - t.symoffset)
    if (h ^^^ chain) >>> 1 = 0 ∧ o.hit name symix then some symix
    else if chain % 2 = 1 then none
    else gnuLoop o t name h rounds (symix + 1)

def locateGnuhashsym (o : SymObj) (t : GnuTab) (name : List UInt8) : Option (Nat × Nat) :=
  let h := gnuHash name
  let word := t.bloom (h / 64 % t.bloomSize)
  let mask := 2 ^ (h % 64) ||| 2 ^ ((h >>> t.bloomShift) % 64)
  if word &&& mask ≠ mask then none
  else
    let symix := t.buckets (h % t.nbuckets)
    if symix < t.symoffset then none
    else (gnuLoop o t name h o.nsyms symix).map fun i => (o.addr (o.dynsym i), (o.dynsym i).size)

-- `STN_UNDEF` is 0, also as an address
def nonzero (a : Option (Nat × Nat)) : Option (Nat × Nat) := a.filter fun a => a.1 ≠ 0

def locateIn (o : SymObj) (name : List UInt8) : Option (Nat × Nat) :=
  (nonzero (o.gnuHtab.bind fun t => locateGnuhashsym o t name)).or
    (nonzero (o.htab.bind fun t => locateHashsym o t name))

-- over `ldso_obj` and the loaded objects
def locateExtern (objs : List SymObj) (name : List UInt8) : Option (Nat × Nat) :=
  objs.findSome? fun o => locateIn o name

/-! ## Tables as the linker builds them -/

def elfHashSpec (name : List UInt8) : Nat := name.foldl (fun h c => elfHashStep h c.toNat) 0

/-- Every defined symbol is on the chain of its bucket, and the chains end. -/
structure HashTab.Lists (t : HashTab) (o : SymObj) : Prop where
  chain : ∀ b, ∃ l : List Nat, Linked (fun i => toIndex (t.chains i)) (toIndex (t.buckets b)) l ∧
    l.length ≤ o.nsyms ∧ (∀ i ∈ l, i < o.nsyms) ∧
    ∀ i < o.nsyms, (o.dynsym i).shndx ≠ SHN_UNDEF →
      elfHashSpec (o.dynsym i).name % 2 ^ 32 % t.nbuckets = b → i ∈ l

/-- Every defined symbol is in the filter and in the run of its bucket, and the runs end. -/
structure GnuTab.Lists (t : GnuTab) (o : SymObj) : Prop where
  filter : ∀ i < o.nsyms, (o.dynsym i).shndx ≠ SHN_UNDEF →
    let h := gnuHash (o.dynsym i).name
    (t.bloom (h / 64 % t.bloomSize)).testBit (h % 64) = true ∧
      (t.bloom (h / 64 % t.bloomSize)).testBit ((h >>> t.bloomShift) % 64) = true
  run : ∀ i < o.nsyms, (o.dynsym i).shndx ≠ SHN_UNDEF →
    let h := gnuHash (o.dynsym i).name
    let start := t.buckets (h % t.nbuckets)
    t.symoffset ≤ start ∧ start ≤ i ∧
      (∀ k, start ≤ k → k < i → t.chains (k - t.symoffset) % 2 = 0) ∧
      t.chains (i - t.symoffset) / 2 = h / 2
  ends : ∀ b, t.symoffset ≤ t.buckets b →
    ∃ e, t.buckets b ≤ e ∧ e < o.nsyms ∧ t.chains (e - t.symoffset) % 2 = 1

def SymObj.Defines (o : SymObj) (name : List UInt8) (i : Nat) : Prop :=
  i < o.nsyms ∧ (o.dynsym i).shndx ≠ SHN_UNDEF ∧ (o.dynsym i).name = name

/-- An object with tables over its symbols, no name defined twice. -/
structure SymObj.Good (o : SymObj) : Prop where
  unique : ∀ name i j, o.Defines name i → o.Defines name j → i = j
  htab : ∀ t, o.htab = some t → t.Lists o
  gnuHtab : ∀ t, o.gnuHtab = some t → t.Lists o
  tables : o.htab ≠ none ∨ o.gnuHtab ≠ none

/-- The name hashes as specified where only the System V table can be searched. -/
def SymObj.Hashes (o : SymObj) (name : List UInt8) : Prop :=
  o.gnuHtab = none → ∀ c ∈ name, c < 128

/-! ## Lookup in one object -/

section One

variable {o : SymObj} {name : List UInt8}

variable {i : Nat} {t : GnuTab}

theorem hit_iff (hi : i < o.nsyms) : o.hit name i = true ↔ o.Defines name i := by
  unfold SymObj.hit SymObj.Defines
  simp [hi]

theorem elfHash_eq (h : ∀ c ∈ name, c < 128) : elfHash name = elfHashSpec name := by
  have hstep : ∀ (l : List UInt8) (a : Nat), (∀ c ∈ l, c < 128) →
      l.foldl (fun h c => elfHashStep h (charValue c)) a =
        l.foldl (fun h c => elfHashStep h c.toNat) a := by
    intro l
    induction l with
    | nil => exact fun a _ => rfl
    | cons c l ih =>
      intro a hl
      have hc : charValue c = c.toNat := if_pos (hl c List.mem_cons_self)
      rw [List.foldl_cons, hc]
      exact ih _ fun c' hc' => hl c' (List.mem_cons_of_mem c hc')
  exact hstep name 0 h

section Find

variable {l : List Nat} (hlt : ∀ j ∈ l, j < o.nsyms)

include hlt

theorem find_eq_none (hno : ∀ i, ¬ o.Defines name i) : l.find? (o.hit name) = none := by
  rw [List.find?_eq_none]
  exact fun i hi hhit => hno i ((hit_iff (hlt i hi)).mp hhit)

theorem find_eq_some (hunique : ∀ i j, o.Defines name i → o.Defines name j → i = j)
    (hi : o.Defines name i) (hmem : i ∈ l) : l.find? (o.hit name) = some i := by
  cases hfind : l.find? (o.hit name) with
  | none => exact absurd ((hit_iff hi.1).mpr hi) (List.find?_eq_none.mp hfind i hmem)
  | some j =>
    have hj := hlt j (List.mem_of_find?_eq_some hfind)
    rw [hunique j i ((hit_iff hj).mp (List.find?_some hfind)) hi]

end Find

-- the search along a chain whose end is within reach
theorem locateHashsym_eq {t : HashTab} {l : List Nat} (hlinked : Linked
    (fun i => toIndex (t.chains i)) (toIndex (t.buckets (elfHash name % 2 ^ 32 % t.nbuckets))) l)
    (hlen : l.length ≤ o.nsyms) : locateHashsym o t name =
      (l.find? (o.hit name)).map fun i => (o.addr (o.dynsym i), (o.dynsym i).size) := by
  unfold locateHashsym
  dsimp only
  rw [firstLinked_eq_find hlinked _ hlen]
  rfl

theorem locateHashsym_none {t : HashTab} (ht : t.Lists o) (hno : ∀ i, ¬ o.Defines name i) :
    locateHashsym o t name = none := by
  obtain ⟨l, hlinked, hlen, hlt, -⟩ := ht.chain (elfHash name % 2 ^ 32 % t.nbuckets)
  rw [locateHashsym_eq hlinked hlen, find_eq_none hlt hno]
  rfl

theorem locateHashsym_some (hunique : ∀ i j, o.Defines name i → o.Defines name j → i = j)
    {t : HashTab} (ht : t.Lists o) (hi : o.Defines name i) (hhash : ∀ c ∈ name, c < 128) :
    locateHashsym o t name = some (o.addr (o.dynsym i), (o.dynsym i).size) := by
  obtain ⟨l, hlinked, hlen, hlt, hall⟩ := ht.chain (elfHash name % 2 ^ 32 % t.nbuckets)
  have hmem := hall i hi.1 hi.2.1 (by rw [hi.2.2, elfHash_eq hhash])
  rw [locateHashsym_eq hlinked hlen, find_eq_some hlt hunique hi hmem]
  rfl

theorem xor_shiftRight_eq_zero {a b : Nat} : (a ^^^ b) >>> 1 = 0 ↔ a / 2 = b / 2 := by
  rw [Nat.shiftRight_xor_distrib, Nat.xor_eq_zero_iff, Nat.shiftRight_one, Nat.shiftRight_one]

-- a hit in the run is a definition of the name
theorem gnuLoop_sound {h rounds start e : Nat} (he : start ≤ e) (hlt : e < o.nsyms)
    (hodd : t.chains (e - t.symoffset) % 2 = 1) {j : Nat}
    (hj : gnuLoop o t name h rounds start = some j) : o.Defines name j := by
  induction rounds generalizing start with
  | zero => cases hj
  | succ rounds ih =>
    unfold gnuLoop at hj
    dsimp only at hj
    split at hj
    · rename_i hcond
      cases hj
      exact (hit_iff (by omega)).mp hcond.2
    split at hj
    · cases hj
    rename_i heven
    apply ih _ hj
    -- the end of the run is further on
    rcases Nat.lt_or_eq_of_le he with hlt' | rfl
    · exact hlt'
    · exact absurd hodd heven

theorem gnuLoop_complete (hunique : ∀ i j, o.Defines name i → o.Defines name j → i = j)
    {h rounds start : Nat} (hi : o.Defines name i) (hstart : start ≤ i)
    (hrounds : i < start + rounds)
    (heven : ∀ k, start ≤ k → k < i → t.chains (k - t.symoffset) % 2 = 0)
    (hhash : t.chains (i - t.symoffset) / 2 = h / 2) :
    gnuLoop o t name h rounds start = some i := by
  induction rounds generalizing start with
  | zero => omega
  | succ rounds ih =>
    unfold gnuLoop
    rcases Nat.lt_or_eq_of_le hstart with hlt | rfl
    · have hmiss : o.hit name start ≠ true := by
        intro hhit
        have hdef := (hit_iff (hlt.trans hi.1)).mp hhit
        have := hunique start i hdef hi
        omega
      have heven' := heven start (Nat.le_refl _) hlt
      rw [if_neg fun hcond => hmiss hcond.2, if_neg (by omega)]
      exact ih hlt (by omega) fun k hk => heven k (by omega)
    · rw [if_pos ⟨xor_shiftRight_eq_zero.mpr hhash.symm, (hit_iff hi.1).mpr hi⟩]

theorem and_mask_eq {word a b : Nat} (ha : word.testBit a = true) (hb : word.testBit b = true) :
    word &&& (2 ^ a ||| 2 ^ b) = 2 ^ a ||| 2 ^ b := by
  apply Nat.eq_of_testBit_eq
  intro k
  rw [Nat.testBit_and, Nat.testBit_or]
  by_cases hk : a = k
  · subst hk
    rw [ha, Bool.true_and]
  · by_cases hk' : b = k
    · subst hk'
      rw [hb, Bool.true_and]
    · simp [hk, hk']

theorem locateGnuhashsym_none (ht : t.Lists o) (hno : ∀ i, ¬ o.Defines name i) :
    locateGnuhashsym o t name = none := by
  unfold locateGnuhashsym
  dsimp only
  split
  · rfl
  split
  · rfl
  rename_i hge
  obtain ⟨e, he, hlt, hodd⟩ := ht.ends _ (Nat.le_of_not_lt hge)
  cases hloop : gnuLoop o t name (gnuHash name) o.nsyms (t.buckets (gnuHash name % t.nbuckets)) with
  | none => rfl
  | some j => exact absurd (gnuLoop_sound he hlt hodd hloop) (hno j)

theorem locateGnuhashsym_some (hunique : ∀ i j, o.Defines name i → o.Defines name j → i = j)
    (ht : t.Lists o) (hi : o.Defines name i) :
    locateGnuhashsym o t name = some (o.addr (o.dynsym i), (o.dynsym i).size) := by
  have hfilter := ht.filter i hi.1 hi.2.1
  have hrun := ht.run i hi.1 hi.2.1
  rw [hi.2.2] at hfilter hrun
  obtain ⟨hoff, hstart, heven, hhash⟩ := hrun
  unfold locateGnuhashsym
  rw [if_neg (not_not.mpr (and_mask_eq hfilter.1 hfilter.2)), if_neg (by omega),
    gnuLoop_complete hunique hi hstart (by have := hi.1; omega) heven hhash]
  rfl

theorem nonzero_some {a : Nat × Nat} (h : a.1 ≠ 0) : nonzero (some a) = some a := by
  unfold nonzero
  rw [Option.filter_some, if_pos (decide_eq_true h)]

theorem locateIn_none (ho : o.Good) (hno : ∀ i, ¬ o.Defines name i) : locateIn o name = none := by
  unfold locateIn
  have hgnu : (o.gnuHtab.bind fun t => locateGnuhashsym o t name) = none := by
    cases h : o.gnuHtab with
    | none => rfl
    | some t => exact locateGnuhashsym_none (ho.gnuHtab t h) hno
  have hsysv : (o.htab.bind fun t => locateHashsym o t name) = none := by
    cases h : o.htab with
    | none => rfl
    | some t => exact locateHashsym_none (ho.htab t h) hno
  rw [hgnu, hsysv]
  rfl

theorem locateIn_some (ho : o.Good) (hi : o.Defines name i) (hhash : o.Hashes name)
    (hne : o.addr (o.dynsym i) ≠ 0) :
    locateIn o name = some (o.addr (o.dynsym i), (o.dynsym i).size) := by
  unfold locateIn
  cases hgnu : o.gnuHtab with
  | some t =>
    rw [Option.bind_some, locateGnuhashsym_some (ho.unique name) (ho.gnuHtab t hgnu) hi,
      nonzero_some hne]
    rfl
  | none =>
    rcases Option.ne_none_iff_exists'.mp (ho.tables.resolve_right (not_not.mpr hgnu)) with ⟨t, ht⟩
    rw [ht, Option.bind_some, locateHashsym_some (ho.unique name) (ho.htab t ht) hi (hhash hgnu),
      nonzero_some hne]
    rfl

end One

/-! ## Lookup in all objects -/

/-- The first object of the list that defines the name, with the symbol. -/
def FirstDef (objs : List SymObj) (name : List UInt8) (d : SymObj) (i : Nat) : Prop :=
  ∃ before after, objs = before ++ d :: after ∧ (∀ o ∈ before, ∀ j, ¬ o.Defines name j) ∧
    d.Defines name i

theorem locateExtern_eq {objs : List SymObj} (hgood : ∀ o ∈ objs, o.Good) {name : List UInt8}
    {d : SymObj} {i : Nat} (hd : FirstDef objs name d i) (hhash : d.Hashes name)
    (hne : d.addr (d.dynsym i) ≠ 0) :
    locateExtern objs name = some (d.addr (d.dynsym i), (d.dynsym i).size) := by
  obtain ⟨before, after, rfl, hno, hdef⟩ := hd
  have hbefore : before.findSome? (fun o => locateIn o name) = none := by
    rw [List.findSome?_eq_none_iff]
    exact fun o ho => locateIn_none (hgood o (List.mem_append_left _ ho)) (hno o ho)
  have hgd := hgood d (List.mem_append_right _ List.mem_cons_self)
  unfold locateExtern
  rw [List.findSome?_append, hbefore, List.findSome?_cons, locateIn_some hgd hdef hhash hne]
  rfl

end Ldso
