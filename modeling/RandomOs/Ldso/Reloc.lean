import RandomOs.Lib.Quad
import RandomOs.Ldso.Symbols

/-!
# Relocation (`apply_rela`, `ldso_resvmain`)

A relocation writes into the object that carries it.  `R_X86_64_64` is handled as a jump slot is at
load time: the object's base is added to the word, and the symbol is not looked at.  A copy
relocation of a symbol that the object defines, which is how a linker marks the room for the copy,
copies that room onto itself.
-/

namespace Ldso

open Lib Lib.Bytes List

/-! ## Model -/

def R_X86_64_64 : Nat := 1
def R_X86_64_COPY : Nat := 5
def R_X86_64_GLOB_DAT : Nat := 6
def R_X86_64_JUMP_SLOT : Nat := 7
def R_X86_64_RELATIVE : Nat := 8

def DT_RELA : Nat := 7
def DT_REL : Nat := 17

def Rela.sym (r : Rela) : Nat := r.info / 2 ^ 32
def Rela.type (r : Rela) : Nat := r.info % 2 ^ 32

def SymObj.target (o : SymObj) (r : Rela) : Nat := (o.base + r.offset) % 2 ^ 64

-- the lookup that every case with a symbol makes; `none` is `ldso_exit(1)`
def symAddr (objs : List SymObj) (o : SymObj) (s : Sym) : Option (Nat × Nat) :=
  if s.shndx ≠ SHN_UNDEF then some (o.addr s, s.size) else locateExtern objs s.name

def applyRela (objs : List SymObj) (r : Rela) (o : SymObj) (m : Bytes) : Option Bytes :=
  let tgt := o.target r
  if r.type = R_X86_64_RELATIVE then some (put64 m tgt (o.base + r.addend))
  else if r.type = R_X86_64_64 ∨ r.type = R_X86_64_JUMP_SLOT then
    some (put64 m tgt (get64 m tgt + o.base))
  else if r.type = R_X86_64_GLOB_DAT then
    (symAddr objs o (o.dynsym r.sym)).map fun a => put64 m tgt (a.1 + r.addend)
  else if r.type = R_X86_64_COPY then
    (symAddr objs o (o.dynsym r.sym)).map fun a => movsb m tgt a.1 a.2
  else some m

-- a `DT_REL` table has no addends: the slot holds them
def SymObj.slotAddend (o : SymObj) (r : Rela) (m : Bytes) : Nat :=
  if o.pltrelType = DT_REL then get64 m (o.target r) else r.addend

def ldsoResvmain (objs : List SymObj) (o : SymObj) (pltidx : Nat) (m : Bytes) :
    Option (Nat × Bytes) :=
  if o.pltrelType = DT_REL ∨ o.pltrelType = DT_RELA then
    let r := o.pltrel pltidx
    (symAddr objs o (o.dynsym r.sym)).map fun a =>
      let v := (a.1 + o.slotAddend r m) % 2 ^ 64
      (v, put64 m (o.target r) v)
  else none

/-! ## What the psABI asks for -/

/-- The loader's own object, the loaded ones, and the one among these that is relocated. -/
structure Loaded where
  ldsoObj : SymObj
  objects : List SymObj
  self : Fin objects.length
  good : ∀ o ∈ ldsoObj :: objects, o.Good

-- the search order of `locate_extern`
def Loaded.objs (l : Loaded) : List SymObj := l.ldsoObj :: l.objects

def Loaded.obj (l : Loaded) : SymObj := l.objects.get l.self

/-- The run-time address of a definition: an absolute symbol does not move with its object. -/
def SymObj.runAddr (d : SymObj) (t : Sym) : Nat :=
  if t.shndx = SHN_ABS then t.value % 2 ^ 64 else d.addr t

/-- `t` of the object `d` is the definition of `s`: its own, or the first in search order. -/
def Loaded.IsDef (l : Loaded) (s : Sym) (d : SymObj) (t : Sym) : Prop :=
  (s.shndx ≠ SHN_UNDEF ∧ d = l.obj ∧ t = s) ∨
    (s.shndx = SHN_UNDEF ∧ ∃ i, FirstDef l.objs s.name d i ∧ t = d.dynsym i)

/-- The library that provides a symbol to be copied: the first other object that defines it. -/
def Loaded.Provides (l : Loaded) (s : Sym) (p : SymObj) (u : Sym) : Prop :=
  ∃ i, FirstDef (l.ldsoObj :: l.objects.eraseIdx l.self) s.name p i ∧ u = p.dynsym i

structure Loaded.Conforms (l : Loaded) (r : Rela) (m : Bytes) : Prop where
  relative : r.type = R_X86_64_RELATIVE →
    ∃ m', applyRela l.objs r l.obj m = some m' ∧
      get64 m' (l.obj.target r) = (l.obj.base + r.addend) % 2 ^ 64
  word : r.type = R_X86_64_64 ∨ r.type = R_X86_64_GLOB_DAT →
    ∀ d t, l.IsDef (l.obj.dynsym r.sym) d t →
      ∃ m', applyRela l.objs r l.obj m = some m' ∧
        get64 m' (l.obj.target r) = (d.runAddr t + r.addend) % 2 ^ 64
  copy : r.type = R_X86_64_COPY →
    ∀ d t p u, l.IsDef (l.obj.dynsym r.sym) d t → l.Provides (l.obj.dynsym r.sym) p u →
      ∃ m', applyRela l.objs r l.obj m = some m' ∧
        ∀ k < t.size, m' (l.obj.target r + k) = m (p.runAddr u + k)
  jumpSlot : r.type = R_X86_64_JUMP_SLOT →
    l.obj.pltrelType = DT_REL ∨ l.obj.pltrelType = DT_RELA →
    ∀ idx, l.obj.pltrel idx = r → ∀ d t, l.IsDef (l.obj.dynsym r.sym) d t →
      ∃ v m', ldsoResvmain l.objs l.obj idx m = some (v, m') ∧
        get64 m' (l.obj.target r) = (d.runAddr t + l.obj.slotAddend r m) % 2 ^ 64

/-! ## When the code does it -/

/-- The tables can find the definition. -/
def Loaded.Findable (l : Loaded) (s : Sym) : Prop :=
  s.shndx = SHN_UNDEF → ∀ d i, FirstDef l.objs s.name d i →
    d.Hashes s.name ∧ d.addr (d.dynsym i) ≠ 0

/-- The definition moves with its object, or the object has not moved. -/
def SymObj.Moves (d : SymObj) (t : Sym) : Prop := t.shndx ≠ SHN_ABS ∨ d.base % 2 ^ 64 = 0

structure Loaded.Benign (l : Loaded) (r : Rela) (m : Bytes) : Prop where
  word : r.type = R_X86_64_64 → ∀ d t, l.IsDef (l.obj.dynsym r.sym) d t →
    (get64 m (l.obj.target r) + l.obj.base) % 2 ^ 64 = (d.runAddr t + r.addend) % 2 ^ 64
  globDat : r.type = R_X86_64_GLOB_DAT → ∀ d t, l.IsDef (l.obj.dynsym r.sym) d t → d.Moves t
  copy : r.type = R_X86_64_COPY →
    ∀ d t p u, l.IsDef (l.obj.dynsym r.sym) d t → l.Provides (l.obj.dynsym r.sym) p u →
      ∀ k < t.size, m (movsbFrom (l.obj.target r) (d.addr t) k) = m (p.runAddr u + k)
  jumpSlot : r.type = R_X86_64_JUMP_SLOT →
    l.obj.pltrelType = DT_REL ∨ l.obj.pltrelType = DT_RELA →
    ∀ idx, l.obj.pltrel idx = r → ∀ d t, l.IsDef (l.obj.dynsym r.sym) d t → d.Moves t

section

variable {l : Loaded} {r : Rela} {m : Bytes} {s t : Sym} {d : SymObj}

-- the lookup ends at the definition
theorem symAddr_eq (hdef : l.IsDef s d t) (hfind : l.Findable s) :
    symAddr l.objs l.obj s = some (d.addr t, t.size) := by
  unfold symAddr
  rcases hdef with ⟨hown, rfl, rfl⟩ | ⟨hundef, i, hfirst, rfl⟩
  · rw [if_pos hown]
  · obtain ⟨hhash, hne⟩ := hfind hundef d i hfirst
    rw [if_neg (not_not.mpr hundef)]
    exact locateExtern_eq l.good hfirst hhash hne

theorem addr_add_eq_iff (a : Nat) :
    (d.addr t + a) % 2 ^ 64 = (d.runAddr t + a) % 2 ^ 64 ↔ d.Moves t := by
  unfold SymObj.runAddr SymObj.Moves SymObj.addr
  by_cases habs : t.shndx = SHN_ABS
  · rw [if_pos habs]
    have hiff : (((d.base + t.value) % 2 ^ 64 + a) % 2 ^ 64 = (t.value % 2 ^ 64 + a) % 2 ^ 64) ↔
        d.base % 2 ^ 64 = 0 := by
      omega
    rw [hiff]
    exact ⟨Or.inr, fun h => h.resolve_left (not_not.mpr habs)⟩
  · rw [if_neg habs]
    exact ⟨fun _ => Or.inl habs, fun _ => rfl⟩

theorem applyRela_relative (h : r.type = R_X86_64_RELATIVE) (objs : List SymObj) (o : SymObj) :
    applyRela objs r o m = some (put64 m (o.target r) (o.base + r.addend)) :=
  if_pos h

theorem applyRela_64 (h : r.type = R_X86_64_64) (objs : List SymObj) (o : SymObj) :
    applyRela objs r o m = some (put64 m (o.target r) (get64 m (o.target r) + o.base)) := by
  unfold applyRela
  rw [h, if_neg (by decide), if_pos (Or.inl rfl)]

theorem applyRela_globDat (h : r.type = R_X86_64_GLOB_DAT)
    (hdef : l.IsDef (l.obj.dynsym r.sym) d t) (hfind : l.Findable (l.obj.dynsym r.sym)) :
    applyRela l.objs r l.obj m = some (put64 m (l.obj.target r) (d.addr t + r.addend)) := by
  unfold applyRela
  rw [h, symAddr_eq hdef hfind]
  rfl

theorem applyRela_copy (h : r.type = R_X86_64_COPY)
    (hdef : l.IsDef (l.obj.dynsym r.sym) d t) (hfind : l.Findable (l.obj.dynsym r.sym)) :
    applyRela l.objs r l.obj m = some (movsb m (l.obj.target r) (d.addr t) t.size) := by
  unfold applyRela
  rw [h, symAddr_eq hdef hfind]
  rfl

theorem ldsoResvmain_eq {idx : Nat} (hidx : l.obj.pltrel idx = r)
    (htable : l.obj.pltrelType = DT_REL ∨ l.obj.pltrelType = DT_RELA)
    (hdef : l.IsDef (l.obj.dynsym r.sym) d t) (hfind : l.Findable (l.obj.dynsym r.sym)) :
    ldsoResvmain l.objs l.obj idx m =
      some ((d.addr t + l.obj.slotAddend r m) % 2 ^ 64, put64 m (l.obj.target r)
        ((d.addr t + l.obj.slotAddend r m) % 2 ^ 64)) := by
  unfold ldsoResvmain
  dsimp only
  rw [if_pos htable, hidx, symAddr_eq hdef hfind]
  rfl

end

/-! ## The two together -/

-- a run that ends in one known memory
theorem exists_some_iff {α : Type} {x : Option α} {a : α} (h : x = some a) (p : α → Prop) :
    (∃ b, x = some b ∧ p b) ↔ p a := by
  subst h
  exact ⟨fun ⟨b, hb, hp⟩ => Option.some.inj hb ▸ hp, fun hp => ⟨a, rfl, hp⟩⟩

section

variable {l : Loaded} {r : Rela} (hfind : l.Findable (l.obj.dynsym r.sym)) (m : Bytes)
include hfind

variable {d : SymObj} {t : Sym}

theorem word_iff (hdef : l.IsDef (l.obj.dynsym r.sym) d t) (h : r.type = R_X86_64_GLOB_DAT) :
    (∃ m', applyRela l.objs r l.obj m = some m' ∧
      get64 m' (l.obj.target r) = (d.runAddr t + r.addend) % 2 ^ 64) ↔ d.Moves t := by
  rw [exists_some_iff (applyRela_globDat h hdef hfind) _, get64_put64]
  exact addr_add_eq_iff r.addend

theorem copy_iff {p : SymObj} {u : Sym} (hdef : l.IsDef (l.obj.dynsym r.sym) d t)
    (h : r.type = R_X86_64_COPY) : (∃ m', applyRela l.objs r l.obj m = some m' ∧
      ∀ k < t.size, m' (l.obj.target r + k) = m (p.runAddr u + k)) ↔
    ∀ k < t.size, m (movsbFrom (l.obj.target r) (d.addr t) k) = m (p.runAddr u + k) := by
  rw [exists_some_iff (applyRela_copy h hdef hfind) _]
  constructor
  · intro hall k hk
    rw [← hall k hk, movsb_apply hk]
  · intro hall k hk
    rw [← hall k hk, movsb_apply hk]

theorem jumpSlot_iff {idx : Nat} (hidx : l.obj.pltrel idx = r)
    (htable : l.obj.pltrelType = DT_REL ∨ l.obj.pltrelType = DT_RELA)
    (hdef : l.IsDef (l.obj.dynsym r.sym) d t) :
    (∃ v m', ldsoResvmain l.objs l.obj idx m = some (v, m') ∧
      get64 m' (l.obj.target r) = (d.runAddr t + l.obj.slotAddend r m) % 2 ^ 64) ↔ d.Moves t := by
  rw [← addr_add_eq_iff (l.obj.slotAddend r m), ldsoResvmain_eq hidx htable hdef hfind]
  constructor
  · rintro ⟨v, m', heq, hword⟩
    cases heq
    rw [get64_put64, Nat.mod_mod] at hword
    exact hword
  · intro hword
    refine ⟨_, _, rfl, ?_⟩
    rw [get64_put64, Nat.mod_mod]
    exact hword

end

theorem word64_iff {l : Loaded} {r : Rela} (m : Bytes) (h : r.type = R_X86_64_64) (v : Nat) :
    (∃ m', applyRela l.objs r l.obj m = some m' ∧ get64 m' (l.obj.target r) = v) ↔
      (get64 m (l.obj.target r) + l.obj.base) % 2 ^ 64 = v := by
  rw [exists_some_iff (applyRela_64 h l.objs l.obj) _, get64_put64]

/-- An entry is processed as the psABI asks exactly when it is benign. -/
theorem relocation_conforms_iff (l : Loaded) (r : Rela)
    (hfind : r.type = R_X86_64_GLOB_DAT ∨ r.type = R_X86_64_COPY ∨ r.type = R_X86_64_JUMP_SLOT →
      l.Findable (l.obj.dynsym r.sym)) (m : Bytes) : l.Conforms r m ↔ l.Benign r m := by
  constructor
  · intro h
    refine ⟨?_, ?_, ?_, ?_⟩
    · intro htype d t hdef
      exact (word64_iff m htype _).mp (h.word (Or.inl htype) d t hdef)
    · intro htype d t hdef
      exact (word_iff (hfind (.inl htype)) m hdef htype).mp (h.word (Or.inr htype) d t hdef)
    · intro htype d t p u hdef hprov
      exact (copy_iff (hfind (.inr (.inl htype))) m hdef htype).mp (h.copy htype d t p u hdef hprov)
    · intro htype htable idx hidx d t hdef
      exact (jumpSlot_iff (hfind (.inr (.inr htype))) m hidx htable hdef).mp
        (h.jumpSlot htype htable idx hidx d t hdef)
  · intro h
    refine ⟨?_, ?_, ?_, ?_⟩
    · intro htype
      exact ⟨_, applyRela_relative htype l.objs l.obj, get64_put64 _ _ _⟩
    · rintro (htype | htype) d t hdef
      · exact (word64_iff m htype _).mpr (h.word htype d t hdef)
      · exact (word_iff (hfind (.inl htype)) m hdef htype).mpr (h.globDat htype d t hdef)
    · intro htype d t p u hdef hprov
      exact (copy_iff (hfind (.inr (.inl htype))) m hdef htype).mpr
        (h.copy htype d t p u hdef hprov)
    · intro htype htable idx hidx d t hdef
      exact (jumpSlot_iff (hfind (.inr (.inr htype))) m hidx htable hdef).mpr
        (h.jumpSlot htype htable idx hidx d t hdef)

/-! ## A program and a library -/

def oneName : List UInt8 := [120]

-- the null symbol and one more, in a table of one bucket
def oneSym (base : Nat) (s : Sym) : SymObj where
  base := base
  pltrelType := DT_RELA
  pltrel := fun _ => ⟨0, 0, 0⟩
  nsyms := 2
  dynsym := fun i => if i = 1 then s else ⟨[], SHN_UNDEF, 0, 0⟩
  htab := some ⟨1, fun _ => 1, fun _ => 0⟩
  gnuHtab := none

variable {base i : Nat} {s : Sym}

theorem oneSym_defines {name : List UInt8} (h : (oneSym base s).Defines name i) : i = 1 := by
  by_contra hi
  apply h.2.1
  show (if i = 1 then s else ⟨[], SHN_UNDEF, 0, 0⟩ : Sym).shndx = SHN_UNDEF
  rw [if_neg hi]

theorem oneSym_good (base : Nat) (s : Sym) : (oneSym base s).Good where
  unique := fun _ _ _ hi hj => (oneSym_defines hi).trans (oneSym_defines hj).symm
  htab := by
    intro t ht
    cases ht
    refine ⟨fun b => ⟨[1], ⟨rfl, rfl⟩, Nat.le_succ 1, ?_, ?_⟩⟩
    · intro i hi
      rw [mem_singleton.mp hi]
      exact Nat.one_lt_two
    · intro i hi hdef _
      exact mem_singleton.mpr (oneSym_defines ⟨hi, hdef, rfl⟩)
  gnuHtab := fun _ ht => nomatch ht
  tables := Or.inl (Option.some_ne_none _)

def libSym : Sym := ⟨oneName, 7, 0x10, 4⟩

-- a loader that defines nothing
def ldsoOnly : SymObj := oneSym 0x7000000 ⟨[], SHN_UNDEF, 0, 0⟩

/-- A program whose symbol is `s`, before a library that defines it. -/
def programAndLib (s : Sym) : Loaded where
  ldsoObj := ldsoOnly
  objects := [oneSym 0x1000 s, oneSym 0x400000 libSym]
  self := 0
  good := by
    intro o ho
    rcases mem_cons.mp ho with rfl | ho
    · exact oneSym_good _ _
    · rcases mem_pair.mp ho with rfl | rfl
      · exact oneSym_good _ _
      · exact oneSym_good _ _

def wantedSym : Sym := ⟨oneName, SHN_UNDEF, 0, 0⟩

-- the room for the copy in the program
def roomSym : Sym := ⟨oneName, 9, 0x20, 4⟩

def entryOf (type : Nat) : Rela := ⟨0x20, 2 ^ 32 + type, 0⟩

theorem oneSym_lib_defines : (oneSym 0x400000 libSym).Defines oneName 1 :=
  ⟨by decide, by decide, rfl⟩

-- an undefined symbol is no definition
theorem oneSym_not_defines (hs : s.shndx = SHN_UNDEF) (name : List UInt8)
    (i : Nat) : ¬ (oneSym base s).Defines name i := by
  intro h
  cases oneSym_defines h
  exact h.2.1 hs

theorem firstDef_wanted :
    FirstDef (programAndLib wantedSym).objs oneName (oneSym 0x400000 libSym) 1 := by
  refine ⟨[ldsoOnly, oneSym 0x1000 wantedSym], [], rfl, ?_, oneSym_lib_defines⟩
  intro o ho j
  rcases mem_pair.mp ho with rfl | rfl
  · exact oneSym_not_defines rfl oneName j
  · exact oneSym_not_defines rfl oneName j

-- the library is the only object that defines the name
theorem eq_lib_of_firstDef {d : SymObj} (h : FirstDef (programAndLib wantedSym).objs oneName d i) :
    d = oneSym 0x400000 libSym ∧ i = 1 := by
  obtain ⟨before, after, hobjs, -, hdef⟩ := h
  have hmem : d ∈ (programAndLib wantedSym).objs := by
    rw [hobjs]
    exact mem_append_right _ mem_cons_self
  rcases mem_cons.mp hmem with rfl | hmem
  · exact absurd hdef (oneSym_not_defines rfl oneName i)
  · rcases mem_pair.mp hmem with rfl | rfl
    · exact absurd hdef (oneSym_not_defines rfl oneName i)
    · exact ⟨rfl, oneSym_defines hdef⟩

theorem wanted_findable : (programAndLib wantedSym).Findable wantedSym := by
  intro _ d i hfirst
  obtain ⟨rfl, rfl⟩ := eq_lib_of_firstDef hfirst
  exact ⟨fun _ => forall_mem_singleton.mpr (by decide), by decide⟩

theorem globDat_conforms : (programAndLib wantedSym).Conforms (entryOf R_X86_64_GLOB_DAT) zero := by
  rw [relocation_conforms_iff _ _ fun _ => wanted_findable]
  refine ⟨fun h => absurd h (by decide), ?_, fun h => absurd h (by decide),
    fun h => absurd h (by decide)⟩
  rintro - d t (⟨hown, -, -⟩ | ⟨-, i, hfirst, rfl⟩)
  · exact absurd rfl hown
  · obtain ⟨rfl, rfl⟩ := eq_lib_of_firstDef hfirst
    exact Or.inl (by decide)

-- the bytes of the library's definition are ones
def libOnes : Bytes := fun a => if 0x400010 ≤ a ∧ a < 0x400014 then 1 else 0

/-- The word of a symbol becomes the program's base, and a copy copies its own room. -/
theorem relocation_not_conforms : ¬ (programAndLib wantedSym).Conforms (entryOf R_X86_64_64) zero ∧
      ¬ (programAndLib roomSym).Conforms (entryOf R_X86_64_COPY) libOnes := by
  constructor
  · intro h
    obtain ⟨m', hm', hword⟩ := h.word (Or.inl (by decide)) (oneSym 0x400000 libSym) libSym
      (Or.inr ⟨rfl, 1, firstDef_wanted, rfl⟩)
    cases hm'
    rw [get64_put64] at hword
    exact absurd hword (by decide)
  · intro h
    have hprov : (programAndLib roomSym).Provides roomSym (oneSym 0x400000 libSym) libSym := by
      refine ⟨1, ⟨[ldsoOnly], [], rfl, ?_, oneSym_lib_defines⟩, rfl⟩
      intro o ho j
      rw [mem_singleton.mp ho]
      exact oneSym_not_defines rfl roomSym.name j
    have hown : (programAndLib roomSym).IsDef roomSym (oneSym 0x1000 roomSym) roomSym :=
      Or.inl ⟨by decide, rfl, rfl⟩
    obtain ⟨m', hm', hcopy⟩ := h.copy (by decide) _ _ _ _ hown hprov
    have hfind : (programAndLib roomSym).Findable roomSym := fun hundef =>
      absurd hundef (by decide)
    rw [applyRela_copy (by decide) hown hfind] at hm'
    cases hm'
    have hbyte := hcopy 0 (by decide)
    rw [movsb_apply (by decide)] at hbyte
    exact absurd hbyte (by decide)

end Ldso
