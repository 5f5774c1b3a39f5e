import Mathlib.Tactic.IntervalCases
import RandomOs.Lib.Stack

/-!
# The first stack of a program (`loader.c`, `ldso_start.c`)

`load_program` pushes the strings of the environment and of the arguments, and below them the
auxiliary vector, the two tables of pointers and `argc`.  `ldso_start` takes them apart again.
-/

namespace Usr

open Lib Bytes List Stack

/-! ## Model -/

def USER_END : Nat := 0x00007FFFFFFFF000
def USTACK : Nat := 128 * 4096
def ARGMAX : Nat := 16

-- both `elf.h` have the same numbers
def AT_NULL : Nat := 0
def AT_PHDR : Nat := 1
def AT_PHNUM : Nat := 2
def AT_ENTRY : Nat := 3
def AT_IPHDRS : Nat := 4
def AT_IPHNUM : Nat := 5
def AT_STACK : Nat := 6
def AT_STACKSZ : Nat := 7

/-- What `loadexe_base` found out about the program and its interpreter. -/
structure LoadInfo where
  phdrs : Nat
  phnum : Nat
  entry : Nat
  iphdrs : Nat
  iphnum : Nat

/-- The `Elf64_Auxv` entries, as pairs of words. -/
def LoadInfo.auxv (x : LoadInfo) : List Nat :=
  [AT_PHDR, x.phdrs, AT_PHNUM, x.phnum, AT_ENTRY, x.entry, AT_IPHDRS, x.iphdrs,
    AT_IPHNUM, x.iphnum, AT_STACK, USER_END, AT_STACKSZ, USTACK, AT_NULL, 0]

-- `total_u64s`
def totalWords (ac nenv : Nat) : Nat := 1 + ac + 1 + nenv + 1 + 16 * 8 / 8

/-- The correction before the tables are pushed. -/
def alignStack (s : Stack) (ac nenv : Nat) : Stack :=
  if sub64 (s.sp / 8) (totalWords ac nenv) % 2 ≠ 0 then { s with sp := sub64 s.sp 8 } else s

/-- The stack that `load_program` builds in `mem`, which has the stack mapped. -/
def loadStack (mem : Bytes) (x : LoadInfo) (argv environ : List (List UInt8)) : Stack :=
  -- `ac` is at most `ARGMAX`
  let argv := argv.take ARGMAX
  let env := (mk mem USER_END).pushStrs environ
  let arg := env.1.pushStrs argv
  let s := alignStack arg.1 argv.length environ.length
  -- five entries are copied to the stack, three are assigned there
  let s := s.pushWords x.auxv
  let s := s.pushWord 0
  let s := s.pushWords env.2
  let s := s.pushWord 0
  let s := s.pushWords arg.2
  s.pushWord argv.length

/-- `while (*p++);`, with a limit on the rounds. -/
def skipTable (m : Bytes) : (fuel p : Nat) → Option Nat
  | 0, _ => none
  | fuel + 1, p => if get64 m p = 0 then some (p + 8) else skipTable m fuel (p + 8)

structure Args where
  argc : Nat
  argv : Nat
  envp : Nat
  auxv : Nat

/-- What `ldso_start` finds at `rsp`. -/
def ldsoStart (m : Bytes) (fuel rsp : Nat) : Option Args := do
  let argc := get64 m rsp
  let argv := rsp + 8
  let envp := argv + 8 * (argc + 1)
  let auxv ← skipTable m fuel envp
  pure ⟨argc, argv, envp, auxv⟩

/-- `getauxval` for the types that the kernel provides. -/
def getauxval (m : Bytes) (type : Nat) : (fuel auxv : Nat) → Option Nat
  | 0, _ => none
  | fuel + 1, auxv =>
    if get64 m auxv = AT_NULL then some 0
    else if get64 m auxv = type then some (get64 m (auxv + 8))
    else getauxval m type fuel (auxv + 16)

/-! ## The contract -/

/-- A table of pointers to the strings, with a NULL pointer at the end. -/
def StrTable (m : Bytes) (p : Nat) (xs : List (List UInt8)) : Prop :=
  ∃ as : List Nat, Words m p (as ++ [0]) ∧ List.Forall₂ (StrAt m) as xs

structure Decoded (m : Bytes) (x : LoadInfo) (argv environ : List (List UInt8)) (d : Args) :
    Prop where
  argc : d.argc = argv.length
  argv : StrTable m d.argv argv
  envp : StrTable m d.envp environ
  phdr : ∀ fuel ≥ 8, getauxval m AT_PHDR fuel d.auxv = some x.phdrs
  phnum : ∀ fuel ≥ 8, getauxval m AT_PHNUM fuel d.auxv = some x.phnum
  entry : ∀ fuel ≥ 8, getauxval m AT_ENTRY fuel d.auxv = some x.entry
  stack : ∀ fuel ≥ 8, getauxval m AT_STACK fuel d.auxv = some USER_END
  stacksz : ∀ fuel ≥ 8, getauxval m AT_STACKSZ fuel d.auxv = some USTACK

structure StackContract (s : Stack) (x : LoadInfo) (argv environ : List (List UInt8)) : Prop where
  aligned : s.sp % 16 = 0
  inside : USER_END - USTACK ≤ s.sp ∧ s.sp < USER_END
  decoded : ∀ fuel > environ.length, ∃ d, ldsoStart s.mem fuel s.sp = some d ∧
    Decoded s.mem x argv environ d

/-- The values are 64-bit words. -/
structure LoadInfo.Fits (x : LoadInfo) : Prop where
  phdrs : x.phdrs < 2 ^ 64
  phnum : x.phnum < 2 ^ 64
  entry : x.entry < 2 ^ 64
  iphdrs : x.iphdrs < 2 ^ 64
  iphnum : x.iphnum < 2 ^ 64

theorem LoadInfo.Fits.auxv_lt {x : LoadInfo} (hx : x.Fits) : ∀ w ∈ x.auxv, w < 2 ^ 64 := by
  obtain ⟨h1, h2, h3, h4, h5⟩ := hx
  intro w hw
  unfold LoadInfo.auxv at hw
  simp only [mem_cons, not_mem_nil, or_false] at hw
  rcases hw with rfl | rfl | rfl | rfl | rfl | rfl | rfl | rfl | rfl | rfl | rfl | rfl | rfl | rfl |
    rfl | rfl <;> first | assumption | decide

/-! ## The stack pointer -/

/-- With `left` bytes to spare, the correction takes eight of them if they hold an odd number of
words. -/
theorem alignStack_sp {s : Stack} {ac nenv left : Nat}
    (hsp : s.sp = USER_END - USTACK + 8 * totalWords ac nenv + left)
    (hle : 8 * totalWords ac nenv + left ≤ USTACK) : (alignStack s ac nenv).mem = s.mem ∧
      (alignStack s ac nenv).sp + (if left / 8 % 2 = 0 then 0 else 8) = s.sp := by
  unfold USER_END at hsp
  unfold USTACK at hsp hle
  have hquot : sub64 (s.sp / 8) (totalWords ac nenv) = s.sp / 8 - totalWords ac nenv :=
    sub64_of_le (by omega) (by omega)
  unfold alignStack
  split
  · refine ⟨rfl, ?_⟩
    change sub64 s.sp 8 + _ = _
    rw [sub64_of_le (by omega) (by omega), if_neg (by omega)]
    omega
  · exact ⟨rfl, by rw [if_pos (by omega), Nat.add_zero]⟩

theorem loadStack_eq (mem : Bytes) (x : LoadInfo) {argv : List (List UInt8)}
    (environ : List (List UInt8)) (hac : argv.length ≤ ARGMAX) {env arg : Stack × List Nat}
    (henv : (mk mem USER_END).pushStrs environ = env) (harg : env.1.pushStrs argv = arg) :
    loadStack mem x argv environ = (alignStack arg.1 argv.length environ.length).pushWords
      (argv.length :: (arg.2 ++ 0 :: (env.2 ++ 0 :: x.auxv))) := by
  unfold loadStack
  dsimp only
  rw [take_of_length_le hac, henv, harg, pushWords, pushWords_append,
    pushWords, pushWords_append, pushWords]

/-! ## Decoding -/

section Decode

variable {m : Bytes} {x : LoadInfo} {p : Nat} {fuel : Nat}

theorem skipTable_eq {as : List Nat} (has : ∀ a ∈ as, a ≠ 0) (h : Words m p (as ++ [0]))
    (hfuel : as.length < fuel) : skipTable m fuel p = some (p + 8 * (as.length + 1)) := by
  induction as generalizing p fuel with
  | nil =>
    obtain ⟨k, rfl⟩ : ∃ k, fuel = k + 1 := ⟨fuel - 1, by omega⟩
    rw [skipTable, if_pos h.1]
    rfl
  | cons a as ih =>
    rw [length_cons] at hfuel
    obtain ⟨k, rfl⟩ : ∃ k, fuel = k + 1 := ⟨fuel - 1, by omega⟩
    have ha : a ≠ 0 := has a mem_cons_self
    rw [skipTable, h.1, if_neg ha, ih (fun b hb => has b (mem_cons_of_mem _ hb)) h.2 (by omega),
      length_cons]
    congr 1
    omega

-- one round of `getauxval`
theorem getauxval_cons {type v : Nat} {ws : List Nat} (h : Words m p (type :: v :: ws))
    (htype : type ≠ AT_NULL) (t fuel : Nat) :
    getauxval m t (fuel + 1) p = if type = t then some v else getauxval m t fuel (p + 16) := by
  rw [getauxval, h.1, if_neg htype, h.2.1]

theorem getauxval_auxv (h : Words m p x.auxv) {t i : Nat} (ht : t = i + 1) (hi : i < 7)
    (hfuel : 8 ≤ fuel) : getauxval m t fuel p = x.auxv[2 * i + 1]? := by
  subst ht
  obtain ⟨k, rfl⟩ : ∃ k, fuel = k + 7 := ⟨fuel - 7, by omega⟩
  rw [getauxval_cons h (by decide), getauxval_cons h.2.2 (by decide),
    getauxval_cons h.2.2.2.2 (by decide), getauxval_cons h.2.2.2.2.2.2 (by decide),
    getauxval_cons h.2.2.2.2.2.2.2.2 (by decide), getauxval_cons h.2.2.2.2.2.2.2.2.2.2 (by decide),
    getauxval_cons h.2.2.2.2.2.2.2.2.2.2.2.2 (by decide)]
  interval_cases i <;> rfl

theorem ldsoStart_decodes {argv environ : List (List UInt8)} {av ev : List Nat}
    (h : Words m p (argv.length :: (av ++ 0 :: (ev ++ 0 :: x.auxv))))
    (hav : List.Forall₂ (StrAt m) av argv) (hev : List.Forall₂ (StrAt m) ev environ)
    (hne : ∀ a ∈ ev, a ≠ 0) (hfuel : environ.length < fuel) :
    ∃ d, ldsoStart m fuel p = some d ∧ Decoded m x argv environ d := by
  obtain ⟨hargc, h⟩ := h
  rw [append_cons av, Words.append] at h
  obtain ⟨hargs, h⟩ := h
  rw [append_cons ev, Words.append] at h
  obtain ⟨henvs, haux⟩ := h
  rw [length_append, length_singleton, hav.length_eq] at henvs haux
  have hskip := skipTable_eq hne henvs (by rwa [hev.length_eq])
  rw [length_append] at haux
  refine ⟨⟨argv.length, p + 8, p + 8 + 8 * (argv.length + 1),
    p + 8 + 8 * (argv.length + 1) + 8 * (ev.length + 1)⟩, ?_, ?_⟩
  · unfold ldsoStart
    dsimp only
    rw [hargc, hskip]
    rfl
  · have hget : ∀ t i, t = i + 1 → i < 7 → ∀ fuel ≥ 8, getauxval m t fuel
        (p + 8 + 8 * (argv.length + 1) + 8 * (ev.length + 1)) = x.auxv[2 * i + 1]? :=
      fun t i ht hi fuel hfuel => getauxval_auxv haux ht hi hfuel
    exact ⟨rfl, ⟨av, hargs, hav⟩, ⟨ev, henvs, hev⟩, hget AT_PHDR 0 rfl (by decide),
      hget AT_PHNUM 1 rfl (by decide), hget AT_ENTRY 2 rfl (by decide),
      hget AT_STACK 5 rfl (by decide), hget AT_STACKSZ 6 rfl (by decide)⟩

end Decode

/-! ## When the contract holds -/

section Contract

variable {mem : Bytes} {x : LoadInfo} {argv environ : List (List UInt8)}
  (hac : argv.length ≤ ARGMAX) (hx : x.Fits)
  (hfits : strBytes environ + strBytes argv + 8 * totalWords argv.length environ.length ≤ USTACK)
include hac hx hfits

/-- The stack is decoded as it was built, and the bytes that are left of the mapping decide where it
ends. -/
theorem loadStack_spec : ∃ left, strBytes environ + strBytes argv +
      8 * totalWords argv.length environ.length + left = USTACK ∧
    (loadStack mem x argv environ).sp + (if left / 8 % 2 = 0 then 0 else 8) =
      USER_END - USTACK + left ∧
    ∀ fuel > environ.length, ∃ d,
      ldsoStart (loadStack mem x argv environ).mem fuel (loadStack mem x argv environ).sp = some d ∧
        Decoded (loadStack mem x argv environ).mem x argv environ d := by
  obtain ⟨left, hleft⟩ := Nat.exists_eq_add_of_le hfits
  refine ⟨left, hleft.symm, ?_⟩
  obtain ⟨start, hstart⟩ : ∃ s : Stack, s = ⟨mem, USER_END⟩ := ⟨_, rfl⟩
  have hend : start.sp = USER_END := by rw [hstart]
  obtain ⟨env, henv⟩ : ∃ r, start.pushStrs environ = r := ⟨_, rfl⟩
  obtain ⟨arg, harg⟩ : ∃ r, env.1.pushStrs argv = r := ⟨_, rfl⟩
  rw [loadStack_eq mem x environ hac (hstart ▸ henv) harg]
  unfold USER_END at hend
  unfold USTACK at hleft
  -- the strings
  obtain ⟨hgrow₁, hstrs₁⟩ := @grows_pushStrs start (by omega) environ (by omega)
  rw [henv] at hgrow₁ hstrs₁
  have hsp₁ := hgrow₁.sp
  obtain ⟨hgrow₂, hstrs₂⟩ := @grows_pushStrs env.1 (by omega) argv (by omega)
  rw [harg] at hgrow₂ hstrs₂
  have hsp₂ := hgrow₂.sp
  -- the correction
  obtain ⟨hmem₃, hsp₃⟩ := @alignStack_sp arg.1 argv.length environ.length left
    (by unfold USER_END USTACK; omega) (by unfold USTACK; omega)
  obtain ⟨pad, hpad⟩ : ∃ k, (if left / 8 % 2 = 0 then 0 else 8) = k := ⟨_, rfl⟩
  have hle : pad ≤ left := by
    split at hpad <;> omega
  rw [hpad] at hsp₃ ⊢
  generalize alignStack arg.1 argv.length environ.length = s₃ at hmem₃ hsp₃ ⊢
  -- the tables
  have hav : ∀ a ∈ arg.2, a < env.1.sp := by
    intro a ha
    obtain ⟨y, -, hy⟩ := exists_of_forall₂ hstrs₂ ha
    exact hy.2.1
  have hev : ∀ a ∈ env.2, env.1.sp ≤ a ∧ a < start.sp := by
    intro a ha
    obtain ⟨y, -, hy⟩ := exists_of_forall₂ hstrs₁ ha
    exact ⟨hy.1, hy.2.1⟩
  obtain ⟨ws, hws⟩ : ∃ ws, argv.length :: (arg.2 ++ 0 :: (env.2 ++ 0 :: x.auxv)) = ws := ⟨_, rfl⟩
  have hlen : ws.length = totalWords argv.length environ.length := by
    rw [← hws, ← hstrs₁.length_eq, ← hstrs₂.length_eq]
    simp only [length_cons, length_append, LoadInfo.auxv, length_nil, totalWords]
    omega
  have hwords : ∀ w ∈ ws, w < 2 ^ 64 := by
    intro w hw
    rw [← hws] at hw
    simp only [mem_cons, mem_append] at hw
    rcases hw with rfl | hw | rfl | hw | rfl | hw
    · unfold totalWords at hleft
      omega
    · have := hav w hw
      omega
    · decide
    · have := (hev w hw).2
      omega
    · decide
    · exact hx.auxv_lt w hw
  obtain ⟨hgrow₄, htable⟩ := @grows_pushWords s₃ (by omega) ws hwords (by omega)
  have hsp₄ := hgrow₄.sp
  rw [hlen] at hsp₄
  subst hws
  refine ⟨by unfold USER_END USTACK; omega, fun fuel hfuel => ?_⟩
  refine ldsoStart_decodes htable ?_ ?_ ?_ hfuel
  · apply hstrs₂.imp
    rintro a y ⟨hle, -, hy⟩
    rw [← hmem₃] at hy
    exact hgrow₄.strAt hy (by omega)
  · apply hstrs₁.imp
    rintro a y ⟨hle, -, hy⟩
    have hy₂ := hgrow₂.strAt hy hle
    rw [← hmem₃] at hy₂
    exact hgrow₄.strAt hy₂ (by omega)
  · intro a ha
    have := (hev a ha).1
    omega

/-- The stack pointer is aligned only if the strings take a multiple of eight bytes; all else holds
for any strings. -/
theorem stackContract_iff : StackContract (loadStack mem x argv environ) x argv environ ↔
    (strBytes environ + strBytes argv) % 8 = 0 := by
  obtain ⟨left, hleft, hsp, hdecoded⟩ := @loadStack_spec mem x argv environ hac hx hfits
  unfold USER_END USTACK at hsp
  unfold USTACK at hleft
  constructor
  · rintro ⟨haligned, -, -⟩
    split at hsp <;> omega
  intro hdvd
  have hpos : 0 < totalWords argv.length environ.length := by
    unfold totalWords
    omega
  refine ⟨?_, ?_, hdecoded⟩
  · split at hsp <;> omega
  · unfold USER_END USTACK
    split at hsp <;> omega

end Contract

def someInfo : LoadInfo := ⟨0x400040, 9, 0x401000, 0x600040, 7⟩

-- "cat" with the environment "A=1"
theorem stackContract_eight_bytes :
    StackContract (loadStack zero someInfo [[99, 97, 116]] [[65, 61, 49]]) someInfo
      [[99, 97, 116]] [[65, 61, 49]] :=
  (stackContract_iff (by decide) ⟨by decide, by decide, by decide, by decide, by decide⟩
    (by decide)).mpr (by decide)

/-- "ls" without an environment takes three bytes, and the stack pointer is odd. -/
theorem stackContract_ls : [[108, 115]].length ≤ 16 ∧ someInfo.Fits ∧
    strBytes [] + strBytes [[108, 115]] + 8 * totalWords 1 0 ≤ USTACK ∧
    (loadStack zero someInfo [[108, 115]] []).sp % 16 = 5 ∧
    ¬ StackContract (loadStack zero someInfo [[108, 115]] []) someInfo [[108, 115]] [] := by
  have hsp : (loadStack zero someInfo [[108, 115]] []).sp % 16 = 5 := by decide
  refine ⟨by decide, ⟨by decide, by decide, by decide, by decide, by decide⟩, by decide, hsp, ?_⟩
  intro h
  rw [h.aligned] at hsp
  cases hsp

end Usr
