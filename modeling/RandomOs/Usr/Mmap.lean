import RandomOs.Mem.Vmm

/-!
# The memory calls of user processes (`user_mmap.c`, `syscalls/system.c`)

`sys_mmap`, `sys_munmap` and `sys_mprotect` check the start address against `USER_END` and pass
everything else on.  The question is for which arguments they leave the kernel's translations alone.
-/

namespace Usr

open Mem Mem.VmmState Kern Lib KernelKept

/-! ## Model -/

/-- `user_mmap`: the state afterwards and the address, 0 for `NULL`. -/
def userMmap (s : VmmState) (uasp reqaddr phys npages flags : Nat) : Option (VmmState × Nat) :=
  if npages = 0 then some (s, 0)
  else if userEnd ≤ reqaddr then some (s, 0)
  else s.vmmMapPages uasp reqaddr phys npages (flags ||| 2 ^ 60 ||| 4)

/-- `user_munmap`. -/
def userMunmap (s : VmmState) (uasp addr npages flags : Nat) : Option (VmmState × Int) :=
  if addr = 0 ∨ userEnd ≤ addr then some (s, -EINVAL)
  else (s.vmmUnmapPages uasp addr npages flags).map fun s => (s, 0)

/-- `user_mprotect`. -/
def userMprotect (s : VmmState) (uasp addr npgs flgs : Nat) : VmmState × Int :=
  if addr = 0 ∨ userEnd ≤ addr then (s, -EINVAL)
  else s.vmmSetflgs uasp addr npgs (flgs ||| 4)

/-- The system calls with their arguments. -/
inductive MemCall
  | mmap (addr phys npages flags : Nat)
  | munmap (addr npages flags : Nat)
  | mprotect (addr npgs flgs : Nat)

open MemCall

/-- The state after a call from the running address space, `none` if it does not return. -/
def MemCall.run (s : VmmState) : MemCall → Option VmmState
  | .mmap addr phys npages flags => (userMmap s s.cr3 addr phys npages flags).map Prod.fst
  | .munmap addr npages flags => (userMunmap s s.cr3 addr npages flags).map Prod.fst
  | .mprotect addr npgs flgs => some (userMprotect s s.cr3 addr npgs flgs).1

/-- The tables are separated and the free frames lie below 4 GiB, the region list partitions the
heap, and the process's window for mappings ends at or below `USER_END`. -/
structure WellFormed (s : VmmState) : Prop where
  tree : s.TreeOk
  regions : ∃ l, s.regions.Tiled l
  window : (s.regions.umapr s.pid).vaddrEnd ≤ userEnd

/-- What a call asks of the state: only `sys_mmap` takes frames and looks for room. -/
def MemCall.Needs (s : VmmState) : MemCall → Prop
  | .mmap _ _ _ _ => WellFormed s
  | _ => Separated s.mem s.cr3

/-- The last page that the loop visits starts below `USER_END`. -/
def EndsBelow (addr npages : Nat) : Prop := addr + (npages - 1) * 4096 < userEnd

/-- The arguments for which the kernel half is safe. -/
def MemCall.Confined : MemCall → Prop
  | .mmap addr _ npages flags =>
    npages = 0 ∨ userEnd ≤ addr ∨
    -- more contiguous frames than there are below 4 GiB
    (flags.testBit 61 ∧ 2 ^ 20 ≤ npages % 2 ^ 32) ∨
    -- MAP_ANYVIRT: more pages than the kernel heap has
    (flags.testBit 62 ∧ 2 ^ 33 < npages) ∨
    (¬ flags.testBit 62 ∧
      (EndsBelow addr npages ∨
        -- MAP_USRMAP: refused by the range test
        (flags.testBit 63 ∧ userEnd < (addr + npages * 4096) % 2 ^ 64) ∨
        -- the frames below 4 GiB run out before `USER_END` is reached
        (¬ flags.testBit 61 ∧ 2 ^ 20 - 1 ≤ userEnd / 4096 - addr / 4096)))
  | .munmap addr npages _ => addr = 0 ∨ userEnd ≤ addr ∨ npages = 0 ∨ EndsBelow addr npages
  | .mprotect addr npgs _ => addr = 0 ∨ userEnd ≤ addr ∨ npgs = 0 ∨ EndsBelow addr npgs

/-! ## Confined calls keep the kernel half -/

variable {addr npages flags : Nat} {s s' : VmmState}

theorem endsBelow_visits {k : Nat} (h : EndsBelow addr npages) (hk : k < npages) :
    addr + (0 + k) * 4096 < userEnd := by
  have hle : (0 + k) * 4096 ≤ (npages - 1) * 4096 := Nat.mul_le_mul_right _ (by omega)
  exact lt_of_le_of_lt (Nat.add_le_add_left hle addr) h

theorem kept_munmap (h : Separated s.mem s.cr3) (hc : (munmap addr npages flags).Confined)
    (hrun : (munmap addr npages flags).run s = some s') : KernelKept s s' := by
  obtain ⟨⟨s1, ret⟩, hcall, rfl⟩ := Option.map_eq_some_iff.mp hrun
  unfold userMunmap at hcall
  split at hcall
  · obtain ⟨rfl, -⟩ := Prod.mk.inj (Option.some.inj hcall)
    exact refl _
  rename_i hrange
  obtain ⟨s2, hunmap, heq⟩ := Option.map_eq_some_iff.mp hcall
  obtain ⟨rfl, -⟩ := Prod.mk.inj heq
  obtain ⟨regions, -, rfl⟩ := Option.map_eq_some_iff.mp hunmap
  apply unmapLoop_kept h
  intro k hk
  rcases hc with hzero | hge | hnone | hends
  · exact absurd (Or.inl hzero) hrange
  · exact absurd (Or.inr hge) hrange
  · omega
  · exact endsBelow_visits hends hk

theorem kept_mprotect (h : Separated s.mem s.cr3) {npgs flgs : Nat}
    (hc : (mprotect addr npgs flgs).Confined)
    (hrun : (mprotect addr npgs flgs).run s = some s') : KernelKept s s' := by
  obtain rfl := Option.some.inj hrun
  unfold userMprotect
  split
  · exact refl _
  rename_i hrange
  apply setflgsLoop_kept h
  intro k hk
  rcases hc with hzero | hge | hnone | hends
  · exact absurd (Or.inl hzero) hrange
  · exact absurd (Or.inr hge) hrange
  · omega
  · exact endsBelow_visits hends hk

/-! ### `sys_mmap` -/

-- the bits that `user_mmap` adds
theorem testBit_mmapFlags (flags : Nat) : (flags ||| 2 ^ 60 ||| 4).testBit 60 = true ∧
      ∀ i, 61 ≤ i → (flags ||| 2 ^ 60 ||| 4).testBit i = flags.testBit i := by
  constructor
  · rw [Nat.testBit_or, Nat.testBit_or, Nat.testBit_two_pow_self]
    simp
  · intro i hi
    rw [Nat.testBit_or, Nat.testBit_or, Nat.testBit_two_pow_of_ne (by omega),
      show (4 : Nat) = 2 ^ 2 from rfl, Nat.testBit_two_pow_of_ne (by omega)]
    simp

/-- Where the frames come from: the loops behind `sys_mmap`. -/
theorem mapAt_mmap {vst pst : Nat} :
    s.mapAt s.cr3 vst pst npages (flags ||| 2 ^ 60 ||| 4) =
      if flags.testBit 61 then
        if (pmmFalloc s.pmm npages).2 = 0 then some (s.withPmm (pmmFalloc s.pmm npages).1, 0)
        else (mapFrames s.cr3 vst (pmmFalloc s.pmm npages).2 ((flags ||| 2 ^ 60 ||| 4) % 2 ^ 60)
          npages 0 (s.withPmm (pmmFalloc s.pmm npages).1)).map fun s => (s, vst)
      else (mapFresh s.cr3 vst ((flags ||| 2 ^ 60 ||| 4) % 2 ^ 60) npages 0 s).map
        fun r => (r.1, if r.2 then vst else 0) := by
  obtain ⟨h60, hrest⟩ := testBit_mmapFlags flags
  unfold mapAt
  rw [h60, hrest 61 (by omega)]
  rfl

theorem kept_mapAt (h : s.TreeOk) {vst pst ret : Nat}
    (hc : (flags.testBit 61 = true ∧ 2 ^ 20 ≤ npages % 2 ^ 32) ∨ EndsBelow vst npages ∨
      (¬ flags.testBit 61 ∧ 2 ^ 20 - 1 ≤ userEnd / 4096 - vst / 4096))
    (hmap : s.mapAt s.cr3 vst pst npages (flags ||| 2 ^ 60 ||| 4) = some (s', ret)) :
    KernelKept s s' := by
  rw [mapAt_mmap] at hmap
  by_cases hcont : flags.testBit 61 = true
  · rw [if_pos hcont] at hmap
    by_cases hnull : (pmmFalloc s.pmm npages).2 = 0
    · rw [if_pos hnull] at hmap
      obtain ⟨rfl, -⟩ := Prod.mk.inj (Option.some.inj hmap)
      exact refl _
    rw [if_neg hnull] at hmap
    obtain ⟨s1, hframes, heq⟩ := Option.map_eq_some_iff.mp hmap
    obtain ⟨rfl, -⟩ := Prod.mk.inj heq
    rcases hc with ⟨-, hmany⟩ | hends | ⟨hone, -⟩
    · exact absurd (h.low.pmmFalloc_eq_zero hmany) hnull
    · have hmono := (h.low.pmmFalloc npages).2
      have h0 : (s.withPmm (pmmFalloc s.pmm npages).1).TreeOk :=
        ⟨h.separated, (h.low.pmmFalloc npages).1, fun f hf => h.fresh f (hmono f hf)⟩
      exact h0.mapFrames (fun k hk => endsBelow_visits hends hk) hframes
    · exact absurd hcont hone
  · rw [if_neg hcont] at hmap
    obtain ⟨⟨s1, done⟩, hfresh, heq⟩ := Option.map_eq_some_iff.mp hmap
    obtain ⟨rfl, -⟩ := Prod.mk.inj heq
    apply h.mapFresh _ hfresh
    intro k hk hfree
    rcases hc with ⟨hone, -⟩ | hends | ⟨-, hfar⟩
    · exact absurd hone hcont
    · exact endsBelow_visits hends hk
    · -- page `k` is reached only if `k + 1` frames were free
      have hcard := card_freeFrames_le s.pmm
      omega

theorem kept_mmap (h : WellFormed s) {phys : Nat} (hc : (mmap addr phys npages flags).Confined)
    (hrun : (mmap addr phys npages flags).run s = some s') : KernelKept s s' := by
  obtain ⟨⟨s1, ret⟩, hcall, rfl⟩ := Option.map_eq_some_iff.mp hrun
  obtain ⟨-, hbits⟩ := testBit_mmapFlags flags
  unfold userMmap at hcall
  split at hcall
  · obtain ⟨rfl, -⟩ := Prod.mk.inj (Option.some.inj hcall)
    exact refl _
  rename_i hzero
  split at hcall
  · obtain ⟨rfl, -⟩ := Prod.mk.inj (Option.some.inj hcall)
    exact refl _
  rename_i hge
  unfold vmmMapPages at hcall
  rw [hbits 62 (by omega), hbits 63 (by omega)] at hcall
  by_cases hany : flags.testBit 62 = true
  · -- the region list decides where, and has no room for more pages than the heap
    rw [if_pos hany] at hcall
    dsimp only at hcall
    split at hcall
    · cases hcall
    rename_i regions vaddr hffreer
    split at hcall
    · obtain ⟨rfl, -⟩ := Prod.mk.inj (Option.some.inj hcall)
      exact refl _
    rename_i hvaddr
    have hregions : ({ s with regions := regions } : VmmState).TreeOk :=
      ⟨h.tree.separated, h.tree.low, h.tree.fresh⟩
    rcases hc with hz | hg | hcont | ⟨-, hmany⟩ | ⟨hnot, -⟩
    · exact absurd hz hzero
    · exact absurd hg hge
    · exact fun v hv => kept_mapAt hregions (Or.inl hcont) hcall v hv
    · exfalso
      obtain ⟨l, hl⟩ := h.regions
      have hfind : ∀ w user, l.find? (fun i => ffreerMatch w npages user (s.regions.nodes i))
          = none := by
        intro w user
        rw [List.find?_eq_none]
        intro i hi hmatch
        have hb := hl.bounds hi
        simp only [ffreerMatch, Bool.and_eq_true, decide_eq_true_eq] at hmatch
        have hheap : heapEnd = heapStart + 2 ^ 45 := by decide
        omega
      unfold VmmRegions.vmmFfreer at hffreer
      dsimp only at hffreer
      rw [firstLinked_eq_find hl.linked _ hl.length_le, hfind] at hffreer
      obtain ⟨-, rfl⟩ := Prod.mk.inj (Option.some.inj hffreer)
      exact hvaddr rfl
    · exact absurd hany hnot
  · rw [if_neg hany] at hcall
    split at hcall
    · obtain ⟨rfl, -⟩ := Prod.mk.inj (Option.some.inj hcall)
      exact refl _
    rename_i hwindow
    apply kept_mapAt h.tree _ hcall
    rcases hc with hz | hg | hcont | ⟨hyes, -⟩ | ⟨-, hends | ⟨husr, hout⟩ | hfar⟩
    · exact absurd hz hzero
    · exact absurd hg hge
    · exact Or.inl hcont
    · exact absurd hyes hany
    · exact Or.inr (Or.inl hends)
    · have hwin := h.window
      exact absurd ⟨husr, Or.inr (by omega)⟩ hwindow
    · exact Or.inr (Or.inr hfar)

end Usr
