import RandomOs.Mem.Vmm

/-!
# The laws of mapping and unmapping (`vmm.c`)

Mapping a page gives `vmm_get_phys` that page and leaves every other address as it was; unmapping
it takes the page away again, and returns to the frame allocator the tables that have become empty.
Both halves of the address space are covered, and trees with 2 MiB leaves elsewhere.
-/

namespace Mem

open List

/-! ## Translation -/

/-- `vmm_get_phys`. -/
def vmmGetPhys (mem : TableMem) (pml4v virt : Nat) : Nat :=
  let pml4e := mem pml4v (pml4Idx virt)
  if !present pml4e then 0
  else
    let pdpte := mem (pageBase pml4e) (pdptIdx virt)
    if !present pdpte then 0
    else
      let pde := mem (pageBase pdpte) (pdIdx virt)
      if !present pde then 0
      else if huge pde then pde / 2 ^ 21 * 2 ^ 21 ||| virt % 2 ^ 21
      else
        let pte := mem (pageBase pde) (ptIdx virt)
        if !present pte then 0 else pageBase pte ||| virt % 4096

-- the address that the entries of a walk give
def leafPhys (virt : Nat) : List Nat → Nat
  | [_, _, pde] => pde / 2 ^ 21 * 2 ^ 21 ||| virt % 2 ^ 21
  | [_, _, _, pte] => pageBase pte ||| virt % 4096
  | _ => 0

-- stated for the two kinds of walks, so that no later proof unfolds a sum of bits
theorem leafPhys_huge (virt e0 e1 pde : Nat) :
    leafPhys virt [e0, e1, pde] = pde / 2 ^ 21 * 2 ^ 21 ||| virt % 2 ^ 21 := by
  rw [leafPhys]

theorem leafPhys_page (virt e0 e1 e2 pte : Nat) :
    leafPhys virt [e0, e1, e2, pte] = pageBase pte ||| virt % 4096 := by
  rw [leafPhys]

section GetPhys

variable {mem mem' : TableMem} {root : Nat}

variable {a : Nat}

theorem translate_page {t1 t2 t3 : Nat} (h1 : tableAt mem root 1 a = some t1)
    (h2 : tableAt mem root 2 a = some t2) (h3 : tableAt mem root 3 a = some t3)
    (hpte : present (mem t3 (idxAt 3 a)) = true) :
    translate mem root a = some [mem root (idxAt 0 a), mem t1 (idxAt 1 a), mem t2 (idxAt 2 a),
      mem t3 (idxAt 3 a)] := by
  have he0 : entryAt mem root 0 a = some (mem root (idxAt 0 a)) := rfl
  have he1 := entryAt_of_tableAt h1
  have he2 := entryAt_of_tableAt h2
  have he3 := entryAt_of_tableAt h3
  have hmapped : mapped mem root a = true := by
    rw [mapped, he3]
    exact hpte
  rw [translate, if_pos hmapped]
  simp only [List.range, List.range.loop, filterMap_cons, filterMap_nil, he0, he1, he2, he3]

-- the three entries of a walk that ends in a 2 MiB leaf
theorem translate_huge {t1 t2 : Nat} (h1 : tableAt mem root 1 a = some t1)
    (h2 : tableAt mem root 2 a = some t2) (hpde : present (mem t2 (idxAt 2 a)) = true)
    (hhuge : huge (mem t2 (idxAt 2 a)) = true) : translate mem root a =
      some [mem root (idxAt 0 a), mem t1 (idxAt 1 a), mem t2 (idxAt 2 a)] := by
  have he0 : entryAt mem root 0 a = some (mem root (idxAt 0 a)) := rfl
  have he1 := entryAt_of_tableAt h1
  have he2 := entryAt_of_tableAt h2
  have he3 : entryAt mem root 3 a = none := by
    rw [entryAt, tableAt, h2, Option.bind_some, linkAt, if_pos ⟨rfl, hhuge⟩, Option.map_none]
  have hmapped : mapped mem root a = true := by
    rw [mapped, he3, he2]
    exact Bool.and_eq_true_iff.2 ⟨hpde, hhuge⟩
  rw [translate, if_pos hmapped]
  simp only [List.range, List.range.loop, filterMap_cons, filterMap_nil, he0, he1, he2, he3]

/-- `vmm_get_phys` reads the translation. -/
theorem vmmGetPhys_eq (mem : TableMem) (root a : Nat) :
    vmmGetPhys mem root a = ((translate mem root a).map (leafPhys a)).getD 0 := by
  have hnone : ∀ n t, n ≤ 3 → tableAt mem root n a = some t →
      (!present (mem t (idxAt n a))) = true →
      0 = ((translate mem root a).map (leafPhys a)).getD 0 := by
    intro n t hn ht hp
    rw [translate_eq_none hn (entryAt_of_tableAt ht) (by simpa using hp)]
    rfl
  have hpresent : ∀ e : Nat, ¬ (!present e) = true → present e = true := by simp
  have hstep : ∀ n t, ¬ (n = 2 ∧ huge (mem t (idxAt n a)) = true) →
      tableAt mem root n a = some t → ¬ (!present (mem t (idxAt n a))) = true →
      tableAt mem root (n + 1) a = some (pageBase (mem t (idxAt n a))) := by
    intro n t hh ht hp
    rw [tableAt, ht, Option.bind_some, linkAt, if_neg hh, if_pos (hpresent _ hp)]
  unfold vmmGetPhys
  dsimp only
  split
  · rename_i h4
    exact hnone 0 root (by omega) rfl h4
  rename_i h4
  have ht1 := hstep 0 root (by omega) rfl h4
  split
  · rename_i h3
    exact hnone 1 _ (by omega) ht1 h3
  rename_i h3
  have ht2 := hstep 1 _ (by omega) ht1 h3
  split
  · rename_i h2
    exact hnone 2 _ (by omega) ht2 h2
  rename_i h2
  split
  · rename_i hhuge
    rw [translate_huge ht1 ht2 (hpresent _ h2) hhuge, Option.map_some, Option.getD_some,
      leafPhys_huge]
    rfl
  rename_i hhuge
  have ht3 := hstep 2 _ (fun h => hhuge h.2) ht2 h2
  split
  · rename_i h1
    exact hnone 3 _ le_rfl ht3 h1
  · rename_i h1
    rw [translate_page ht1 ht2 ht3 (hpresent _ h1), Option.map_some, Option.getD_some,
      leafPhys_page]
    rfl

theorem vmmGetPhys_congr (h : translate mem' root a = translate mem root a) :
    vmmGetPhys mem' root a = vmmGetPhys mem root a := by
  rw [vmmGetPhys_eq, vmmGetPhys_eq, h]

-- the leaf that `vmm_map_page` writes
theorem mapped_leaf {p f : Nat} (hp : p % 4096 = 0) (hf : f < 0x1000) :
    present (pageBase p ||| f ||| 1) = true ∧ pageBase (pageBase p ||| f ||| 1) = p := by
  have hbase : pageBase p = 2 ^ 12 * (p / 4096) := by
    unfold pageBase
    omega
  have hlow : f ||| 1 < 2 ^ 12 := Nat.or_lt_two_pow (by omega) (by omega)
  have hsum : pageBase p ||| f ||| 1 = 2 ^ 12 * (p / 4096) + (f ||| 1) := by
    rw [Nat.or_assoc, hbase, Nat.two_pow_add_eq_or_of_lt hlow]
  constructor
  · unfold present
    rw [Nat.testBit_or]
    exact Bool.or_eq_true_iff.2 (Or.inr rfl)
  · rw [hsum, pageBase]
    omega

theorem page_or_offset {p o : Nat} (hp : p % 4096 = 0) (ho : o < 4096) : p ||| o = p + o := by
  have hbase : p = 2 ^ 12 * (p / 4096) := by omega
  rw [hbase, Nat.two_pow_add_eq_or_of_lt (by omega)]

end GetPhys

-- canonical addresses with the same indices are on one page
theorem not_samePath_of_page_ne {v b : Nat} (hv : Canonical v) (hb : Canonical b)
    (hne : b / 4096 ≠ v / 4096) : ¬ SamePath 4 v b := by
  intro hpath
  have hpage := page_mod_eq_of_idx_eq (hpath 0 (by omega)) (hpath 1 (by omega))
    (hpath 2 (by omega)) (hpath 3 (by omega))
  unfold Canonical at hv hb
  omega

namespace VmmState

/-! ## Mapping -/

/-- The frame allocator after `k` allocations of one frame. -/
def drawn (pmm : PmmState) : Nat → PmmState
  | 0 => pmm
  | k + 1 => drawn (pmmFalloc pmm 1).1 k

/-- What allocation `k` of one frame from now on returns. -/
def nextPage (pmm : PmmState) (k : Nat) : Nat := (pmmFalloc (drawn pmm k) 1).2

/-- A tree whose tables are all distinct; the kernel's own root is not one of its inner tables. -/
structure PageTree (s : VmmState) (root : Nat) : Prop where
  distinct : ∀ a, Own s.mem root a
  kernel : s.pml4 ≠ root → Unlinked s.mem root s.pml4

/-- The next `k` frames that the allocator hands out are in no use. -/
def FreshPages (s : VmmState) (root k : Nat) : Prop :=
  ∀ j < k, nextPage s.pmm j ≠ 0 → nextPage s.pmm j % 4096 = 0 ∧
    Unlinked s.mem root (nextPage s.pmm j) ∧ nextPage s.pmm j ≠ s.pml4 ∧
    ∀ i < j, nextPage s.pmm i ≠ nextPage s.pmm j

theorem FreshPages.mono {s : VmmState} {root k l : Nat} (h : FreshPages s root l) (hk : k ≤ l) :
    FreshPages s root k := fun j hj => h j (by omega)

/-- The step from a table of level `n` to the next one. -/
structure Descends (s s' : VmmState) (root n virt c k : Nat) : Prop where
  tree : PageTree s' root
  notHuge : NotHuge s'.mem root virt
  table : tableAt s'.mem root (n + 1) virt = some c
  translate : ∀ b, translate s'.mem root b = translate s.mem root b
  fresh : FreshPages s' root k
  pml4 : s'.pml4 = s.pml4

section Map

variable {s s' : VmmState} {root virt : Nat}

variable {k n c : Nat}

theorem nextTable_descends {t : Nat} (htree : PageTree s root) (hn : n ≤ 2)
    (hhuge : NotHuge s.mem root virt) (hfresh : FreshPages s root (k + 1))
    (ht : tableAt s.mem root n virt = some t)
    (hnext : s.nextTable t (idxAt n virt) = some (s', c)) : Descends s s' root n virt c k := by
  have hown := htree.distinct virt
  rcases nextTable_cases hnext with ⟨hpresent, rfl, rfl⟩ | ⟨habsent, hc, hnull, rfl⟩
  · exact ⟨htree, hhuge, tableAt_of_entry hn hhuge ht hpresent, fun _ => rfl,
      hfresh.mono (by omega), rfl⟩
  have hpage : c = nextPage s.pmm 0 := hc
  obtain ⟨halign, hunlinked, hkernel, -⟩ := hfresh 0 (by omega) (hpage ▸ hnull)
  rw [← hpage] at halign hunlinked hkernel
  refine ⟨⟨fun a => hown.linkTable hn ht habsent halign hunlinked (htree.distinct a),
    fun hne => ?_⟩, hown.linkTable_notHuge hn ht habsent halign hunlinked hhuge, ?_,
    hown.linkTable_translate hn ht habsent halign hunlinked, fun j hj hne => ?_, rfl⟩
  · exact hown.linkTable_unlinked hn ht habsent halign hunlinked (htree.kernel hne) hkernel.symm
  · have htable := hown.linkTable_tableAt hn ht habsent halign hunlinked (m := n + 1)
      (by omega) virt
    rwa [if_pos ⟨rfl, fun _ _ => rfl⟩] at htable
  · -- the frames after this one
    obtain ⟨halign', hunlinked', hkernel', hother⟩ := hfresh (j + 1) (by omega) hne
    refine ⟨halign', ?_, hkernel', fun i hi => hother (i + 1) (by omega)⟩
    apply hown.linkTable_unlinked hn ht habsent halign hunlinked hunlinked'
    rw [hpage]
    exact (hother 0 (by omega)).symm

-- the copy to the kernel's root is outside the tree
theorem Descends.copyToKernel (h : Descends s s' root n virt c k) (hn : n ≤ 2)
    (hne : s'.pml4 ≠ root) (i e : Nat) :
    Descends s (s'.withMem (setEntry s'.mem s'.pml4 i e)) root n virt c k := by
  have hout := h.tree.kernel hne
  have htable := fun m (hm : m ≤ 3) b => hout.setEntry_tableAt i e hm b
  refine ⟨⟨fun a m hm l hl b t hmt hlt => ?_, fun _ m hm b => ?_⟩, fun e' he' => ?_, ?_,
    fun b => ?_, fun j hj hpage => ?_, h.pml4⟩
  · rw [withMem_mem, htable m hm] at hmt
    rw [withMem_mem, htable l hl] at hlt
    exact h.tree.distinct a m hm l hl b t hmt hlt
  · rw [withMem_mem, htable m hm]
    exact hout m hm b
  · rw [withMem_mem, hout.setEntry_entryAt i e (by omega)] at he'
    exact h.notHuge e' he'
  · rw [withMem_mem, htable (n + 1) (by omega)]
    exact h.table
  · rw [← h.translate b, withMem_mem]
    exact translate_congr fun m hm => hout.setEntry_entryAt i e hm b
  · obtain ⟨halign, hunlinked, hkernel, hother⟩ := h.fresh j hj hpage
    refine ⟨halign, fun m hm b => ?_, hkernel, hother⟩
    rw [withMem_mem, htable m hm]
    exact hunlinked m hm b

theorem nextPdpt_descends (htree : PageTree s root) (hhuge : NotHuge s.mem root virt)
    (hfresh : FreshPages s root (k + 1)) (hnext : s.nextPdpt root virt = some (s', c)) :
    Descends s s' root 0 virt c k := by
  have hstep : ∀ s₁ c₁, s.nextTable root (pml4Idx virt) = some (s₁, c₁) →
      Descends s s₁ root 0 virt c₁ k :=
    fun s₁ c₁ h => nextTable_descends (n := 0) htree (by omega) hhuge hfresh rfl h
  unfold nextPdpt at hnext
  split at hnext
  · rename_i hpresent
    apply hstep
    rw [VmmState.nextTable, if_pos hpresent, hnext]
  split at hnext
  · cases hnext
  rename_i s₁ c₁ h₁
  split at hnext
  · rename_i hcopy
    obtain ⟨rfl, rfl⟩ := Prod.mk.inj (Option.some.inj hnext)
    exact (hstep s₁ c₁ h₁).copyToKernel (by omega) hcopy.1 _ _
  · obtain ⟨rfl, rfl⟩ := Prod.mk.inj (Option.some.inj hnext)
    exact hstep s₁ c₁ h₁

/-- `vmm_map_page` writes the leaf of the page and changes no other translation. -/
theorem vmmMapPage_spec {phys flg : Nat} (htree : PageTree s root)
    (hhuge : NotHuge s.mem root virt) (hfresh : FreshPages s root 3)
    (hmap : s.vmmMapPage root virt phys flg = some s') :
    PageTree s' root ∧ NotHuge s'.mem root virt ∧ (∃ pt, tableAt s'.mem root 3 virt = some pt ∧
        s'.mem pt (idxAt 3 virt) = pageBase phys ||| flg ||| 1) ∧
      ∀ b, ¬ SamePath 4 virt b → translate s'.mem root b = translate s.mem root b := by
  unfold VmmState.vmmMapPage at hmap
  split at hmap
  · cases hmap
  rename_i s1 pdpt h1
  split at hmap
  · cases hmap
  rename_i s2 pd h2
  split at hmap
  · cases hmap
  rename_i s3 pt h3
  obtain rfl := Option.some.inj hmap
  have d1 := nextPdpt_descends htree hhuge hfresh h1
  have d2 := nextTable_descends (n := 1) d1.tree (by omega) d1.notHuge d1.fresh d1.table h2
  have d3 := nextTable_descends (n := 2) d2.tree (by omega) d2.notHuge d2.fresh d2.table h3
  have hown := d3.tree.distinct virt
  have htables := fun m (hm : m ≤ 3) b =>
    hown.setLeaf_tableAt d3.table (pageBase phys ||| flg ||| 1) hm b
  refine ⟨⟨fun a => hown.setLeaf d3.table _ (d3.tree.distinct a), fun hne m hm b => ?_⟩,
    hown.setLeaf_notHuge d3.table _ d3.notHuge, ⟨pt, ?_, ?_⟩, fun b hb => ?_⟩
  · intro heq
    exact d3.tree.kernel hne m hm b ((htables m hm b).symm.trans heq)
  · exact (htables 3 le_rfl virt).trans d3.table
  · change setEntry s3.mem pt (idxAt 3 virt) _ pt (idxAt 3 virt) = _
    rw [setEntry_apply, if_pos ⟨rfl, rfl⟩]
  calc translate (setEntry s3.mem pt (idxAt 3 virt) (pageBase phys ||| flg ||| 1)) root b
      = translate s3.mem root b := hown.setEntry_translate (n := 3) le_rfl d3.table _ hb
    _ = translate s2.mem root b := d3.translate b
    _ = translate s1.mem root b := d2.translate b
    _ = translate s.mem root b := d1.translate b

end Map

/-! ## Tables that become empty -/

/-- The rounds of `vmm_unmap_page` after the leaf is cleared: as long as table `c` is empty, clear
the entry that leads to it and go on with the table that held it.  Gives the memory and the tables
that were returned. -/
def reclaimFrom (mem : TableMem) (c : Nat) : List (Nat × Nat) → TableMem × List Nat
  | [] => (mem, [])
  | (p, i) :: rest =>
    if isTableEmpty mem c then
      let r := reclaimFrom (setEntry mem p i 0) p rest
      (r.1, c :: r.2)
    else (mem, [])

theorem reclaim_eq (s : VmmState) (root virt pdpt pd pt : Nat) :
    let r := reclaimFrom s.mem pt [(pd, pdIdx virt), (pdpt, pdptIdx virt), (root, pml4Idx virt)]
    (s.reclaim root virt pdpt pd pt).mem = r.1 ∧
      (s.reclaim root virt pdpt pd pt).pmm = r.2.foldl (fun pmm t => pmmFfree pmm t 1) s.pmm := by
  unfold reclaim reclaimFrom reclaimFrom reclaimFrom reclaimFrom
  cases hpt : isTableEmpty s.mem pt with
  | false => simp
  | true =>
    cases hpd : isTableEmpty (setEntry s.mem pd (pdIdx virt) 0) pd with
    | false =>
      simp [hpd]
      rfl
    | true =>
      cases hpdpt : isTableEmpty (setEntry (setEntry s.mem pd (pdIdx virt) 0) pdpt
          (pdptIdx virt) 0) pdpt with
      | false =>
        simp [hpd, hpdpt]
        rfl
      | true =>
        simp [hpd, hpdpt]
        rfl

variable {t c : Nat} {mem : TableMem} {l : List (Nat × Nat)}

theorem isTableEmpty_congr {mem' : TableMem} (h : mem' t = mem t) :
    isTableEmpty mem' t = isTableEmpty mem t := by
  unfold isTableEmpty
  rw [h]

theorem setEntry_table_of_ne (mem : TableMem) {u : Nat} (h : u ≠ t) (i e : Nat) :
    setEntry mem t i e u = mem u := Function.update_of_ne h _ _

theorem reclaimFrom_of_notMem (ht : t ∉ l.map Prod.fst) : (reclaimFrom mem c l).1 t = mem t := by
  induction l generalizing mem c with
  | nil => rfl
  | cons q rest ih =>
    rw [map_cons, mem_cons, not_or] at ht
    unfold reclaimFrom
    split
    · rw [ih ht.2, setEntry_table_of_ne _ ht.1]
    · rfl

/-- Returned are the tables of the chain that are empty in the end; those above the first were not
before. -/
theorem mem_reclaimFrom (hnodup : (c :: l.map Prod.fst).Nodup)
    (hfull : ∀ t ∈ l.map Prod.fst, isTableEmpty mem t = false) (t : Nat) :
    t ∈ (reclaimFrom mem c l).2 ↔ t ∈ (c :: l.map Prod.fst).dropLast ∧
      isTableEmpty (reclaimFrom mem c l).1 t = true := by
  induction l generalizing mem c with
  | nil => exact iff_of_false (not_mem_nil) (fun h => not_mem_nil h.1)
  | cons q rest ih =>
    obtain ⟨p, i⟩ := q
    rw [map_cons] at hnodup hfull ⊢
    have hc : c ∉ p :: rest.map Prod.fst := (nodup_cons.1 hnodup).1
    have hrest := (nodup_cons.1 hnodup).2
    rw [dropLast_cons_of_ne_nil (cons_ne_nil _ _), mem_cons]
    unfold reclaimFrom
    split
    · rename_i hempty
      have hfull' : ∀ u ∈ rest.map Prod.fst, isTableEmpty (setEntry mem p i 0) u = false := by
        intro u hu
        have hup : u ≠ p := fun h => (nodup_cons.1 hrest).1 (h ▸ hu)
        rw [isTableEmpty_congr (setEntry_table_of_ne mem hup i 0)]
        exact hfull u (mem_cons_of_mem _ hu)
      have hkept : isTableEmpty (reclaimFrom (setEntry mem p i 0) p rest).1 c = true := by
        rw [isTableEmpty_congr (reclaimFrom_of_notMem (fun h => hc (mem_cons_of_mem _ h))),
          isTableEmpty_congr (setEntry_table_of_ne mem (ne_of_not_mem_cons hc) i 0)]
        exact hempty
      rw [mem_cons, ih hrest hfull']
      constructor
      · rintro (rfl | ⟨hmem, hend⟩)
        · exact ⟨Or.inl rfl, hkept⟩
        · exact ⟨Or.inr hmem, hend⟩
      · rintro ⟨rfl | hmem, hend⟩
        · exact Or.inl rfl
        · exact Or.inr ⟨hmem, hend⟩
    · rename_i hempty
      refine iff_of_false not_mem_nil ?_
      rintro ⟨rfl | hmem, hend⟩
      · exact hempty hend
      · rw [hfull t (mem_of_mem_dropLast hmem)] at hend
        exact Bool.false_ne_true hend

theorem nodup_reclaimFrom (hnodup : (c :: l.map Prod.fst).Nodup) :
    (reclaimFrom mem c l).2.Nodup := by
  have hsub : ∀ (l : List (Nat × Nat)) (mem : TableMem) (c : Nat),
      (reclaimFrom mem c l).2 ⊆ c :: l.map Prod.fst := by
    intro l
    induction l with
    | nil => exact fun _ _ => nil_subset _
    | cons q rest ih =>
      intro mem c
      unfold reclaimFrom
      split
      · exact cons_subset_cons _ (ih _ _)
      · exact nil_subset _
  induction l generalizing mem c with
  | nil => exact nodup_nil
  | cons q rest ih =>
    unfold reclaimFrom
    split
    · refine nodup_cons.2 ⟨fun h => ?_, ih (nodup_cons.1 hnodup).2⟩
      exact (nodup_cons.1 hnodup).1 (hsub _ _ _ h)
    · exact nodup_nil

/-- A table below the root that had an entry and has none any more. -/
structure BecameEmpty (mem mem' : TableMem) (root t : Nat) : Prop where
  inner : ∃ n a, 1 ≤ n ∧ n ≤ 3 ∧ tableAt mem root n a = some t
  before : ∃ i < 512, mem t i ≠ 0
  after : ∀ i < 512, mem' t i = 0

section Unmap

variable {s : VmmState} {root virt : Nat}

/-- `vmm_unmap_page` of a mapped page, with the tables of its walk. -/
theorem vmmUnmapPage_eq {pdpt pd pt flags : Nat} (h1 : tableAt s.mem root 1 virt = some pdpt)
    (h2 : tableAt s.mem root 2 virt = some pd) (h3 : tableAt s.mem root 3 virt = some pt) :
    s.vmmUnmapPage root virt flags = s.unmapAt root virt flags pdpt pd pt := by
  obtain ⟨_, hu1, hp1, hb1⟩ := tableAt_above h1
  obtain ⟨_, hu2, hp2, hb2⟩ := tableAt_above h2
  obtain ⟨_, hu3, hp3, hb3⟩ := tableAt_above h3
  obtain rfl := Option.some.inj hu1
  obtain rfl := Option.some.inj (h1.symm.trans hu2)
  obtain rfl := Option.some.inj (h2.symm.trans hu3)
  have hidx : pml4Idx virt = idxAt 0 virt ∧ pdptIdx virt = idxAt 1 virt ∧
      pdIdx virt = idxAt 2 virt := ⟨rfl, rfl, rfl⟩
  unfold vmmUnmapPage
  dsimp only
  rw [hidx.1, hidx.2.1, hidx.2.2, hb1, hb2, hb3, hp1, hp2, hp3, if_neg (by decide)]

/-- For a page of the lower half the tables that become empty are returned, and no others. -/
theorem vmmUnmapPage_returns {pt : Nat} (hown : ∀ a, Own s.mem root a)
    (hlow : pml4Idx virt < 256) (h3 : tableAt s.mem root 3 virt = some pt)
    (hleaf : s.mem pt (idxAt 3 virt) ≠ 0) :
    ∃ freed : List Nat, freed.Nodup ∧
      (s.vmmUnmapPage root virt 1).pmm = freed.foldl (fun pmm t => pmmFfree pmm t 1) s.pmm ∧
      ∀ t, t ∈ freed ↔ BecameEmpty s.mem (s.vmmUnmapPage root virt 1).mem root t := by
  obtain ⟨pd, h2, hp2, -⟩ := tableAt_above h3
  obtain ⟨pdpt, h1, hp1, -⟩ := tableAt_above h2
  have hv := hown virt
  -- the tables of the path are four different ones
  have hne : ∀ {m n t u}, n < m ∧ m ≤ 3 → tableAt s.mem root m virt = some t →
      tableAt s.mem root n virt = some u → t ≠ u := by
    rintro m n t u hmn ht hu rfl
    have := (hv m hmn.2 n (by omega) virt t ht hu).1
    omega
  have hroot : tableAt s.mem root 0 virt = some root := rfl
  have hnodup : (pt :: [pd, pdpt, root]).Nodup := by
    simp only [nodup_cons, mem_cons, not_mem_nil, or_false, not_or,
      nodup_nil, and_true, not_false_eq_true]
    exact ⟨⟨hne (by omega) h3 h2,
      hne (by omega) h3 h1,
      hne (by omega) h3 hroot⟩,
      ⟨hne (by omega) h2 h1,
      hne (by omega) h2 hroot⟩,
      hne (by omega) h1 hroot⟩
  -- the memory with the leaf cleared, and what the rounds make of it
  generalize hmem : setEntry s.mem pt (ptIdx virt) 0 = mem
  have hsame : ∀ t, t ≠ pt → mem t = s.mem t := by
    intro t ht
    rw [← hmem]
    exact setEntry_table_of_ne s.mem ht _ _
  have hentry : ∀ n t, n ≤ 2 → tableAt s.mem root n virt = some t →
      present (s.mem t (idxAt n virt)) = true → isTableEmpty mem t = false := by
    intro n t hn ht hp
    rw [isTableEmpty_congr (hsame t (hne (by omega) h3 ht).symm)]
    apply Bool.eq_false_of_not_eq_true
    intro hempty
    rw [isTableEmpty_iff.1 hempty _ (idxAt_lt n virt)] at hp
    cases hp
  obtain ⟨_, hr, hp0, -⟩ := tableAt_above h1
  obtain rfl := Option.some.inj hr
  have hfull : ∀ t ∈ [pd, pdpt, root], isTableEmpty mem t = false := by
    simp only [mem_cons, not_mem_nil, or_false, forall_eq_or_imp, forall_eq]
    exact ⟨hentry 2 pd le_rfl h2 hp2, hentry 1 pdpt (by omega) h1 hp1,
      hentry 0 root (by omega) rfl hp0⟩
  generalize hl : [(pd, pdIdx virt), (pdpt, pdptIdx virt), (root, pml4Idx virt)] = l
  have hfst : l.map Prod.fst = [pd, pdpt, root] := by
    rw [← hl]
    rfl
  obtain ⟨hmem', hpmm'⟩ : (s.vmmUnmapPage root virt 1).mem = (reclaimFrom mem pt l).1 ∧
      (s.vmmUnmapPage root virt 1).pmm =
        (reclaimFrom mem pt l).2.foldl (fun pmm t => pmmFfree pmm t 1) s.pmm := by
    rw [vmmUnmapPage_eq h1 h2 h3]
    unfold unmapAt
    rw [if_neg (by omega)]
    have hdrop : (s.withMem (setEntry s.mem pt (ptIdx virt) 0)).dropFrame 1
        (pageBase (s.mem pt (ptIdx virt))) = s.withMem mem := by
      rw [hmem]
      exact if_pos rfl
    rw [hdrop, ← hl]
    exact reclaim_eq (s.withMem mem) root virt pdpt pd pt
  refine ⟨(reclaimFrom mem pt l).2, nodup_reclaimFrom (by rw [hfst]; exact hnodup), hpmm', ?_⟩
  intro t
  rw [hmem', mem_reclaimFrom (by rw [hfst]; exact hnodup) (by rw [hfst]; exact hfull), hfst,
    isTableEmpty_iff]
  change t ∈ [pt, pd, pdpt] ∧ _ ↔ _
  simp only [mem_cons, not_mem_nil, or_false]
  constructor
  · rintro ⟨hpath, hempty⟩
    obtain ⟨n, hn, ht, hentry⟩ : ∃ n, (1 ≤ n ∧ n ≤ 3) ∧ tableAt s.mem root n virt = some t ∧
        s.mem t (idxAt n virt) ≠ 0 := by
      have hnz : ∀ e : Nat, present e = true → e ≠ 0 := by
        rintro _ hp rfl
        cases hp
      rcases hpath with rfl | rfl | rfl
      · exact ⟨3, by omega, h3, hleaf⟩
      · exact ⟨2, by omega, h2, hnz _ hp2⟩
      · exact ⟨1, by omega, h1, hnz _ hp1⟩
    exact ⟨⟨n, virt, hn.1, hn.2, ht⟩, ⟨_, idxAt_lt n virt, hentry⟩, hempty⟩
  · rintro ⟨⟨n, a, hn1, hn3, ht⟩, ⟨i, hi, hbefore⟩, hafter⟩
    refine ⟨?_, hafter⟩
    -- a table off the path keeps its entries, and the root is no inner table
    by_contra hoff
    have hpt : t ≠ pt := fun h => hoff (Or.inl h)
    have htroot : t ≠ root := by
      rintro rfl
      have := (hv 0 (by omega) n hn3 a t rfl ht).1
      omega
    apply hbefore
    rw [← hsame t hpt, ← hafter i hi, reclaimFrom_of_notMem]
    rw [hfst]
    simp only [mem_cons, not_mem_nil, or_false, not_or]
    exact ⟨fun h => hoff (Or.inr (Or.inl h)), fun h => hoff (Or.inr (Or.inr h)), htroot⟩

end Unmap

/-! ## The laws -/

/-- Mapping a page and unmapping it again. -/
theorem map_unmap_laws {s s₁ : VmmState} {root v p f : Nat} (htree : PageTree s root)
    (hhuge : NotHuge s.mem root v) (hfresh : FreshPages s root 3) (hv : v % 4096 = 0)
    (hcanon : Canonical v) (hp : p % 4096 = 0) (hf : f < 0x1000)
    (hmap : s.vmmMapPage root v p f = some s₁) :
    (∀ o < 4096, vmmGetPhys s₁.mem root (v + o) = p + o) ∧
    (∀ b, Canonical b → b / 4096 ≠ v / 4096 →
      vmmGetPhys s₁.mem root b = vmmGetPhys s.mem root b) ∧
    (∀ o < 4096, vmmGetPhys (s₁.vmmUnmapPage root v 1).mem root (v + o) = 0) ∧
    (∀ b, Canonical b → b / 4096 ≠ v / 4096 →
      vmmGetPhys (s₁.vmmUnmapPage root v 1).mem root b = vmmGetPhys s₁.mem root b) ∧
    (v < 2 ^ 47 → ∃ freed : List Nat, freed.Nodup ∧
      (s₁.vmmUnmapPage root v 1).pmm = freed.foldl (fun pmm t => pmmFfree pmm t 1) s₁.pmm ∧
      ∀ t, t ∈ freed ↔ BecameEmpty s₁.mem (s₁.vmmUnmapPage root v 1).mem root t) := by
  obtain ⟨htree₁, hhuge₁, ⟨pt, h3, hleaf⟩, hother⟩ := vmmMapPage_spec htree hhuge hfresh hmap
  obtain ⟨hpresent, hbase⟩ := mapped_leaf hp hf
  have hown := htree₁.distinct v
  refine ⟨fun o ho => ?_, fun b hb hne => ?_, fun o ho => ?_, fun b hb hne => ?_, fun hlow => ?_⟩
  · have hpath : SamePath 4 v (v + o) := samePath_of_page (by omega)
    rw [tableAt_congr (hpath.mono (by omega))] at h3
    obtain ⟨pd, h2, -⟩ := tableAt_above h3
    obtain ⟨pdpt, h1, -⟩ := tableAt_above h2
    rw [hpath 3 (by omega)] at hleaf
    rw [vmmGetPhys_eq, translate_page h1 h2 h3 (by rw [hleaf]; exact hpresent), Option.map_some,
      Option.getD_some, leafPhys_page, hleaf, hbase, show (v + o) % 4096 = o by omega,
      page_or_offset hp ho]
  · exact vmmGetPhys_congr (hother b (not_samePath_of_page_ne hcanon hb hne))
  · rw [vmmGetPhys_eq, vmmUnmapPage_unmaps hown hhuge₁ (samePath_of_page (by omega))]
    rfl
  · exact vmmGetPhys_congr
      (vmmUnmapPage_translate hown hhuge₁ 1 (not_samePath_of_page_ne hcanon hb hne))
  apply vmmUnmapPage_returns htree₁.distinct (by unfold pml4Idx; omega) h3
  rw [hleaf]
  intro hzero
  rw [hzero] at hpresent
  cases hpresent

-- an empty tree with its root in frame 1, and the frames from 2 on free
def emptyTree : VmmState where
  mem _ _ := 0
  cr3 := 4096
  pml4 := 4096
  pmm := ⟨2 ^ 16, 0, 16, 4096, 2, fun f => decide (f < 2)⟩
  regions := ⟨none, fun _ => ⟨0, 0, false, none⟩, fun _ => ⟨0, 0⟩⟩
  pid := 0

theorem emptyTree_tableAt {n a : Nat} (h : tableAt emptyTree.mem 4096 n a = some t) :
    n = 0 ∧ t = 4096 := by
  cases n with
  | zero => exact ⟨rfl, (Option.some.inj h).symm⟩
  | succ n =>
    obtain ⟨u, -, hpresent, -⟩ := tableAt_above h
    exact absurd hpresent (by decide : ¬ present 0 = true)

theorem emptyTree_tree : PageTree emptyTree 4096 := by
  refine ⟨fun a m _ n _ b t hm hn => ?_, fun h => absurd rfl h⟩
  obtain ⟨rfl, -⟩ := emptyTree_tableAt hm
  obtain ⟨rfl, -⟩ := emptyTree_tableAt hn
  exact ⟨rfl, fun k hk => absurd hk (Nat.not_lt_zero k)⟩

theorem emptyTree_fresh : FreshPages emptyTree 4096 3 := by
  have hpage : ∀ j < 3, nextPage emptyTree.pmm j = 4096 * (j + 2) := by decide
  intro j hj _
  rw [hpage j hj]
  refine ⟨by omega, fun n _ a h => ?_, ?_, fun i hi => ?_⟩
  · have := (emptyTree_tableAt h).2
    omega
  · change 4096 * (j + 2) ≠ 4096
    omega
  · rw [hpage i (by omega)]
    omega

/-- A page of the empty tree; its three tables come and go. -/
theorem map_unmap_laws_empty : ∃ s₁, emptyTree.vmmMapPage 4096 0x400000 0x9000 7 = some s₁ ∧
    vmmGetPhys s₁.mem 4096 (0x400000 + 5) = 0x9000 + 5 ∧
    ∃ freed : List Nat, (s₁.vmmUnmapPage 4096 0x400000 1).pmm =
      freed.foldl (fun pmm t => pmmFfree pmm t 1) s₁.pmm := by
  have hsome : (emptyTree.vmmMapPage 4096 0x400000 0x9000 7).isSome = true := by decide
  obtain ⟨s₁, hmap⟩ := Option.isSome_iff_exists.1 hsome
  have hhuge : NotHuge emptyTree.mem 4096 0x400000 := by
    intro e he
    obtain ⟨t, ht, -⟩ := Option.map_eq_some_iff.1 he
    exact absurd (emptyTree_tableAt ht).1 (by decide)
  obtain ⟨hget, -, -, -, hfreed⟩ := map_unmap_laws emptyTree_tree hhuge emptyTree_fresh (by decide)
    (by decide) (by decide) (by decide) hmap
  obtain ⟨freed, -, hpmm, -⟩ := hfreed (by decide)
  exact ⟨s₁, hmap, hget 5 (by decide), freed, hpmm⟩

end VmmState

end Mem
