import RandomOs.Mem.Paging

/-!
# The tree of page tables and what it translates

`tableAt mem root n a` is the table in which the walk for address `a` reads its entry of level `n`,
from the root at level 0 to the page table at level 3.  A tree is separated when a table of the
lower half is reached along one path only.
-/

namespace Mem

/-! ## Walks -/

/-- `PML4_IDX`, `PDPT_IDX`, `PD_IDX` and `PT_IDX` by level. -/
def idxAt (n addr : Nat) : Nat := addr / 2 ^ (39 - 9 * n) % 512

theorem idxAt_lt (n a : Nat) : idxAt n a < 512 := Nat.mod_lt _ (by decide)

/-- The table an entry of level `n` refers to; a 2 MiB leaf refers to none. -/
def linkAt (n e : Nat) : Option Nat :=
  if n = 2 ∧ huge e then none else if present e then some (pageBase e) else none

def tableAt (mem : TableMem) (root : Nat) : Nat → Nat → Option Nat
  | 0, _ => some root
  | n + 1, a => (tableAt mem root n a).bind fun t => linkAt n (mem t (idxAt n a))

def entryAt (mem : TableMem) (root n a : Nat) : Option Nat :=
  (tableAt mem root n a).map fun t => mem t (idxAt n a)

/-- The walk ends in a present leaf. -/
def mapped (mem : TableMem) (root a : Nat) : Bool :=
  match entryAt mem root 3 a with
  | some pte => present pte
  | none =>
    match entryAt mem root 2 a with
    | some pde => present pde && huge pde
    | none => false

/-- The translation of an address with its flags: the entries of all levels down to the leaf. -/
def translate (mem : TableMem) (root a : Nat) : Option (List Nat) :=
  if mapped mem root a then some ((List.range 4).filterMap fun n => entryAt mem root n a) else none

/-- The addresses share the indices of the levels below `n`; for `n = 4` they share the page. -/
def SamePath (n a b : Nat) : Prop := ∀ k < n, idxAt k a = idxAt k b

theorem SamePath.mono {m n a b : Nat} (h : SamePath n a b) (hle : m ≤ n) : SamePath m a b :=
  fun k hk => h k (by omega)

theorem samePath_succ {n a b : Nat} :
    SamePath (n + 1) a b ↔ SamePath n a b ∧ idxAt n a = idxAt n b := by
  constructor
  · intro h
    exact ⟨h.mono (by omega), h n (by omega)⟩
  rintro ⟨h, hn⟩ k hk
  by_cases hkn : k = n
  · rw [hkn]
    exact hn
  · exact h k (by omega)

theorem samePath_of_page {a b : Nat} (h : a / 4096 = b / 4096) : SamePath 4 a b := by
  intro k hk
  obtain rfl | rfl | rfl | rfl : k = 0 ∨ k = 1 ∨ k = 2 ∨ k = 3 := by omega
  all_goals
    unfold idxAt
    omega

instance (n a b : Nat) : Decidable (SamePath n a b) :=
  inferInstanceAs (Decidable (∀ k < n, idxAt k a = idxAt k b))

section Walk

variable {mem mem' : TableMem} {root : Nat}

variable {n a : Nat}

theorem tableAt_congr {b : Nat} (h : SamePath n a b) :
    tableAt mem root n a = tableAt mem root n b := by
  induction n with
  | zero => rfl
  | succ n ih =>
    rw [tableAt, tableAt, ih (h.mono (by omega)), h n (by omega)]

theorem tableAt_succ (n a : Nat) :
    tableAt mem root (n + 1) a = (entryAt mem root n a).bind (linkAt n) := by
  rw [entryAt, Option.bind_map]
  rfl

theorem entryAt_of_tableAt {t : Nat} (h : tableAt mem root n a = some t) :
    entryAt mem root n a = some (mem t (idxAt n a)) := by
  rw [entryAt, h, Option.map_some]

-- a walk depends on the entries that it reads
theorem tableAt_of_reads (h : ∀ m < n, ∀ u, tableAt mem root m a = some u →
    mem' u (idxAt m a) = mem u (idxAt m a)) : tableAt mem' root n a = tableAt mem root n a := by
  induction n with
  | zero => rfl
  | succ n ih =>
    rw [tableAt, tableAt, ih fun m hm => h m (by omega)]
    cases hu : tableAt mem root n a with
    | none => rfl
    | some u => rw [Option.bind_some, Option.bind_some, h n (by omega) u hu]

-- a table was reached through the tables above it
theorem tableAt_above {t : Nat} (h : tableAt mem root (n + 1) a = some t) :
    ∃ u, tableAt mem root n a = some u ∧ present (mem u (idxAt n a)) = true ∧
      pageBase (mem u (idxAt n a)) = t := by
  obtain ⟨u, hu, hlink⟩ := Option.bind_eq_some_iff.mp h
  unfold linkAt at hlink
  split at hlink
  · cases hlink
  · split at hlink
    · rename_i hpresent
      exact ⟨u, hu, hpresent, Option.some.inj hlink⟩
    · cases hlink

theorem entryAt_of_reads (h : ∀ m ≤ n, ∀ u, tableAt mem root m a = some u →
    mem' u (idxAt m a) = mem u (idxAt m a)) : entryAt mem' root n a = entryAt mem root n a := by
  rw [entryAt, entryAt, tableAt_of_reads fun m hm => h m (by omega)]
  cases hu : tableAt mem root n a with
  | none => rfl
  | some u => rw [Option.map_some, Option.map_some, h n le_rfl u hu]

-- a walk that has ended stays ended
theorem tableAt_eq_none_of_le {m : Nat} (h : tableAt mem root m a = none) (hle : m ≤ n) :
    tableAt mem root n a = none := by
  induction n with
  | zero =>
    rw [show m = 0 by omega] at h
    exact h
  | succ n ih =>
    by_cases hmn : m = n + 1
    · rw [← hmn]
      exact h
    · rw [tableAt, ih (by omega), Option.bind_none]

theorem linkAt_of_not_present {e : Nat} (h : present e = false) : linkAt n e = none := by
  simp [linkAt, h]

theorem translate_congr (h : ∀ n ≤ 3, entryAt mem' root n a = entryAt mem root n a) :
    translate mem' root a = translate mem root a := by
  have hmapped : mapped mem' root a = mapped mem root a := by
    rw [mapped, mapped, h 3 (by omega), h 2 (by omega)]
  have hentries : (List.range 4).filterMap (fun n => entryAt mem' root n a) =
      (List.range 4).filterMap fun n => entryAt mem root n a := by
    apply List.filterMap_congr
    intro n hn
    exact h n (by have := List.mem_range.mp hn; omega)
  rw [translate, translate, hmapped, hentries]

-- an entry that is not present ends the walk without a leaf
theorem translate_eq_none {e : Nat} (hn : n ≤ 3) (he : entryAt mem root n a = some e)
    (hp : present e = false) : translate mem root a = none := by
  have hmapped : mapped mem root a = false := by
    by_cases h3 : n = 3
    · subst h3
      rw [mapped, he]
      exact hp
    have htable : tableAt mem root (n + 1) a = none := by
      rw [tableAt_succ, he, Option.bind_some, linkAt_of_not_present hp]
    have hpt : entryAt mem root 3 a = none := by
      rw [entryAt, tableAt_eq_none_of_le htable (by omega), Option.map_none]
    by_cases h2 : n = 2
    · subst h2
      rw [mapped, hpt, he]
      simp [hp]
    · have hpd : entryAt mem root 2 a = none := by
        rw [entryAt, tableAt_eq_none_of_le htable (by omega), Option.map_none]
      rw [mapped, hpt, hpd]
  rw [translate, hmapped]
  rfl

end Walk

/-! ## Writes -/

def setEntry (mem : TableMem) (t i e : Nat) : TableMem :=
  Function.update mem t (Function.update (mem t) i e)

/-- `memset(table, 0, 4096)`. -/
def zeroTable (mem : TableMem) (t : Nat) : TableMem := Function.update mem t fun _ => 0

theorem setEntry_apply (mem : TableMem) (t i e t' i' : Nat) :
    setEntry mem t i e t' i' = if t' = t ∧ i' = i then e else mem t' i' := by
  by_cases ht : t' = t
  · subst ht
    by_cases hi : i' = i
    · simp [setEntry, hi]
    · simp [setEntry, hi]
  · simp [setEntry, ht]

theorem zeroTable_apply (mem : TableMem) (t t' i' : Nat) :
    zeroTable mem t t' i' = if t' = t then 0 else mem t' i' := by
  by_cases ht : t' = t
  · simp [zeroTable, ht]
  · simp [zeroTable, ht]

/-- The tables on the path of `a` are reached along that path only. -/
def Own (mem : TableMem) (root a : Nat) : Prop :=
  ∀ m ≤ 3, ∀ n ≤ 3, ∀ b t, tableAt mem root m a = some t → tableAt mem root n b = some t →
    m = n ∧ SamePath m a b

/-- No walk uses the table at `f`. -/
def Unlinked (mem : TableMem) (root f : Nat) : Prop :=
  ∀ n ≤ 3, ∀ a, tableAt mem root n a ≠ some f

/-- The entry of the page directory for `a` is no 2 MiB leaf. -/
def NotHuge (mem : TableMem) (root a : Nat) : Prop :=
  ∀ e, entryAt mem root 2 a = some e → present e = true → huge e = false

section Own

variable {mem mem' : TableMem} {root a n t : Nat}

variable {m b u f : Nat}

-- the walk for an address on another path does not read the entry for `a` of level `n`
theorem Own.setEntry_apply_of_not_samePath (hown : Own mem root a) (hn : n ≤ 3)
    (ht : tableAt mem root n a = some t) (e : Nat) (hpath : ¬ SamePath (n + 1) a b) (hm : m ≤ 3)
    (hu : tableAt mem root m b = some u) :
    setEntry mem t (idxAt n a) e u (idxAt m b) = mem u (idxAt m b) := by
  rw [setEntry_apply, if_neg]
  rintro ⟨rfl, hidx⟩
  obtain ⟨rfl, hsame⟩ := hown n hn m hm b u ht hu
  exact hpath (samePath_succ.mpr ⟨hsame, hidx.symm⟩)

theorem Own.setEntry_translate (hown : Own mem root a) (hn : n ≤ 3)
    (ht : tableAt mem root n a = some t) (e : Nat) (hpath : ¬ SamePath (n + 1) a b) :
    translate (setEntry mem t (idxAt n a) e) root b = translate mem root b := by
  refine translate_congr fun m hm => entryAt_of_reads fun k hk u hu => ?_
  exact hown.setEntry_apply_of_not_samePath hn ht e hpath (by omega) hu

section

variable (hown : Own mem root a) (ht : tableAt mem root 3 a = some t)

include hown ht

-- a write to the page table leaves all tables where they are
theorem Own.setLeaf_tableAt (e : Nat) (hm : m ≤ 3) (b : Nat) :
    tableAt (setEntry mem t (idxAt 3 a) e) root m b = tableAt mem root m b := by
  refine tableAt_of_reads fun k hk u hu => ?_
  rw [setEntry_apply, if_neg]
  -- `t` is a table of level 3, so the walk does not read it on the way
  rintro ⟨rfl, -⟩
  have := (hown 3 (by omega) k (by omega) b u ht hu).1
  omega

theorem Own.setLeaf (e : Nat) {c : Nat}
    (hc : Own mem root c) : Own (setEntry mem t (idxAt 3 a) e) root c := by
  have htables := fun m (hm : m ≤ 3) b => hown.setLeaf_tableAt ht e hm b
  intro m hm n hn b u hu hu'
  rw [htables m hm] at hu
  rw [htables n hn] at hu'
  exact hc m hm n hn b u hu hu'

theorem Own.setLeaf_notHuge (e : Nat)
    (hb : NotHuge mem root b) : NotHuge (setEntry mem t (idxAt 3 a) e) root b := by
  intro e' he'
  apply hb e'
  rw [← he']
  refine (entryAt_of_reads fun k hk u hu => ?_).symm
  rw [setEntry_apply, if_neg]
  rintro ⟨rfl, -⟩
  have := (hown 3 (by omega) k (by omega) b u ht hu).1
  omega

end

-- a write to a table that no walk uses
theorem Unlinked.setEntry_tableAt (hu : Unlinked mem root u) (i e : Nat) (hm : m ≤ 3) (b : Nat) :
    tableAt (setEntry mem u i e) root m b = tableAt mem root m b := by
  refine tableAt_of_reads fun k hk v hv => ?_
  rw [setEntry_apply, if_neg]
  rintro ⟨rfl, -⟩
  exact hu k (by omega) b hv

theorem Unlinked.setEntry_entryAt (hu : Unlinked mem root u) (i e : Nat) (hm : m ≤ 3) (b : Nat) :
    entryAt (setEntry mem u i e) root m b = entryAt mem root m b := by
  refine entryAt_of_reads fun k hk v hv => ?_
  rw [setEntry_apply, if_neg]
  rintro ⟨rfl, -⟩
  exact hu k (by omega) b hv

/-! ### Linking a new table -/

/-- The entry of a table allocated at `f`: present, writable and open to users. -/
def tableEntry (f : Nat) : Nat := f ||| 7

/-- A zeroed table `f` is linked where the walk for `a` found no table of level `n + 1`. -/
def linkTable (mem : TableMem) (t i f : Nat) : TableMem :=
  setEntry (zeroTable mem f) t i (tableEntry f)

theorem tableEntry_aligned (hf : f % 4096 = 0) :
    tableEntry f = f + 7 ∧ present (tableEntry f) = true ∧ huge (tableEntry f) = false ∧
      pageBase (tableEntry f) = f := by
  have hor : tableEntry f = f + 7 := by
    have hsplit : f = f / 8 * 2 ^ 3 := by omega
    rw [tableEntry, hsplit, Nat.mul_comm, ← Nat.two_pow_add_eq_or_of_lt (by decide)]
  refine ⟨hor, ?_, ?_, ?_⟩
  · rw [present]
    simp
    omega
  · rw [huge, Nat.testBit_eq_decide_div_mod_eq]
    simp
    omega
  · rw [pageBase]
    omega

section

variable (hown : Own mem root a) (hn : n ≤ 2) (ht : tableAt mem root n a = some t)
  (habsent : present (mem t (idxAt n a)) = false) (hf : f % 4096 = 0) (hfresh : Unlinked mem root f)

include hown hn ht habsent hf hfresh

theorem Own.linkTable_tableAt (hm : m ≤ 3) (b : Nat) :
    tableAt (linkTable mem t (idxAt n a) f) root m b =
      if m = n + 1 ∧ SamePath (n + 1) a b then some f else tableAt mem root m b := by
  obtain ⟨-, hpres, hhuge, hbase⟩ := tableEntry_aligned hf
  have htf : f ≠ t := fun h => hfresh n (by omega) a (h ▸ ht)
  induction m with
  | zero => rw [if_neg (fun h => by omega)]; rfl
  | succ m ih =>
    rw [tableAt, ih (by omega)]
    by_cases hnew : m = n + 1 ∧ SamePath (n + 1) a b
    · -- below the new table the walk finds zeroes, where before it had ended one level up
      rw [if_pos hnew, if_neg (fun h => by omega), Option.bind_some, linkTable, setEntry_apply,
        if_neg (fun h => htf h.1), zeroTable_apply, if_pos rfl]
      have hold : tableAt mem root (n + 1) b = none := by
        rw [← tableAt_congr hnew.2, tableAt, ht, Option.bind_some, linkAt_of_not_present habsent]
      rw [tableAt_eq_none_of_le hold (by omega)]
      exact linkAt_of_not_present rfl
    · rw [if_neg hnew, tableAt]
      cases hu : tableAt mem root m b with
      | none =>
        rw [Option.bind_none, if_neg, Option.bind_none]
        rintro ⟨hmn, hpath⟩
        rw [show m = n by omega, ← tableAt_congr (hpath.mono (by omega)), ht] at hu
        cases hu
      | some u =>
        have huf : u ≠ f := fun h => hfresh m (by omega) b (h ▸ hu)
        rw [Option.bind_some, Option.bind_some, linkTable, setEntry_apply]
        by_cases hslot : u = t ∧ idxAt m b = idxAt n a
        · obtain ⟨rfl, hidx⟩ := hslot
          obtain ⟨rfl, hpath⟩ := hown n (by omega) m (by omega) b u ht hu
          rw [if_pos ⟨rfl, hidx⟩, if_pos ⟨rfl, samePath_succ.mpr ⟨hpath, hidx.symm⟩⟩, linkAt,
            hhuge, hpres, hbase]
          simp
        · rw [if_neg hslot, zeroTable_apply, if_neg huf, if_neg]
          rintro ⟨hmn, hpath⟩
          obtain rfl : m = n := by omega
          rw [← tableAt_congr (hpath.mono (by omega)), ht] at hu
          exact hslot ⟨(Option.some.inj hu).symm, (hpath m (by omega)).symm⟩

-- linking an empty table maps nothing and unmaps nothing
theorem Own.linkTable_translate (b : Nat) :
    translate (linkTable mem t (idxAt n a) f) root b = translate mem root b := by
  have htables := fun m (hm : m ≤ 3) =>
    hown.linkTable_tableAt hn ht habsent hf hfresh hm b
  have htf : f ≠ t := fun h => hfresh n (by omega) a (h ▸ ht)
  by_cases hpath : SamePath (n + 1) a b
  · have hold : translate mem root b = none := by
      apply translate_eq_none (n := n) (by omega) _ habsent
      rw [entryAt, ← tableAt_congr (hpath.mono (by omega)), ht, Option.map_some,
        hpath n (by omega)]
    have hnew : translate (linkTable mem t (idxAt n a) f) root b = none := by
      apply translate_eq_none (n := n + 1) (e := 0) (by omega) _ rfl
      rw [entryAt, htables (n + 1) (by omega), if_pos ⟨rfl, hpath⟩, Option.map_some, linkTable,
        setEntry_apply, if_neg (fun h => htf h.1), zeroTable_apply, if_pos rfl]
    rw [hold, hnew]
  · refine translate_congr fun m hm => entryAt_of_reads fun k hk u hu => ?_
    have huf : u ≠ f := fun h => hfresh k (by omega) b (h ▸ hu)
    rw [linkTable, setEntry_apply, if_neg, zeroTable_apply, if_neg huf]
    rintro ⟨rfl, hidx⟩
    obtain ⟨rfl, hsame⟩ := hown n (by omega) k (by omega) b u ht hu
    exact hpath (samePath_succ.mpr ⟨hsame, hidx.symm⟩)

theorem Own.linkTable {d : Nat} (hd : Own mem root d) :
    Own (linkTable mem t (idxAt n a) f) root d := by
  have htables := fun m (hm : m ≤ 3) => hown.linkTable_tableAt hn ht habsent hf hfresh hm
  intro m hm k hk c u hu hu'
  rw [htables m hm] at hu
  rw [htables k hk] at hu'
  split_ifs at hu with hnew
  · obtain rfl := Option.some.inj hu
    split_ifs at hu' with hnew'
    · refine ⟨by omega, fun j hj => ?_⟩
      rw [← hnew.2 j (by omega), hnew'.2 j (by omega)]
    · exact absurd hu' (hfresh k hk c)
  · split_ifs at hu' with hnew'
    · obtain rfl := Option.some.inj hu'
      exact absurd hu (hfresh m hm d)
    · exact hd m hm k hk c u hu hu'

theorem Own.linkTable_notHuge (hb : NotHuge mem root b) :
    NotHuge (Mem.linkTable mem t (idxAt n a) f) root b := by
  have htf : f ≠ t := fun h => hfresh n (by omega) a (h ▸ ht)
  intro e he hp
  rw [entryAt, hown.linkTable_tableAt hn ht habsent hf hfresh (by omega)] at he
  split_ifs at he with hnew
  · rw [Option.map_some, Mem.linkTable, setEntry_apply, if_neg (fun h => htf h.1),
      zeroTable_apply, if_pos rfl] at he
    obtain rfl := Option.some.inj he
    cases hp
  · obtain ⟨u, hu, rfl⟩ := Option.map_eq_some_iff.mp he
    have huf : u ≠ f := fun h => hfresh 2 (by omega) b (h ▸ hu)
    rw [Mem.linkTable, setEntry_apply] at hp ⊢
    split_ifs at hp ⊢ with hslot
    · exact (tableEntry_aligned hf).2.2.1
    · rw [zeroTable_apply, if_neg huf] at hp ⊢
      exact hb _ (entryAt_of_tableAt hu) hp

end

theorem Own.linkTable_unlinked (hown : Own mem root a) (hn : n ≤ 2)
    (ht : tableAt mem root n a = some t) (habsent : present (mem t (idxAt n a)) = false) {g : Nat}
    (hf : f % 4096 = 0) (hfresh : Unlinked mem root f) (hg : Unlinked mem root g) (hne : g ≠ f) :
    Unlinked (Mem.linkTable mem t (idxAt n a) f) root g := by
  intro m hm b
  rw [hown.linkTable_tableAt hn ht habsent hf hfresh hm]
  split
  · intro h
    exact hne (Option.some.inj h).symm
  · exact hg m hm b

/-! ### Clearing entries -/

/-- Every entry is kept or cleared. -/
def Shrinks (mem' mem : TableMem) : Prop := ∀ t i, mem' t i = mem t i ∨ mem' t i = 0

theorem Shrinks.refl (mem : TableMem) : Shrinks mem mem := fun _ _ => Or.inl rfl

theorem Shrinks.trans {mem'' : TableMem} (h : Shrinks mem'' mem') (h' : Shrinks mem' mem) :
    Shrinks mem'' mem := by
  intro t i
  rcases h t i with heq | hzero
  · rw [heq]
    exact h' t i
  · exact Or.inr hzero

theorem shrinks_setEntry (mem : TableMem) (t i : Nat) : Shrinks (setEntry mem t i 0) mem := by
  intro t' i'
  rw [setEntry_apply]
  split
  · exact Or.inr rfl
  · exact Or.inl rfl

-- the entries a shrunk tree still follows are the old ones
theorem Shrinks.tableAt_eq (h : Shrinks mem' mem) (hu : tableAt mem' root m b = some u) :
    tableAt mem root m b = some u := by
  induction m generalizing u with
  | zero => exact hu
  | succ m ih =>
    rw [tableAt] at hu ⊢
    obtain ⟨v, hv, hlink⟩ := Option.bind_eq_some_iff.mp hu
    rw [ih hv, Option.bind_some]
    rcases h v (idxAt m b) with heq | hzero
    · rwa [← heq]
    · rw [hzero, linkAt_of_not_present rfl] at hlink
      cases hlink

theorem Shrinks.own (h : Shrinks mem' mem) (hown : Own mem root a) : Own mem' root a :=
  fun m hm n hn b u hu hu' => hown m hm n hn b u (h.tableAt_eq hu) (h.tableAt_eq hu')

-- no address becomes mapped
theorem Shrinks.translate_eq_none (h : Shrinks mem' mem) (hb : translate mem root b = none) :
    translate mem' root b = none := by
  by_contra hnew
  have hmapped' : mapped mem' root b = true := by
    by_contra hm
    exact hnew (if_neg hm)
  have hmapped : mapped mem root b = false := by
    by_contra hm
    rw [translate, if_pos (by simpa using hm)] at hb
    cases hb
  -- a present entry has not been cleared
  have hkeep : ∀ k e, entryAt mem' root k b = some e → present e = true →
      entryAt mem root k b = some e := by
    intro k e he hp
    obtain ⟨u, hu, rfl⟩ := Option.map_eq_some_iff.mp he
    rw [entryAt_of_tableAt (h.tableAt_eq hu)]
    rcases h u (idxAt k b) with heq | hzero
    · rw [heq]
    · rw [hzero] at hp
      cases hp
  unfold mapped at hmapped'
  split at hmapped'
  · rename_i pte hpte
    rw [mapped, hkeep 3 pte hpte hmapped'] at hmapped
    simp only at hmapped
    rw [hmapped'] at hmapped
    cases hmapped
  · split at hmapped'
    · rename_i pde hpde
      simp only [Bool.and_eq_true] at hmapped'
      have hold := hkeep 2 pde hpde hmapped'.1
      have hpt : entryAt mem root 3 b = none := by
        rw [entryAt, tableAt_succ, hold, Option.bind_some, linkAt, if_pos ⟨rfl, hmapped'.2⟩,
          Option.map_none]
      rw [mapped, hpt, hold] at hmapped
      simp [hmapped'] at hmapped
    · cases hmapped'

theorem Own.unlink_translate (hown : Own mem root a) (hn : n ≤ 2)
    (ht : tableAt mem root n a = some t) {c : Nat}
    (hc : tableAt mem root (n + 1) a = some c) (hempty : ∀ i < 512, mem c i = 0) (b : Nat) :
    translate (setEntry mem t (idxAt n a) 0) root b = translate mem root b := by
  have hshrinks := shrinks_setEntry mem t (idxAt n a)
  by_cases hpath : SamePath (n + 1) a b
  · have hold : translate mem root b = none := by
      apply Mem.translate_eq_none (n := n + 1) (e := 0) (by omega) _ rfl
      rw [entryAt, ← tableAt_congr hpath, hc, Option.map_some, hempty]
      exact idxAt_lt _ _
    rw [hold, hshrinks.translate_eq_none hold]
  · exact hown.setEntry_translate (by omega) ht 0 hpath

end Own

/-! ## Trees whose lower half is not shared -/

/-- A table of the lower half, or the root, is reached along one path only, and no entry of a lower
page directory is a 2 MiB leaf. -/
structure Separated (mem : TableMem) (root : Nat) : Prop where
  unique : ∀ m ≤ 3, ∀ n ≤ 3, ∀ a b t, (m = 0 ∨ idxAt 0 a < 256) → tableAt mem root m a = some t →
    tableAt mem root n b = some t → m = n ∧ SamePath m a b
  notHuge : ∀ a, idxAt 0 a < 256 → ∀ e, entryAt mem root 2 a = some e → present e = true →
    huge e = false

section Separated

variable {mem mem' : TableMem} {root a n t : Nat}

theorem Separated.own (hsep : Separated mem root) (ha : idxAt 0 a < 256) : Own mem root a :=
  fun m hm n hn b u => hsep.unique m hm n hn a b u (Or.inr ha)

theorem separated_of_own (hown : ∀ a, idxAt 0 a < 256 → Own mem root a)
    (hhuge : ∀ a, idxAt 0 a < 256 → NotHuge mem root a) : Separated mem root := by
  refine ⟨fun m hm n hn a b u ha hu hu' => ?_, hhuge⟩
  rcases ha with rfl | ha
  · -- the root is on the path of address 0 too
    have hzero := hown 0 (by decide) 0 hm n hn b u hu hu'
    exact ⟨hzero.1, fun k hk => absurd hk (Nat.not_lt_zero k)⟩
  · exact hown a ha m hm n hn b u hu hu'

theorem Separated.setLeaf (hsep : Separated mem root) (ha : idxAt 0 a < 256)
    (ht : tableAt mem root 3 a = some t) (e : Nat) :
    Separated (setEntry mem t (idxAt 3 a) e) root :=
  separated_of_own (fun _ hc => (hsep.own ha).setLeaf ht e (hsep.own hc))
    (fun b hb => (hsep.own ha).setLeaf_notHuge ht e (hsep.notHuge b hb))

theorem Separated.linkTable (hsep : Separated mem root) (hn : n ≤ 2)
    (ha : idxAt 0 a < 256) (ht : tableAt mem root n a = some t)
    (habsent : present (mem t (idxAt n a)) = false) {f : Nat} (hf : f % 4096 = 0)
    (hfresh : Unlinked mem root f) : Separated (linkTable mem t (idxAt n a) f) root :=
  separated_of_own
    (fun _ hc => (hsep.own ha).linkTable hn ht habsent hf hfresh (hsep.own hc))
    (fun b hb => (hsep.own ha).linkTable_notHuge hn ht habsent hf hfresh (hsep.notHuge b hb))

theorem Shrinks.separated (h : Shrinks mem' mem) (hsep : Separated mem root) :
    Separated mem' root := by
  refine separated_of_own (fun c hc => h.own (hsep.own hc)) fun b hb e he hp => ?_
  obtain ⟨u, hu, rfl⟩ := Option.map_eq_some_iff.mp he
  rcases h u (idxAt 2 b) with heq | hzero
  · rw [heq] at hp ⊢
    exact hsep.notHuge b hb _ (entryAt_of_tableAt (h.tableAt_eq hu)) hp
  · rw [hzero] at hp
    cases hp

end Separated

end Mem
