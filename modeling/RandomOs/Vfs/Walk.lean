import RandomOs.Vfs.Tree

/-!
# What a path means

The components of a path are looked up one after another, and a link stands for the components of
its target.
-/

namespace Vfs

open Kern Lib Lib.Paths Lib.NameTree List Table

/-- The part of a path that the mount resolves. -/
def Mount.relPath (m : Mount) (path : Str) : Str :=
  if m.path.isPrefixOf path then
    let rel := path.drop m.path.length
    if rel.head? = some slash then rel.tail else rel
  else
    path

/-- The components that a link's target stands for. -/
def Mount.targetComps (m : Mount) (target : Str) : List Str :=
  comps slash (if target.head? = some slash then m.relPath target else target)

theorem Mount.relPath_suffix (m : Mount) (path : Str) : m.relPath path <:+ path := by
  unfold Mount.relPath
  split
  · dsimp only
    split
    · exact (tail_suffix _).trans (drop_suffix _ _)
    · exact drop_suffix _ _
  · exact suffix_rfl

theorem Mount.targetComps_eq_nil (m : Mount) {target : Str} (h : comps slash target = []) :
    m.targetComps target = [] := by
  unfold Mount.targetComps
  split
  · rw [comps_eq_nil_iff] at h ⊢
    exact fun x hx => h x ((m.relPath_suffix target).subset hx)
  · exact h

def tooLong (cs : List Str) : Bool := cs.any (VFS_NAME_MAX < ·.length)

section Walk

variable (m : Mount) (fl : Bool)

/-- The components one after another from `cur`.  `next` goes on behind a link; the last component
is followed if `fl` says so. -/
def walkWith (next : Nat → Nat → List Str → Except Stop Nat) : Nat → List Str → Except Stop Nat
  | cur, [] => .ok cur
  | cur, c :: cs =>
    if c = [dot] then
      walkWith next cur cs
    else do
      let nxt ← m.tbl.lookup cur c
      let inod ← m.tbl.getino nxt
      if inod.isLink then
        if cs = [] ∧ fl = false then .ok nxt else next cur nxt cs
      else
        walkWith next nxt cs

/-- The meaning of a path: a link stands for the components of its target, and no more than `k`
links are met. -/
def walk : Nat → Nat → List Str → Except Stop Nat
  | 0 => walkWith m fl fun _ _ _ => .error (.err (-ELOOP))
  | k + 1 => walkWith m fl fun cur link cs => do
      let target ← m.tbl.readsym link VFS_PATH_MAX
      if tooLong (m.targetComps target) then
        .error (.err (-ENAMETOOLONG))
      else
        walk k (if target.head? = some slash then m.rootIno else cur) (m.targetComps target ++ cs)

/-- The directories and names that are looked up on the way. -/
def lookedWith (next : Nat → Nat → List Str → List (Nat × Str)) :
    Nat → List Str → List (Nat × Str)
  | _, [] => []
  | cur, c :: cs =>
    if c = [dot] then
      lookedWith next cur cs
    else
      (cur, c) :: match m.tbl.lookup cur c with
        | .error _ => []
        | .ok nxt =>
          match m.tbl nxt with
          | none => []
          | some inod =>
            if inod.isLink then
              if cs = [] ∧ fl = false then [] else next cur nxt cs
            else
              lookedWith next nxt cs

def looked : Nat → Nat → List Str → List (Nat × Str)
  | 0 => lookedWith m fl fun _ _ _ => []
  | k + 1 => lookedWith m fl fun cur link cs =>
    match m.tbl.readsym link VFS_PATH_MAX with
    | .error _ => []
    | .ok target =>
      if tooLong (m.targetComps target) then
        []
      else
        looked k (if target.head? = some slash then m.rootIno else cur)
          (m.targetComps target ++ cs)

end Walk

/-! ## Walks over a path in parts -/

section WalkFacts

variable {m : Mount} {fl : Bool} {k cur nxt : Nat} {c : Str} {cs : List Str} {i : Inode}

/-- What happens behind a link when `k` more links may be met. -/
def walkNext (m : Mount) (fl : Bool) (k : Nat) : Nat → Nat → List Str → Except Stop Nat :=
  match k with
  | 0 => fun _ _ _ => .error (.err (-ELOOP))
  | k + 1 => fun cur link cs => do
      let target ← m.tbl.readsym link VFS_PATH_MAX
      if tooLong (m.targetComps target) then
        .error (.err (-ENAMETOOLONG))
      else
        walk m fl k (if target.head? = some slash then m.rootIno else cur)
          (m.targetComps target ++ cs)

theorem walk_eq : walk m fl k = walkWith m fl (walkNext m fl k) := by
  cases k <;> rfl

theorem walk_nil : walk m fl k cur [] = .ok cur := by
  rw [walk_eq]
  rfl

theorem walk_dot : walk m fl k cur ([dot] :: cs) = walk m fl k cur cs := by
  rw [walk_eq, walkWith, if_pos rfl]

theorem walk_cons_error {e : Stop} (hc : c ≠ [dot]) (h : m.tbl.lookup cur c = .error e) :
    walk m fl k cur (c :: cs) = .error e := by
  rw [walk_eq, walkWith, if_neg hc, h]
  rfl

section

variable (hc : c ≠ [dot]) (h : m.tbl.lookup cur c = .ok nxt)

include hc h

theorem walk_cons_absent
    (hi : m.tbl nxt = none) : walk m fl k cur (c :: cs) = .error (.err (-ENOENT)) := by
  rw [walk_eq, walkWith, if_neg hc, h]
  change (m.tbl.getino nxt >>= _) = _
  unfold getino
  rw [hi]
  rfl

theorem walk_cons_ok (hi : m.tbl nxt = some i)
    (hlink : i.isLink = false) : walk m fl k cur (c :: cs) = walk m fl k nxt cs := by
  rw [walk_eq, walkWith, if_neg hc, h]
  change (m.tbl.getino nxt >>= _) = _
  rw [getino_of_eq_some hi]
  change (if i.isLink = true then _ else _) = _
  rw [hlink, if_neg Bool.false_ne_true]

theorem walk_cons_link (hi : m.tbl nxt = some i)
    (hlink : i.isLink = true) : walk m fl k cur (c :: cs) =
      if cs = [] ∧ fl = false then .ok nxt else walkNext m fl k cur nxt cs := by
  rw [walk_eq, walkWith, if_neg hc, h]
  change (m.tbl.getino nxt >>= _) = _
  rw [getino_of_eq_some hi]
  change (if i.isLink = true then _ else _) = _
  rw [hlink, if_pos rfl]

end

theorem walkNext_eq_bind : walkNext m fl (k + 1) cur nxt cs =
    (m.tbl.readsym nxt VFS_PATH_MAX).bind fun target =>
      if tooLong (m.targetComps target) then .error (.err (-ENAMETOOLONG))
      else walk m fl k (if target.head? = some slash then m.rootIno else cur)
        (m.targetComps target ++ cs) := rfl

theorem walkNext_succ {target : Str} (h : m.tbl.readsym nxt VFS_PATH_MAX = .ok target) :
    walkNext m fl (k + 1) cur nxt cs =
      if tooLong (m.targetComps target) then .error (.err (-ENAMETOOLONG))
      else walk m fl k (if target.head? = some slash then m.rootIno else cur)
        (m.targetComps target ++ cs) := by
  rw [walkNext_eq_bind, h]
  rfl

variable {b : Nat}

theorem walkNext_ok (h : walkNext m fl k cur nxt cs = .ok b) :
    ∃ j target, k = j + 1 ∧ m.tbl.readsym nxt VFS_PATH_MAX = .ok target ∧
      tooLong (m.targetComps target) = false := by
  cases k with
  | zero => cases h
  | succ k =>
    cases ht : m.tbl.readsym nxt VFS_PATH_MAX with
    | error e =>
      rw [walkNext_eq_bind, ht] at h
      cases h
    | ok target =>
      rw [walkNext_succ ht] at h
      cases hlong : tooLong (m.targetComps target) with
      | false => exact ⟨k, target, rfl, rfl, hlong⟩
      | true =>
        rw [hlong] at h
        cases h

-- the cases of the first component, for a walk that comes to an end
theorem walk_cons_cases (h : walk m true k cur (c :: cs) = .ok b) :
    c = [dot] ∨ ∃ nxt i, c ≠ [dot] ∧ m.tbl.lookup cur c = .ok nxt ∧ m.tbl nxt = some i ∧
      (i.isLink = true → walkNext m true k cur nxt cs = .ok b) := by
  by_cases hc : c = [dot]
  · exact .inl hc
  right
  cases hl : m.tbl.lookup cur c with
  | error e =>
    rw [walk_cons_error hc hl] at h
    cases h
  | ok nxt =>
    cases hi : m.tbl nxt with
    | none =>
      rw [walk_cons_absent hc hl hi] at h
      cases h
    | some i =>
      refine ⟨nxt, i, hc, rfl, hi, fun hlink => ?_⟩
      rwa [walk_cons_link hc hl hi hlink, if_neg (by simp)] at h

-- when no link may be met, none is
theorem walk_append_of_noLinks {p q : List Str} (h : walk m true 0 cur p = .ok b) :
    walk m fl k cur (p ++ q) = walk m fl k b q := by
  induction p generalizing cur with
  | nil =>
    rw [walk_nil, Except.ok.injEq] at h
    rw [h, nil_append]
  | cons c p ih =>
    rcases walk_cons_cases h with rfl | ⟨nxt, i, hc, hl, hi, hlink⟩
    · rw [walk_dot] at h
      rw [cons_append, walk_dot, ih h]
    cases hil : i.isLink with
    | true => cases hlink hil
    | false =>
      rw [walk_cons_ok hc hl hi hil] at h
      rw [cons_append, walk_cons_ok hc hl hi hil, ih h]

-- a walk over `p ++ q` is one over `p` and then one over `q` with the links that are left
theorem walk_append {p : List Str} (h : walk m true k cur p = .ok b) :
    ∃ j ≤ k, ∀ q, walk m true k cur (p ++ q) = walk m true j b q := by
  induction k generalizing cur p with
  | zero => exact ⟨0, Nat.le_refl 0, fun q => walk_append_of_noLinks h⟩
  | succ k ihk =>
    induction p generalizing cur with
    | nil =>
      rw [walk_nil, Except.ok.injEq] at h
      refine ⟨k + 1, Nat.le_refl _, fun q => ?_⟩
      rw [h, nil_append]
    | cons c p ih =>
      rcases walk_cons_cases h with rfl | ⟨nxt, i, hc, hl, hi, hlink⟩
      · rw [walk_dot] at h
        obtain ⟨j, hj, hq⟩ := ih h
        refine ⟨j, hj, fun q => ?_⟩
        rw [cons_append, walk_dot, hq]
      · cases hil : i.isLink with
        | false =>
          rw [walk_cons_ok hc hl hi hil] at h
          obtain ⟨j, hj, hq⟩ := ih h
          refine ⟨j, hj, fun q => ?_⟩
          rw [cons_append, walk_cons_ok hc hl hi hil, hq]
        | true =>
          have hnext := hlink hil
          obtain ⟨_, target, _, ht, hlong⟩ := walkNext_ok hnext
          rw [walkNext_succ ht, hlong] at hnext
          obtain ⟨j, hj, hq⟩ := ihk hnext
          refine ⟨j, Nat.le_succ_of_le hj, fun q => ?_⟩
          rw [cons_append, walk_cons_link hc hl hi hil, if_neg (by simp),
            walkNext_succ ht, hlong, if_neg Bool.false_ne_true, ← append_assoc, hq]

end WalkFacts

/-! ## What a walk looks up -/

section Looked

variable {m m' : Mount} {fl : Bool} {k cur nxt : Nat} {c : Str} {cs : List Str} {i : Inode}

/-- What is looked up behind a link when `k` more links may be met. -/
def lookedNext (m : Mount) (fl : Bool) (k : Nat) : Nat → Nat → List Str → List (Nat × Str) :=
  match k with
  | 0 => fun _ _ _ => []
  | k + 1 => fun cur link cs =>
    match m.tbl.readsym link VFS_PATH_MAX with
    | .error _ => []
    | .ok target =>
      if tooLong (m.targetComps target) then
        []
      else
        looked m fl k (if target.head? = some slash then m.rootIno else cur)
          (m.targetComps target ++ cs)

theorem looked_eq : looked m fl k = lookedWith m fl (lookedNext m fl k) := by
  cases k <;> rfl

theorem looked_dot : looked m fl k cur ([dot] :: cs) = looked m fl k cur cs := by
  rw [looked_eq, lookedWith, if_pos rfl]

theorem mem_looked_first (hc : c ≠ [dot]) : (cur, c) ∈ looked m fl k cur (c :: cs) := by
  rw [looked_eq, lookedWith, if_neg hc]
  exact mem_cons_self

theorem looked_cons_ok (hc : c ≠ [dot]) (h : m.tbl.lookup cur c = .ok nxt) (hi : m.tbl nxt = some i)
    (hlink : i.isLink = false) :
    looked m fl k cur (c :: cs) = (cur, c) :: looked m fl k nxt cs := by
  rw [looked_eq, lookedWith, if_neg hc, h]
  dsimp only
  rw [hi]
  dsimp only
  rw [hlink, if_neg Bool.false_ne_true]

theorem looked_cons_link (hc : c ≠ [dot]) (h : m.tbl.lookup cur c = .ok nxt)
    (hi : m.tbl nxt = some i) (hlink : i.isLink = true) : looked m fl k cur (c :: cs) =
      (cur, c) :: if cs = [] ∧ fl = false then [] else lookedNext m fl k cur nxt cs := by
  rw [looked_eq, lookedWith, if_neg hc, h]
  dsimp only
  rw [hi]
  dsimp only
  rw [hlink, if_pos rfl]

/-- The mounts differ only in the entries of directories and in link counts. -/
structure SameShape (m m' : Mount) : Prop where
  path : m'.path = m.path
  root : m'.rootIno = m.rootIno
  nodes : SameNodes m.tbl m'.tbl

theorem SameShape.targetComps (h : SameShape m m') (target : Str) :
    m'.targetComps target = m.targetComps target := by
  unfold Mount.targetComps Mount.relPath
  rw [h.path]

-- the components up to the next link
theorem walk_congr_of_next (hs : SameShape m m')
    (hnext : ∀ cur nxt cs, (∀ d n, (d, n) ∈ lookedNext m fl k cur nxt cs →
      m'.tbl.ent d n = m.tbl.ent d n) → walkNext m' fl k cur nxt cs = walkNext m fl k cur nxt cs)
    (h : ∀ d n, (d, n) ∈ looked m fl k cur cs → m'.tbl.ent d n = m.tbl.ent d n) :
    walk m' fl k cur cs = walk m fl k cur cs := by
  induction cs generalizing cur with
  | nil => rw [walk_nil, walk_nil]
  | cons c cs ih =>
    by_cases hc : c = [dot]
    · rw [hc, looked_dot] at h
      rw [hc, walk_dot, walk_dot, ih h]
    have hl' := lookup_congr hs.nodes (h cur c (mem_looked_first hc))
    cases hl : m.tbl.lookup cur c with
    | error e =>
      rw [hl] at hl'
      rw [walk_cons_error hc hl', walk_cons_error hc hl]
    | ok nxt =>
      rw [hl] at hl'
      cases hi : m.tbl nxt with
      | none => rw [walk_cons_absent hc hl' (hs.nodes.none hi), walk_cons_absent hc hl hi]
      | some i =>
        obtain ⟨i', hi', hmode, _⟩ := hs.nodes.some hi
        have hlink' : i'.isLink = i.isLink := by
          unfold Inode.isLink
          rw [hmode]
        cases hlink : i.isLink with
        | false =>
          rw [hlink] at hlink'
          rw [looked_cons_ok hc hl hi hlink] at h
          rw [walk_cons_ok hc hl' hi' hlink', walk_cons_ok hc hl hi hlink]
          exact ih fun d n hmem => h d n (mem_cons_of_mem _ hmem)
        | true =>
          rw [hlink] at hlink'
          rw [looked_cons_link hc hl hi hlink] at h
          rw [walk_cons_link hc hl' hi' hlink', walk_cons_link hc hl hi hlink]
          split
          · rfl
          rename_i hfinal
          apply hnext
          intro d n hmem
          apply h d n
          rw [if_neg hfinal]
          exact mem_cons_of_mem _ hmem

-- a walk only depends on the entries that it looks up
theorem walk_congr (hs : SameShape m m')
    (h : ∀ d n, (d, n) ∈ looked m fl k cur cs → m'.tbl.ent d n = m.tbl.ent d n) :
    walk m' fl k cur cs = walk m fl k cur cs := by
  induction k generalizing cur cs with
  | zero => exact walk_congr_of_next hs (fun _ _ _ _ => rfl) h
  | succ k ih =>
    refine walk_congr_of_next hs (fun cur nxt cs hmem => ?_) h
    have hlooked : lookedNext m fl (k + 1) cur nxt cs =
        match m.tbl.readsym nxt VFS_PATH_MAX with
        | .error _ => []
        | .ok target =>
          if tooLong (m.targetComps target) then [] else
            looked m fl k (if target.head? = some slash then m.rootIno else cur)
              (m.targetComps target ++ cs) := rfl
    rw [walkNext_eq_bind, walkNext_eq_bind, readsym_congr hs.nodes]
    cases hsym : m.tbl.readsym nxt VFS_PATH_MAX with
    | error e => rfl
    | ok target =>
      rw [hlooked, hsym] at hmem
      show (if tooLong (m'.targetComps target) then _ else _) = _
      rw [hs.targetComps, hs.root]
      dsimp only at hmem
      show _ = (if tooLong (m.targetComps target) then _ else _)
      split
      · rfl
      · rename_i hshort
        rw [if_neg hshort] at hmem
        exact ih hmem

end Looked

/-! ## Paths of names -/

section Plain

variable {m : Mount} {fl : Bool} {k cur : Nat} {cs : List Str}

/-- No name on the way is a link, except perhaps a last one that is not followed. -/
def Plain (m : Mount) (fl : Bool) (cur : Nat) (cs : List Str) : Prop :=
  ∀ q c, q <+: cs → q ≠ [] → (q ≠ cs ∨ fl = true) → follow m.tbl.child cur q = some c →
    ¬ m.tbl.IsLink c

def NoDots (cs : List Str) : Prop := ∀ c ∈ cs, c ≠ [dot] ∧ c ≠ [dot, dot]

variable {c : Str} {nxt root d : Nat}

theorem NoDots.tail (h : NoDots (c :: cs)) : NoDots cs :=
  fun d hd => h d (mem_cons_of_mem _ hd)

theorem child_of_lookup (hc : c ≠ [dot] ∧ c ≠ [dot, dot]) (h : m.tbl.lookup cur c = .ok nxt) :
    m.tbl.child cur c = some nxt := by
  rw [child_of_ne hc.1 hc.2]
  exact lookup_eq_ok_iff.mp h

theorem child_of_lookup_error {e : Stop} (hc : c ≠ [dot] ∧ c ≠ [dot, dot])
    (h : m.tbl.lookup cur c = .error e) : m.tbl.child cur c = none := by
  rw [child_of_ne hc.1 hc.2]
  cases hent : m.tbl.ent cur c with
  | none => rfl
  | some nxt =>
    rw [lookup_eq_ok_iff.mpr hent] at h
    cases h

theorem Plain.tail (h : Plain m fl cur (c :: cs)) (hc : m.tbl.child cur c = some nxt) :
    Plain m fl nxt cs := by
  intro q e hq hne hfinal he
  apply h (c :: q) e (cons_prefix_cons.mpr ⟨rfl, hq⟩) (cons_ne_nil _ _)
  · cases hfinal with
    | inl hne => exact .inl fun heq => hne (List.cons.inj heq).2
    | inr hfl => exact .inr hfl
  · rw [follow_cons, hc]
    exact he

-- the first name of a path without links
theorem Plain.head {i : Inode} (h : Plain m fl cur (c :: cs)) (hc : m.tbl.child cur c = some nxt)
    (hi : m.tbl nxt = some i) : i.isLink = false ∨ i.isLink = true ∧ cs = [] ∧ fl = false := by
  cases hlink : i.isLink with
  | false => exact .inl rfl
  | true =>
    right
    by_contra hfinal
    refine h [c] nxt ⟨cs, rfl⟩ (cons_ne_nil _ _) ?_ ?_ ⟨i, hi, hlink⟩
    · by_cases hcs : cs = []
      · right
        cases hfl : fl with
        | true => rfl
        | false => exact absurd ⟨rfl, hcs, hfl⟩ hfinal
      · exact .inl fun heq => hcs (List.cons.inj heq).2.symm
    · rw [follow_cons, hc]
      rfl

theorem Plain.isLink_eq_false {c : Nat} {i : Inode} (h : Plain m true cur cs) (hne : cs ≠ [])
    (hc : follow m.tbl.child cur cs = some c) (hi : m.tbl c = some i) : i.isLink = false := by
  rw [← Bool.not_eq_true]
  exact fun hlink => h cs c prefix_rfl hne (.inr rfl) hc ⟨i, hi, hlink⟩

-- such a path is followed name by name
theorem walk_plain (ht : m.tbl.IsTree root) (hdots : NoDots cs) (h : Plain m fl cur cs) (c : Nat) :
    walk m fl k cur cs = .ok c ↔ follow m.tbl.child cur cs = some c := by
  induction cs generalizing cur with
  | nil => rw [walk_nil, follow_nil, Except.ok.injEq, Option.some_inj]
  | cons n cs ih =>
    have hn := hdots n mem_cons_self
    cases hl : m.tbl.lookup cur n with
    | error e =>
      rw [walk_cons_error hn.1 hl, follow_cons, child_of_lookup_error hn hl]
      exact ⟨nofun, nofun⟩
    | ok nxt =>
      have hchild := child_of_lookup hn hl
      obtain ⟨i, hi⟩ := ht.present (ent_of_child hchild)
      rw [follow_cons, hchild, Option.bind_some]
      rcases h.head hchild hi with hlink | ⟨hlink, rfl, rfl⟩
      · rw [walk_cons_ok hn.1 hl hi hlink]
        exact ih hdots.tail (h.tail hchild)
      · rw [walk_cons_link hn.1 hl hi hlink, if_pos ⟨rfl, rfl⟩, follow_nil, Except.ok.injEq,
          Option.some_inj]

end Plain

end Vfs
