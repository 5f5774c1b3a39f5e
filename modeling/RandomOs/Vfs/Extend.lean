import RandomOs.Vfs.Names

/-!
# Tables with one file more

An added inode that is neither a directory nor a link leads nowhere else: a path resolves to what it
did before, or to the new file.
-/

namespace Vfs

open Kern Lib Table

/-- All of `t'` is in `t`, up to the file `ino` and the entries for it. -/
structure Table.LeafOver (t t' : Table) (ino : Nat) : Prop where
  nodes : ∀ {x i'}, x ≠ ino → t' x = some i' →
    ∃ i, t x = some i ∧ i.mode = i'.mode ∧ i.target = i'.target
  ents : ∀ {d n c}, t'.ent d n = some c → (c = ino ∧ n ≠ [dot, dot]) ∨ t.ent d n = some c
  leaf : ∀ {i}, t' ino = some i → i.isDir = false ∧ i.isLink = false

namespace Table

variable {t t' : Table} {d c ino dino : Nat} {n name : Str}

variable {i : Inode}

theorem getino_eq_ok_iff : t.getino c = .ok i ↔ t c = some i := by
  unfold getino
  cases t c with
  | none => exact ⟨nofun, nofun⟩
  | some j => rw [Except.ok.injEq, Option.some.injEq]

variable {j : Inode} {place : List (Str × Nat) → Str → Option Bool}

theorem isLink_congr (h : j.mode = i.mode) : j.isLink = i.isLink := by
  unfold Inode.isLink
  rw [h]

theorem isDir_congr (h : j.mode = i.mode) : j.isDir = i.isDir := by
  unfold Inode.isDir
  rw [h]

theorem readsym_of_eq_some (h : t c = some i) (buflen : Nat) : t.readsym c buflen =
    if i.target.length ≥ buflen then .error (.err (-ETOOSMALL)) else .ok i.target := by
  unfold readsym
  rw [getino_of_eq_some h]
  rfl

theorem mklink_cases (h : t.mklink place ino dino name = .ok t') :
    ∃ i front, t dino = some i ∧ place i.ents name = some front ∧
      t' = (t.setEnts dino (linkEnts front name ino i.ents)).setLnkcnt ino (· + 1) := by
  obtain ⟨i, hi, h⟩ := ok_of_bind h
  cases hplace : place i.ents name with
  | none =>
    rw [hplace] at h
    cases h
  | some front =>
    rw [hplace] at h
    exact ⟨i, front, getino_eq_ok_iff.mp hi, hplace, (Except.ok.inj h).symm⟩

section

variable (h : t.mklink place ino dino name = .ok t')

include h

theorem ent_mklink (d : Nat) (n : Str) :
    t'.ent d n = t.ent d n ∨ (d = dino ∧ n = name ∧ t'.ent d n = some ino) := by
  obtain ⟨i, front, hi, -, rfl⟩ := mklink_cases h
  rw [ent_setLnkcnt]
  by_cases hdir : i.isDir = true
  · rw [ent_setEnts _ ⟨i, hi, hdir⟩]
    split
    swap
    · exact Or.inl rfl
    rename_i hd
    rw [lookup_linkEnts, hd, IsDir.ent_eq ⟨i, hi, hdir⟩ hi]
    split
    · rename_i hn
      cases front with
      | true => exact Or.inr ⟨rfl, hn, rfl⟩
      | false =>
        cases i.ents.lookup n with
        | none => exact Or.inr ⟨rfl, hn, rfl⟩
        | some c => exact Or.inl rfl
    · exact Or.inl rfl
  · -- no directory, before and after
    left
    unfold ent setEnts set
    by_cases hd : d = dino
    · rw [hd, Function.update_self, hi]
      exact (if_neg hdir).trans (if_neg hdir).symm
    · rw [Function.update_of_ne hd]

theorem sameNodes_mklink : SameNodes t t' := by
  obtain ⟨i, front, -, -, rfl⟩ := mklink_cases h
  exact (sameNodes_setEnts _ _ _).trans (sameNodes_setLnkcnt _ _ _)

end

end Table

/-! ## Paths -/

section Steps

variable {m m' : Mount} {fl : Flags} {w : Walk} {stk : List Comp}

/-- The end of a turn for a name: its inode is `nxt`. -/
def enter (m : Mount) (fl : Flags) (stk : List Comp) (w : Walk) (nxt : Nat) (inod : Inode) :
    Except Stop (List Comp × Walk) :=
  if inod.isLink then
    if fl.noSymlinks then
      .error (.err (-ELOOP))
    else if stk = [] ∧ fl.followFinal = false then
      if fl.mustBeDir then .error (.err (-ENOTDIR))
      else .ok ([], { w with ino := nxt, depth := w.depth + 1 })
    else if w.symlnks + 1 > VFS_MAX_SYMLINKS then
      .error (.err (-ELOOP))
    else
      followLink m stk w nxt
  else if w.done ≥ stkMax then
    .error (.err (-ENAMETOOLONG))
  else
    .ok (stk, { w with ino := nxt, depth := w.depth + 1, done := w.done + 1 })

variable {comp : Str} {nxt x : Nat}

theorem resolveStep_name (hdot : comp ≠ [dot]) (hup : comp ≠ [dot, dot]) :
    resolveStep m fl comp stk w = (m.tbl.lookup w.ino comp).bind fun nxt =>
      (m.tbl.getino nxt).bind (enter m fl stk w nxt) := by
  unfold resolveStep
  rw [if_neg hdot, if_neg hup]
  rfl

variable {r : List Comp × Walk} {i : Inode} {path : Str}

theorem resolveStep_cases (h : resolveStep m fl comp stk w = .ok r) :
    (comp = [dot] ∧ r = (stk, w)) ∨
    (comp = [dot, dot] ∧ w.depth = 0 ∧ r = (stk, { w with ino := m.rootIno })) ∨
    (∃ nxt, comp = [dot, dot] ∧ w.depth ≠ 0 ∧ m.tbl.lookup w.ino comp = .ok nxt ∧
      r = (stk, { w with ino := nxt, depth := w.depth - 1, done := w.done - 1 })) ∨
    ∃ nxt i, comp ≠ [dot] ∧ comp ≠ [dot, dot] ∧ m.tbl.lookup w.ino comp = .ok nxt ∧
      m.tbl nxt = some i ∧ enter m fl stk w nxt i = .ok r := by
  by_cases hdot : comp = [dot]
  · left
    unfold resolveStep at h
    rw [if_pos hdot] at h
    exact ⟨hdot, (Except.ok.inj h).symm⟩
  right
  by_cases hup : comp = [dot, dot]
  · unfold resolveStep at h
    rw [if_neg hdot, if_pos hup] at h
    split at h
    · rename_i hdepth
      exact Or.inl ⟨hup, hdepth, (Except.ok.inj h).symm⟩
    rename_i hdepth
    obtain ⟨nxt, hl, h⟩ := ok_of_bind h
    exact Or.inr (Or.inl ⟨nxt, hup, hdepth, hl, (Except.ok.inj h).symm⟩)
  · right
    right
    rw [resolveStep_name hdot hup] at h
    obtain ⟨nxt, hl, h⟩ := ok_of_bind h
    obtain ⟨i, hi, h⟩ := ok_of_bind h
    exact ⟨nxt, i, hdot, hup, hl, getino_eq_ok_iff.mp hi, h⟩

theorem resolveStep_up (hup : comp = [dot, dot]) (hdepth : w.depth ≠ 0)
    (hl : m.tbl.lookup w.ino comp = .ok nxt) : resolveStep m fl comp stk w =
      .ok (stk, { w with ino := nxt, depth := w.depth - 1, done := w.done - 1 }) := by
  unfold resolveStep
  rw [if_neg (by rw [hup]; decide), if_pos hup, if_neg hdepth, hl]
  rfl

theorem resolveStep_enter (hdot : comp ≠ [dot]) (hup : comp ≠ [dot, dot])
    (hl : m.tbl.lookup w.ino comp = .ok nxt) (hi : m.tbl nxt = some i) :
    resolveStep m fl comp stk w = enter m fl stk w nxt i := by
  rw [resolveStep_name hdot hup, hl]
  change (m.tbl.getino nxt).bind _ = _
  rw [getino_of_eq_some hi]
  rfl

theorem enter_congr {i' : Inode} (hroot : m'.rootIno = m.rootIno) (hi : m.tbl nxt = some i)
    (hi' : m'.tbl nxt = some i') (hmode : i'.mode = i.mode) (htarget : i'.target = i.target) :
    enter m' fl stk w nxt i' = enter m fl stk w nxt i := by
  have hfollow : followLink m' stk w nxt = followLink m stk w nxt := by
    unfold followLink
    rw [readsym_of_eq_some hi', readsym_of_eq_some hi, htarget, hroot]
  unfold enter
  rw [hfollow, isLink_congr hmode]

theorem vfsResolve_cases (h : vfsResolve (some m) path fl = .ok x) :
    ∃ stk y, resolveLoop m fl stk.length stk m.start = .ok y ∧ m.finish fl y = .ok x ∧
      ∀ m' : Mount, m'.path = m.path → vfsResolve (some m') path fl =
        (resolveLoop m' fl stk.length stk m'.start).bind (m'.finish fl) := by
  have hdef : ∀ m' : Mount, m'.path = m.path → vfsResolve (some m') path fl =
      if path = [] then .error (.err (-EINVAL))
      else if (m.relPath path).length ≥ VFS_PATH_MAX then .error (.err (-ENAMETOOLONG))
      else (split (m.relPath path ++ [0])).bind fun r =>
        (resolveLoop m' fl (r.1.map fun off => Comp.inPath (cstr r.2 off)).length
          (r.1.map fun off => Comp.inPath (cstr r.2 off)) m'.start).bind (m'.finish fl) := by
    intro m' hpath
    have hrel : m'.relPath path = m.relPath path := by
      unfold Mount.relPath
      rw [hpath]
    rw [← hrel]
    rfl
  rw [hdef m rfl] at h
  split at h
  · cases h
  rename_i hempty
  split at h
  · cases h
  rename_i hlong
  obtain ⟨r, hsplit, h⟩ := ok_of_bind h
  cases hloop : resolveLoop m fl (r.1.map fun off => Comp.inPath (cstr r.2 off)).length
      (r.1.map fun off => Comp.inPath (cstr r.2 off)) m.start with
  | error e =>
    rw [hloop] at h
    cases h
  | ok y =>
    rw [hloop] at h
    refine ⟨_, y, hloop, h, fun m' hpath => ?_⟩
    rw [hdef m' hpath, if_neg hempty, if_neg hlong, hsplit]
    rfl

end Steps

/-! ## A new file -/

section Leaf

variable {m m' : Mount} {fl : Flags} {w : Walk} {stk : List Comp} {ino x : Nat}

/-- The same mount with the file `ino` and entries for it. -/
structure Mount.LeafOver (m m' : Mount) (ino : Nat) : Prop where
  path : m'.path = m.path
  root : m'.rootIno = m.rootIno
  tbl : m.tbl.LeafOver m'.tbl ino

theorem Mount.LeafOver.not_lookup (h : m.LeafOver m' ino) {n : Str} {c : Nat} :
    m'.tbl.lookup ino n ≠ .ok c := by
  intro hl
  obtain ⟨i, hi, hdir⟩ := isDir_of_ent (lookup_eq_ok_iff.mp hl)
  rw [(h.tbl.leaf hi).1] at hdir
  cases hdir

variable {fuel : Nat}

-- nothing is below the file
theorem Mount.LeafOver.stays (h : m.LeafOver m' ino) (hino : w.ino = ino)
    (hdepth : w.depth = 0 → m'.rootIno = ino)
    (hr : resolveLoop m' fl fuel stk w = .ok x) : x = ino := by
  induction fuel generalizing stk w with
  | zero =>
    have hx : resolveLoop m' fl 0 stk w = .ok w.ino := by cases stk <;> rfl
    rw [hx] at hr
    exact (Except.ok.inj hr).symm.trans hino
  | succ fuel ih =>
    cases stk with
    | nil => exact (Except.ok.inj hr).symm.trans hino
    | cons c stk =>
      rw [resolveLoop_cons] at hr
      obtain ⟨r, hstep, hr⟩ := ok_of_bind hr
      rcases resolveStep_cases hstep with ⟨-, rfl⟩ | ⟨-, hzero, rfl⟩ |
        ⟨nxt, -, -, hl, -⟩ | ⟨nxt, i, -, -, hl, -⟩
      · exact ih hino hdepth hr
      · exact ih (hdepth hzero) (fun _ => hdepth hzero) hr
      · rw [hino] at hl
        exact absurd hl h.not_lookup
      · rw [hino] at hl
        exact absurd hl h.not_lookup

-- a turn goes to the file or as it did before
theorem Mount.LeafOver.resolveStep (h : m.LeafOver m' ino) {comp : Str} {r : List Comp × Walk}
    (hr : resolveStep m' fl comp stk w = .ok r) :
    (r.2.ino = ino ∧ r.2.depth ≠ 0) ∨ resolveStep m fl comp stk w = .ok r := by
  rcases resolveStep_cases hr with ⟨rfl, rfl⟩ | ⟨rfl, hdepth, rfl⟩ | ⟨nxt, hup, hdepth, hl, rfl⟩ |
    ⟨nxt, i', hdot, hup, hl, hi', henter⟩
  · exact Or.inr (resolveStep_dot stk w)
  · right
    rw [h.root]
    exact if_pos hdepth
  · right
    rcases h.tbl.ents (lookup_eq_ok_iff.mp hl) with ⟨-, hne⟩ | hold
    · exact absurd hup hne
    · exact resolveStep_up hup hdepth (lookup_eq_ok_iff.mpr hold)
  · by_cases hnxt : nxt = ino
    · left
      subst hnxt
      unfold enter at henter
      rw [(h.tbl.leaf hi').2, if_neg Bool.false_ne_true] at henter
      split at henter
      · cases henter
      · rw [← Except.ok.inj henter]
        exact ⟨rfl, Nat.succ_ne_zero _⟩
    · right
      obtain ⟨i, hi, hmode, htarget⟩ := h.tbl.nodes hnxt hi'
      rcases h.tbl.ents (lookup_eq_ok_iff.mp hl) with ⟨heq, -⟩ | hold
      · exact absurd heq hnxt
      · rw [resolveStep_enter hdot hup (lookup_eq_ok_iff.mpr hold) hi,
          enter_congr h.root.symm hi' hi hmode htarget]
        exact henter

theorem Mount.LeafOver.resolveLoop (h : m.LeafOver m' ino)
    (hr : resolveLoop m' fl fuel stk w = .ok x) :
    x = ino ∨ resolveLoop m fl fuel stk w = .ok x := by
  induction fuel generalizing stk w with
  | zero => exact Or.inr (by cases stk <;> exact hr)
  | succ fuel ih =>
    cases stk with
    | nil => exact Or.inr hr
    | cons c stk =>
      rw [resolveLoop_cons] at hr ⊢
      obtain ⟨r, hstep, hr⟩ := ok_of_bind hr
      rcases h.resolveStep hstep with ⟨hino, hdepth⟩ | hold
      · exact Or.inl (h.stays hino (fun hzero => absurd hzero hdepth) hr)
      · rw [hold]
        exact ih hr

theorem Mount.LeafOver.vfsResolve (h : m.LeafOver m' ino) {path : Str} (hfl : fl.mustBeDir = false)
    (hr : vfsResolve (some m') path fl = .ok x) :
    x = ino ∨ vfsResolve (some m) path fl = .ok x := by
  obtain ⟨stk, y, hloop, hfinish, heq⟩ := vfsResolve_cases hr
  have hstart : m.start = m'.start := by
    unfold Mount.start
    rw [h.root]
  have hend : ∀ m : Mount, m.finish fl y = .ok y := by
    intro m
    unfold Mount.finish
    rw [hfl, if_neg Bool.false_ne_true]
  rw [hend, Except.ok.injEq] at hfinish
  subst hfinish
  rcases h.resolveLoop hloop with hx | hold
  · exact Or.inl hx
  · right
    rw [heq m h.path.symm, hstart, hold]
    exact hend m

end Leaf

end Vfs
