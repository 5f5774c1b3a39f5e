import RandomOs.Vfs.Resolve

/-!
# Links stand for their targets

`vfs_resolve` is to treat a link as the components of its target.  The loop does not, because the
target's components are spliced in at the wrong end of the stack and the stack does not grow.
-/

namespace Vfs

open Kern Lib Lib.Paths List

structure Mount.Mounted (m : Mount) : Prop where
  tree : m.tbl.IsTree m.rootIno
  path : 0 ∉ m.path

/-- What a list of components resolves to when `k` links may be met. -/
def Mount.resolves (m : Mount) (k : Nat) (cs : List Str) : Except Stop Nat :=
  if tooLong cs then .error (.err (-ENAMETOOLONG)) else walk m true k m.rootIno cs

/-- A string that `vfs_resolve` takes as a path. -/
structure Mount.IsPath (m : Mount) (path : Str) : Prop where
  ne_nil : path ≠ []
  zero : 0 ∉ path
  length_lt : (m.relPath path).length < VFS_PATH_MAX
  short : tooLong (comps slash (m.relPath path)) = false

/-- The name `name` of the directory `d` is a link to `target`, and `d` has the path `p`, on which
there is no link. -/
structure LinkAt (m : Mount) (p : List Str) (d : Nat) (name : Str) (target : Str) : Prop where
  dir : walk m true 0 m.rootIno p = .ok d
  link : ∃ link, m.tbl.lookup d name = .ok link ∧ m.tbl.IsLink link ∧
    m.tbl.readsym link VFS_PATH_MAX = .ok target

/-- A path `p/name/q` resolves as `p/target/q` does, or as `target/q` for an absolute target, where
one link less may be met. -/
def SubstCorrect (m : Mount) : Prop :=
  ∀ path p d name target q, m.IsPath path → comps slash (m.relPath path) = p ++ name :: q →
    LinkAt m p d name target →
      vfsResolve (some m) path FOLLOW =
        m.resolves (VFS_MAX_SYMLINKS - 1)
          (if target.head? = some slash then m.targetComps target ++ q
            else p ++ m.targetComps target ++ q)

section Subst

variable {m : Mount} {p q : List Str} {d : Nat} {name target : Str} {cs : List Str}

theorem tooLong_append (as bs : List Str) : tooLong (as ++ bs) = (tooLong as || tooLong bs) :=
  any_append

theorem tooLong_cons (a : Str) (as : List Str) : tooLong (a :: as) = (tooLong [a] || tooLong as) :=
  tooLong_append [a] as

theorem LinkAt.ne_dot (hm : m.Mounted) (h : LinkAt m p d name target) : name ≠ [dot] := by
  rintro rfl
  obtain ⟨link, hl, ⟨i, hi, hlink⟩, _⟩ := h.link
  have hent := Table.lookup_eq_ok_iff.mp hl
  have hdir := Table.isDir_of_ent hent
  rw [hm.tree.self hdir, Option.some_inj] at hent
  subst hent
  rw [hdir.isLink_eq_false hi] at hlink
  cases hlink

-- the law for the meaning of paths
theorem walk_subst (hm : m.Mounted) (h : LinkAt m p d name target) (hp : tooLong p = false)
    (hq : tooLong q = false) :
    walk m true VFS_MAX_SYMLINKS m.rootIno (p ++ name :: q) =
      m.resolves (VFS_MAX_SYMLINKS - 1)
        (if target.head? = some slash then m.targetComps target ++ q
          else p ++ m.targetComps target ++ q) := by
  obtain ⟨link, hl, ⟨i, hi, hlink⟩, hsym⟩ := h.link
  rw [walk_append_of_noLinks h.dir, walk_cons_link (h.ne_dot hm) hl hi hlink, if_neg (by simp),
    show VFS_MAX_SYMLINKS = 39 + 1 from rfl, walkNext_succ hsym]
  unfold Mount.resolves
  by_cases habs : target.head? = some slash
  · simp only [if_pos habs, tooLong_append, hq, Bool.or_false]
  · simp only [if_neg habs, tooLong_append, hp, hq, Bool.or_false, Bool.false_or]
    rw [append_assoc, walk_append_of_noLinks h.dir]

theorem vfsResolve_follow {path : Str} (h : m.IsPath path) : vfsResolve (some m) path FOLLOW =
      resolveLoop m FOLLOW (comps slash (m.relPath path)).length
        ((comps slash (m.relPath path)).map .inPath) m.start := by
  rw [vfsResolve_eq_loop h.ne_nil h.zero h.length_lt h.short]
  cases resolveLoop m FOLLOW (comps slash (m.relPath path)).length
    ((comps slash (m.relPath path)).map .inPath) m.start <;> rfl

theorem substCorrect_of_harmlessLinks (hm : m.Mounted) (h : HarmlessLinks m) : SubstCorrect m := by
  intro path p d name target q hpath hcs hlink
  have hshort := hpath.short
  rw [hcs, tooLong_append, tooLong_cons, Bool.or_eq_false_iff, Bool.or_eq_false_iff] at hshort
  rw [vfsResolve_follow hpath, resolveLoop_eq_walk hm.tree h (stands_start hpath.length_lt)
    (Nat.zero_add _), hcs]
  exact walk_subst hm hlink hshort.1 hshort.2.2

/-! ## What goes wrong behind a link -/

/-- The path below the mount with the components `cs`. -/
def Mount.pathOf (m : Mount) (cs : List Str) : Str := m.path ++ join slash cs

theorem relPath_pathOf (m : Mount) (c : Str) (cs : List Str) :
    m.relPath (m.pathOf (c :: cs)) = c ++ join slash cs := by
  unfold Mount.relPath Mount.pathOf
  simp [join]

/-- Components that a path below the mount can have. -/
structure Fits (cs : List Str) : Prop where
  words : ∀ c ∈ cs, Word slash c ∧ 0 ∉ c
  short : tooLong cs = false
  length_le : (join slash cs).length ≤ VFS_PATH_MAX

theorem not_mem_join (h : ∀ c ∈ cs, Word slash c ∧ 0 ∉ c) : 0 ∉ join slash cs := by
  unfold join
  rw [mem_flatMap]
  rintro ⟨c, hc, hmem⟩
  rw [mem_cons] at hmem
  cases hmem with
  | inl heq => exact absurd heq (by decide)
  | inr hmem => exact (h c hc).2 hmem

theorem Fits.isPath (hm : m.Mounted) (h : Fits cs) (hne : cs ≠ []) :
    m.IsPath (m.pathOf cs) ∧ comps slash (m.relPath (m.pathOf cs)) = cs := by
  obtain ⟨c, cs, rfl⟩ := exists_cons_of_ne_nil hne
  have hcomps : comps slash (m.relPath (m.pathOf (c :: cs))) = c :: cs := by
    rw [relPath_pathOf]
    exact comps_join fun d hd => (h.words d hd).1
  refine ⟨⟨?_, ?_, ?_, ?_⟩, hcomps⟩
  · intro hnil
    have := (append_eq_nil_iff.mp hnil).2
    cases this
  · unfold Mount.pathOf
    rw [mem_append, not_or]
    exact ⟨hm.path, not_mem_join h.words⟩
  · have hlen := h.length_le
    rw [relPath_pathOf]
    change (slash :: (c ++ join slash cs)).length ≤ VFS_PATH_MAX at hlen
    rw [length_cons] at hlen
    omega
  · rw [hcomps]
    exact h.short

theorem Fits.stands_start (hm : m.Mounted) (h : Fits cs) (hne : cs ≠ []) :
    Stands m m.start cs.length := by
  obtain ⟨hpath, hcs⟩ := h.isPath hm hne
  have hst := @Vfs.stands_start _ m hpath.length_lt
  rwa [hcs] at hst

-- the loop at the link: what is pending behind it only goes through the splice
theorem vfsResolve_at_link (hm : m.Mounted) (hlink : LinkAt m p d name target)
    (hfits : Fits (p ++ [name])) (hshort : tooLong (comps slash target) = false) :
    ∃ (offs : List Nat) (w' : Walk), offs.length = (comps slash target).length ∧
      w'.ino = linkBase m target d ∧ ∀ q, Fits (p ++ name :: q) →
        vfsResolve (some m) (m.pathOf (p ++ name :: q)) FOLLOW =
          if q.length + (comps slash target).length > stkMax then .error (.err (-ENAMETOOLONG))
          else resolveLoop m FOLLOW q.length (splice (q.map .inPath) (offs.map .inLink)) w' := by
  obtain ⟨link, hl, ⟨i, hi, hil⟩, hsym⟩ := hlink.link
  have hst := hfits.stands_start hm (by simp)
  rw [length_append] at hst
  obtain ⟨w, hino, hsymlnks, hst', hrest⟩ :=
    @resolveLoop_noLinks m FOLLOW _ 1 _ _ hm.tree hst hlink.dir
  obtain ⟨offs, w', hcount, hino', _, _, hrun⟩ := @followLink_short m w _ _ hm.tree hsym hshort
  refine ⟨offs, w', hcount, by rw [hino', hino], fun q hq => ?_⟩
  obtain ⟨hpath, hcs⟩ := hq.isPath hm (by simp)
  rw [← hino] at hl
  have hstep : resolveStep m FOLLOW name (q.map .inPath) w =
      followLink m (q.map .inPath) w link := by
    rw [resolveStep_link hm.tree hst' (hlink.ne_dot hm) hl hi hil rfl (by simp [FOLLOW]),
      if_neg (by rw [hsymlnks]; exact of_decide_eq_false rfl)]
  have hsplit : (p ++ name :: q).length = p.length + (q.length + 1) := by
    rw [length_append, length_cons]
  rw [vfsResolve_follow hpath, hcs, hsplit, map_append, hrest, map_cons]
  show (resolveStep m FOLLOW name (q.map .inPath) w).bind _ = _
  rw [hstep, hrun, length_map]
  split <;> rfl

/-- A path leads to the link, and behind it there is room in the path for a name that is not in the
directory where the target starts. -/
structure Exposed (m : Mount) (target : Str) : Prop where
  short : tooLong (comps slash target) = false
  room : ∃ p d name x e, LinkAt m p d name target ∧ Fits (p ++ [name, x]) ∧
    m.tbl.lookup (linkBase m target d) x = .error e ∧ x ≠ [dot]

theorem Fits.of_isPrefix {as bs : List Str} (h : Fits bs) (hpre : as <+: bs) : Fits as := by
  refine ⟨fun c hc => h.words c (hpre.subset hc), ?_, ?_⟩
  · obtain ⟨t, rfl⟩ := hpre
    have hshort := h.short
    rw [tooLong_append, Bool.or_eq_false_iff] at hshort
    exact hshort.1
  · have := length_join_le_of_isPrefix slash hpre
    have := h.length_le
    omega

-- a name is no shorter than `.`
theorem Fits.dot_of_name {x : Str} (h : Fits (p ++ [name, x])) : Fits (p ++ [name, [dot]]) := by
  have hx := h.words x (by simp)
  have hpos := length_pos_iff.mpr hx.1.1
  have hjoin : ∀ y, p ++ [name, y] = p ++ [name] ++ [y] := by simp
  have hpre := h.of_isPrefix ⟨[x], (hjoin x).symm⟩
  refine ⟨?_, ?_, ?_⟩
  · intro c hc
    rw [hjoin, mem_append, mem_singleton] at hc
    cases hc with
    | inl hc => exact hpre.words c hc
    | inr hc =>
      rw [hc]
      exact ⟨⟨by simp, by decide⟩, by decide⟩
  · rw [hjoin, tooLong_append, hpre.short]
    rfl
  · have hlen := h.length_le
    rw [hjoin, length_join_concat] at hlen ⊢
    rw [length_singleton]
    omega

-- the splice makes `p/name/.` and `p/name/x` the same path
theorem comps_eq_nil_of_substCorrect (hm : m.Mounted) (h : SubstCorrect m)
    (hexp : Exposed m target) : comps slash target = [] := by
  by_contra hne
  obtain ⟨p, d, name, x, e, hlink, hfits, hx, hdot⟩ := hexp.room
  have hname := hfits.of_isPrefix (⟨[x], by simp⟩ : p ++ [name] <+: p ++ [name, x])
  obtain ⟨offs, w', hcount, hino, hrun⟩ := vfsResolve_at_link hm hlink hname hexp.short
  have hroom : ¬ ([] : List Str).length + (comps slash target).length > stkMax := by
    obtain ⟨_, _, _, hsym⟩ := hlink.link
    have := (readsym_lt hsym).1
    have := length_comps_le slash target
    unfold stkMax
    rw [length_nil]
    omega
  -- the components of the target from the root
  have hspec : ∀ q, Fits (p ++ name :: q) → vfsResolve (some m) (m.pathOf (p ++ name :: q)) FOLLOW =
      m.resolves (VFS_MAX_SYMLINKS - 1)
        ((if target.head? = some slash then m.targetComps target else p ++ m.targetComps target) ++
          q) := by
    intro q hq
    obtain ⟨hpath, hcs⟩ := hq.isPath hm (by simp)
    rw [h _ p d name target q hpath hcs hlink]
    split <;> rfl
  generalize (if target.head? = some slash then m.targetComps target
    else p ++ m.targetComps target) = cs at hspec
  have hbase : m.resolves (VFS_MAX_SYMLINKS - 1) cs = .ok (linkBase m target d) := by
    have hfinal := hspec [] hname
    rw [hrun [] hname, map_nil, append_nil] at hfinal
    rw [if_neg hroom] at hfinal
    rw [← hfinal, ← hino]
    rfl
  have hsame : vfsResolve (some m) (m.pathOf (p ++ [name, [dot]])) FOLLOW =
      vfsResolve (some m) (m.pathOf (p ++ [name, x])) FOLLOW := by
    obtain ⟨offs', off, rfl⟩ : ∃ offs' off, offs = offs' ++ [off] := by
      rcases eq_nil_or_concat offs with rfl | ⟨offs', off, heq⟩
      · exact absurd (length_eq_zero_iff.mp hcount.symm) hne
      · exact ⟨offs', off, by rw [heq, concat_eq_append]⟩
    rw [hrun _ hfits.dot_of_name, hrun _ hfits, map_append]
    simp only [map_singleton, splice_singleton, length_singleton]
  rw [hspec _ hfits.dot_of_name, hspec _ hfits] at hsame
  -- but one is the directory and the other is not there
  unfold Mount.resolves at hbase hsame
  have hcs : tooLong cs = false := by
    cases hlong : tooLong cs with
    | false => rfl
    | true =>
      rw [hlong] at hbase
      cases hbase
  have hshort : tooLong [x] = false := by
    have := hfits.short
    rw [show p ++ [name, x] = p ++ [name] ++ [x] by simp, tooLong_append,
      Bool.or_eq_false_iff] at this
    exact this.2
  rw [hcs] at hbase
  obtain ⟨j, _, hwalk⟩ := walk_append hbase
  rw [tooLong_append, tooLong_append, hcs, hshort, show tooLong [[dot]] = false by decide,
    Bool.or_self, hwalk, hwalk, walk_dot, walk_nil, walk_cons_error hdot hx] at hsame
  cases hsame

end Subst

/-- The two sides: with harmless links a path means what it should, and no link that shows can have
a target with components. -/
theorem vfsResolve_substitution (m : Mount) (hm : m.Mounted) : (HarmlessLinks m → SubstCorrect m) ∧
      (SubstCorrect m → ∀ target, Exposed m target → comps slash target = []) :=
  ⟨substCorrect_of_harmlessLinks hm, fun h _ => comps_eq_nil_of_substCorrect hm h⟩

theorem smallMount_mounted {target : Str} (hzero : 0 ∉ target) : (smallMount target).Mounted :=
  ⟨smallTable_isTree hzero, (by decide : (0 : UInt8) ∉ [47])⟩

theorem smallMount_isLink {target : Str} {l : Nat} (h : (smallMount target).tbl.IsLink l) :
    l = 3 := by
  obtain ⟨i, hi, hlink⟩ := h
  match l with
  | 0 => cases hi
  | 1 =>
    cases hi
    cases hlink
  | 2 =>
    cases hi
    cases hlink
  | 3 => rfl
  | 4 =>
    cases hi
    cases hlink
  | l + 5 => cases hi

-- a link to `/` works
theorem link_to_root_correct : SubstCorrect (smallMount [47]) := by
  apply (vfsResolve_substitution (smallMount [47]) (smallMount_mounted (by decide))).1
  intro p d name link _ _ hlink target hsym
  rw [smallMount_isLink hlink] at hsym
  obtain rfl := Except.ok.inj hsym
  exact .inl (by decide)

-- `/l` is a link to `a`, and the loop returns the root for it
theorem link_to_dir_returns_root : vfsResolve (some (smallMount [97])) [47, 108] FOLLOW = .ok 1 ∧
      (smallMount [97]).resolves (VFS_MAX_SYMLINKS - 1) [[97]] = .ok 2 ∧
      ¬ SubstCorrect (smallMount [97]) := by
  have hrun : vfsResolve (some (smallMount [97])) [47, 108] FOLLOW = .ok 1 := by decide
  have hspec : (smallMount [97]).resolves (VFS_MAX_SYMLINKS - 1) [[97]] = .ok 2 := by decide
  refine ⟨hrun, hspec, fun h => ?_⟩
  have hpath : (smallMount [97]).IsPath [47, 108] :=
    ⟨by decide, by decide, by decide, by decide⟩
  have hlink : LinkAt (smallMount [97]) [] 1 [108] [97] :=
    ⟨by decide, 3, by decide, ⟨_, rfl, by decide⟩, by decide⟩
  have heq := h [47, 108] [] 1 [108] [97] [] hpath (by decide) hlink
  rw [hrun] at heq
  exact absurd (heq.trans hspec) (by decide)

end Vfs
