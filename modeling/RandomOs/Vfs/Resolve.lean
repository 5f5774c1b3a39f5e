import RandomOs.Vfs.Walk

/-!
# Resolving a path (`vfs_resolve`, `vfs.c`)

The components still to come are on a stack.  Those of the path point into `pbuf`, which keeps its
text, and those of a link's target point into `lnkbuf`, which the next link overwrites.
Memory for the buffers and the stacks is always found.
-/

namespace Vfs

open Kern Lib Lib.Paths List Table NameTree

/-- `VFS_NO_SYMLINKS`, `VFS_MUST_BE_DIR` and `VFS_FOLLOW_FINAL`. -/
structure Flags where
  noSymlinks : Bool
  mustBeDir : Bool
  followFinal : Bool

/-- The string at an offset of a buffer. -/
def cstr (buf : Str) (off : Nat) : Str := (buf.drop off).takeWhile (· != 0)

/-- `VFS_PATH_MAX / 2`, the room on a `pathstk_t`. -/
def stkMax : Nat := VFS_PATH_MAX / 2

/-- The loop that cuts the string in a buffer into components: their offsets, and the buffer with a
zero behind each. -/
def splitLoop : Nat → Str → Nat → List Nat → Except Stop (List Nat × Str)
  | 0, buf, _, items => .ok (items, buf)
  | fuel + 1, buf, p, items =>
    let st := p + ((cstr buf p).takeWhile (· == slash)).length
    if cstr buf st = [] then
      .ok (items, buf)
    else
      let e := st + ((cstr buf st).takeWhile (· != slash)).length
      if e - st > VFS_NAME_MAX ∨ items.length ≥ stkMax then
        .error (.err (-ENAMETOOLONG))
      else if cstr buf e = [] then
        splitLoop fuel buf e (items ++ [st])
      else
        splitLoop fuel (buf.set e 0) (e + 1) (items ++ [st])

def split (buf : Str) : Except Stop (List Nat × Str) := splitLoop buf.length buf 0 []

inductive Comp
  | inPath (text : Str)
  | inLink (off : Nat)

def Comp.text (lnkbuf : Str) : Comp → Str
  | .inPath text => text
  | .inLink off => cstr lnkbuf off

/-- Of the stack `done` only the height is ever read. -/
structure Walk where
  ino : Nat
  symlnks : Nat
  depth : Nat
  done : Nat
  lnkbuf : Str

/-- The target's components go under the pending ones, which move up.  `stk->cnt` stays as it is, so
the upper ones are cut off.  The head of a list is the top of the stack. -/
def splice (stk tgt : List Comp) : List Comp :=
  ((tgt.reverse ++ stk.reverse).take stk.length).reverse

def followLink (m : Mount) (stk : List Comp) (w : Walk) (nxt : Nat) :
    Except Stop (List Comp × Walk) := do
  let target ← m.tbl.readsym nxt VFS_PATH_MAX
  let lnkbuf := target ++ 0 :: w.lnkbuf.drop (target.length + 1)
  let w :=
    if lnkbuf.head? = some slash then { w with ino := m.rootIno, depth := 0, done := 0 } else w
  let (tgt, lnkbuf) ← split lnkbuf
  if stk.length + tgt.length > stkMax then
    .error (.err (-ENAMETOOLONG))
  else
    .ok (splice stk (tgt.map .inLink), { w with symlnks := w.symlnks + 1, lnkbuf := lnkbuf })

/-- The body of the loop for the component `comp` on top of `stk`. -/
def resolveStep (m : Mount) (fl : Flags) (comp : Str) (stk : List Comp) (w : Walk) :
    Except Stop (List Comp × Walk) :=
  if comp = [dot] then
    .ok (stk, w)
  else if comp = [dot, dot] then
    if w.depth = 0 then
      .ok (stk, { w with ino := m.rootIno })
    else do
      let ino ← m.tbl.lookup w.ino comp
      .ok (stk, { w with ino := ino, depth := w.depth - 1, done := w.done - 1 })
  else do
    let nxt ← m.tbl.lookup w.ino comp
    let inod ← m.tbl.getino nxt
    if inod.isLink then
      if fl.noSymlinks then
        .error (.err (-ELOOP))
      else if stk = [] ∧ fl.followFinal = false then
        if fl.mustBeDir then .error (.err (-ENOTDIR))
        else .ok ([], { w with ino := nxt, depth := w.depth + 1 })
      else if w.symlnks + 1 > VFS_MAX_SYMLINKS then
        .error (.err (-ELOOP))
      else
        followLink m stk w nxt
    else if w.done ≥ stkMax then
      .error (.err (-ENAMETOOLONG))
    else
      .ok (stk, { w with ino := nxt, depth := w.depth + 1, done := w.done + 1 })

/-- Every turn takes one component off the stack. -/
def resolveLoop (m : Mount) (fl : Flags) : Nat → List Comp → Walk → Except Stop Nat
  | _, [], w => .ok w.ino
  | 0, _ :: _, w => .ok w.ino
  | fuel + 1, c :: stk, w => do
      let next ← resolveStep m fl (c.text w.lnkbuf) stk w
      resolveLoop m fl fuel next.1 next.2

def Mount.start (m : Mount) : Walk :=
  { ino := m.rootIno, symlnks := 0, depth := 0, done := 0, lnkbuf := [] }

/-- The last test, for `VFS_MUST_BE_DIR`. -/
def Mount.finish (m : Mount) (fl : Flags) (ino : Nat) : Except Stop Nat :=
  if fl.mustBeDir then do
    let inod ← m.tbl.getino ino
    if inod.isDir then .ok ino else .error (.err (-ENOTDIR))
  else
    .ok ino

def vfsResolve (m : Option Mount) (path : Str) (fl : Flags) : Except Stop Nat :=
  match m with
  | none => .error (.err (-EINVAL))
  | some m =>
    if path = [] then
      .error (.err (-EINVAL))
    else if (m.relPath path).length ≥ VFS_PATH_MAX then
      .error (.err (-ENAMETOOLONG))
    else do
      let (items, pbuf) ← split (m.relPath path ++ [0])
      let stk := items.map fun off => Comp.inPath (cstr pbuf off)
      let ino ← resolveLoop m fl stk.length stk m.start
      m.finish fl ino

/-! ## Cutting a string into components -/

variable {s w : Str} {n : Nat} {stk : List Comp}

theorem cstr_of_append {buf : Str} {k : Nat} (pre rest : Str) (hbuf : buf = pre ++ s ++ 0 :: rest)
    (hk : k = pre.length) (h : 0 ∉ s) : cstr buf k = s := by
  unfold cstr
  rw [hbuf, hk, append_assoc, drop_left, takeWhile_append_of_pos]
  · simp
  · intro x hx
    rw [bne_iff_ne]
    rintro rfl
    exact h hx

/-- A component that fits on the stack behind `n` others. -/
def Splits (cs : List Str) (n : Nat) : Prop := tooLong cs = false ∧ n + cs.length ≤ stkMax

/-- The pieces of the buffer `pre ++ s ++ 0 :: rest` after its string `s` was cut: offsets `offs` of
the components. -/
structure Cut (pre s rest : Str) (offs : List Nat) (buf : Str) : Prop where
  texts : offs.map (cstr buf) = comps slash s
  shape : ∃ s', buf = pre ++ s' ++ 0 :: rest ∧ s'.length = s.length

theorem set_length_append {a : Str} {x y : UInt8} {b : Str} :
    (a ++ x :: b).set a.length y = a ++ y :: b := by
  rw [set_append_right _ _ (Nat.le_refl _), Nat.sub_self, set_cons_zero]

theorem splits_cons {cs : List Str} (h : ¬ (w.length > VFS_NAME_MAX ∨ n ≥ stkMax)) :
    Splits (w :: cs) n ↔ Splits cs (n + 1) := by
  rw [not_or, Nat.not_lt] at h
  simp only [Splits, tooLong, any_cons, length_cons, Bool.or_eq_false_iff,
    decide_eq_false_iff_not, Nat.not_lt, h.1, true_and]
  constructor <;> rintro ⟨hlong, hlen⟩ <;> exact ⟨hlong, by omega⟩

theorem not_splits_cons {cs : List Str} (h : w.length > VFS_NAME_MAX ∨ n ≥ stkMax) :
    ¬ Splits (w :: cs) n := by
  rintro ⟨hlong, hlen⟩
  simp only [tooLong, any_cons, Bool.or_eq_false_iff, decide_eq_false_iff_not] at hlong
  rw [length_cons] at hlen
  omega

-- one component: it is found behind the slashes, and a zero ends it
theorem Cut.cons {pre a w t rest : Str} {offs : List Nat} {buf : Str}
    (hs : comps slash (a ++ w ++ t) = w :: comps slash t) (hw : 0 ∉ w)
    (ht : t = [] ∧ Cut (pre ++ a ++ w) [] rest offs buf ∨
      ∃ t', t = slash :: t' ∧ Cut (pre ++ a ++ w ++ [0]) t' rest offs buf) :
    Cut pre (a ++ w ++ t) rest ((pre ++ a).length :: offs) buf := by
  rcases ht with ⟨rfl, hcut⟩ | ⟨t', rfl, hcut⟩
  · obtain ⟨s', rfl, hlen⟩ := hcut.shape
    obtain rfl := length_eq_zero_iff.mp hlen
    refine ⟨?_, ⟨a ++ w, by simp, by simp⟩⟩
    rw [map_cons, hcut.texts, hs, cstr_of_append (pre ++ a) rest (by simp) rfl hw]
  · obtain ⟨s', rfl, hlen⟩ := hcut.shape
    refine ⟨?_, ⟨a ++ w ++ 0 :: s', by simp, by simp [hlen]⟩⟩
    rw [map_cons, hcut.texts, hs, comps_sep_cons,
      cstr_of_append (pre ++ a) (s' ++ 0 :: rest) (by simp) rfl hw]

-- by induction on the fuel; `pre` is what the loop has gone over
theorem splitLoop_spec {fuel : Nat} {pre s rest : Str} (items : List Nat) (hs : 0 ∉ s)
    (hfuel : s.length < fuel) (hitems : items.length ≤ stkMax) :
    (Splits (comps slash s) items.length → ∃ offs buf, Cut pre s rest offs buf ∧
        splitLoop fuel (pre ++ s ++ 0 :: rest) pre.length items = .ok (items ++ offs, buf)) ∧
      (¬ Splits (comps slash s) items.length →
        splitLoop fuel (pre ++ s ++ 0 :: rest) pre.length items =
          .error (.err (-ENAMETOOLONG))) := by
  induction fuel generalizing pre s items with
  | zero => omega
  | succ fuel ih =>
    rw [splitLoop, cstr_of_append pre rest rfl rfl hs]
    by_cases hnil : comps slash s = []
    · have hall := takeWhile_eq_self_of_comps_nil hnil
      have hend : cstr (pre ++ s ++ 0 :: rest) (pre.length + s.length) = [] :=
        cstr_of_append (pre ++ s) rest (by simp) (by simp) not_mem_nil
      simp only [hall, hend, if_true, hnil]
      constructor
      · intro _
        exact ⟨[], _, ⟨by rw [hnil]; rfl, s, rfl, rfl⟩, by rw [append_nil]⟩
      · intro hnot
        exact absurd ⟨rfl, by simpa using hitems⟩ hnot
    obtain ⟨a, w, t, rfl, hw, ha, hwt, ht, hcs⟩ := exists_word hnil
    rw [append_assoc, mem_append, mem_append, not_or, not_or] at hs
    have hrest : cstr (pre ++ (a ++ w ++ t) ++ 0 :: rest) (pre.length + a.length) = w ++ t :=
      cstr_of_append (pre ++ a) rest (by simp) (by simp) (by simp [hs.2.1, hs.2.2])
    have hpos := length_pos_iff.mpr hw.1
    have hne : w ++ t ≠ [] := by simp [hw.1]
    have htail : cstr (pre ++ (a ++ w ++ t) ++ 0 :: rest) (pre.length + a.length + w.length) = t :=
      cstr_of_append (pre ++ a ++ w) rest (by simp) (by simp [Nat.add_assoc]) hs.2.2
    simp only [ha, hrest, if_neg hne, hwt, htail, Nat.add_sub_cancel_left]
    by_cases hbig : w.length > VFS_NAME_MAX ∨ items.length ≥ stkMax
    · rw [if_pos hbig]
      refine ⟨fun hsplits => ?_, fun _ => rfl⟩
      rw [hcs] at hsplits
      exact absurd hsplits (not_splits_cons hbig)
    rw [if_neg hbig, hcs, splits_cons hbig]
    have hlen : (items ++ [pre.length + a.length]).length = items.length + 1 := by simp
    simp only [length_append] at hfuel
    -- the loop goes on with the rest `t'` of the string, `pre'` being what is before it
    have hnext : ∀ {pre' t' : Str}, 0 ∉ t' → t'.length ≤ t.length → comps slash t' = comps slash t →
        (∀ {offs buf}, Cut pre' t' rest offs buf →
          Cut pre (a ++ w ++ t) rest ((pre ++ a).length :: offs) buf) →
        (Splits (comps slash t) (items.length + 1) → ∃ offs buf,
          Cut pre (a ++ w ++ t) rest offs buf ∧ splitLoop fuel (pre' ++ t' ++ 0 :: rest) pre'.length
            (items ++ [pre.length + a.length]) = .ok (items ++ offs, buf)) ∧
        (¬ Splits (comps slash t) (items.length + 1) →
          splitLoop fuel (pre' ++ t' ++ 0 :: rest) pre'.length
            (items ++ [pre.length + a.length]) = .error (.err (-ENAMETOOLONG))) := by
      intro pre' t' ht' hle hcomps hcut
      have hih := @ih pre' t' (items ++ [pre.length + a.length]) ht' (by omega) (by omega)
      rw [hlen, hcomps] at hih
      refine ⟨fun hsplits => ?_, hih.2⟩
      obtain ⟨offs, buf, hcut', hrun⟩ := hih.1 hsplits
      refine ⟨_, buf, hcut hcut', ?_⟩
      rw [hrun, append_assoc, length_append]
      rfl
    rcases ht with rfl | ⟨t', rfl⟩
    · have h := @hnext (pre ++ a ++ w) [] not_mem_nil le_rfl rfl
        fun hcut => Cut.cons hcs hs.2.1 (.inl ⟨rfl, hcut⟩)
      simpa [Nat.add_assoc] using h
    · have h := @hnext (pre ++ a ++ w ++ [0]) t' (fun h => hs.2.2 (mem_cons_of_mem _ h)) (by simp)
        (comps_sep_cons _).symm fun hcut => Cut.cons hcs hs.2.1 (.inr ⟨t', rfl, hcut⟩)
      have hset := @set_length_append (pre ++ a ++ w) slash 0 (t' ++ 0 :: rest)
      simp only [length_append, append_assoc] at hset
      simpa [Nat.add_assoc, hset] using h

-- a string shorter than `VFS_PATH_MAX` has no more components than the stack can hold
theorem split_spec (rest : Str) (hs : 0 ∉ s) (hlen : s.length < VFS_PATH_MAX) :
    (tooLong (comps slash s) = false → ∃ offs buf,
        split (s ++ 0 :: rest) = .ok (offs, buf) ∧ offs.map (cstr buf) = comps slash s) ∧
      (tooLong (comps slash s) = true →
        split (s ++ 0 :: rest) = .error (.err (-ENAMETOOLONG))) := by
  have hcount := length_comps_le slash s
  have hroom : 0 + (comps slash s).length ≤ stkMax := by
    unfold stkMax
    omega
  have hspec := @splitLoop_spec (s ++ 0 :: rest).length [] s rest [] hs (by simp) (Nat.zero_le _)
  constructor
  · intro hshort
    obtain ⟨offs, buf, hcut, hrun⟩ := hspec.1 ⟨hshort, hroom⟩
    exact ⟨offs, buf, hrun, hcut.texts⟩
  · intro hlong
    apply hspec.2
    rintro ⟨hshort, _⟩
    rw [hlong] at hshort
    cases hshort

/-! ## One component -/

theorem splice_nil_right (stk : List Comp) : splice stk [] = stk := by
  unfold splice
  rw [reverse_nil, nil_append, take_of_length_le (by simp), reverse_reverse]

-- with one component pending, the last one of the target takes its place
theorem splice_singleton (c d : Comp) (tgt : List Comp) : splice [c] (tgt ++ [d]) = [d] := by
  simp [splice]

section Step

variable {m : Mount} {fl : Flags} {w : Walk} {c : Str} {nxt : Nat} {i : Inode}

/-- The walk has come to `w.ino` by names, and `done` leaves room for `n` more. -/
structure Stands (m : Mount) (w : Walk) (n : Nat) : Prop where
  place : m.tbl.At m.rootIno w.depth w.ino
  room : w.done + n ≤ stkMax

variable {n : Nat}

theorem Stands.pred (h : Stands m w (n + 1)) : Stands m w n :=
  ⟨h.place, Nat.le_of_succ_le h.room⟩

theorem Stands.up (ht : m.tbl.IsTree m.rootIno) (h : Stands m w (n + 1))
    (hl : m.tbl.ent w.ino [dot, dot] = some nxt) :
    w.depth = 0 ∧ nxt = m.rootIno ∧ Stands m { w with ino := m.rootIno } n ∨
      w.depth ≠ 0 ∧
        Stands m { w with ino := nxt, depth := w.depth - 1, done := w.done - 1 } n := by
  obtain ⟨⟨p, hp, hlen⟩, hroom⟩ := h
  rcases eq_nil_or_concat p with rfl | ⟨p, name, rfl⟩
  · left
    rw [follow_nil, Option.some_inj] at hp
    rw [← hp, ht.up_root, Option.some_inj] at hl
    exact ⟨hlen.symm, hl.symm, ⟨[], follow_nil, hlen⟩, by show w.done + n ≤ stkMax; omega⟩
  · right
    rw [concat_eq_append, length_append, length_singleton] at hlen
    rw [concat_eq_append, follow_concat, Option.bind_eq_some_iff] at hp
    obtain ⟨e, he, hname⟩ := hp
    rw [ht.up hname (isDir_of_ent hl)] at hl
    refine ⟨by omega, ⟨p, by rw [he, hl], ?_⟩, ?_⟩
    · show p.length = w.depth - 1
      omega
    · show w.done - 1 + n ≤ stkMax
      omega

theorem resolveStep_ok (fl : Flags) (ht : m.tbl.IsTree m.rootIno) (h : Stands m w (n + 1))
    (hc : c ≠ [dot]) (hl : m.tbl.lookup w.ino c = .ok nxt) (hi : m.tbl nxt = some i)
    (hlink : i.isLink = false) :
    ∃ w', (∀ stk, resolveStep m fl c stk w = .ok (stk, w')) ∧ w'.ino = nxt ∧
      w'.symlnks = w.symlnks ∧ Stands m w' n := by
  have hent := lookup_eq_ok_iff.mp hl
  by_cases hdots : c = [dot, dot]
  · have hstep : ∀ stk, resolveStep m fl c stk w =
        if w.depth = 0 then .ok (stk, { w with ino := m.rootIno })
        else .ok (stk, { w with ino := nxt, depth := w.depth - 1, done := w.done - 1 }) := by
      intro stk
      unfold resolveStep
      rw [if_neg hc, if_pos hdots, hl]
      rfl
    rw [hdots] at hent
    simp only [hstep]
    rcases h.up ht hent with ⟨hdepth, hroot, hst⟩ | ⟨hdepth, hst⟩
    · simp only [if_pos hdepth]
      exact ⟨_, fun _ => rfl, hroot.symm, rfl, hst⟩
    · simp only [if_neg hdepth]
      exact ⟨_, fun _ => rfl, rfl, rfl, hst⟩
  · obtain ⟨⟨p, hp, hlen⟩, hroom⟩ := h
    refine ⟨{ w with ino := nxt, depth := w.depth + 1, done := w.done + 1 }, ?_, rfl, rfl,
      ⟨p ++ [c], ?_, ?_⟩, ?_⟩
    · intro stk
      unfold resolveStep
      rw [if_neg hc, if_neg hdots, hl]
      change (m.tbl.getino nxt >>= _) = _
      rw [getino_of_eq_some hi]
      change (if i.isLink = true then _ else _) = _
      rw [hlink, if_neg Bool.false_ne_true, if_neg (by omega)]
    · rw [follow_concat_of hp, child_of_ne hc hdots, hent]
    · rw [length_append, hlen]
      rfl
    · show w.done + 1 + n ≤ stkMax
      omega

theorem resolveStep_error {e : Stop} (stk : List Comp) (ht : m.tbl.IsTree m.rootIno)
    (h : Stands m w n) (hc : c ≠ [dot]) (hl : m.tbl.lookup w.ino c = .error e) :
    resolveStep m fl c stk w = .error e := by
  unfold resolveStep
  rw [if_neg hc, hl]
  by_cases hdots : c = [dot, dot]
  swap
  · rw [if_neg hdots]
    rfl
  -- at the root `..` is there
  have hdepth : w.depth ≠ 0 := by
    intro hzero
    obtain ⟨p, hp, hlen⟩ := h.place
    rw [hzero, length_eq_zero_iff] at hlen
    subst hlen
    rw [follow_nil, Option.some_inj] at hp
    rw [← hp, hdots, lookup_eq_ok_iff.mpr ht.up_root] at hl
    cases hl
  rw [if_pos hdots, if_neg hdepth]
  rfl

-- a link is followed if it is not the last component or the flags say so
theorem resolveStep_link (ht : m.tbl.IsTree m.rootIno) (h : Stands m w n) (hc : c ≠ [dot])
    (hl : m.tbl.lookup w.ino c = .ok nxt) (hi : m.tbl nxt = some i) (hlink : i.isLink = true)
    (hsym : fl.noSymlinks = false) (hfinal : ¬ (stk = [] ∧ fl.followFinal = false)) :
    resolveStep m fl c stk w =
      if w.symlnks + 1 > VFS_MAX_SYMLINKS then .error (.err (-ELOOP))
      else followLink m stk w nxt := by
  have hdots : c ≠ [dot, dot] := by
    intro heq
    rw [heq] at hl
    have hdir := ht.isDir_up (lookup_eq_ok_iff.mp hl) ⟨_, h.place⟩
    rw [hdir.isLink_eq_false hi] at hlink
    cases hlink
  unfold resolveStep
  rw [if_neg hc, if_neg hdots, hl]
  change (m.tbl.getino nxt >>= _) = _
  rw [getino_of_eq_some hi]
  change (if i.isLink = true then _ else _) = _
  rw [hlink, if_pos rfl, hsym, if_neg Bool.false_ne_true, if_neg hfinal]

end Step

/-! ## Links -/

section Link

variable {m : Mount} {w : Walk} {nxt : Nat} {target : Str}

theorem readsym_lt {t : Table} {ino buflen : Nat} (h : t.readsym ino buflen = .ok target) :
    target.length < buflen ∧ ∃ i, t ino = some i ∧ i.target = target := by
  unfold readsym getino at h
  cases hi : t ino with
  | none =>
    rw [hi] at h
    cases h
  | some i =>
    rw [hi] at h
    change (if _ then _ else _) = _ at h
    split at h
    · cases h
    · rename_i hlen
      rw [Except.ok.injEq] at h
      subst h
      exact ⟨Nat.not_le.mp hlen, i, rfl, rfl⟩

/-- Where the components of a target start. -/
def linkBase (m : Mount) (target : Str) (cur : Nat) : Nat :=
  if target.head? = some slash then m.rootIno else cur

-- the spliced stack and the state behind the link, whatever is pending
theorem followLink_short (ht : m.tbl.IsTree m.rootIno)
    (hsym : m.tbl.readsym nxt VFS_PATH_MAX = .ok target)
    (hshort : tooLong (comps slash target) = false) :
    ∃ (offs : List Nat) (w' : Walk), offs.length = (comps slash target).length ∧
      w'.ino = linkBase m target w.ino ∧ w'.symlnks = w.symlnks + 1 ∧
      (∀ n, Stands m w n → Stands m w' n) ∧
      ∀ stk, followLink m stk w nxt =
        if stk.length + (comps slash target).length > stkMax then .error (.err (-ENAMETOOLONG))
        else .ok (splice stk (offs.map .inLink), w') := by
  obtain ⟨hlen, i, hi, rfl⟩ := readsym_lt hsym
  obtain ⟨offs, buf, hrun, htexts⟩ := (split_spec (w.lnkbuf.drop (i.target.length + 1))
    (ht.targets hi) hlen).1 hshort
  have hcount : offs.length = (comps slash i.target).length := by
    rw [← htexts, length_map]
  have hhead : (i.target ++ 0 :: w.lnkbuf.drop (i.target.length + 1)).head? = some slash ↔
      i.target.head? = some slash := by
    cases i.target with
    | nil => simp [slash]
    | cons x t => simp
  have hfollow : ∀ stk, followLink m stk w nxt =
      if stk.length + (comps slash i.target).length > stkMax then .error (.err (-ENAMETOOLONG))
      else .ok (splice stk (offs.map .inLink),
        { (if i.target.head? = some slash then { w with ino := m.rootIno, depth := 0, done := 0 }
            else w) with symlnks := w.symlnks + 1, lnkbuf := buf }) := by
    intro stk
    unfold followLink
    rw [hsym]
    simp only [bind, Except.bind, hrun, hcount, hhead]
    congr 4
    split <;> rfl
  refine ⟨offs, _, hcount, ?_, rfl, ?_, hfollow⟩
  · unfold linkBase
    split <;> rfl
  · intro n hst
    split
    · exact ⟨⟨[], follow_nil, rfl⟩, by have := hst.room; show 0 + n ≤ stkMax; omega⟩
    · exact ⟨hst.place, hst.room⟩

theorem followLink_long (ht : m.tbl.IsTree m.rootIno)
    (hsym : m.tbl.readsym nxt VFS_PATH_MAX = .ok target)
    (hlong : tooLong (comps slash target) = true) :
    followLink m stk w nxt = .error (.err (-ENAMETOOLONG)) := by
  obtain ⟨hlen, i, hi, rfl⟩ := readsym_lt hsym
  unfold followLink
  rw [hsym]
  simp only [bind, Except.bind]
  rw [(split_spec _ (ht.targets hi) hlen).2 hlong]

end Link

/-! ## The whole loop -/

section Loop

variable {m : Mount} {fl : Flags} {w : Walk}

theorem resolveLoop_cons (fuel : Nat) (c : Comp) (stk : List Comp) (w : Walk) :
    resolveLoop m fl (fuel + 1) (c :: stk) w =
      (resolveStep m fl (c.text w.lnkbuf) stk w).bind fun next =>
        resolveLoop m fl fuel next.1 next.2 := rfl

theorem resolveStep_dot (stk : List Comp) (w : Walk) :
    resolveStep m fl [dot] stk w = .ok (stk, w) := if_pos rfl

-- components without a link leave the rest of the stack as it is
theorem resolveLoop_noLinks {n d : Nat} {p : List Str} (ht : m.tbl.IsTree m.rootIno)
    (h : Stands m w (p.length + n)) (hp : walk m true 0 w.ino p = .ok d) :
    ∃ w', w'.ino = d ∧ w'.symlnks = w.symlnks ∧ Stands m w' n ∧ ∀ fuel stk,
      resolveLoop m fl (p.length + fuel) (p.map .inPath ++ stk) w =
        resolveLoop m fl fuel stk w' := by
  induction p generalizing w with
  | nil =>
    rw [walk_nil, Except.ok.injEq] at hp
    rw [length_nil, Nat.zero_add] at h
    refine ⟨w, hp, rfl, h, fun fuel stk => ?_⟩
    rw [length_nil, Nat.zero_add]
    rfl
  | cons c p ih =>
    have hlen : ∀ fuel, (c :: p).length + fuel = p.length + fuel + 1 := by
      intro fuel
      rw [length_cons]
      omega
    have hloop : ∀ fuel stk,
        resolveLoop m fl ((c :: p).length + fuel) ((c :: p).map .inPath ++ stk) w =
          (resolveStep m fl c (p.map .inPath ++ stk) w).bind fun next =>
            resolveLoop m fl (p.length + fuel) next.1 next.2 := by
      intro fuel stk
      rw [hlen, map_cons, cons_append]
      rfl
    simp only [hloop]
    rw [hlen] at h
    rcases walk_cons_cases hp with rfl | ⟨nxt, i, hc, hl, hi, hlink⟩
    · rw [walk_dot] at hp
      exact ih h.pred hp
    have hil : i.isLink = false := by
      cases hil : i.isLink with
      | false => rfl
      | true => cases hlink hil
    rw [walk_cons_ok hc hl hi hil] at hp
    obtain ⟨w₁, hrun, hino, hsym, hst⟩ := resolveStep_ok fl ht h hc hl hi hil
    rw [← hino] at hp
    obtain ⟨w', hd, hsym', hst', hrest⟩ := ih hst hp
    refine ⟨w', hd, hsym'.trans hsym, hst', fun fuel stk => ?_⟩
    rw [hrun]
    exact hrest fuel stk

/-- A link that the loop gets right: its target has no component, or one that is too long for the
loop and for the mount. -/
def Harmless (m : Mount) (link : Nat) : Prop :=
  ∀ target, m.tbl.readsym link VFS_PATH_MAX = .ok target →
    comps slash target = [] ∨
      tooLong (comps slash target) = true ∧ tooLong (m.targetComps target) = true

/-- The links of all directories that names lead to are harmless, also those that only paths longer
than `VFS_PATH_MAX` lead to. -/
def HarmlessLinks (m : Mount) : Prop :=
  ∀ p d name link, follow m.tbl.child m.rootIno p = some d →
    m.tbl.child d name = some link → m.tbl.IsLink link → Harmless m link

def FOLLOW : Flags := { noSymlinks := false, mustBeDir := false, followFinal := true }

variable {cs : List Str} {k : Nat} {path : Str}

theorem followLink_eq_walkNext {nxt : Nat} (ht : m.tbl.IsTree m.rootIno)
    (h : Stands m w n) (hcs : cs.length ≤ stkMax) (hlink : Harmless m nxt)
    (ih : ∀ w', w'.symlnks = w.symlnks + 1 → Stands m w' n →
      resolveLoop m FOLLOW cs.length (cs.map .inPath) w' = walk m true k w'.ino cs) :
    ((followLink m (cs.map .inPath) w nxt).bind fun next =>
        resolveLoop m FOLLOW cs.length next.1 next.2) = walkNext m true (k + 1) w.ino nxt cs := by
  cases hsym : m.tbl.readsym nxt VFS_PATH_MAX with
  | error e =>
    rw [walkNext_eq_bind, followLink, hsym]
    rfl
  | ok target =>
    rw [walkNext_succ hsym]
    rcases hlink target hsym with hnil | ⟨hlong, hlong'⟩
    · have hshort : tooLong (comps slash target) = false := by
        rw [hnil]
        rfl
      obtain ⟨offs, w', hcount, hino, hsymlnks, hst, hrun⟩ := followLink_short ht hsym hshort
      rw [hnil] at hcount hrun
      obtain rfl := length_eq_zero_iff.mp hcount
      rw [hrun, m.targetComps_eq_nil hnil, if_neg (by simpa using hcs)]
      show resolveLoop m FOLLOW cs.length (splice _ []) w' = _
      rw [splice_nil_right, ih w' hsymlnks (hst n h), hino]
      rfl
    · rw [followLink_long ht hsym hlong, if_pos hlong']
      rfl

-- by induction on the components that are left
theorem resolveLoop_eq_walk (ht : m.tbl.IsTree m.rootIno) (hlinks : HarmlessLinks m)
    (h : Stands m w cs.length) (hk : w.symlnks + k = VFS_MAX_SYMLINKS) :
    resolveLoop m FOLLOW cs.length (cs.map .inPath) w = walk m true k w.ino cs := by
  induction cs generalizing w k with
  | nil => rw [walk_nil]; rfl
  | cons c cs ih =>
    rw [length_cons, map_cons]
    show (resolveStep m FOLLOW c (cs.map Comp.inPath) w).bind _ = _
    by_cases hc : c = [dot]
    · rw [hc, walk_dot]
      exact ih h.pred hk
    cases hl : m.tbl.lookup w.ino c with
    | error e =>
      rw [resolveStep_error _ ht h hc hl, walk_cons_error hc hl]
      rfl
    | ok nxt =>
      have hent := lookup_eq_ok_iff.mp hl
      obtain ⟨i, hi⟩ := ht.present hent
      cases hil : i.isLink with
      | false =>
        obtain ⟨w', hrun, hino, hsym, hst⟩ := resolveStep_ok _ ht h hc hl hi hil
        rw [hrun, walk_cons_ok hc hl hi hil, ← hino]
        exact @ih w' k hst (by omega)
      | true =>
        have hwalk : walk m true k w.ino (c :: cs) = walkNext m true k w.ino nxt cs := by
          rw [walk_cons_link hc hl hi hil, if_neg (by simp)]
        rw [resolveStep_link ht h hc hl hi hil rfl (by simp [FOLLOW]), hwalk]
        cases k with
        | zero =>
          rw [if_pos (by omega)]
          rfl
        | succ k =>
          rw [if_neg (by omega)]
          obtain ⟨p, hp, _⟩ := h.place
          have hdots : c ≠ [dot, dot] := by
            intro heq
            rw [heq] at hent
            rw [(ht.isDir_up hent ⟨_, h.place⟩).isLink_eq_false hi] at hil
            cases hil
          have hroom : cs.length ≤ stkMax := by
            have := h.pred.room
            omega
          refine followLink_eq_walkNext ht h.pred hroom
            (hlinks p w.ino c nxt hp ?_ ⟨i, hi, hil⟩) fun w' hsym hst => ih hst (by omega)
          rw [child_of_ne hc hdots, hent]

theorem not_mem_relPath (hzero : 0 ∉ path) : 0 ∉ m.relPath path :=
  fun h => hzero ((m.relPath_suffix path).subset h)

theorem stands_start (hlen : s.length < VFS_PATH_MAX) :
    Stands m m.start (comps slash s).length := by
  have := length_comps_le slash s
  refine ⟨⟨[], follow_nil, rfl⟩, ?_⟩
  show 0 + (comps slash s).length ≤ stkMax
  unfold stkMax
  omega

-- the stack of the loop holds the components
theorem vfsResolve_eq_loop (hne : path ≠ []) (hzero : 0 ∉ path)
    (hlen : (m.relPath path).length < VFS_PATH_MAX)
    (hshort : tooLong (comps slash (m.relPath path)) = false) : vfsResolve (some m) path fl =
      (resolveLoop m fl (comps slash (m.relPath path)).length
        ((comps slash (m.relPath path)).map .inPath) m.start).bind (m.finish fl) := by
  obtain ⟨offs, buf, hsplit, htexts⟩ := (split_spec [] (not_mem_relPath hzero) hlen).1 hshort
  unfold vfsResolve
  simp only [if_neg hne, if_neg (Nat.not_le.mpr hlen), hsplit, bind, Except.bind]
  have hstk : offs.map (fun off => Comp.inPath (cstr buf off)) =
      (comps slash (m.relPath path)).map .inPath := by
    rw [← htexts, map_map]
    rfl
  rw [hstk, length_map]

-- without links on the way the loop walks along the names
theorem resolveLoop_plain (ht : m.tbl.IsTree m.rootIno) (h : Stands m w cs.length)
    (hdots : NoDots cs) (hplain : Plain m true w.ino cs) :
    resolveLoop m FOLLOW cs.length (cs.map .inPath) w = walk m true k w.ino cs := by
  induction cs generalizing w with
  | nil => rw [walk_nil]; rfl
  | cons c cs ih =>
    have hc := hdots c mem_cons_self
    rw [length_cons, map_cons]
    show (resolveStep m FOLLOW c (cs.map Comp.inPath) w).bind _ = _
    cases hl : m.tbl.lookup w.ino c with
    | error e =>
      rw [resolveStep_error _ ht h hc.1 hl, walk_cons_error hc.1 hl]
      rfl
    | ok nxt =>
      have hchild := child_of_lookup hc hl
      obtain ⟨i, hi⟩ := ht.present (ent_of_child hchild)
      have hlink : i.isLink = false := (hplain.head hchild hi).resolve_right nofun
      obtain ⟨w', hrun, hino, _, hst⟩ := resolveStep_ok FOLLOW ht h hc.1 hl hi hlink
      rw [hrun, walk_cons_ok hc.1 hl hi hlink, ← hino]
      refine @ih w' hst hdots.tail ?_
      rw [hino]
      exact hplain.tail hchild

theorem vfsResolve_long (hne : path ≠ []) (hzero : 0 ∉ path)
    (hlen : (m.relPath path).length < VFS_PATH_MAX)
    (hlong : tooLong (comps slash (m.relPath path)) = true) :
    vfsResolve (some m) path fl = .error (.err (-ENAMETOOLONG)) := by
  unfold vfsResolve
  simp only [if_neg hne, if_neg (Nat.not_le.mpr hlen),
    (split_spec [] (not_mem_relPath hzero) hlen).2 hlong, bind, Except.bind]

end Loop

end Vfs
