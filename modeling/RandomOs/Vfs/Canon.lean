import RandomOs.Kern.Errno
import RandomOs.Lib.Op
import RandomOs.Lib.Paths

/-!
# Canonical paths (`vfs_canonicalize`, `vfs.c`)

A string is the list of its bytes before the terminating zero.  The output buffer is modelled by
what is written in it so far, `out[0 .. opos)`, and a store at or after `out[outlen]` is a fault.
-/

namespace Vfs

open Kern Lib Lib.Paths List

abbrev Str := List UInt8

def slash : UInt8 := 47

def dot : UInt8 := 46

/-- `memcpy(out + opos, bs, n); opos += n`. -/
def append (outlen : Nat) (out bs : Str) : Except Stop Str :=
  if outlen < out.length + bs.length then .error .fault else .ok (out ++ bs)

/-- The `/` between two components. -/
def separate (outlen : Nat) (out : Str) : Except Stop Str :=
  if 0 < out.length ∧ out.getLast? ≠ some slash then
    if out.length + 1 ≥ outlen then .error (.err (-ETOOSMALL)) else append outlen out [slash]
  else
    .ok out

/-- One component `c` of the path, in the body of the loop. -/
def canonStep (outlen : Nat) (out c : Str) : Except Stop Str :=
  if c = [dot] then
    .ok out
  else if c = [dot, dot] then
    if out.length > 1 then .ok (out.dropLast.rdropWhile (· != slash)) else .ok out
  else do
    let out ← separate outlen out
    if out.length + c.length ≥ outlen then .error (.err (-ETOOSMALL)) else append outlen out c

/-- The loop over the path.  Each turn takes at least one byte of it. -/
def canonLoop (outlen : Nat) : Nat → Str → Str → Except Stop Str
  | 0, _, out => .ok out
  | fuel + 1, path, out =>
    let st := path.dropWhile (· == slash)
    if st = [] then
      .ok out
    else do
      let out ← canonStep outlen out (st.takeWhile (· != slash))
      canonLoop outlen fuel (st.dropWhile (· != slash)) out

def vfsCanonicalize (path : Str) (outlen : Nat) : Except Stop Str :=
  if outlen = 0 ∨ path = [] then
    .error (.err (-EINVAL))
  else do
    let out ← append outlen [] [slash]
    let out ← canonLoop outlen path.length path out
    let out := if out = [] then [slash] else out
    -- `out[opos] = '\0'`
    let _ ← append outlen out [0]
    return out

/-! ## The loop goes over the components -/

variable {path c : Str} {st cs : List Str} {tr : Bool} {outlen : Nat}

theorem canonLoop_eq_foldlM (outlen : Nat) {fuel : Nat} (out : Str) (hfuel : path.length ≤ fuel) :
    canonLoop outlen fuel path out = (comps slash path).foldlM (canonStep outlen) out := by
  induction fuel generalizing path out with
  | zero =>
    rw [length_eq_zero_iff.mp (Nat.le_zero.mp hfuel)]
    rfl
  | succ fuel ih =>
    rw [canonLoop, ← comps_dropWhile_sep]
    have hlen := (dropWhile_suffix (l := path) (· == slash)).length_le
    have hhead := head?_dropWhile_sep slash path
    generalize path.dropWhile (· == slash) = st at hlen hhead
    by_cases hst : st = []
    · rw [hst]
      rfl
    rw [if_neg hst, (comps_takeWhile hst hhead).2]
    have hlt := length_dropWhile_lt hst hhead
    congr 1
    funext out'
    exact ih out' (by omega)

/-! ## What the buffer holds -/

/-- The components joined, perhaps with a `/` after them: `..` takes away a component and leaves the
`/` in front of it. -/
def shape (st : List Str) (tr : Bool) : Str := join slash st ++ if tr then [slash] else []

/-- The `/` at the end after the component `c`. -/
def trailStep (tr : Bool) (c : Str) : Bool :=
  if c = [dot] then tr else if c = [dot, dot] then true else false

def trail (cs : List Str) : Bool := cs.foldl trailStep true

/-- The output never runs out of its buffer between two components. -/
structure Shaped (st : List Str) (tr : Bool) : Prop where
  words : ∀ c ∈ st, Word slash c
  root : st = [] → tr = true

theorem length_shape (st : List Str) (tr : Bool) :
    (shape st tr).length = (join slash st).length + if tr then 1 else 0 := by
  unfold shape
  cases tr <;> simp

theorem getLast?_shape (h : Shaped st tr) : (shape st tr).getLast? = some slash ↔ tr = true := by
  unfold shape
  cases tr with
  | true => simp
  | false => simpa using getLast?_join h.words

-- backing up over a component stops behind the `/` in front of it
theorem rdropWhile_word {s : Str} (hc : slash ∉ c) :
    (s ++ slash :: c).rdropWhile (· != slash) = s ++ [slash] := by
  induction c using List.reverseRecOn with
  | nil => rw [rdropWhile_concat_neg _ _ _ (by simp)]
  | append_singleton c x ih =>
    rw [mem_append, mem_singleton, not_or] at hc
    rw [← cons_append, ← append_assoc,
      rdropWhile_concat_pos _ _ _ (by simpa using Ne.symm hc.2), ih hc.1]

theorem separate_shape (h : Shaped st tr) :
    separate outlen (shape st tr) =
      if tr = false ∧ outlen ≤ (join slash st).length + 1 then .error (.err (-ETOOSMALL))
      else .ok (shape st true) := by
  have hlast := getLast?_shape h
  unfold separate
  cases tr with
  | true => rw [if_neg fun hif => hif.2 (hlast.mpr rfl), if_neg (by simp)]
  | false =>
    have hpos : 0 < (join slash st).length := by
      cases st with
      | nil => exact absurd (h.root rfl) Bool.false_ne_true
      | cons c st => simp [join]
    rw [length_shape, if_pos ⟨hpos, fun h => Bool.false_ne_true (hlast.mp h)⟩]
    simp only [Bool.false_eq_true, if_false, Nat.add_zero, ge_iff_le, true_and]
    split
    · rfl
    · unfold append
      rw [length_shape, if_neg (by simp; omega)]
      simp [shape]

theorem canonStep_dotdot (h : Shaped st tr) :
    canonStep outlen (shape st tr) [dot, dot] = .ok (shape st.dropLast true) := by
  unfold canonStep
  rw [if_neg (by simp), if_pos rfl]
  rcases eq_nil_or_concat st with rfl | ⟨st, c, rfl⟩
  · rw [h.root rfl]
    rfl
  rw [concat_eq_append] at h ⊢
  have hc := h.words c (by simp)
  have hpos := length_pos_iff.mpr hc.1
  rw [if_pos (by rw [length_shape, length_join_concat]; omega), dropLast_concat]
  congr 1
  unfold shape
  rw [join_concat]
  cases tr with
  | true =>
    simp only [if_true, dropLast_concat]
    exact rdropWhile_word hc.2
  | false =>
    obtain ⟨c', x, rfl⟩ : ∃ c' x, c = c' ++ [x] := by
      rcases eq_nil_or_concat c with h | ⟨c', x, h⟩
      · exact absurd h hc.1
      · exact ⟨c', x, by rw [h, concat_eq_append]⟩
    simp only [Bool.false_eq_true, if_false, if_true, append_nil]
    rw [← cons_append, ← append_assoc, dropLast_concat]
    exact rdropWhile_word fun hmem => hc.2 (mem_append_left _ hmem)

theorem canonStep_word (h : Shaped st tr) (h₁ : c ≠ [dot]) (h₂ : c ≠ [dot, dot]) :
    canonStep outlen (shape st tr) c =
      if outlen ≤ (join slash (st ++ [c])).length then .error (.err (-ETOOSMALL))
      else .ok (shape (st ++ [c]) false) := by
  unfold canonStep
  rw [if_neg h₁, if_neg h₂, separate_shape h, length_join_concat]
  by_cases hsep : tr = false ∧ outlen ≤ (join slash st).length + 1
  · rw [if_pos hsep, if_pos (by omega)]
    rfl
  rw [if_neg hsep]
  change (if (shape st true).length + c.length ≥ outlen then .error (.err (-ETOOSMALL))
    else append outlen (shape st true) c) = _
  rw [length_shape, if_pos rfl]
  by_cases hlen : outlen ≤ (join slash st).length + (c.length + 1)
  · rw [if_pos (by omega), if_pos hlen]
  · rw [if_neg (by omega), if_neg hlen]
    unfold append
    rw [length_shape, if_pos rfl, if_neg (by omega)]
    simp [shape, join_concat]

theorem Shaped.push (h : Shaped st tr) (hc : Word slash c) :
    Shaped (push dot st c) (trailStep tr c) := by
  unfold Paths.push trailStep
  split
  · exact h
  split
  · exact ⟨fun d hd => h.words d (dropLast_subset _ hd), fun _ => rfl⟩
  constructor
  · intro d hd
    rw [mem_append, mem_singleton] at hd
    cases hd with
    | inl hd => exact h.words d hd
    | inr hd => exact hd ▸ hc
  · intro hnil
    simp at hnil

/-- The component `c` does not fit behind `st`. -/
def TooLong (outlen : Nat) (st : List Str) (c : Str) : Prop :=
  c ≠ [dot] ∧ c ≠ [dot, dot] ∧ outlen ≤ (join slash (st ++ [c])).length

theorem canonStep_shape (h : Shaped st tr) :
    TooLong outlen st c ∧ canonStep outlen (shape st tr) c = .error (.err (-ETOOSMALL)) ∨
      ¬ TooLong outlen st c ∧
        canonStep outlen (shape st tr) c = .ok (shape (push dot st c) (trailStep tr c)) := by
  by_cases h₁ : c = [dot]
  · right
    refine ⟨fun hlong => hlong.1 h₁, ?_⟩
    unfold canonStep trailStep
    rw [if_pos h₁, if_pos h₁, h₁, push_dot]
  · by_cases h₂ : c = [dot, dot]
    · right
      refine ⟨fun hlong => hlong.2.1 h₂, ?_⟩
      unfold trailStep
      rw [if_neg h₁, if_pos h₂, h₂, push_dotdot, canonStep_dotdot h]
    · unfold trailStep
      rw [canonStep_word h h₁ h₂, push_of_ne _ h₁ h₂, if_neg h₁, if_neg h₂]
      by_cases hlen : outlen ≤ (join slash (st ++ [c])).length
      · exact .inl ⟨⟨h₁, h₂, hlen⟩, if_pos hlen⟩
      · exact .inr ⟨fun hlong => hlen hlong.2.2, if_neg hlen⟩

/-! ## The whole run -/

/-- Some components from the left do not fit in the buffer. -/
def Overflows (outlen : Nat) (cs : List Str) : Prop :=
  ∃ pre, pre <+: cs ∧ outlen ≤ (join slash (canon dot pre)).length

theorem trail_concat (cs : List Str) (c : Str) : trail (cs ++ [c]) = trailStep (trail cs) c := by
  unfold trail
  rw [foldl_append, foldl_cons, foldl_nil]

theorem shaped_canon (h : ∀ c ∈ cs, Word slash c) : Shaped (canon dot cs) (trail cs) := by
  induction cs using List.reverseRecOn with
  | nil => exact ⟨fun _ hc => absurd hc not_mem_nil, fun _ => rfl⟩
  | append_singleton cs c ih =>
    rw [canon_concat, trail_concat]
    exact (ih fun d hd => h d (mem_append_left _ hd)).push (h c (by simp))

theorem overflows_concat (h : ¬ Overflows outlen cs) :
    Overflows outlen (cs ++ [c]) ↔ TooLong outlen (canon dot cs) c := by
  have hcs : (join slash (canon dot cs)).length < outlen := by
    by_contra hle
    exact h ⟨cs, prefix_rfl, by omega⟩
  constructor
  · rintro ⟨pre, hpre, hlen⟩
    have heq : pre = cs ++ [c] := by
      by_contra hne
      exact h ⟨pre, (prefix_concat_iff.mp hpre).resolve_left hne, hlen⟩
    subst heq
    rw [canon_concat] at hlen
    by_cases h₁ : c = [dot]
    · rw [h₁, push_dot] at hlen
      omega
    by_cases h₂ : c = [dot, dot]
    · rw [h₂, push_dotdot] at hlen
      have hpre := dropLast_prefix (canon dot cs)
      have := length_join_le_of_isPrefix slash hpre
      omega
    · rw [push_of_ne _ h₁ h₂] at hlen
      exact ⟨h₁, h₂, hlen⟩
  · rintro ⟨h₁, h₂, hlen⟩
    refine ⟨cs ++ [c], prefix_rfl, ?_⟩
    rwa [canon_concat, push_of_ne _ h₁ h₂]

-- by induction from the left end of the path: the loop has either overflowed or holds the shape
theorem foldlM_canonStep (outlen : Nat) (hpos : 0 < outlen) (h : ∀ c ∈ cs, Word slash c) :
    Overflows outlen cs ∧ cs.foldlM (canonStep outlen) [slash] = .error (.err (-ETOOSMALL)) ∨
      ¬ Overflows outlen cs ∧
        cs.foldlM (canonStep outlen) [slash] = .ok (shape (canon dot cs) (trail cs)) := by
  induction cs using List.reverseRecOn with
  | nil =>
    right
    refine ⟨?_, rfl⟩
    rintro ⟨pre, hpre, hlen⟩
    rw [prefix_nil.mp hpre] at hlen
    exact absurd hlen (Nat.not_le.mpr hpos)
  | append_singleton cs c ih =>
    have hcs : ∀ d ∈ cs, Word slash d := fun d hd => h d (mem_append_left _ hd)
    rw [foldlM_append, canon_concat, trail_concat]
    rcases ih hcs with ⟨⟨pre, hpre, hlen⟩, hrun⟩ | ⟨hfits, hrun⟩
    · left
      rw [hrun]
      exact ⟨⟨pre, hpre.trans (prefix_append cs [c]), hlen⟩, rfl⟩
    · have hone : ∀ out, List.foldlM (canonStep outlen) out [c] = canonStep outlen out c := by
        intro out
        simp
      rw [hrun, overflows_concat hfits]
      simp only [hone]
      exact canonStep_shape (shaped_canon hcs)

-- the buffer has room for the zero, except when it only holds the first `/`
theorem length_shape_lt (h : ¬ Overflows outlen cs) (hne : canon dot cs ≠ []) :
    (shape (canon dot cs) (trail cs)).length < outlen := by
  induction cs using List.reverseRecOn with
  | nil => exact absurd rfl hne
  | append_singleton cs c ih =>
    have hfull : (join slash (canon dot (cs ++ [c]))).length < outlen := by
      by_contra hle
      exact h ⟨cs ++ [c], prefix_rfl, by omega⟩
    have hcs : ¬ Overflows outlen cs := by
      rintro ⟨pre, hpre, hlen⟩
      exact h ⟨pre, hpre.trans (prefix_append cs [c]), hlen⟩
    rw [canon_concat] at hne hfull ⊢
    rw [trail_concat]
    by_cases h₁ : c = [dot]
    · rw [h₁] at hne ⊢
      exact ih hcs hne
    by_cases h₂ : c = [dot, dot]
    · rw [h₂, push_dotdot] at hne ⊢
      have hst : canon dot cs ≠ [] := by
        intro hnil
        rw [hnil] at hne
        exact hne rfl
      have hlen := ih hcs hst
      obtain ⟨st, d, hd⟩ := (eq_nil_or_concat (canon dot cs)).resolve_left hst
      rw [concat_eq_append] at hd
      rw [hd, length_shape, length_join_concat] at hlen
      rw [hd, dropLast_concat, length_shape]
      simp only [trailStep, reduceCtorEq, List.cons.injEq, and_false, if_false, if_true]
      omega
    · unfold trailStep
      rw [if_neg h₁, if_neg h₂, length_shape]
      exact hfull

theorem shape_ne_nil (h : Shaped st tr) : shape st tr ≠ [] := by
  intro hnil
  cases st with
  | nil =>
    rw [h.root rfl] at hnil
    cases hnil
  | cons c st => cases hnil

-- what the call returns: the overflow, the fault of the last store, or the buffer
theorem vfsCanonicalize_cases (hpath : path ≠ []) (hpos : 0 < outlen) :
    Overflows outlen (comps slash path) ∧ vfsCanonicalize path outlen = .error (.err (-ETOOSMALL)) ∨
      ¬ Overflows outlen (comps slash path) ∧ outlen = 1 ∧ canon dot (comps slash path) = [] ∧
        vfsCanonicalize path outlen = .error .fault ∨ ¬ Overflows outlen (comps slash path) ∧
        (shape (canon dot (comps slash path)) (trail (comps slash path))).length < outlen ∧
        vfsCanonicalize path outlen =
          .ok (shape (canon dot (comps slash path)) (trail (comps slash path))) := by
  have hwords : ∀ c ∈ comps slash path, Word slash c := fun _ => word_of_mem_comps
  have hshaped := shaped_canon hwords
  have hfirst : append outlen [] [slash] = .ok [slash] := if_neg (by simp; omega)
  unfold vfsCanonicalize
  rw [if_neg (by simp [hpath]; omega), hfirst]
  simp only [bind, Except.bind, pure, Except.pure]
  rw [canonLoop_eq_foldlM _ _ (Nat.le_refl _)]
  rcases foldlM_canonStep outlen hpos hwords with ⟨hover, hrun⟩ | ⟨hfits, hrun⟩
  · rw [hrun]
    exact .inl ⟨hover, rfl⟩
  right
  rw [hrun]
  simp only [if_neg (shape_ne_nil hshaped)]
  by_cases hlen : (shape (canon dot (comps slash path)) (trail (comps slash path))).length < outlen
  · right
    rw [append, length_singleton, if_neg (by omega)]
    exact ⟨hfits, hlen, rfl⟩
  left
  have hnil : canon dot (comps slash path) = [] := by
    by_contra hne
    exact hlen (length_shape_lt hfits hne)
  rw [append, length_singleton, if_pos (by omega)]
  refine ⟨hfits, ?_, hnil, rfl⟩
  rw [length_shape, hnil, hshaped.root hnil] at hlen
  change ¬ 0 + 1 < outlen at hlen
  omega

/-! ## The canonical string -/

/-- `/` and the components joined by single slashes. -/
def canonical (path : Str) : Str :=
  if canon dot (comps slash path) = [] then [slash] else join slash (canon dot (comps slash path))

/-- The last component that is not `.` is `..`. -/
def EndsInDotdot (path : Str) : Prop :=
  ((comps slash path).filter (· ≠ [dot])).getLast? = some [dot, dot]

theorem trail_iff (cs : List Str) : trail cs = true ↔ (cs.filter (· ≠ [dot])).getLast? = none ∨
      (cs.filter (· ≠ [dot])).getLast? = some [dot, dot] := by
  induction cs using List.reverseRecOn with
  | nil => simp [trail]
  | append_singleton cs c ih =>
    rw [trail_concat, filter_append, trailStep]
    by_cases h₁ : c = [dot]
    · have hone : [c].filter (· ≠ [dot]) = [] := by simp [h₁]
      rw [if_pos h₁, ih, hone, append_nil]
    · have hone : [c].filter (· ≠ [dot]) = [c] := by simp [h₁]
      rw [if_neg h₁, hone]
      by_cases h₂ : c = [dot, dot] <;> simp [h₂]

theorem canon_eq_nil_of_onlyDots (h : (cs.filter (· ≠ [dot])).getLast? = none) :
    canon dot cs = [] := by
  rw [List.getLast?_eq_none_iff, filter_eq_nil_iff] at h
  rw [eq_nil_iff_forall_not_mem]
  intro c hc
  have hmem := mem_canon hc
  exact h c hmem.1 (by simpa using hmem.2.1)

-- the buffer is the canonical string unless a `/` is left behind
theorem shape_eq_canonical_iff (path : Str) :
    shape (canon dot (comps slash path)) (trail (comps slash path)) = canonical path ↔
      canon dot (comps slash path) = [] ∨ ¬ EndsInDotdot path := by
  have hshaped := shaped_canon fun _ (hc : _ ∈ comps slash path) => word_of_mem_comps hc
  unfold canonical EndsInDotdot
  by_cases hnil : canon dot (comps slash path) = []
  · rw [hshaped.root hnil, hnil]
    exact iff_of_true rfl (.inl rfl)
  have htrail := trail_iff (comps slash path)
  have hsome := mt canon_eq_nil_of_onlyDots hnil
  simp only [hnil, hsome, false_or] at htrail ⊢
  rw [← htrail]
  unfold shape
  cases trail (comps slash path) <;> simp

theorem mem_canonical_words (hc : c ∈ canon dot (comps slash path)) :
    Word slash c ∧ c ≠ [dot] ∧ c ≠ [dot, dot] :=
  ⟨word_of_mem_comps (mem_canon hc).1, (mem_canon hc).2⟩

theorem comps_canonical (path : Str) :
    comps slash (canonical path) = canon dot (comps slash path) := by
  unfold canonical
  split
  · rename_i hnil
    rw [hnil, comps_sep_cons, comps_nil]
  · exact comps_join fun c hc => (mem_canonical_words hc).1

theorem canonical_ne_nil (path : Str) : canonical path ≠ [] := by
  unfold canonical
  split
  · exact cons_ne_nil _ _
  · rename_i hne
    cases hcs : canon dot (comps slash path) with
    | nil => exact absurd hcs hne
    | cons c cs => exact cons_ne_nil _ _

theorem canonical_getLast? (h : canonical path ≠ [slash]) :
    (canonical path).getLast? ≠ some slash := by
  unfold canonical at h ⊢
  split
  · rename_i hnil
    exact absurd (if_pos hnil) h
  · exact getLast?_join fun c hc => (mem_canonical_words hc).1

-- without dots nothing is taken away
theorem vfsCanonicalize_of_noDots (hpath : path ≠ [])
    (hdots : ∀ c ∈ comps slash path, c ≠ [dot] ∧ c ≠ [dot, dot]) (hone : 1 < outlen)
    (hlen : (join slash (comps slash path)).length < outlen) :
    vfsCanonicalize path outlen = .ok (canonical path) := by
  have hfits : ¬ Overflows outlen (comps slash path) := by
    rintro ⟨pre, hpre, hle⟩
    rw [canon_of_noDots fun c hc => hdots c (hpre.subset hc)] at hle
    have hjoin := length_join_le_of_isPrefix slash hpre
    omega
  have hlast : canon dot (comps slash path) = [] ∨ ¬ EndsInDotdot path := by
    right
    intro h
    have hmem := (mem_filter.mp (mem_of_getLast? h)).1
    exact (hdots _ hmem).2 rfl
  rcases vfsCanonicalize_cases hpath (by omega : 0 < outlen) with
    ⟨hover, _⟩ | ⟨_, hout, _⟩ | ⟨_, _, hrun⟩
  · exact absurd hover hfits
  · omega
  · rw [hrun, (shape_eq_canonical_iff _).mpr hlast]

-- a canonical string that fits is its own output
theorem vfsCanonicalize_canonical (hlen : (canonical path).length < outlen) :
    vfsCanonicalize (canonical path) outlen = .ok (canonical path) := by
  have hcs := comps_canonical path
  have hpos : 0 < (canonical path).length := length_pos_iff.mpr (canonical_ne_nil path)
  have hdots : ∀ c ∈ comps slash (canonical path), c ≠ [dot] ∧ c ≠ [dot, dot] := by
    rw [hcs]
    exact fun c hc => (mem_canonical_words hc).2
  have hjoin : (join slash (comps slash (canonical path))).length ≤ (canonical path).length := by
    rw [hcs]
    unfold canonical
    split
    · rename_i hnil
      rw [hnil]
      exact Nat.zero_le _
    · exact Nat.le_refl _
  have hsame : canonical (canonical path) = canonical path := by
    rw [canonical, canon_of_noDots hdots, hcs]
    rfl
  rw [vfsCanonicalize_of_noDots (canonical_ne_nil path) hdots (by omega) (by omega), hsame]

/-- An error, or the canonical string with its zero inside the buffer, which does not end in `/`
and is its own canonical string. -/
def CanonCorrect (path : Str) (outlen : Nat) : Prop :=
  match vfsCanonicalize path outlen with
  | .error (.err code) => code < 0
  | .error .fault => False
  | .ok out =>
    out = canonical path ∧ out.length < outlen ∧
      (out ≠ [slash] → out.getLast? ≠ some slash) ∧ vfsCanonicalize out outlen = .ok out

theorem vfsCanonicalize_correct_iff (path : Str) (outlen : Nat) (hpath : path ≠ [])
    (hpos : 1 ≤ outlen) : CanonCorrect path outlen ↔ Overflows outlen (comps slash path) ∨
        1 < outlen ∧ (canon dot (comps slash path) = [] ∨ ¬ EndsInDotdot path) := by
  unfold CanonCorrect
  rcases vfsCanonicalize_cases hpath hpos with
    ⟨hover, hrun⟩ | ⟨hfits, hone, _, hrun⟩ | ⟨hfits, hlen, hrun⟩
  · rw [hrun]
    exact iff_of_true (by decide : -ETOOSMALL < 0) (.inl hover)
  · rw [hrun]
    refine iff_of_false id ?_
    rintro (hover | ⟨hlt, _⟩)
    · exact hfits hover
    · omega
  · rw [hrun]
    have hlen₁ : 1 < outlen := by
      have hne := shape_ne_nil
        (shaped_canon fun _ (hc : _ ∈ comps slash path) => word_of_mem_comps hc)
      have := length_pos_iff.mpr hne
      omega
    simp only [hfits, false_or, hlen₁, true_and]
    rw [← shape_eq_canonical_iff]
    constructor
    · exact fun h => h.1
    · intro heq
      rw [heq] at hlen ⊢
      exact ⟨rfl, hlen, canonical_getLast?, vfsCanonicalize_canonical hlen⟩

-- `/a//./b` becomes `/a/b`
theorem canonicalize_dots_correct : CanonCorrect [47, 97, 47, 47, 46, 47, 98] 1024 :=
  (vfsCanonicalize_correct_iff _ _ (by decide) (by decide)).mpr
    (.inr ⟨by decide, .inr (by unfold EndsInDotdot; decide)⟩)

-- `/a/b/..` becomes `/a/`
theorem canonicalize_dotdot_wrong :
    vfsCanonicalize [47, 97, 47, 98, 47, 46, 46] 1024 = .ok [47, 97, 47] ∧
      ¬ CanonCorrect [47, 97, 47, 98, 47, 46, 46] 1024 := by
  have hrun : vfsCanonicalize [47, 97, 47, 98, 47, 46, 46] 1024 = .ok [47, 97, 47] := by decide
  refine ⟨hrun, ?_⟩
  unfold CanonCorrect
  rw [hrun]
  rintro ⟨heq, _⟩
  revert heq
  decide

end Vfs
