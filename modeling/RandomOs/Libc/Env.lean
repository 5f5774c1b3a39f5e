import Mathlib.Data.List.GetD
import Mathlib.Data.List.Nodup
import Mathlib.Data.List.TakeWhile
import RandomOs.Lib.Runs

/-!
# The environment (`env.c`)

`environ` is a vector of pointers to strings `name=value`, ended by a NULL pointer.  `getenv` walks
to the NULL and takes the first entry of the name, `setenv` walks over `__libc_environ_size__`
slots and takes the last one.  A new value of the length of the old one is copied over it, and the
function goes on as if it had found nothing.
-/

namespace Libc

open List

open Lib (Reach)

/-! ## Model -/

structure Environ where
  environ : List (Option (List UInt8))
  size : Nat
  deriving DecidableEq

def envNameok (name : List UInt8) : Bool := name ≠ [] && !name.contains 61

def strneq (s1 s2 : List UInt8) (n : Nat) : Bool :=
  (List.range n).all fun i => s1.getD i 0 == s2.getD i 0

-- the condition in both loops
def isEntry (e name : List UInt8) : Bool := strneq e name name.length && e.getD name.length 0 == 61

-- `none` is a read behind the vector
def getenvLoop (name : List UInt8) : List (Option (List UInt8)) → Option (Option (List UInt8))
  | [] => none
  | none :: _ => some none
  | some e :: v =>
    if isEntry e name then some (some (e.drop (name.length + 1))) else getenvLoop name v

def getenv (env : Environ) (name : List UInt8) : Option (Option (List UInt8)) :=
  if envNameok name then getenvLoop name env.environ else some none

-- `fidx` after `n` rounds; `none` is a read through NULL or behind the vector
def setenvLoop (v : List (Option (List UInt8))) (name : List UInt8) : Nat → Option (Option Nat)
  | 0 => some none
  | i + 1 => do
      let fidx ← setenvLoop v name i
      let e ← (v[i]?).join
      pure (if isEntry e name then some i else fidx)

/-- The allocator's answers: whether `malloc` succeeds, and what `realloc` leaves in new slots. -/
structure Heap where
  malloc : Bool
  realloc : Option (Nat → Option (List UInt8))

def reallocVector (v : List (Option (List UInt8))) (n : Nat) (fresh : Nat → Option (List UInt8)) :
    List (Option (List UInt8)) :=
  v.take n ++ (List.range (n - v.length)).map fresh

-- `sprintf(nent, "%s=%s", name, val)`
def newEnt (name val : List UInt8) : List UInt8 := name ++ 61 :: val

def setenvAppend (env : Environ) (name val : List UInt8) (heap : Heap) : Int × Environ :=
  if !heap.malloc then (-1, env)
  else
    match heap.realloc with
    | none => (-1, env)
    | some fresh =>
      let nenviron := reallocVector env.environ (env.size + 2) fresh
      (0, ⟨(nenviron.set env.size (some (newEnt name val))).set (env.size + 1) none,
        env.size + 1⟩)

def setenv (env : Environ) (name val : List UInt8) (overwrite : Int) (heap : Heap) :
    Option (Int × Environ) :=
  if !envNameok name then some (-1, env)
  else do
    match ← setenvLoop env.environ name env.size with
    | none => pure (setenvAppend env name val heap)
    | some fidx =>
      if overwrite = 0 then pure (-1, env)
      else do
        let e ← (env.environ[fidx]?).join
        if (e.drop (name.length + 1)).length = val.length then
          -- no return here
          let e' := e.take (name.length + 1) ++ val
          pure (setenvAppend ⟨env.environ.set fidx (some e'), env.size⟩ name val heap)
        else if heap.malloc then
          pure (0, ⟨env.environ.set fidx (some (newEnt name val)), env.size⟩)
        else pure (-1, env)

/-! ## Names and values -/

/-- The name of an entry, if it has one. -/
def entryName (e : List UInt8) : Option (List UInt8) :=
  if 61 ∈ e ∧ e.takeWhile (· != 61) ≠ [] then some (e.takeWhile (· != 61)) else none

def names (es : List (List UInt8)) : List (List UInt8) := es.filterMap entryName

def valueIn (name e : List UInt8) : Option (List UInt8) :=
  if entryName e = some name then some (e.drop (name.length + 1)) else none

/-- The value of the first entry with a name. -/
def lookup (es : List (List UInt8)) (name : List UInt8) : Option (List UInt8) :=
  es.findSome? (valueIn name)

/-- The vector holds the strings `es` and is terminated at `size`. -/
def Environ.Holds (env : Environ) (es : List (List UInt8)) : Prop :=
  env.size = es.length ∧ ∃ rest, env.environ = es.map some ++ none :: rest

section Names

variable {e name val : List UInt8} {es : List (List UInt8)}

theorem envNameok_iff : envNameok name = true ↔ name ≠ [] ∧ 61 ∉ name := by
  unfold envNameok
  simp

theorem strneq_iff (h : name.length ≤ e.length) :
    strneq e name name.length = true ↔ name <+: e := by
  unfold strneq
  rw [all_eq_true]
  constructor
  · intro hall
    rw [prefix_iff_eq_take]
    apply ext_getElem
    · rw [length_take, Nat.min_eq_left h]
    · intro i h1 h2
      have hi := hall i (mem_range.mpr h1)
      rw [beq_iff_eq, getD_eq_getElem _ _ (by omega), getD_eq_getElem _ _ h1] at hi
      rw [getElem_take, hi]
  · rintro ⟨u, rfl⟩ i hi
    rw [beq_iff_eq, getD_append _ _ _ _ (mem_range.mp hi)]

theorem isEntry_iff : isEntry e name = true ↔ name ++ [61] <+: e := by
  unfold isEntry
  rw [Bool.and_eq_true, beq_iff_eq]
  constructor
  · rintro ⟨hname, heq⟩
    -- the `=` is not the terminating NUL, so the name lies inside the entry
    have hlen : name.length < e.length := by
      by_contra hle
      rw [getD_eq_default _ _ (by omega)] at heq
      cases heq
    rw [strneq_iff (by omega), prefix_iff_eq_take] at hname
    rw [getD_eq_getElem _ _ hlen] at heq
    rw [prefix_iff_eq_take, length_append, length_singleton,
      take_succ_eq_append_getElem hlen, ← hname, heq]
  · rintro ⟨u, rfl⟩
    rw [append_assoc, strneq_iff (by simp), getD_append_right _ _ _ _ (Nat.le_refl _), Nat.sub_self]
    exact ⟨prefix_append _ _, rfl⟩

theorem takeWhile_newEnt (h : 61 ∉ name) : (newEnt name val).takeWhile (· != 61) = name := by
  unfold newEnt
  rw [takeWhile_append_of_pos, takeWhile_cons_of_neg (by decide), append_nil]
  intro c hc
  rw [bne_iff_ne]
  rintro rfl
  exact h hc

theorem entryName_newEnt (hok : envNameok name = true) :
    entryName (newEnt name val) = some name := by
  obtain ⟨hne, hnot⟩ := envNameok_iff.mp hok
  have hmem : 61 ∈ newEnt name val := mem_append_right _ mem_cons_self
  unfold entryName
  rw [takeWhile_newEnt hnot, if_pos ⟨hmem, hne⟩]

theorem entryName_eq_some_iff :
    entryName e = some name ↔ envNameok name = true ∧ isEntry e name = true := by
  constructor
  · intro h
    unfold entryName at h
    split at h
    swap
    · cases h
    rename_i hcond
    obtain ⟨hmem, hne⟩ := hcond
    rw [Option.some.injEq] at h
    rw [envNameok_iff, isEntry_iff, ← h]
    refine ⟨⟨hne, fun h61 => ?_⟩, ?_⟩
    · exact absurd (mem_takeWhile_imp h61) (by decide)
    -- the character after the name is the `=`
    have hsplit := takeWhile_append_dropWhile (p := (· != 61)) (l := e)
    cases hd : e.dropWhile (· != 61) with
    | nil =>
      rw [hd, append_nil] at hsplit
      rw [← hsplit] at hmem
      exact absurd (mem_takeWhile_imp hmem) (by decide)
    | cons c u =>
      have hne : e.dropWhile (· != 61) ≠ [] := by
        rw [hd]
        exact cons_ne_nil _ _
      have hc := head_dropWhile_not (· != 61) hne
      simp only [hd, head_cons, bne_eq_false_iff_eq] at hc
      refine ⟨u, ?_⟩
      rw [hd, hc] at hsplit
      rw [append_assoc]
      exact hsplit
  · rintro ⟨hok, hentry⟩
    obtain ⟨u, rfl⟩ := isEntry_iff.mp hentry
    rw [append_assoc]
    exact entryName_newEnt hok

theorem valueIn_newEnt (hok : envNameok name = true) (name' : List UInt8) :
    valueIn name' (newEnt name val) = if name' = name then some val else none := by
  unfold valueIn
  rw [entryName_newEnt hok]
  by_cases h : name' = name
  · subst h
    rw [if_pos rfl, if_pos rfl]
    unfold newEnt
    rw [← drop_drop, drop_left]
    rfl
  · rw [if_neg h, if_neg fun hs => h (Option.some.inj hs).symm]

theorem lookup_eq_none_iff : lookup es name = none ↔ name ∉ names es := by
  unfold lookup names
  rw [List.findSome?_eq_none_iff, mem_filterMap]
  constructor
  · rintro h ⟨e, he, hname⟩
    have := h e he
    unfold valueIn at this
    rw [if_pos hname] at this
    cases this
  · intro h e he
    exact if_neg fun hname => h ⟨e, he, hname⟩

end Names

/-! ## The loops -/

section Loops

variable {name val : List UInt8} {es : List (List UInt8)} {env : Environ}

theorem getenvLoop_eq (hok : envNameok name = true) (es : List (List UInt8))
    (rest : List (Option (List UInt8))) :
    getenvLoop name (es.map some ++ none :: rest) = some (lookup es name) := by
  induction es with
  | nil => rfl
  | cons e es ih =>
    change (if isEntry e name then _ else _) = some (lookup (e :: es) name)
    unfold lookup
    rw [List.findSome?_cons]
    by_cases he : isEntry e name = true
    · have hname := entryName_eq_some_iff.mpr ⟨hok, he⟩
      unfold valueIn
      rw [if_pos he, if_pos hname]
    · have hname : entryName e ≠ some name := fun h => he (entryName_eq_some_iff.mp h).2
      unfold valueIn
      rw [if_neg he, if_neg hname]
      exact ih

theorem Environ.Holds.getenv (h : env.Holds es) : getenv env name = some (lookup es name) := by
  obtain ⟨-, rest, hv⟩ := h
  unfold Libc.getenv
  by_cases hok : envNameok name = true
  · rw [if_pos hok, hv, getenvLoop_eq hok]
  -- no entry has a name that is not a name
  rw [if_neg hok, lookup_eq_none_iff.mpr]
  unfold names
  rw [mem_filterMap]
  rintro ⟨e, -, he⟩
  exact hok (entryName_eq_some_iff.mp he).1

theorem Environ.Holds.getElem (h : env.Holds es) {i : Nat} (hi : i < es.length) :
    (env.environ[i]?).join = some es[i] := by
  obtain ⟨-, rest, hv⟩ := h
  rw [hv, List.getElem?_append_left (by rwa [length_map]), List.getElem?_map,
    List.getElem?_eq_getElem hi]
  rfl

-- the index is that of an entry with the name, if there is one
theorem Environ.Holds.setenvLoop (h : env.Holds es) (hok : envNameok name = true) {n : Nat}
    (hn : n ≤ es.length) : ∃ fidx, setenvLoop env.environ name n = some fidx ∧
      (fidx = none → name ∉ names (es.take n)) ∧
      ∀ i, fidx = some i → ∃ a e b, es = a ++ e :: b ∧ a.length = i ∧ entryName e = some name := by
  induction n with
  | zero => exact ⟨none, rfl, fun _ => not_mem_nil, fun i hi => nomatch hi⟩
  | succ n ih =>
    obtain ⟨fidx, hloop, hnone, hsome⟩ := ih (by omega)
    have hstep : Libc.setenvLoop env.environ name (n + 1) =
        some (if isEntry es[n] name then some n else fidx) := by
      unfold Libc.setenvLoop
      rw [hloop, h.getElem (by omega)]
      rfl
    refine ⟨_, hstep, ?_, ?_⟩
    · intro hfidx
      split at hfidx
      · cases hfidx
      rename_i hno
      unfold names
      rw [take_succ_eq_append_getElem (by omega), filterMap_append, mem_append]
      rintro (hmem | hmem)
      · exact hnone hfidx hmem
      · obtain ⟨e, he, hname⟩ := mem_filterMap.mp hmem
        rw [mem_singleton.mp he] at hname
        exact hno (entryName_eq_some_iff.mp hname).2
    · intro i hi
      split at hi
      · rename_i hentry
        cases hi
        refine ⟨es.take n, es[n], es.drop (n + 1), ?_, ?_, ?_⟩
        · rw [getElem_cons_drop, take_append_drop]
        · rw [length_take, Nat.min_eq_left (by omega)]
        · exact entryName_eq_some_iff.mpr ⟨hok, hentry⟩
      · exact hsome i hi

end Loops

/-! ## Updates -/

section Update

variable {name val : List UInt8} {es a b : List (List UInt8)} {e : List UInt8} {env : Environ}

section

variable (hok : envNameok name = true)

include hok

-- a name stands once: not before and not behind its entry
theorem lookup_replace (hnodup : (names (a ++ e :: b)).Nodup)
    (hname : entryName e = some name) (name' : List UInt8) :
    lookup (a ++ newEnt name val :: b) name' =
      if name' = name then some val else lookup (a ++ e :: b) name' := by
  have hnot : name ∉ names a := by
    unfold names at hnodup ⊢
    rw [filterMap_append, filterMap_cons_some hname, nodup_append] at hnodup
    exact fun hmem => hnodup.2.2 name hmem name mem_cons_self rfl
  unfold lookup
  rw [List.findSome?_append, List.findSome?_append, List.findSome?_cons, List.findSome?_cons,
    valueIn_newEnt hok]
  by_cases h : name' = name
  · subst h
    have hnone := lookup_eq_none_iff.mpr hnot
    unfold lookup at hnone
    rw [hnone, if_pos rfl, if_pos rfl]
    rfl
  · have hother : valueIn name' e = none := if_neg (by
      rw [hname]
      exact fun hs => h (Option.some.inj hs).symm)
    rw [hother, if_neg h, if_neg h]

theorem names_replace (hname : entryName e = some name) :
    names (a ++ newEnt name val :: b) = names (a ++ e :: b) := by
  unfold names
  rw [filterMap_append, filterMap_append, filterMap_cons_some hname,
    filterMap_cons_some (entryName_newEnt hok)]

theorem lookup_append (hnot : name ∉ names es) (name' : List UInt8) :
    lookup (es ++ [newEnt name val]) name' =
      if name' = name then some val else lookup es name' := by
  unfold lookup
  rw [List.findSome?_append, List.findSome?_cons, valueIn_newEnt hok]
  by_cases h : name' = name
  · subst h
    have hnone := lookup_eq_none_iff.mpr hnot
    unfold lookup at hnone
    rw [hnone, if_pos rfl]
    rfl
  · rw [if_neg h, if_neg h]
    exact Option.or_none

theorem names_append :
    names (es ++ [newEnt name val]) = names es ++ [name] := by
  unfold names
  rw [filterMap_append, filterMap_cons_some (entryName_newEnt hok)]
  rfl

end

theorem Environ.Holds.set (h : env.Holds (a ++ e :: b)) (e' : List UInt8) :
    Environ.Holds ⟨env.environ.set a.length (some e'), env.size⟩ (a ++ e' :: b) := by
  obtain ⟨hsize, rest, hv⟩ := h
  refine ⟨?_, rest, ?_⟩
  · rw [hsize, length_append, length_append, length_cons, length_cons]
  · change env.environ.set a.length (some e') = _
    rw [hv, map_append, map_append, append_assoc, append_assoc,
      set_append_right _ _ (Nat.le_of_eq (length_map _)), length_map, Nat.sub_self]
    rfl

-- of the new vector the last two slots are written
theorem Environ.Holds.append (h : env.Holds es) (fresh : Nat → Option (List UInt8))
    (e : List UInt8) :
    Environ.Holds ⟨((reallocVector env.environ (env.size + 2) fresh).set env.size (some e)).set
      (env.size + 1) none, env.size + 1⟩ (es ++ [e]) := by
  obtain ⟨hsize, rest, hv⟩ := h
  refine ⟨?_, [], ?_⟩
  · rw [length_append, ← hsize]
    rfl
  have hgrow : ∃ x y, reallocVector env.environ (env.size + 2) fresh = es.map some ++ [x, y] := by
    unfold reallocVector
    rw [hv, hsize]
    cases rest with
    | nil =>
      refine ⟨none, fresh 0, ?_⟩
      rw [take_of_length_le (by simp)]
      simp
    | cons x rest =>
      refine ⟨none, x, ?_⟩
      rw [take_append, take_of_length_le (by simp)]
      simp
  obtain ⟨x, y, hxy⟩ := hgrow
  have hlen : (es.map some).length = env.size := by rw [length_map, hsize]
  rw [hxy, set_append_right _ _ (by omega), hlen, Nat.sub_self,
    set_append_right _ _ (by omega), hlen, Nat.add_sub_cancel_left, map_append,
    append_assoc]
  rfl

end Update

/-! ## The environment is a map -/

structure Call where
  name : List UInt8
  val : List UInt8
  overwrite : Int
  heap : Heap

-- a vector and the map that the calls so far define
structure EnvState where
  env : Environ
  map : List UInt8 → Option (List UInt8)

open EnvState

/-- What a call that returned `r` does to the map. -/
def Call.effect (c : Call) (r : Int) (m : List UInt8 → Option (List UInt8)) :
    List UInt8 → Option (List UInt8) :=
  if r = 0 ∧ (c.overwrite ≠ 0 ∨ m c.name = none) then
    fun name => if name = c.name then some c.val else m name
  else m

def EnvState.Start (s : EnvState) : Prop :=
  ∃ es, s.env.Holds es ∧ (names es).Nodup ∧ s.map = lookup es

def EnvState.Step (s : EnvState) (c : Call) (t : EnvState) : Prop :=
  ∃ r, setenv s.env c.name c.val c.overwrite c.heap = some (r, t.env) ∧ t.map = c.effect r s.map

/-- No entry of the name has a value as long as the new one, or it is not to be overwritten. -/
def Call.Safe (s : EnvState) (c : Call) : Prop :=
  c.overwrite ≠ 0 → ∀ old, some (newEnt c.name old) ∈ s.env.environ.take s.env.size →
    old.length ≠ c.val.length

section Map

variable {es : List (List UInt8)} {env : Environ} {c : Call} {m : List UInt8 → Option (List UInt8)}

theorem setenvAppend_spec (h : env.Holds es) (hnodup : (names es).Nodup)
    (hok : envNameok c.name = true) (hnot : c.name ∉ names es) :
    ∃ es', (setenvAppend env c.name c.val c.heap).2.Holds es' ∧ (names es').Nodup ∧
      lookup es' = c.effect (setenvAppend env c.name c.val c.heap).1 (lookup es) := by
  have hnone := lookup_eq_none_iff.mpr hnot
  unfold setenvAppend Call.effect
  cases c.heap.malloc with
  | false => exact ⟨es, h, hnodup, rfl⟩
  | true =>
    cases c.heap.realloc with
    | none => exact ⟨es, h, hnodup, rfl⟩
    | some fresh =>
      refine ⟨es ++ [newEnt c.name c.val], h.append fresh _, ?_, ?_⟩
      · rw [names_append hok, nodup_append]
        refine ⟨hnodup, nodup_singleton _, ?_⟩
        intro x hx y hy
        rw [mem_singleton.mp hy]
        rintro rfl
        exact hnot hx
      · rw [if_pos ⟨rfl, Or.inr hnone⟩]
        funext name'
        exact lookup_append hok hnot name'

/-- A call returns, and does to the vector what it does to the map. -/
theorem setenv_spec (h : env.Holds es) (hnodup : (names es).Nodup) (hsafe : c.Safe ⟨env, m⟩) :
    ∃ r env', setenv env c.name c.val c.overwrite c.heap = some (r, env') ∧
      ∃ es', env'.Holds es' ∧ (names es').Nodup ∧ lookup es' = c.effect r (lookup es) := by
  unfold setenv
  by_cases hok : envNameok c.name = true
  swap
  · rw [if_pos (by simpa using hok)]
    exact ⟨-1, env, rfl, es, h, hnodup, rfl⟩
  rw [if_neg (by simpa using hok)]
  obtain ⟨fidx, hloop, hnone, hsome⟩ := h.setenvLoop hok (Nat.le_refl _)
  rw [← h.1] at hloop
  rw [hloop]
  cases fidx with
  | none =>
    have hnot := hnone rfl
    rw [take_length] at hnot
    exact ⟨_, _, rfl, setenvAppend_spec h hnodup hok hnot⟩
  | some i =>
    obtain ⟨a, e, b, rfl, rfl, hname⟩ := hsome i rfl
    dsimp only [Option.bind_eq_bind, Option.bind_some]
    by_cases hover : c.overwrite = 0
    · rw [if_pos hover]
      exact ⟨-1, env, rfl, _, h, hnodup, rfl⟩
    rw [if_neg hover]
    have hget : (env.environ[a.length]?).join = some e := by
      rw [h.getElem (by simp)]
      simp
    -- the entry is the name with its old value
    obtain ⟨u, hu⟩ := isEntry_iff.mp (entryName_eq_some_iff.mp hname).2
    have he : e = newEnt c.name u := by
      rw [← hu, append_assoc]
      rfl
    have hdrop : e.drop (c.name.length + 1) = u := by
      rw [← hu]
      exact drop_left' (by rw [length_append]; rfl)
    have hlen : u.length ≠ c.val.length := by
      apply hsafe hover
      obtain ⟨hsize, rest, hv⟩ := h
      rw [hv, hsize, take_left' (by rw [length_map]), ← he]
      exact mem_map_of_mem (mem_append_right _ mem_cons_self)
    rw [hget]
    dsimp only [Option.bind_some]
    rw [hdrop, if_neg hlen]
    cases c.heap.malloc with
    | false => exact ⟨-1, env, rfl, _, h, hnodup, rfl⟩
    | true =>
      refine ⟨0, _, rfl, a ++ newEnt c.name c.val :: b, h.set _, ?_, ?_⟩
      · rw [names_replace hok hname]
        exact hnodup
      · unfold Call.effect
        rw [if_pos ⟨rfl, Or.inl hover⟩]
        funext name'
        exact lookup_replace hok hnodup hname name'

theorem setenv_no_overwrite (h : env.Holds es) (hname : c.name ∈ names es) :
    setenv env c.name c.val 0 c.heap = some (-1, env) := by
  obtain ⟨e, he, hentry⟩ := mem_filterMap.mp hname
  have hok := (entryName_eq_some_iff.mp hentry).1
  obtain ⟨fidx, hloop, hnone, -⟩ := h.setenvLoop hok (Nat.le_refl _)
  rw [take_length] at hnone
  rw [← h.1] at hloop
  unfold setenv
  rw [if_neg (by simpa using hok), hloop]
  cases fidx with
  | none => exact absurd hname (hnone rfl)
  | some i => rfl

/-- In every state that calls of `setenv` reach from an environment with distinct names, none of
them giving a name a value as long as the one it has, the vector is terminated at its size, its
names are distinct, `getenv` gives the last value set, and no value is overwritten unasked. -/
theorem setenv_is_map (s : EnvState) (hs : Reach Start Step Call.Safe s) :
    (∃ es, s.env.Holds es ∧ (names es).Nodup) ∧ (∀ name, getenv s.env name = some (s.map name)) ∧
      (∀ c : Call, s.map c.name ≠ none → setenv s.env c.name c.val 0 c.heap = some (-1, s.env)) ∧
      ∀ c : Call, c.Safe s → ∃ t, s.Step c t := by
  have hstep : ∀ (s : EnvState) c t, s.Start → c.Safe s → s.Step c t → t.Start := by
    rintro s c t ⟨es, hes, hnodup, hmap⟩ hsafe ⟨r, hset, hmap'⟩
    obtain ⟨r', env', hset', es', hes', hnodup', hlook⟩ := setenv_spec (c := c) hes hnodup hsafe
    rw [hset] at hset'
    cases hset'
    exact ⟨es', hes', hnodup', by rw [hmap', hmap, hlook]⟩
  obtain ⟨es, hes, hnodup, hmap⟩ := hs.invariant (fun _ h => h) hstep
  refine ⟨⟨es, hes, hnodup⟩, ?_, ?_, ?_⟩
  · intro name
    rw [hmap]
    exact hes.getenv
  · intro c hc
    apply setenv_no_overwrite hes
    by_contra hnot
    rw [hmap] at hc
    exact hc (lookup_eq_none_iff.mpr hnot)
  · intro c hsafe
    obtain ⟨r, env', hset, -⟩ := setenv_spec (c := c) hes hnodup hsafe
    exact ⟨⟨env', c.effect r s.map⟩, r, hset, rfl⟩

end Map

-- "A=x", and "B=y" set behind it
def oneEnv : EnvState := ⟨⟨[some [65, 61, 120], none], 1⟩, lookup [[65, 61, 120]]⟩

def setB : Call := ⟨[66], [121], 1, ⟨true, some fun _ => none⟩⟩

def twoEnv : EnvState :=
  ⟨⟨[some [65, 61, 120], some [66, 61, 121], none], 2⟩, setB.effect 0 oneEnv.map⟩

theorem oneEnv_start : oneEnv.Start :=
  ⟨[[65, 61, 120]], ⟨rfl, [], rfl⟩, by decide, rfl⟩

theorem setB_twoEnv : getenv twoEnv.env [66] = some (some [121]) := by
  have hreach : Reach Start Step Call.Safe twoEnv := by
    refine .next (a := setB) (.start oneEnv_start) ⟨0, by decide, rfl⟩ ?_
    intro _ old hmem
    have heq : some (newEnt setB.name old) = some [65, 61, 120] := mem_singleton.mp hmem
    cases heq
  exact (setenv_is_map twoEnv hreach).2.1 [66]

-- A is set to a value of the same length
def setA : Call := ⟨[65], [121], 1, ⟨true, some fun _ => none⟩⟩

/-- Setting A to `y` where it was `x` leaves two entries of the name. -/
theorem setenv_duplicates :
    ∃ t, Reach Start Step (fun _ _ => True) t ∧
      ¬ ∃ es, t.env.Holds es ∧ (names es).Nodup := by
  refine ⟨⟨⟨[some [65, 61, 121], some [65, 61, 121], none], 2⟩, setA.effect 0 oneEnv.map⟩,
    .next (a := setA) (.start oneEnv_start) ⟨0, by decide, rfl⟩ trivial, ?_⟩
  rintro ⟨es, ⟨hsize, rest, hv⟩, hnodup⟩
  match es, hsize, hv, hnodup with
  | [_, _], _, hv, hnodup =>
    cases hv
    exact absurd hnodup (by decide)

end Libc
