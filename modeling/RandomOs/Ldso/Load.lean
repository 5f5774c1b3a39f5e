import Mathlib.Data.Finset.Card
import Mathlib.Data.Nat.Bitwise

/-!
# Placing the libraries (`ldso.c`)

`load_library` maps an object at the cursor `lodbase` and parses it; `parse_object` loads what the
object needs at the cursor as it is then; the cursor moves over an object only when the call for it
has come back.  What an object needs is taken from its file.
-/

namespace Ldso

open List

/-! ## Model -/

def MAXOBJS : Nat := 128

abbrev Name := List UInt8

-- "main"
def mainName : Name := [109, 97, 105, 110]

structure Phdr where
  vaddr : Nat
  memsz : Nat

/-- A shared object linked at base 0; its dynamic section is in one of its segments. -/
structure Library where
  phdrs : List Phdr
  needed : List Name
  dynamic : ∃ ph ∈ phdrs, 0 < ph.memsz
  fits : ∀ ph ∈ phdrs, ph.vaddr + ph.memsz < 2 ^ 62

/-- What `ldso_main` finds: the files, what the executable needs, the segments of `ld.so`, and the
end of the space for libraries. -/
structure Process where
  files : Name → Option Library
  needed : List Name
  ldsoBase : Nat
  ldsoSegs : List Phdr
  mmapHigh : Nat
  ldso_fits : ∀ ph ∈ ldsoSegs, ph.vaddr + ldsoBase + ph.memsz < 2 ^ 62
  high_fits : mmapHigh < 2 ^ 62

structure Object where
  name : Name
  base : Nat
  phdrs : List Phdr

-- `objects`, `nloaded` and `lodbase`
structure Loader where
  objects : List Object
  lodbase : Nat

inductive Stop
  | exit
  | depth
  deriving DecidableEq

def segHigh (base : Nat) (ph : Phdr) : Nat := ((ph.vaddr + base) % 2 ^ 64 + ph.memsz) % 2 ^ 64

-- `if (seghigh > ldhigh) ldhigh = seghigh;`
def ldHigh (base : Nat) (phs : List Phdr) : Nat :=
  phs.foldl (fun h ph => if h < segHigh base ph then segHigh base ph else h) 0

def ldSize (base : Nat) (phs : List Phdr) : Nat := (ldHigh base phs + 2 ^ 64 - base) % 2 ^ 64

-- `(x + 0xFFF) & ~0xFFFULL`
def pageUp (x : Nat) : Nat := (x + 0xFFF) % 2 ^ 64 / 4096 * 4096

-- the `DT_NEEDED` entries of an object, with `load_library` and `parse_object` for each
def loadNeeded (p : Process) (depth : Nat) (needed : List Name) (s : Loader) :
    Except Stop Loader :=
  match needed with
  | [] => .ok s
  | name :: rest =>
    if MAXOBJS < s.objects.length + 1 then loadNeeded p depth rest s
    else if s.objects.any (·.name == name) then loadNeeded p depth rest s
    else
      match p.files name with
      | none => .error .exit
      | some lib =>
        if lib.phdrs.any fun ph => p.mmapHigh ≤ segHigh s.lodbase ph then .error .exit
        else
          match depth with
          | 0 => .error .depth
          | depth + 1 =>
            match loadNeeded p depth lib.needed
                ⟨s.objects ++ [⟨name, s.lodbase, lib.phdrs⟩], s.lodbase⟩ with
            | .error e => .error e
            | .ok s' =>
              loadNeeded p (depth + 1) rest
                ⟨s'.objects,
                  (s'.lodbase + pageUp (ldSize s.lodbase lib.phdrs)) % 2 ^ 64⟩
termination_by (depth, needed.length)

-- the executable is the first object; it was placed by the kernel
def ldsoStart (p : Process) : Loader :=
  ⟨[⟨mainName, 0, []⟩], pageUp (ldHigh p.ldsoBase p.ldsoSegs)⟩

def ldsoMain (p : Process) : Except Stop Loader := loadNeeded p MAXOBJS p.needed (ldsoStart p)

/-! ## The table of objects -/

def Loader.names (s : Loader) : List Name := s.objects.map (·.name)

section Table

open Loader

variable {p : Process}

variable {s s' : Loader} {name : Name} {depth : Nat} {needed : List Name}

theorem any_name_iff : s.objects.any (·.name == name) = true ↔ name ∈ s.names := by
  unfold names
  simp only [any_eq_true, beq_iff_eq, mem_map]

-- the object that `load_library` adds, and the cursor behind it
def Loader.add (s : Loader) (name : Name) (lib : Library) : Loader :=
  ⟨s.objects ++ [⟨name, s.lodbase, lib.phdrs⟩], s.lodbase⟩

def Loader.pass (s : Loader) (base : Nat) (lib : Library) : Loader :=
  ⟨s.objects, (s.lodbase + pageUp (ldSize base lib.phdrs)) % 2 ^ 64⟩

theorem Loader.add_objects (s : Loader) (name : Name) (lib : Library) :
    (s.add name lib).objects = s.objects ++ [⟨name, s.lodbase, lib.phdrs⟩] := rfl

-- for any cursor, so that it is not computed
theorem Loader.mk_objects (objects : List Object) (lodbase : Nat) :
    (mk objects lodbase).objects = objects := rfl

theorem Loader.pass_objects (s : Loader) (base : Nat) (lib : Library) :
    (s.pass base lib).objects = s.objects := by
  exact mk_objects _ _

-- the tests before an object is loaded
structure Loads (p : Process) (s : Loader) (name : Name) (lib : Library) : Prop where
  room : s.objects.length < MAXOBJS
  new : name ∉ s.names
  file : p.files name = some lib
  low : ∀ ph ∈ lib.phdrs, segHigh s.lodbase ph < p.mmapHigh

/-- Induction along a load that comes back: an entry is passed over, or it is loaded with what it
needs. -/
theorem loadNeeded_induction {P : List Name → Loader → Loader → Prop} (nil : ∀ s, P [] s s)
    (skip : ∀ name rest s s', s.objects.length = MAXOBJS ∨ MAXOBJS < s.objects.length ∨
      name ∈ s.names → P rest s s' → P (name :: rest) s s')
    (load : ∀ depth name rest s lib s₁ s', Loads p s name lib →
      loadNeeded p depth lib.needed (s.add name lib) = .ok s₁ →
      loadNeeded p (depth + 1) rest (s₁.pass s.lodbase lib) = .ok s' →
      P lib.needed (s.add name lib) s₁ → P rest (s₁.pass s.lodbase lib) s' → P (name :: rest) s s')
    (depth : Nat) (needed : List Name) (s s' : Loader)
    (h : loadNeeded p depth needed s = .ok s') : P needed s s' := by
  fun_induction loadNeeded p depth needed s generalizing s' with
  | case1 =>
    cases h
    exact nil _
  | case2 depth s name rest hfull ih => exact skip name rest s s' (by omega) (ih s' h)
  | case3 depth s name rest hfull hany ih =>
    exact skip name rest s s' (Or.inr (Or.inr (any_name_iff.mp hany))) (ih s' h)
  | case4 => cases h
  | case5 => cases h
  | case6 => cases h
  | case7 => cases h
  | case8 s name rest hfull hany lib hfile hlow depth s₁ hs₁ ih₁ ih =>
    apply load depth name rest s lib s₁ s' ?_ hs₁ h (ih₁ s₁ hs₁) (ih s' h)
    refine ⟨by omega, fun hmem => hany (any_name_iff.mpr hmem), hfile, ?_⟩
    intro ph hph
    by_contra hge
    apply hlow
    rw [any_eq_true]
    exact ⟨ph, hph, decide_eq_true (by omega)⟩

theorem loadNeeded_nil (depth : Nat) (s : Loader) : loadNeeded p depth [] s = .ok s := by
  rw [loadNeeded.eq_def]

theorem loadNeeded_known {rest : List Name} (h : name ∈ s.names) :
    loadNeeded p depth (name :: rest) s = loadNeeded p depth rest s := by
  rw [loadNeeded.eq_def]
  dsimp only
  rw [if_pos (any_name_iff.mpr h), ite_self]

theorem loadNeeded_loads {rest : List Name} {s₁ : Loader} {lib : Library} (h : Loads p s name lib)
    (h₁ : loadNeeded p depth lib.needed (s.add name lib) = .ok s₁) :
    loadNeeded p (depth + 1) (name :: rest) s =
      loadNeeded p (depth + 1) rest (s₁.pass s.lodbase lib) := by
  have hroom := h.room
  have hlow : ¬ (lib.phdrs.any fun ph => decide (p.mmapHigh ≤ segHigh s.lodbase ph)) = true := by
    rw [any_eq_true]
    rintro ⟨ph, hph, hge⟩
    have := h.low ph hph
    have := of_decide_eq_true hge
    omega
  rw [loadNeeded.eq_def]
  dsimp only
  rw [if_neg (by omega), if_neg fun hany => h.new (any_name_iff.mp hany), h.file]
  dsimp only
  rw [if_neg hlow]
  unfold add at h₁
  rw [h₁]
  rfl

theorem loadNeeded_extends (h : loadNeeded p depth needed s = .ok s') :
    s.objects <+: s'.objects := by
  apply loadNeeded_induction (P := fun _ s s' => s.objects <+: s'.objects) ?_ ?_ ?_ _ _ _ _ h
  · exact fun s => prefix_refl _
  · exact fun _ _ _ _ _ ih => ih
  · intro depth name rest s lib s₁ s' _ _ _ ih₁ ih
    rw [add_objects] at ih₁
    rw [pass_objects] at ih
    exact (prefix_append _ _).trans (ih₁.trans ih)

-- the depth is not used up before the table is full
theorem loadNeeded_ne_depth (depth : Nat) (needed : List Name) (s : Loader)
    (h : MAXOBJS < depth + s.objects.length) : loadNeeded p depth needed s ≠ .error .depth := by
  fun_induction loadNeeded p depth needed s with
  | case1 => exact fun hf => nomatch hf
  | case2 depth s name rest hfull ih => exact ih h
  | case3 depth s name rest hfull hany ih => exact ih h
  | case4 => exact fun hf => nomatch hf
  | case5 => exact fun hf => nomatch hf
  | case6 => omega
  | case7 s name rest hfull hany lib hfile hlow depth e he ih =>
    rw [← he]
    apply ih
    rw [length_append, length_singleton]
    omega
  | case8 s name rest hfull hany lib hfile hlow depth s₁ hs₁ ih₁ ih =>
    apply ih
    have hle := (loadNeeded_extends hs₁).length_le
    rw [length_append] at hle
    dsimp only at hle ⊢
    omega

theorem ldsoMain_ne_depth (p : Process) : ldsoMain p ≠ .error .depth :=
  loadNeeded_ne_depth _ _ _ (Nat.lt_succ_self MAXOBJS)

theorem Loader.names_add (s : Loader) (name : Name) (lib : Library) :
    (s.add name lib).names = s.names ++ [name] := by
  unfold names
  rw [add_objects, map_append]
  rfl

theorem Loader.names_pass (s : Loader) (base : Nat) (lib : Library) :
    (s.pass base lib).names = s.names := by
  unfold names
  rw [pass_objects]

-- nothing to load
theorem loadNeeded_stay (h : loadNeeded p depth needed s = .ok s')
    (hall : ∀ x ∈ needed, x ∈ s.names) : s' = s := by
  revert hall
  apply loadNeeded_induction (P := fun needed s s' => (∀ x ∈ needed, x ∈ s.names) → s' = s)
    ?_ ?_ ?_ _ _ _ _ h
  · exact fun s _ => rfl
  · exact fun name rest s s' _ ih hall => ih fun x hx => hall x (mem_cons_of_mem name hx)
  · intro depth name rest s lib s₁ s' hloads _ _ _ _ hall
    exact absurd (hall name mem_cons_self) hloads.new

theorem loadNeeded_first (h : loadNeeded p depth needed s = .ok s')
    (hroom : s.objects.length < MAXOBJS) (hnew : ∃ x ∈ needed, x ∉ s.names) :
    ∃ name lib, p.files name = some lib ∧
      s.objects ++ [⟨name, s.lodbase, lib.phdrs⟩] <+: s'.objects := by
  revert hroom hnew
  apply loadNeeded_induction (P := fun needed s s' => s.objects.length < MAXOBJS →
    (∃ x ∈ needed, x ∉ s.names) → ∃ name, ∃ lib : Library, p.files name = some lib ∧
      s.objects ++ [Object.mk name s.lodbase lib.phdrs] <+: s'.objects) ?_ ?_ ?_ _ _ _ _ h
  · rintro s - ⟨x, hx, -⟩
    cases hx
  · rintro name rest s s' hskip ih hroom ⟨x, hx, hnew⟩
    apply ih hroom
    rcases mem_cons.mp hx with rfl | hx
    · exact absurd (hskip.resolve_left (by omega)) (by
        rintro (hlt | hmem)
        · omega
        · exact hnew hmem)
    · exact ⟨x, hx, hnew⟩
  · intro depth name rest s lib s₁ s' hloads hs₁ hs' _ _ _ _
    refine ⟨name, lib, hloads.file, ?_⟩
    have h₁ := loadNeeded_extends hs₁
    have h₂ := loadNeeded_extends hs'
    rw [add_objects] at h₁
    rw [pass_objects] at h₂
    exact h₁.trans h₂

/-- At most `MAXOBJS` names, among them those of the executable and of everything it needs. -/
structure Enough (p : Process) (U : Finset Name) : Prop where
  card : U.card ≤ MAXOBJS
  exe : mainName ∈ U
  needed : ∀ x ∈ p.needed, x ∈ U
  closed : ∀ d ∈ U, ∀ lib, p.files d = some lib → ∀ x ∈ lib.needed, x ∈ U

-- an object that is still missing has room in the table
theorem Enough.room {U : Finset Name} (hU : Enough p U) (hnodup : s.names.Nodup)
    (hsub : ∀ x ∈ s.names, x ∈ U) {x : Name} (hx : x ∈ U) (hnew : x ∉ s.names) :
    s.objects.length < MAXOBJS := by
  have hle : s.names.toFinset ⊆ U.erase x := by
    intro y hy
    rw [mem_toFinset] at hy
    refine Finset.mem_erase.mpr ⟨?_, hsub y hy⟩
    rintro rfl
    exact hnew hy
  have hcard := Finset.card_le_card hle
  rw [toFinset_card_of_nodup hnodup, Finset.card_erase_of_mem hx] at hcard
  have hpos := Finset.card_pos.mpr ⟨x, hx⟩
  have hmax := hU.card
  unfold names at hcard
  rw [length_map] at hcard
  omega

end Table

/-! ## Sizes -/

section Sizes

/-- The highest address of an image at base 0, and the size of its pages. -/
def highest (phs : List Phdr) : Nat := phs.foldr (fun ph h => max (ph.vaddr + ph.memsz) h) 0

def imageSize (phs : List Phdr) : Nat := (highest phs + 4095) / 4096 * 4096

variable {phs : List Phdr} {base : Nat}

theorem le_highest {ph : Phdr} (h : ph ∈ phs) : ph.vaddr + ph.memsz ≤ highest phs := by
  induction phs with
  | nil => cases h
  | cons ph' phs ih =>
    rcases mem_cons.mp h with rfl | h
    · exact Nat.le_max_left _ _
    · exact (ih h).trans (Nat.le_max_right _ _)

theorem highest_lt {phs : List Phdr} {b : Nat} (hb : 0 < b)
    (h : ∀ ph ∈ phs, ph.vaddr + ph.memsz < b) : highest phs < b := by
  induction phs with
  | nil => exact hb
  | cons ph phs ih =>
    have h₁ := h ph mem_cons_self
    have h₂ := ih fun ph' hph' => h ph' (mem_cons_of_mem ph hph')
    change max (ph.vaddr + ph.memsz) (highest phs) < b
    omega

theorem Library.imageSize_pos (lib : Library) : 0 < imageSize lib.phdrs := by
  obtain ⟨ph, hph, hpos⟩ := lib.dynamic
  have hle := le_highest hph
  unfold imageSize
  omega

-- without overflow
theorem segHigh_eq {ph : Phdr} (h : ph.vaddr + base + ph.memsz < 2 ^ 64) :
    segHigh base ph = ph.vaddr + base + ph.memsz := by
  unfold segHigh
  omega

theorem ldHigh_eq (h : ∀ ph ∈ phs, ph.vaddr + base + ph.memsz < 2 ^ 64) :
    ldHigh base phs = if phs = [] then 0 else base + highest phs := by
  -- the loop with the maximum so far
  have hloop : ∀ (phs : List Phdr) (m : Nat), (∀ ph ∈ phs, ph.vaddr + base + ph.memsz < 2 ^ 64) →
      phs.foldl (fun h ph => if h < segHigh base ph then segHigh base ph else h) m =
        if phs = [] then m else max m (base + highest phs) := by
    intro phs
    induction phs with
    | nil => exact fun m _ => rfl
    | cons ph phs ih =>
      intro m hfits
      rw [foldl_cons, ih _ fun ph' hph' => hfits ph' (mem_cons_of_mem ph hph'),
        segHigh_eq (hfits ph mem_cons_self)]
      change _ = max m (base + max (ph.vaddr + ph.memsz) (highest phs))
      by_cases hnil : phs = []
      · subst hnil
        change (if m < _ then _ else m) = max m (base + max (ph.vaddr + ph.memsz) 0)
        split
        · omega
        · omega
      · rw [if_neg hnil]
        split
        · omega
        · omega
  unfold ldHigh
  rw [hloop phs 0 h]
  split
  · rfl
  · omega

theorem pageUp_eq {x : Nat} (h : x < 2 ^ 63) : pageUp x = (x + 4095) / 4096 * 4096 := by
  unfold pageUp
  rw [Nat.mod_eq_of_lt (by omega)]

theorem Library.pageUp_ldSize (lib : Library) (hbase : base < 2 ^ 63) :
    pageUp (ldSize base lib.phdrs) = imageSize lib.phdrs := by
  have hlt : highest lib.phdrs < 2 ^ 62 := highest_lt (by decide) lib.fits
  have hne : lib.phdrs ≠ [] := by
    obtain ⟨ph, hph, -⟩ := lib.dynamic
    exact ne_nil_of_mem hph
  have hsize : ldSize base lib.phdrs = highest lib.phdrs := by
    unfold ldSize
    rw [ldHigh_eq, if_neg hne]
    · omega
    · intro ph hph
      have := lib.fits ph hph
      omega
  rw [hsize, pageUp_eq (by omega)]
  rfl

end Sizes

/-! ## Ranges -/

def Object.Covers (o : Object) (a : Nat) : Prop := o.base ≤ a ∧ a < o.base + imageSize o.phdrs

def Process.ldsoCovers (p : Process) (a : Nat) : Prop :=
  p.ldsoBase ≤ a ∧ ∃ ph ∈ p.ldsoSegs, a < ph.vaddr + p.ldsoBase + ph.memsz

/-- The libraries, which are the objects behind the executable, are apart from each other and from
`ld.so`. -/
def Clear (p : Process) (s : Loader) : Prop :=
  s.objects.tail.Pairwise (fun o o' => ∀ a, ¬ (o.Covers a ∧ o'.Covers a)) ∧
    ∀ o ∈ s.objects.tail, ∀ a, ¬ (p.ldsoCovers a ∧ o.Covers a)

/-- Objects one behind the other from `lo` to `hi`. -/
def Stacked : (lo : Nat) → List Object → (hi : Nat) → Prop
  | lo, [], hi => lo = hi
  | lo, o :: os, hi => o.base = lo ∧ Stacked (lo + imageSize o.phdrs) os hi

section Ranges

variable {p : Process} {lo hi : Nat} {os : List Object} {s s' : Loader}

variable {o : Object}

theorem Stacked.append (h : Stacked lo os hi) (ho : o.base = hi) :
    Stacked lo (os ++ [o]) (hi + imageSize o.phdrs) := by
  induction os generalizing lo with
  | nil =>
    cases h
    exact ⟨ho, rfl⟩
  | cons o' os ih => exact ⟨h.1, ih h.2⟩

theorem Stacked.le_base (h : Stacked lo os hi) (ho : o ∈ os) : lo ≤ o.base := by
  induction os generalizing lo with
  | nil => cases ho
  | cons o' os ih =>
    rcases mem_cons.mp ho with rfl | ho
    · exact h.1.ge
    · have := ih h.2 ho
      omega

theorem Stacked.pairwise (h : Stacked lo os hi) :
    os.Pairwise fun o o' => ∀ a, ¬ (o.Covers a ∧ o'.Covers a) := by
  induction os generalizing lo with
  | nil => exact List.Pairwise.nil
  | cons o os ih =>
    refine List.Pairwise.cons ?_ (ih h.2)
    rintro o' ho' a ⟨hin, hin'⟩
    have hle := h.2.le_base ho'
    have hbase := h.1
    have hlt := hin.2
    have hge := hin'.1
    omega

-- two objects at one base are not apart
theorem not_clear_of_extends {objs : List Object} {o o' : Object}
    (hpre : objs ++ [o] ++ [o'] <+: s'.objects) (hobjs : objs ≠ []) (hbase : o'.base = o.base)
    (ho : 0 < imageSize o.phdrs) (ho' : 0 < imageSize o'.phdrs) : ¬ Clear p s' := by
  rintro ⟨hpair, -⟩
  obtain ⟨m, objs, rfl⟩ := exists_cons_of_ne_nil hobjs
  obtain ⟨rest, hrest⟩ := hpre
  rw [← hrest] at hpair
  simp only [cons_append, tail_cons, append_assoc] at hpair
  have hapart := (pairwise_append.mp hpair).2.1
  have hne := (pairwise_cons.mp hapart).1 o' mem_cons_self o.base
  apply hne
  unfold Object.Covers
  omega

end Ranges

/-! ## Flat dependencies -/

/-- With the names in `S` loaded, every library in the list needs only those, itself and the
libraries before it. -/
def FlatFrom (p : Process) (S needed : List Name) : Prop :=
  ∀ before d after, needed = before ++ d :: after → d ∉ S → ∀ lib, p.files d = some lib →
    ∀ x ∈ lib.needed, x ∈ S ∨ x = d ∨ x ∈ before

section Flat

variable {p : Process} {S rest : List Name} {name : Name}

theorem flatFrom_cons_of_mem (h : name ∈ S) : FlatFrom p S (name :: rest) ↔ FlatFrom p S rest := by
  constructor
  · intro hflat before d after heq hd lib hlib x hx
    rcases hflat (name :: before) d after (by rw [heq]; rfl) hd lib hlib x hx with hS | hxd | hmem
    · exact Or.inl hS
    · exact Or.inr (Or.inl hxd)
    · rcases mem_cons.mp hmem with rfl | hmem
      · exact Or.inl h
      · exact Or.inr (Or.inr hmem)
  · intro hflat before d after heq hd lib hlib x hx
    cases before with
    | nil =>
      cases heq
      exact absurd h hd
    | cons b before =>
      obtain ⟨rfl, hrest⟩ := List.cons.inj heq
      rcases hflat before d after hrest hd lib hlib x hx with hS | hxd | hmem
      · exact Or.inl hS
      · exact Or.inr (Or.inl hxd)
      · exact Or.inr (Or.inr (mem_cons_of_mem _ hmem))

theorem flatFrom_cons_of_not_mem {lib : Library} (h : name ∉ S) (hfile : p.files name = some lib) :
    FlatFrom p S (name :: rest) ↔
      (∀ x ∈ lib.needed, x ∈ S ++ [name]) ∧ FlatFrom p (S ++ [name]) rest := by
  simp only [mem_append, mem_singleton]
  constructor
  · intro hflat
    constructor
    · intro x hx
      rcases hflat [] name rest rfl h lib hfile x hx with hS | hxd | hmem
      · exact Or.inl hS
      · exact Or.inr hxd
      · cases hmem
    · intro before d after heq hd lib' hlib' x hx
      rw [mem_append] at hd
      rcases hflat (name :: before) d after (by rw [heq]; rfl) (fun hS => hd (Or.inl hS)) lib' hlib'
        x hx with hS | hxd | hmem
      · exact Or.inl (mem_append_left _ hS)
      · exact Or.inr (Or.inl hxd)
      · rcases mem_cons.mp hmem with rfl | hmem
        · exact Or.inl (mem_append_right _ (mem_singleton.mpr rfl))
        · exact Or.inr (Or.inr hmem)
  · rintro ⟨hfirst, hflat⟩ before d after heq hd lib' hlib' x hx
    have hself : d = name → x ∈ S ∨ x = d ∨ x ∈ before := by
      rintro rfl
      rw [hfile] at hlib'
      cases hlib'
      rcases hfirst x hx with hS | hxd
      · exact Or.inl hS
      · exact Or.inr (Or.inl hxd)
    cases before with
    | nil =>
      cases heq
      exact hself rfl
    | cons b before =>
      obtain ⟨rfl, hrest⟩ := List.cons.inj heq
      by_cases hdn : d = name
      · exact hself hdn
      have hd' : d ∉ S ++ [name] := by
        rw [mem_append, mem_singleton]
        exact fun hor => hor.elim hd hdn
      rcases hflat before d after hrest hd' lib' hlib' x hx with hS | hxd | hmem
      · rcases mem_append.mp hS with hS | hx'
        · exact Or.inl hS
        · rw [mem_singleton.mp hx']
          exact Or.inr (Or.inr mem_cons_self)
      · exact Or.inr (Or.inl hxd)
      · exact Or.inr (Or.inr (mem_cons_of_mem _ hmem))

end Flat

/-- A loader whose libraries stand one behind the other, from `lo` to the cursor. -/
structure Loader.Tidy (s : Loader) (U : Finset Name) (lo : Nat) : Prop where
  stacked : ∃ exe libs, s.objects = exe :: libs ∧ Stacked lo libs s.lodbase
  nodup : s.names.Nodup
  names : ∀ x ∈ s.names, x ∈ U
  low : s.lodbase < 2 ^ 63

section Tidy

variable {p : Process} {U : Finset Name} {lo : Nat} {s : Loader} {name : Name} {lib : Library}

theorem Loader.Tidy.clear (h : s.Tidy U lo)
    (hlo : ∀ ph ∈ p.ldsoSegs, ph.vaddr + p.ldsoBase + ph.memsz ≤ lo) : Clear p s := by
  obtain ⟨exe, libs, hobj, hst⟩ := h.stacked
  unfold Clear
  rw [hobj]
  refine ⟨hst.pairwise, ?_⟩
  rintro o ho a ⟨⟨-, ph, hph, ha⟩, hin⟩
  have hle := hst.le_base ho
  have hge := hin.1
  have hlow := hlo ph hph
  omega

-- a library that is loaded with nothing else
theorem Loader.Tidy.load (h : s.Tidy U lo) (hloads : Loads p s name lib) (hname : name ∈ U) :
    ((s.add name lib).pass s.lodbase lib).Tidy U lo := by
  obtain ⟨exe, libs, hobj, hst⟩ := h.stacked
  have hlow := h.low
  have hend : s.lodbase + highest lib.phdrs < 2 ^ 62 := by
    have hhigh := p.high_fits
    -- every segment ends below the limit
    have hall : ∀ ph ∈ lib.phdrs, s.lodbase + (ph.vaddr + ph.memsz) < 2 ^ 62 := by
      intro ph hph
      have hseg := hloads.low ph hph
      have hfits := lib.fits ph hph
      rw [segHigh_eq (by omega)] at hseg
      omega
    have hbase : s.lodbase < 2 ^ 62 := by
      obtain ⟨ph, hph, -⟩ := lib.dynamic
      have := hall ph hph
      omega
    have := @highest_lt lib.phdrs (2 ^ 62 - s.lodbase) (by omega) fun ph hph => by
      have := hall ph hph
      omega
    omega
  have himage : s.lodbase + imageSize lib.phdrs < 2 ^ 63 := by
    unfold imageSize
    omega
  have hcursor : ((s.add name lib).pass s.lodbase lib).lodbase =
      s.lodbase + imageSize lib.phdrs := by
    change (s.lodbase + pageUp (ldSize s.lodbase lib.phdrs)) % 2 ^ 64 = _
    rw [lib.pageUp_ldSize hlow, Nat.mod_eq_of_lt (by omega)]
  refine ⟨⟨exe, libs ++ [⟨name, s.lodbase, lib.phdrs⟩], ?_, ?_⟩, ?_, ?_, ?_⟩
  · rw [pass_objects, add_objects, hobj, cons_append]
  · rw [hcursor]
    exact hst.append rfl
  · rw [names_pass, names_add, nodup_append]
    refine ⟨h.nodup, nodup_singleton name, ?_⟩
    intro x hx y hy
    rw [mem_singleton.mp hy]
    rintro rfl
    exact hloads.new hx
  · rw [names_pass, names_add]
    intro x hx
    rcases mem_append.mp hx with hx | hx
    · exact h.names x hx
    · rwa [mem_singleton.mp hx]
  · rw [hcursor]
    exact himage

/-- From a tidy loader on, the libraries stay apart exactly if the list is flat: an object that is
loaded while another is being parsed gets the same base. -/
theorem loadNeeded_clear_iff (hU : Enough p U)
    (hlo : ∀ ph ∈ p.ldsoSegs, ph.vaddr + p.ldsoBase + ph.memsz ≤ lo) {depth : Nat}
    {needed : List Name} {s' : Loader} (h : loadNeeded p depth needed s = .ok s')
    (hs : s.Tidy U lo) (hneeded : ∀ x ∈ needed, x ∈ U) :
    Clear p s' ↔ FlatFrom p s.names needed := by
  revert hs hneeded
  apply loadNeeded_induction (P := fun needed s s' => s.Tidy U lo → (∀ x ∈ needed, x ∈ U) →
    (Clear p s' ↔ FlatFrom p s.names needed)) ?_ ?_ ?_ _ _ _ _ h
  · intro s hs _
    refine iff_of_true (hs.clear hlo) ?_
    intro before d after heq
    cases before <;> cases heq
  · intro name rest s s' hskip ih hs hneeded
    have hmem : name ∈ s.names := by
      by_contra hnew
      have hroom := hU.room hs.nodup hs.names (hneeded name mem_cons_self) hnew
      rcases hskip with hfull | hfull | hmem
      · omega
      · omega
      · exact hnew hmem
    rw [flatFrom_cons_of_mem hmem]
    exact ih hs fun x hx => hneeded x (mem_cons_of_mem name hx)
  · intro depth name rest s lib s₁ s' hloads hs₁ hs' _ ih hs hneeded
    have hname := hneeded name mem_cons_self
    have htidy := hs.load hloads hname
    rw [flatFrom_cons_of_not_mem hloads.new hloads.file, ← Loader.names_add s name lib]
    by_cases hall : ∀ x ∈ lib.needed, x ∈ (s.add name lib).names
    · obtain rfl := loadNeeded_stay hs₁ hall
      rw [and_iff_right hall, ← Loader.names_pass (s.add name lib) s.lodbase lib]
      exact ih htidy fun x hx => hneeded x (mem_cons_of_mem name hx)
    refine iff_of_false ?_ fun hflat => hall hflat.1
    have hnodup := htidy.nodup
    have hnames := htidy.names
    rw [Loader.names_pass] at hnodup hnames
    obtain ⟨x, hx⟩ := not_forall.mp hall
    obtain ⟨hx, hnew⟩ := Classical.not_imp.mp hx
    have hroom := hU.room hnodup hnames (hU.closed name hname lib hloads.file x hx) hnew
    obtain ⟨name', lib', -, hpre⟩ := loadNeeded_first hs₁ hroom ⟨x, hx, hnew⟩
    have hpre' := loadNeeded_extends hs'
    rw [Loader.pass_objects] at hpre'
    rw [Loader.add_objects] at hpre
    refine not_clear_of_extends (hpre.trans hpre') ?_ rfl lib.imageSize_pos lib'.imageSize_pos
    obtain ⟨exe, libs, hobj, -⟩ := hs.stacked
    rw [hobj]
    exact cons_ne_nil exe libs

theorem ldsoStart_tidy (hU : Enough p U) : (ldsoStart p).Tidy U (ldsoStart p).lodbase ∧
      ∀ ph ∈ p.ldsoSegs, ph.vaddr + p.ldsoBase + ph.memsz ≤ (ldsoStart p).lodbase := by
  have hfits := p.ldso_fits
  have hhigh : ldHigh p.ldsoBase p.ldsoSegs < 2 ^ 62 ∧
      ∀ ph ∈ p.ldsoSegs, ph.vaddr + p.ldsoBase + ph.memsz ≤ ldHigh p.ldsoBase p.ldsoSegs := by
    rw [ldHigh_eq fun ph hph => (hfits ph hph).trans (by decide)]
    by_cases hnil : p.ldsoSegs = []
    · rw [if_pos hnil, hnil]
      exact ⟨by decide, fun ph hph => nomatch hph⟩
    rw [if_neg hnil]
    have hbase : p.ldsoBase < 2 ^ 62 := by
      obtain ⟨ph, hph⟩ := exists_mem_of_ne_nil _ hnil
      have := hfits ph hph
      omega
    have hlt := @highest_lt p.ldsoSegs (2 ^ 62 - p.ldsoBase) (by omega) fun ph hph => by
      have := hfits ph hph
      omega
    refine ⟨by omega, ?_⟩
    intro ph hph
    have := le_highest hph
    omega
  have hcursor : (ldsoStart p).lodbase = (ldHigh p.ldsoBase p.ldsoSegs + 4095) / 4096 * 4096 :=
    pageUp_eq (by omega)
  refine ⟨⟨⟨_, [], rfl, rfl⟩, nodup_singleton _, ?_, by omega⟩, ?_⟩
  · intro x hx
    rw [mem_singleton.mp hx]
    exact hU.exe
  · intro ph hph
    have := hhigh.2 ph hph
    omega

/-- When `ldso_main` has loaded everything, the libraries are apart from each other and from
`ld.so` exactly if every library that the executable names needs nothing but the executable, itself
and libraries that the executable names before it. -/
theorem libraries_clear_iff (p : Process) (U : Finset Name) (hU : Enough p U) (s : Loader)
    (h : ldsoMain p = .ok s) : Clear p s ↔ FlatFrom p [mainName] p.needed := by
  obtain ⟨hs, hlo⟩ := ldsoStart_tidy hU
  exact loadNeeded_clear_iff hU hlo h hs hU.needed

end Tidy

-- library A in four pages, B in one
def libB : Library := ⟨[⟨0, 4096⟩], [], ⟨⟨0, 4096⟩, mem_cons_self, by decide⟩, by decide⟩

def libA : Library :=
  ⟨[⟨0, 16384⟩], [[66]], ⟨⟨0, 16384⟩, mem_cons_self, by decide⟩, by decide⟩

def abProcess (needed : List Name) : Process where
  files name := if name = [65] then some libA else if name = [66] then some libB else none
  needed := needed
  ldsoBase := 0x400000
  ldsoSegs := [⟨0, 8192⟩]
  mmapHigh := 0x10000000
  ldso_fits := by decide
  high_fits := by decide

theorem abProcess_enough {needed : List Name} (h : ∀ x ∈ needed, x = [65] ∨ x = [66]) :
    Enough (abProcess needed) {mainName, [65], [66]} := by
  refine ⟨by decide, by decide, ?_, ?_⟩
  · intro x hx
    rcases h x hx with rfl | rfl
    · decide
    · decide
  · intro d hd lib hlib x hx
    change (if d = [65] then some libA else if d = [66] then some libB else none) = some lib at hlib
    split at hlib
    · cases hlib
      rw [mem_singleton.mp hx]
      decide
    · split at hlib
      · cases hlib
        cases hx
      · cases hlib

def startAB : Loader := ⟨[⟨mainName, 0, []⟩], 0x402000⟩

theorem ldsoStart_ab (needed : List Name) : ldsoStart (abProcess needed) = startAB := by
  have hcursor : pageUp (ldHigh 0x400000 [⟨0, 8192⟩]) = 0x402000 := by decide
  change Loader.mk _ (pageUp (ldHigh 0x400000 [⟨0, 8192⟩])) = _
  rw [hcursor]
  rfl

-- the executable names B, then A
def loadedB : Loader := (startAB.add [66] libB).pass startAB.lodbase libB

def loadedBA : Loader := (loadedB.add [65] libA).pass loadedB.lodbase libA

theorem ba_clear : Clear (abProcess [[66], [65]]) loadedBA := by
  have hloads : ldsoMain (abProcess [[66], [65]]) = .ok loadedBA := by
    have hB : Loads (abProcess [[66], [65]]) startAB [66] libB :=
      ⟨by decide, by decide, rfl, by decide⟩
    have hA : Loads (abProcess [[66], [65]]) loadedB [65] libA :=
      ⟨by decide, by decide, rfl, by decide⟩
    have hneeded : loadNeeded (abProcess [[66], [65]]) 127 libA.needed (loadedB.add [65] libA) =
        .ok (loadedB.add [65] libA) := by
      change loadNeeded _ 127 [[66]] _ = _
      rw [loadNeeded_known (by decide), loadNeeded_nil]
    unfold ldsoMain
    rw [ldsoStart_ab]
    change loadNeeded _ (127 + 1) [[66], [65]] _ = _
    rw [loadNeeded_loads hB (loadNeeded_nil _ _)]
    change loadNeeded _ (127 + 1) [[65]] loadedB = _
    rw [loadNeeded_loads hA hneeded, loadNeeded_nil]
    rfl
  rw [libraries_clear_iff _ _ (abProcess_enough (by decide)) _ hloads]
  intro before d after heq hd lib hlib x hx
  match before, heq with
  | [], heq =>
    cases heq
    cases hlib
    cases hx
  | [_], heq =>
    cases heq
    cases hlib
    rw [mem_singleton.mp hx]
    exact Or.inr (Or.inr mem_cons_self)
  | _ :: _ :: before, heq =>
    cases before <;> cases heq

-- the executable names A; B is loaded while A is parsed
def loadedAB : Loader :=
  (((startAB.add [65] libA).add [66] libB).pass startAB.lodbase libB).pass startAB.lodbase libA

/-- A and the library it needs are both placed at the end of `ld.so`. -/
theorem ab_not_clear :
    ldsoMain (abProcess [[65]]) = .ok loadedAB ∧ ¬ Clear (abProcess [[65]]) loadedAB := by
  have hA : Loads (abProcess [[65]]) startAB [65] libA := ⟨by decide, by decide, rfl, by decide⟩
  have hB : Loads (abProcess [[65]]) (startAB.add [65] libA) [66] libB :=
    ⟨by decide, by decide, rfl, by decide⟩
  have hneeded : loadNeeded (abProcess [[65]]) 127 libA.needed (startAB.add [65] libA) =
      .ok (((startAB.add [65] libA).add [66] libB).pass startAB.lodbase libB) := by
    change loadNeeded _ (126 + 1) [[66]] _ = _
    rw [loadNeeded_loads hB (loadNeeded_nil _ _), loadNeeded_nil]
    rfl
  constructor
  · unfold ldsoMain
    rw [ldsoStart_ab]
    change loadNeeded _ (127 + 1) [[65]] _ = _
    rw [loadNeeded_loads hA hneeded, loadNeeded_nil]
    rfl
  · apply @not_clear_of_extends _ _ [⟨mainName, 0, []⟩] ⟨[65], 0x402000, libA.phdrs⟩
      ⟨[66], 0x402000, libB.phdrs⟩ ?_ (cons_ne_nil _ _) rfl libA.imageSize_pos
      libB.imageSize_pos
    unfold loadedAB
    rw [Loader.pass_objects]
    exact prefix_refl _

end Ldso
