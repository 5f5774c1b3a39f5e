import Mathlib.Data.Nat.Bitwise
import RandomOs.Kern.Errno
import RandomOs.Lib.Runs

/-!
# Descriptor tables (`fd.c`, `copy_fds`, `endproc_shared`)

A table is a block of the kernel heap.  Memory that `malloc` hands out holds anything, and a
descriptor counts as open when the `inuse` of its slot is not 0.  Beside the kernel a run carries
the descriptors that were handed out and not closed since.
-/

namespace Vfs

open Lib Kern Function List

/-! ## Model -/

structure FdInfo (δ : Type) where
  fd : Int
  inuse : Int
  type : Int
  data : δ

-- the two fields of `process_state_t` that the calls use
structure FdProc where
  fds : Option Nat
  nfds : Nat

structure FdKernel (δ : Type) where
  proctbl : Nat → FdProc
  heap : Nat → Option (List (FdInfo δ))

open FdKernel

-- what `malloc` answers: a block that is not in use with what it holds, or `NULL`
abbrev FdAlloc (δ : Type) := Option (Nat × List (FdInfo δ))

variable {δ : Type} {c : List (FdInfo δ)}

namespace FdKernel

def setProc (k : FdKernel δ) (pid : Nat) (p : FdProc) : FdKernel δ :=
  { k with proctbl := update k.proctbl pid p }

def setHeap (k : FdKernel δ) (ptr : Nat) (b : Option (List (FdInfo δ))) : FdKernel δ :=
  { k with heap := update k.heap ptr b }

theorem setProc_self (k : FdKernel δ) (pid : Nat) (p : FdProc) :
    (k.setProc pid p).proctbl pid = p :=
  update_self ..

theorem setProc_of_ne (k : FdKernel δ) {pid q : Nat} (p : FdProc) (h : q ≠ pid) :
    (k.setProc pid p).proctbl q = k.proctbl q :=
  update_of_ne h ..

theorem setHeap_self (k : FdKernel δ) (ptr : Nat) (b : Option (List (FdInfo δ))) :
    (k.setHeap ptr b).heap ptr = b :=
  update_self ..

theorem setHeap_of_ne (k : FdKernel δ) {ptr p : Nat} (b : Option (List (FdInfo δ)))
    (h : p ≠ ptr) : (k.setHeap ptr b).heap p = k.heap p :=
  update_of_ne h ..

def Fresh (k : FdKernel δ) (ptr : Nat) (c : List (FdInfo δ)) (n : Nat) : Prop :=
  k.heap ptr = none ∧ c.length = n

instance (k : FdKernel δ) (ptr : Nat) (c : List (FdInfo δ)) (n : Nat) :
    Decidable (k.Fresh ptr c n) :=
  inferInstanceAs (Decidable (k.heap ptr = none ∧ c.length = n))

end FdKernel

-- `memcpy(&fds[i], info, sizeof(*info))` and the two stores after it
def opened (info : FdInfo δ) (i : Nat) : FdInfo δ := { info with inuse := 1, fd := i }

def freeSlot (slots : List (FdInfo δ)) (nfds : Nat) : Option Nat :=
  (slots.take nfds).findIdx? fun f => f.inuse == 0

/-- `(int)n`. -/
def toInt32 (n : Nat) : Int :=
  if n % 2 ^ 32 < 2 ^ 31 then (n % 2 ^ 32 : Nat) else (n % 2 ^ 32 : Nat) - 2 ^ 32

-- Below, `none` as the outcome of a call means that it uses memory outside the block at `fds`, or
-- that the answer of `malloc` is not one it can give.

/-- `realloc` to `nfds + 10` slots and the descriptor after the old ones.  A `realloc` that gets no
memory has freed the block. -/
def growFds (k : FdKernel δ) (pid ptr nfds : Nat) (slots : List (FdInfo δ)) (info : FdInfo δ)
    (r : FdAlloc δ) : Option (Option Nat × FdKernel δ) :=
  match r with
  | none => some (none, k.setHeap ptr none)
  | some (new, c) =>
    if k.Fresh new c (nfds + 10) then
      let slots := (slots ++ c.drop slots.length).take (nfds + 10)
      some (some nfds, ((k.setHeap ptr none).setHeap new
        (some (slots.set nfds (opened info nfds)))).setProc pid
          ⟨some new, (k.proctbl pid).nfds + 10⟩)
    else none

-- from the loop on; `nfds` is the local variable
def placeFd (k : FdKernel δ) (pid ptr nfds : Nat) (info : FdInfo δ) (r : FdAlloc δ) :
    Option (Option Nat × FdKernel δ) :=
  match k.heap ptr with
  | none => none
  | some slots =>
    match freeSlot slots nfds with
    | some i => some (some i, k.setHeap ptr (some (slots.set i (opened info i))))
    | none => if nfds ≤ slots.length then growFds k pid ptr nfds slots info r else none

/-- The descriptor, or `none` for `NULL`. -/
def getnewfd (k : FdKernel δ) (pid : Nat) (info : FdInfo δ) (m r : FdAlloc δ) :
    Option (Option Nat × FdKernel δ) :=
  let nfds := (k.proctbl pid).nfds
  match (k.proctbl pid).fds with
  | some ptr => placeFd k pid ptr nfds info r
  | none =>
    match m with
    | none => some (none, k)
    | some (ptr, c) =>
      if k.Fresh ptr c 10 then
        placeFd ((k.setHeap ptr (some c)).setProc pid ⟨some ptr, nfds + 10⟩) pid ptr nfds info r
      else none

-- the slot of a descriptor that passed the two tests
def fdSlot (k : FdKernel δ) (pid : Nat) (fd : Int) : Option (Nat × List (FdInfo δ) × FdInfo δ) := do
  let ptr ← (k.proctbl pid).fds
  let slots ← k.heap ptr
  let f ← slots[fd.toNat]?
  pure (ptr, slots, f)

def badFd (k : FdKernel δ) (pid : Nat) (fd : Int) : Bool :=
  decide (toInt32 (k.proctbl pid).nfds ≤ fd) || decide (fd < 0)

def getfd (k : FdKernel δ) (pid : Nat) (fd : Int) : Option Int :=
  if badFd k pid fd then some (-EBADF)
  else (fdSlot k pid fd).map fun s => if s.2.2.inuse = 0 then -EBADF else 0

def closefd (k : FdKernel δ) (pid : Nat) (fd : Int) : Option (Int × FdKernel δ) :=
  if badFd k pid fd then some (-EBADF, k)
  else (fdSlot k pid fd).map fun s =>
    (0, k.setHeap s.1 (some (s.2.1.set fd.toNat { s.2.2 with inuse := 0 })))

-- the table of `dst`, and whether it was copied
def copyFds (k : FdKernel δ) (dst src : Nat) (a : FdAlloc δ) : Option (Bool × FdKernel δ) :=
  let nfds := (k.proctbl src).nfds
  match (k.proctbl src).fds with
  | none => some (false, k)
  | some ptr =>
    if nfds = 0 then some (false, k)
    else
      match a with
      | none => some (false, k)
      | some (new, c) =>
        match k.heap ptr with
        | none => none
        | some slots =>
          if k.Fresh new c nfds ∧ nfds ≤ slots.length then
            some (true, (k.setHeap new (some (slots.take nfds))).setProc dst
              ⟨some new, nfds⟩)
          else none

-- `free` and the null pointer; `nfds` stays as it is
def endprocShared (k : FdKernel δ) (pid : Nat) : Option (FdKernel δ) :=
  let gone := k.setProc pid ⟨none, (k.proctbl pid).nfds⟩
  match (k.proctbl pid).fds with
  | none => some gone
  | some ptr => if (k.heap ptr).isSome then some (gone.setHeap ptr none) else none

/-! ## Runs -/

inductive FdCall (δ : Type)
  | getnewfd (pid : Nat) (info : FdInfo δ) (m r : FdAlloc δ)
  | getfd (pid : Nat) (fd : Int)
  | closefd (pid : Nat) (fd : Int)
  -- `started` is false when `new_process` fails after the copy
  | copyFds (dst src : Nat) (a : FdAlloc δ) (started : Bool)
  | exit (pid : Nat)

structure FdRun (δ : Type) where
  k : FdKernel δ
  alive : Nat → Bool
  handed : Nat → Nat → Bool

open FdRun

namespace FdRun

def handOut (w : FdRun δ) (pid : Nat) (fd : Option Nat) : Nat → Nat → Bool :=
  match fd with
  | none => w.handed
  | some d => update w.handed pid (update (w.handed pid) d true)

def takeBack (w : FdRun δ) (pid : Nat) (fd : Int) : Nat → Nat → Bool :=
  if fd < 0 then w.handed
  else update w.handed pid (update (w.handed pid) fd.toNat false)

def step (w : FdRun δ) : FdCall δ → Option (FdRun δ)
  | .getnewfd pid info m r =>
    if w.alive pid then
      (getnewfd w.k pid info m r).map fun o => { w with k := o.2, handed := w.handOut pid o.1 }
    else none
  | .getfd pid fd => if w.alive pid then (getfd w.k pid fd).map fun _ => w else none
  | .closefd pid fd =>
    if w.alive pid then
      (closefd w.k pid fd).map fun o => { w with k := o.2, handed := w.takeBack pid fd }
    else none
  | .copyFds dst src a started =>
    if w.alive src ∧ w.alive dst = false then
      (copyFds w.k dst src a).map fun o =>
        { k := o.2
          alive := update w.alive dst started
          handed := update w.handed dst
            (if o.1 then w.handed src else fun _ => false) }
    else none
  | .exit pid =>
    if w.alive pid then
      (endprocShared w.k pid).map fun k =>
        { k := k
          alive := update w.alive pid false
          handed := update w.handed pid fun _ => false }
    else none

def Step (w : FdRun δ) (c : FdCall δ) (w' : FdRun δ) : Prop := w.step c = some w'

end FdRun

/-! ## What is asked for -/

def FdKernel.table (k : FdKernel δ) (pid : Nat) : Option (List (FdInfo δ)) :=
  (k.proctbl pid).fds.bind k.heap

-- the slots at `fds`, none at the null pointer
def FdKernel.slots (k : FdKernel δ) (pid : Nat) : List (FdInfo δ) := (k.table pid).getD []

/-- The table of every process but `pid` is as it was. -/
def FdKernel.OthersKeep (k k' : FdKernel δ) (pid : Nat) : Prop :=
  ∀ q, q ≠ pid → k'.proctbl q = k.proctbl q ∧ k'.table q = k.table q

/-- `nfds` counts the slots at `fds`, and `getfd` knows the descriptors that are out. -/
structure FdRun.TablesOk (w : FdRun δ) : Prop where
  nfds : ∀ pid, w.alive pid = true → (w.k.slots pid).length = (w.k.proctbl pid).nfds
  getfd : ∀ pid fd, w.alive pid = true →
    ∃ code, Vfs.getfd w.k pid fd = some code ∧
      (code = 0 ↔ 0 ≤ fd ∧ w.handed pid fd.toNat = true)

def FdRun.CallOk (w : FdRun δ) : FdCall δ → FdRun δ → Prop
  | .getnewfd pid info m r, w' => w.k.OthersKeep w'.k pid ∧
      ∀ d, (Vfs.getnewfd w.k pid info m r).map Prod.fst = some (some d) →
        w.handed pid d = false ∧ (w'.k.slots pid)[d]? = some (opened info d) ∧
        ∀ i < (w.k.slots pid).length, i ≠ d → (w'.k.slots pid)[i]? = (w.k.slots pid)[i]?
  | .getfd _ _, w' => w' = w
  | .closefd pid fd, w' => w.k.OthersKeep w'.k pid ∧
      ∀ i : Nat, (i : Int) ≠ fd → (w'.k.slots pid)[i]? = (w.k.slots pid)[i]?
  | .copyFds dst _ _ _, w' => w.k.OthersKeep w'.k dst
  | .exit pid, w' => w.k.OthersKeep w'.k pid

/-- The start: no table, or the four descriptors of the first process, in blocks of their own. -/
structure FdRun.Init (w : FdRun δ) : Prop where
  table : ∀ pid, w.k.proctbl pid = ⟨none, 0⟩ ∨
    ∃ ptr slots, w.k.proctbl pid = ⟨some ptr, 4⟩ ∧ w.k.heap ptr = some slots ∧
      slots.length = 4 ∧ ∀ f ∈ slots, f.inuse = 1
  apart : ∀ pid q ptr, (w.k.proctbl pid).fds = some ptr → (w.k.proctbl q).fds = some ptr → pid = q
  handed : ∀ pid fd, w.handed pid fd = decide (fd < (w.k.proctbl pid).nfds)

/-! ## When it holds -/

def FdKernel.Full (k : FdKernel δ) (pid : Nat) : Prop := ∀ f ∈ k.slots pid, f.inuse ≠ 0

/-- The table exists before a descriptor is opened.  When it is full there is memory for ten more
slots, the nine that stay free read 0 and `nfds` stays an `int`.  A table is copied, or the slot of
the new process has none left over. -/
def FdRun.Careful (w : FdRun δ) : FdCall δ → Prop
  | .getnewfd pid _ m r =>
    ((w.k.proctbl pid).fds = none → m = none) ∧
    ((w.k.proctbl pid).fds ≠ none → w.k.Full pid →
      (w.k.proctbl pid).nfds + 10 < 2 ^ 31 ∧
      ∃ new c, r = some (new, c) ∧ ∀ f ∈ c.drop ((w.k.proctbl pid).nfds + 1), f.inuse = 0)
  | .getfd _ _ => True
  | .closefd _ _ => True
  | .copyFds dst src a _ =>
    ((w.k.proctbl src).fds ≠ none ∧ (w.k.proctbl src).nfds ≠ 0 ∧ a ≠ none) ∨
      w.k.proctbl dst = ⟨none, 0⟩
  | .exit _ => True

/-! ## Blocks of their own -/

/-- Every table is an allocated block of `nfds` slots, and no two processes share one. -/
structure FdKernel.Sound (k : FdKernel δ) : Prop where
  block : ∀ pid ptr, (k.proctbl pid).fds = some ptr →
    ∃ slots, k.heap ptr = some slots ∧ slots.length = (k.proctbl pid).nfds ∧
      (k.proctbl pid).nfds < 2 ^ 31
  apart : ∀ pid q ptr, (k.proctbl pid).fds = some ptr → (k.proctbl q).fds = some ptr → pid = q

/-- What a call on the table of `pid` may do: it changes the block of `pid` or takes a new one. -/
structure FdKernel.Effect (k k' : FdKernel δ) (pid : Nat) : Prop where
  procs : ∀ q, q ≠ pid → k'.proctbl q = k.proctbl q
  heap : ∀ ptr, (k.proctbl pid).fds ≠ some ptr → k.heap ptr ≠ none → k'.heap ptr = k.heap ptr
  owned : ∀ ptr, (k'.proctbl pid).fds = some ptr →
    (k.proctbl pid).fds = some ptr ∨ k.heap ptr = none
  block : ∀ ptr, (k'.proctbl pid).fds = some ptr →
    ∃ slots, k'.heap ptr = some slots ∧ slots.length = (k'.proctbl pid).nfds ∧
      (k'.proctbl pid).nfds < 2 ^ 31

namespace FdKernel

variable {k k' : FdKernel δ} {pid q ptr : Nat}

theorem table_eq (h : (k.proctbl pid).fds = some ptr) : k.table pid = k.heap ptr := by
  rw [table, h, Option.bind_some]

theorem slots_eq {slots : List (FdInfo δ)} (h : (k.proctbl pid).fds = some ptr)
    (hslots : k.heap ptr = some slots) : k.slots pid = slots := by
  rw [FdKernel.slots, table_eq h, hslots, Option.getD_some]

theorem slots_setHeap (h : (k.proctbl pid).fds = some ptr) (slots : List (FdInfo δ)) :
    (k.setHeap ptr (some slots)).slots pid = slots :=
  slots_eq (k := k.setHeap ptr (some slots)) h (setHeap_self ..)

theorem slots_null (h : (k.proctbl pid).fds = none) : k.slots pid = [] := by
  rw [slots, table, h]
  rfl

theorem Sound.ne_none (hk : k.Sound) (h : (k.proctbl pid).fds = some ptr) : k.heap ptr ≠ none := by
  obtain ⟨slots, hslots, -⟩ := hk.block pid ptr h
  rw [hslots]
  exact Option.some_ne_none slots

section

variable (hk : k.Sound) (h : Effect k k' pid)

include hk h

-- the block of another process is not touched
theorem Effect.heap_other (hq : q ≠ pid)
    (hfds : (k.proctbl q).fds = some ptr) : k'.heap ptr = k.heap ptr := by
  apply h.heap ptr _ (hk.ne_none hfds)
  intro hpid
  exact hq (hk.apart q pid ptr hfds hpid)

theorem Effect.others : k.OthersKeep k' pid := by
  intro q hq
  have hproc := h.procs q hq
  refine ⟨hproc, ?_⟩
  cases hfds : (k.proctbl q).fds with
  | none => rw [table, table, hproc, hfds]; rfl
  | some ptr =>
    rw [table_eq hfds, table_eq (hproc ▸ hfds)]
    exact h.heap_other hk hq hfds

-- a block that `pid` has now was its own or free, so nobody else has it
theorem Effect.not_shared (hq : q ≠ pid)
    (hpid : (k'.proctbl pid).fds = some ptr) : (k'.proctbl q).fds ≠ some ptr := by
  intro hfds
  rw [h.procs q hq] at hfds
  rcases h.owned ptr hpid with hown | hfree
  · exact hq (hk.apart q pid ptr hfds hown)
  · exact hk.ne_none hfds hfree

theorem Effect.sound : k'.Sound where
  block := by
    intro q ptr hfds
    by_cases hq : q = pid
    · subst hq
      exact h.block ptr hfds
    · rw [h.procs q hq] at hfds ⊢
      rw [h.heap_other hk hq hfds]
      exact hk.block q ptr hfds
  apart := by
    intro q q' ptr hfds hfds'
    by_cases hq : q = pid
    · subst hq
      by_contra hne
      exact h.not_shared hk (Ne.symm hne) hfds hfds'
    · by_cases hq' : q' = pid
      · subst hq'
        exact absurd hfds (h.not_shared hk hq hfds')
      · rw [h.procs q hq] at hfds
        rw [h.procs q' hq'] at hfds'
        exact hk.apart q q' ptr hfds hfds'

end

theorem effect_refl (hk : k.Sound) (pid : Nat) : Effect k k pid where
  procs := fun _ _ => rfl
  heap := fun _ _ _ => rfl
  owned := fun _ h => Or.inl h
  block := hk.block pid

-- the block of `pid` may change
theorem heap_setHeap (hfds : (k.proctbl pid).fds = some ptr) {p : Nat}
    (hp : (k.proctbl pid).fds ≠ some p) (b : Option (List (FdInfo δ))) :
    (k.setHeap ptr b).heap p = k.heap p := by
  apply setHeap_of_ne
  rintro rfl
  exact hp hfds

-- the slots are rewritten in place
theorem effect_setHeap (hk : k.Sound) (hfds : (k.proctbl pid).fds = some ptr)
    {slots : List (FdInfo δ)} (hlen : slots.length = (k.proctbl pid).nfds) :
    Effect k (k.setHeap ptr (some slots)) pid where
  procs := fun _ _ => rfl
  heap := fun _ hp _ => heap_setHeap hfds hp _
  owned := fun _ h => Or.inl h
  block := by
    intro p hp
    cases hfds.symm.trans hp
    obtain ⟨-, -, -, hlt⟩ := hk.block pid ptr hfds
    exact ⟨slots, setHeap_self .., hlen, hlt⟩

-- a new block becomes the table; `k₀` is the kernel in which the old one may be freed
theorem effect_install (k k₀ : FdKernel δ) (hprocs : k₀.proctbl = k.proctbl)
    (hheap : ∀ p, (k.proctbl pid).fds ≠ some p → k₀.heap p = k.heap p) {new n : Nat}
    (hfree : k.heap new = none) {slots : List (FdInfo δ)} (hlen : slots.length = n)
    (hlt : n < 2 ^ 31) :
    Effect k ((k₀.setHeap new (some slots)).setProc pid ⟨some new, n⟩) pid where
  procs := by
    intro q hq
    rw [setProc_of_ne _ _ hq]
    exact congrFun hprocs q
  heap := by
    intro p hp hnone
    have hne : p ≠ new := by
      rintro rfl
      exact hnone hfree
    exact (setHeap_of_ne k₀ _ hne).trans (hheap p hp)
  owned := by
    intro p hp
    rw [setProc_self] at hp
    cases hp
    exact Or.inr hfree
  block := by
    intro p hp
    rw [setProc_self] at hp ⊢
    cases hp
    exact ⟨slots, setHeap_self .., hlen, hlt⟩

theorem slots_install (k₀ : FdKernel δ) (pid new n : Nat) (slots : List (FdInfo δ)) :
    ((k₀.setHeap new (some slots)).setProc pid ⟨some new, n⟩).slots pid = slots := by
  have hfds : (((k₀.setHeap new (some slots)).setProc pid ⟨some new, n⟩).proctbl pid).fds =
      some new := by
    rw [setProc_self]
  exact slots_eq hfds (setHeap_self k₀ new _)

end FdKernel

/-! ## Slots -/

def InUse (slots : List (FdInfo δ)) (i : Nat) : Prop := ∃ f, slots[i]? = some f ∧ f.inuse ≠ 0

/-- Descriptor `d` is opened: its slot was free, the others stay, and added ones are free. -/
structure Opens (slots slots' : List (FdInfo δ)) (d : Nat) (info : FdInfo δ) : Prop where
  new : slots'[d]? = some (opened info d)
  free : ¬ InUse slots d
  keep : ∀ i < slots.length, i ≠ d → slots'[i]? = slots[i]?
  rest : ∀ i, slots.length ≤ i → i ≠ d → ¬ InUse slots' i

section Slots

variable {slots slots' : List (FdInfo δ)} {d i nfds : Nat} {info : FdInfo δ}

theorem not_inUse_of_le (h : slots.length ≤ i) : ¬ InUse slots i := by
  rintro ⟨f, hf, -⟩
  rw [List.getElem?_eq_none h] at hf
  cases hf

theorem inUse_iff (h : i < slots.length) : InUse slots i ↔ slots[i].inuse ≠ 0 := by
  unfold InUse
  rw [List.getElem?_eq_getElem h]
  exact ⟨fun ⟨f, hf, hne⟩ => Option.some.inj hf ▸ hne, fun hne => ⟨_, rfl, hne⟩⟩

theorem inUse_congr (h : slots'[i]? = slots[i]?) : InUse slots' i ↔ InUse slots i := by
  unfold InUse
  rw [h]

theorem Opens.inUse_iff (h : Opens slots slots' d info) (i : Nat) :
    InUse slots' i ↔ i = d ∨ InUse slots i := by
  by_cases hi : i = d
  · subst hi
    exact iff_of_true ⟨_, h.new, Int.one_ne_zero⟩ (Or.inl rfl)
  · rcases Nat.lt_or_ge i slots.length with hlt | hge
    · rw [inUse_congr (h.keep i hlt hi)]
      exact ⟨Or.inr, fun hor => hor.resolve_left hi⟩
    · exact iff_of_false (h.rest i hge hi) (not_or.mpr ⟨hi, not_inUse_of_le hge⟩)

theorem freeSlot_some (hlen : slots.length = nfds) (h : freeSlot slots nfds = some d) :
    ∃ hd : d < slots.length, slots[d].inuse = 0 := by
  unfold freeSlot at h
  rw [take_of_length_le (Nat.le_of_eq hlen)] at h
  obtain ⟨hd, hfree, -⟩ := List.findIdx?_eq_some_iff_getElem.mp h
  exact ⟨hd, beq_iff_eq.mp hfree⟩

theorem freeSlot_none (hlen : slots.length = nfds) (h : freeSlot slots nfds = none) :
    ∀ f ∈ slots, f.inuse ≠ 0 := by
  unfold freeSlot at h
  rw [take_of_length_le (Nat.le_of_eq hlen), List.findIdx?_eq_none_iff] at h
  intro f hf hzero
  have hne := h f hf
  rw [hzero] at hne
  cases hne

theorem opens_set (hd : d < slots.length) (hfree : slots[d].inuse = 0) :
    Opens slots (slots.set d (opened info d)) d info where
  new := List.getElem?_set_self hd
  free := by
    rw [inUse_iff hd]
    exact not_not.mpr hfree
  keep := fun i _ hi => List.getElem?_set_ne (Ne.symm hi)
  rest := fun i hi _ => not_inUse_of_le (by rw [length_set]; exact hi)

-- a full table with ten more slots
theorem opens_grow (hc : c.length = slots.length + 10)
    (hzero : ∀ f ∈ c.drop (slots.length + 1), f.inuse = 0) :
    Opens slots ((slots ++ c.drop slots.length).set slots.length (opened info slots.length))
      slots.length info where
  new := by
    apply List.getElem?_set_self
    rw [length_append, length_drop]
    omega
  free := not_inUse_of_le (Nat.le_refl _)
  keep := by
    intro i hi hne
    rw [List.getElem?_set_ne (Ne.symm hne), List.getElem?_append_left hi]
  rest := by
    rintro i hi hne ⟨f, hf, hinuse⟩
    rw [List.getElem?_set_ne (Ne.symm hne), List.getElem?_append_right hi, List.getElem?_drop] at hf
    apply hinuse
    apply hzero f
    apply mem_of_getElem? (i := i - (slots.length + 1))
    rw [List.getElem?_drop, ← hf]
    congr 1
    omega

end Slots

/-! ## The calls -/

section Calls

variable {k k' : FdKernel δ} {pid : Nat} {info : FdInfo δ} {m r : FdAlloc δ}

variable {ptr : Nat} {ret : Option Nat} {fd : Int}

theorem growFds_spec (hfds : (k.proctbl pid).fds = some ptr) {slots : List (FdInfo δ)}
    (hslots : k.heap ptr = some slots) (hlen : slots.length = (k.proctbl pid).nfds)
    (hlt : (k.proctbl pid).nfds + 10 < 2 ^ 31) {new : Nat}
    (hzero : ∀ f ∈ c.drop ((k.proctbl pid).nfds + 1), f.inuse = 0)
    (h : growFds k pid ptr (k.proctbl pid).nfds slots info (some (new, c)) = some (ret, k')) :
    k.Effect k' pid ∧ ∃ d, ret = some d ∧ Opens (k.slots pid) (k'.slots pid) d info := by
  unfold growFds at h
  dsimp only at h
  split at h
  swap
  · cases h
  rename_i hfresh
  obtain ⟨hfree, hc⟩ := hfresh
  cases h
  have hlen' : (slots ++ c.drop slots.length).length = (k.proctbl pid).nfds + 10 := by
    rw [length_append, length_drop]
    omega
  rw [take_of_length_le (Nat.le_of_eq hlen')]
  refine ⟨effect_install k (k.setHeap ptr none) rfl (fun _ hp => heap_setHeap hfds hp none) hfree
    (length_set.trans hlen') hlt, _, rfl, ?_⟩
  rw [slots_install, slots_eq hfds hslots, ← hlen]
  rw [← hlen] at hzero hc
  exact opens_grow hc hzero

/-- A careful `getnewfd` opens a free descriptor or changes nothing. -/
theorem getnewfd_spec (hk : k.Sound) (hnull : (k.proctbl pid).fds = none → m = none)
    (hfull : (k.proctbl pid).fds ≠ none → k.Full pid → (k.proctbl pid).nfds + 10 < 2 ^ 31 ∧
      ∃ new c, r = some (new, c) ∧ ∀ f ∈ c.drop ((k.proctbl pid).nfds + 1), f.inuse = 0)
    (h : getnewfd k pid info m r = some (ret, k')) : k.Effect k' pid ∧ ((ret = none ∧ k' = k) ∨
      ∃ d, ret = some d ∧ Opens (k.slots pid) (k'.slots pid) d info) := by
  unfold getnewfd at h
  cases hfds : (k.proctbl pid).fds with
  | none =>
    rw [hfds, hnull hfds] at h
    cases h
    exact ⟨effect_refl hk pid, Or.inl ⟨rfl, rfl⟩⟩
  | some ptr =>
    obtain ⟨slots, hslots, hlen, -⟩ := hk.block pid ptr hfds
    have hpid := slots_eq hfds hslots
    rw [hfds] at h
    dsimp only at h
    unfold placeFd at h
    rw [hslots] at h
    dsimp only at h
    cases hslot : freeSlot slots (k.proctbl pid).nfds with
    | some d =>
      rw [hslot] at h
      cases h
      obtain ⟨hd, hfree⟩ := freeSlot_some hlen hslot
      refine ⟨effect_setHeap hk hfds (length_set.trans hlen), Or.inr ⟨d, rfl, ?_⟩⟩
      rw [hpid, slots_setHeap hfds]
      exact opens_set hd hfree
    | none =>
      have hall : k.Full pid := by
        unfold Full
        rw [hpid]
        exact freeSlot_none hlen hslot
      obtain ⟨hlt, new, c, rfl, hzero⟩ := hfull (hfds ▸ Option.some_ne_none ptr) hall
      rw [hslot] at h
      rw [if_pos (Nat.le_of_eq hlen.symm)] at h
      obtain ⟨heff, hopens⟩ := growFds_spec hfds hslots hlen hlt hzero h
      exact ⟨heff, Or.inr hopens⟩

theorem toInt32_of_lt {n : Nat} (h : n < 2 ^ 31) : toInt32 n = n := by
  unfold toInt32
  rw [Nat.mod_eq_of_lt (by omega), if_pos h]

-- which descriptors pass the two tests
theorem badFd_eq_false (hlt : (k.proctbl pid).nfds < 2 ^ 31) :
    badFd k pid fd = false ↔ 0 ≤ fd ∧ fd.toNat < (k.proctbl pid).nfds := by
  unfold badFd
  rw [toInt32_of_lt hlt, Bool.or_eq_false_iff, decide_eq_false_iff_not, decide_eq_false_iff_not]
  omega

theorem fdSlot_eq (hfds : (k.proctbl pid).fds = some ptr) {slots : List (FdInfo δ)}
    (hslots : k.heap ptr = some slots) (h : fd.toNat < slots.length) :
    fdSlot k pid fd = some (ptr, slots, slots[fd.toNat]) := by
  unfold fdSlot
  rw [hfds, Option.bind_eq_bind, Option.bind_some, hslots, Option.bind_eq_bind, Option.bind_some,
    List.getElem?_eq_getElem h]
  rfl

theorem badFd_null (hn : (k.proctbl pid).nfds = 0) (fd : Int) : badFd k pid fd = true := by
  unfold badFd
  rw [hn, Bool.or_eq_true, decide_eq_true_iff, decide_eq_true_iff]
  have hzero : toInt32 0 = 0 := rfl
  omega

section

variable (hk : k.Sound) (hempty : (k.proctbl pid).fds = none → (k.proctbl pid).nfds = 0)

include hk hempty

-- a descriptor is refused, or has its slot
theorem FdKernel.Sound.fd_cases (fd : Int) :
    badFd k pid fd = true ∧ (0 ≤ fd → ¬ InUse (k.slots pid) fd.toNat) ∨
      ¬ badFd k pid fd = true ∧ ∃ ptr slots, (k.proctbl pid).fds = some ptr ∧
        k.heap ptr = some slots ∧ slots.length = (k.proctbl pid).nfds ∧ 0 ≤ fd ∧
        fd.toNat < slots.length := by
  cases hfds : (k.proctbl pid).fds with
  | none =>
    left
    rw [slots_null hfds]
    exact ⟨badFd_null (hempty hfds) fd, fun _ => not_inUse_of_le (Nat.zero_le _)⟩
  | some ptr =>
    obtain ⟨slots, hslots, hlen, hlt⟩ := hk.block pid ptr hfds
    by_cases hbad : badFd k pid fd = true
    · refine .inl ⟨hbad, fun hnonneg => ?_⟩
      rw [slots_eq hfds hslots]
      apply not_inUse_of_le
      by_contra hlt'
      rw [(badFd_eq_false hlt).mpr ⟨hnonneg, by omega⟩] at hbad
      cases hbad
    · obtain ⟨hnonneg, hin⟩ := (badFd_eq_false hlt).mp (eq_false_of_ne_true hbad)
      exact .inr ⟨hbad, ptr, slots, rfl, hslots, hlen, hnonneg, hlen ▸ hin⟩

/-- `getfd` answers 0 exactly for the slots in use. -/
theorem getfd_spec (fd : Int) :
    ∃ code, getfd k pid fd = some code ∧ (code = 0 ↔ 0 ≤ fd ∧ InUse (k.slots pid) fd.toNat) := by
  unfold getfd
  rcases hk.fd_cases hempty fd with ⟨hbad, hnot⟩ | ⟨hbad, ptr, slots, hfds, hslots, _, hnonneg, hin⟩
  · rw [if_pos hbad]
    exact ⟨_, rfl, iff_of_false (by decide) fun h => hnot h.1 h.2⟩
  rw [slots_eq hfds hslots, if_neg hbad, fdSlot_eq hfds hslots hin, Option.map_some]
  refine ⟨_, rfl, ?_⟩
  rw [inUse_iff hin]
  split
  · rename_i hz
    exact iff_of_false (by decide) fun hcon => hcon.2 hz
  · rename_i hnz
    exact iff_of_true rfl ⟨hnonneg, hnz⟩

/-- `closefd` frees the slot of a descriptor in the table and leaves the rest. -/
theorem closefd_spec {code : Int}
    (h : closefd k pid fd = some (code, k')) : k.Effect k' pid ∧ (k'.proctbl pid = k.proctbl pid) ∧
      (0 ≤ fd → ¬ InUse (k'.slots pid) fd.toNat) ∧
      ∀ i : Nat, (i : Int) ≠ fd → (k'.slots pid)[i]? = (k.slots pid)[i]? := by
  unfold closefd at h
  rcases hk.fd_cases hempty fd with ⟨hbad, hnot⟩ | ⟨hbad, ptr, slots, hfds, hslots, hlen, _, hin⟩
  · rw [if_pos hbad] at h
    cases h
    exact ⟨effect_refl hk pid, rfl, hnot, fun _ _ => rfl⟩
  rw [if_neg hbad, fdSlot_eq hfds hslots hin] at h
  cases h
  refine ⟨effect_setHeap hk hfds (length_set.trans hlen), rfl, ?_, ?_⟩
  · intro _
    rw [slots_setHeap hfds]
    rintro ⟨f, hf, hne⟩
    rw [List.getElem?_set_self hin] at hf
    cases hf
    exact hne rfl
  · intro i hi
    rw [slots_setHeap hfds, slots_eq hfds hslots]
    apply List.getElem?_set_ne
    omega

end

/-- `copy_fds` gives `dst` a block of its own with the slots of `src`, or does nothing. -/
theorem copyFds_spec (hk : k.Sound) {dst src : Nat} {a : FdAlloc δ} {copied : Bool}
    (h : copyFds k dst src a = some (copied, k')) : (copied = false ∧ k' = k ∧
        ((k.proctbl src).fds = none ∨ (k.proctbl src).nfds = 0 ∨ a = none)) ∨
      (copied = true ∧ k.Effect k' dst ∧ k'.slots dst = k.slots src ∧
        (k'.proctbl dst).fds ≠ none) := by
  unfold copyFds at h
  cases hfds : (k.proctbl src).fds with
  | none =>
    rw [hfds] at h
    cases h
    exact Or.inl ⟨rfl, rfl, Or.inl rfl⟩
  | some ptr =>
    obtain ⟨slots, hslots, hlen, hlt⟩ := hk.block src ptr hfds
    rw [hfds] at h
    dsimp only at h
    split at h
    · rename_i hzero
      cases h
      exact Or.inl ⟨rfl, rfl, Or.inr (Or.inl hzero)⟩
    cases a with
    | none =>
      cases h
      exact Or.inl ⟨rfl, rfl, Or.inr (Or.inr rfl)⟩
    | some block =>
      obtain ⟨new, c⟩ := block
      rw [hslots] at h
      dsimp only at h
      split at h
      · rename_i hfresh
        cases h
        rw [take_of_length_le (Nat.le_of_eq hlen)]
        refine Or.inr ⟨rfl, effect_install k k rfl (fun _ _ => rfl) hfresh.1.1 hlen hlt, ?_, ?_⟩
        · rw [slots_install, slots_eq hfds hslots]
        · rw [setProc_self]
          exact Option.some_ne_none new
      · cases h

theorem endprocShared_spec (h : endprocShared k pid = some k') :
    k.Effect k' pid ∧ (k'.proctbl pid).fds = none := by
  unfold endprocShared at h
  -- the slot has no table afterwards, whatever is freed
  have hnull : ((k.setProc pid ⟨none, (k.proctbl pid).nfds⟩).proctbl pid).fds = none := by
    rw [setProc_self]
  have hgone : ∀ p, ((k.setProc pid ⟨none, (k.proctbl pid).nfds⟩).proctbl pid).fds ≠ some p := by
    intro p
    rw [hnull]
    exact (Option.some_ne_none p).symm
  cases hfds : (k.proctbl pid).fds with
  | none =>
    rw [hfds] at h
    cases h
    exact ⟨⟨fun q hq => setProc_of_ne k _ hq, fun _ _ _ => rfl, fun p hp => absurd hp (hgone p),
      fun p hp => absurd hp (hgone p)⟩, hnull⟩
  | some ptr =>
    rw [hfds] at h
    obtain ⟨-, h⟩ := Option.ite_none_right_eq_some.mp h
    cases h
    exact ⟨⟨fun q hq => setProc_of_ne k _ hq, fun p hp _ => heap_setHeap hfds hp none,
      fun p hp => absurd hp (hgone p), fun p hp => absurd hp (hgone p)⟩, hnull⟩

end Calls

/-! ## The invariant of careful runs -/

structure FdRun.Inv (w : FdRun δ) : Prop where
  sound : w.k.Sound
  empty : ∀ pid, w.alive pid = true → (w.k.proctbl pid).fds = none → (w.k.proctbl pid).nfds = 0
  handed : ∀ pid fd, w.alive pid = true →
    (w.handed pid fd = true ↔ InUse (w.k.slots pid) fd)

namespace FdRun

variable {w w' : FdRun δ}

theorem Init.inv (h : w.Init) : w.Inv where
  sound := by
    refine ⟨?_, h.apart⟩
    intro pid ptr hfds
    rcases h.table pid with hnull | ⟨p, slots, hproc, hslots, hlen, -⟩
    · rw [hnull] at hfds
      cases hfds
    · rw [hproc] at hfds ⊢
      cases hfds
      exact ⟨slots, hslots, hlen, (by decide : 4 < 2 ^ 31)⟩
  empty := by
    intro pid _ hfds
    rcases h.table pid with hnull | ⟨p, slots, hproc, -⟩
    · rw [hnull]
    · rw [hproc] at hfds
      cases hfds
  handed := by
    intro pid fd _
    rw [h.handed, decide_eq_true_iff]
    rcases h.table pid with hnull | ⟨p, slots, hproc, hslots, hlen, huse⟩
    · have hfds : (w.k.proctbl pid).fds = none := by rw [hnull]
      rw [slots_null hfds, hnull]
      exact iff_of_false (Nat.not_lt_zero fd) (not_inUse_of_le (Nat.zero_le _))
    have hfds : (w.k.proctbl pid).fds = some p := by rw [hproc]
    rw [slots_eq hfds hslots, hproc]
    constructor
    · intro hlt
      have hin : fd < slots.length := by rw [hlen]; exact hlt
      rw [inUse_iff hin, huse _ (getElem_mem hin)]
      exact Int.one_ne_zero
    · intro hin
      by_contra hge
      exact not_inUse_of_le (hlen ▸ Nat.le_of_not_lt hge) hin

theorem Inv.tablesOk (h : w.Inv) : w.TablesOk where
  nfds := by
    intro pid halive
    cases hfds : (w.k.proctbl pid).fds with
    | none =>
      rw [slots_null hfds, h.empty pid halive hfds]
      rfl
    | some ptr =>
      obtain ⟨slots, hslots, hlen, -⟩ := h.sound.block pid ptr hfds
      rw [slots_eq hfds hslots]
      exact hlen
  getfd := by
    intro pid fd halive
    obtain ⟨code, hcode, hiff⟩ := getfd_spec h.sound (h.empty pid halive) fd
    refine ⟨code, hcode, hiff.trans ?_⟩
    rw [h.handed pid fd.toNat halive]

variable {pid : Nat}

-- the processes a call is not about
theorem Inv.of_effect (h : w.Inv) (heff : w.k.Effect w'.k pid)
    (halive : ∀ q, q ≠ pid → w'.alive q = w.alive q)
    (hhanded : ∀ q, q ≠ pid → w'.handed q = w.handed q)
    (hempty : w'.alive pid = true → (w'.k.proctbl pid).fds = none → (w'.k.proctbl pid).nfds = 0)
    (hpid : ∀ fd, w'.alive pid = true →
      (w'.handed pid fd = true ↔ InUse (w'.k.slots pid) fd)) : w'.Inv where
  sound := heff.sound h.sound
  empty := by
    intro q hq
    by_cases hqp : q = pid
    · subst hqp
      exact hempty hq
    · rw [heff.procs q hqp]
      exact h.empty q (halive q hqp ▸ hq)
  handed := by
    intro q fd hq
    by_cases hqp : q = pid
    · subst hqp
      exact hpid fd hq
    · have hslots : w'.k.slots q = w.k.slots q := by
        rw [slots, slots, (heff.others h.sound q hqp).2]
      rw [hslots, hhanded q hqp]
      exact h.handed q fd (halive q hqp ▸ hq)

theorem Inv.getnewfd (h : w.Inv) {info : FdInfo δ} {m r : FdAlloc δ}
    (hcare : w.Careful (.getnewfd pid info m r)) (hstep : w.Step (.getnewfd pid info m r) w') :
    w'.Inv ∧ w.CallOk (.getnewfd pid info m r) w' := by
  obtain ⟨halive, hstep⟩ := Option.ite_none_right_eq_some.mp hstep
  obtain ⟨⟨ret, k'⟩, hcall, rfl⟩ := Option.map_eq_some_iff.mp hstep
  obtain ⟨heff, hret⟩ := getnewfd_spec h.sound hcare.1 hcare.2 hcall
  refine ⟨?_, heff.others h.sound, ?_⟩
  · refine h.of_effect heff ?_ ?_ ?_ ?_
    · exact fun _ _ => rfl
    · intro q hq
      cases ret with
      | none => rfl
      | some d => exact update_of_ne hq _ _
    · intro _ hfds
      rcases hret with ⟨rfl, rfl⟩ | ⟨d, rfl, hopens⟩
      · exact h.empty pid halive hfds
      · -- an opened slot is not in an empty table
        have hnew := hopens.new
        rw [slots_null hfds] at hnew
        cases hnew
    · intro fd _
      rcases hret with ⟨rfl, rfl⟩ | ⟨d, rfl, hopens⟩
      · exact h.handed pid fd halive
      rw [hopens.inUse_iff, ← h.handed pid fd halive]
      show update w.handed pid (update (w.handed pid) d true) pid fd = true ↔ _
      rw [update_self]
      by_cases hfd : fd = d
      · subst hfd
        rw [update_self]
        exact iff_of_true rfl (Or.inl rfl)
      · rw [update_of_ne hfd]
        exact ⟨Or.inr, fun hor => hor.resolve_left hfd⟩
  · intro d hd
    rw [hcall] at hd
    cases hd
    rcases hret with ⟨hnone, -⟩ | ⟨d', hd', hopens⟩
    · cases hnone
    cases hd'
    refine ⟨?_, hopens.new, hopens.keep⟩
    apply eq_false_of_ne_true
    intro hout
    exact hopens.free ((h.handed pid d halive).mp hout)

theorem Inv.closefd (h : w.Inv) {fd : Int} (hstep : w.Step (.closefd pid fd) w') :
    w'.Inv ∧ w.CallOk (.closefd pid fd) w' := by
  obtain ⟨halive, hstep⟩ := Option.ite_none_right_eq_some.mp hstep
  obtain ⟨⟨code, k'⟩, hcall, rfl⟩ := Option.map_eq_some_iff.mp hstep
  obtain ⟨heff, hproc, hclosed, hkeep⟩ := closefd_spec h.sound (h.empty pid halive) hcall
  refine ⟨?_, heff.others h.sound, hkeep⟩
  refine h.of_effect heff ?_ ?_ ?_ ?_
  · exact fun _ _ => rfl
  · intro q hq
    unfold takeBack
    split
    · rfl
    · exact update_of_ne hq _ _
  · intro _ hfds
    rw [hproc] at hfds ⊢
    exact h.empty pid halive hfds
  · intro i _
    show w.takeBack pid fd pid i = true ↔ InUse (k'.slots pid) i
    unfold takeBack
    by_cases hneg : fd < 0
    · rw [if_pos hneg, inUse_congr (hkeep i (by omega))]
      exact h.handed pid i halive
    rw [if_neg hneg, update_self]
    by_cases hi : i = fd.toNat
    · subst hi
      rw [update_self]
      exact iff_of_false Bool.false_ne_true (hclosed (by omega))
    · rw [update_of_ne hi, inUse_congr (hkeep i (by omega))]
      exact h.handed pid i halive

theorem Inv.copyFds (h : w.Inv) {dst src : Nat} {a : FdAlloc δ} {started : Bool}
    (hcare : w.Careful (.copyFds dst src a started))
    (hstep : w.Step (.copyFds dst src a started) w') :
    w'.Inv ∧ w.CallOk (.copyFds dst src a started) w' := by
  obtain ⟨halive, hstep⟩ := Option.ite_none_right_eq_some.mp hstep
  obtain ⟨⟨copied, k'⟩, hcall, rfl⟩ := Option.map_eq_some_iff.mp hstep
  have halive' : ∀ q, q ≠ dst → update w.alive dst started q = w.alive q :=
    fun q hq => update_of_ne hq _ _
  have hhanded' : ∀ f q, q ≠ dst → update w.handed dst f q = w.handed q :=
    fun f q hq => update_of_ne hq _ _
  rcases copyFds_spec h.sound hcall with ⟨rfl, rfl, hwhy⟩ | ⟨rfl, heff, hslots, hfds⟩
  · -- nothing was copied, so there is nothing left over in the slot
    have hnull : w.k.proctbl dst = ⟨none, 0⟩ := by
      rcases hcare with ⟨hsrc, hn, ha⟩ | hnull
      · rcases hwhy with h1 | h1 | h1
        · exact absurd h1 hsrc
        · exact absurd h1 hn
        · exact absurd h1 ha
      · exact hnull
    have heff := effect_refl h.sound dst
    refine ⟨h.of_effect heff halive' (hhanded' _) ?_ ?_, heff.others h.sound⟩
    · intro _ _
      rw [hnull]
    · intro fd _
      show update w.handed dst (fun _ => false) dst fd = true ↔ InUse (w.k.slots dst) fd
      rw [update_self, slots_null (by rw [hnull])]
      exact iff_of_false Bool.false_ne_true (not_inUse_of_le (Nat.zero_le _))
  · refine ⟨h.of_effect heff halive' (hhanded' _) (fun _ hnone => absurd hnone hfds) ?_,
      heff.others h.sound⟩
    intro fd _
    show update w.handed dst (w.handed src) dst fd = true ↔ InUse (k'.slots dst) fd
    rw [update_self, hslots]
    exact h.handed src fd halive.1

theorem Inv.exit (h : w.Inv) (hstep : w.Step (.exit pid) w') :
    w'.Inv ∧ w.CallOk (.exit pid) w' := by
  obtain ⟨-, hstep⟩ := Option.ite_none_right_eq_some.mp hstep
  obtain ⟨k', hcall, rfl⟩ := Option.map_eq_some_iff.mp hstep
  obtain ⟨heff, -⟩ := endprocShared_spec hcall
  have hdead : update w.alive pid false pid ≠ true := by
    rw [update_self]
    exact Bool.false_ne_true
  refine ⟨h.of_effect heff (fun q hq => update_of_ne hq _ _)
    (fun q hq => update_of_ne hq _ _) ?_ ?_, heff.others h.sound⟩
  · exact fun halive => absurd halive hdead
  · exact fun _ halive => absurd halive hdead

theorem Inv.step (h : w.Inv) {c : FdCall δ} (hcare : w.Careful c) (hstep : w.Step c w') :
    w'.Inv ∧ w.CallOk c w' := by
  cases c with
  | getnewfd pid info m r => exact h.getnewfd hcare hstep
  | getfd pid fd =>
    obtain ⟨-, hstep⟩ := Option.ite_none_right_eq_some.mp hstep
    obtain ⟨code, -, rfl⟩ := Option.map_eq_some_iff.mp hstep
    exact ⟨h, rfl⟩
  | closefd pid fd => exact h.closefd hstep
  | copyFds dst src a started => exact h.copyFds hcare hstep
  | exit pid => exact h.exit hstep

end FdRun

/-- In a run of careful calls the tables are right in every state, and so is every call. -/
theorem fd_tables_ok {w : FdRun δ} (h : Reach Init Step Careful w) :
    w.TablesOk ∧ ∀ c w', w.Step c w' → w.Careful c → w.CallOk c w' := by
  have hinv : w.Inv := by
    refine @Reach.invariant _ _ _ _ _ Inv ?_ ?_ _ h
    · exact fun _ hinit => hinit.inv
    · exact fun _ _ _ hinv hcare hstep => (hinv.step hcare hstep).1
  exact ⟨hinv.tablesOk, fun _ _ hstep hcare => (hinv.step hcare hstep).2⟩

/-! ## One process -/

def someFd (inuse : Int) : FdInfo Unit := ⟨0, inuse, 1, ()⟩

-- standard input, output and error, and the frame buffer
def fourFds : List (FdInfo Unit) := [⟨0, 1, 6, ()⟩, ⟨1, 1, 6, ()⟩, ⟨2, 1, 6, ()⟩, ⟨3, 1, 4, ()⟩]

def oneProcess (p : FdProc) : FdRun Unit where
  k := ⟨fun pid => if pid = 0 then p else ⟨none, 0⟩,
    fun ptr => if ptr = 0 then some fourFds else none⟩
  alive := fun pid => pid == 0
  handed := fun pid fd => decide (fd < (if pid = 0 then p else ⟨none, 0⟩).nfds)

theorem oneProcess_init {p : FdProc} (hp : p = ⟨none, 0⟩ ∨ p = ⟨some 0, 4⟩) :
    (oneProcess p).Init where
  table := by
    intro pid
    show (if pid = 0 then p else ⟨none, 0⟩) = _ ∨ ∃ ptr slots, (if pid = 0 then p else _) = _ ∧ _
    by_cases hpid : pid = 0
    · rw [if_pos hpid]
      rcases hp with rfl | rfl
      · exact Or.inl rfl
      · exact Or.inr ⟨0, fourFds, rfl, rfl, rfl, by simp [fourFds]⟩
    · rw [if_neg hpid]
      exact Or.inl rfl
  apart := by
    intro pid q ptr hpid hq
    -- only process 0 has a table
    have hzero : ∀ x, ((oneProcess p).k.proctbl x).fds = some ptr → x = 0 := by
      intro x hx
      by_contra hne
      have hnone : (oneProcess p).k.proctbl x = ⟨none, 0⟩ := if_neg hne
      rw [hnone] at hx
      cases hx
    rw [hzero pid hpid, hzero q hq]
  handed := fun _ _ => rfl

def firstRun : FdRun Unit := oneProcess ⟨some 0, 4⟩

theorem firstRun_full_careful :
    firstRun.Careful (.getnewfd 0 (someFd 0) none (some (1, List.replicate 14 (someFd 0)))) := by
  refine ⟨fun _ => rfl, fun _ _ => ⟨by decide, 1, List.replicate 14 (someFd 0), rfl, ?_⟩⟩
  intro f hf
  rw [eq_of_mem_replicate (mem_of_mem_drop hf)]
  rfl

-- a fifth descriptor in zeroed memory
theorem fd_tables_ok_fifth : ∃ w : FdRun Unit,
    Reach Init Step Careful w ∧ (w.k.proctbl 0).nfds = 14 ∧ w.TablesOk := by
  obtain ⟨w, hstep, hn⟩ : ∃ w, firstRun.Step (.getnewfd 0 (someFd 0) none
      (some (1, List.replicate 14 (someFd 0)))) w ∧ (w.k.proctbl 0).nfds = 14 := ⟨_, rfl, rfl⟩
  have hreach : Reach Init Step Careful w :=
    .next (.start (oneProcess_init (Or.inr rfl))) hstep firstRun_full_careful
  exact ⟨w, hreach, hn, (fd_tables_ok hreach).1⟩

/-- The first descriptor of a process without a table leaves ten slots counted as twenty.  A table
that grows into memory that is not zero has descriptors nobody opened. -/
theorem fd_tables_not_ok :
    (∃ w : FdRun Unit, Reach Init Step (fun _ _ => True) w ∧ w.alive 0 = true ∧
      (w.k.slots 0).length = 10 ∧ (w.k.proctbl 0).nfds = 20 ∧ ¬ w.TablesOk) ∧
    ∃ w : FdRun Unit, Reach Init Step (fun _ _ => True) w ∧
      Vfs.getfd w.k 0 5 = some 0 ∧ w.handed 0 5 = false ∧ ¬ w.TablesOk := by
  constructor
  · obtain ⟨w, hstep, halive, hlen, hn⟩ : ∃ w, (oneProcess ⟨none, 0⟩).Step (.getnewfd 0 (someFd 0)
        (some (1, List.replicate 10 (someFd 0))) (some (2, List.replicate 10 (someFd 0)))) w ∧
        w.alive 0 = true ∧ (w.k.slots 0).length = 10 ∧ (w.k.proctbl 0).nfds = 20 :=
      ⟨_, rfl, rfl, rfl, rfl⟩
    refine ⟨w, .next (.start (oneProcess_init (Or.inl rfl))) hstep trivial, halive, hlen, hn, ?_⟩
    intro h
    have heq := h.nfds 0 halive
    omega
  · obtain ⟨w, hstep, halive, hget, hno⟩ : ∃ w, firstRun.Step (.getnewfd 0 (someFd 0) none
        (some (1, List.replicate 14 (someFd 1)))) w ∧ w.alive 0 = true ∧
        Vfs.getfd w.k 0 5 = some 0 ∧ w.handed 0 5 = false := ⟨_, rfl, rfl, rfl, rfl⟩
    refine ⟨w, .next (.start (oneProcess_init (Or.inr rfl))) hstep trivial, hget, hno, ?_⟩
    intro h
    obtain ⟨code, hcode, hiff⟩ := h.getfd 0 5 halive
    cases hget.symm.trans hcode
    have hhanded : w.handed 0 5 = true := (hiff.mp rfl).2
    rw [hno] at hhanded
    cases hhanded

end Vfs
