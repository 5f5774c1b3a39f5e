import RandomOs.Usr.Ensurance
import RandomOs.Usr.Ids
import RandomOs.Vfs.Creat
import RandomOs.Vfs.Unlink

/-!
# What system calls touch through the pointers of a user (`syscalls/fs.c`, `ssc_proc/wait.c`)

Every call is given as the list of the addresses that it reads or writes through its pointers, those
that `ensure_string` reads included.  The checks never look at `PAGE_USER`.
-/

namespace Usr

open Mem Sched Vfs List

/-! ## Address spaces -/

/-- The last entry of the walk, which has the flags of the page. -/
def leafEntry (mem : TableMem) (cr3 a : Nat) : Nat := (walk mem cr3 a).getLastD 0

def Mapped (mem : TableMem) (cr3 a : Nat) : Prop := ∀ e ∈ walk mem cr3 a, present e = true

/-- The byte is the user's: below `USER_END`, on a page with `PAGE_USER`. -/
def UserByte (mem : TableMem) (cr3 a : Nat) : Prop :=
  a < userEnd ∧ Mapped mem cr3 a ∧ user (leafEntry mem cr3 a) = true

/-- The tables of a process: the user's pages below, the kernel's above. -/
structure UserSpace (mem : TableMem) (cr3 : Nat) : Prop where
  lower : ∀ a < 2 ^ 47, Mapped mem cr3 a → user (leafEntry mem cr3 a) = true
  upper : ∀ a, 2 ^ 64 - 2 ^ 47 ≤ a → a < 2 ^ 64 → Mapped mem cr3 a →
    user (leafEntry mem cr3 a) = false

/-! ## The calls -/

inductive Descriptor
  | file
  | dir
  | sock
  | fb
  | io (input output : Bool)
  | dev

open Descriptor

/-- The switch of `read`. -/
def Descriptor.reads : Descriptor → Bool
  | .file | .dev => true
  | .io input _ => input
  | .dir | .sock | .fb => false

/-- The switch of `write`. -/
def Descriptor.writes : Descriptor → Bool
  | .file | .dev => true
  | .io _ output => output
  | .dir | .sock | .fb => false

/-- What a call depends on besides its arguments. -/
structure CallState where
  mem : TableMem
  cr3 : Nat
  /-- what an address reads -/
  byte : Nat → UInt8
  nfds : Nat
  fds : Nat → Option Descriptor
  /-- how many bytes the driver behind a descriptor moves -/
  moves : Nat → Nat → Nat
  moves_le : ∀ fd size, moves fd size ≤ size
  /-- the next name of a directory -/
  entry : Nat → Option Str
  entry_short : ∀ fd name, entry fd = some name → name.length < 1024
  fs : Sys
  pwd : Option Str
  pwd_short : ∀ p, pwd = some p → p.length < 1024
  procs : ProcState
  current : Nat

open CallState

/-- `n` bytes from `addr` on. -/
def bytes (addr n : Nat) : List Nat := (List.range n).map fun i => (addr + i) % 2 ^ 64

/-- The `int` that a call takes an argument for. -/
def toInt (a : Nat) : Int := (a : Int).bmod (2 ^ 32)

namespace CallState

variable (st : CallState)

def getfd (a0 : Nat) : Option (Nat × Descriptor) :=
  let fd := toInt a0
  if toInt st.nfds ≤ fd then none
  else if fd < 0 then none
  else (st.fds fd.toNat).map fun d => (fd.toNat, d)

/-- The bytes that the driver of a descriptor moves, if the switch on its type goes there. -/
def transfer (goes : Descriptor → Bool) (fd : Option (Nat × Descriptor)) (buf size : Nat) :
    List Nat :=
  match fd with
  | some (n, d) => if goes d then bytes buf (st.moves n size) else []
  | none => []

def read (a0 buf size : Nat) : List Nat := st.transfer reads (st.getfd a0) buf size

def write (a0 buf size : Nat) : List Nat := st.transfer writes (st.getfd a0) buf size

/-- `ensure_string` from index `i` on: what it reads, and where the string ends. -/
def ensureString (fuel str : Nat) (write : Bool) : Nat → Nat → List Nat × Option Nat
  | 0, _ => ([], none)
  | k + 1, i =>
    let a := (str + i) % 2 ^ 64
    if ensurePointer fuel st.mem st.cr3 a (i + 1) write = some true then
      if st.byte a = 0 then ([a], some i)
      else
        let r := ensureString fuel str write k (i + 1)
        (a :: r.1, r.2)
    else ([], none)

def string (str len : Nat) : Str := (List.range len).map fun i => st.byte ((str + i) % 2 ^ 64)

/-- `sizeof(struct stat)`. -/
def statSize : Nat := 1058

/-- The name and the other fields of a `struct stat`. -/
def statBytes (addr : Nat) (name : Str) : List Nat :=
  bytes addr (name.length + 1) ++ bytes (addr + 1024) 34

def sysRead (fuel a0 a1 a2 : Nat) : List Nat :=
  if ensurePointer fuel st.mem st.cr3 a1 a2 true = some true then st.read a0 a1 a2 else []

def sysWrite (fuel a0 a1 a2 : Nat) : List Nat :=
  if ensurePointer fuel st.mem st.cr3 a1 a2 false = some true then st.write a0 a1 a2 else []

def sysOpen (fuel a0 : Nat) : List Nat :=
  let r := st.ensureString fuel a0 false 256 0
  match r.2 with
  | none => r.1
  | some len => r.1 ++ bytes a0 (len + 1)

def sysStat (fuel a0 a1 : Nat) : List Nat :=
  let r := st.ensureString fuel a0 false 256 0
  match r.2 with
  | none => r.1
  | some len =>
    if ensurePointer fuel st.mem st.cr3 a1 statSize true = some true then
      r.1 ++ bytes a0 (len + 1) ++
        match stat st.fs (st.string a0 len) with
        | .ok found => statBytes a1 found.name
        | .error _ => []
    else r.1

/-- `readdir`. -/
def nextEntry (fd : Option (Nat × Descriptor)) (buf : Nat) : List Nat :=
  match fd with
  | some (n, .dir) =>
    match st.entry n with
    | some name => statBytes buf name
    | none => []
  | _ => []

def sysReaddir (fuel a0 a1 : Nat) : List Nat :=
  if ensurePointer fuel st.mem st.cr3 a1 statSize true = some true then
    st.nextEntry (st.getfd a0) a1
  else []

def sysGetpwd (fuel a0 a1 : Nat) : List Nat :=
  let r := st.ensureString fuel a0 true 256 0
  match r.2, st.pwd with
  | some _, some pwd =>
    if a1 = 0 then r.1
    else
      let len := pwd.length + 1
      if a1 < len then r.1 ++ (bytes a0 (a1 - 1) ++ bytes (a0 + a1) 1) else r.1 ++ bytes a0 len
  | _, _ => r.1

/-- `sys_wait` stores through `code`, with no check. -/
def waitBytes (pid : Int) (code : Nat) : List Nat :=
  let stored := if code = 0 then [] else bytes code 4
  if 0 ≤ pid then
    if st.procs.waitable st.current pid.toNat then stored else []
  else
    match st.procs.firstDead st.current with
    | some _ => stored
    | none => []

def sysWait (a0 a1 : Nat) : List Nat := st.waitBytes ((a0 : Int).bmod (2 ^ 64)) a1

end CallState

inductive UserCall
  | read (fd buf size : UInt64)
  | write (fd buf size : UInt64)
  | stat (path st : UInt64)
  | readdir (fd st : UInt64)
  | open (path flags mode : UInt64)
  | getpwd (buf size : UInt64)
  | wait (pid code : UInt64)

def CallState.trace (st : CallState) (fuel : Nat) : UserCall → List Nat
  | .read fd buf size => st.sysRead fuel fd.toNat buf.toNat size.toNat
  | .write fd buf size => st.sysWrite fuel fd.toNat buf.toNat size.toNat
  | .stat path buf => st.sysStat fuel path.toNat buf.toNat
  | .readdir fd buf => st.sysReaddir fuel fd.toNat buf.toNat
  | .open path _ _ => st.sysOpen fuel path.toNat
  | .getpwd buf size => st.sysGetpwd fuel buf.toNat size.toNat
  | .wait pid code => st.sysWait pid.toNat code.toNat

/-- In every process, whatever the files and the other processes are, the call touches only bytes of
the user. -/
def UserOnly (c : UserCall) : Prop :=
  ∀ st : CallState, UserSpace st.mem st.cr3 → ∀ fuel, ∀ a ∈ st.trace fuel c,
    UserByte st.mem st.cr3 a

/-! ## The arguments that are safe -/

/-- `ensure_pointer` refuses the buffer or does not come back, or the buffer is the user's and ends
on a page that is looked at. -/
def RangeCovered (buf size : Nat) : Prop :=
  buf = 0 ∨ ¬ Canonical buf ∨ 2 ^ 64 - 0x1000 < size ∨ size = 0 ∨
    (buf + size ≤ userEnd ∧ EndsOnVisitedPage buf size)

/-- No table has a descriptor of this number. -/
def BadFd (fd : Nat) : Prop := 2 ^ 31 - 1 ≤ fd % 2 ^ 32

def Refused (str : Nat) : Prop := str = 0 ∨ ¬ Canonical str

def StringCovered (str : Nat) : Prop := str + 256 ≤ userEnd

def Covered : UserCall → Prop
  | .read fd buf size => BadFd fd.toNat ∨ RangeCovered buf.toNat size.toNat
  | .write fd buf size => BadFd fd.toNat ∨ RangeCovered buf.toNat size.toNat
  | .readdir fd buf => BadFd fd.toNat ∨ RangeCovered buf.toNat statSize
  | .open path _ _ => Refused path.toNat ∨ StringCovered path.toNat
  | .stat path buf => Refused path.toNat ∨ StringCovered path.toNat ∧
      (RangeCovered buf.toNat statSize ∨
        -- the page that is not looked at has the path on it
        buf.toNat + statSize ≤ userEnd ∧
          ((buf.toNat + 1057) / 4096 = path.toNat / 4096 ∨
            (buf.toNat + 1057) / 4096 = (path.toNat + 1) / 4096))
  | .getpwd buf size => Refused buf.toNat ∨ StringCovered buf.toNat ∧
      (size.toNat = 0 ∨ buf.toNat % 4096 + min size.toNat 1023 < 4096)
  | .wait pid code => code.toNat = 0 ∨ (255 ≤ pid.toNat ∧ pid.toNat < 2 ^ 63)

/-! ## Sufficiency -/

section Safe

variable {mem : TableMem} {cr3 a b buf size str fuel k i : Nat} {w : Bool}

theorem leafEntry_congr (h : a / 4096 = b / 4096) : leafEntry mem cr3 a = leafEntry mem cr3 b := by
  unfold leafEntry
  rw [walk_congr h]

theorem UserByte.congr (h : UserByte mem cr3 b) (hab : a / 4096 = b / 4096) :
    UserByte mem cr3 a := by
  obtain ⟨hlt, hmap, huser⟩ := h
  refine ⟨?_, ?_, ?_⟩
  · unfold userEnd at hlt ⊢
    omega
  · unfold Mapped
    rw [walk_congr hab]
    exact hmap
  · rw [leafEntry_congr hab]
    exact huser

theorem UserSpace.userByte (h : UserSpace mem cr3) (ha : a < userEnd) (hmap : Mapped mem cr3 a) :
    UserByte mem cr3 a := by
  refine ⟨ha, hmap, h.lower a ?_ hmap⟩
  unfold userEnd at ha
  omega

theorem mapped_of_okaddr (h : okaddr mem (some cr3) a w = true) : Mapped mem cr3 a :=
  fun e he => ((okaddr_iff mem cr3 a w).mp h e he).1

-- what an accepted buffer has been tested for
theorem accepted_spec (h : ensurePointer fuel mem cr3 buf size w = some true)
    (hbuf : buf < 2 ^ 64) :
    buf ≠ 0 ∧ Canonical buf ∧ size ≤ 2 ^ 64 - 0x1000 ∧
      ∀ j, j < pagesVisited size → VisitOk mem cr3 buf w j := by
  have hnull : buf ≠ 0 := by
    intro hnull
    unfold ensurePointer at h
    rw [if_pos hnull] at h
    cases h
  exact ⟨hnull, (ensurePointerReturns_true_iff hnull hbuf).mp ⟨fuel, h⟩⟩

theorem userByte_of_range (hs : UserSpace mem cr3)
    (h : ensurePointer fuel mem cr3 buf size w = some true) (hbuf : buf < 2 ^ 64)
    (hcov : RangeCovered buf size) (hk : k < size) : UserByte mem cr3 ((buf + k) % 2 ^ 64) := by
  obtain ⟨hnull, hcan, hsize, hvisits⟩ := accepted_spec h hbuf
  rcases hcov with h0 | hnc | hbig | hzero | ⟨hend, hlast⟩
  · exact absurd h0 hnull
  · exact absurd hcan hnc
  · omega
  · omega
  have hlt : buf + k < userEnd := by omega
  have hhalf : StaysInHalf buf size := by
    unfold StaysInHalf
    unfold userEnd at hend
    rw [if_pos (by omega)]
    omega
  have hpage := rangeOnPages_of_visits hcan hhalf hlast hvisits k hk
  rw [Nat.mod_eq_of_lt (by unfold userEnd at hlt; omega)]
  exact hs.userByte hlt fun e he => (hpage.2 e he).1

-- the first page of an accepted buffer
theorem userByte_of_accepted (hs : UserSpace mem cr3)
    (h : ensurePointer fuel mem cr3 buf size w = some true) (hbuf : buf < userEnd)
    (hsize : 0 < size) : UserByte mem cr3 buf := by
  obtain ⟨_, _, _, hvisits⟩ := accepted_spec h (by unfold userEnd at hbuf; omega)
  have hvisit := hvisits 0 (by unfold pagesVisited; omega)
  unfold VisitOk at hvisit
  rw [Nat.add_zero, Nat.mod_eq_of_lt (by unfold userEnd at hbuf; omega),
    okaddr_congr (pageBase_div buf)] at hvisit
  exact hs.userByte hbuf (mapped_of_okaddr hvisit)

variable {st : CallState}

variable {n code : Nat} {fd : Option (Nat × Descriptor)}

theorem mem_bytes {addr : Nat} : a ∈ bytes addr n ↔ ∃ k < n, (addr + k) % 2 ^ 64 = a := by
  unfold bytes
  simp only [mem_map, mem_range]

/-- `ensure_string` reads bytes of the user up to the end of the string. -/
theorem ensureString_user (hs : UserSpace st.mem st.cr3) : ∀ k i, str + i + k ≤ userEnd →
      (∀ a ∈ (st.ensureString fuel str w k i).1, UserByte st.mem st.cr3 a) ∧
      ∀ len, (st.ensureString fuel str w k i).2 = some len →
        ∀ j, i ≤ j → j ≤ len → UserByte st.mem st.cr3 (str + j) := by
  intro k
  induction k with
  | zero =>
    intro i _
    refine ⟨fun a ha => absurd ha not_mem_nil, fun len hlen => ?_⟩
    cases hlen
  | succ k ih =>
    intro i hend
    obtain ⟨ihread, ihlen⟩ := ih (i + 1) (by omega)
    have haddr : (str + i) % 2 ^ 64 = str + i := Nat.mod_eq_of_lt (by unfold userEnd at hend; omega)
    unfold ensureString
    dsimp only
    rw [haddr]
    split
    swap
    · refine ⟨fun a ha => absurd ha not_mem_nil, fun len hlen => ?_⟩
      cases hlen
    rename_i hok
    have hbyte := userByte_of_accepted hs hok (by omega) (Nat.succ_pos i)
    split
    · refine ⟨fun a ha => ?_, fun len hlen j hij hj => ?_⟩
      · rwa [mem_singleton.mp ha]
      · obtain rfl : j = i := by
          have := Option.some_inj.mp hlen
          omega
        exact hbyte
    · refine ⟨fun a ha => ?_, fun len hlen j hij hj => ?_⟩
      · rcases mem_cons.mp ha with rfl | ha
        · exact hbyte
        · exact ihread a ha
      · by_cases hji : j = i
        · rwa [hji]
        · exact ihlen len hlen j (by omega) hj

theorem ensureString_of_refused (hstr : str < 2 ^ 64) (h : Refused str) :
    st.ensureString fuel str w 256 0 = ([], none) := by
  unfold ensureString
  rw [Nat.add_zero, Nat.mod_eq_of_lt hstr, if_neg]
  intro hok
  obtain ⟨hnull, hcan, _⟩ := accepted_spec hok hstr
  exact h.elim hnull fun hnc => hnc hcan

theorem toInt_eq (n : Nat) :
    toInt n =
      if n % 2 ^ 32 < 2 ^ 31 then ((n % 2 ^ 32 : Nat) : Int) else (n % 2 ^ 32 : Nat) - 2 ^ 32 := by
  unfold toInt Int.bmod
  split
  · rw [if_pos (by omega)]
    omega
  · rw [if_neg (by omega)]
    omega

theorem getfd_of_badFd (h : BadFd a) : st.getfd a = none := by
  unfold BadFd at h
  have hnfds : toInt st.nfds ≤ 2 ^ 31 - 1 := by
    rw [toInt_eq]
    split <;> omega
  have hfd : toInt a < 0 ∨ toInt a = 2 ^ 31 - 1 := by
    rw [toInt_eq]
    split <;> omega
  unfold CallState.getfd
  dsimp only
  split
  · rfl
  · rw [if_pos (by omega)]

variable {goes : Descriptor → Bool}

theorem transfer_touches (h : a ∈ st.transfer goes fd buf size) :
    fd ≠ none ∧ ∃ k < size, (buf + k) % 2 ^ 64 = a := by
  unfold transfer at h
  split at h
  · refine ⟨Option.some_ne_none _, ?_⟩
    split at h
    · obtain ⟨k, hk, hka⟩ := mem_bytes.mp h
      exact ⟨k, hk.trans_le (st.moves_le _ _), hka⟩
    · exact absurd h not_mem_nil
  · exact absurd h not_mem_nil

theorem statBytes_touches {name : Str} (hname : name.length < 1024) (h : a ∈ statBytes buf name) :
    ∃ k < statSize, (buf + k) % 2 ^ 64 = a := by
  unfold statSize
  rcases mem_append.mp h with h | h
  · obtain ⟨k, hk, rfl⟩ := mem_bytes.mp h
    exact ⟨k, by omega, rfl⟩
  · obtain ⟨k, hk, rfl⟩ := mem_bytes.mp h
    refine ⟨1024 + k, by omega, ?_⟩
    rw [Nat.add_assoc]

theorem nextEntry_touches (h : a ∈ st.nextEntry fd buf) :
    fd ≠ none ∧ ∃ k < statSize, (buf + k) % 2 ^ 64 = a := by
  unfold nextEntry at h
  split at h
  · refine ⟨Option.some_ne_none _, ?_⟩
    split at h
    · rename_i name hname
      exact statBytes_touches (st.entry_short _ name hname) h
    · exact absurd h not_mem_nil
  · exact absurd h not_mem_nil

-- a string that is covered: what the check reads, and what is read of it again
theorem string_touches (hs : UserSpace st.mem st.cr3) (hstr : StringCovered str) :
    (∀ a ∈ (st.ensureString fuel str w 256 0).1, UserByte st.mem st.cr3 a) ∧
    ∀ len, (st.ensureString fuel str w 256 0).2 = some len →
      UserByte st.mem st.cr3 str ∧ ∀ a ∈ bytes str (len + 1), UserByte st.mem st.cr3 a := by
  unfold StringCovered at hstr
  obtain ⟨hread, hlen⟩ := ensureString_user hs 256 0 (by omega)
  refine ⟨hread, fun len hsome => ⟨hlen len hsome 0 le_rfl (Nat.zero_le _), fun a ha => ?_⟩⟩
  obtain ⟨j, hj, rfl⟩ := mem_bytes.mp ha
  have hbyte := hlen len hsome j (Nat.zero_le _) (by omega)
  have hlt := hbyte.1
  rw [Nat.mod_eq_of_lt (by unfold userEnd at hlt; omega)]
  exact hbyte

theorem userOnly_range {touched : List Nat} (hs : UserSpace st.mem st.cr3) {fd : Nat}
    (hbuf : buf < 2 ^ 64) (hcov : BadFd fd ∨ RangeCovered buf size)
    (htouch : ∀ a ∈ touched, st.getfd fd ≠ none ∧ ∃ k < size, (buf + k) % 2 ^ 64 = a) :
    ∀ a ∈ (if ensurePointer fuel st.mem st.cr3 buf size w = some true then touched else []),
      UserByte st.mem st.cr3 a := by
  intro a ha
  split at ha
  · rename_i hok
    obtain ⟨hfd, k, hk, rfl⟩ := htouch a ha
    have hrange := hcov.resolve_left fun hbad => hfd (getfd_of_badFd hbad)
    exact userByte_of_range hs hok hbuf hrange hk
  · exact absurd ha not_mem_nil

section

variable (hs : UserSpace st.mem st.cr3)

include hs

theorem userOnly_open (hpath : str < 2 ^ 64)
    (hcov : Refused str ∨ StringCovered str) :
    ∀ a ∈ st.sysOpen fuel str, UserByte st.mem st.cr3 a := by
  intro a ha
  unfold sysOpen at ha
  dsimp only at ha
  rcases hcov with href | hcov
  · rw [ensureString_of_refused hpath href] at ha
    exact absurd ha not_mem_nil
  obtain ⟨hread, hagain⟩ := string_touches hs hcov
  split at ha
  · exact hread a ha
  · rename_i len hlen
    rcases mem_append.mp ha with ha | ha
    · exact hread a ha
    · exact (hagain len hlen).2 a ha

-- the page that is not looked at is the user's if the path lies on it
theorem userByte_of_statBuf (hbuf : buf < 2 ^ 64)
    (h : ensurePointer fuel st.mem st.cr3 buf statSize w = some true)
    (hend : buf + statSize ≤ userEnd)
    (hlast : UserByte st.mem st.cr3 (buf + 1057)) (hk : k < statSize) :
    UserByte st.mem st.cr3 ((buf + k) % 2 ^ 64) := by
  unfold statSize at *
  have hfirst := userByte_of_accepted hs h (by omega) (by decide)
  have haddr : (buf + k) % 2 ^ 64 = buf + k := Nat.mod_eq_of_lt (by unfold userEnd at hend; omega)
  rw [haddr]
  by_cases hpage : (buf + k) / 4096 = buf / 4096
  · exact hfirst.congr hpage
  · apply hlast.congr
    omega

theorem userOnly_stat (hpath : str < 2 ^ 64) (hbuf : buf < 2 ^ 64)
    (hcov : Refused str ∨ StringCovered str ∧ (RangeCovered buf statSize ∨
      buf + statSize ≤ userEnd ∧
        ((buf + 1057) / 4096 = str / 4096 ∨ (buf + 1057) / 4096 = (str + 1) / 4096))) :
    ∀ a ∈ st.sysStat fuel str buf, UserByte st.mem st.cr3 a := by
  intro a ha
  unfold sysStat at ha
  dsimp only at ha
  rcases hcov with href | ⟨hcov, hbufcov⟩
  · rw [ensureString_of_refused hpath href] at ha
    exact absurd ha not_mem_nil
  obtain ⟨hread, hagain⟩ := string_touches hs hcov
  split at ha
  · exact hread a ha
  rename_i len hlen
  obtain ⟨hfirst, hagain⟩ := hagain len hlen
  split at ha
  swap
  · exact hread a ha
  rename_i hok
  rcases mem_append.mp ha with ha | ha
  · rcases mem_append.mp ha with ha | ha
    · exact hread a ha
    · exact hagain a ha
  split at ha
  swap
  · exact absurd ha not_mem_nil
  rename_i found hfound
  obtain ⟨k, hk, rfl⟩ := statBytes_touches (length_name_of_stat hfound) ha
  rcases hbufcov with hrange | ⟨hend, hpage⟩
  · exact userByte_of_range hs hok hbuf hrange hk
  apply userByte_of_statBuf hs hbuf hok hend _ hk
  rcases hpage with hpage | hpage
  · exact hfirst.congr hpage
  -- a path that is found has a byte before its end
  have hpos : len ≠ 0 := by
    rintro rfl
    have hempty : stat st.fs [] = .ok found := hfound
    cases hempty
  have hsecond : (str + 1) % 2 ^ 64 ∈ bytes str (len + 1) := mem_bytes.mpr ⟨1, by omega, rfl⟩
  have hbyte := hagain _ hsecond
  unfold StringCovered userEnd at hcov
  rw [Nat.mod_eq_of_lt (by omega)] at hbyte
  exact hbyte.congr hpage

theorem userOnly_getpwd (hbuf : buf < 2 ^ 64)
    (hcov : Refused buf ∨ StringCovered buf ∧ (size = 0 ∨ buf % 4096 + min size 1023 < 4096)) :
    ∀ a ∈ st.sysGetpwd fuel buf size, UserByte st.mem st.cr3 a := by
  intro a ha
  unfold sysGetpwd at ha
  dsimp only at ha
  rcases hcov with href | ⟨hcov, hsize⟩
  · rw [ensureString_of_refused hbuf href] at ha
    exact absurd ha not_mem_nil
  obtain ⟨hread, hagain⟩ := string_touches hs hcov
  split at ha
  swap
  · exact hread a ha
  rename_i len pwd hlen hpwd
  have hfirst := (hagain len hlen).1
  have hshort := st.pwd_short pwd hpwd
  -- all that is written is on the page of the first byte
  have hpage : ∀ k, buf % 4096 + k < 4096 → UserByte st.mem st.cr3 ((buf + k) % 2 ^ 64) := by
    intro k hk
    apply hfirst.congr
    omega
  split at ha
  · exact hread a ha
  split at ha
  · rcases mem_append.mp ha with ha | ha
    · exact hread a ha
    rcases mem_append.mp ha with ha | ha
    · obtain ⟨k, hk, rfl⟩ := mem_bytes.mp ha
      exact hpage k (by omega)
    · obtain ⟨k, hk, rfl⟩ := mem_bytes.mp ha
      rw [Nat.add_assoc]
      exact hpage (size + k) (by omega)
  · rcases mem_append.mp ha with ha | ha
    · exact hread a ha
    · obtain ⟨k, hk, rfl⟩ := mem_bytes.mp ha
      exact hpage k (by omega)

end

theorem waitBytes_eq_nil {pid : Int} (h : code = 0 ∨ 255 ≤ pid) : st.waitBytes pid code = [] := by
  unfold waitBytes
  rcases h with hcode | hpid
  · rw [if_pos hcode]
    split
    · split <;> rfl
    · split <;> rfl
  · have hbad : st.procs.waitable st.current pid.toNat = false := by
      unfold ProcState.waitable maxProcesses
      rw [decide_eq_false (by omega), Bool.false_and, Bool.false_and]
    rw [if_pos (by omega), hbad, if_neg Bool.false_ne_true]

theorem bmod_of_lt (h : n < 2 ^ 63) : (n : Int).bmod (2 ^ 64) = n := by
  rw [Int.bmod_eq_of_le] <;> omega

theorem sysWait_eq_nil {pid : Nat} (h : code = 0 ∨ (255 ≤ pid ∧ pid < 2 ^ 63)) :
    st.sysWait pid code = [] := by
  apply waitBytes_eq_nil
  rcases h with hcode | ⟨hlow, hhigh⟩
  · exact .inl hcode
  · right
    rw [bmod_of_lt hhigh]
    omega

theorem userOnly_of_covered {c : UserCall} (hcov : Covered c) : UserOnly c := by
  intro st hs fuel
  cases c with
  | read fd buf size =>
    exact userOnly_range hs buf.toNat_lt hcov fun a ha => transfer_touches ha
  | write fd buf size =>
    exact userOnly_range hs buf.toNat_lt hcov fun a ha => transfer_touches ha
  | stat path buf => exact userOnly_stat hs path.toNat_lt buf.toNat_lt hcov
  | readdir fd buf =>
    exact userOnly_range hs buf.toNat_lt hcov fun a ha => nextEntry_touches ha
  | «open» path flags mode => exact userOnly_open hs path.toNat_lt hcov
  | getpwd buf size => exact userOnly_getpwd hs buf.toNat_lt hcov
  | wait pid code =>
    have hnil : st.sysWait pid.toNat code.toNat = [] := sysWait_eq_nil hcov
    intro a ha
    unfold trace at ha
    dsimp only at ha
    rw [hnil] at ha
    exact absurd ha not_mem_nil

end Safe

/-! ## Necessity -/

section Unsafe

variable {mapped : Nat → Bool} {a buf size str k i j : Nat} {w : Bool}

/-- The user's pages below `2 ^ 47` that are `mapped`, and all pages above for the kernel. -/
def spaceOf (mapped : Nat → Bool) : TableMem :=
  treeOf fun p => if p < 2 ^ 35 then if mapped p then 7 else 0 else 3

def pageOf (a : Nat) : Nat := a / 4096 % 2 ^ 36

theorem walk_spaceOf (mapped : Nat → Bool) (a : Nat) : ∃ n m k, walk (spaceOf mapped) 0 a =
    [2 ^ 12 * n + 7, 2 ^ 12 * m + 7, 2 ^ 12 * k + 7,
      if pageOf a < 2 ^ 35 then if mapped (pageOf a) then 7 else 0 else 3] :=
  walk_treeOf _ a

theorem leafEntry_spaceOf : leafEntry (spaceOf mapped) 0 a =
    if pageOf a < 2 ^ 35 then if mapped (pageOf a) then 7 else 0 else 3 := by
  obtain ⟨n, m, k, hwalk⟩ := walk_spaceOf mapped a
  unfold leafEntry
  rw [hwalk]
  rfl

theorem okaddr_spaceOf : okaddr (spaceOf mapped) (some 0) a w = true ↔
    (pageOf a < 2 ^ 35 → mapped (pageOf a) = true) := by
  obtain ⟨n, m, k, hwalk⟩ := walk_spaceOf mapped a
  rw [okaddr_iff, hwalk]
  simp only [forall_mem_cons, not_mem_nil, IsEmpty.forall_iff, implies_true, and_true,
    inner_bits, true_and]
  split
  · rename_i hlow
    rw [imp_iff_right hlow]
    cases mapped (pageOf a) <;> simp [present, writable, Nat.testBit]
  · rename_i hhigh
    exact iff_of_true ⟨by decide, fun _ => by decide⟩ fun hlow => absurd hlow hhigh

theorem mapped_spaceOf : Mapped (spaceOf mapped) 0 a ↔
    (pageOf a < 2 ^ 35 → mapped (pageOf a) = true) := by
  rw [← @okaddr_spaceOf mapped a false, okaddr_iff]
  simp [Mapped]

theorem userSpace_spaceOf (mapped : Nat → Bool) : UserSpace (spaceOf mapped) 0 := by
  refine ⟨fun a ha hmap => ?_, fun a ha ha' _ => ?_⟩
  · have hlow : pageOf a < 2 ^ 35 := by
      unfold pageOf
      omega
    rw [leafEntry_spaceOf, if_pos hlow, mapped_spaceOf.mp hmap hlow]
    rfl
  · have hhigh : ¬ pageOf a < 2 ^ 35 := by
      unfold pageOf
      omega
    rw [leafEntry_spaceOf, if_neg hhigh]
    rfl

theorem not_userByte_of_hole (ha : a < 2 ^ 47) (h : mapped (a / 4096) = false) :
    ¬ UserByte (spaceOf mapped) 0 a := by
  intro hbyte
  have hpage : pageOf a = a / 4096 := by
    unfold pageOf
    omega
  have := mapped_spaceOf.mp hbyte.2.1 (by rw [hpage]; omega)
  rw [hpage, h] at this
  cases this

variable {cr3 fuel code : Nat} {mem : TableMem}

-- a buffer within one page's length is looked at once
theorem ensurePointer_onePage (ha : a ≠ 0) (hcan : Canonical a)
    (hsize : 0 < size) (hsize' : size ≤ 4096) :
    ensurePointer (fuel + 2) mem cr3 a size w = some (okaddr mem (some cr3) a w) := by
  have hlt : a < 2 ^ 64 := by
    unfold Canonical at hcan
    omega
  have hpage : okaddr mem (some cr3) (pageBase ((a + 0) % 2 ^ 64)) w =
      okaddr mem (some cr3) a w := by
    rw [Nat.add_zero, Nat.mod_eq_of_lt hlt]
    exact okaddr_congr (pageBase_div a) _ _ _
  unfold ensurePointer
  rw [if_neg ha]
  rw [if_neg ((canonical_iff_cnon hlt).mp hcan)]
  unfold ensureLoop
  rw [if_pos hsize]
  dsimp only
  rw [hpage]
  cases okaddr mem (some cr3) a w with
  | false => rfl
  | true =>
    rw [if_pos rfl]
    unfold ensureLoop
    rw [if_neg (by omega)]

theorem accepted_full (hnull : buf ≠ 0) (hcan : Canonical buf) (hsize : size ≤ 2 ^ 64 - 0x1000) :
    EnsurePointerReturns (spaceOf fun _ => true) 0 buf size w true := by
  have hbuf : buf < 2 ^ 64 := by
    unfold Canonical at hcan
    omega
  rw [ensurePointerReturns_true_iff hnull hbuf]
  exact ⟨hcan, hsize, fun j _ => okaddr_spaceOf.mpr fun _ => rfl⟩

/-- All pages but the one of the last byte. -/
def allBut (q : Nat) : Nat → Bool := fun p => p ≠ q

theorem accepted_hole (hnull : buf ≠ 0) (hend : buf + size ≤ userEnd)
    (hlast : ¬ EndsOnVisitedPage buf size) :
    EnsurePointerReturns (spaceOf (allBut ((buf + size - 1) / 4096))) 0 buf size w true := by
  unfold userEnd at hend
  rw [ensurePointerReturns_true_iff hnull (by omega)]
  refine ⟨.inl (by omega), by omega, fun j hj => okaddr_spaceOf.mpr fun _ => ?_⟩
  unfold allBut pageOf
  rw [pageBase_div]
  unfold EndsOnVisitedPage at hlast
  rw [decide_eq_true_eq]
  omega

theorem not_userByte_of_le (h : userEnd ≤ a) :
    ¬ UserByte mem cr3 a := fun hbyte => absurd hbyte.1 (by omega)

-- what is left of the arguments that are not covered
theorem not_rangeCovered (h : ¬ RangeCovered buf size) :
    buf ≠ 0 ∧ Canonical buf ∧ size ≤ 2 ^ 64 - 0x1000 ∧ size ≠ 0 ∧
      (buf + size ≤ userEnd → ¬ EndsOnVisitedPage buf size) := by
  unfold RangeCovered at h
  simp only [not_or, not_not, not_lt, not_and] at h
  exact h

theorem exists_space_of_not_covered (h : ¬ RangeCovered buf size) (w : Bool) :
    ∃ mapped, EnsurePointerReturns (spaceOf mapped) 0 buf size w true ∧
      ∃ k < size, ¬ UserByte (spaceOf mapped) 0 ((buf + k) % 2 ^ 64) := by
  obtain ⟨hnull, hcan, hsize, hpos, hlast⟩ := not_rangeCovered h
  by_cases hend : buf + size ≤ userEnd
  · refine ⟨_, accepted_hole hnull hend (hlast hend), size - 1, by omega, ?_⟩
    unfold userEnd at hend
    rw [Nat.mod_eq_of_lt (by omega), ← Nat.add_sub_assoc (by omega)]
    exact not_userByte_of_hole (by omega) (by simp [allBut])
  · refine ⟨_, accepted_full hnull hcan hsize, ?_⟩
    -- the first byte that is not below `USER_END`
    by_cases hlow : buf < userEnd
    · refine ⟨userEnd - buf, by omega, ?_⟩
      rw [Nat.add_sub_cancel' hlow.le]
      exact not_userByte_of_le (by decide)
    · refine ⟨0, by omega, ?_⟩
      unfold Canonical at hcan
      rw [Nat.add_zero]
      exact not_userByte_of_le (by omega)

/-- All pages but that of the last byte of the `struct stat`, unless that is not below
`USER_END`. -/
def statPages (buf p : Nat) : Bool :=
  decide (buf + statSize ≤ userEnd → p ≠ (buf + 1057) / 4096)

theorem accepted_statPages (h : ¬ RangeCovered buf statSize) :
    ensurePointer 2 (spaceOf (statPages buf)) 0 buf statSize w = some true := by
  obtain ⟨hnull, hcan, _, _, hlast⟩ := not_rangeCovered h
  rw [ensurePointer_onePage hnull hcan (by decide) (by decide), Option.some_inj, okaddr_spaceOf]
  intro _
  unfold statPages
  rw [decide_eq_true_eq]
  intro hend
  have hcross := hlast hend
  unfold EndsOnVisitedPage pagesVisited statSize at hcross
  unfold pageOf
  omega

theorem not_user_statPages (h : ¬ RangeCovered buf statSize) :
    ¬ UserByte (spaceOf (statPages buf)) 0 (buf % 2 ^ 64) ∨
      ¬ UserByte (spaceOf (statPages buf)) 0 ((buf + 1057) % 2 ^ 64) := by
  obtain ⟨_, hcan, _, _, _⟩ := not_rangeCovered h
  unfold Canonical at hcan
  by_cases hend : buf + statSize ≤ userEnd
  · right
    have hlt : buf + 1057 < 2 ^ 47 := by
      unfold statSize userEnd at hend
      omega
    rw [Nat.mod_eq_of_lt (by omega)]
    apply not_userByte_of_hole hlt
    unfold statPages
    rw [decide_eq_false_iff_not]
    intro hne
    exact hne hend rfl
  · unfold statSize userEnd at hend
    by_cases hlow : buf < userEnd
    · right
      unfold userEnd at hlow
      rw [Nat.mod_eq_of_lt (by omega)]
      exact not_userByte_of_le (by unfold userEnd; omega)
    · left
      rw [Nat.mod_eq_of_lt (by omega)]
      exact not_userByte_of_le (by omega)

/-! ### Strings -/

variable {st : CallState}

-- the one test of each turn
theorem ensureString_test (hmem : st.mem = spaceOf mapped) (hcr3 : st.cr3 = 0) (hnull : str + i ≠ 0)
    (hcan : Canonical (str + i)) (hi : i < 256) :
    ensurePointer 2 st.mem st.cr3 ((str + i) % 2 ^ 64) (i + 1) w = some true ↔
      (pageOf (str + i) < 2 ^ 35 → mapped (pageOf (str + i)) = true) := by
  have hlt : str + i < 2 ^ 64 := by
    unfold Canonical at hcan
    omega
  rw [Nat.mod_eq_of_lt hlt, hmem, hcr3, ensurePointer_onePage hnull hcan (by omega) (by omega),
    Option.some_inj, okaddr_spaceOf]

theorem ensureString_reads (hmem : st.mem = spaceOf fun _ => true) (hcr3 : st.cr3 = 0)
    (hbyte : ∀ a, st.byte a ≠ 0) (hnull : str ≠ 0) :
    ∀ k i, i ≤ j → j < i + k → i + k ≤ 256 → (∀ m, m ≤ j → Canonical (str + m)) →
      str + j ∈ (st.ensureString 2 str w k i).1 := by
  intro k
  induction k with
  | zero =>
    intro i hij hj
    omega
  | succ k ih =>
    intro i hij hj hk hcan
    have hlt : str + i < 2 ^ 64 := by
      have := hcan i hij
      unfold Canonical at this
      omega
    unfold ensureString
    rw [if_pos ((ensureString_test hmem hcr3 (by omega) (hcan i hij) (by omega)).mpr fun _ => rfl),
      if_neg (hbyte _), Nat.mod_eq_of_lt hlt]
    by_cases heq : j = i
    · rw [heq]
      exact mem_cons_self
    · apply mem_cons_of_mem
      exact ih (i + 1) (by omega) (by omega) (by omega) hcan

theorem exists_read_of_not_covered (hmem : st.mem = spaceOf fun _ => true) (hcr3 : st.cr3 = 0)
    (hbyte : ∀ a, st.byte a ≠ 0) (href : ¬ Refused str) (hcov : ¬ StringCovered str) :
    ∃ a ∈ (st.ensureString 2 str w 256 0).1, ¬ UserByte st.mem st.cr3 a := by
  unfold Refused at href
  rw [not_or, not_not] at href
  unfold StringCovered at hcov
  by_cases hlow : str < userEnd
  · refine ⟨str + (userEnd - str), ?_, not_userByte_of_le (by omega)⟩
    apply ensureString_reads hmem hcr3 hbyte href.1 256 0 (Nat.zero_le _) (by omega) (by omega)
    intro m hm
    unfold userEnd at hm hlow
    exact .inl (by omega)
  · refine ⟨str + 0, ?_, not_userByte_of_le (by omega)⟩
    apply ensureString_reads hmem hcr3 hbyte href.1 256 0 (Nat.zero_le _) (by omega) (by omega)
    intro m hm
    rw [Nat.le_zero.mp hm]
    exact href.2

/-- The string `/` at `str`. -/
def slashAt (str a : Nat) : UInt8 := if a = str then 47 else 0

theorem ensureString_slash (hmem : st.mem = spaceOf mapped) (hcr3 : st.cr3 = 0)
    (hbyte : st.byte = slashAt str) (hnull : str ≠ 0) (hcov : StringCovered str)
    (hmap : ∀ m < 2, mapped ((str + m) / 4096) = true) :
    st.ensureString 2 str w 256 0 = ([str, str + 1], some 1) := by
  unfold StringCovered userEnd at hcov
  have hpage : ∀ m < 2, pageOf (str + m) = (str + m) / 4096 := by
    intro m hm
    unfold pageOf
    omega
  have htest : ∀ m < 2,
      ensurePointer 2 st.mem st.cr3 ((str + m) % 2 ^ 64) (m + 1) w = some true := by
    intro m hm
    rw [ensureString_test hmem hcr3 (by omega) (.inl (by omega)) (by omega), hpage m hm]
    exact fun _ => hmap m hm
  have hfirst : st.byte ((str + 0) % 2 ^ 64) ≠ 0 := by
    rw [hbyte, Nat.add_zero, Nat.mod_eq_of_lt (by omega)]
    unfold slashAt
    rw [if_pos rfl]
    decide
  have hsecond : st.byte ((str + 1) % 2 ^ 64) = 0 := by
    rw [hbyte]
    unfold slashAt
    rw [if_neg (by omega)]
  unfold ensureString
  rw [if_pos (htest 0 (by decide)), if_neg hfirst]
  unfold ensureString
  dsimp only
  rw [if_pos (htest 1 (by decide)), if_pos hsecond, Nat.mod_eq_of_lt (by omega),
    Nat.mod_eq_of_lt (by omega), Nat.add_zero]

/-! ### The calls -/

/-- Every descriptor is `d` and moves all that is asked for; a directory has one more entry. -/
def stateOf (mem : TableMem) (byte : Nat → UInt8) (d : Descriptor) : CallState where
  mem := mem
  cr3 := 0
  byte := byte
  nfds := 2 ^ 31 - 1
  fds := fun _ => some d
  moves := fun _ n => n
  moves_le := fun _ _ => le_rfl
  entry := fun _ => some []
  entry_short := fun _ name h => by
    rw [← Option.some_inj.mp h]
    decide
  fs := smallSys
  pwd := none
  pwd_short := fun _ h => nomatch h
  procs := zeroState
  current := 0

theorem getfd_stateOf {byte : Nat → UInt8} {d : Descriptor} (h : ¬ BadFd a) :
    ∃ n, (stateOf mem byte d).getfd a = some (n, d) := by
  unfold BadFd at h
  have hfd : toInt a = ((a % 2 ^ 32 : Nat) : Int) := by
    rw [toInt_eq, if_pos (by omega)]
  have hnfds : toInt (stateOf mem byte d).nfds = 2 ^ 31 - 1 := by
    rw [toInt_eq]
    rfl
  refine ⟨(toInt a).toNat, ?_⟩
  unfold CallState.getfd
  rw [if_neg (by omega), if_neg (by omega)]
  rfl

/-- In some process a byte that is not the user's is touched. -/
def Leaks (touched : CallState → Nat → List Nat) : Prop :=
  ∃ st : CallState, UserSpace st.mem st.cr3 ∧ ∃ fuel, ∃ a ∈ touched st fuel,
    ¬ UserByte st.mem st.cr3 a

theorem Leaks.not_userOnly {c : UserCall} (h : Leaks (·.trace · c)) : ¬ UserOnly c := by
  obtain ⟨st, hs, fuel, a, ha, hbad⟩ := h
  exact fun hsafe => hbad (hsafe st hs fuel a ha)

theorem not_userOnly_transfer (hgoes : goes .file = true) {fd : Nat} (hfd : ¬ BadFd fd)
    (hrange : ¬ RangeCovered buf size) :
    Leaks fun st fuel => if ensurePointer fuel st.mem st.cr3 buf size w = some true then
      st.transfer goes (st.getfd fd) buf size else [] := by
  obtain ⟨mapped, ⟨fuel, hok⟩, k, hk, hbad⟩ := exists_space_of_not_covered hrange w
  refine ⟨stateOf (spaceOf mapped) (fun _ => 0) .file, userSpace_spaceOf mapped, fuel, _, ?_, hbad⟩
  obtain ⟨n, hn⟩ := @getfd_stateOf fd (spaceOf mapped) (fun _ => 0) .file hfd
  change _ ∈ if ensurePointer fuel (spaceOf mapped) 0 buf size w = some true then _ else []
  rw [if_pos hok, hn]
  unfold transfer
  dsimp only
  rw [if_pos hgoes]
  exact mem_bytes.mpr ⟨k, hk, rfl⟩

-- the first and the last byte are written whatever the name is
theorem exists_bad_statBytes (h : ¬ RangeCovered buf statSize) :
    ∃ a ∈ statBytes buf [], ¬ UserByte (spaceOf (statPages buf)) 0 a := by
  rcases not_user_statPages h with hbad | hbad
  · exact ⟨_, mem_append_left _ (mem_bytes.mpr ⟨0, by decide, rfl⟩), hbad⟩
  · refine ⟨_, mem_append_right _ (mem_bytes.mpr ⟨33, by decide, ?_⟩), hbad⟩
    rw [Nat.add_assoc]

theorem not_userOnly_readdir {fd : Nat} (hfd : ¬ BadFd fd) (hrange : ¬ RangeCovered buf statSize) :
    Leaks (·.sysReaddir · fd buf) := by
  obtain ⟨a, ha, hbad⟩ := exists_bad_statBytes hrange
  refine ⟨stateOf (spaceOf (statPages buf)) (fun _ => 0) .dir, userSpace_spaceOf _, 2, a, ?_, hbad⟩
  obtain ⟨n, hn⟩ := @getfd_stateOf fd (spaceOf (statPages buf)) (fun _ => 0) .dir hfd
  unfold sysReaddir
  beta_reduce
  rw [hn]
  change a ∈ if ensurePointer 2 (spaceOf (statPages buf)) 0 buf statSize true = some true
    then statBytes buf [] else []
  rw [if_pos (accepted_statPages hrange)]
  exact ha

theorem stat_root : ∃ found, stat smallSys [47] = .ok found ∧ found.name = [] := by
  have hname : (stat smallSys [47]).toOption.map Stat.name = some [] := by decide
  cases hstat : stat smallSys [47] with
  | error e =>
    rw [hstat] at hname
    cases hname
  | ok found =>
    rw [hstat] at hname
    exact ⟨found, rfl, Option.some_inj.mp hname⟩

theorem not_userOnly_stat (href : ¬ Refused str) (hcov : StringCovered str)
    (hrange : ¬ RangeCovered buf statSize)
    (hpage : buf + statSize ≤ userEnd → (buf + 1057) / 4096 ≠ str / 4096 ∧
      (buf + 1057) / 4096 ≠ (str + 1) / 4096) : Leaks (·.sysStat · str buf) := by
  obtain ⟨a, ha, hbad⟩ := exists_bad_statBytes hrange
  have hmap : ∀ m < 2, statPages buf ((str + m) / 4096) = true := by
    intro m hm
    unfold statPages
    rw [decide_eq_true_eq]
    intro hend
    interval_cases m
    · exact (hpage hend).1.symm
    · exact (hpage hend).2.symm
  have hstr := @ensureString_slash (statPages buf) str false
    (stateOf (spaceOf (statPages buf)) (slashAt str) .file) rfl rfl rfl
    (fun hnull => href (.inl hnull)) hcov hmap
  obtain ⟨found, hfound, hname⟩ := stat_root
  have hstring : (stateOf (spaceOf (statPages buf)) (slashAt str) .file).string str 1 = [47] := by
    unfold StringCovered userEnd at hcov
    unfold string
    rw [range_one, map_singleton, Nat.mod_eq_of_lt (by omega)]
    change [slashAt str str] = [47]
    unfold slashAt
    rw [if_pos rfl]
  have hok : ensurePointer 2 (stateOf (spaceOf (statPages buf)) (slashAt str) .file).mem
      (stateOf (spaceOf (statPages buf)) (slashAt str) .file).cr3 buf statSize true =
        some true := accepted_statPages hrange
  refine ⟨stateOf (spaceOf (statPages buf)) (slashAt str) .file, userSpace_spaceOf _, 2, a,
    ?_, hbad⟩
  unfold sysStat
  beta_reduce
  rw [hstr]
  dsimp only
  rw [if_pos hok, hstring]
  change a ∈ _ ++ match stat smallSys [47] with
    | .ok found => statBytes buf found.name
    | .error _ => []
  rw [hfound]
  dsimp only
  rw [hname]
  exact mem_append_right _ ha

-- the longest path that is not refused is written over the end of the page
theorem not_userOnly_getpwd (hcov : StringCovered buf) (hsize : size ≠ 0)
    (hpage : ¬ buf % 4096 + min size 1023 < 4096) : Leaks (·.sysGetpwd · buf size) := by
  unfold StringCovered userEnd at hcov
  let mapped := allBut ((buf + min size 1023) / 4096)
  let st : CallState := { stateOf (spaceOf mapped) (fun _ => 0) .file with
      pwd := some (List.replicate (min size 1023) 97)
      pwd_short := fun p hp => by
        rw [← Option.some_inj.mp hp, length_replicate]
        omega }
  have hstr : st.ensureString 2 buf true 256 0 = ([buf], some 0) := by
    have htest : ensurePointer 2 st.mem st.cr3 ((buf + 0) % 2 ^ 64) (0 + 1) true = some true := by
      rw [@ensureString_test mapped buf 0 true st rfl rfl (by omega) (.inl (by omega)) (by decide)]
      intro _
      change decide (pageOf (buf + 0) ≠ (buf + min size 1023) / 4096) = true
      rw [decide_eq_true_eq]
      unfold pageOf
      omega
    have hzero : st.byte ((buf + 0) % 2 ^ 64) = 0 := rfl
    unfold ensureString
    rw [if_pos htest, if_pos hzero, Nat.add_zero, Nat.mod_eq_of_lt (by omega)]
  refine ⟨st, userSpace_spaceOf mapped, 2, buf + min size 1023, ?_, ?_⟩
  · have hmod : (buf + min size 1023) % 2 ^ 64 = buf + min size 1023 := Nat.mod_eq_of_lt (by omega)
    unfold sysGetpwd
    beta_reduce
    rw [hstr]
    change _ ∈ if size = 0 then [buf] else
      if size < (List.replicate (min size 1023) (97 : UInt8)).length + 1 then
        [buf] ++ (bytes buf (size - 1) ++ bytes (buf + size) 1)
      else [buf] ++ bytes buf ((List.replicate (min size 1023) (97 : UInt8)).length + 1)
    rw [if_neg hsize, length_replicate]
    split
    · apply mem_append_right
      apply mem_append_right
      refine mem_bytes.mpr ⟨0, by decide, ?_⟩
      rw [← hmod]
      congr 1
      omega
    · apply mem_append_right
      exact mem_bytes.mpr ⟨min size 1023, by omega, hmod⟩
  · apply not_userByte_of_hole (by omega)
    change decide _ = false
    rw [decide_eq_false_iff_not, not_not]

theorem mem_sysOpen (h : a ∈ (st.ensureString fuel str false 256 0).1) :
    a ∈ st.sysOpen fuel str := by
  unfold sysOpen
  dsimp only
  split
  · exact h
  · exact mem_append_left _ h

theorem mem_sysStat (h : a ∈ (st.ensureString fuel str false 256 0).1) :
    a ∈ st.sysStat fuel str buf := by
  unfold sysStat
  dsimp only
  split
  · exact h
  · split
    · exact mem_append_left _ (mem_append_left _ h)
    · exact h

theorem mem_sysGetpwd (h : a ∈ (st.ensureString fuel buf true 256 0).1) :
    a ∈ st.sysGetpwd fuel buf size := by
  unfold sysGetpwd
  dsimp only
  split
  · split
    · exact h
    · split
      · exact mem_append_left _ h
      · exact mem_append_left _ h
  · exact h

/-- Everything is mapped, and no string ends. -/
def endless : CallState := stateOf (spaceOf fun _ => true) (fun _ => 1) .file

-- what the check of the string reads is touched whatever comes after it
theorem leaks_endless (href : ¬ Refused str) (hcov : ¬ StringCovered str)
    {touched : CallState → Nat → List Nat}
    (h : ∀ a ∈ (endless.ensureString 2 str w 256 0).1, a ∈ touched endless 2) : Leaks touched := by
  obtain ⟨a, ha, hbad⟩ := @exists_read_of_not_covered str w endless rfl rfl
    (fun _ => by change (1 : UInt8) ≠ 0; decide) href hcov
  exact ⟨endless, userSpace_spaceOf fun _ => true, 2, a, h a ha, hbad⟩

theorem mem_waitBytes {pid : Int} (hcode : code ≠ 0) (hlt : code < 2 ^ 64)
    (h : if 0 ≤ pid then st.procs.waitable st.current pid.toNat = true
      else st.procs.firstDead st.current ≠ none) : code ∈ st.waitBytes pid code := by
  have hmem : code ∈ bytes code 4 :=
    mem_bytes.mpr ⟨0, by decide, by rw [Nat.add_zero, Nat.mod_eq_of_lt hlt]⟩
  unfold waitBytes
  rw [if_neg hcode]
  split
  · rename_i hpid
    rw [if_pos hpid] at h
    rwa [if_pos h]
  · rename_i hpid
    rw [if_neg hpid] at h
    split
    · exact hmem
    · rename_i hnone
      exact absurd hnone h

theorem not_userOnly_wait {pid : Nat} (hpid : pid < 2 ^ 64) (hcode : code ≠ 0)
    (hlt : code < 2 ^ 64) (h : ¬ (255 ≤ pid ∧ pid < 2 ^ 63)) :
    Leaks fun st _ => st.sysWait pid code := by
  -- nothing of the user's is mapped
  have hbad : ¬ UserByte (spaceOf fun _ => false) 0 code := by
    by_cases hlow : code < 2 ^ 47
    · exact not_userByte_of_hole hlow rfl
    · exact not_userByte_of_le (by unfold userEnd; omega)
  by_cases hsmall : pid < 255
  · let st : CallState := { stateOf (spaceOf fun _ => false) (fun _ => 0) .file with
        procs := { zeroState with proctbl := fun _ => { Process.zero with used := true } }
        current := if pid = 0 then 1 else 0 }
    refine ⟨st, userSpace_spaceOf fun _ => false, 0, code, ?_, hbad⟩
    unfold sysWait
    rw [bmod_of_lt (by omega)]
    apply mem_waitBytes hcode hlt
    rw [Int.toNat_natCast]
    change (decide (pid < maxProcesses) && true && pid != if pid = 0 then 1 else 0) = true
    rw [decide_eq_true (show pid < maxProcesses from hsmall), Bool.and_self, Bool.true_and,
      bne_iff_ne]
    split <;> omega
  · let st : CallState := { stateOf (spaceOf fun _ => false) (fun _ => 0) .file with
        procs := { zeroState with proctbl := fun _ => { Process.zero with isDead := true } } }
    refine ⟨st, userSpace_spaceOf fun _ => false, 0, code, ?_, hbad⟩
    have hneg : ¬ (0 : Int) ≤ (pid : Int).bmod (2 ^ 64) := by
      rw [Int.bmod_eq_emod]
      split <;> omega
    apply mem_waitBytes hcode hlt
    rw [if_neg hneg]
    have hdead : st.procs.firstDead st.current = some 1 := by decide
    rw [hdead]
    exact Option.some_ne_none 1

end Unsafe

/-- The calls whose arguments alone keep the kernel on the user's side. -/
theorem userOnly_iff_covered (c : UserCall) : UserOnly c ↔ Covered c := by
  refine ⟨fun hsafe => ?_, userOnly_of_covered⟩
  by_contra hcov
  apply Leaks.not_userOnly _ hsafe
  cases c with
  | read fd buf size =>
    obtain ⟨hfd, hrange⟩ := not_or.mp hcov
    exact not_userOnly_transfer rfl hfd hrange
  | write fd buf size =>
    obtain ⟨hfd, hrange⟩ := not_or.mp hcov
    exact not_userOnly_transfer rfl hfd hrange
  | stat path buf =>
    obtain ⟨href, hargs⟩ := not_or.mp hcov
    by_cases hstr : StringCovered path.toNat
    · obtain ⟨hrange, hpage⟩ := not_or.mp fun h => hargs ⟨hstr, h⟩
      exact not_userOnly_stat href hstr hrange fun hend => not_or.mp fun h => hpage ⟨hend, h⟩
    · exact leaks_endless href hstr fun _ => mem_sysStat
  | readdir fd buf =>
    obtain ⟨hfd, hrange⟩ := not_or.mp hcov
    exact not_userOnly_readdir hfd hrange
  | «open» path flags mode =>
    obtain ⟨href, hstr⟩ := not_or.mp hcov
    exact leaks_endless href hstr fun _ => mem_sysOpen
  | getpwd buf size =>
    obtain ⟨href, hargs⟩ := not_or.mp hcov
    by_cases hstr : StringCovered buf.toNat
    · obtain ⟨hsize, hpage⟩ := not_or.mp fun h => hargs ⟨hstr, h⟩
      exact not_userOnly_getpwd hstr hsize hpage
    · exact leaks_endless href hstr fun _ => mem_sysGetpwd
  | wait pid code =>
    obtain ⟨hcode, hpid⟩ := not_or.mp hcov
    exact not_userOnly_wait pid.toNat_lt hcode code.toNat_lt hpid

-- `write(1, 0xFFFF800000000000, 8)` hands out memory of the kernel
theorem write_reads_kernel : ∃ st : CallState, UserSpace st.mem st.cr3 ∧
      0xFFFF800000000000 ∈ st.trace 2 (.write 1 0xFFFF800000000000 8) ∧
      ¬ UserByte st.mem st.cr3 0xFFFF800000000000 ∧ ¬ UserOnly (.write 1 0xFFFF800000000000 8) := by
  have hbad : ¬ UserByte endless.mem endless.cr3 0xFFFF800000000000 :=
    not_userByte_of_le (by decide)
  have hspace : UserSpace endless.mem endless.cr3 := userSpace_spaceOf fun _ => true
  have hmem : 0xFFFF800000000000 ∈ endless.trace 2 (.write 1 0xFFFF800000000000 8) := by
    obtain ⟨n, hfd⟩ : ∃ n, endless.getfd 1 = some (n, .file) :=
      getfd_stateOf (by unfold BadFd; decide)
    have haddr : (0xFFFF800000000000 : UInt64).toNat = 0xFFFF800000000000 := by rfl
    have hsize : (8 : UInt64).toNat = 8 := by rfl
    have hone : (1 : UInt64).toNat = 1 := by rfl
    unfold trace sysWrite write
    dsimp only
    rw [haddr, hsize, hone, hfd, show endless.mem = spaceOf fun _ => true from rfl,
      show endless.cr3 = 0 from rfl]
    exact mem_bytes.mpr ⟨0, (by decide : 0 < 8), by decide⟩
  exact ⟨endless, hspace, hmem, hbad, fun h => hbad (h endless hspace 2 _ hmem)⟩

/-! ## The check of a string -/

/-- Byte `k` of the string is neither null nor on a page that is not fit for the access. -/
def CallState.StrByte (st : CallState) (str k : Nat) (w : Bool) : Prop :=
  (str + k) % 2 ^ 64 ≠ 0 ∧ OnPage st.mem st.cr3 ((str + k) % 2 ^ 64) w

/-- `ensure_string` for reading accepts the strings that end below `maxsz`, and reads no other page
than those it has found mapped. -/
def CallState.ChecksString (st : CallState) (fuel str maxsz : Nat) : Prop :=
  ((st.ensureString fuel str false maxsz 0).2.isSome = true ↔
    ∃ k < maxsz, st.byte ((str + k) % 2 ^ 64) = 0 ∧ ∀ j ≤ k, st.StrByte str j false) ∧
  ∀ a ∈ (st.ensureString fuel str false maxsz 0).1, OnPage st.mem st.cr3 a false

variable {k i : Nat}

-- each turn looks at no more than a page
theorem accepted_iff_strByte (st : CallState) (fuel str : Nat) (w : Bool) (hk : k < 4096) :
    ensurePointer (fuel + 2) st.mem st.cr3 ((str + k) % 2 ^ 64) (k + 1) w = some true ↔
      st.StrByte str k w := by
  constructor
  · intro h
    obtain ⟨hnull, hcan, -⟩ := accepted_spec h (Nat.mod_lt _ (by decide))
    rw [ensurePointer_onePage hnull hcan (by omega) (by omega), Option.some_inj, okaddr_iff] at h
    exact ⟨hnull, hcan, h⟩
  · rintro ⟨hnull, hcan, h⟩
    rw [ensurePointer_onePage hnull hcan (by omega) (by omega), Option.some_inj, okaddr_iff]
    exact h

-- `k` rounds from byte `i` on
theorem ensureString_spec (st : CallState) (fuel str : Nat) (w : Bool) (hk : i + k ≤ 4096) :
    ((st.ensureString (fuel + 2) str w k i).2.isSome = true ↔
      ∃ n, i ≤ n ∧ n < i + k ∧ st.byte ((str + n) % 2 ^ 64) = 0 ∧
        ∀ j, i ≤ j → j ≤ n → st.StrByte str j w) ∧
    ∀ a ∈ (st.ensureString (fuel + 2) str w k i).1, OnPage st.mem st.cr3 a w := by
  induction k generalizing i with
  | zero =>
    refine ⟨iff_of_false nofun ?_, by simp [ensureString]⟩
    omega
  | succ k ih =>
    obtain ⟨ihsome, ihread⟩ := ih (i := i + 1) (by omega)
    unfold ensureString
    dsimp only
    have hbyte := accepted_iff_strByte st fuel str w (show i < 4096 by omega)
    split_ifs with hok hzero <;> rw [hbyte] at hok
    · -- the string ends here
      refine ⟨iff_of_true rfl ⟨i, le_rfl, by omega, hzero, fun j hij hji => ?_⟩, ?_⟩
      · rwa [Nat.le_antisymm hji hij]
      · simpa using hok.2
    · refine ⟨ihsome.trans ⟨?_, ?_⟩, by simpa using ⟨hok.2, ihread⟩⟩
      · rintro ⟨n, hi, hn, hnul, hall⟩
        refine ⟨n, by omega, by omega, hnul, fun j hij hjn => ?_⟩
        obtain rfl | hlt := hij.eq_or_lt
        · exact hok
        · exact hall j hlt hjn
      · rintro ⟨n, hi, hn, hnul, hall⟩
        obtain rfl | hlt := hi.eq_or_lt
        · exact absurd hnul hzero
        · exact ⟨n, hlt, by omega, hnul, fun j hij => hall j (by omega)⟩
    · refine ⟨iff_of_false nofun ?_, by simp⟩
      rintro ⟨n, hi, -, -, hall⟩
      exact hok (hall i le_rfl hi)

theorem ensureString_exact (st : CallState) (fuel str : Nat) {maxsz : Nat} (hmax : maxsz ≤ 4096) :
    st.ChecksString (fuel + 2) str maxsz := by
  obtain ⟨hsome, hread⟩ := ensureString_spec st fuel str false (show 0 + maxsz ≤ 4096 by omega)
  exact ⟨hsome.trans (by simp), hread⟩

/-- Pages up to page 2, and one byte there that ends a string. -/
def twoPages : CallState :=
  stateOf (spaceOf fun p => decide (p ≤ 2)) (fun a => if a = 0x2001 then 0 else 97) .file

-- a string over the end of a page, and one that the page behind cuts off
theorem ensureString_exact_twoPages :
    (twoPages.ensureString 2 0x1FFE false 4096 0).2.isSome = true ∧
      (twoPages.ensureString 2 0x2002 false 4096 0).2.isSome = false := by
  refine ⟨(ensureString_exact twoPages 0 0x1FFE le_rfl).1.mpr ⟨3, by decide, rfl, ?_⟩, ?_⟩
  · intro j hj
    have hpage : pageOf ((0x1FFE + j) % 2 ^ 64) ≤ 2 := by
      unfold pageOf
      omega
    have hok := (@okaddr_spaceOf (fun p => decide (p ≤ 2)) ((0x1FFE + j) % 2 ^ 64) false).mpr
      fun _ => decide_eq_true hpage
    exact ⟨by omega, Or.inl (by omega), (okaddr_iff _ _ _ _).mp hok⟩
  · rw [← Bool.not_eq_true, (ensureString_exact twoPages 0 0x2002 le_rfl).1]
    rintro ⟨k, hk, hzero, -⟩
    have hother : ¬ (0x2002 + k) % 2 ^ 64 = 0x2001 := by omega
    exact absurd ((if_neg hother).symm.trans hzero) (by decide)

end Usr
