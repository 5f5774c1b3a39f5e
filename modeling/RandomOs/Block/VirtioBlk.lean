import Mathlib.Data.Fintype.Basic
import RandomOs.Block.Ata
import RandomOs.Block.Virtqueue
import RandomOs.Kern.Errno

/-!
# virtio-blk (`virtio_blk.c`)

All requests of a disk use one page: the header, the status byte and the data.  The driver submits a
request and polls for any entry of the used ring.  The device works on its own time: it takes heads
from the ring, reads headers, moves bytes, answers and completes, in any order and also after the
driver has given up.
-/

namespace Block

open Lib Kern Function List Reach Virtqueue

/-! ## Model -/

structure Req where
  out : Bool
  lba : Nat
  data : Sector

/-- A call that has returned, with the disk when it began, during it and when it returned. -/
structure Outcome where
  req : Req
  code : Int
  data : Sector
  before : Nat → Sector
  seen : List (Nat → Sector)
  after : Nat → Sector

inductive BlkPc
  | idle
  | prepared (r : Req)
  | linked (r : Req) (d0 : Nat)
  | polling (r : Req) (d0 spins : Nat)
  | polled (r : Req) (d0 : Nat) (found : Bool)
  | done (o : Outcome)

-- how far the device is with a chain; the bytes of a sector move one by one
inductive Flight
  | fetched (head : Nat)
  | parsed (head : Nat) (out : Bool) (sector : Nat) (moved : Fin 512 → Bool)
  | answered (head : Nat)

structure Blk where
  hdrOut : Bool
  hdrSector : Nat
  status : Nat
  buf : Sector
  vq : Virtqueue
  pc : BlkPc
  disk : Nat → Sector
  devIdx : Nat
  flights : List Flight
  before : Nat → Sector
  seen : List (Nat → Sector)

open Blk

inductive DriverAct
  | call (r : Req)
  | link
  | submit
  | poll
  | finish

open DriverAct

inductive DeviceAct
  | fetch
  | parse (i : Nat) (out : Bool) (sector : Nat)
  | move (i : Nat) (k : Fin 512)
  | answer (i : Nat) (status : Nat)
  | complete (i : Nat)

open DeviceAct

namespace Blk

def start (w : Blk) (r : Req) : Blk :=
  { w with
    hdrOut := r.out
    hdrSector := r.lba
    status := 0xFF
    buf := if r.out then r.data else w.buf
    pc := .prepared r
    before := w.disk
    seen := [w.disk] }

def ret (w : Blk) (r : Req) (code : Int) : Blk :=
  { w with
    pc := .done ⟨r, code, if code = 0 ∧ r.out = false then w.buf else r.data, w.before, w.seen,
      w.disk⟩ }

/-- `virtio_blk_transfer`, cut where the device can be seen at work. -/
def driver (w : Blk) : DriverAct → Option Blk
  | .call r =>
    match w.pc with
    | .idle => some (w.start r)
    | .done _ => some (w.start r)
    | _ => none
  | .link =>
    match w.pc with
    | .prepared r =>
      match w.vq.allocRequest r.out with
      | (none, vq) => some ({ w with vq := vq }.ret r (-EFULL))
      | (some d0, vq) => some { w with vq := vq, pc := .linked r d0 }
    | _ => none
  | .submit =>
    match w.pc with
    | .linked r d0 => some { w with vq := w.vq.submitChain d0, pc := .polling r d0 0 }
    | _ => none
  | .poll =>
    match w.pc with
    | .polling r d0 spins =>
      if spins < 10000000 then
        if w.vq.hasUsed then some { w with vq := w.vq.takeUsed, pc := .polled r d0 true }
        else some { w with pc := .polling r d0 (spins + 1) }
      else some { w with pc := .polled r d0 false }
    | _ => none
  | .finish =>
    match w.pc with
    | .polled r d0 found =>
      let w := { w with vq := w.vq.freeChain d0 }
      if found = false then some (w.ret r (-ETIME))
      else if w.status ≠ 0 then some (w.ret r (-EDISK))
      else some (w.ret r 0)
    | _ => none

-- a chain that is no request may be read as anything
def Readable (w : Blk) (head : Nat) (out : Bool) (sector : Nat) : Prop :=
  w.vq.IsRequest w.hdrOut head → out = w.hdrOut ∧ sector = w.hdrSector

instance (w : Blk) (head : Nat) (out : Bool) (sector : Nat) :
    Decidable (w.Readable head out sector) :=
  inferInstanceAs (Decidable (_ → _))

def moveByte (w : Blk) (out : Bool) (sector : Nat) (k : Fin 512) : Blk :=
  if out then
    let disk := Function.update w.disk sector (Function.update (w.disk sector) k (w.buf k))
    { w with disk := disk, seen := w.seen ++ [disk] }
  else { w with buf := Function.update w.buf k (w.disk sector k) }

/-- What the device may do: success is reported for a sector that was moved whole. -/
def device (w : Blk) : DeviceAct → Option Blk
  | .fetch =>
    if w.devIdx = w.vq.availIdx then none
    else some { w with
      flights := w.flights ++ [.fetched (w.vq.availRing (w.devIdx % w.vq.size))]
      devIdx := (w.devIdx + 1) % 2 ^ 16 }
  | .parse i out sector =>
    match w.flights[i]? with
    | some (.fetched head) =>
      if w.Readable head out sector then
        some { w with flights := w.flights.set i (.parsed head out sector fun _ => false) }
      else none
    | _ => none
  | .move i k =>
    match w.flights[i]? with
    | some (.parsed head out sector moved) =>
      some { w.moveByte out sector k with
        flights := w.flights.set i (.parsed head out sector (Function.update moved k true)) }
    | _ => none
  | .answer i status =>
    match w.flights[i]? with
    | some (.parsed head _ _ moved) =>
      if status = 0 → ∀ k, moved k = true then
        some { w with status := status, flights := w.flights.set i (.answered head) }
      else none
    | _ => none
  | .complete i =>
    match w.flights[i]? with
    | some (.answered head) =>
      some { w with vq := w.vq.pushUsed head, flights := w.flights.eraseIdx i }
    | _ => none

/-! ## Runs -/

def Step (w : Blk) (a : DriverAct ⊕ DeviceAct) (w' : Blk) : Prop :=
  match a with
  | .inl a => w.driver a = some w'
  | .inr a => w.device a = some w'

/-- After `virtqueue_init`. -/
structure Init (w : Blk) : Prop where
  pc : w.pc = .idle
  desc : ∀ i, w.vq.desc i = ⟨none, 0, false, false, if i + 1 < w.vq.size then i + 1 else 0⟩
  freeHead : w.vq.freeHead = 0
  freeCount : w.vq.freeCount = w.vq.size
  rings : w.vq.availIdx = 0 ∧ w.vq.usedIdx = 0 ∧ w.vq.lastUsedIdx = 0
  device : w.devIdx = 0 ∧ w.flights = []

/-- A call begins when every request that was submitted has been taken from the used ring. -/
def Careful (w : Blk) : DriverAct ⊕ DeviceAct → Prop
  | .inl (.call _) => w.vq.availIdx = w.vq.lastUsedIdx
  | _ => True

end Blk

/-- A call that returns 0 has read the sector as it was at some time during the call, or has
written that sector and no other. -/
def Outcome.Right (o : Outcome) : Prop :=
  o.code = 0 →
    if o.req.out then o.after = Function.update o.before o.req.lba o.req.data
    else ∃ disk ∈ o.seen, o.data = disk o.req.lba

/-! ## One request at a time -/

namespace Blk

structure Quiet (w : Blk) : Prop where
  flights : w.flights = []
  devIdx : w.devIdx = w.vq.availIdx
  usedIdx : w.vq.usedIdx = w.vq.availIdx
  lastUsedIdx : w.vq.lastUsedIdx = w.vq.availIdx
  bound : w.vq.availIdx < 2 ^ 16

-- one request has not been taken from the used ring
structure Pending (w : Blk) : Prop where
  availIdx : w.vq.availIdx = (w.vq.lastUsedIdx + 1) % 2 ^ 16
  bound : w.vq.lastUsedIdx < 2 ^ 16

structure Setup (w : Blk) (r : Req) : Prop where
  out : w.hdrOut = r.out
  sector : w.hdrSector = r.lba
  before : w.before ∈ w.seen

-- nothing has been moved
structure Untouched (w : Blk) (r : Req) : Prop where
  disk : w.disk = w.before
  buf : r.out = true → w.buf = r.data

/-- The bytes that have moved. -/
structure Moving (w : Blk) (r : Req) (moved : Fin 512 → Bool) : Prop where
  write : r.out = true → w.buf = r.data ∧ w.disk = Function.update w.before r.lba fun k =>
    if moved k then r.data k else w.before r.lba k
  read : r.out = false → w.disk = w.before ∧ ∀ k, moved k = true → w.buf k = w.before r.lba k

def Finished (w : Blk) (r : Req) : Prop := w.status = 0 → w.Moving r fun _ => true

inductive Progress (w : Blk) (r : Req) (d0 : Nat) : Prop
  | waiting : w.flights = [] → w.devIdx = w.vq.lastUsedIdx → w.vq.usedIdx = w.vq.lastUsedIdx →
      w.vq.availRing (w.vq.lastUsedIdx % w.vq.size) = d0 → w.Untouched r → Progress w r d0
  | fetched : w.flights = [.fetched d0] → w.devIdx = w.vq.availIdx →
      w.vq.usedIdx = w.vq.lastUsedIdx → w.Untouched r → Progress w r d0
  | parsed (moved : Fin 512 → Bool) : w.flights = [.parsed d0 r.out r.lba moved] →
      w.devIdx = w.vq.availIdx → w.vq.usedIdx = w.vq.lastUsedIdx → w.Moving r moved →
      Progress w r d0
  | answered : w.flights = [.answered d0] → w.devIdx = w.vq.availIdx →
      w.vq.usedIdx = w.vq.lastUsedIdx → w.Finished r → Progress w r d0
  | completed : w.flights = [] → w.devIdx = w.vq.availIdx → w.vq.usedIdx = w.vq.availIdx →
      w.Finished r → Progress w r d0

structure Running (w : Blk) (r : Req) (d0 : Nat) : Prop where
  lent : ∃ l, w.vq.Lent r.out d0 l
  setup : w.Setup r
  pending : w.Pending
  progress : w.Progress r d0

def Resting (w : Blk) : Prop := w.Quiet ∧ ∃ l, w.vq.FreeList l

def Inv (w : Blk) : Prop :=
  match w.pc with
  | .idle => w.Resting
  | .prepared r => w.Resting ∧ w.Setup r ∧ w.Untouched r
  | .linked r d0 => w.Quiet ∧ (∃ l, w.vq.Lent r.out d0 l) ∧ w.Setup r ∧ w.Untouched r
  | .polling r d0 _ => w.Running r d0
  | .polled r d0 true => w.Quiet ∧ (∃ l, w.vq.Lent r.out d0 l) ∧ w.Setup r ∧ w.Finished r
  | .polled _ _ false => w.Pending
  | .done o => o.Right ∧ (w.Resting ∨ w.Pending)

/-! ## Moving bytes -/

section Moving

variable {w w' : Blk} {r : Req} {moved : Fin 512 → Bool}

theorem Untouched.moving (h : w.Untouched r) : w.Moving r fun _ => false where
  write := by
    intro hout
    refine ⟨h.buf hout, ?_⟩
    rw [h.disk]
    exact (update_eq_self r.lba w.before).symm
  read := fun _ => ⟨h.disk, fun _ hk => absurd hk Bool.false_ne_true⟩

theorem Moving.moveByte (h : w.Moving r moved) (k : Fin 512) :
    (w.moveByte r.out r.lba k).Moving r (update moved k true) where
  write := by
    intro hout
    obtain ⟨hbuf, hdisk⟩ := h.write hout
    unfold Blk.moveByte
    rw [hout, if_pos rfl]
    refine ⟨hbuf, ?_⟩
    show update w.disk r.lba (update (w.disk r.lba) k (w.buf k)) = _
    rw [hdisk, update_idem, update_self, hbuf]
    congr 1
    funext j
    by_cases hj : j = k
    · subst hj
      rw [update_self, update_self, if_pos rfl]
    · rw [update_of_ne hj, update_of_ne hj]
  read := by
    intro hout
    obtain ⟨hdisk, hbuf⟩ := h.read hout
    rw [hout]
    refine ⟨hdisk, ?_⟩
    intro j hj
    show update w.buf k (w.disk r.lba k) j = w.before r.lba j
    by_cases hjk : j = k
    · subst hjk
      rw [update_self, hdisk]
    · rw [update_of_ne hjk] at hj ⊢
      exact hbuf j hj

theorem moveByte_eq (w : Blk) (out : Bool) (sector : Nat) (k : Fin 512) :
    ∃ disk buf seen, w.moveByte out sector k = { w with disk := disk, buf := buf, seen := seen } ∧
      ∀ d ∈ w.seen, d ∈ seen := by
  unfold moveByte
  split
  · exact ⟨_, w.buf, _, rfl, fun _ hd => mem_append_left _ hd⟩
  · exact ⟨w.disk, _, w.seen, rfl, fun _ hd => hd⟩

-- the bytes of the disk and of the buffer are all that counts
theorem Moving.congr (h : w.Moving r moved) (hdisk : w'.disk = w.disk) (hbuf : w'.buf = w.buf)
    (hbefore : w'.before = w.before) : w'.Moving r moved where
  write := by
    rw [hdisk, hbuf, hbefore]
    exact h.write
  read := by
    rw [hdisk, hbuf, hbefore]
    exact h.read

end Moving

/-! ## The device -/

section Device

variable {w w' : Blk} {r : Req} {d0 i : Nat} {f : Flight} {a : DeviceAct}

-- what is known of a chain the device has
def FlightOk (w : Blk) (r : Req) (d0 : Nat) : Flight → Prop
  | .fetched head => head = d0 ∧ w.Untouched r
  | .parsed head out sector moved => head = d0 ∧ out = r.out ∧ sector = r.lba ∧ w.Moving r moved
  | .answered head => head = d0 ∧ w.Finished r

theorem eq_of_getElem?_singleton {g : Flight} (hw : w.flights = [g])
    (hi : w.flights[i]? = some f) : i = 0 ∧ g = f := by
  rw [hw, List.getElem?_singleton] at hi
  split at hi
  · rename_i hzero
    exact ⟨hzero, Option.some.inj hi⟩
  · cases hi

theorem Progress.flight (h : w.Progress r d0) (hi : w.flights[i]? = some f) :
    i = 0 ∧ w.flights = [f] ∧ w.devIdx = w.vq.availIdx ∧ w.vq.usedIdx = w.vq.lastUsedIdx ∧
      w.FlightOk r d0 f := by
  cases h with
  | waiting hflights =>
    rw [hflights] at hi
    cases hi
  | fetched hflights hdev hused huntouched =>
    obtain ⟨hzero, rfl⟩ := eq_of_getElem?_singleton hflights hi
    exact ⟨hzero, hflights, hdev, hused, rfl, huntouched⟩
  | parsed moved hflights hdev hused hmoving =>
    obtain ⟨hzero, rfl⟩ := eq_of_getElem?_singleton hflights hi
    exact ⟨hzero, hflights, hdev, hused, rfl, rfl, rfl, hmoving⟩
  | answered hflights hdev hused hfinished =>
    obtain ⟨hzero, rfl⟩ := eq_of_getElem?_singleton hflights hi
    exact ⟨hzero, hflights, hdev, hused, rfl, hfinished⟩
  | completed hflights =>
    rw [hflights] at hi
    cases hi

-- the device does not touch what the driver goes by
theorem device_kept (h : w.device a = some w') :
    w'.pc = w.pc ∧ w'.vq.availIdx = w.vq.availIdx ∧ w'.vq.lastUsedIdx = w.vq.lastUsedIdx := by
  unfold device at h
  split at h
  · split at h
    · cases h
    · cases h
      exact ⟨rfl, rfl, rfl⟩
  · split at h
    · split at h
      · cases h
        exact ⟨rfl, rfl, rfl⟩
      · cases h
    · cases h
  · rename_i i k
    split at h
    · rename_i head out sector moved hflight
      cases h
      obtain ⟨disk, buf, seen, heq, -⟩ := moveByte_eq w out sector k
      rw [heq]
      exact ⟨rfl, rfl, rfl⟩
    · cases h
  · split at h
    · split at h
      · cases h
        exact ⟨rfl, rfl, rfl⟩
      · cases h
    · cases h
  · split at h
    · cases h
      exact ⟨rfl, rfl, rfl⟩
    · cases h

theorem Pending.device (h : w.Pending) (hstep : w.device a = some w') : w'.Pending := by
  obtain ⟨-, havail, hlast⟩ := device_kept hstep
  refine ⟨?_, ?_⟩
  · rw [havail, hlast]
    exact h.availIdx
  · rw [hlast]
    exact h.bound

-- without a request there is nothing to do
theorem Quiet.device (h : w.Quiet) (a : DeviceAct) : w.device a = none := by
  have hnone : ∀ i : Nat, w.flights[i]? = none := by
    intro i
    rw [h.flights]
    rfl
  unfold Blk.device
  split
  · exact if_pos h.devIdx
  all_goals rw [hnone]

section

variable (h : w.Running r d0)

include h

theorem Running.fetch (hstep : w.device .fetch = some w') :
    w'.Running r d0 := by
  unfold device at hstep
  dsimp only at hstep
  split at hstep
  · cases hstep
  rename_i hne
  cases hstep
  refine ⟨h.lent, ⟨h.setup.out, h.setup.sector, h.setup.before⟩,
    ⟨h.pending.availIdx, h.pending.bound⟩, ?_⟩
  cases h.progress with
  | waiting hflights hdev hused hring huntouched =>
    apply Progress.fetched
    · show w.flights ++ [.fetched (w.vq.availRing (w.devIdx % w.vq.size))] = _
      rw [hflights, hdev, hring]
      rfl
    · show (w.devIdx + 1) % 2 ^ 16 = w.vq.availIdx
      rw [hdev, h.pending.availIdx]
    · exact hused
    · exact ⟨huntouched.disk, huntouched.buf⟩
  | fetched _ hdev => exact absurd hdev hne
  | parsed _ _ hdev => exact absurd hdev hne
  | answered _ hdev => exact absurd hdev hne
  | completed _ hdev => exact absurd hdev hne

theorem Running.parse {out : Bool} {sector : Nat}
    (hstep : w.device (.parse i out sector) = some w') : w'.Running r d0 := by
  unfold device at hstep
  dsimp only at hstep
  split at hstep
  swap
  · cases hstep
  rename_i head hflight
  split at hstep
  swap
  · cases hstep
  rename_i hreadable
  cases hstep
  obtain ⟨rfl, hflights, hdev, hused, rfl, huntouched⟩ := h.progress.flight hflight
  obtain ⟨l, hlent⟩ := h.lent
  have hreq : w.vq.IsRequest w.hdrOut head := by
    rw [h.setup.out]
    exact hlent.request
  obtain ⟨rfl, rfl⟩ := hreadable hreq
  refine ⟨⟨l, hlent⟩, ⟨h.setup.out, h.setup.sector, h.setup.before⟩,
    ⟨h.pending.availIdx, h.pending.bound⟩, ?_⟩
  apply Progress.parsed (fun _ => false)
  · show w.flights.set 0 (.parsed head w.hdrOut w.hdrSector fun _ => false) = _
    rw [hflights, h.setup.out, h.setup.sector]
    rfl
  · exact hdev
  · exact hused
  · exact huntouched.moving.congr rfl rfl rfl

theorem Running.move {k : Fin 512}
    (hstep : w.device (.move i k) = some w') : w'.Running r d0 := by
  unfold device at hstep
  dsimp only at hstep
  split at hstep
  swap
  · cases hstep
  rename_i head out sector moved hflight
  cases hstep
  obtain ⟨rfl, hflights, hdev, hused, rfl, rfl, rfl, hmoving⟩ := h.progress.flight hflight
  obtain ⟨disk, buf, seen, heq, hseen⟩ := moveByte_eq w r.out r.lba k
  have hmoved := hmoving.moveByte k
  rw [heq] at hmoved ⊢
  refine ⟨h.lent, ⟨h.setup.out, h.setup.sector, hseen _ h.setup.before⟩,
    ⟨h.pending.availIdx, h.pending.bound⟩, ?_⟩
  apply Progress.parsed (update moved k true)
  · show w.flights.set 0 _ = _
    rw [hflights]
    rfl
  · exact hdev
  · exact hused
  · exact hmoved.congr rfl rfl rfl

theorem Running.answer {status : Nat}
    (hstep : w.device (.answer i status) = some w') : w'.Running r d0 := by
  unfold device at hstep
  dsimp only at hstep
  split at hstep
  swap
  · cases hstep
  rename_i head out sector moved hflight
  split at hstep
  swap
  · cases hstep
  rename_i hall
  cases hstep
  obtain ⟨rfl, hflights, hdev, hused, rfl, -, -, hmoving⟩ := h.progress.flight hflight
  refine ⟨h.lent, ⟨h.setup.out, h.setup.sector, h.setup.before⟩,
    ⟨h.pending.availIdx, h.pending.bound⟩, ?_⟩
  apply Progress.answered
  · show w.flights.set 0 (.answered head) = _
    rw [hflights]
    rfl
  · exact hdev
  · exact hused
  · intro hok
    have hmoved : moved = fun _ => true := funext (hall hok)
    rw [hmoved] at hmoving
    exact hmoving.congr rfl rfl rfl

theorem Running.complete
    (hstep : w.device (.complete i) = some w') : w'.Running r d0 := by
  unfold device at hstep
  dsimp only at hstep
  split at hstep
  swap
  · cases hstep
  rename_i head hflight
  cases hstep
  obtain ⟨rfl, hflights, hdev, hused, rfl, hfinished⟩ := h.progress.flight hflight
  obtain ⟨l, hlent⟩ := h.lent
  refine ⟨⟨l, ?_⟩, ⟨h.setup.out, h.setup.sector, h.setup.before⟩,
    ⟨h.pending.availIdx, h.pending.bound⟩, ?_⟩
  · exact hlent.congr rfl rfl rfl rfl
  apply Progress.completed
  · show w.flights.eraseIdx 0 = []
    rw [hflights]
    rfl
  · exact hdev
  · show (w.vq.usedIdx + 1) % 2 ^ 16 = w.vq.availIdx
    rw [hused, h.pending.availIdx]
  · exact fun hok => (hfinished hok).congr rfl rfl rfl

theorem Running.device (hstep : w.device a = some w') : w'.Running r d0 := by
  cases a with
  | fetch => exact h.fetch hstep
  | parse i out sector => exact h.parse hstep
  | move i k => exact h.move hstep
  | answer i status => exact h.answer hstep
  | complete i => exact h.complete hstep

end

end Device

/-! ## The driver -/

section Driver

variable {w w' : Blk} {r : Req} {d0 : Nat}

theorem Pending.ne (h : w.Pending) : w.vq.availIdx ≠ w.vq.lastUsedIdx := by
  have havail := h.availIdx
  omega

theorem Quiet.congr (h : w.Quiet) (hflights : w'.flights = w.flights)
    (hdev : w'.devIdx = w.devIdx) (hvq : w.vq.SameRings w'.vq) : w'.Quiet where
  flights := hflights.trans h.flights
  devIdx := by
    rw [hdev, hvq.availIdx]
    exact h.devIdx
  usedIdx := by
    rw [hvq.usedIdx, hvq.availIdx]
    exact h.usedIdx
  lastUsedIdx := by
    rw [hvq.lastUsedIdx, hvq.availIdx]
    exact h.lastUsedIdx
  bound := by
    rw [hvq.availIdx]
    exact h.bound

theorem start_inv (h : w.Resting) (r : Req) : (w.start r).Inv := by
  refine ⟨⟨h.1.congr rfl rfl (.refl w.vq), h.2⟩, ⟨rfl, rfl, mem_singleton.mpr rfl⟩, rfl, ?_⟩
  intro hout
  show (if r.out then r.data else w.buf) = r.data
  rw [hout, if_pos rfl]

theorem Inv.call (h : w.Inv) (hcare : w.vq.availIdx = w.vq.lastUsedIdx)
    (hstep : w.driver (.call r) = some w') : w'.Inv := by
  unfold driver at hstep
  dsimp only at hstep
  unfold Inv at h
  split at hstep
  · rename_i hpc
    rw [hpc] at h
    cases hstep
    exact start_inv h r
  · rename_i o hpc
    rw [hpc] at h
    cases hstep
    rcases h.2 with hrest | hpending
    · exact start_inv hrest r
    · exact absurd hcare hpending.ne
  · cases hstep

-- an error is never a wrong answer
theorem ret_right {code : Int} (h : code ≠ 0) (o : Outcome) (ho : o.code = code) : o.Right :=
  fun hzero => absurd (ho.symm.trans hzero) h

theorem Inv.link (h : w.Inv) (hstep : w.driver .link = some w') : w'.Inv := by
  unfold driver at hstep
  dsimp only at hstep
  unfold Inv at h
  split at hstep
  swap
  · cases hstep
  rename_i r hpc
  rw [hpc] at h
  obtain ⟨⟨hquiet, l, hfree⟩, hsetup, huntouched⟩ := h
  obtain ⟨hsame, halloc⟩ := allocRequest_spec hfree r.out
  generalize w.vq.allocRequest r.out = res at hstep hsame halloc
  obtain ⟨head, vq⟩ := res
  cases head with
  | none =>
    cases hstep
    refine ⟨ret_right (by decide : -EFULL ≠ 0) _ rfl, Or.inl ⟨?_, halloc⟩⟩
    exact hquiet.congr rfl rfl hsame
  | some d0 =>
    cases hstep
    exact ⟨hquiet.congr rfl rfl hsame, halloc, ⟨hsetup.out, hsetup.sector, hsetup.before⟩,
      huntouched.disk, huntouched.buf⟩

theorem Inv.submit (h : w.Inv) (hstep : w.driver .submit = some w') : w'.Inv := by
  unfold driver at hstep
  dsimp only at hstep
  unfold Inv at h
  split at hstep
  swap
  · cases hstep
  rename_i r d0 hpc
  rw [hpc] at h
  cases hstep
  obtain ⟨hquiet, ⟨l, hlent⟩, hsetup, huntouched⟩ := h
  refine ⟨⟨l, hlent.congr rfl rfl rfl rfl⟩, ⟨hsetup.out, hsetup.sector, hsetup.before⟩,
    ⟨?_, ?_⟩, ?_⟩
  · show (w.vq.availIdx + 1) % 2 ^ 16 = (w.vq.lastUsedIdx + 1) % 2 ^ 16
    rw [hquiet.lastUsedIdx]
  · show w.vq.lastUsedIdx < 2 ^ 16
    rw [hquiet.lastUsedIdx]
    exact hquiet.bound
  · apply Progress.waiting
    · exact hquiet.flights
    · exact hquiet.devIdx.trans hquiet.lastUsedIdx.symm
    · exact hquiet.usedIdx.trans hquiet.lastUsedIdx.symm
    · show update w.vq.availRing (w.vq.availIdx % w.vq.size) d0
        (w.vq.lastUsedIdx % w.vq.size) = d0
      rw [hquiet.lastUsedIdx, update_self]
    · exact ⟨huntouched.disk, huntouched.buf⟩

theorem Running.setPc (h : w.Running r d0) (pc : BlkPc) : { w with pc := pc }.Running r d0 := by
  refine ⟨h.lent, ⟨h.setup.out, h.setup.sector, h.setup.before⟩,
    ⟨h.pending.availIdx, h.pending.bound⟩, ?_⟩
  cases h.progress with
  | waiting hflights hdev hused hring huntouched =>
    exact .waiting hflights hdev hused hring ⟨huntouched.disk, huntouched.buf⟩
  | fetched hflights hdev hused huntouched =>
    exact .fetched hflights hdev hused ⟨huntouched.disk, huntouched.buf⟩
  | parsed moved hflights hdev hused hmoving =>
    exact .parsed moved hflights hdev hused (hmoving.congr rfl rfl rfl)
  | answered hflights hdev hused hfinished =>
    exact .answered hflights hdev hused fun hok => (hfinished hok).congr rfl rfl rfl
  | completed hflights hdev hused hfinished =>
    exact .completed hflights hdev hused fun hok => (hfinished hok).congr rfl rfl rfl

-- an entry of the used ring is that of the request
theorem Running.used (h : w.Running r d0) (hused : w.vq.hasUsed = true) :
    w.flights = [] ∧ w.devIdx = w.vq.availIdx ∧ w.vq.usedIdx = w.vq.availIdx ∧ w.Finished r := by
  have hne : w.vq.usedIdx ≠ w.vq.lastUsedIdx := by
    intro heq
    rw [hasUsed, heq, bne_self_eq_false] at hused
    cases hused
  cases h.progress with
  | waiting _ _ heq => exact absurd heq hne
  | fetched _ _ heq => exact absurd heq hne
  | parsed _ _ _ heq => exact absurd heq hne
  | answered _ _ heq => exact absurd heq hne
  | completed hflights hdev hidx hfinished => exact ⟨hflights, hdev, hidx, hfinished⟩

theorem Inv.poll (h : w.Inv) (hstep : w.driver .poll = some w') : w'.Inv := by
  unfold driver at hstep
  dsimp only at hstep
  unfold Inv at h
  split at hstep
  swap
  · cases hstep
  rename_i r d0 spins hpc
  rw [hpc] at h
  split at hstep
  swap
  · cases hstep
    exact ⟨h.pending.availIdx, h.pending.bound⟩
  split at hstep
  swap
  · cases hstep
    exact h.setPc _
  rename_i hused
  cases hstep
  obtain ⟨hflights, hdev, hidx, hfinished⟩ := h.used hused
  obtain ⟨l, hlent⟩ := h.lent
  have hlast : (w.vq.lastUsedIdx + 1) % 2 ^ 16 = w.vq.availIdx := h.pending.availIdx.symm
  refine ⟨⟨hflights, hdev, hidx, hlast, ?_⟩, ⟨l, hlent.congr rfl rfl rfl rfl⟩,
    ⟨h.setup.out, h.setup.sector, h.setup.before⟩, ?_⟩
  · show w.vq.availIdx < 2 ^ 16
    rw [← hlast]
    exact Nat.mod_lt _ (by decide)
  · exact fun hok => (hfinished hok).congr rfl rfl rfl

-- the answer of a request that was moved whole
theorem Moving.right (h : w.Moving r fun _ => true) (hsetup : w.Setup r) :
    (⟨r, 0, if (0 : Int) = 0 ∧ r.out = false then w.buf else r.data, w.before, w.seen,
      w.disk⟩ : Outcome).Right := by
  intro _
  cases hout : r.out with
  | true =>
    rw [if_pos rfl]
    exact (h.write hout).2
  | false =>
    refine ⟨w.before, hsetup.before, ?_⟩
    funext k
    exact (h.read hout).2 k rfl

theorem Inv.finish (h : w.Inv) (hstep : w.driver .finish = some w') : w'.Inv := by
  unfold driver at hstep
  dsimp only at hstep
  unfold Inv at h
  split at hstep
  swap
  · cases hstep
  rename_i r d0 found hpc
  rw [hpc] at h
  cases found with
  | false =>
    cases hstep
    obtain ⟨havail, hbound⟩ := h
    refine ⟨ret_right (by decide : -ETIME ≠ 0) _ rfl, Or.inr ?_⟩
    have hsame := w.vq.sameRings_freeChain d0
    refine ⟨?_, ?_⟩
    · show (w.vq.freeChain d0).availIdx = ((w.vq.freeChain d0).lastUsedIdx + 1) % 2 ^ 16
      rw [hsame.availIdx, hsame.lastUsedIdx]
      exact havail
    · show (w.vq.freeChain d0).lastUsedIdx < 2 ^ 16
      rw [hsame.lastUsedIdx]
      exact hbound
  | true =>
    obtain ⟨hquiet, ⟨l, hlent⟩, hsetup, hfinished⟩ := h
    obtain ⟨hfree, hsame⟩ := hlent.freeChain
    have hrest : ∀ code, (({ w with vq := w.vq.freeChain d0 } : Blk).ret r code).Resting :=
      fun code => ⟨hquiet.congr rfl rfl hsame, hfree⟩
    rw [if_neg (by decide : ¬ true = false)] at hstep
    split at hstep
    · cases hstep
      exact ⟨ret_right (by decide : -EDISK ≠ 0) _ rfl, Or.inl (hrest _)⟩
    · rename_i hok
      cases hstep
      exact ⟨(hfinished (not_not.mp hok)).right hsetup, Or.inl (hrest 0)⟩

end Driver

/-! ## Runs -/

variable {w : Blk}

theorem Init.inv (h : w.Init) : w.Inv := by
  obtain ⟨havail, hused, hlast⟩ := h.rings
  unfold Inv
  rw [h.pc]
  refine ⟨⟨h.device.2, ?_, ?_, ?_, ?_⟩, _, freeList_init h.desc h.freeHead h.freeCount⟩
  · rw [h.device.1, havail]
  · rw [hused, havail]
  · rw [hlast, havail]
  · rw [havail]
    decide

theorem Inv.device {w w' : Blk} (h : w.Inv) {a : DeviceAct} (hstep : w.device a = some w') :
    w'.Inv := by
  have hpc := (device_kept hstep).1
  -- a quiet device makes no step
  have hquiet : ¬ w.Quiet := by
    intro hq
    rw [hq.device a] at hstep
    cases hstep
  unfold Inv at h ⊢
  rw [hpc]
  generalize w.pc = pc at h
  cases pc with
  | idle => exact absurd h.1 hquiet
  | prepared r => exact absurd h.1.1 hquiet
  | linked r d0 => exact absurd h.1 hquiet
  | polling r d0 spins => exact h.device hstep
  | polled r d0 found =>
    cases found with
    | true => exact absurd h.1 hquiet
    | false => exact Pending.device h hstep
  | done o =>
    refine ⟨h.1, Or.inr ?_⟩
    rcases h.2 with hrest | hpending
    · exact absurd hrest.1 hquiet
    · exact hpending.device hstep

theorem Inv.step {w w' : Blk} (h : w.Inv) {a : DriverAct ⊕ DeviceAct} (hcare : w.Careful a)
    (hstep : w.Step a w') : w'.Inv := by
  cases a with
  | inl a =>
    cases a with
    | call r => exact h.call hcare hstep
    | link => exact h.link hstep
    | submit => exact h.submit hstep
    | poll => exact h.poll hstep
    | finish => exact h.finish hstep
  | inr a => exact h.device hstep

end Blk

/-- As long as no call begins while an earlier request is outstanding, every call that returns 0 is
right, whatever the device does and when. -/
theorem virtio_blk_right {w : Blk} (h : Reach Init Step Careful w) :
    ∀ o, w.pc = .done o → o.Right := by
  have hinv : w.Inv := by
    refine @invariant _ _ _ _ _ Inv ?_ ?_ _ h
    · exact fun _ hinit => hinit.inv
    · exact fun _ _ _ hinv hcare hstep => hinv.step hcare hstep
  intro o hpc
  unfold Blk.Inv at hinv
  rw [hpc] at hinv
  exact hinv.1

/-! ## A late answer -/

section Late

-- sector 1 holds ones, every other sector zeros
def twoSectors : Nat → Sector := fun s _ => if s = 1 then 1 else 0

def freshDisk : Blk where
  hdrOut := false
  hdrSector := 0
  status := 0
  buf := fun _ => 0
  vq := Virtqueue.init 4
  pc := .idle
  disk := twoSectors
  devIdx := 0
  flights := []
  before := twoSectors
  seen := []

theorem freshDisk_init : freshDisk.Init :=
  ⟨rfl, fun _ => rfl, rfl, rfl, ⟨rfl, rfl, rfl⟩, rfl, rfl⟩

def readOf (lba : Nat) : Req := ⟨false, lba, fun _ => 0⟩

variable {ok : Blk → DriverAct ⊕ DeviceAct → Prop} {head sector : Nat}

-- the driver polls while nothing comes
theorem reach_spin (hpoll : ∀ w, ok w (.inl .poll)) (h : Reach Init Step ok w) {r : Req} {d0 : Nat}
    (hpc : w.pc = .polling r d0 0) (hno : w.vq.hasUsed = false) {n : Nat} (hn : n ≤ 10000000) :
    Reach Init Step ok { w with pc := .polling r d0 n } := by
  induction n with
  | zero =>
    rw [← hpc]
    exact h
  | succ n ih =>
    refine next (a := .inl .poll) (ih (by omega)) ?_ (hpoll _)
    show driver { w with pc := .polling r d0 n } .poll = _
    unfold driver
    dsimp only
    rw [if_pos (by omega), hno, if_neg Bool.false_ne_true]

-- the device moves the bytes of a sector it reads
theorem reach_moves (hmove : ∀ w k, ok w (.inr (.move 0 k))) (h : Reach Init Step ok w)
    {moved : Fin 512 → Bool} (hflights : w.flights = [.parsed head false sector moved])
    (ks : List (Fin 512)) :
    ∃ buf moved', Reach Init Step ok
        { w with buf := buf, flights := [.parsed head false sector moved'] } ∧
      ∀ k ∈ ks, buf k = w.disk sector k ∧ moved' k = true := by
  induction ks with
  | nil =>
    refine ⟨w.buf, moved, ?_, fun k hk => absurd hk not_mem_nil⟩
    rw [← hflights]
    exact h
  | cons k ks ih =>
    obtain ⟨buf, moved', hreach, hall⟩ := ih
    refine ⟨update buf k (w.disk sector k), update moved' k true,
      next (a := Sum.inr (move 0 k)) hreach ?_ (hmove _ k), ?_⟩
    · rfl
    intro j hj
    by_cases hjk : j = k
    · subst hjk
      exact ⟨update_self .., update_self ..⟩
    · rw [update_of_ne hjk, update_of_ne hjk]
      exact hall j ((mem_cons.mp hj).resolve_left hjk)

-- and reports success when all have moved
theorem reach_answer (hanswer : ∀ w, ok w (.inr (.answer 0 0))) (h : Reach Init Step ok w)
    (hflights : w.flights = [.parsed head false sector fun _ => true]) :
    Reach Init Step ok { w with status := 0, flights := [.answered head] } := by
  refine next (a := Sum.inr (answer 0 0)) h ?_ (hanswer w)
  show w.device (.answer 0 0) = _
  unfold device
  rw [hflights]
  exact if_pos fun _ _ => rfl

end Late

-- a read of sector 1 that the device answers in time
theorem virtio_blk_right_one : ∃ w o, Reach Init Step Careful w ∧ w.pc = .done o ∧
    o.code = 0 ∧ o.req.lba = 1 ∧ o.Right := by
  have h0 : Reach Init Step Careful freshDisk := .start freshDisk_init
  have h1 := next (a := Sum.inl (call (readOf 1))) h0 rfl rfl
  have h2 := next (a := Sum.inl link) h1 rfl trivial
  have h3 := next (a := Sum.inl submit) h2 rfl trivial
  have h4 := next (a := Sum.inr fetch) h3 rfl trivial
  have h5 := next (a := Sum.inr (parse 0 false 1)) h4 rfl trivial
  obtain ⟨buf, moved, h6, hall⟩ := reach_moves (fun _ _ => trivial) h5 rfl (List.finRange 512)
  have hmoved : moved = fun _ => true := funext fun k => (hall k (mem_finRange k)).2
  rw [hmoved] at h6
  have h7 := reach_answer (fun _ => trivial) h6 rfl
  have h8 := next (a := Sum.inr (complete 0)) h7 rfl trivial
  have h9 := next (a := Sum.inl poll) h8 rfl trivial
  have h10 := next (a := Sum.inl finish) h9 rfl trivial
  exact ⟨_, _, h10, rfl, rfl, rfl, virtio_blk_right h10 _ rfl⟩

/-- A read of sector 0 times out, and its answer comes during a read of sector 1: that one returns 0
with the bytes of sector 0. -/
theorem virtio_blk_wrong : ∃ w o, Reach Init Step (fun _ _ => True) w ∧ w.pc = .done o ∧
    o.code = 0 ∧ o.req.lba = 1 ∧ o.seen = [twoSectors] ∧ o.data = twoSectors 0 ∧ ¬ o.Right := by
  have h0 : Reach Init Step (fun _ _ => True) freshDisk := .start freshDisk_init
  have h1 := next (a := Sum.inl (call (readOf 0))) h0 rfl trivial
  have h2 := next (a := Sum.inl link) h1 rfl trivial
  have h3 := next (a := Sum.inl submit) h2 rfl trivial
  have h4 := next (a := Sum.inr fetch) h3 rfl trivial
  -- the device knows which sector to read, and takes its time
  have h5 := next (a := Sum.inr (parse 0 false 0)) h4 rfl trivial
  have h6 := reach_spin (fun _ => trivial) h5 rfl rfl (Nat.le_refl 10000000)
  have h7 := next (a := Sum.inl poll) h6 rfl trivial
  have h8 := next (a := Sum.inl finish) h7 rfl trivial
  have h9 := next (a := Sum.inl (call (readOf 1))) h8 rfl trivial
  have h10 := next (a := Sum.inl link) h9 rfl trivial
  have h11 := next (a := Sum.inl submit) h10 rfl trivial
  obtain ⟨buf, moved, h12, hall⟩ := reach_moves (fun _ _ => trivial) h11 rfl (List.finRange 512)
  have hmoved : moved = fun _ => true := funext fun k => (hall k (mem_finRange k)).2
  have hbuf : buf = twoSectors 0 := funext fun k => (hall k (mem_finRange k)).1
  rw [hmoved, hbuf] at h12
  have h13 := reach_answer (fun _ => trivial) h12 rfl
  have h14 := next (a := Sum.inr (complete 0)) h13 rfl trivial
  have h15 := next (a := Sum.inl poll) h14 rfl trivial
  have h16 := next (a := Sum.inl finish) h15 rfl trivial
  refine ⟨_, _, h16, rfl, rfl, rfl, rfl, rfl, ?_⟩
  intro hright
  obtain ⟨disk, hdisk, hdata⟩ := hright rfl
  rw [mem_singleton.mp hdisk] at hdata
  exact absurd (congrFun hdata 0) (by decide : (0 : UInt8) ≠ 1)

end Block
