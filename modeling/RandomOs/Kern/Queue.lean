import RandomOs.Lib.Fifo

/-!
# The kernel byte queue (`kern/queue.c`)

`kqueue_t` is a circular buffer with a 64-bit `head` and an 8-bit `tail`.  The 8-bit index is the
only place where the queue and a bounded FIFO differ: for capacities up to 256 bytes the queue
refines `Lib.Fifo`, for every larger one it does not.
-/

namespace Kern

open Lib List

/-! ## Model -/

/-- `kqueue_t`.  The fields that index `buf` stay inside the `sz` bytes that were allocated. -/
structure Kqueue where
  buf : Nat → UInt8
  sz : Nat
  head : Nat
  tail : Nat
  cnt : Nat
  sz_pos : 0 < sz
  head_lt : head < sz
  tail_lt : tail < sz
  tail_u8 : tail < 2 ^ 8
  cnt_le : cnt ≤ sz

/-- `kqueue_init`: `hdr` and `mem` are the outcomes of the two `malloc` calls. -/
def kqueueInit (hdr : Bool) (mem : Option (Nat → UInt8)) (maxsz : Nat) : Option Kqueue :=
  if h : maxsz = 0 then none
  else
    match hdr, mem with
    | true, some buf =>
      some { buf, sz := maxsz, head := 0, tail := 0, cnt := 0,
             sz_pos := Nat.pos_of_ne_zero h, head_lt := Nat.pos_of_ne_zero h,
             tail_lt := Nat.pos_of_ne_zero h, tail_u8 := by decide, cnt_le := Nat.zero_le _ }
    | _, _ => none

theorem kqueueInit_eq_some {maxsz : Nat} (hpos : 1 ≤ maxsz) (buf : Nat → UInt8) :
    ∃ q, kqueueInit true (some buf) maxsz = some q ∧
      q.sz = maxsz ∧ q.head = 0 ∧ q.tail = 0 ∧ q.cnt = 0 := by
  rw [kqueueInit, dif_neg (by omega)]
  exact ⟨_, rfl, rfl, rfl, rfl, rfl⟩

namespace Kqueue

/-- Body of the loop in `kqueue_enqueue`. -/
def put (q : Kqueue) (b : UInt8) : Kqueue :=
  { q with
    buf := Function.update q.buf q.head b
    head := (q.head + 1) % q.sz
    head_lt := Nat.mod_lt _ q.sz_pos }

def putAll (q : Kqueue) (bs : List UInt8) : Kqueue := bs.foldl put q

/-- Index update of the loop in `kqueue_dequeue`; the field is a `u8`. -/
def advance (q : Kqueue) : Kqueue :=
  { q with
    tail := (q.tail + 1) % q.sz % 2 ^ 8
    tail_lt := lt_of_le_of_lt (Nat.mod_le _ _) (Nat.mod_lt _ q.sz_pos)
    tail_u8 := Nat.mod_lt _ (by decide) }

/-- The loop of `kqueue_dequeue`: the bytes stored through `data`, and the queue. -/
def getAll (q : Kqueue) : Nat → List UInt8 × Kqueue
  | 0 => ([], q)
  | n + 1 => (q.buf q.tail :: (q.advance.getAll n).1, (q.advance.getAll n).2)

@[simp] theorem putAll_frame (q : Kqueue) (bs : List UInt8) : (q.putAll bs).cnt = q.cnt ∧
    (q.putAll bs).sz = q.sz ∧ (q.putAll bs).tail = q.tail := by
  induction bs generalizing q with
  | nil => exact ⟨rfl, rfl, rfl⟩
  | cons b bs ih => exact ih (q.put b)

@[simp] theorem getAll_frame (q : Kqueue) (n : Nat) : (q.getAll n).2.cnt = q.cnt ∧
    (q.getAll n).2.sz = q.sz ∧ (q.getAll n).2.buf = q.buf ∧ (q.getAll n).2.head = q.head := by
  induction n generalizing q with
  | zero => exact ⟨rfl, rfl, rfl, rfl⟩
  | succ n ih => exact ih q.advance

/-- How many of `datasz` offered bytes `kqueue_enqueue` takes. -/
def room (q : Kqueue) (datasz : Nat) : Nat :=
  if datasz < q.sz - q.cnt then datasz else q.sz - q.cnt

/-- How many of `datasz` requested bytes `kqueue_dequeue` delivers. -/
def ready (q : Kqueue) (datasz : Nat) : Nat :=
  if datasz < q.cnt then datasz else q.cnt

theorem room_eq_min (q : Kqueue) (datasz : Nat) : q.room datasz = min datasz (q.sz - q.cnt) := by
  unfold room
  split <;> omega

theorem ready_eq_min (q : Kqueue) (datasz : Nat) : q.ready datasz = min datasz q.cnt := by
  unfold ready
  split <;> omega

end Kqueue

/-- `kqueue_enqueue`: the number of bytes queued and the queue afterwards. -/
def kqueueEnqueue (queue : Option Kqueue) (data : Option (List UInt8)) : Nat × Option Kqueue :=
  match queue, data with
  | some q, some bs =>
    if bs.length = 0 then (0, some q)
    else
      let n := q.room bs.length
      let q' := q.putAll (bs.take n)
      (n, some { q' with
        cnt := q'.cnt + n
        cnt_le := by
          have hle := q.cnt_le
          simp only [q', n, Kqueue.putAll_frame, Kqueue.room_eq_min]
          omega })
  | queue, _ => (0, queue)

/-- `kqueue_dequeue`: the bytes put into the caller's buffer and the queue afterwards. -/
def kqueueDequeue (queue : Option Kqueue) (data : Bool) (datasz : Nat) :
    List UInt8 × Option Kqueue :=
  match queue, data with
  | some q, true =>
    if datasz = 0 then ([], some q)
    else
      let n := q.ready datasz
      let q' := (q.getAll n).2
      ((q.getAll n).1, some { q' with
        cnt := q'.cnt - n
        cnt_le := le_trans (Nat.sub_le _ _) q'.cnt_le })
  | queue, _ => ([], queue)

/-- `kqueue_queued`. -/
def kqueueQueued (queue : Option Kqueue) : Nat :=
  match queue with
  | some q => q.cnt
  | none => 0

/-! ## Runs -/

/-- A call by a user of the queue; a null `data` pointer is `none`, respectively `false`. -/
inductive KqueueOp
  | enqueue (data : Option (List UInt8))
  | dequeue (data : Bool) (datasz : Nat)

/-- A queue together with all bytes `kqueue_enqueue` accepted and `kqueue_dequeue` delivered. -/
structure KqueueRun where
  queue : Option Kqueue
  accepted : List UInt8
  dequeued : List UInt8

open KqueueRun

def KqueueRun.step (r : KqueueRun) : KqueueOp → KqueueRun
  | .enqueue data =>
    let (n, queue) := kqueueEnqueue r.queue data
    { r with queue, accepted := r.accepted ++ (data.getD []).take n }
  | .dequeue data datasz =>
    let (bs, queue) := kqueueDequeue r.queue data datasz
    { r with queue, dequeued := r.dequeued ++ bs }

def kqueueRun (queue : Option Kqueue) (ops : List KqueueOp) : KqueueRun :=
  ops.foldl step ⟨queue, [], []⟩

/-- The bounded-FIFO contract of a queue of capacity `sz` after some calls. -/
structure KqueueRun.IsFifo (sz : Nat) (r : KqueueRun) : Prop where
  ordered : r.dequeued <+: r.accepted
  queued : kqueueQueued r.queue = r.accepted.length - r.dequeued.length
  bounded : kqueueQueued r.queue ≤ sz

/-! ## The queue up to 256 bytes refines the abstract FIFO -/

namespace Kqueue

/-- The bytes between `tail` and `head`, oldest first. -/
def contents (q : Kqueue) : List UInt8 := window q.buf q.sz q.tail q.cnt

/-- `head` is where the byte after the last queued one goes. -/
def Synced (q : Kqueue) : Prop := q.head = (q.tail + q.cnt) % q.sz

/-- Loop invariant of `kqueue_enqueue`: after `c` bytes, `head` is `c` cells past `tail`. -/
theorem putAll_spec (q : Kqueue) (bs : List UInt8) (c : Nat)
    (hhead : q.head = (q.tail + c) % q.sz) (hfit : c + bs.length ≤ q.sz) :
    window (q.putAll bs).buf q.sz q.tail (c + bs.length) = window q.buf q.sz q.tail c ++ bs ∧
      (q.putAll bs).head = (q.tail + (c + bs.length)) % q.sz := by
  induction bs generalizing q c with
  | nil => exact ⟨(append_nil _).symm, hhead⟩
  | cons b bs ih =>
    rw [length_cons] at hfit
    have hnext : (q.put b).head = ((q.put b).tail + (c + 1)) % (q.put b).sz := by
      change (q.head + 1) % q.sz = (q.tail + (c + 1)) % q.sz
      rw [hhead, Nat.mod_add_mod, Nat.add_assoc]
    obtain ⟨hwin, hh⟩ := ih (q.put b) (c + 1) hnext (by change c + 1 + bs.length ≤ q.sz; omega)
    have hlen : c + 1 + bs.length = c + (b :: bs).length := by rw [length_cons]; omega
    rw [hlen] at hwin hh
    refine ⟨?_, hh⟩
    have hpush : window (q.put b).buf q.sz q.tail (c + 1) = window q.buf q.sz q.tail c ++ [b] := by
      change window (Function.update q.buf q.head b) q.sz q.tail (c + 1) = _
      rw [hhead, window_push _ _ _ _ _ (by omega)]
    change window (((q.put b).putAll bs)).buf q.sz q.tail _ = _ at hwin
    change window (((q.put b).putAll bs)).buf q.sz q.tail _ = _
    rw [hwin]
    change window (q.put b).buf q.sz q.tail (c + 1) ++ bs = _
    rw [hpush, append_assoc]
    rfl

theorem advance_tail_of_le (q : Kqueue) (hsz : q.sz ≤ 256) :
    q.advance.tail = (q.tail + 1) % q.sz := by
  have hlt := Nat.mod_lt (q.tail + 1) q.sz_pos
  exact Nat.mod_eq_of_lt (by omega)

/-- Loop invariant of `kqueue_dequeue` when the 8-bit `tail` can address the whole buffer. -/
theorem getAll_spec (q : Kqueue) (n : Nat) (hsz : q.sz ≤ 256) :
    (q.getAll n).1 = window q.buf q.sz q.tail n ∧ (q.getAll n).2.tail = (q.tail + n) % q.sz := by
  induction n generalizing q with
  | zero => exact ⟨rfl, (Nat.mod_eq_of_lt q.tail_lt).symm⟩
  | succ n ih =>
    obtain ⟨hbytes, htail⟩ := ih q.advance hsz
    rw [advance_tail_of_le q hsz] at hbytes htail
    refine ⟨?_, ?_⟩
    · rw [getAll, hbytes, window, Nat.mod_eq_of_lt q.tail_lt]
      exact congrArg _ (window_mod q.buf q.sz (q.tail + 1) n)
    · rw [getAll, htail]
      change ((q.tail + 1) % q.sz + n) % q.sz = _
      rw [Nat.mod_add_mod, Nat.add_assoc, Nat.add_comm 1 n]

end Kqueue

/-- The call on the abstract FIFO that a queue call stands for. -/
def KqueueOp.abs : KqueueOp → FifoOp UInt8
  | .enqueue data => .offer (data.getD [])
  | .dequeue data datasz => .take (if data then datasz else 0)

/-- Refinement relation between a run of the queue and the abstract FIFO. -/
structure KqueueRun.Refines (sz : Nat) (r : KqueueRun) (f : Fifo UInt8) (q : Kqueue) : Prop where
  queue : r.queue = some q
  sz_eq : q.sz = sz
  synced : q.Synced
  contents : q.contents = f.contents
  accepted : r.accepted = f.accepted
  dequeued : r.dequeued = f.delivered

variable {sz : Nat} {r : KqueueRun} {f : Fifo UInt8} {q : Kqueue}

theorem KqueueRun.Refines.enqueue (h : r.Refines sz f q) (data : Option (List UInt8)) :
    ∃ q', (r.step (.enqueue data)).Refines sz (f.step sz (KqueueOp.enqueue data).abs) q' := by
  obtain ⟨rq, accepted, dequeued⟩ := r
  obtain rfl : rq = some q := h.queue
  have hlen : f.contents.length = q.cnt := by rw [← h.contents, Kqueue.contents, window_length]
  cases data with
  | none => exact ⟨q, by
      refine ⟨rfl, h.sz_eq, h.synced, ?_, ?_, h.dequeued⟩ <;>
        simp [step, kqueueEnqueue, KqueueOp.abs, Fifo.step, h.contents, h.accepted]⟩
  | some bs =>
    by_cases hbs : bs.length = 0
    · obtain rfl := length_eq_zero_iff.mp hbs
      exact ⟨q, by
        refine ⟨rfl, h.sz_eq, h.synced, ?_, ?_, h.dequeued⟩ <;>
          simp [step, kqueueEnqueue, KqueueOp.abs, Fifo.step, h.contents, h.accepted]⟩
    · have hfit := q.cnt_le
      have hnew : (bs.take (q.room bs.length)).length = q.room bs.length := by
        rw [length_take, Kqueue.room_eq_min]
        omega
      have htake : bs.take (q.room bs.length) = bs.take (sz - q.cnt) := by
        rw [Kqueue.room_eq_min, h.sz_eq, take_eq_take_iff]
        omega
      obtain ⟨hwin, hhead⟩ := q.putAll_spec (bs.take (q.room bs.length)) q.cnt h.synced (by
        rw [hnew, Kqueue.room_eq_min]
        omega)
      rw [hnew] at hwin hhead
      simp only [step, kqueueEnqueue, if_neg hbs]
      refine ⟨_, ⟨rfl, ?_, ?_, ?_, ?_, h.dequeued⟩⟩
      · simpa using h.sz_eq
      · simpa [Kqueue.Synced] using hhead
      · simp only [KqueueOp.abs, Fifo.step, Option.getD_some, hlen, ← htake]
        rw [← h.contents]
        simpa [Kqueue.contents] using hwin
      · simp only [KqueueOp.abs, Fifo.step, Option.getD_some, hlen, ← htake]
        exact congrArg (· ++ _) h.accepted

theorem KqueueRun.Refines.dequeue (h : r.Refines sz f q) (hsz : sz ≤ 256) (data : Bool)
    (datasz : Nat) : ∃ q', (r.step (.dequeue data datasz)).Refines sz
      (f.step sz (KqueueOp.dequeue data datasz).abs) q' := by
  obtain ⟨rq, accepted, dequeued⟩ := r
  obtain rfl : rq = some q := h.queue
  by_cases hnop : data = false ∨ datasz = 0
  · -- a null buffer or an empty request returns before the loop
    have hstep : (KqueueRun.mk (some q) accepted dequeued).step (.dequeue data datasz) =
        ⟨some q, accepted, dequeued⟩ := by
      obtain rfl | rfl := hnop
      · simp [step, kqueueDequeue]
      · cases data <;> simp [step, kqueueDequeue]
    have habs : f.step sz (KqueueOp.dequeue data datasz).abs = f := by
      obtain rfl | rfl := hnop <;> simp [KqueueOp.abs, Fifo.step]
    rw [hstep, habs]
    exact ⟨q, h⟩
  · obtain ⟨rfl, hpos⟩ : data = true ∧ datasz ≠ 0 := by simpa using hnop
    obtain ⟨hbytes, htail⟩ := q.getAll_spec (q.ready datasz) (by rw [h.sz_eq]; exact hsz)
    have hready : q.ready datasz ≤ q.cnt := by rw [Kqueue.ready_eq_min]; omega
    have htake : f.contents.take datasz = window q.buf q.sz q.tail (q.ready datasz) := by
      rw [← window_take _ _ _ _ _ hready, ← h.contents, Kqueue.contents, Kqueue.ready_eq_min,
        take_eq_take_iff, window_length]
      omega
    have hdrop : f.contents.drop datasz =
        window q.buf q.sz (q.tail + q.ready datasz) (q.cnt - q.ready datasz) := by
      rw [← window_drop _ _ _ _ _ hready, ← h.contents, Kqueue.contents, Kqueue.ready_eq_min,
        drop_eq_drop_iff, window_length]
      omega
    simp only [step, kqueueDequeue, if_neg hpos]
    refine ⟨_, ⟨rfl, ?_, ?_, ?_, h.accepted, ?_⟩⟩
    · simpa using h.sz_eq
    · have hsync := h.synced
      simp only [Kqueue.Synced, Kqueue.getAll_frame, htail] at hsync ⊢
      rw [hsync, Nat.mod_add_mod]
      congr 1
      omega
    · simp only [KqueueOp.abs, Fifo.step, if_true, hdrop, Kqueue.contents,
        Kqueue.getAll_frame, htail, window_mod]
    · simp only [KqueueOp.abs, Fifo.step, if_true, htake, hbytes]
      exact congrArg (· ++ _) h.dequeued

theorem KqueueRun.Refines.step (h : r.Refines sz f q) (hsz : sz ≤ 256) (op : KqueueOp) :
    ∃ q', (r.step op).Refines sz (f.step sz op.abs) q' := by
  cases op with
  | enqueue data => exact h.enqueue data
  | dequeue data datasz => exact h.dequeue hsz data datasz

theorem KqueueRun.Refines.isFifo (h : r.Refines sz f q) (hf : f.Conserved sz) : r.IsFifo sz := by
  have hlen : f.contents.length = q.cnt := by rw [← h.contents, Kqueue.contents, window_length]
  have hhist := congrArg List.length hf.history
  rw [length_append] at hhist
  refine ⟨?_, ?_, ?_⟩
  · rw [h.accepted, h.dequeued]
    exact ⟨f.contents, hf.history⟩
  · rw [h.queue, h.accepted, h.dequeued, kqueueQueued]
    omega
  · rw [h.queue, ← h.sz_eq]
    exact q.cnt_le

/-- Every run of a queue of at most 256 bytes follows a run of the abstract FIFO. -/
theorem kqueueRun_refines (hsz : sz ≤ 256) (ops : List KqueueOp) (h : r.Refines sz f q) :
    ∃ q', (ops.foldl step r).Refines sz ((ops.map KqueueOp.abs).foldl (Fifo.step sz) f) q' := by
  induction ops generalizing r f q with
  | nil => exact ⟨q, h⟩
  | cons op ops ih =>
    obtain ⟨q', h'⟩ := h.step hsz op
    exact ih h'

theorem kqueueRun_isFifo_of_le (hpos : 1 ≤ sz) (hsz : sz ≤ 256) (hdr : Bool)
    (mem : Option (Nat → UInt8)) (ops : List KqueueOp) :
    (kqueueRun (kqueueInit hdr mem sz) ops).IsFifo sz := by
  by_cases hq : ∃ buf, hdr = true ∧ mem = some buf
  · obtain ⟨buf, rfl, rfl⟩ := hq
    obtain ⟨q, hq, hqsz, hhead, htail, hcnt⟩ := kqueueInit_eq_some hpos buf
    have hstart : (mk (some q) [] []).Refines sz Fifo.empty q := by
      refine ⟨rfl, hqsz, ?_, ?_, rfl, rfl⟩
      · rw [Kqueue.Synced, hhead, htail, hcnt, Nat.zero_mod]
      · rw [Kqueue.contents, hcnt]
        rfl
    rw [hq]
    obtain ⟨q', h⟩ := kqueueRun_refines hsz ops hstart
    exact h.isFifo (Fifo.run_conserved sz (ops.map KqueueOp.abs))
  · -- with either `malloc` failing there is no queue, and every call returns 0
    have hnone : kqueueInit hdr mem sz = none := by
      rw [kqueueInit, dif_neg (by omega)]
      match hdr, mem with
      | true, some buf => exact absurd ⟨buf, rfl, rfl⟩ hq
      | true, none => rfl
      | false, some _ => rfl
      | false, none => rfl
    have hrun : kqueueRun none ops = ⟨none, [], []⟩ := by
      rw [kqueueRun]
      induction ops with
      | nil => rfl
      | cons op ops ih =>
        have hop : (mk none [] []).step op = ⟨none, [], []⟩ := by
          cases op <;> simp [step, kqueueEnqueue, kqueueDequeue]
        rw [foldl_cons, hop, ih]
    rw [hnone, hrun]
    exact ⟨⟨_, rfl⟩, rfl, Nat.zero_le _⟩

/-! ## Beyond 256 bytes the 8-bit tail wraps early -/

namespace Kqueue

theorem getAll_eq_of_gt (q : Kqueue) (n : Nat) (hsz : 256 < q.sz) :
    (q.getAll n).1 = window q.buf 256 q.tail n := by
  induction n generalizing q with
  | zero => rfl
  | succ n ih =>
    have hlt := q.tail_u8
    have htail : q.advance.tail = (q.tail + 1) % 256 := by
      change (q.tail + 1) % q.sz % 256 = _
      rw [Nat.mod_eq_of_lt (by omega : q.tail + 1 < q.sz)]
    have hself : q.tail % 256 = q.tail := Nat.mod_eq_of_lt hlt
    rw [getAll, ih q.advance hsz, htail, window, hself]
    exact congrArg _ (window_mod q.buf 256 (q.tail + 1) n)

end Kqueue

/-- Queue some bytes and read as many back. -/
def roundTrip (bs : List UInt8) : List KqueueOp :=
  [.enqueue (some bs), .dequeue true bs.length]

theorem kqueueRun_roundTrip (hsz : 256 < q.sz) (hcnt : q.cnt = 0) {bs : List UInt8}
    (hpos : bs.length ≠ 0) (hfit : bs.length ≤ q.sz) :
    (kqueueRun (some q) (roundTrip bs)).accepted = bs ∧
      (kqueueRun (some q) (roundTrip bs)).dequeued =
        window (q.putAll bs).buf 256 q.tail bs.length := by
  have hroom : q.room bs.length = bs.length := by
    rw [Kqueue.room_eq_min]
    omega
  simp only [kqueueRun, roundTrip, foldl_cons, foldl_nil, step, kqueueEnqueue,
    kqueueDequeue, hroom, take_length, Option.getD_some, nil_append, if_neg hpos]
  refine ⟨trivial, ?_⟩
  rw [Kqueue.getAll_eq_of_gt _ _ (by simpa using hsz), Kqueue.ready_eq_min]
  simp [hcnt]

/-- A zero byte 256 times, then a one: the shortest data the wrapped tail gets wrong. -/
def wrapBytes : List UInt8 := List.replicate 256 0 ++ [1]

theorem wrapBytes_length : wrapBytes.length = 257 := by
  rw [wrapBytes, length_append, length_replicate, length_singleton]

theorem wrapBytes_not_ordered (hsz : 256 < sz) (mem : Nat → UInt8) :
    ¬ (kqueueRun (kqueueInit true (some mem) sz) (roundTrip wrapBytes)).dequeued <+:
      (kqueueRun (kqueueInit true (some mem) sz) (roundTrip wrapBytes)).accepted := by
  obtain ⟨q, hq, hqsz, hhead, htail, hcnt⟩ := kqueueInit_eq_some (by omega : 1 ≤ sz) mem
  have hlen := wrapBytes_length
  obtain ⟨hacc, hdeq⟩ := kqueueRun_roundTrip (by omega : 256 < q.sz) hcnt
    (by omega : wrapBytes.length ≠ 0) (by omega)
  rw [hq, hacc, hdeq, hlen, htail]
  intro hpre
  have heq := hpre.eq_of_length (by rw [window_length, hlen])
  -- the last byte delivered is cell 256 modulo 256, a zero, and not the final one
  rw [window_succ, wrapBytes] at heq
  have hlast := (append_inj' heq rfl).2
  have hcell : (q.putAll wrapBytes).buf 0 = 0 := by
    have hwin := (q.putAll_spec wrapBytes 0 (by rw [hhead, htail, Nat.zero_mod]) (by omega)).1
    rw [hlen, htail] at hwin
    exact (congrArg _ (Nat.zero_mod q.sz).symm).trans (cons.inj hwin).1
  rw [← wrapBytes, hcell] at hlast
  exact absurd hlast (by decide)

theorem kqueue_isFifo_iff (sz : Nat) (hpos : 1 ≤ sz) :
    (∀ hdr mem ops, (kqueueRun (kqueueInit hdr mem sz) ops).IsFifo sz) ↔ sz ≤ 256 := by
  constructor
  · intro h
    by_contra hgt
    exact wrapBytes_not_ordered (by omega) (fun _ => 0)
      (h true (some fun _ => 0) (roundTrip wrapBytes)).ordered
  · exact fun hsz hdr mem ops => kqueueRun_isFifo_of_le hpos hsz hdr mem ops

theorem kqueue_isFifo_iff_at_256 : 1 ≤ 256 ∧
    ((∀ hdr mem ops, (kqueueRun (kqueueInit hdr mem 256) ops).IsFifo 256) ↔ 256 ≤ 256) :=
  ⟨by decide, kqueue_isFifo_iff 256 (by decide)⟩

/-- The keyboard queues hold 512 bytes. -/
theorem kbd_queue_not_fifo :
    ¬ (kqueueRun (kqueueInit true (some fun _ => 0) 512) (roundTrip wrapBytes)).IsFifo 512 :=
  fun h => wrapBytes_not_ordered (by decide) (fun _ => 0) h.ordered

end Kern
