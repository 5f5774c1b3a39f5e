import RandomOs.Libc.Stdio

/-!
# Buffered output

The bytes a program puts into a write-only stream are those the system has accepted followed by
those in the buffer, until a flush fails after a part of the buffer was accepted.  `fflush` then
leaves the whole buffer in place, and the next flush sends the accepted part again.
-/

namespace Libc

open Lib (Bytes Reach)
open Lib.Bytes List

/-- Any system whose `write` accepts the first bytes of what it is given, with what it has
accepted so far. -/
structure Sink (ω : Type) extends Sys ω where
  accepted : ω → List UInt8
  write_le : ∀ w bs, (write w bs).1 ≤ bs.length
  accepted_write : ∀ w bs, accepted (write w bs).2 = accepted w ++ bs.take (write w bs).1.toNat

variable {ω : Type} {sink : Sink ω} {put : List UInt8} {f : File} {w : ω}

/-- `put` is what was accepted, then the buffer from its byte `m` on. -/
def Waits (sink : Sink ω) (put : List UInt8) (m : Nat) (f : File) (w : ω) : Prop :=
  m ≤ f.bufpos ∧ f.bufpos ≤ FILE_BUFSZ ∧ f.canWrite = true ∧
    put = sink.accepted w ++ slice f.buf m (f.bufpos - m)

/-! ## Flushing -/

-- the bytes of the buffer are accepted in order, all of them if the loop ends
theorem fflushLoop_spec (buf : Bytes) (bufpos written : Nat) (w : ω) (h : written ≤ bufpos) :
    ∃ m, written ≤ m ∧ m ≤ bufpos ∧ sink.accepted (fflushLoop sink.toSys buf bufpos written w).2 =
        sink.accepted w ++ slice buf written (m - written) ∧
      ((fflushLoop sink.toSys buf bufpos written w).1 = true → m = bufpos) := by
  induction hk : bufpos - written using Nat.strong_induction_on generalizing written w with
  | _ k ih =>
    unfold fflushLoop
    by_cases hlt : written < bufpos
    · rw [if_pos hlt]
      have hle := sink.write_le w (slice buf written (bufpos - written))
      have hacc := sink.accepted_write w (slice buf written (bufpos - written))
      rw [length_slice] at hle
      rw [take_slice (by omega)] at hacc
      generalize sink.write w (slice buf written (bufpos - written)) = r at hle hacc
      by_cases hpos : 0 < r.1
      · rw [if_pos hpos]
        obtain ⟨m, hm1, hm2, haccm, hend⟩ :=
          ih (bufpos - (written + r.1.toNat)) (by omega) (written + r.1.toNat) r.2 (by omega) rfl
        refine ⟨m, by omega, hm2, ?_, hend⟩
        rw [haccm, hacc, append_assoc, ← slice_add]
        congr 2
        omega
      · rw [if_neg hpos]
        refine ⟨written, Nat.le_refl _, h, ?_, fun hf => nomatch hf⟩
        rw [hacc, Nat.sub_self, Int.toNat_of_nonpos (by omega)]
    · rw [if_neg hlt]
      refine ⟨written, Nat.le_refl _, h, ?_, fun _ => by omega⟩
      rw [Nat.sub_self, slice_zero, append_nil]

/-- A flush that returns 0 has sent everything; one that fails may have sent a part. -/
theorem Waits.fflush (h : Waits sink put 0 f w) :
    ((fflush sink.toSys f w).1 = 0 ∧ (fflush sink.toSys f w).2.1.bufpos = 0 ∧
        Waits sink put 0 (fflush sink.toSys f w).2.1 (fflush sink.toSys f w).2.2) ∨
      (fflush sink.toSys f w).1 = -1 ∧
        ∃ m, Waits sink put m (fflush sink.toSys f w).2.1 (fflush sink.toSys f w).2.2 := by
  obtain ⟨-, hpos, hwrite, hput⟩ := h
  obtain ⟨m, -, hm, hacc, hend⟩ := @fflushLoop_spec _ sink f.buf f.bufpos 0 w (Nat.zero_le _)
  rw [Nat.sub_zero] at hacc hput
  unfold Libc.fflush
  rw [if_pos hwrite]
  generalize fflushLoop sink.toSys f.buf f.bufpos 0 w = r at hacc hend
  obtain ⟨ok, w'⟩ := r
  cases ok with
  | true =>
    obtain rfl := hend rfl
    refine Or.inl ⟨rfl, rfl, Nat.le_refl _, Nat.zero_le _, hwrite, ?_⟩
    rw [hput]
    exact (append_nil _).symm ▸ hacc.symm
  | false =>
    refine Or.inr ⟨rfl, m, hm, hpos, hwrite, ?_⟩
    rw [hput, hacc, append_assoc]
    congr 1
    have hsplit := slice_add (m := f.buf) (a := 0) (k := m) (n := f.bufpos - m)
    rw [Nat.zero_add] at hsplit
    rw [← hsplit]
    congr 1
    omega

theorem Waits.imp_put {put put' : List UInt8} {m : Nat} (h : Waits sink put m f w)
    (heq : put = put') : Waits sink put' m f w := heq ▸ h

/-! ## Filling the buffer -/

-- `n` more bytes in a buffer that has room for them
theorem Waits.copy (h : Waits sink put 0 f w) (src : Bytes) (s : Nat) {n : Nat}
    (hn : f.bufpos + n ≤ FILE_BUFSZ) : Waits sink (put ++ slice src s n) 0
      { f with buf := copy f.buf f.bufpos src s n, bufpos := f.bufpos + n, dirty := true } w := by
  obtain ⟨-, -, hwrite, hput⟩ := h
  refine ⟨Nat.zero_le _, hn, hwrite, ?_⟩
  rw [hput, Nat.sub_zero, Nat.sub_zero, slice_copy_append, append_assoc]

/-- The loop puts what it counts, and the buffer waits as a whole if it has put everything. -/
theorem fwriteLoop_spec (src : Bytes) {total done : Nat} (hdone : done ≤ total)
    (h : Waits sink put 0 f w) :
    let r := fwriteLoop sink.toSys src total done f w
    done ≤ r.1 ∧ r.1 ≤ total ∧
      (∃ m, Waits sink (put ++ slice src done (r.1 - done)) m r.2.1 r.2.2) ∧
      (r.1 = total → Waits sink (put ++ slice src done (r.1 - done)) 0 r.2.1 r.2.2) := by
  induction hk : total - done using Nat.strong_induction_on generalizing done f w put with
  | _ k ih =>
    have hstay : put ++ slice src done (done - done) = put := by
      rw [Nat.sub_self, slice_zero, append_nil]
    unfold fwriteLoop
    by_cases hlt : done < total
    swap
    · rw [if_neg hlt]
      exact ⟨Nat.le_refl _, hdone, ⟨0, h.imp_put hstay.symm⟩, fun _ => h.imp_put hstay.symm⟩
    rw [if_pos hlt]
    dsimp only
    -- the buffer has room, or it is flushed
    have hroom : (∃ f' w', (if FILE_BUFSZ - f.bufpos = 0 then fflush sink.toSys f w
          else (0, f, w)) = (0, f', w') ∧ Waits sink put 0 f' w' ∧
            f'.bufpos + (if FILE_BUFSZ - f.bufpos = 0 then FILE_BUFSZ
              else FILE_BUFSZ - f.bufpos) ≤ FILE_BUFSZ) ∨
        ∃ f' w' m, (if FILE_BUFSZ - f.bufpos = 0 then fflush sink.toSys f w
          else (0, f, w)) = (-1, f', w') ∧ Waits sink put m f' w' := by
      by_cases hfull : FILE_BUFSZ - f.bufpos = 0
      · rw [if_pos hfull, if_pos hfull]
        rcases h.fflush with ⟨hret, hpos, hw⟩ | ⟨hret, m, hw⟩
        · refine Or.inl ⟨_, _, Prod.ext hret rfl, hw, ?_⟩
          rw [hpos, Nat.zero_add]
        · exact Or.inr ⟨_, _, m, Prod.ext hret rfl, hw⟩
      · rw [if_neg hfull, if_neg hfull]
        exact Or.inl ⟨f, w, rfl, h, by omega⟩
    have hspace : 0 < (if FILE_BUFSZ - f.bufpos = 0 then FILE_BUFSZ
        else FILE_BUFSZ - f.bufpos) := by
      split
      · decide
      · omega
    generalize (if FILE_BUFSZ - f.bufpos = 0 then FILE_BUFSZ else FILE_BUFSZ - f.bufpos) = space
      at hroom hspace ⊢
    rcases hroom with ⟨f', w', hr, hw, hfit⟩ | ⟨f', w', m, hr, hw⟩
    · rw [hr, if_neg (show ¬ (0 : Int) < 0 by decide)]
      dsimp only
      have hnext := @ih (total - (done + min (total - done) space)) (by omega)
        _ _ _ (done + min (total - done) space) (by omega)
        (hw.copy src done (n := min (total - done) space) (by omega)) rfl
      obtain ⟨hge, hle, ⟨m, hm⟩, hall⟩ := hnext
      -- the bytes of this round and those of the rest
      have hsplit : ∀ d, done + min (total - done) space ≤ d →
          put ++ slice src done (min (total - done) space) ++
              slice src (done + min (total - done) space) (d - (done + min (total - done) space)) =
            put ++ slice src done (d - done) := by
        intro d hd
        rw [append_assoc, ← slice_add]
        congr 2
        omega
      rw [hsplit _ hge] at hm hall
      exact ⟨by omega, hle, ⟨m, hm⟩, hall⟩
    · rw [hr, if_pos (show (-1 : Int) < 0 by decide)]
      refine ⟨Nat.le_refl _, hdone, ⟨m, hw.imp_put hstay.symm⟩, fun heq => ?_⟩
      exact absurd heq (by omega)

theorem Waits.fwrite (h : Waits sink put 0 f w) (src : Bytes) (sz nmemb : Nat) :
    let r := fwrite sink.toSys src sz nmemb f w
    (∃ m, Waits sink (put ++ r.put) m r.file r.world) ∧
      (1 ≤ r.ret → nmemb = 1 → sz < 2 ^ 64 → Waits sink (put ++ r.put) 0 r.file r.world) := by
  have hkeep : Waits sink (put ++ []) 0 f w := h.imp_put (append_nil _).symm
  unfold Libc.fwrite
  by_cases hz : sz = 0 ∨ nmemb = 0
  · rw [if_pos hz]
    exact ⟨⟨0, hkeep⟩, fun _ _ _ => hkeep⟩
  rw [if_neg hz, if_neg (by rw [h.2.2.1]; decide)]
  obtain ⟨-, hle, hm, hall⟩ := fwriteLoop_spec src (Nat.zero_le (sz * nmemb % 2 ^ 64)) h
  rw [Nat.sub_zero] at hm hall
  refine ⟨hm, ?_⟩
  rintro hret rfl hsz
  apply hall
  -- a full element was written
  have hone : 1 ≤ _ / sz := Int.ofNat_le.mp hret
  rw [Nat.le_div_iff_mul_le (by omega)] at hone
  omega

theorem Waits.fputc (h : Waits sink put 0 f w) (c : UInt8) :
    let r := fputc sink.toSys c f w
    ∃ m, Waits sink (put ++ r.put) m r.file r.world := by
  -- the byte in a buffer that has room for it
  have hstore : ∀ f' w', Waits sink put 0 f' w' → f'.bufpos < FILE_BUFSZ → Waits sink (put ++ [c]) 0
        { f' with buf := store f'.buf f'.bufpos [c], bufpos := f'.bufpos + 1 } w' := by
    rintro f' w' ⟨-, -, hwrite, hput⟩ hlt
    refine ⟨Nat.zero_le _, hlt, hwrite, ?_⟩
    have hold : slice (store f'.buf f'.bufpos [c]) 0 f'.bufpos = slice f'.buf 0 f'.bufpos :=
      slice_congr fun i hi => if_neg (by omega)
    rw [hput, Nat.sub_zero, Nat.sub_zero, slice_add, hold, append_assoc, Nat.zero_add]
    congr 2
    exact (@slice_store _ _ [c]).symm
  unfold Libc.fputc
  by_cases hfull : FILE_BUFSZ ≤ f.bufpos
  · rw [if_pos hfull]
    rcases h.fflush with ⟨hret, hpos, hw⟩ | ⟨hret, m, hw⟩
    · rw [if_neg (by rw [hret]; decide)]
      exact ⟨0, hstore _ _ hw (by rw [hpos]; decide)⟩
    · rw [if_pos (show _ = EOF from hret)]
      exact ⟨m, hw.imp_put (append_nil _).symm⟩
  · rw [if_neg hfull, if_neg (show (0 : Int) ≠ EOF by decide)]
    exact ⟨0, hstore f w h (by omega)⟩

theorem Waits.fputs (h : Waits sink put 0 f w) {str : List UInt8} (hstr : str.length < 2 ^ 64) :
    let r := fputs sink.toSys str f w
    ∃ m, Waits sink (put ++ r.put) m r.file r.world := by
  obtain ⟨hm, hall⟩ := h.fwrite (store zero 0 str) str.length 1
  unfold Libc.fputs
  by_cases hret : (Libc.fwrite sink.toSys (store zero 0 str) str.length 1 f w).ret < 1
  · rw [if_pos hret]
    exact hm
  · rw [if_neg hret]
    obtain ⟨⟨m, hw⟩, -⟩ := (hall (by omega) rfl hstr).fwrite (store zero 0 [10]) 1 1
    exact ⟨m, hw.imp_put (append_assoc _ _ _)⟩

/-! ## Runs -/

-- a string is shorter than the address space
inductive OutCall
  | fwrite (src : Bytes) (sz nmemb : Nat)
  | fputc (c : UInt8)
  | fputs (str : List UInt8) (hstr : str.length < 2 ^ 64)
  | fflush

def OutCall.run (sink : Sink ω) (f : File) (w : ω) : OutCall → Put ω
  | .fwrite src sz nmemb => Libc.fwrite sink.toSys src sz nmemb f w
  | .fputc c => Libc.fputc sink.toSys c f w
  | .fputs str _ => Libc.fputs sink.toSys str f w
  | .fflush =>
    let r := Libc.fflush sink.toSys f w
    ⟨r.1, [], r.2.1, r.2.2⟩

-- a stream, its system, and the bytes put into it so far
structure OutState (ω : Type) where
  file : File
  world : ω
  put : List UInt8

open OutState

def OutState.Start (sink : Sink ω) (s : OutState ω) : Prop :=
  s.file.canWrite = true ∧ s.file.canRead = false ∧ s.file.bufpos = 0 ∧
    sink.accepted s.world = [] ∧ s.put = []

def OutState.Step (sink : Sink ω) (s : OutState ω) (c : OutCall) (t : OutState ω) : Prop :=
  let r := c.run sink s.file s.world
  t = ⟨r.file, r.world, s.put ++ r.put⟩

/-- No byte in the buffer has been accepted already: no flush before has failed part way. -/
def OutState.Settled (sink : Sink ω) (s : OutState ω) (_ : OutCall) : Prop :=
  s.put.length = (sink.accepted s.world).length + s.file.bufpos

theorem OutState.Settled.waits {s : OutState ω} {c : OutCall} (hs : s.Settled sink c)
    (h : ∃ m, Waits sink s.put m s.file s.world) : Waits sink s.put 0 s.file s.world := by
  obtain ⟨m, hm, hrest⟩ := h
  have hlen := congrArg List.length hrest.2.2
  rw [length_append, length_slice] at hlen
  unfold Settled at hs
  obtain rfl : m = 0 := by omega
  exact ⟨hm, hrest⟩

theorem OutState.Step.waits {s t : OutState ω} {c : OutCall} (hst : s.Step sink c t)
    (h : Waits sink s.put 0 s.file s.world) : ∃ m, Waits sink t.put m t.file t.world := by
  subst hst
  cases c with
  | fwrite src sz nmemb => exact (h.fwrite src sz nmemb).1
  | fputc c => exact h.fputc c
  | fputs str hstr => exact h.fputs hstr
  | fflush =>
    have hkeep : s.put ++ [] = s.put := append_nil _
    rcases h.fflush with ⟨-, -, hw⟩ | ⟨-, m, hw⟩
    · exact ⟨0, hw.imp_put hkeep.symm⟩
    · exact ⟨m, hw.imp_put hkeep.symm⟩

/-- In every run of calls on a write-only stream, none made after a flush that failed part way, the
system has accepted a part of the bytes put into the stream, from the first byte on, and all of
them after an `fflush` that returns 0. -/
theorem output_in_order {ω : Type} (sink : Sink ω) (s : OutState ω)
    (hs : Reach (Start sink) (Step sink) (Settled sink) s) : sink.accepted s.world <+: s.put ∧
      (s.Settled sink .fflush → (OutCall.fflush.run sink s.file s.world).ret = 0 →
        sink.accepted (OutCall.fflush.run sink s.file s.world).world = s.put) := by
  have hinv : ∃ m, Waits sink s.put m s.file s.world := by
    apply @Reach.invariant _ _ _ _ _ (fun s => ∃ m, Waits sink s.put m s.file s.world) ?_ ?_ _ hs
    · rintro s ⟨hwrite, -, hpos, hacc, hput⟩
      refine ⟨0, Nat.zero_le _, by omega, hwrite, ?_⟩
      rw [hput, hacc, hpos]
      rfl
    · intro s c t h hok hst
      exact hst.waits (hok.waits h)
  constructor
  · obtain ⟨m, -, -, -, hput⟩ := hinv
    exact ⟨_, hput.symm⟩
  intro hok hret
  rcases (hok.waits hinv).fflush with ⟨-, hpos, hw⟩ | ⟨hfail, -⟩
  · have hput := hw.2.2.2
    rw [hpos] at hput
    rw [hput]
    exact (append_nil _).symm
  · exact absurd (hret.symm.trans hfail) (by decide)

-- a system that gives the answers of a list, and accepts everything after that
def scripted : Sink (List Int × List UInt8) where
  read w _ := (some [], w)
  lseek w _ _ := (0, w)
  write w bs := (min (w.1.headD bs.length) bs.length,
    w.1.tail, w.2 ++ bs.take (min (w.1.headD bs.length) bs.length).toNat)
  accepted w := w.2
  write_le _ _ := Int.min_le_right _ _
  accepted_write _ _ := rfl

def OutState.after (sink : Sink ω) (s : OutState ω) (c : OutCall) : OutState ω :=
  let r := c.run sink s.file s.world
  ⟨r.file, r.world, s.put ++ r.put⟩

def outFile : File := ⟨zero, 0, 0, false, true, false, false, false, 0, 0⟩

def outStart (answers : List Int) : OutState (List Int × List UInt8) := ⟨outFile, (answers, []), []⟩

theorem outStart_start (answers : List Int) : (outStart answers).Start scripted :=
  ⟨rfl, rfl, rfl, rfl, rfl⟩

-- "ab" is put into the stream
def abPut (answers : List Int) : OutState (List Int × List UInt8) :=
  ((outStart answers).after scripted (.fputc 97)).after scripted (.fputc 98)

theorem ab_in_order : scripted.accepted ((abPut [1, 1]).after scripted .fflush).world <+:
      ((abPut [1, 1]).after scripted .fflush).put := by
  apply And.left
  apply output_in_order scripted
  apply Reach.next (s := abPut [1, 1]) (a := .fflush) ?_ rfl rfl
  apply Reach.next (s := (outStart [1, 1]).after scripted (.fputc 97)) (a := .fputc 98) ?_ rfl rfl
  apply Reach.next (s := outStart [1, 1]) (a := .fputc 97) ?_ rfl rfl
  exact .start (outStart_start _)

/-- The first byte is accepted and then the flush fails; the next flush sends it again. -/
theorem ab_sent_twice :
    ∃ s, Reach (Start scripted) (Step scripted) (fun _ _ => True) s ∧
      ¬ scripted.accepted s.world <+: s.put := by
  refine ⟨((abPut [1, -1]).after scripted .fflush).after scripted .fflush, ?_, by decide +kernel⟩
  apply Reach.next (s := (abPut [1, -1]).after scripted .fflush) (a := .fflush) ?_ rfl trivial
  apply Reach.next (s := abPut [1, -1]) (a := .fflush) ?_ rfl trivial
  apply Reach.next (s := (outStart [1, -1]).after scripted (.fputc 97)) (a := .fputc 98) ?_ rfl
    trivial
  apply Reach.next (s := outStart [1, -1]) (a := .fputc 97) ?_ rfl trivial
  exact .start (outStart_start _)

end Libc
