import RandomOs.Kern.Errno
import RandomOs.Libc.Stdio

/-!
# Reading through a stream

The logical position of a stream is that of the descriptor less the bytes read ahead.  A character
pushed back comes before the byte at that position.  `fgetc` and `fgets` know about it, `fread`,
`fseek` and `ftell` do not; `fopen` does not clear it.  In mode `r+` a flush writes the bytes read
so far to the file.
-/

namespace Libc

open Lib (Bytes Reach)
open Lib.Bytes List

/-- The offset that `lseek` of the kernel returns. -/
def lseekResult (size pos : Nat) (off : Int) (whence : Nat) : Int :=
  if whence = SEEK_SET then if off < 0 then -Kern.EINVAL else off
  else if whence = SEEK_CUR then
    if off < 0 ∧ pos + off < 0 then -Kern.EINVAL
    else if 0 < off ∧ 2 ^ 63 - 1 - off < pos then -Kern.ERANGE
    else pos + off
  else if whence = SEEK_END then
    if off < 0 ∧ size + off < 0 then -Kern.EINVAL
    else if 0 < off ∧ 2 ^ 63 - 1 - off < size then -Kern.ERANGE
    else size + off
  else -Kern.EINVAL

/-- Any system in which the descriptor is that of a file.  A read gives some of the bytes at the
position, none only at the end, or fails; `failed` counts the reads that failed. -/
structure RegFile (ω : Type) extends Sys ω where
  content : ω → List UInt8
  pos : ω → Nat
  failed : ω → Nat
  size_lt : ∀ w, (content w).length < 2 ^ 63
  pos_lt : ∀ w, pos w < 2 ^ 63
  read_content : ∀ w n, content (read w n).2 = content w
  read_none : ∀ w n, (read w n).1 = none →
    pos (read w n).2 = pos w ∧ failed (read w n).2 = failed w + 1
  read_some : ∀ w n bs, (read w n).1 = some bs →
    bs <+: (content w).drop (pos w) ∧ bs.length ≤ n ∧
      (0 < n → bs = [] → (content w).drop (pos w) = []) ∧
      pos (read w n).2 = pos w + bs.length ∧ failed (read w n).2 = failed w
  lseek_content : ∀ w off whence, content (lseek w off whence).2 = content w
  lseek_ret : ∀ w off whence, off < 2 ^ 63 →
    (lseek w off whence).1 = lseekResult (content w).length (pos w) off whence
  lseek_pos : ∀ w off whence, off < 2 ^ 63 → pos (lseek w off whence).2 =
    if (lseek w off whence).1 < 0 then pos w else (lseek w off whence).1.toNat

/-! ## What the calls mean -/

/-- The byte to be read next in the file, and the character before it. -/
structure Cursor where
  pos : Nat
  back : Option UInt8

namespace Cursor

/-- What reading from here on delivers. -/
def ahead (c : List UInt8) (i : Cursor) : List UInt8 := i.back.toList ++ c.drop i.pos

def read (i : Cursor) (k : Nat) : Cursor :=
  if k = 0 then i else ⟨i.pos + (k - i.back.toList.length), none⟩

def tell (i : Cursor) : Int := (i.pos : Int) - i.back.toList.length

def target (c : List UInt8) (i : Cursor) (off : Int) (whence : Nat) : Option Int :=
  (if whence = SEEK_SET then some off
  else if whence = SEEK_CUR then some (i.tell + off)
  else if whence = SEEK_END then some (c.length + off)
  else none).filter fun t => 0 ≤ t ∧ t < 2 ^ 63

end Cursor

-- `offset` is a `long`
inductive InCall
  | fread (sz nmemb : Nat)
  | fgetc
  | fgets (n : Int)
  | ungetc (c : Int)
  | fseek (offset : Int) (whence : Nat) (h : -2 ^ 63 ≤ offset ∧ offset < 2 ^ 63)
  | ftell
  | fflush
  | fclose

/-- The stream moves over the bytes a call delivers. -/
def InCall.moves (c : List UInt8) (i : Cursor) (ret : Int) (got : List UInt8) : InCall → Cursor
  | .fread _ _ | .fgetc | .fgets _ => i.read got.length
  | .ungetc ch => if ret = EOF then i else { i with back := some (UInt8.ofInt ch) }
  | .fseek off whence _ => if ret = 0 then ⟨((i.target c off whence).getD 0).toNat, none⟩ else i
  | .ftell | .fflush | .fclose => i

/-- What a call has to return and deliver at a cursor; `ok` if no read has failed in it. -/
def InCall.Faithful (c : List UInt8) (i : Cursor) (ok : Prop) (ret : Int) (got : List UInt8) :
    InCall → Prop
  | .fread sz nmemb =>
    got <+: i.ahead c ∧ ret = (got.length / sz : Nat) ∧ got.length ≤ sz * nmemb % 2 ^ 64 ∧
      (ok → got.length = sz * nmemb % 2 ^ 64 ∨ got = i.ahead c)
  | .fgetc =>
    (got = [] ∧ ret = EOF ∧ (ok → i.ahead c = [])) ∨
      ∃ b, got = [b] ∧ ret = b.toNat ∧ [b] <+: i.ahead c
  | .fgets n =>
    got <+: i.ahead c ∧ got.length ≤ (n - 1).toNat ∧ 10 ∉ got.dropLast ∧
      (ret = 0 ↔ n ≤ 0 ∨ 1 < n ∧ got = []) ∧
      (ok → got.length = (n - 1).toNat ∨ got.getLast? = some 10 ∨ got = i.ahead c)
  | .ungetc ch => got = [] ∧ ret = if ch = EOF ∨ i.back.isSome then EOF else ch % 256
  | .fseek off whence _ => got = [] ∧ ret = if (i.target c off whence).isSome then 0 else -1
  | .ftell => got = [] ∧ ret = i.tell
  | .fflush | .fclose => got = []

/-! ## The buffer and the file -/

section Buffer

variable {ω : Type} {reg : RegFile ω} {c : List UInt8} {p : Nat} {f : File} {w : ω}

/-- The buffer holds the bytes of the file from the logical position `p` to that of the
descriptor. -/
structure Synced (reg : RegFile ω) (c : List UInt8) (p : Nat) (f : File) (w : ω) : Prop where
  content : reg.content w = c
  canRead : f.canRead = true
  pos_le : f.bufpos ≤ f.buflen
  len_le : f.buflen ≤ FILE_BUFSZ
  pos : p + (f.buflen - f.bufpos) = reg.pos w
  buf : slice f.buf f.bufpos (f.buflen - f.bufpos) <+: c.drop p

-- the next `n` bytes of the buffer
theorem Synced.advance (h : Synced reg c p f w) {n : Nat} (hn : n ≤ f.buflen - f.bufpos) :
    slice f.buf f.bufpos n <+: c.drop p ∧
      Synced reg c (p + n) { f with bufpos := f.bufpos + n } w := by
  obtain ⟨hc, hr, hle, hlen, hpos, hbuf⟩ := h
  have hsplit : slice f.buf f.bufpos (f.buflen - f.bufpos) =
      slice f.buf f.bufpos n ++ slice f.buf (f.bufpos + n) (f.buflen - f.bufpos - n) := by
    rw [← slice_add, Nat.add_sub_cancel' hn]
  have hfst : slice f.buf f.bufpos n <+: c.drop p := by
    rw [hsplit] at hbuf
    exact (prefix_append _ _).trans hbuf
  refine ⟨hfst, hc, hr, by dsimp only; omega, hlen, by dsimp only; omega, ?_⟩
  obtain ⟨t, ht⟩ := hbuf
  rw [Nat.sub_add_eq, ← drop_drop, ← ht, hsplit, append_assoc, drop_left' length_slice]
  exact prefix_append _ _

-- an empty buffer is filled from the position of the descriptor
theorem Synced.fill (h : Synced reg c p f w) (hempty : f.bufpos = f.buflen) {bs : List UInt8}
    (hread : (reg.read w FILE_BUFSZ).1 = some bs) :
    Synced reg c p { f with buf := store f.buf 0 bs, bufpos := 0, buflen := bs.length }
      (reg.read w FILE_BUFSZ).2 := by
  obtain ⟨hc, hr, hle, hlen, hpos, hbuf⟩ := h
  obtain ⟨hpre, hmost, -, hpos', -⟩ := reg.read_some w _ bs hread
  have hp : p = reg.pos w := by omega
  refine ⟨?_, hr, Nat.zero_le _, hmost, ?_, ?_⟩
  · rw [reg.read_content, hc]
  · change p + (bs.length - 0) = _
    rw [hpos', hp, Nat.sub_zero]
  · change slice (store f.buf 0 bs) 0 (bs.length - 0) <+: c.drop p
    rw [Nat.sub_zero, slice_store, hp, ← hc]
    exact hpre

-- a read that gives nothing leaves the buffer as it is
theorem Synced.empty (h : Synced reg c p f w) (hempty : f.bufpos = f.buflen)
    (hread : (reg.read w FILE_BUFSZ).1 = none ∨ (reg.read w FILE_BUFSZ).1 = some []) :
    Synced reg c p f (reg.read w FILE_BUFSZ).2 ∧
      (reg.failed (reg.read w FILE_BUFSZ).2 = reg.failed w → c.drop p = []) := by
  obtain ⟨hc, hr, hle, hlen, hpos, hbuf⟩ := h
  rcases hread with hnone | hsome
  · obtain ⟨hpos', hfailed⟩ := reg.read_none w _ hnone
    refine ⟨⟨by rw [reg.read_content, hc], hr, hle, hlen, by rw [hpos', hpos], hbuf⟩, ?_⟩
    intro hsame
    omega
  · obtain ⟨-, -, hend, hpos', -⟩ := reg.read_some w _ [] hsome
    refine ⟨⟨by rw [reg.read_content, hc], hr, hle, hlen, by rw [hpos', hpos]; rfl, hbuf⟩, ?_⟩
    intro _
    have hp : p = reg.pos w := by omega
    rw [hp, ← hc]
    exact hend (by decide) rfl

-- what reading leaves alone
def Kept (f f' : File) : Prop :=
  f'.hasUngotc = f.hasUngotc ∧ f'.ungotc = f.ungotc ∧ f'.canWrite = f.canWrite

theorem Kept.trans {f f' f'' : File} (h : Kept f f') (h' : Kept f' f'') : Kept f f'' :=
  ⟨h'.1.trans h.1, h'.2.1.trans h.2.1, h'.2.2.trans h.2.2⟩

theorem Synced.flags (h : Synced reg c p f w) (eof err : Bool) :
    Synced reg c p { f with eof := eof, err := err } w := ⟨h.1, h.2, h.3, h.4, h.5, h.6⟩

/-- The buffer after a read into it once it is empty, by what the read gives. -/
def Refilled (reg : RegFile ω) (c : List UInt8) (p : Nat) (f : File) (w : ω)
    (r : Option (List UInt8) × ω) : Prop :=
  reg.failed w ≤ reg.failed r.2 ∧
    match r.1 with
    | none => Synced reg c p f r.2 ∧ (reg.failed r.2 = reg.failed w → c.drop p = [])
    | some [] => Synced reg c p f r.2 ∧ (reg.failed r.2 = reg.failed w → c.drop p = [])
    | some bs =>
      Synced reg c p { f with buf := store f.buf 0 bs, bufpos := 0, buflen := bs.length } r.2

theorem Synced.refill (h : Synced reg c p f w) (hempty : f.bufpos = f.buflen) :
    Refilled reg c p f w (reg.read w FILE_BUFSZ) := by
  unfold Refilled
  cases hread : (reg.read w FILE_BUFSZ).1 with
  | none =>
    have hfailed := (reg.read_none w _ hread).2
    exact ⟨by omega, h.empty hempty (Or.inl hread)⟩
  | some bs =>
    have hfailed := (reg.read_some w _ bs hread).2.2.2.2
    refine ⟨by omega, ?_⟩
    cases bs with
    | nil => exact h.empty hempty (Or.inr hread)
    | cons b bs => exact h.fill hempty hread

theorem Synced.freadFill (h : Synced reg c p f w) : let r := freadFill reg.toSys f w
    Synced reg c p r.2.1 r.2.2 ∧ Kept f r.2.1 ∧ reg.failed w ≤ reg.failed r.2.2 ∧
      (r.1 = true → r.2.1.bufpos < r.2.1.buflen) ∧
      (r.1 = false → reg.failed r.2.2 = reg.failed w → c.drop p = []) := by
  unfold Libc.freadFill
  by_cases hempty : f.bufpos = f.buflen
  · rw [if_pos hempty]
    have hrefill := h.refill hempty
    generalize reg.read w FILE_BUFSZ = r at hrefill
    obtain ⟨o, w'⟩ := r
    match o, hrefill with
    | none, ⟨hmono, hs, hend⟩ =>
      exact ⟨hs.flags _ _, ⟨rfl, rfl, rfl⟩, hmono, fun hf => absurd hf Bool.false_ne_true,
        fun _ => hend⟩
    | some [], ⟨hmono, hs, hend⟩ =>
      exact ⟨hs.flags _ _, ⟨rfl, rfl, rfl⟩, hmono, fun hf => absurd hf Bool.false_ne_true,
        fun _ => hend⟩
    | some (b :: bs), ⟨hmono, hs⟩ =>
      exact ⟨hs, ⟨rfl, rfl, rfl⟩, hmono, fun _ => Nat.succ_pos _, fun hf => nomatch hf⟩
  · rw [if_neg hempty]
    have hle := h.pos_le
    exact ⟨h, ⟨rfl, rfl, rfl⟩, Nat.le_refl _, fun _ => by dsimp only; omega, fun hf => nomatch hf⟩

/-- The loop delivers the bytes of the file from the position on, and stops early only at the end
of the file or where a read fails. -/
theorem Synced.freadLoop {total rounds : Nat} {dst : List UInt8} (h : Synced reg c p f w)
    (hdst : dst.length ≤ total) (hrounds : total - dst.length ≤ rounds) :
    let r := freadLoop reg.toSys total rounds dst f w
    ∃ bs, r.1 = dst ++ bs ∧ bs <+: c.drop p ∧ dst.length + bs.length ≤ total ∧
      Synced reg c (p + bs.length) r.2.1 r.2.2 ∧ Kept f r.2.1 ∧
      reg.failed w ≤ reg.failed r.2.2 ∧
      (reg.failed r.2.2 = reg.failed w → dst.length + bs.length = total ∨ bs = c.drop p) := by
  induction rounds generalizing dst f w p with
  | zero =>
    refine ⟨[], (append_nil _).symm, nil_prefix, hdst, h, ⟨rfl, rfl, rfl⟩,
      Nat.le_refl _, fun _ => Or.inl ?_⟩
    change dst.length + 0 = total
    omega
  | succ rounds ih =>
    unfold Libc.freadLoop
    by_cases hlt : dst.length < total
    swap
    · rw [if_neg hlt]
      refine ⟨[], (append_nil _).symm, nil_prefix, hdst, h, ⟨rfl, rfl, rfl⟩,
        Nat.le_refl _, fun _ => Or.inl ?_⟩
      change dst.length + 0 = total
      omega
    rw [if_pos hlt]
    obtain ⟨hs, hkept, hmono, hmore, hend⟩ := h.freadFill
    generalize Libc.freadFill reg.toSys f w = r at hs hkept hmono hmore hend
    obtain ⟨ok, f', w'⟩ := r
    cases ok with
    | false =>
      refine ⟨[], (append_nil _).symm, nil_prefix, hdst, hs, hkept, hmono, ?_⟩
      exact fun hsame => Or.inr (hend rfl hsame).symm
    | true =>
      rw [if_pos rfl]
      have hroom := hmore rfl
      dsimp only at hroom hs hkept hmono ⊢
      have hlen := hs.len_le
      unfold FILE_BUFSZ at hlen
      -- the buffer ends behind its position, and nothing wraps
      rw [show (f'.buflen + 2 ^ 64 - f'.bufpos) % 2 ^ 64 = f'.buflen - f'.bufpos by omega]
      have hn : 0 < min (total - dst.length) (f'.buflen - f'.bufpos) := by omega
      have hle : min (total - dst.length) (f'.buflen - f'.bufpos) ≤ total - dst.length :=
        Nat.min_le_left _ _
      obtain ⟨hfst, hadv⟩ := hs.advance (Nat.min_le_right (total - dst.length) _)
      generalize min (total - dst.length) (f'.buflen - f'.bufpos) = n at hn hle hfst hadv ⊢
      have hlen : (dst ++ slice f'.buf f'.bufpos n).length = dst.length + n := by
        rw [length_append, length_slice]
      obtain ⟨bs, hbs, hpre, htotal, hsync, hkept', hmono', hstop⟩ :=
        @ih (p + n) _ _ (dst ++ slice f'.buf f'.bufpos n) hadv (by omega) (by omega)
      -- the bytes of this round and those of the rest
      obtain ⟨u, hu⟩ := hfst
      have hrest : c.drop (p + n) = u := by
        rw [← drop_drop, ← hu, drop_left' length_slice]
      have hcount : (slice f'.buf f'.bufpos n ++ bs).length = n + bs.length := by
        rw [length_append, length_slice]
      rw [hrest] at hpre hstop
      rw [hlen] at htotal hstop
      refine ⟨slice f'.buf f'.bufpos n ++ bs, ?_, ?_, by omega, ?_, hkept.trans hkept',
        by omega, ?_⟩
      · rw [hbs, append_assoc]
      · rw [← hu]
        exact (prefix_append_right_inj _).mpr hpre
      · rw [hcount, ← Nat.add_assoc]
        exact hsync
      intro hsame
      rcases hstop (by omega) with hfull | hall
      · exact Or.inl (by omega)
      · right
        rw [hall, hu]

end Buffer

/-! ## Cursors -/

theorem ofInt_toNat (b : UInt8) : UInt8.ofInt (b.toNat : Int) = b := by
  have hlt := b.toNat_lt
  apply UInt8.toNat_inj.mp
  unfold UInt8.ofInt
  rw [UInt8.toNat_ofNat']
  omega

section Cursors

variable {ω : Type} {reg : RegFile ω} {c : List UInt8} {i : Cursor} {f : File} {w : ω}

theorem Cursor.ahead_read {b : UInt8} {rest : List UInt8} (h : i.ahead c = b :: rest) :
    (i.read 1).ahead c = rest := by
  obtain ⟨pos, back⟩ := i
  cases back with
  | none =>
    change c.drop pos = b :: rest at h
    change c.drop (pos + 1) = rest
    rw [← drop_drop, h]
    rfl
  | some b' =>
    exact (List.cons.inj h).2

theorem Cursor.read_read (i : Cursor) (j k : Nat) : (i.read j).read k = i.read (j + k) := by
  obtain ⟨pos, back⟩ := i
  unfold Cursor.read
  by_cases hj : j = 0
  · subst hj
    rw [if_pos rfl, Nat.zero_add]
  by_cases hk : k = 0
  · subst hk
    rw [if_pos rfl]
    rfl
  rw [if_neg hj, if_neg hk, if_neg (by omega)]
  have hback : back.toList.length ≤ 1 := by
    cases back with
    | none => exact Nat.zero_le 1
    | some b => exact Nat.le_refl 1
  simp only [Option.toList_none, length_nil, Cursor.mk.injEq, and_true]
  omega

/-- The stream stands at the cursor. -/
structure Stands (reg : RegFile ω) (c : List UInt8) (i : Cursor) (f : File) (w : ω) : Prop where
  synced : Synced reg c i.pos f w
  plain : i.back = none → f.hasUngotc = 0
  pushed : ∀ b, i.back = some b → f.hasUngotc ≠ 0 ∧ f.ungotc = b.toNat

theorem Stands.of_none {p : Nat} (h : Synced reg c p f w) (hhas : f.hasUngotc = 0) :
    Stands reg c ⟨p, none⟩ f w := ⟨h, fun _ => hhas, fun _ hb => nomatch hb⟩

-- the byte at the position of the buffer
theorem Synced.next {p : Nat} (h : Synced reg c p f w) (hlt : f.bufpos < f.buflen) :
    ∃ rest, c.drop p = f.buf f.bufpos :: rest ∧
      Synced reg c (p + 1) { f with bufpos := f.bufpos + 1 } w := by
  obtain ⟨⟨rest, hrest⟩, hadv⟩ := h.advance (n := 1) (by omega)
  exact ⟨rest, hrest.symm, hadv⟩

theorem Stands.fgetc (h : Stands reg c i f w) : let r := fgetc reg.toSys f w
    reg.failed w ≤ reg.failed r.2.2 ∧ r.2.1.canWrite = f.canWrite ∧
      ((r.1 = EOF ∧ Stands reg c i r.2.1 r.2.2 ∧
          (reg.failed r.2.2 = reg.failed w → i.ahead c = [])) ∨
        ∃ b rest, i.ahead c = b :: rest ∧ r.1 = b.toNat ∧ Stands reg c (i.read 1) r.2.1 r.2.2) := by
  obtain ⟨hs, hplain, hpushed⟩ := h
  obtain ⟨pos, back⟩ := i
  unfold Libc.fgetc
  cases back with
  | some b =>
    obtain ⟨hhas, hval⟩ := hpushed b rfl
    rw [if_pos hhas]
    refine ⟨Nat.le_refl _, rfl, Or.inr ⟨b, c.drop pos, rfl, hval, .of_none ?_ rfl⟩⟩
    exact ⟨hs.1, hs.2, hs.3, hs.4, hs.5, hs.6⟩
  | none =>
    have hhas := hplain rfl
    have hle := hs.pos_le
    rw [if_neg (not_not.mpr hhas)]
    by_cases hempty : f.buflen ≤ f.bufpos
    · rw [if_pos hempty]
      have hrefill := hs.refill (by omega)
      generalize reg.read w FILE_BUFSZ = r at hrefill
      obtain ⟨o, w'⟩ := r
      match o, hrefill with
      | none, ⟨hmono, hs', hend⟩ =>
        exact ⟨hmono, rfl, Or.inl ⟨rfl, .of_none hs' hhas, hend⟩⟩
      | some [], ⟨hmono, hs', hend⟩ =>
        exact ⟨hmono, rfl, Or.inl ⟨rfl, .of_none hs' hhas, hend⟩⟩
      | some (b :: bs), ⟨hmono, hs'⟩ =>
        obtain ⟨rest, hrest, hadv⟩ := hs'.next (Nat.succ_pos _)
        exact ⟨hmono, rfl, Or.inr ⟨b, rest, hrest, rfl, .of_none hadv hhas⟩⟩
    · rw [if_neg hempty]
      obtain ⟨rest, hrest, hadv⟩ := hs.next (by omega)
      exact ⟨Nat.le_refl _, rfl, Or.inr ⟨_, rest, hrest, rfl, .of_none hadv hhas⟩⟩

theorem Stands.fgetsLoop (k : Nat) {p : List UInt8} (h : Stands reg c i f w) (hp : 10 ∉ p) :
    let r := fgetsLoop reg.toSys k p f w
    ∃ bs, bs <+: i.ahead c ∧ bs.length ≤ k ∧ 10 ∉ bs.dropLast ∧
      r.1 = (if 0 < k ∧ p ++ bs = [] then none else some (p ++ bs)) ∧
      Stands reg c (i.read bs.length) r.2.1 r.2.2 ∧ r.2.1.canWrite = f.canWrite ∧
      reg.failed w ≤ reg.failed r.2.2 ∧
      (reg.failed r.2.2 = reg.failed w →
        bs.length = k ∨ bs.getLast? = some 10 ∨ bs = i.ahead c) := by
  induction k generalizing p i f w with
  | zero =>
    refine ⟨[], nil_prefix, Nat.le_refl _, not_mem_nil, ?_, h, rfl, Nat.le_refl _,
      fun _ => Or.inl rfl⟩
    rw [if_neg (by omega), append_nil]
    rfl
  | succ k ih =>
    unfold Libc.fgetsLoop
    obtain ⟨hmono, hwrite, hcase⟩ := h.fgetc
    generalize Libc.fgetc reg.toSys f w = r at hmono hwrite hcase
    obtain ⟨ret, f', w'⟩ := r
    rcases hcase with ⟨rfl, hs, hend⟩ | ⟨b, rest, hahead, rfl, hs⟩
    · rw [if_pos rfl]
      refine ⟨[], nil_prefix, Nat.zero_le _, not_mem_nil, ?_, hs, hwrite, hmono,
        fun hsame => Or.inr (Or.inr (hend hsame).symm)⟩
      rw [append_nil]
      simp
    · have hne : ((b.toNat : Int)) ≠ EOF := by
        unfold EOF
        omega
      have hbyte : UInt8.ofInt (b.toNat : Int) = b := ofInt_toNat b
      rw [if_neg hne, hbyte]
      by_cases hnl : ((b.toNat : Int)) = 10
      · rw [if_pos hnl]
        obtain rfl : b = 10 := UInt8.toNat_inj.mp (Int.ofNat.inj hnl)
        refine ⟨[10], ?_, by rw [length_singleton]; omega, not_mem_nil, ?_, hs, hwrite,
          hmono, fun _ => Or.inr (Or.inl rfl)⟩
        · rw [hahead]
          exact ⟨rest, rfl⟩
        · rw [if_neg fun hnil => by simp at hnil]
      · rw [if_neg hnl]
        have hb : b ≠ 10 := by
          rintro rfl
          exact hnl rfl
        have hp' : 10 ∉ p ++ [b] := by
          rw [mem_append, mem_singleton]
          rintro (h10 | h10)
          · exact hp h10
          · exact hb h10.symm
        obtain ⟨bs, hpre, hlen, hlast, hret, hs', hwrite', hmono', hstop⟩ := ih hs hp'
        rw [Cursor.ahead_read hahead] at hpre hstop
        rw [Cursor.read_read, Nat.add_comm] at hs'
        refine ⟨b :: bs, ?_, Nat.succ_le_succ hlen, ?_, ?_, hs', hwrite'.trans hwrite,
          hmono.trans hmono', ?_⟩
        · rw [hahead]
          exact cons_prefix_cons.mpr ⟨rfl, hpre⟩
        · cases bs with
          | nil => exact not_mem_nil
          | cons b' bs =>
            rw [dropLast_cons_cons, mem_cons]
            rintro (h10 | h10)
            · exact hb h10.symm
            · exact hlast h10
        · rw [hret, append_assoc, if_neg fun hnil => by simp at hnil,
            if_neg fun hnil => by simp at hnil]
          rfl
        · intro hsame
          rcases hstop (by omega) with hk | hnl' | hall
          · left
            rw [length_cons, hk]
          · right
            left
            rw [List.getLast?_cons, hnl']
            rfl
          · right
            right
            rw [hall, hahead]

theorem Stands.fgets (n : Int) (h : Stands reg c i f w) : let r := fgets reg.toSys n f w
    ∃ bs, bs <+: i.ahead c ∧ bs.length ≤ (n - 1).toNat ∧ 10 ∉ bs.dropLast ∧
      (r.1 = if n ≤ 0 ∨ 1 < n ∧ bs = [] then none else some bs) ∧
      Stands reg c (i.read bs.length) r.2.1 r.2.2 ∧ r.2.1.canWrite = f.canWrite ∧
      (reg.failed r.2.2 = reg.failed w →
        bs.length = (n - 1).toNat ∨ bs.getLast? = some 10 ∨ bs = i.ahead c) := by
  unfold Libc.fgets
  by_cases hn : n ≤ 0
  · rw [if_pos hn]
    refine ⟨[], nil_prefix, Nat.zero_le _, not_mem_nil, ?_, h, rfl, fun _ => Or.inl ?_⟩
    · rw [if_pos (Or.inl hn)]
    · rw [length_nil]
      omega
  · rw [if_neg hn]
    obtain ⟨bs, hpre, hlen, hlast, hret, hs, hwrite, -, hstop⟩ :=
      h.fgetsLoop (n - 1).toNat not_mem_nil
    refine ⟨bs, hpre, hlen, hlast, ?_, hs, hwrite, hstop⟩
    rw [hret, nil_append]
    by_cases hnil : bs = []
    · by_cases hone : 1 < n
      · rw [if_pos ⟨by omega, hnil⟩, if_pos (Or.inr ⟨hone, hnil⟩)]
      · rw [if_neg (by omega), if_neg (by omega)]
    · rw [if_neg fun h => hnil h.2, if_neg fun h => h.elim hn fun h => hnil h.2]

theorem Stands.fread (sz nmemb : Nat) (h : Stands reg c i f w)
    (hsafe : sz * nmemb % 2 ^ 64 = 0 ∨ f.hasUngotc = 0) : let r := fread reg.toSys sz nmemb f w
    r.got <+: i.ahead c ∧ r.ret = (r.got.length / sz : Nat) ∧
      r.got.length ≤ sz * nmemb % 2 ^ 64 ∧
      (reg.failed r.world = reg.failed w →
        r.got.length = sz * nmemb % 2 ^ 64 ∨ r.got = i.ahead c) ∧
      Stands reg c (i.read r.got.length) r.file r.world ∧ r.file.canWrite = f.canWrite := by
  unfold Libc.fread
  by_cases hz : sz = 0 ∨ nmemb = 0
  · have htotal : sz * nmemb % 2 ^ 64 = 0 := by
      rw [Nat.mul_eq_zero.mpr hz, Nat.zero_mod]
    rw [if_pos hz, htotal]
    exact ⟨⟨_, rfl⟩, by rw [length_nil, Nat.zero_div]; rfl, Nat.le_refl _,
      fun _ => Or.inl rfl, h, rfl⟩
  rw [if_neg hz, if_neg (by rw [h.synced.canRead]; decide)]
  by_cases htotal : sz * nmemb % 2 ^ 64 = 0
  · rw [htotal]
    exact ⟨⟨_, rfl⟩, rfl, Nat.le_refl _, fun _ => Or.inl rfl, h, rfl⟩
  have hhas : f.hasUngotc = 0 := hsafe.resolve_left htotal
  -- nothing is pushed back, so what is ahead is the file
  obtain ⟨pos, back⟩ := i
  obtain rfl : back = none := by
    cases back with
    | none => rfl
    | some b => exact absurd hhas (h.pushed b rfl).1
  obtain ⟨bs, hbs, hpre, hle, hs, hkept, -, hstop⟩ :=
    @Synced.freadLoop _ _ _ _ _ _ (sz * nmemb % 2 ^ 64) (sz * nmemb % 2 ^ 64) [] h.synced
      (Nat.zero_le _) (Nat.sub_le _ _)
  dsimp only
  rw [nil_append] at hbs
  rw [length_nil, Nat.zero_add] at hle hstop
  rw [hbs]
  refine ⟨hpre, rfl, hle, hstop, ?_, hkept.2.2⟩
  have hnext : Cursor.read ⟨pos, none⟩ bs.length = ⟨pos + bs.length, none⟩ := by
    unfold Cursor.read
    split
    · rename_i h0
      rw [h0]
      rfl
    · rfl
  rw [hnext]
  exact .of_none hs (hkept.1.trans hhas)

theorem Stands.ungetc (ch : Int) (h : Stands reg c i f w) : let r := ungetc ch f
    (r.1 = if ch = EOF ∨ i.back.isSome then EOF else ch % 256) ∧
      Stands reg c (if r.1 = EOF then i else { i with back := some (UInt8.ofInt ch) }) r.2 w ∧
      r.2.canWrite = f.canWrite := by
  have hback : i.back.isSome = true ↔ f.hasUngotc ≠ 0 := by
    cases hb : i.back with
    | none =>
      refine iff_of_false (by decide) (not_not.mpr (h.plain hb))
    | some b => exact iff_of_true rfl (h.pushed b hb).1
  unfold Libc.ungetc
  by_cases hcond : ch = EOF ∨ f.hasUngotc ≠ 0
  · have hcond' : ch = EOF ∨ i.back.isSome = true := hcond.imp_right hback.mpr
    rw [if_pos hcond, if_pos hcond']
    dsimp only
    rw [if_pos rfl]
    exact ⟨rfl, h, rfl⟩
  · have hcond' : ¬ (ch = EOF ∨ i.back.isSome = true) := fun h' => hcond (h'.imp_right hback.mp)
    have hne : ch % 256 ≠ EOF := by
      unfold EOF
      omega
    rw [if_neg hcond, if_neg hcond']
    dsimp only
    rw [if_neg hne]
    refine ⟨rfl, ⟨?_, fun hb => (nomatch hb), ?_⟩, rfl⟩
    · exact ⟨h.1.1, h.1.2, h.1.3, h.1.4, h.1.5, h.1.6⟩
    intro b hb
    obtain rfl : UInt8.ofInt ch = b := Option.some.inj hb
    refine ⟨show (1 : Int) ≠ 0 by decide, ?_⟩
    change ch % 256 = _
    unfold UInt8.ofInt
    rw [UInt8.toNat_ofNat']
    omega

/-! ## Positions -/

-- a flush with nothing in the buffer writes nothing
theorem fflush_idle (hidle : f.canWrite = true → f.bufpos = 0) :
    ∃ d, fflush reg.toSys f w = (0, { f with dirty := d }, w) ∧
      (if f.canWrite then fflush reg.toSys f w else (0, f, w)) = (0, { f with dirty := d }, w) := by
  unfold fflush
  cases hwrite : f.canWrite with
  | false => exact ⟨f.dirty, by rw [if_neg (by decide), ← hwrite],
      by rw [if_neg (by decide), ← hwrite]⟩
  | true =>
    have hpos := hidle hwrite
    have hloop : fflushLoop reg.toSys f.buf f.bufpos 0 w = (true, w) := by
      unfold fflushLoop
      rw [hpos, if_neg (Nat.lt_irrefl 0)]
    refine ⟨false, ?_, ?_⟩
    · rw [if_pos rfl, hloop, hpos]
    · rw [if_pos rfl, if_pos rfl, hloop, hpos]

theorem Stands.dirty (h : Stands reg c i f w) (d : Bool) : Stands reg c i { f with dirty := d } w :=
  ⟨⟨h.1.1, h.1.2, h.1.3, h.1.4, h.1.5, h.1.6⟩, h.2, h.3⟩

theorem lseekResult_target {p ahead : Nat} {off : Int} {whence : Nat}
    (hoff : -2 ^ 63 ≤ off ∧ off < 2 ^ 63) (hc : c.length < 2 ^ 63) (hpos : p + ahead < 2 ^ 63) :
    match Cursor.target c ⟨p, none⟩ off whence with
    | some t => 0 ≤ t ∧ lseekResult c.length (p + ahead)
        (if whence = SEEK_CUR then off - ahead else off) whence = t
    | none => lseekResult c.length (p + ahead)
        (if whence = SEEK_CUR then off - ahead else off) whence < 0 := by
  have hinval : -Kern.EINVAL < 0 := by decide
  have hrange : -Kern.ERANGE < 0 := by decide
  -- in range or not, the kernel's two tests and the cursor's are the same
  have hcases : ∀ (r t : Int), (0 ≤ t ∧ t < 2 ^ 63 → r = t) → (¬ (0 ≤ t ∧ t < 2 ^ 63) → r < 0) →
      match (some t).filter fun t => decide (0 ≤ t ∧ t < 2 ^ 63) with
      | some t => 0 ≤ t ∧ r = t
      | none => r < 0 := by
    intro r t hin hout
    by_cases ht : 0 ≤ t ∧ t < 2 ^ 63
    · rw [Option.filter_some, if_pos (decide_eq_true ht)]
      exact ⟨ht.1, hin ht⟩
    · rw [Option.filter_some, if_neg (by simpa using ht)]
      exact hout ht
  unfold Cursor.target lseekResult
  by_cases hset : whence = SEEK_SET
  · have hne : whence ≠ SEEK_CUR := by
      rw [hset]
      decide
    rw [if_pos hset, if_neg hne, if_pos hset]
    apply hcases
    · intro ht
      rw [if_neg (by omega)]
    · intro ht
      rw [if_pos (by omega)]
      exact hinval
  rw [if_neg hset, if_neg hset]
  by_cases hcur : whence = SEEK_CUR
  · rw [if_pos hcur, if_pos hcur, if_pos hcur]
    apply hcases
    · intro ht
      change 0 ≤ (p : Int) - 0 + off ∧ (p : Int) - 0 + off < 2 ^ 63 at ht
      change _ = (p : Int) - 0 + off
      omega
    · intro ht
      change ¬ (0 ≤ (p : Int) - 0 + off ∧ (p : Int) - 0 + off < 2 ^ 63) at ht
      split
      · exact hinval
      · split
        · exact hrange
        · omega
  rw [if_neg hcur, if_neg hcur, if_neg hcur]
  by_cases hend : whence = SEEK_END
  swap
  · rw [if_neg hend, if_neg hend]
    exact hinval
  rw [if_pos hend, if_pos hend]
  apply hcases
  · intro ht
    rw [if_neg (by omega), if_neg (by omega)]
  intro ht
  split
  · exact hinval
  · split
    · exact hrange
    · omega

theorem Stands.back_none (h : Stands reg c i f w) (hhas : f.hasUngotc = 0) : i.back = none := by
  cases hb : i.back with
  | none => rfl
  | some b => exact absurd hhas (h.pushed b hb).1

theorem Stands.fseek {off : Int} {whence : Nat} (h : Stands reg c i f w)
    (hoff : -2 ^ 63 ≤ off ∧ off < 2 ^ 63) (hhas : f.hasUngotc = 0)
    (hidle : f.canWrite = true → f.bufpos = 0) : let r := fseek reg.toSys off whence f w
    (r.1 = if (i.target c off whence).isSome then 0 else -1) ∧
      Stands reg c (if r.1 = 0 then ⟨((i.target c off whence).getD 0).toNat, none⟩ else i)
        r.2.1 r.2.2 := by
  obtain ⟨d, -, hflush⟩ := @fflush_idle _ reg f w hidle
  have hback := h.back_none hhas
  obtain ⟨pos, back⟩ := i
  obtain rfl : back = none := hback
  have hle := h.synced.pos_le
  have hpos : pos + (f.buflen - f.bufpos) = reg.pos w := h.synced.pos
  have hcorr : correction { f with dirty := d } = ((f.buflen - f.bufpos : Nat) : Int) := by
    unfold correction
    dsimp only
    omega
  have hsize := reg.size_lt w
  have hlt := reg.pos_lt w
  rw [h.synced.content] at hsize
  have htarget := @lseekResult_target c pos (f.buflen - f.bufpos) off whence hoff hsize (by omega)
  rw [hpos] at htarget
  unfold Libc.fseek
  dsimp only
  rw [hflush, if_neg (show ¬ (0 : Int) < 0 by decide), hcorr]
  -- the stream reads, so an offset from the current position is corrected
  have hoff' : (if f.canRead = true ∧ whence = SEEK_CUR then
      off - ((f.buflen - f.bufpos : Nat) : Int) else off) =
      if whence = SEEK_CUR then off - ((f.buflen - f.bufpos : Nat) : Int) else off := by
    rw [h.synced.canRead]
    simp only [true_and]
  rw [hoff']
  generalize hoff'' : (if whence = SEEK_CUR then off - ((f.buflen - f.bufpos : Nat) : Int)
    else off) = off' at htarget
  have hlt' : off' < 2 ^ 63 := by
    rw [← hoff'']
    split
    · omega
    · omega
  have hret := reg.lseek_ret w off' whence hlt'
  have hmove := reg.lseek_pos w off' whence hlt'
  have hsame := reg.lseek_content w off' whence
  rw [h.synced.content] at hret hsame
  rw [← hret] at htarget
  cases ht : Cursor.target c ⟨pos, none⟩ off whence with
  | none =>
    rw [ht] at htarget
    rw [if_pos htarget] at hmove
    rw [if_pos htarget]
    refine ⟨rfl, ⟨hsame, h.1.2, h.1.3, h.1.4, ?_, h.1.6⟩, h.2, h.3⟩
    rw [hmove]
    exact hpos
  | some t =>
    rw [ht] at htarget
    have hnonneg : ¬ (reg.lseek w off' whence).1 < 0 := by
      omega
    rw [if_neg hnonneg] at hmove
    rw [if_neg hnonneg]
    refine ⟨rfl, .of_none ⟨hsame, h.1.2, Nat.le_refl _, Nat.zero_le _, ?_, nil_prefix⟩ hhas⟩
    rw [hmove, htarget.2]
    rfl

theorem Stands.ftell (h : Stands reg c i f w) (hhas : f.hasUngotc = 0) :
    let r := ftell reg.toSys f w
    r.1 = i.tell ∧ Stands reg c i f r.2 := by
  have hback := h.back_none hhas
  obtain ⟨pos, back⟩ := i
  obtain rfl : back = none := hback
  have hpos : pos + (f.buflen - f.bufpos) = reg.pos w := h.synced.pos
  have hle := h.synced.pos_le
  have hret : (reg.lseek w 0 SEEK_CUR).1 = reg.pos w := by
    rw [reg.lseek_ret _ _ _ (by decide)]
    unfold lseekResult
    rw [if_neg (by decide), if_pos rfl, if_neg (by omega), if_neg (by omega), Int.add_zero]
  have hstay := reg.lseek_pos w 0 SEEK_CUR (by decide)
  rw [hret, if_neg (by omega), Int.toNat_natCast] at hstay
  unfold Libc.ftell
  dsimp only
  rw [hret, if_neg (by omega), if_pos h.synced.canRead]
  constructor
  · change _ = (pos : Int) - 0
    unfold correction
    omega
  · refine ⟨⟨?_, h.1.2, h.1.3, h.1.4, ?_, h.1.6⟩, h.2, h.3⟩
    · rw [reg.lseek_content]
      exact h.synced.content
    · rw [hstay]
      exact hpos

end Cursors

/-! ## Runs -/

section Runs

variable {ω : Type}

-- a stream, its system, and where the calls so far have left the reader
structure InState (ω : Type) where
  file : File
  world : ω
  cursor : Cursor
  closed : Bool

def InCall.run (reg : RegFile ω) (f : File) (w : ω) : InCall → Got ω
  | .fread sz nmemb => Libc.fread reg.toSys sz nmemb f w
  | .fgetc =>
    let r := Libc.fgetc reg.toSys f w
    ⟨r.1, if r.1 = EOF then [] else [UInt8.ofInt r.1], r.2.1, r.2.2⟩
  | .fgets n =>
    let r := Libc.fgets reg.toSys n f w
    ⟨if r.1.isSome then 1 else 0, r.1.getD [], r.2.1, r.2.2⟩
  | .ungetc ch =>
    let r := Libc.ungetc ch f
    ⟨r.1, [], r.2, w⟩
  | .fseek off whence _ =>
    let r := Libc.fseek reg.toSys off whence f w
    ⟨r.1, [], r.2.1, r.2.2⟩
  | .ftell =>
    let r := Libc.ftell reg.toSys f w
    ⟨r.1, [], f, r.2⟩
  | .fflush =>
    let r := Libc.fflush reg.toSys f w
    ⟨r.1, [], r.2.1, r.2.2⟩
  | .fclose =>
    let r := Libc.fclose reg.toSys f w
    ⟨r.1, [], f, r.2⟩

def InState.Start (reg : RegFile ω) (c : List UInt8) (s : InState ω) : Prop :=
  (∃ mode fresh, (mode = [114] ∨ mode = [114, 43]) ∧ fopen mode fresh = some s.file) ∧
    reg.content s.world = c ∧ reg.pos s.world = 0 ∧ s.cursor = ⟨0, none⟩ ∧ s.closed = false

def InState.after (reg : RegFile ω) (c : List UInt8) (s : InState ω) (call : InCall) : InState ω :=
  let r := call.run reg s.file s.world
  ⟨r.file, r.world, call.moves c s.cursor r.ret r.got, call matches .fclose⟩

def InState.Step (reg : RegFile ω) (c : List UInt8) (s : InState ω) (call : InCall)
    (t : InState ω) : Prop :=
  s.closed = false ∧ t = s.after reg c call

/-- Nothing is pushed back where the call would not see it, and there is nothing a flush of a
stream that also writes would take for output. -/
def InCall.Safe (s : InState ω) : InCall → Prop
  | .fread sz nmemb => sz * nmemb % 2 ^ 64 = 0 ∨ s.file.hasUngotc = 0
  | .fseek _ _ _ => s.file.hasUngotc = 0 ∧ (s.file.canWrite = true → s.file.bufpos = 0)
  | .ftell => s.file.hasUngotc = 0
  | .fflush | .fclose => s.file.canWrite = true → s.file.bufpos = 0
  | .fgetc | .fgets _ | .ungetc _ => True

variable {reg : RegFile ω} {c : List UInt8}

theorem InState.Start.stands {s : InState ω} (h : s.Start reg c) (hhas : s.file.hasUngotc = 0) :
    Stands reg c s.cursor s.file s.world := by
  obtain ⟨⟨mode, fresh, hmode, hopen⟩, hc, hpos, hcur, -⟩ := h
  have hread : s.file.canRead = true ∧ s.file.bufpos = 0 ∧ s.file.buflen = 0 := by
    rcases hmode with rfl | rfl
    · obtain ⟨flags, hflags, hfile⟩ := Option.map_eq_some_iff.mp hopen
      cases hflags
      rw [← hfile]
      exact ⟨rfl, rfl, rfl⟩
    · obtain ⟨flags, hflags, hfile⟩ := Option.map_eq_some_iff.mp hopen
      cases hflags
      rw [← hfile]
      exact ⟨rfl, rfl, rfl⟩
  rw [hcur]
  refine .of_none ⟨hc, hread.1, by omega, by rw [hread.2.2]; decide, by omega, ?_⟩ hhas
  rw [hread.2.1, hread.2.2]
  exact nil_prefix

/-- A call at a cursor returns and delivers what it has to, and moves to the next cursor. -/
theorem InCall.spec (call : InCall) {s : InState ω} (h : Stands reg c s.cursor s.file s.world)
    (hsafe : call.Safe s) : let r := call.run reg s.file s.world
    call.Faithful c s.cursor (reg.failed r.world = reg.failed s.world) r.ret r.got ∧
      Stands reg c (call.moves c s.cursor r.ret r.got) r.file r.world := by
  cases call with
  | fread sz nmemb =>
    obtain ⟨hpre, hret, hle, hstop, hs, -⟩ := h.fread sz nmemb hsafe
    exact ⟨⟨hpre, hret, hle, hstop⟩, hs⟩
  | fgetc =>
    obtain ⟨-, -, ⟨heof, hs, hend⟩ | ⟨b, rest, hahead, hret, hs⟩⟩ := h.fgetc
    · refine ⟨Or.inl ⟨if_pos heof, heof, hend⟩, ?_⟩
      unfold InCall.run InCall.moves
      dsimp only
      rw [if_pos heof]
      exact hs
    · unfold InCall.run InCall.moves InCall.Faithful
      dsimp only
      rw [hret, ofInt_toNat]
      refine ⟨Or.inr ⟨b, rfl, rfl, ?_⟩, hs⟩
      rw [hahead]
      exact ⟨rest, rfl⟩
  | fgets n =>
    obtain ⟨bs, hpre, hlen, hlast, hret, hs, -, hstop⟩ := h.fgets n
    have hbs : (Libc.fgets reg.toSys n s.file s.world).1.getD [] = bs := by
      rw [hret]
      split
      · rename_i hnull
        rcases hnull with hn | ⟨-, rfl⟩
        · exact (length_eq_zero_iff.mp (by omega)).symm
        · rfl
      · rfl
    unfold InCall.run InCall.moves InCall.Faithful
    dsimp only
    rw [hbs]
    refine ⟨⟨hpre, hlen, hlast, ?_, hstop⟩, hs⟩
    rw [hret]
    split
    · rename_i hnull
      exact iff_of_true rfl hnull
    · rename_i hnull
      exact iff_of_false (show (1 : Int) ≠ 0 by decide) hnull
  | ungetc ch =>
    obtain ⟨hret, hs, -⟩ := h.ungetc ch
    exact ⟨⟨rfl, hret⟩, hs⟩
  | fseek off whence hoff =>
    obtain ⟨hret, hs⟩ := h.fseek hoff hsafe.1 hsafe.2
    exact ⟨⟨rfl, hret⟩, hs⟩
  | ftell =>
    obtain ⟨hret, hs⟩ := h.ftell hsafe
    exact ⟨⟨rfl, hret⟩, hs⟩
  | fflush =>
    obtain ⟨d, hflush, -⟩ := @fflush_idle _ reg s.file s.world hsafe
    refine ⟨rfl, ?_⟩
    unfold InCall.run
    rw [hflush]
    exact h.dirty d
  | fclose =>
    obtain ⟨d, hflush, -⟩ := @fflush_idle _ reg s.file s.world hsafe
    refine ⟨rfl, ?_⟩
    have hworld : (Libc.fclose reg.toSys s.file s.world).2 = s.world := by
      unfold Libc.fclose
      rw [hflush]
      split
      · rfl
      · rfl
    unfold InCall.run
    dsimp only
    rw [hworld]
    exact h

/-- Through a stream opened to read, in memory where nothing is pushed back, every call delivers
the bytes at the position that the calls before it define, `ftell` reports that position, and the
file stays as it is, as long as no call is made that ignores a character pushed back or that
flushes bytes read from a file open for writing. -/
theorem input_faithful {ω : Type} (reg : RegFile ω) (c : List UInt8) (s : InState ω)
    (hs : Reach (fun s => s.Start reg c ∧ s.file.hasUngotc = 0) (InState.Step reg c)
      (fun s (call : InCall) => call.Safe s) s) :
    reg.content s.world = c ∧
      ∀ call : InCall, s.closed = false → call.Safe s →
        let r := call.run reg s.file s.world
        call.Faithful c s.cursor (reg.failed r.world = reg.failed s.world) r.ret r.got ∧
          reg.content r.world = c := by
  have hstands : Stands reg c s.cursor s.file s.world := by
    apply @Reach.invariant _ _ _ _ _ (fun s => Stands reg c s.cursor s.file s.world) ?_ ?_ _ hs
    · rintro s ⟨hstart, hhas⟩
      exact hstart.stands hhas
    · rintro s call t h hsafe ⟨-, rfl⟩
      exact (call.spec h hsafe).2
  refine ⟨hstands.synced.content, ?_⟩
  intro call _ hsafe
  obtain ⟨hfaith, hs'⟩ := call.spec hstands hsafe
  exact ⟨hfaith, hs'.synced.content⟩

end Runs

/-! ## A file in memory -/

structure Disk where
  content : List UInt8
  pos : Nat
  size_lt : content.length < 2 ^ 63
  pos_lt : pos < 2 ^ 63

def Disk.move (d : Disk) (r : Int) : Disk :=
  if h : 0 ≤ r ∧ r < 2 ^ 63 then { d with pos := r.toNat, pos_lt := by omega } else d

def Disk.overwrite (d : Disk) (bs : List UInt8) : Int × Disk :=
  if h : d.pos + bs.length < 2 ^ 63 then
    (bs.length,
      { content := d.content.take d.pos ++ List.replicate (d.pos - d.content.length) 0 ++ bs ++
          d.content.drop (d.pos + bs.length)
        pos := d.pos + bs.length
        size_lt := by
          have := d.size_lt
          simp only [length_append, length_take, length_replicate, length_drop]
          omega
        pos_lt := h })
  else (-1, d)

theorem Disk.lseekResult_lt (d : Disk) {off : Int} (hoff : off < 2 ^ 63) (whence : Nat) :
    lseekResult d.content.length d.pos off whence < 2 ^ 63 := by
  have hsize := d.size_lt
  have hpos := d.pos_lt
  have hinval : -Kern.EINVAL < 2 ^ 63 := by decide
  have hrange : -Kern.ERANGE < 2 ^ 63 := by decide
  unfold lseekResult
  split_ifs
  all_goals omega

/-- Reads give as much as there is. -/
def diskFile : RegFile Disk where
  read d n :=
    (some ((d.content.drop d.pos).take n),
      d.move (d.pos + ((d.content.drop d.pos).take n).length : Nat))
  write d bs := d.overwrite bs
  lseek d off whence :=
    (lseekResult d.content.length d.pos off whence,
      d.move (lseekResult d.content.length d.pos off whence))
  content d := d.content
  pos d := d.pos
  failed _ := 0
  size_lt d := d.size_lt
  pos_lt d := d.pos_lt
  read_content d n := by
    unfold Disk.move
    split
    · rfl
    · rfl
  read_none _ _ h := nomatch h
  read_some d n bs h := by
    obtain rfl := Option.some.inj h
    have hsize := d.size_lt
    have hpos := d.pos_lt
    refine ⟨⟨_, take_append_drop _ _⟩, by rw [length_take]; omega, ?_, ?_, rfl⟩
    · intro hn hnil
      rw [take_eq_nil_iff] at hnil
      exact hnil.resolve_left (by omega)
    · dsimp only
      unfold Disk.move
      rw [dif_pos]
      · rfl
      · simp only [length_take, length_drop]
        omega
  lseek_content d off whence := by
    unfold Disk.move
    split
    · rfl
    · rfl
  lseek_ret _ _ _ _ := rfl
  lseek_pos d off whence hoff := by
    have hlt := d.lseekResult_lt hoff whence
    unfold Disk.move
    split_ifs
    · omega
    · rfl
    · rfl
    · omega

-- memory from the allocator, with or without a character in the slot
def freshFile (has : Int) : File := ⟨zero, 7, 7, false, false, true, true, true, 65, has⟩

def opened (plus : Bool) (has : Int) (c : List UInt8) (hc : c.length < 2 ^ 63) : InState Disk :=
  ⟨{ freshFile has with
      bufpos := 0, buflen := 0, canRead := true, canWrite := plus,
      eof := false, err := false, dirty := false },
    ⟨c, 0, hc, by decide⟩, ⟨0, none⟩, false⟩

theorem opened_start (plus : Bool) (has : Int) {c : List UInt8} (hc : c.length < 2 ^ 63) :
    (opened plus has c hc).Start diskFile c := by
  refine ⟨⟨if plus then [114, 43] else [114], freshFile has, ?_, ?_⟩, rfl, rfl, rfl, rfl⟩
  · cases plus with
    | false => exact Or.inl rfl
    | true => exact Or.inr rfl
  · cases plus with
    | false => rfl
    | true => rfl

-- "ab" in mode `r`: one character is read, and `ftell` gives 1
theorem input_ab :
    (InCall.ftell.run diskFile ((opened false 0 [97, 98] (by decide)).after diskFile [97, 98]
      .fgetc).file ((opened false 0 [97, 98] (by decide)).after diskFile [97, 98]
      .fgetc).world).ret = 1 := by
  have hreach : Reach (fun s => s.Start diskFile [97, 98] ∧ s.file.hasUngotc = 0)
      (InState.Step diskFile [97, 98]) (fun s (call : InCall) => call.Safe s)
      ((opened false 0 [97, 98] (by decide)).after diskFile [97, 98] .fgetc) :=
    .next (a := InCall.fgetc) (.start ⟨opened_start false 0 (by decide), rfl⟩) ⟨rfl, rfl⟩ trivial
  exact ((input_faithful diskFile [97, 98] _ hreach).2 .ftell rfl rfl).1.2

/-- A character from the allocator is delivered by the first read of an empty file; in mode `r+`
reading one character of "ab" and flushing makes the file "aba"; a character pushed back is not
delivered by `fread`. -/
theorem input_not_faithful :
    (∃ s : InState Disk, s.Start diskFile [] ∧ ∃ r, r = InCall.fgetc.run diskFile s.file s.world ∧
        ¬ InCall.fgetc.Faithful [] s.cursor True r.ret r.got) ∧
      (∃ s, Reach (fun s => s.Start diskFile [97, 98] ∧ s.file.hasUngotc = 0)
          (InState.Step diskFile [97, 98]) (fun _ _ => True) s ∧
        diskFile.content s.world ≠ [97, 98]) ∧
      ∃ s, Reach (fun s => s.Start diskFile [97, 98] ∧ s.file.hasUngotc = 0)
          (InState.Step diskFile [97, 98]) (fun _ _ => True) s ∧
        ∃ r, r = (InCall.fread 1 1).run diskFile s.file s.world ∧
          ¬ (InCall.fread 1 1).Faithful [97, 98] s.cursor True r.ret r.got := by
  refine ⟨⟨opened false 1 [] (by decide), opened_start false 1 _, _, rfl, ?_⟩, ?_, ?_⟩
  · rintro (⟨-, heof, -⟩ | ⟨b, -, -, hpre⟩)
    · exact absurd heof (by decide)
    · exact absurd (prefix_nil.mp hpre) (cons_ne_nil _ _)
  · refine ⟨((opened true 0 [97, 98] (by decide)).after diskFile [97, 98] .fgetc).after diskFile
      [97, 98] .fflush, ?_, by decide +kernel⟩
    exact .next (a := InCall.fflush) (.next (a := InCall.fgetc)
      (.start ⟨opened_start true 0 (by decide), rfl⟩) ⟨rfl, rfl⟩ trivial) ⟨rfl, rfl⟩ trivial
  · refine ⟨(opened false 0 [97, 98] (by decide)).after diskFile [97, 98] (.ungetc 99), ?_, _,
      rfl, ?_⟩
    · exact .next (a := InCall.ungetc 99) (.start ⟨opened_start false 0 (by decide), rfl⟩)
        ⟨rfl, rfl⟩ trivial
    · rintro ⟨hpre, -⟩
      exact absurd hpre (by decide)

end Libc
