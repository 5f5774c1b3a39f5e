import RandomOs.Lib.Runs
import RandomOs.Lib.Slice

/-!
# Streams (`stdio.c`)

One buffer with one position serves reading and writing: `bufpos` counts the bytes that wait to be
written, or those of the `buflen` bytes read that were delivered.  The system calls are a
parameter; `bufsz` is `FILE_BUFSZ` in every stream.
-/

namespace Libc

open Lib (Bytes)
open Lib.Bytes

def FILE_BUFSZ : Nat := 4096

def EOF : Int := -1

def SEEK_SET : Nat := 0
def SEEK_CUR : Nat := 1
def SEEK_END : Nat := 2

/-- A `FILE`; the bits of `flags` are `canRead` to `dirty`. -/
structure File where
  buf : Bytes
  bufpos : Nat
  buflen : Nat
  canRead : Bool
  canWrite : Bool
  eof : Bool
  err : Bool
  dirty : Bool
  ungotc : Int
  hasUngotc : Int

/-- The system calls on the descriptor of a stream; `read` gives `none` for a negative count. -/
structure Sys (ω : Type) where
  read : ω → Nat → Option (List UInt8) × ω
  write : ω → List UInt8 → Int × ω
  lseek : ω → Int → Nat → Int × ω

variable {ω : Type} (sys : Sys ω)

-- whether a mode reads and whether it writes
def fopenFlags (mode : List UInt8) : Option (Bool × Bool) :=
  if mode.length < 1 then none
  else
    let plus := decide (2 ≤ mode.length) && mode.getD 1 0 == 43
    match mode.getD 0 0 with
    | 114 => some (true, plus)
    | 119 => some (plus, true)
    | 97 => some (mode.getD 1 0 == 43, true)
    | _ => none

/-- A stream in newly allocated memory, once `open` has succeeded. -/
def fopen (mode : List UInt8) (fresh : File) : Option File :=
  (fopenFlags mode).map fun flags =>
    { fresh with
      bufpos := 0, buflen := 0, canRead := flags.1, canWrite := flags.2,
      eof := false, err := false, dirty := false }

/-! ## Writing -/

def fflushLoop (buf : Bytes) (bufpos written : Nat) (w : ω) : Bool × ω :=
  if written < bufpos then
    let r := sys.write w (slice buf written (bufpos - written))
    if 0 < r.1 then fflushLoop buf bufpos (written + r.1.toNat) r.2 else (false, r.2)
  else (true, w)
termination_by bufpos - written
decreasing_by
  rename_i hn
  change 0 < (sys.write w (slice buf written (bufpos - written))).1 at hn
  omega

def fflush (f : File) (w : ω) : Int × File × ω :=
  if f.canWrite then
    match fflushLoop sys f.buf f.bufpos 0 w with
    | (true, w') => (0, { f with bufpos := 0, dirty := false }, w')
    | (false, w') => (-1, { f with err := true }, w')
  else (0, f, w)

-- `done` at the end of the loop
def fwriteLoop (src : Bytes) (total done : Nat) (f : File) (w : ω) : Nat × File × ω :=
  if done < total then
    let space := FILE_BUFSZ - f.bufpos
    let r := if space = 0 then fflush sys f w else (0, f, w)
    if r.1 < 0 then (done, r.2.1, r.2.2)
    else
      let n := min (total - done) (if space = 0 then FILE_BUFSZ else space)
      let f' := r.2.1
      fwriteLoop src total (done + n)
        { f' with buf := copy f'.buf f'.bufpos src done n, bufpos := f'.bufpos + n, dirty := true }
        r.2.2
  else (done, f, w)
termination_by total - done
decreasing_by
  have hsz : 0 < FILE_BUFSZ := by decide
  split
  · omega
  · omega

/-- What a writing call returns, with the bytes it put into the buffer. -/
structure Put (ω : Type) where
  ret : Int
  put : List UInt8
  file : File
  world : ω

def fwrite (src : Bytes) (sz nmemb : Nat) (f : File) (w : ω) : Put ω :=
  if sz = 0 ∨ nmemb = 0 then ⟨0, [], f, w⟩
  else if !f.canWrite then ⟨0, [], { f with err := true }, w⟩
  else
    let r := fwriteLoop sys src (sz * nmemb % 2 ^ 64) 0 f w
    ⟨(r.1 / sz : Nat), slice src 0 r.1, r.2.1, r.2.2⟩

def fputs (str : List UInt8) (f : File) (w : ω) : Put ω :=
  let r := fwrite sys (store zero 0 str) str.length 1 f w
  if r.ret < 1 then { r with ret := -1 }
  else
    let r' := fwrite sys (store zero 0 [10]) 1 1 r.file r.world
    ⟨if r'.ret < 1 then -1 else 0, r.put ++ r'.put, r'.file, r'.world⟩

-- `c` is converted to an `unsigned char`
def fputc (c : UInt8) (f : File) (w : ω) : Put ω :=
  let r := if FILE_BUFSZ ≤ f.bufpos then fflush sys f w else (0, f, w)
  if r.1 = EOF then ⟨EOF, [], r.2.1, r.2.2⟩
  else
    let f' := r.2.1
    ⟨c.toNat, [c], { f' with buf := store f'.buf f'.bufpos [c], bufpos := f'.bufpos + 1 }, r.2.2⟩

/-! ## Reading -/

-- whether there are bytes to deliver
def freadFill (f : File) (w : ω) : Bool × File × ω :=
  if f.bufpos = f.buflen then
    match sys.read w FILE_BUFSZ with
    | (none, w') => (false, { f with err := true }, w')
    | (some [], w') => (false, { f with eof := true }, w')
    | (some bs, w') =>
      (true, { f with buf := store f.buf 0 bs, bufpos := 0, buflen := bs.length }, w')
  else (true, f, w)

-- every round but the last delivers a byte, so `total` rounds are enough
def freadLoop (total : Nat) : Nat → (dst : List UInt8) → File → ω → List UInt8 × File × ω
  | 0, dst, f, w => (dst, f, w)
  | rounds + 1, dst, f, w =>
    if dst.length < total then
      let r := freadFill sys f w
      if r.1 then
        let f' := r.2.1
        let avail := (f'.buflen + 2 ^ 64 - f'.bufpos) % 2 ^ 64
        let n := min (total - dst.length) avail
        freadLoop total rounds (dst ++ slice f'.buf f'.bufpos n)
          { f' with bufpos := f'.bufpos + n } r.2.2
      else (dst, r.2.1, r.2.2)
    else (dst, f, w)

/-- What a reading call returns, with the bytes it delivers. -/
structure Got (ω : Type) where
  ret : Int
  got : List UInt8
  file : File
  world : ω

def fread (sz nmemb : Nat) (f : File) (w : ω) : Got ω :=
  if sz = 0 ∨ nmemb = 0 then ⟨0, [], f, w⟩
  else if !f.canRead then ⟨0, [], { f with err := true }, w⟩
  else
    let total := sz * nmemb % 2 ^ 64
    let r := freadLoop sys total total [] f w
    ⟨(r.1.length / sz : Nat), r.1, r.2.1, r.2.2⟩

def fgetc (f : File) (w : ω) : Int × File × ω :=
  if f.hasUngotc ≠ 0 then (f.ungotc, { f with hasUngotc := 0 }, w)
  else if f.buflen ≤ f.bufpos then
    match sys.read w FILE_BUFSZ with
    | (none, w') => (EOF, f, w')
    | (some [], w') => (EOF, f, w')
    | (some (b :: bs), w') =>
      (b.toNat,
        { f with buf := store f.buf 0 (b :: bs), bufpos := 1, buflen := bs.length + 1 }, w')
  else ((f.buf f.bufpos).toNat, { f with bufpos := f.bufpos + 1 }, w)

-- `p - s` characters are there; `none` is NULL
def fgetsLoop : Nat → (p : List UInt8) → File → ω → Option (List UInt8) × File × ω
  | 0, p, f, w => (some p, f, w)
  | k + 1, p, f, w =>
    let r := fgetc sys f w
    if r.1 = EOF then (if p = [] then none else some p, r.2.1, r.2.2)
    else if r.1 = 10 then (some (p ++ [UInt8.ofInt r.1]), r.2.1, r.2.2)
    else fgetsLoop k (p ++ [UInt8.ofInt r.1]) r.2.1 r.2.2

def fgets (n : Int) (f : File) (w : ω) : Option (List UInt8) × File × ω :=
  if n ≤ 0 then (none, f, w) else fgetsLoop sys (n - 1).toNat [] f w

def ungetc (c : Int) (f : File) : Int × File :=
  if c = EOF ∨ f.hasUngotc ≠ 0 then (EOF, f)
  else (c % 256, { f with ungotc := c % 256, hasUngotc := 1 })

/-! ## Positions -/

-- the bytes read and not delivered; the difference is taken in `off_t`
def correction (f : File) : Int := (f.buflen : Int) - f.bufpos

def ftell (f : File) (w : ω) : Int × ω :=
  let r := sys.lseek w 0 SEEK_CUR
  if r.1 < 0 then (-1, r.2)
  else (if f.canRead then r.1 - correction f else if f.canWrite then r.1 + f.bufpos else r.1, r.2)

def fseek (offset : Int) (whence : Nat) (f : File) (w : ω) : Int × File × ω :=
  let r := if f.canWrite then fflush sys f w else (0, f, w)
  if r.1 < 0 then (-1, r.2.1, r.2.2)
  else
    let f' := r.2.1
    let offset' := if f'.canRead ∧ whence = SEEK_CUR then offset - correction f' else offset
    let res := sys.lseek r.2.2 offset' whence
    if res.1 < 0 then (-1, f', res.2)
    else (0, { f' with bufpos := 0, buflen := 0, eof := false }, res.2)

-- the stream is gone afterwards; `close` does not fail on a descriptor that is open
def fclose (f : File) (w : ω) : Int × ω :=
  if f.canWrite then
    let r := fflush sys f w
    (if r.1 < 0 then -1 else 0, r.2.2)
  else (0, w)

end Libc
