import Mathlib.Data.Nat.Bitwise

/-!
# Operations that can fail

C functions that return a negative error code leave their effects behind.  An operation yields a
value or stops, and has a state afterwards in both cases.
-/

namespace Lib

/-- Why an operation did not yield a value: an error code, or an access out of bounds or a division
by zero, after which nothing is known. -/
inductive Stop
  | err (code : Int)
  | fault
  deriving DecidableEq

def Stop.withCode (code : Int) : Stop → Stop
  | .err _ => .err code
  | .fault => .fault

/-- An error code is a negative `int`. -/
def Stop.IsCode : Stop → Prop
  | .err code => -2 ^ 31 ≤ code ∧ code < 0
  | .fault => True

-- the two parts of a computation that yields a value
theorem ok_of_bind {ε α β : Type} {x : Except ε α} {f : α → Except ε β} {b : β}
    (h : x >>= f = .ok b) : ∃ a, x = .ok a ∧ f a = .ok b := by
  cases x with
  | error e => cases h
  | ok a => exact ⟨a, rfl, h⟩

abbrev Op (σ α : Type) := EStateM Stop σ α

namespace Op

variable {σ α β : Type} {x : Op σ α} {s t : σ} {a : α} {e : Stop}

def fail (code : Int) : Op σ α := throw (.err code)

def fault : Op σ α := throw .fault

/-- The state after an operation. -/
def after (x : Op σ α) (s : σ) : σ :=
  match x.run s with
  | .ok _ t => t
  | .error _ t => t

/-- A test for runs on given states. -/
def returns [DecidableEq α] (x : Op σ α) (s : σ) (a : α) : Bool :=
  match x.run s with
  | .ok b _ => decide (b = a)
  | .error _ _ => false

/-- `if (x < 0) return code`. -/
def orFail (x : Op σ α) (code : Int) : Op σ α := fun s =>
  match x.run s with
  | .ok a t => .ok a t
  | .error e t => .error (e.withCode code) t

/-- A call whose return value is not looked at. -/
def ignore (x : Op σ α) : Op σ Unit := fun s => .ok () (x.after s)

/-- A call whose error code is looked at by the caller. -/
def attempt (x : Op σ α) : Op σ (Except Int α) := fun s =>
  match x.run s with
  | .ok a t => .ok (.ok a) t
  | .error (.err code) t => .ok (.error code) t
  | .error .fault t => .error .fault t

/-- A `u32` that is returned as an `int`: numbers from `2 ^ 31` on come out as error codes. -/
def asInt (v : Nat) : Op σ Nat := if 2 ^ 31 ≤ v then fail ((v : Int) - 2 ^ 32) else pure v

/-- The result of a computation that has no effects. -/
def ofExcept (x : Except Stop α) : Op σ α :=
  match x with
  | .ok a => pure a
  | .error e => throw e

/-- `for (k = i; k < i + n; k++)`. -/
def loop (body : Nat → Op σ Unit) : Nat → Nat → Op σ Unit
  | 0, _ => pure ()
  | n + 1, i => do
      body i
      loop body n (i + 1)

/-! ## Results -/

@[simp] theorem run_pure (a : α) (s : σ) : (pure a : Op σ α).run s = .ok a s := rfl

theorem run_get_bind (f : σ → Op σ α) (s : σ) : (get >>= f).run s = (f s).run s := rfl

theorem run_modify_bind (f : σ → σ) (k : Unit → Op σ α) (s : σ) :
    (modify f >>= k).run s = (k ()).run (f s) := rfl

theorem run_ofExcept_bind (x : Except Stop α) (f : α → Op σ β) (s : σ) :
    (ofExcept x >>= f).run s = match x with
      | .ok a => (f a).run s
      | .error e => .error e s := by
  cases x <;> rfl

theorem run_bind_of_ok (h : x.run s = .ok a t) (f : α → Op σ β) :
    (x >>= f).run s = (f a).run t := by
  rw [EStateM.run_bind, h]

theorem run_bind_of_error (h : x.run s = .error e t) (f : α → Op σ β) :
    (x >>= f).run s = .error e t := by
  rw [EStateM.run_bind, h]

theorem after_of_ok (h : x.run s = .ok a t) : x.after s = t := by
  rw [after, h]

theorem run_of_returns [DecidableEq α] {s : σ} (h : x.returns s a = true) :
    x.run s = .ok a (x.after s) := by
  unfold returns at h
  unfold after
  cases hx : x.run s with
  | ok b t =>
    rw [hx] at h
    rw [of_decide_eq_true h]
  | error e t =>
    rw [hx] at h
    cases h

theorem after_of_error (h : x.run s = .error e t) : x.after s = t := by
  rw [after, h]

theorem after_congr {x y : Op σ α} (h : x.run s = y.run t) : x.after s = y.after t := by
  unfold after
  rw [h]

theorem run_orFail (x : Op σ α) (code : Int) (s : σ) : (x.orFail code).run s = match x.run s with
      | .ok a t => .ok a t
      | .error e t => .error (e.withCode code) t := rfl

theorem run_orFail_of_ok (h : x.run s = .ok a t) (code : Int) :
    (x.orFail code).run s = .ok a t := by
  rw [run_orFail, h]

theorem run_orFail_of_error (h : x.run s = .error e t) (code : Int) :
    (x.orFail code).run s = .error (e.withCode code) t := by
  rw [run_orFail, h]

theorem run_attempt (x : Op σ α) (s : σ) : x.attempt.run s = match x.run s with
      | .ok a t => .ok (.ok a) t
      | .error (.err code) t => .ok (.error code) t
      | .error .fault t => .error .fault t := rfl

theorem run_attempt_of_ok (h : x.run s = .ok a t) : x.attempt.run s = .ok (.ok a) t := by
  rw [run_attempt, h]

theorem run_attempt_of_fault (h : x.run s = .error .fault t) :
    x.attempt.run s = .error .fault t := by
  rw [run_attempt, h]

/-! ## Postconditions -/

/-- After `x` from `s`: `Q` of the value and the state, or `E` of the reason to stop and the
state. -/
def Post (x : Op σ α) (s : σ) (Q : α → σ → Prop) (E : Stop → σ → Prop) : Prop :=
  match x.run s with
  | .ok a t => Q a t
  | .error e t => E e t

section Post

variable {x : Op σ α} {s t : σ} {Q : α → σ → Prop} {E : Stop → σ → Prop} {f : β → Op σ α}
  {y : Op σ β} {E' : Stop → σ → Prop} {F : Stop → σ → Prop} {Q' : α → σ → Prop} {R : β → σ → Prop}
  {P : σ → Prop}

theorem Post.ok (h : Post x s Q E) (hx : x.run s = .ok a t) : Q a t := by
  unfold Post at h
  rwa [hx] at h

theorem Post.of_ok (hx : x.run s = .ok a t) (h : Q a t) : Post x s Q E := by
  unfold Post
  rwa [hx]

theorem Post.of_error (hx : x.run s = .error e t) (h : E e t) : Post x s Q E := by
  unfold Post
  rwa [hx]

theorem Post.of_after (h : P (x.after s)) : Post x s (fun _ t => P t) (fun _ t => P t) := by
  unfold after at h
  unfold Post
  cases hx : x.run s with
  | ok a t => rwa [hx] at h
  | error e t => rwa [hx] at h

theorem Post.after (h : Post x s (fun _ t => P t) (fun _ t => P t)) : P (x.after s) := by
  unfold Post at h
  unfold Op.after
  cases hx : x.run s with
  | ok a t => rwa [hx] at h
  | error e t => rwa [hx] at h

theorem Post.mono (h : Post x s Q E) (hQ : ∀ a t, Q a t → Q' a t) (hE : ∀ e t, E e t → E' e t) :
    Post x s Q' E' := by
  unfold Post at h ⊢
  cases hx : x.run s with
  | ok a t =>
    rw [hx] at h
    exact hQ a t h
  | error e t =>
    rw [hx] at h
    exact hE e t h

theorem Post.and (h : Post x s Q E) (h' : Post x s Q' E') :
    Post x s (fun a t => Q a t ∧ Q' a t) (fun e t => E e t ∧ E' e t) := by
  unfold Post at h h' ⊢
  cases hx : x.run s with
  | ok a t =>
    rw [hx] at h h'
    exact ⟨h, h'⟩
  | error e t =>
    rw [hx] at h h'
    exact ⟨h, h'⟩

theorem Post.pure (h : Q a s) : Post (pure a) s Q E := h

theorem Post.fail {code : Int} (h : E (.err code) s) : Post (fail code) s Q E := h

theorem Post.fault (h : E .fault s) : Post fault s Q E := h

theorem Post.asInt {Q : Nat → σ → Prop} {v : Nat} (hQ : v < 2 ^ 31 → Q v s)
    (hE : 2 ^ 31 ≤ v → E (.err ((v : Int) - 2 ^ 32)) s) : Post (asInt v) s Q E := by
  unfold Op.asInt
  split
  · rename_i hle
    exact Post.fail (hE hle)
  · exact Post.pure (hQ (by omega))

theorem Post.get_bind {f : σ → Op σ α} (h : Post (f s) s Q E) : Post (get >>= f) s Q E := h

theorem Post.modify_bind {g : σ → σ} {f : PUnit → Op σ α} (h : Post (f ()) (g s) Q E) :
    Post (modify g >>= f) s Q E := h

/-- Sequencing: the second part starts where the first one ends. -/
theorem Post.bind (hy : Post y s R F) (hf : ∀ b t, R b t → Post (f b) t Q E)
    (hF : ∀ e t, F e t → E e t) : Post (y >>= f) s Q E := by
  unfold Post at hy ⊢
  cases hrun : y.run s with
  | ok b t =>
    rw [hrun] at hy
    rw [run_bind_of_ok hrun]
    exact hf b t hy
  | error e t =>
    rw [hrun] at hy
    rw [run_bind_of_error hrun]
    exact hF e t hy

theorem Post.attempt_bind {f : Except Int β → Op σ α} (hy : Post y s R F)
    (hok : ∀ b t, R b t → Post (f (.ok b)) t Q E)
    (herr : ∀ code t, F (.err code) t → Post (f (.error code)) t Q E)
    (hfault : ∀ t, F .fault t → E .fault t) : Post (y.attempt >>= f) s Q E := by
  have hrun := run_attempt y s
  unfold Post at hy
  cases hx : y.run s with
  | ok b t =>
    rw [hx] at hy hrun
    unfold Post
    rw [run_bind_of_ok hrun]
    exact hok b t hy
  | error e t =>
    rw [hx] at hy hrun
    unfold Post
    cases e with
    | err code =>
      rw [run_bind_of_ok hrun]
      exact herr code t hy
    | fault =>
      rw [run_bind_of_error hrun]
      exact hfault t hy

theorem Post.bind_assoc {γ : Type} {y : Op σ γ} {g : γ → Op σ β} (h : Post (y >>= g >>= f) s Q E) :
    Post (y >>= fun c => g c >>= f) s Q E := by
  rwa [LawfulMonad.bind_assoc] at h

theorem Post.ofExcept_bind {y : Except Stop β} (hok : ∀ b, y = .ok b → Post (f b) s Q E)
    (herr : ∀ e, y = .error e → E e s) : Post (ofExcept y >>= f) s Q E := by
  cases y with
  | ok b => exact hok b rfl
  | error e => exact herr e rfl

theorem post_bind_iff {b : β} (hy : y.run s = .ok b t) :
    Post (y >>= f) s Q E ↔ Post (f b) t Q E := by
  unfold Post
  rw [run_bind_of_ok hy]

theorem Post.bind_ok {b : β} (hy : y.run s = .ok b t) (h : Post (f b) t Q E) :
    Post (y >>= f) s Q E :=
  (post_bind_iff hy).2 h

end Post

/-! ## What operations leave alone -/

/-- The operation does not change what `f` reads, whether it succeeds or not, and its error codes
are negative. -/
def Keeps {ρ : Type} (f : σ → ρ) (x : Op σ α) : Prop :=
  ∀ s, Post x s (fun _ t => f t = f s) (fun e t => f t = f s ∧ e.IsCode)

section Keeps

variable {ρ : Type} {f : σ → ρ} {x : Op σ α} {code : Int}

theorem keeps_pure (a : α) : Keeps f (pure a) := fun _ => Post.pure rfl

theorem keeps_fail (h : (Stop.err code).IsCode) : Keeps f (fail code : Op σ α) :=
  fun _ => Post.fail ⟨rfl, h⟩

theorem keeps_fault : Keeps f (fault : Op σ α) := fun _ => Post.fault ⟨rfl, trivial⟩

theorem keeps_get_bind {k : σ → Op σ α} (hk : ∀ s, Keeps f (k s)) : Keeps f (get >>= k) :=
  fun s => Post.get_bind (hk s s)

theorem Keeps.bind (hx : Keeps f x) {k : α → Op σ β} (hk : ∀ a, Keeps f (k a)) :
    Keeps f (x >>= k) := by
  refine fun s => Post.bind (hx s) (fun a t h => ?_) fun _ _ h => h
  exact (hk a t).mono (fun _ _ h' => h'.trans h) fun _ _ h' => ⟨h'.1.trans h, h'.2⟩

theorem keeps_modify_bind {g : σ → σ} (hg : ∀ s, f (g s) = f s) {k : Unit → Op σ α}
    (hk : Keeps f (k ())) : Keeps f (modify g >>= k) :=
  Keeps.bind (fun s => Post.modify_bind (Post.pure (hg s))) fun _ => hk

theorem Keeps.orFail (hx : Keeps f x) (h : (Stop.err code).IsCode) : Keeps f (x.orFail code) := by
  intro s
  have hs := hx s
  unfold Post at hs ⊢
  rw [run_orFail]
  cases hrun : x.run s with
  | ok a t => rwa [hrun] at hs
  | error e t =>
    rw [hrun] at hs
    cases e with
    | err _ => exact ⟨hs.1, h⟩
    | fault => exact hs

theorem keeps_loop {body : Nat → Op σ Unit} (hbody : ∀ i, Keeps f (body i)) (n i : Nat) :
    Keeps f (loop body n i) := by
  induction n generalizing i with
  | zero => exact keeps_pure ()
  | succ n ih => exact (hbody i).bind fun _ => ih (i + 1)

theorem Keeps.comp {τ : Type} (hx : Keeps f x) (g : ρ → τ) : Keeps (fun s => g (f s)) x :=
  fun s => (hx s).mono (fun _ _ h => congrArg g h) fun _ _ h => ⟨congrArg g h.1, h.2⟩

theorem Keeps.post (hx : Keeps f x) (s : σ) :
    Post x s (fun _ t => f t = f s) (fun _ t => f t = f s) :=
  (hx s).mono (fun _ _ h => h) fun _ _ h => h.1

theorem Keeps.after (hx : Keeps f x) (s : σ) : f (x.after s) = f s :=
  Post.after (P := fun t => f t = f s) (hx.post s)

end Keeps

end Op

/-! ## Pure functions that can fail -/

/-- Every error is a negative code, and there is no fault. -/
def Coded {α : Type} (x : Except Stop α) : Prop := ∀ e, x = .error e → ∃ code < 0, e = .err code

theorem coded_ok {α : Type} (a : α) : Coded (.ok a) := nofun

theorem coded_err {α : Type} {code : Int} (h : code < 0) :
    Coded (.error (.err code) : Except Stop α) := by
  rintro _ ⟨⟩
  exact ⟨code, h, rfl⟩

theorem Coded.bind {α β : Type} {x : Except Stop α} {f : α → Except Stop β} (hx : Coded x)
    (hf : ∀ a, Coded (f a)) : Coded (x >>= f) := by
  cases x with
  | ok a => exact hf a
  | error e =>
    rintro _ ⟨⟩
    exact hx e rfl

end Lib
