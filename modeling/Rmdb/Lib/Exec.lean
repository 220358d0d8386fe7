/-
Programs with a state that may raise an error.

An error ends the program but does not take back what was done to the state
before. `wp x Q E` is the weakest precondition of `x`, for a postcondition of the
return and one of the error; there is one equation for each way such a program is
put together, and the rule for a loop over a list.
-/
import Mathlib.Tactic

namespace Rmdb

def Exec (ε σ α : Type) := σ → Except ε α × σ

namespace Exec

variable {ε σ τ α β : Type}

instance : Monad (Exec ε σ) where
  pure a := fun s => (.ok a, s)
  bind x f := fun s =>
    match x s with
    | (.ok a, s') => f a s'
    | (.error e, s') => (.error e, s')

def raise (e : ε) : Exec ε σ α := fun s => (.error e, s)

def asks (f : σ → α) : Exec ε σ α := fun s => (.ok (f s), s)

def modify (f : σ → σ) : Exec ε σ Unit := fun s => (.ok (), f s)

def ofExcept : Except ε α → Exec ε σ α
  | .ok a => pure a
  | .error e => raise e

def when (c : Bool) (x : Exec ε σ Unit) : Exec ε σ Unit := if c then x else pure ()

def zoom (view : σ → τ) (put : τ → σ → σ) (x : Exec ε τ α) : Exec ε σ α := fun s =>
  match x (view s) with
  | (r, t) => (r, put t s)

/-- From `s` the program returns with `Q`, or raises an error with `E`. -/
def wp (x : Exec ε σ α) (Q : α → σ → Prop) (E : ε → σ → Prop) (s : σ) : Prop :=
  match x s with
  | (.ok a, s') => Q a s'
  | (.error e, s') => E e s'

variable {Q Q' : α → σ → Prop} {E E' : ε → σ → Prop} {s : σ}

@[simp] theorem wp_pure (a : α) : wp (pure a : Exec ε σ α) Q E s ↔ Q a s := Iff.rfl

@[simp] theorem wp_raise (e : ε) : wp (raise e : Exec ε σ α) Q E s ↔ E e s := Iff.rfl

@[simp] theorem wp_asks (f : σ → α) : wp (asks f) Q E s ↔ Q (f s) s := Iff.rfl

@[simp] theorem wp_modify {Q : Unit → σ → Prop} (f : σ → σ) : wp (modify f) Q E s ↔ Q () (f s) := Iff.rfl

theorem bind_apply (x : Exec ε σ α) (f : α → Exec ε σ β) (s : σ) :
    (x >>= f) s = match x s with
      | (.ok a, s') => f a s'
      | (.error e, s') => (.error e, s') := rfl

@[simp] theorem wp_bind {Q : β → σ → Prop} (x : Exec ε σ α) (f : α → Exec ε σ β) :
    wp (x >>= f) Q E s ↔ wp x (fun a s' => wp (f a) Q E s') E s := by
  unfold wp
  rw [bind_apply]
  rcases x s with ⟨⟨⟩, s'⟩ <;> rfl

theorem wp_zoom (view : σ → τ) (put : τ → σ → σ) (x : Exec ε τ α) :
    wp (zoom view put x) Q E s ↔ wp x (fun a t => Q a (put t s)) (fun e t => E e (put t s)) (view s) := by
  unfold wp zoom
  rcases x (view s) with ⟨⟨⟩, t⟩ <;> rfl

theorem wp_when {c : Bool} {x : Exec ε σ Unit} {Q : Unit → σ → Prop} (ht : c = true → wp x Q E s)
    (hf : c = false → Q () s) : wp (when c x) Q E s := by
  cases c with
  | false => exact hf rfl
  | true => exact ht rfl

theorem wp_ofExcept {x : Except ε α} (hok : ∀ a, x = .ok a → Q a s) (herr : ∀ e, x = .error e → E e s) :
    wp (ofExcept x) Q E s := by
  cases x with
  | error e => exact herr e rfl
  | ok a => exact hok a rfl

theorem wp_mono {x : Exec ε σ α} (h : wp x Q E s) (hQ : ∀ a s', Q a s' → Q' a s') (hE : ∀ e s', E e s' → E' e s') :
    wp x Q' E' s := by
  unfold wp at h ⊢
  rcases hx : x s with ⟨⟨⟩, s'⟩
  · rw [hx] at h
    exact hE _ _ h
  · rw [hx] at h
    exact hQ _ _ h

/-- A loop over a list: `I pre` holds when the elements `pre` are done. -/
theorem wp_forM {f : α → Exec ε σ Unit} {I : List α → σ → Prop} {l : List α} (h0 : I [] s)
    (hf : ∀ pre a post s', l = pre ++ a :: post → I pre s' → wp (f a) (fun _ s'' => I (pre ++ [a]) s'') E s') :
    wp (l.forM f) (fun _ s' => I l s') E s := by
  suffices h : ∀ post pre s', l = pre ++ post → I pre s' → wp (post.forM f) (fun _ s'' => I l s'') E s' from
    h l [] s rfl h0
  intro post
  induction post with
  | nil =>
    intro pre s' hl hI
    rw [List.append_nil] at hl
    exact hl ▸ hI
  | cons a post ih =>
    intro pre s' hl hI
    change wp (f a >>= fun _ => post.forM f) _ E s'
    rw [wp_bind]
    refine wp_mono (hf pre a post s' hl hI) (fun _ s'' hI' => ih (pre ++ [a]) s'' (by simp [hl]) hI') fun _ _ h => h

end Exec

end Rmdb
