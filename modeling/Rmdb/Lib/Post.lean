/-
Postconditions of programs that may fail, and how programs that raise errors
compute.

`Post x Q` is partial correctness for `Option`: if `x` gives a value, the value
satisfies `Q`. There is one rule for each way such a program is put together.
-/
import Mathlib.Tactic

namespace Rmdb

variable {α β : Type}

def Post (x : Option α) (Q : α → Prop) : Prop := ∀ a, x = some a → Q a

namespace Post

variable {x : Option α} {P Q : α → Prop}

theorem eq : Post x fun a => x = some a := fun _ h => h

theorem some {a : α} (h : Q a) : Post (.some a) Q := by
  intro b hb
  cases hb
  exact h

theorem none : Post (.none : Option α) Q := by
  intro a ha
  cases ha

theorem mono (h : Post x P) (hPQ : ∀ a, P a → Q a) : Post x Q := fun a ha => hPQ a (h a ha)

theorem bind {f : α → Option β} {Q : β → Prop} (hx : Post x P) (hf : ∀ a, P a → Post (f a) Q) : Post (x >>= f) Q := by
  intro b hb
  obtain ⟨a, ha, hfa⟩ := Option.bind_eq_some_iff.1 hb
  exact hf a (hx a ha) b hfa

theorem ite {c : Prop} [Decidable c] {y : Option α} (hx : c → Post x Q) (hy : ¬ c → Post y Q) :
    Post (if c then x else y) Q := by
  by_cases h : c
  · rw [if_pos h]
    exact hx h
  · rw [if_neg h]
    exact hy h

/-- `let a ← if c then x else y`, which is written out with the rest in both branches. -/
theorem iteBind {c : Prop} [Decidable c] {y : Option α} {f : α → Option β} {Q : β → Prop} (hx : c → Post x P)
    (hy : ¬ c → Post y P) (hf : ∀ a, P a → Post (f a) Q) : Post (if c then x >>= f else y >>= f) Q :=
  ite (fun h => bind (hx h) hf) (fun h => bind (hy h) hf)

theorem foldlM {f : β → α → Option β} {Q : β → Prop} (hf : ∀ b a, Q b → Post (f b a) Q) :
    ∀ (as : List α) {b : β}, Q b → Post (as.foldlM f b) Q
  | [], _, hb => some hb
  | a :: as, b, hb => by
    rw [List.foldlM_cons]
    exact bind (hf b a hb) fun b' hb' => foldlM hf as hb'

end Post

section Except

variable {ε : Type}

@[simp] theorem ok_bind (a : α) (f : α → Except ε β) : (Except.ok a >>= f) = f a := rfl

@[simp] theorem error_bind (e : ε) (f : α → Except ε β) : (Except.error e >>= f) = .error e := rfl

theorem bind_eq_ok {x : Except ε α} {f : α → Except ε β} {b : β} : x >>= f = .ok b ↔ ∃ a, x = .ok a ∧ f a = .ok b := by
  cases x with
  | error e => simp
  | ok a => simp

end Except

end Rmdb
