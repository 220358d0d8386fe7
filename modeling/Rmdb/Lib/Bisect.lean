/-
Bisection of an index range by a predicate: the loop that halves `[l, r)`
until the ends meet, and what it finds when the predicate is monotone. The
first index where the predicate holds, or `r` when it holds nowhere.
-/
import Mathlib.Tactic

namespace Rmdb.Bisect

/-- `while (l < r)`: keep the left half when `p` holds at the middle, the
right half when it does not. Both ends are returned; a loop entered with
`r < l` leaves them as they are. -/
def loop (p : Nat → Bool) : Nat → Nat → Nat → Nat × Nat
  | 0, l, r => (l, r)
  | n + 1, l, r =>
    if l < r then
      let mid := (l + r) / 2
      if p mid then loop p n l mid else loop p n (mid + 1) r
    else (l, r)

/-- `m` splits `[l, r)`: `p` fails before it and holds from it on. -/
structure Splits (p : Nat → Bool) (l r m : Nat) : Prop where
  le : l ≤ m
  ge : m ≤ r
  below : ∀ i, l ≤ i → i < m → p i = false
  above : ∀ i, m ≤ i → i < r → p i = true

theorem loop_splits {p : Nat → Bool} : ∀ {n l r : Nat}, l ≤ r → r - l ≤ n →
    (∀ i j, i ≤ j → j < r → p i = true → p j = true) →
    ∃ m, loop p n l r = (m, m) ∧ Splits p l r m
  | 0, l, r, hlr, hn, _ => by
    obtain rfl : l = r := by omega
    exact ⟨l, rfl, le_refl _, le_refl _, fun i _ _ => by omega, fun i _ _ => by omega⟩
  | n + 1, l, r, hlr, hn, hp => by
    rcases Nat.eq_or_lt_of_le hlr with rfl | hlt
    · exact ⟨l, by simp [loop], le_refl _, le_refl _, fun i _ _ => by omega, fun i _ _ => by omega⟩
    have hmid : l ≤ (l + r) / 2 ∧ (l + r) / 2 < r := by omega
    simp only [loop, hlt, if_true]
    cases hpm : p ((l + r) / 2) with
    | true =>
      obtain ⟨m, hm, hs⟩ := loop_splits (n := n) (l := l) (r := (l + r) / 2) hmid.1 (by omega)
        fun i j hij hj => hp i j hij (by omega)
      refine ⟨m, by simpa using hm, hs.le, by have := hs.ge; omega, hs.below, fun i him hir => ?_⟩
      rcases Nat.lt_or_ge i ((l + r) / 2) with hi | hi
      · exact hs.above i him hi
      · exact hp _ i hi hir hpm
    | false =>
      obtain ⟨m, hm, hs⟩ := loop_splits (n := n) (l := (l + r) / 2 + 1) (r := r) (by omega) (by omega) hp
      refine ⟨m, by simpa using hm, by have := hs.le; omega, hs.ge, fun i hli him => ?_, hs.above⟩
      rcases Nat.lt_or_ge i ((l + r) / 2 + 1) with hi | hi
      · -- left of the middle `p` fails, as it fails at the middle
        cases hpi : p i with
        | false => rfl
        | true => rw [hp i _ (by omega) hmid.2 hpi] at hpm; cases hpm
      · exact hs.below i hi him

end Rmdb.Bisect
