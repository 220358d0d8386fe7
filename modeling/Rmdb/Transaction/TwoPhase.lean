/-
Two-phase locking.

`check_lock` turns a transaction away once its state is `SHRINKING`, which
`unlock` sets for a transaction that is `GROWING`. So one whose calls never went
through `check_lock` may lock again after it gave locks back; and the calls
without `check_lock`, `lock_IX_on_table` and `isSafeInGap`, are open in any state.
-/
import Rmdb.Transaction.LockSteps

namespace Rmdb.Lock

open Run

/-- The transaction has begun to give locks back, or has ended. -/
def TransactionState.released : TransactionState → Bool
  | .default => false
  | .growing => false
  | _ => true

theorem TransactionState.checkLock_of_released {st : TransactionState} (h : st.released) :
    LockManager.checkLock st = .error (.throw .lockOnShrinking) ∨ LockManager.checkLock st = .error (.ret false) := by
  cases st <;> simp_all [released, LockManager.checkLock]

variable {Ix V : Type} [DecidableEq Ix] [Index.IxCmp V] [GapData Ix V]

namespace LockManager

/-- A transaction that has given locks back never leaves that phase. -/
theorem Stepped.released {s s' : LockManager Ix V} {a : Step Ix V} {r : Reply} (h : Stepped s a r s') {u : TxnId}
    (hu : (s.txns u).state.released) : (s'.txns u).state.released := by
  cases h with
  | refused => exact hu
  | call t c st r s' hw hst h =>
    rw [h.state u, setState_state]
    split_ifs with hut
    · subst hut
      rcases hst with ⟨rfl, _⟩ | hst
      · exact hu
      · rcases TransactionState.checkLock_of_released hu with h' | h' <;> simp [h'] at hst
    · exact hu
  | wake t w =>
    rw [grantNow_state]
    exact hu
  | wakeInsert t w r s' hw hcall h => rw [h.state u]; exact hu
  | unlockEnded => exact hu
  | unlock t id st hw he hst =>
    rw [removeRequests_txns, setState_state]
    split_ifs with hut
    · subst hut
      rw [hst]
      split_ifs
      · rfl
      · exact hu
    · exact hu
  | finish t st hw hst =>
    by_cases hut : u = t
    · subst hut
      cases st <;> simp_all [TransactionState.ended, TransactionState.released]
    · simpa [hut] using hu
  | rehash => exact hu

end LockManager

/-- The condition under which locking is two-phase: the calls without
`check_lock` are not made by a transaction that has given locks back, and none
gives a lock back while its state is still `DEFAULT`. -/
def TwoPhaseStep (s : LockManager Ix V) : Step Ix V → Prop
  | .call t c => c.checksLock ∨ (s.txns t).state.released = false
  | .unlock t id => t ∈ (s.table.queue id).txns → (s.txns t).state ≠ .default
  | _ => True

open LockManager

theorem released_of_unlock [DecidableEq V] {s s' : LockManager Ix V} {t : TxnId} {id : LockDataId Ix} {r : Reply}
    (h : s.step (.unlock t id) = some (r, s')) (hC : TwoPhaseStep s (.unlock t id)) (ht : t ∈ (s.table.queue id).txns) :
    (s'.txns t).state.released := by
  cases stepped h with
  | unlockEnded _ _ he => cases hs : (s.txns t).state <;> simp_all [TransactionState.ended, TransactionState.released]
  | unlock _ _ st hw he hst =>
    rw [removeRequests_txns, setState_state, if_pos rfl, hst]
    have hne := hC ht
    cases hs : (s.txns t).state <;> simp_all [TransactionState.ended, TransactionState.released]

/-- Once `unlock` has removed a request of a transaction, each of its later
lock calls throws `LOCK_ON_SHIRINKING` or returns false. -/
theorem no_lock_after_unlock [DecidableEq V] (pre post : List (Step Ix V)) (t : TxnId) (id : LockDataId Ix) (c : Call Ix V)
    {h₀ h₂ : List (Step Ix V × Reply)} {s₀ s₁ s₂ s₃ : LockManager Ix V} {r₁ r : Reply}
    (hC : Along step TwoPhaseStep {} (pre ++ .unlock t id :: (post ++ [.call t c])))
    (hpre : run step {} pre = some (h₀, s₀)) (hmine : t ∈ (s₀.table.queue id).txns)
    (hunlock : s₀.step (.unlock t id) = some (r₁, s₁)) (hpost : run step s₁ post = some (h₂, s₂))
    (hcall : s₂.step (.call t c) = some (r, s₃)) : r = .throw .lockOnShrinking ∨ r = .ret false := by
  have hC₀ := (Along.of_append hC).2 hpre
  have hC₁ := hC₀.2 r₁ s₁ hunlock
  have hreleased : (s₂.txns t).state.released :=
    runFrom_invariant (R := fun _ s => (s.txns t).state.released) (fun _ s a b s' hR _ hs => (stepped hs).released hR)
      (released_of_unlock hunlock hC₀.1 hmine) (Along.of_append hC₁).1 hpost
  have hchecks : c.checksLock := by
    rcases ((Along.of_append hC₁).2 hpost).1 with h | h
    · exact h
    · simp [hreleased] at h
  rw [step, call] at hcall
  split_ifs at hcall
  rcases TransactionState.checkLock_of_released hreleased with h | h
  · rw [h] at hcall; cases hcall; exact .inl rfl
  · rw [h] at hcall; cases hcall; exact .inr rfl

theorem no_lock_after_unlock_table : ∃ (s₀ s₁ s₂ : LockManager Unit Int) (r : Reply),
    step {} (.call 1 (.sharedOnTable 1)) = some (.ret true, s₀) ∧ s₀.step (.unlock 1 (.table 1)) = some (.ret true, s₁) ∧
      s₁.step (.call 1 (.sharedOnTable 2)) = some (r, s₂) ∧ (r = .throw .lockOnShrinking ∨ r = .ret false) := by
  have hC : Along step TwoPhaseStep ({} : LockManager Unit Int)
      [.call 1 (.sharedOnTable 1), .unlock 1 (.table 1), .call 1 (.sharedOnTable 2)] :=
    .cons (.inl rfl) rfl (.cons (fun _ => nofun) rfl (.cons (.inl rfl) rfl trivial))
  exact ⟨_, _, _, _, rfl, rfl, rfl,
    no_lock_after_unlock [.call 1 (.sharedOnTable 1)] [] 1 (.table 1) (.sharedOnTable 2) hC rfl (by decide) rfl rfl rfl⟩

/-- `lock_IX_on_table` leaves its transaction in `DEFAULT`, and so does the
`unlock` that follows: the next call grants a lock. -/
theorem lock_granted_after_unlock : ∃ s₀ s₁ s₂ : LockManager Unit Int,
    step {} (.call 1 (.ixOnTable 1)) = some (.ret true, s₀) ∧ 1 ∈ (s₀.table.queue (.table 1)).txns ∧
      s₀.step (.unlock 1 (.table 1)) = some (.ret true, s₁) ∧ 1 ∉ (s₁.table.queue (.table 1)).txns ∧
      s₁.step (.call 1 (.sharedOnTable 2)) = some (.ret true, s₂) ∧
      (s₂.table.queue (.table 2)).requests = [⟨1, .shared, true⟩] := by
  exact ⟨_, _, _, rfl, by decide, rfl, by decide, rfl, rfl⟩

end Rmdb.Lock
