/-
The end of a transaction: its locks.

`commit` and `abort` unlock each object in the lock set of their transaction,
clear it, and set the state; other calls may come between two of the unlocks. So
the lock set has to cover every queue the transaction has a request in, but for
the one it is waiting in.
-/
import Rmdb.Transaction.LockSteps

namespace Rmdb.Lock

open Option Function Run

variable {Ix V : Type} [DecidableEq Ix]

/-! ## What a step leaves to the other transactions -/

namespace LockManager

def HasRequest (s : LockManager Ix V) (t : TxnId) (id : LockDataId Ix) : Prop := t ∈ (s.table.queue id).txns

theorem hasRequest_removeRequests (s : LockManager Ix V) (t : TxnId) (id : LockDataId Ix) (u : TxnId)
    (id' : LockDataId Ix) :
    (s.removeRequests t id).HasRequest u id' ↔ s.HasRequest u id' ∧ ¬(u = t ∧ id' = id) := by
  rw [HasRequest, HasRequest]
  by_cases hid : id' = id
  · subst hid
    simp [removeRequests_queue_txns]
  · rw [LockTable.queue, removeRequests_lookup_ne s t hid, ← LockTable.queue]
    simp [hid]

structure Frame (t : TxnId) (s s' : LockManager Ix V) : Prop where
  state : ∀ u, u ≠ t → (s'.txns u).state = (s.txns u).state
  waiting : ∀ u, u ≠ t → s'.waiting u = s.waiting u
  requests : ∀ u id, u ≠ t → (s'.HasRequest u id ↔ s.HasRequest u id)

theorem Frame.refl (t : TxnId) (s : LockManager Ix V) : Frame t s s where
  state _ _ := rfl
  waiting _ _ := rfl
  requests _ _ _ := Iff.rfl

variable {t u : TxnId} {s s' : LockManager Ix V} {id : LockDataId Ix} {c : Call Ix V} {r : Reply}

theorem Frame.trans {s₁ s₂ s₃ : LockManager Ix V} (h₁ : Frame t s₁ s₂) (h₂ : Frame t s₂ s₃) : Frame t s₁ s₃ where
  state u hu := (h₂.state u hu).trans (h₁.state u hu)
  waiting u hu := (h₂.waiting u hu).trans (h₁.waiting u hu)
  requests u id hu := (h₂.requests u id hu).trans (h₁.requests u id hu)

theorem frame_setState (s : LockManager Ix V) (t : TxnId) (st : TransactionState) : Frame t s (s.setState t st) where
  state u hu := by rw [setState_state, if_neg hu]
  waiting _ _ := rfl
  requests _ _ _ := Iff.rfl

theorem frame_setWaiting (s : LockManager Ix V) (t : TxnId) (w : Option (Wait Ix V)) : Frame t s (s.setWaiting t w) where
  state _ _ := rfl
  waiting _ hu := setWaiting_waiting_ne s hu w
  requests _ _ _ := Iff.rfl

theorem frame_removeRequests (s : LockManager Ix V) (t : TxnId) (id : LockDataId Ix) : Frame t s (s.removeRequests t id) where
  state u _ := by rw [removeRequests_txns]
  waiting u _ := by rw [removeRequests_waiting]
  requests u id' hu := by
    rw [hasRequest_removeRequests]
    exact and_iff_left fun h => hu h.1

variable [GapData Ix V]

def WaitsIn (s : LockManager Ix V) (t : TxnId) (id : LockDataId Ix) : Prop :=
  ∃ w, s.waiting t = some w ∧ w.call.inserts = false ∧ w.call.id = id

/-- The lock sets cover the queues, a transaction that waits in a queue has a
request there, and no queue is empty. -/
structure Covered (s : LockManager Ix V) : Prop where
  locked : ∀ t id, s.HasRequest t id → id ∈ (s.txns t).lockSet ∨ s.WaitsIn t id
  waits : ∀ t id, s.WaitsIn t id → s.HasRequest t id
  nonempty : ∀ id e, s.table.lookup id = some e → e.queue.txns ≠ []

theorem waitsIn_setWaiting {w : Option (Wait Ix V)} (hu : u ≠ t)
    (h : s.WaitsIn u id) : (s.setWaiting t w).WaitsIn u id := by
  obtain ⟨wu, hwu, hcall⟩ := h
  exact ⟨wu, (setWaiting_waiting_ne s hu w).trans hwu, hcall⟩

theorem waitsIn_of_setWaiting (h : (s.setWaiting t none).WaitsIn u id) : s.WaitsIn u id := by
  obtain ⟨w, hw, hcall⟩ := h
  by_cases hu : u = t
  · rw [hu, setWaiting_waiting_self] at hw
    cases hw
  · rw [setWaiting_waiting_ne _ hu] at hw
    exact ⟨w, hw, hcall⟩

/-- The queue that a call stores: its transaction's requests are in it beside those that were there. -/
theorem hasRequest_store (s : LockManager Ix V) (c : Call Ix V) {q : LockRequestQueue}
    (hq : (q.txns = (s.table.queue c.id).txns ∧ t ∈ (s.table.queue c.id).txns) ∨ q.txns = (s.table.queue c.id).txns ++ [t])
    (u : TxnId) (id : LockDataId Ix) :
    (s.store c q).HasRequest u id ↔ s.HasRequest u id ∨ (u = t ∧ id = c.id) := by
  rw [HasRequest, HasRequest, store]
  by_cases hid : id = c.id
  · subst hid
    rw [LockTable.queue_store_self]
    rcases hq with ⟨hq, ht⟩ | hq
    · rw [hq]
      constructor
      · exact .inl
      · rintro (h | ⟨rfl, _⟩)
        · exact h
        · exact ht
    · simp [hq]
  · rw [LockTable.queue_store_ne _ hid]
    simp [hid]

theorem hasRequest_granted (s : LockManager Ix V) (t : TxnId) (c : Call Ix V) (u : TxnId) (id : LockDataId Ix) :
    (s.grantNow t c).2.HasRequest u id ↔ s.HasRequest u id := by
  change u ∈ (LockTable.queue (LockTable.store _ _ _ _) id).txns ↔ u ∈ _
  by_cases hid : id = c.id
  · rw [hid, LockTable.queue_store_self, LockRequestQueue.txns_granted]
  · rw [LockTable.queue_store_ne _ hid]

theorem frame_grantNow (s : LockManager Ix V) (t : TxnId) (c : Call Ix V) : Frame t s (s.grantNow t c).2 where
  state u _ := grantNow_state s t c u
  waiting _ _ := rfl
  requests u id _ := hasRequest_granted s t c u id

variable {w : Wait Ix V}

theorem Covered.grantNow (hs : Covered s) (hw : s.waiting t = some w)
    (hcall : w.call.inserts = false) : Covered ((s.setWaiting t none).grantNow t w.call).2 := by
  have hmine : s.HasRequest t w.call.id := hs.waits t _ ⟨w, hw, hcall, rfl⟩
  refine ⟨?_, ?_, ?_⟩
  · intro u id hu
    rw [hasRequest_granted] at hu
    change id ∈ (((s.setWaiting t none).addLock t w.call.id).txns u).lockSet ∨ (s.setWaiting t none).WaitsIn u id
    rw [mem_addLock]
    rcases hs.locked u id hu with h | h
    · exact .inl (.inr h)
    · by_cases hut : u = t
      · obtain ⟨w', hw', _, rfl⟩ := h
        rw [hut, hw] at hw'
        cases hw'
        exact .inl (.inl ⟨hut, rfl⟩)
      · exact .inr (waitsIn_setWaiting hut h)
  · intro u id hu
    rw [hasRequest_granted]
    exact hs.waits u id (waitsIn_of_setWaiting hu)
  · intro id e he
    change AList.lookup _ (LockTable.store _ _ _ _) = _ at he
    by_cases hid : id = w.call.id
    · subst hid
      rw [LockTable.lookup_store_self] at he
      cases he
      rw [LockRequestQueue.txns_granted]
      exact List.ne_nil_of_mem hmine
    · rw [LockTable.lookup_store_ne _ hid] at he
      exact hs.nonempty id e he

theorem Covered.removeRequests (hs : Covered s) (hw : s.waiting t = none)
    (id : LockDataId Ix) : Covered (s.removeRequests t id) := by
  refine ⟨?_, ?_, ?_⟩
  · intro u id' hu
    rw [hasRequest_removeRequests] at hu
    rw [removeRequests_txns, WaitsIn, removeRequests_waiting]
    exact hs.locked u id' hu.1
  · intro u id' hu
    rw [WaitsIn, removeRequests_waiting] at hu
    rw [hasRequest_removeRequests]
    refine ⟨hs.waits u id' hu, fun ⟨hut, _⟩ => ?_⟩
    obtain ⟨w, hw', _⟩ := hu
    rw [hut, hw] at hw'
    cases hw'
  · intro id' e' he'
    by_cases hid : id' = id
    · subst hid
      obtain ⟨e, he, _, ⟨_, hq⟩ | ⟨_, _, hne⟩⟩ := removeRequests_lookup s t he'
      · rw [hq]
        exact hs.nonempty id' e he
      · exact hne
    · rw [removeRequests_lookup_ne s t hid] at he'
      exact hs.nonempty id' e' he'

theorem Covered.stopWaiting (hs : Covered s)
    (hw : s.waiting t = some w) (hcall : w.call.inserts) : Covered (s.setWaiting t none) := by
  refine ⟨fun u id hu => ?_, fun u id hu => hs.waits u id (waitsIn_of_setWaiting hu), hs.nonempty⟩
  refine (hs.locked u id hu).imp_right fun hwait => waitsIn_setWaiting ?_ hwait
  rintro rfl
  obtain ⟨w', hw', hcall', _⟩ := hwait
  rw [hw] at hw'
  cases hw'
  simp [hcall] at hcall'

theorem Covered.setState (hs : Covered s) (t : TxnId) (st : TransactionState) : Covered (s.setState t st) := by
  refine ⟨fun u id hu => ?_, hs.waits, hs.nonempty⟩
  rw [setState_lockSet]
  exact hs.locked u id hu

variable [Index.IxCmp V]

theorem Acquired.hasRequest (h : Acquired s t c r s')
    (hu : s'.HasRequest u id) : s.HasRequest u id ∨ (u = t ∧ id = c.id) := by
  have hadds := verdict_adds s.table (s.txns t).state t c
  cases h with
  | refuse => exact .inl hu
  | returnFalse => exact .inl hu
  | held => exact .inl hu
  | upgrade q hv =>
    rw [hv] at hadds
    exact (hasRequest_store s c (.inl hadds) u id).1 hu
  | grant q hv =>
    rw [hv] at hadds
    exact (hasRequest_store s c (.inr hadds) u id).1 hu
  | pass q hv =>
    rw [hv] at hadds
    exact (hasRequest_store s c hadds u id).1 ((hasRequest_granted _ t c u id).1 hu)
  | block q hv =>
    rw [hv] at hadds
    exact (hasRequest_store s c hadds u id).1 hu
  | blockOn => exact .inl hu

theorem Acquired.hasRequest_mono (h : Acquired s t c r s') (hu : s.HasRequest u id) : s'.HasRequest u id := by
  have hadds := verdict_adds s.table (s.txns t).state t c
  cases h with
  | refuse => exact hu
  | returnFalse => exact hu
  | held => exact hu
  | upgrade q hv => rw [hv] at hadds; exact (hasRequest_store s c (.inl hadds) u id).2 (.inl hu)
  | grant q hv => rw [hv] at hadds; exact (hasRequest_store s c (.inr hadds) u id).2 (.inl hu)
  | pass q hv =>
    rw [hv] at hadds
    exact (hasRequest_granted _ t c u id).2 ((hasRequest_store s c hadds u id).2 (.inl hu))
  | block q hv => rw [hv] at hadds; exact (hasRequest_store s c hadds u id).2 (.inl hu)
  | blockOn => exact hu

theorem Acquired.frame (h : Acquired s t c r s') : Frame t s s' where
  state u _ := h.state u
  waiting u hu := by
    cases h
    case block q _ _ => exact setWaiting_waiting_ne _ hu _
    case blockOn id _ => exact setWaiting_waiting_ne _ hu _
    all_goals rfl
  requests u id hu := ⟨fun h' => (h.hasRequest h').resolve_right fun h'' => hu h''.1, h.hasRequest_mono⟩

/-- A call of another transaction does not make `u` wait, nor stop waiting. -/
theorem Acquired.waitsIn (h : Acquired s t c r s') (hu : s'.WaitsIn u id) :
    s.WaitsIn u id ∨ (u = t ∧ id = c.id ∧ s'.HasRequest t c.id) := by
  have hadds := verdict_adds s.table (s.txns t).state t c
  have hset (s₁ : LockManager Ix V) (hs₁ : s₁.waiting = s.waiting) {w : Wait Ix V} (hu : (s₁.setWaiting t (some w)).WaitsIn u id) :
      s.WaitsIn u id ∨ (u = t ∧ w.call.inserts = false ∧ id = w.call.id) := by
    obtain ⟨w', hw', hcall, hid⟩ := hu
    by_cases hut : u = t
    · rw [hut, setWaiting_waiting_self] at hw'
      cases hw'
      exact .inr ⟨hut, hcall, hid.symm⟩
    · rw [setWaiting_waiting_ne _ hut, hs₁] at hw'
      exact .inl ⟨w', hw', hcall, hid⟩
  cases h with
  | refuse => exact .inl hu
  | returnFalse => exact .inl hu
  | held => exact .inl hu
  | upgrade q hv => exact .inl hu
  | grant q hv => exact .inl hu
  | pass q hv => exact .inl hu
  | block q hv =>
    rw [hv] at hadds
    refine (hset _ rfl hu).imp_right fun ⟨hut, _, hid⟩ => ⟨hut, hid, ?_⟩
    exact (hasRequest_store s c hadds t c.id).2 (.inr ⟨rfl, rfl⟩)
  | blockOn id' hv =>
    refine (hset _ rfl hu).imp_right fun ⟨_, hcall, _⟩ => ?_
    simp [inserts_of_waitOn hv] at hcall

theorem Acquired.nonempty (h : Acquired s t c r s')
    {P : LockDataId Ix → Prop} (hs : ∀ id e, P id → s.table.lookup id = some e → e.queue.txns ≠ []) :
    ∀ id e, P id → s'.table.lookup id = some e → e.queue.txns ≠ [] := by
  have hadds := verdict_adds s.table (s.txns t).state t c
  -- a queue that the call stores has a request of `t`
  have hstore (q : LockRequestQueue) (hq : t ∈ q.txns) :
      ∀ id e, P id → (s.store c q).table.lookup id = some e → e.queue.txns ≠ [] := by
    intro id e hP he
    by_cases hid : id = c.id
    · subst hid
      rw [store, LockTable.lookup_store_self] at he
      cases he
      exact List.ne_nil_of_mem hq
    · rw [store, LockTable.lookup_store_ne _ hid] at he
      exact hs id e hP he
  have hmem (q : LockRequestQueue) (hq : (q.txns = (s.table.queue c.id).txns ∧ t ∈ (s.table.queue c.id).txns) ∨
      q.txns = (s.table.queue c.id).txns ++ [t]) : t ∈ q.txns := by
    rcases hq with ⟨hq, ht⟩ | hq <;> simp_all
  cases h with
  | refuse => exact hs
  | returnFalse => exact hs
  | held => exact hs
  | upgrade q hv => rw [hv] at hadds; exact hstore q (hmem q (.inl hadds))
  | grant q hv => rw [hv] at hadds; exact hstore q (hmem q (.inr hadds))
  | pass q hv =>
    rw [hv] at hadds
    intro id e hP he
    change AList.lookup _ (LockTable.store _ _ _ _) = _ at he
    by_cases hid : id = c.id
    · subst hid
      rw [LockTable.lookup_store_self] at he
      cases he
      simp only [store, LockTable.queue_store_self, LockRequestQueue.txns_granted]
      exact List.ne_nil_of_mem (hmem q hadds)
    · rw [LockTable.lookup_store_ne _ hid] at he
      exact hstore q (hmem q hadds) id e hP he
  | block q hv => rw [hv] at hadds; exact hstore q (hmem q hadds)
  | blockOn => exact hs

/-- A call of a transaction that is not waiting keeps the lock sets ahead of the queues. -/
theorem Covered.acquired (hs : Covered s) (hw : s.waiting t = none) (h : Acquired s t c r s') : Covered s' := by
  refine ⟨fun u id hu => ?_, fun u id hu => ?_,
    fun id e => h.nonempty (P := fun _ => True) (fun id e _ => hs.nonempty id e) id e trivial⟩
  case refine_2 =>
    rcases h.waitsIn hu with hu | ⟨rfl, rfl, hmine⟩
    · exact h.hasRequest_mono (hs.waits u id hu)
    · exact hmine
  -- what `t` has requests in is in its lock set already
  have hold {u : TxnId} {id : LockDataId Ix} (hu : s.HasRequest u id) :
      id ∈ (s.txns u).lockSet ∨ (u ≠ t ∧ s.WaitsIn u id) := by
    rcases hs.locked u id hu with h | ⟨w, hwu, hw'⟩
    · exact .inl h
    · refine .inr ⟨?_, w, hwu, hw'⟩
      intro hut
      rw [hut, hw] at hwu
      cases hwu
  have hadds := verdict_adds s.table (s.txns t).state t c
  have hreq := h.hasRequest hu
  cases h with
  | refuse => exact hs.locked u id hu
  | returnFalse => exact hs.locked u id hu
  | held => exact hs.locked u id hu
  | upgrade q hv =>
    -- the request that is raised was there before
    rw [hv] at hadds
    rcases hreq with hreq | ⟨rfl, rfl⟩
    · exact (hold hreq).imp_right And.right
    · exact (hold hadds.2).imp_right And.right
  | grant q hv =>
    change id ∈ (((s.store c q).addLock t c.id).txns u).lockSet ∨ s.WaitsIn u id
    rw [mem_addLock]
    rcases hreq with hreq | ⟨rfl, rfl⟩
    · exact (hold hreq).imp .inr And.right
    · exact .inl (.inl ⟨rfl, rfl⟩)
  | pass q hv =>
    change id ∈ (((s.store c q).addLock t c.id).txns u).lockSet ∨ s.WaitsIn u id
    rw [mem_addLock]
    rcases hreq with hreq | ⟨rfl, rfl⟩
    · exact (hold hreq).imp .inr And.right
    · exact .inl (.inl ⟨rfl, rfl⟩)
  | block q hv hready =>
    rcases hreq with hreq | ⟨rfl, rfl⟩
    · exact (hold hreq).imp_right fun h => waitsIn_setWaiting h.1 h.2
    · exact .inr ⟨_, setWaiting_waiting_self _ _ _, inserts_of_wait hv, rfl⟩
  | blockOn id' hv =>
    rcases hold hu with h | h
    · exact .inl h
    · exact .inr (waitsIn_setWaiting h.1 h.2)

end LockManager

/-! ## The transaction manager -/

/-- `ending` has the transactions inside `commit` or `abort`: the state they
will have, and the part of the lock set that is still to be unlocked. -/
structure TxnManager (Ix V : Type) [DecidableEq Ix] where
  locks : LockManager Ix V := {}
  ending : TxnId → Option (TransactionState × List (LockDataId Ix)) := fun _ => none

inductive TxnStep (Ix V : Type) [DecidableEq Ix] where
  /-- A lock call of a statement. -/
  | lock (t : TxnId) (c : Call Ix V)
  | wake (t : TxnId)
  /-- `TransactionManager::commit` is called, up to its first `unlock`. -/
  | commit (t : TxnId)
  | abort (t : TxnId)
  /-- The next `unlock` of `commit` or `abort`, or what follows the last one. -/
  | proceed (t : TxnId)
  | rehash (T : LockTable Ix V)

inductive TxnReply where
  | lock (r : Reply)
  | ending
  /-- `commit` or `abort` returns. -/
  | returned
  deriving DecidableEq

namespace TxnManager

def endTxn (s : TxnManager Ix V) (t : TxnId) (st : TransactionState) : Option (TxnReply × TxnManager Ix V) :=
  if (s.ending t).isSome ∨ (s.locks.waiting t).isSome then none
  else some (.ending, { s with ending := update s.ending t (some (st, (s.locks.txns t).lockSet)) })

section

variable [GapData Ix V] [Index.IxCmp V]

/-- `SetTransaction` begins a new transaction for the statement that follows
the end of one, so a transaction that has ended makes no lock calls. -/
def step [DecidableEq V] (s : TxnManager Ix V) : TxnStep Ix V → Option (TxnReply × TxnManager Ix V)
  | .lock t c =>
    if (s.ending t).isSome ∨ (s.locks.txns t).state.ended then none
    else (s.locks.step (.call t c)).map fun x => (.lock x.1, { s with locks := x.2 })
  | .wake t => (s.locks.step (.wake t)).map fun x => (.lock x.1, { s with locks := x.2 })
  | .commit t => s.endTxn t .committed
  | .abort t => s.endTxn t .aborted
  | .proceed t =>
    match s.ending t with
    | none => none
    | some (st, id :: ids) =>
      (s.locks.step (.unlock t id)).map fun x =>
        (.ending, { locks := x.2, ending := update s.ending t (some (st, ids)) })
    | some (st, []) =>
      (s.locks.step (.finish t st)).map fun x =>
        (.returned, { locks := x.2, ending := update s.ending t none })
  | .rehash T => (s.locks.step (.rehash T)).map fun x => (.lock x.1, { s with locks := x.2 })

end

/-! ## The lock sets cover the queues -/

open LockManager

variable [GapData Ix V]

structure Inv (h : List (TxnStep Ix V × TxnReply)) (s : TxnManager Ix V) : Prop where
  covered : Covered s.locks
  /-- A transaction that waits is running. -/
  running : ∀ t w, s.locks.waiting t = some w → (s.locks.txns t).state.ended = false ∧ s.ending t = none
  ended : ∀ t id, (s.locks.txns t).state.ended → ¬s.locks.HasRequest t id
  /-- What is not unlocked yet covers the requests that are left. -/
  ending : ∀ t st ids, s.ending t = some (st, ids) → st.ended ∧ ∀ id, s.locks.HasRequest t id → id ∈ ids
  returned : ∀ t, (.proceed t, .returned) ∈ h → (s.locks.txns t).state.ended

variable {t : TxnId} {r : Reply} {st : TransactionState}

variable {s s' : TxnManager Ix V} {h : List (TxnStep Ix V × TxnReply)}

/-- A step of `t` is to be looked at for `t` alone. -/
theorem Inv.frame {h' : List (TxnStep Ix V × TxnReply)} (hs : Inv h s)
    (hframe : Frame t s.locks s'.locks) (hending : ∀ u, u ≠ t → s'.ending u = s.ending u)
    (htrace : ∀ u, u ≠ t → (.proceed u, .returned) ∈ h' → (.proceed u, .returned) ∈ h) (hcov : Covered s'.locks)
    (hrunning : ∀ w, s'.locks.waiting t = some w → (s'.locks.txns t).state.ended = false ∧ s'.ending t = none)
    (hended : ∀ id, (s'.locks.txns t).state.ended → ¬s'.locks.HasRequest t id)
    (hend : ∀ st ids, s'.ending t = some (st, ids) → st.ended ∧ ∀ id, s'.locks.HasRequest t id → id ∈ ids)
    (hreturned : (.proceed t, .returned) ∈ h' → (s'.locks.txns t).state.ended) : Inv h' s' where
  covered := hcov
  running u w hw := by
    by_cases hu : u = t
    · subst hu
      exact hrunning w hw
    · rw [hframe.waiting u hu] at hw
      rw [hframe.state u hu, hending u hu]
      exact hs.running u w hw
  ended u id hu := by
    by_cases hut : u = t
    · subst hut
      exact hended id hu
    · rw [hframe.state u hut] at hu
      rw [hframe.requests u id hut]
      exact hs.ended u id hu
  ending u st ids hu := by
    by_cases hut : u = t
    · subst hut
      exact hend st ids hu
    · rw [hending u hut] at hu
      simp only [hframe.requests u _ hut]
      exact hs.ending u st ids hu
  returned u hu := by
    by_cases hut : u = t
    · subst hut
      exact hreturned hu
    · rw [hframe.state u hut]
      exact hs.returned u (htrace u hut hu)

variable {a : TxnStep Ix V}

theorem Inv.running_step {l : LockManager Ix V} (hs : Inv h s) (hframe : Frame t s.locks l) (hcov : Covered l)
    (hbefore : (s.locks.txns t).state.ended = false) (hafter : (l.txns t).state.ended = false)
    (hending : s.ending t = none) : Inv ((a, .lock r) :: h) { s with locks := l } := by
  refine hs.frame hframe (fun _ _ => rfl) (fun u _ hu => by simpa using hu) hcov (fun _ _ => ⟨hafter, hending⟩) ?_ ?_ ?_
  · intro id he
    simp [hafter] at he
  · intro st ids he
    simp [hending] at he
  · intro hret
    have := hs.returned t (by simpa using hret)
    simp [hbefore] at this

theorem inv_init : Inv [] ({} : TxnManager Ix V) where
  covered := {
    locked := fun t id h => by simp [HasRequest, LockTable.queue] at h
    waits := fun t id h => by
      obtain ⟨w, hw, _⟩ := h
      cases hw
    nonempty := fun id e h => by simp at h }
  running t w hw := by cases hw
  ended t id he := by cases he
  ending t st ids he := by cases he
  returned t h := by cases h

theorem Inv.endTxn {b : TxnReply} (hs : Inv h s) (hst : st.ended) (ha : ∀ u, a ≠ .proceed u)
    (hstep : s.endTxn t st = some (b, s')) : Inv ((a, b) :: h) s' := by
  rw [TxnManager.endTxn] at hstep
  split_ifs at hstep with hguard
  rw [not_or] at hguard
  have hw : s.locks.waiting t = none := by simpa using hguard.2
  cases hstep
  refine hs.frame (.refl t _) (fun u hu => update_of_ne hu _ _) ?_ hs.covered ?_ (fun id => hs.ended t id) ?_ ?_
  · intro u _ hu
    rcases List.mem_cons.1 hu with hu | hu
    · exact absurd (Prod.mk.inj hu).1.symm (ha u)
    · exact hu
  · intro w hw'
    rw [hw] at hw'
    cases hw'
  · intro st' ids hids
    simp only [update_self, some.injEq, Prod.mk.injEq] at hids
    obtain ⟨rfl, rfl⟩ := hids
    refine ⟨hst, fun id hmine => (hs.covered.locked t id hmine).resolve_right ?_⟩
    rintro ⟨w, hw', _⟩
    rw [hw] at hw'
    cases hw'
  · intro hret
    rcases List.mem_cons.1 hret with hret | hret
    · exact absurd (Prod.mk.inj hret).1.symm (ha t)
    · exact hs.returned t hret

theorem Inv.rehash {T : LockTable Ix V} (hs : Inv h s) (hperm : T.entries.Perm s.locks.table.entries) :
    Inv ((a, .lock r) :: h) { s with locks := { s.locks with table := T } } := by
  have hlook (id : LockDataId Ix) : T.lookup id = s.locks.table.lookup id := AList.perm_lookup hperm
  have hreq (t : TxnId) (id : LockDataId Ix) :
      HasRequest { s.locks with table := T } t id ↔ s.locks.HasRequest t id := by
    rw [HasRequest, HasRequest, LockTable.queue, hlook, ← LockTable.queue]
  constructor
  · constructor
    · intro t id hmine
      exact hs.covered.locked t id ((hreq t id).1 hmine)
    · intro t id hwait
      exact (hreq t id).2 (hs.covered.waits t id hwait)
    · intro id e he
      exact hs.covered.nonempty id e ((hlook id).symm.trans he)
  · exact hs.running
  · intro t id he hmine
    exact hs.ended t id he ((hreq t id).1 hmine)
  · intro t st ids he
    exact ⟨(hs.ending t st ids he).1, fun id hmine => (hs.ending t st ids he).2 id ((hreq t id).1 hmine)⟩
  · intro t hret
    exact hs.returned t (by simpa using hret)

variable [Index.IxCmp V]

variable {l : LockManager Ix V} {s : TxnManager Ix V} {h : List (TxnStep Ix V × TxnReply)} {a : TxnStep Ix V}

theorem Inv.lock [DecidableEq V] {c : Call Ix V} (hs : Inv h s) (hending : s.ending t = none)
    (he : (s.locks.txns t).state.ended = false) (hstep : s.locks.step (.call t c) = some (r, l)) :
    Inv ((a, .lock r) :: h) { s with locks := l } := by
  cases stepped hstep with
  | refused => exact hs.running_step (.refl t _) hs.covered he he hending
  | call _ _ st r s' hw hst hacq =>
    refine hs.running_step ((frame_setState _ t st).trans hacq.frame) ((hs.covered.setState t st).acquired hw hacq) he ?_ hending
    rw [hacq.state t, setState_state, if_pos rfl]
    rcases hst with ⟨rfl, _⟩ | hst
    · exact he
    · cases hstate : (s.locks.txns t).state <;> rw [hstate] at hst <;> cases hst <;> rfl

theorem Inv.wake [DecidableEq V] (hs : Inv h s) (hstep : s.locks.step (.wake t) = some (r, l)) :
    Inv ((a, .lock r) :: h) { s with locks := l } := by
  cases stepped hstep with
  | wake _ w hw hcall hready =>
    obtain ⟨he, hending⟩ := hs.running t w hw
    refine hs.running_step ((frame_setWaiting _ t none).trans (frame_grantNow _ t w.call)) (hs.covered.grantNow hw hcall) he ?_
      hending
    rw [grantNow_state]
    exact he
  | wakeInsert _ w r s' hw hcall hacq =>
    obtain ⟨he, hending⟩ := hs.running t w hw
    refine hs.running_step ((frame_setWaiting _ t none).trans hacq.frame) ?_ he ?_ hending
    · exact (hs.covered.stopWaiting hw hcall).acquired (setWaiting_waiting_self _ t none) hacq
    · rw [hacq.state t]
      exact he

theorem Inv.unlock [DecidableEq V] {id : LockDataId Ix} {ids : List (LockDataId Ix)} (hs : Inv h s)
    (hending : s.ending t = some (st, id :: ids)) (hstep : s.locks.step (.unlock t id) = some (r, l)) :
    Inv ((.proceed t, .ending) :: h) { locks := l, ending := update s.ending t (some (st, ids)) } := by
  obtain ⟨hst, hids⟩ := hs.ending t st _ hending
  have hw : s.locks.waiting t = none := by
    by_contra hw
    obtain ⟨w, hw⟩ := ne_none_iff_exists'.1 hw
    simp [(hs.running t w hw).2] at hending
  have hl : Frame t s.locks l ∧ Covered l ∧ l.waiting t = none ∧
      ((l.txns t).state.ended → (s.locks.txns t).state.ended) ∧ ((s.locks.txns t).state.ended → (l.txns t).state.ended) ∧
      ∀ id', l.HasRequest t id' → s.locks.HasRequest t id' ∧ id' ∈ ids := by
    cases stepped hstep with
    | unlockEnded _ _ he =>
      exact ⟨.refl t _, hs.covered, hw, fun h => h, fun h => h, fun id' h' => absurd h' (hs.ended t id' he)⟩
    | unlock _ _ st' _ he hst' =>
      refine ⟨(frame_setState _ t st').trans (frame_removeRequests _ t id), (hs.covered.setState t st').removeRequests hw id,
        ?_, ?_, ?_, ?_⟩
      · rw [removeRequests_waiting]
        exact hw
      · intro he'
        rw [removeRequests_txns, setState_state, if_pos rfl, hst'] at he'
        split_ifs at he'
        · cases he'
        · exact he'
      · intro he'
        simp [he] at he'
      · intro id' hmine
        rw [hasRequest_removeRequests] at hmine
        have := hids id' hmine.1
        exact ⟨hmine.1, by simpa [show id' ≠ id from fun h => hmine.2 ⟨rfl, h⟩] using this⟩
  obtain ⟨hframe, hcov, hw', hend₁, hend₂, hreq⟩ := hl
  refine hs.frame hframe (fun u hu => update_of_ne hu _ _) (fun u _ hu => by simpa using hu) hcov ?_ ?_ ?_ ?_
  · intro w hw₁
    simp [hw'] at hw₁
  · intro id' he hmine
    exact hs.ended t id' (hend₁ he) (hreq id' hmine).1
  · intro st' ids' hids'
    simp only [update_self, some.injEq, Prod.mk.injEq] at hids'
    obtain ⟨rfl, rfl⟩ := hids'
    exact ⟨hst, fun id' hmine => (hreq id' hmine).2⟩
  · intro hret
    exact hend₂ (hs.returned t (by simpa using hret))

theorem Inv.finish [DecidableEq V] (hs : Inv h s) (hending : s.ending t = some (st, []))
    (hstep : s.locks.step (.finish t st) = some (r, l)) :
    Inv ((.proceed t, .returned) :: h) { locks := l, ending := update s.ending t none } := by
  obtain ⟨hst, hids⟩ := hs.ending t st [] hending
  have hnone (id : LockDataId Ix) : ¬s.locks.HasRequest t id := fun hmine => by simpa using hids id hmine
  cases stepped hstep with
  | finish _ _ hw _ =>
    refine hs.frame ⟨?_, fun _ _ => rfl, fun _ _ _ => Iff.rfl⟩ (fun u hu => update_of_ne hu _ _) ?_ ⟨?_, hs.covered.waits,
      hs.covered.nonempty⟩ ?_ (fun id _ => hnone id) ?_ ?_
    · intro u hu
      simp [hu]
    · intro u hu hret
      simpa [hu] using hret
    · intro u id hmine
      have hut : u ≠ t := fun hut => hnone id (hut ▸ hmine)
      refine (hs.covered.locked u id hmine).imp_left fun h => ?_
      simpa [hut] using h
    · intro w hw'
      simp [hw] at hw'
    · intro st' ids' h'
      simp at h'
    · intro _
      simpa using hst

theorem Inv.step [DecidableEq V] {s' : TxnManager Ix V} {b : TxnReply}
    (hs : Inv h s) (hstep : s.step a = some (b, s')) : Inv ((a, b) :: h) s' := by
  cases a with
  | lock t c =>
    rw [TxnManager.step] at hstep
    split_ifs at hstep with hguard
    rw [not_or] at hguard
    obtain ⟨⟨r, l⟩, hl, heq⟩ := map_eq_some_iff.1 hstep
    cases heq
    exact hs.lock (by simpa using hguard.1) (by simpa using hguard.2) hl
  | wake t =>
    obtain ⟨⟨r, l⟩, hl, heq⟩ := map_eq_some_iff.1 hstep
    cases heq
    exact hs.wake hl
  | commit t => exact hs.endTxn rfl (by simp) hstep
  | abort t => exact hs.endTxn rfl (by simp) hstep
  | proceed t =>
    rw [TxnManager.step] at hstep
    split at hstep
    · cases hstep
    · rename_i st id ids hending
      obtain ⟨⟨r, l⟩, hl, heq⟩ := map_eq_some_iff.1 hstep
      cases heq
      exact hs.unlock hending hl
    · rename_i st hending
      obtain ⟨⟨r, l⟩, hl, heq⟩ := map_eq_some_iff.1 hstep
      cases heq
      exact hs.finish hending hl
  | rehash T =>
    obtain ⟨⟨r, l⟩, hl, heq⟩ := map_eq_some_iff.1 hstep
    cases heq
    cases stepped hl with
    | rehash _ hperm => exact hs.rehash hperm

/-- After `commit` or `abort` of a transaction has returned, no queue has a
request of it, and at no time is there an empty queue in the table. -/
theorem no_request_after_end [DecidableEq V] (steps : List (TxnStep Ix V)) {h : List (TxnStep Ix V × TxnReply)} {s : TxnManager Ix V}
    (hrun : run step {} steps = some (h, s)) :
    (∀ t, (.proceed t, .returned) ∈ h → ∀ id e, s.locks.table.lookup id = some e → ∀ r ∈ e.queue.requests, r.txn ≠ t) ∧
      ∀ id e, s.locks.table.lookup id = some e → e.queue.requests ≠ [] := by
  have hinv : Inv h s := run_invariant (fun _ _ _ _ _ hs hstep => hs.step hstep) inv_init hrun
  constructor
  · intro t hret id e he r hr hrt
    refine hinv.ended t id (hinv.returned t hret) ?_
    rw [HasRequest, LockTable.queue_of_lookup he]
    exact List.mem_map.2 ⟨r, hr, hrt⟩
  · intro id e he hempty
    exact hinv.covered.nonempty id e he (by rw [LockRequestQueue.txns, hempty]; rfl)

theorem no_request_after_end_commit : ∃ (h : List (TxnStep Unit Int × TxnReply)) (s : TxnManager Unit Int),
    run step {} [.lock 1 (.exclusiveOnTable 1), .lock 2 (.sharedOnTable 2), .commit 1, .proceed 1, .proceed 1] = some (h, s) ∧
      ∀ id e, s.locks.table.lookup id = some e → ∀ r ∈ e.queue.requests, r.txn ≠ 1 := by
  obtain ⟨h, s, hrun⟩ : ∃ h s, run step ({} : TxnManager Unit Int)
      [.lock 1 (.exclusiveOnTable 1), .lock 2 (.sharedOnTable 2), .commit 1, .proceed 1, .proceed 1] =
        some ((.proceed 1, .returned) :: h, s) := ⟨_, _, rfl⟩
  exact ⟨_, s, hrun, (no_request_after_end _ hrun).1 1 (by simp)⟩

/-- In every state of a run each request is one that the end of its transaction will unlock: the transaction has not
ended and has the object in its lock set, or waits for it; and inside `commit` or `abort` it is still to be unlocked. -/
theorem run_lockSets [DecidableEq V] (steps : List (TxnStep Ix V)) {h : List (TxnStep Ix V × TxnReply)}
    {s : TxnManager Ix V} (hrun : run step {} steps = some (h, s)) (t : TxnId) (id : LockDataId Ix)
    (hreq : s.locks.HasRequest t id) : (s.locks.txns t).state.ended = false ∧
      (id ∈ (s.locks.txns t).lockSet ∨ s.locks.WaitsIn t id) ∧
      ∀ st ids, s.ending t = some (st, ids) → id ∈ ids ∧ ¬s.locks.WaitsIn t id := by
  have hinv : Inv h s := run_invariant (fun _ _ _ _ _ hs hstep => hs.step hstep) inv_init hrun
  refine ⟨?_, hinv.covered.locked t id hreq, fun st ids hending => ⟨(hinv.ending t st ids hending).2 id hreq, ?_⟩⟩
  · rw [← Bool.not_eq_true]
    exact fun hended => hinv.ended t id hended hreq
  · rintro ⟨w, hw, -⟩
    simp [(hinv.running t w hw).2] at hending

theorem run_lockSets_commit : ∃ (h : List (TxnStep Unit Int × TxnReply)) (s : TxnManager Unit Int),
    run step {} [.lock 1 (.exclusiveOnTable 1), .commit 1] = some (h, s) ∧ (s.locks.txns 1).state.ended = false := by
  obtain ⟨h, s, hrun, hreq⟩ : ∃ h s, run step ({} : TxnManager Unit Int) [.lock 1 (.exclusiveOnTable 1), .commit 1] =
      some (h, s) ∧ s.locks.HasRequest 1 (.table 1) := ⟨_, _, rfl, .head _⟩
  exact ⟨h, s, hrun, (run_lockSets _ hrun 1 _ hreq).1⟩

end TxnManager

end Rmdb.Lock
