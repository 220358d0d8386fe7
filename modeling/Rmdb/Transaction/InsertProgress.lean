/-
The loop of `isSafeInGap` makes progress.

A round that finds no granted lock of another transaction around the key looks
for the queue of exactly this key. If there is one in which the transaction holds
nothing, it starts the next round at once, with the latch in its hands, so every
round is like this one. Such a queue has only requests that wait.
-/
import Rmdb.Transaction.GapLocks
import Rmdb.Transaction.Release

namespace Rmdb.Lock

open List Run

variable {Ix V : Type} [DecidableEq Ix]

namespace LockManager

def Filled (s : LockManager Ix V) : Prop := ∀ id e, id.isGap → s.table.lookup id = some e → e.queue.txns ≠ []

def Holds [Index.IxCmp V] (s : LockManager Ix V) (u : TxnId) (ix : Ix) (key : List V) : Prop :=
  ∃ id e, s.table.lookup id = some e ∧ id.onIndex ix ∧ e.gap.isInGap key ∧ ∃ r ∈ e.queue.requests, r.txn = u ∧ r.granted

variable {s s' : LockManager Ix V} {t : TxnId}

theorem Filled.removeRequests (h : s.Filled) (id : LockDataId Ix) : (s.removeRequests t id).Filled := by
  intro id' e' hgap he'
  by_cases hid : id' = id
  · subst hid
    obtain ⟨e, he, _, ⟨_, hq⟩ | ⟨_, _, hne⟩⟩ := removeRequests_lookup s t he'
    · rw [hq]
      exact h id' e hgap he
    · exact hne
  · rw [removeRequests_lookup_ne s t hid] at he'
    exact h id' e' hgap he'

variable [GapData Ix V]

theorem Filled.grantNow (h : s.Filled) (c : Call Ix V) (hmem : c.id.isGap → (s.table.queue c.id).txns ≠ []) :
    (s.grantNow t c).2.Filled := by
  intro id e hgap he
  change (s.table.store c.id c.gap (granted t c (s.table.queue c.id))).lookup id = some e at he
  by_cases hid : id = c.id
  · rw [hid, LockTable.lookup_store_self] at he
    cases he
    simpa using hmem (hid ▸ hgap)
  · rw [LockTable.lookup_store_ne _ hid] at he
    exact h id e hgap he

variable [Index.IxCmp V]

theorem Filled.stepped {a : Step Ix V} {r : Reply} (h : s.Filled) (hplain : PlainOn (fun id => id.isGap) s)
    (hstep : Stepped s a r s') : s'.Filled := by
  cases hstep with
  | refused => exact h
  | call t c st r s' hw _ hacq => exact Acquired.nonempty (P := fun id => id.isGap) hacq h
  | wake t w hw hcall _ =>
    refine Filled.grantNow (s := s.setWaiting t none) h w.call fun hgap => ?_
    exact ne_nil_of_mem (mem_map_of_mem ((hplain.plain _ hgap).waiter t w hw hcall rfl))
  | wakeInsert t w r s' hw hcall hacq => exact Acquired.nonempty (P := fun id => id.isGap) hacq h
  | unlockEnded => exact h
  | unlock t id st hw => exact Filled.removeRequests (s := s.setState t st) h id
  | finish => exact h
  | rehash T hperm =>
    intro id e hgap he
    exact h id e hgap ((AList.perm_lookup hperm).symm.trans he)

/-! ## A round of the loop -/

variable {key : List V} {ix : Ix}

omit [GapData Ix V] in
/-- The search of the loop finds a queue where another transaction holds a gap with the key. -/
theorem find?_holder_eq_none :
    ((s.table.gaps ix).find? fun e => e.2.gap.isInGap key && e.2.heldByOther t) = none ↔ ∀ u, u ≠ t →
    ¬s.Holds u ix key := by
  rw [List.find?_eq_none]
  constructor
  · intro hnone u hu hholds
    obtain ⟨id, e, he, hix, hin, r, hr, hru, hg⟩ := hholds
    have hmem : (⟨id, e⟩ : Σ _ : LockDataId Ix, Entry V) ∈ s.table.gaps ix :=
      mem_filter.2 ⟨AList.mem_lookup_iff.1 he, hix⟩
    have hother : e.heldByOther t := any_eq_true.2 ⟨r, hr, by simp [hru, hu, hg]⟩
    exact hnone _ hmem (by simp [hin, hother])
  · intro hholds x hx hfound
    obtain ⟨hin, hother⟩ := Bool.and_eq_true_iff.1 hfound
    obtain ⟨hmem, hix⟩ := mem_filter.1 hx
    obtain ⟨r, hr, hrt⟩ := any_eq_true.1 hother
    obtain ⟨hne, hg⟩ := Bool.and_eq_true_iff.1 hrt
    exact hholds r.txn (by simpa using hne) ⟨x.1, x.2, AList.mem_lookup_iff.2 hmem, hix, hin, r, hr, rfl, hg⟩

/-- What a round of the loop finds. -/
inductive Round (s : LockManager Ix V) (t : TxnId) (fd : Nat) (ix : Ix) (key : List V) : Verdict Ix → Prop
  /-- Another transaction holds a gap with the key; the round ends in an exception, or waits. -/
  | conflict (v : Verdict Ix) (hholds : ∃ u, u ≠ t ∧ s.Holds u ix key)
      (hv : v = .refuse ∨ v = .returnFalse ∨ ∃ id, v = .waitOn id) : Round s t fd ix key v
  /-- The queue of the key has a granted request of the transaction, of whatever mode. -/
  | held (e : Entry V) (hholds : ∀ u, u ≠ t → ¬s.Holds u ix key)
      (he : s.table.lookup (Call.safeInGap fd ix key).id = some e)
      (hown : ∃ r ∈ e.queue.requests, r.txn = t ∧ r.granted) : Round s t fd ix key .held
  /-- The queue of the key has none: the next round is like this one. -/
  | again (e : Entry V) (hholds : ∀ u, u ≠ t → ¬s.Holds u ix key)
      (he : s.table.lookup (Call.safeInGap fd ix key).id = some e)
      (hown : ∀ r ∈ e.queue.requests, r.txn = t → r.granted = false) : Round s t fd ix key .stuck
  /-- The key has no queue yet. -/
  | made (hholds : ∀ u, u ≠ t → ¬s.Holds u ix key) (he : s.table.lookup (Call.safeInGap fd ix key).id = none) :
      Round s t fd ix key (.grant { requests := [⟨t, .exclusive, true⟩], group := .x, oldest := t })

theorem isSafeInGap_round (s : LockManager Ix V) (st : TransactionState) (t : TxnId) (fd : Nat) (ix : Ix)
    (key : List V) :
    Round s t fd ix key (isSafeInGap s.table st t fd ix key) := by
  rw [isSafeInGap]
  cases hfind : (s.table.gaps ix).find? fun e => e.2.gap.isInGap key && e.2.heldByOther t with
  | some b =>
    refine .conflict _ ?_ ?_
    · by_contra hnone
      have hfree : ∀ u, u ≠ t → ¬s.Holds u ix key := fun u hu hh => hnone ⟨u, hu, hh⟩
      rw [← find?_holder_eq_none, hfind] at hfree
      cases hfree
    · simp only [waitDie]
      split_ifs
      · exact .inl rfl
      · exact .inr (.inl rfl)
      · exact .inr (.inr ⟨_, rfl⟩)
  | none =>
    have hholds := find?_holder_eq_none.1 hfind
    have hid : (Call.safeInGap fd ix key).id = .gap fd ix (GapData.hash Ix (.ofKey (GapData.columnsOf ix key))) := rfl
    dsimp only
    rw [← hid]
    cases hlook : s.table.lookup (Call.safeInGap fd ix key).id with
    | none => exact .made hholds hlook
    | some e =>
      dsimp only
      split_ifs with hown
      · obtain ⟨r, hr, hrt⟩ := any_eq_true.1 hown
        exact .held e hholds hlook ⟨r, hr, by simpa using hrt⟩
      · refine .again e hholds hlook fun r hr hrt => ?_
        by_contra hg
        exact hown (any_eq_true.2 ⟨r, hr, by simpa [hrt] using hg⟩)

variable {fd : Nat}

theorem isSafeInGap_stuck_iff {st : TransactionState} :
    isSafeInGap s.table st t fd ix key = .stuck ↔ (∀ u, u ≠ t → ¬s.Holds u ix key) ∧
      ∃ e, s.table.lookup (Call.safeInGap fd ix key).id = some e ∧ ∀ r ∈ e.queue.requests, r.txn = t →
        r.granted = false := by
  have hround := isSafeInGap_round s st t fd ix key
  constructor
  · intro hstuck
    rw [hstuck] at hround
    cases hround with
    | conflict _ _ hv => simp at hv
    | again e hholds he hown => exact ⟨hholds, e, he, hown⟩
  · intro ⟨hfree, e, he, hown⟩
    generalize isSafeInGap s.table st t fd ix key = v at hround ⊢
    cases hround with
    | conflict v hholds hv =>
      obtain ⟨u, hu, hh⟩ := hholds
      exact absurd hh (hfree u hu)
    | held e' _ he' hheld =>
      rw [he] at he'
      cases he'
      obtain ⟨r, hr, hrt, hg⟩ := hheld
      simp [hown r hr hrt] at hg
    | again => rfl
    | made _ he' =>
      rw [he] at he'
      cases he'

/-- A round that returns true has found no other holder of the key. It leaves
the queue of the key as it is, or makes it. -/
theorem Acquired.inserted (h : Acquired s t (.safeInGap fd ix key) (.ret true) s') :
    (∀ u, u ≠ t → ¬s.Holds u ix key) ∧
      (((s.table.lookup (Call.safeInGap fd ix key).id).isSome ∧ s'.table = s.table) ∨
        (s.table.lookup (Call.safeInGap fd ix key).id = none ∧
          s'.table = s.table.store (Call.safeInGap fd ix key).id (.ofKey (GapData.columnsOf ix key))
            { requests := [⟨t, .exclusive, true⟩], group := .x, oldest := t })) := by
  have hround : Round s t fd ix key (verdict s.table (s.txns t).state t (.safeInGap fd ix key)) :=
    isSafeInGap_round s _ t fd ix key
  cases h with
  | held hv =>
    rw [hv] at hround
    cases hround with
    | conflict _ _ hv => simp at hv
    | held e hholds he _ => exact ⟨hholds, .inl ⟨by simp [he], rfl⟩⟩
  | upgrade q hv =>
    rw [hv] at hround
    cases hround with
    | conflict _ _ hv => simp at hv
  | grant q hv =>
    rw [hv] at hround
    cases hround with
    | conflict _ _ hv => simp at hv
    | made hholds he => exact ⟨hholds, .inr ⟨he, rfl⟩⟩
  | pass q hv =>
    rw [hv] at hround
    cases hround with
    | conflict _ _ hv => simp at hv

/-! ## Runs -/

theorem run_gapQueues [DecidableEq V] {steps : List (Step Ix V)} {h : List (Step Ix V × Reply)} {s : LockManager Ix V}
    (hrun : run step {} steps = some (h, s)) : PlainOn (fun id => id.isGap) s ∧ s.Filled := by
  refine run_invariant (R := fun _ s => PlainOn (fun id => id.isGap) s ∧ s.Filled) ?_ ⟨plainOn_init _, ?_⟩ hrun
  · intro _ s a r s' hs hstep
    exact ⟨hs.1.stepped (fun _ _ _ hid => Call.plain_of_isGap hid) (stepped hstep), hs.2.stepped hs.1 (stepped hstep)⟩
  · intro _ _ _ he
    cases he

/-- In every state of a run a round makes progress, unless other transactions
have requests in the queue of the key and the transaction has none there, and
no other transaction holds a gap with the key. -/
theorem run_progress_iff [DecidableEq V] (steps : List (Step Ix V)) {h : List (Step Ix V × Reply)}
    {s : LockManager Ix V}
    (hrun : run step {} steps = some (h, s)) {t : TxnId} (hw : ∀ w, s.waiting t = some w → w.call.inserts) (fd : Nat)
    (ix : Ix) (key : List V) :
    isSafeInGap s.table (s.txns t).state t fd ix key ≠ .stuck ↔
      ∀ u ∈ (s.table.queue (Call.safeInGap fd ix key).id).txns, u ≠ t →
        t ∈ (s.table.queue (Call.safeInGap fd ix key).id).txns ∨ ∃ u', u' ≠ t ∧ s.Holds u' ix key := by
  obtain ⟨hplain, hfilled⟩ := run_gapQueues hrun
  rw [ne_eq, isSafeInGap_stuck_iff]
  constructor
  · intro hprogress u hu hne
    by_contra hnot
    obtain ⟨ht, hholds⟩ := not_or.1 hnot
    refine hprogress ⟨fun u' hu' hh => hholds ⟨u', hu', hh⟩, ?_⟩
    cases hlook : s.table.lookup (Call.safeInGap fd ix key).id with
    | none => simp [LockTable.queue_of_none hlook] at hu
    | some e =>
      rw [LockTable.queue_of_lookup hlook] at ht
      exact ⟨e, rfl, fun r hr hrt => absurd (mem_map.2 ⟨r, hr, hrt⟩) ht⟩
  · intro hserved hstuck
    obtain ⟨hholds, e, he, hown⟩ := hstuck
    have hq : s.table.queue (Call.safeInGap fd ix key).id = e.queue := LockTable.queue_of_lookup he
    -- the requests of a transaction that does not wait in the queue are granted
    have ht : t ∉ e.queue.txns := by
      intro ht
      obtain ⟨r, hr, hrt⟩ := mem_map.1 ht
      obtain ⟨w, hwt, hcall, _⟩ := (hplain.plain _ rfl).waits r (hq ▸ hr) (hown r hr hrt)
      rw [hrt] at hwt
      simp [hw w hwt] at hcall
    obtain ⟨u, hu⟩ := exists_mem_of_ne_nil _ (hfilled _ e rfl he)
    rcases hserved u (hq ▸ hu) (fun hut => ht (hut ▸ hu)) with ht' | ⟨u', hu', hh⟩
    · exact ht (hq ▸ ht')
    · exact hholds u' hu' hh

/-- In every state of a run a transaction has one request in the queue of a gap at most, and it is not granted
exactly as long as a call of the transaction is blocked there. A lock that is granted shows in the group mode. -/
theorem run_granted_iff [DecidableEq V] (steps : List (Step Ix V)) {h : List (Step Ix V × Reply)} {s : LockManager Ix V}
    (hrun : run step {} steps = some (h, s)) (id : LockDataId Ix) (hid : id.isGap) :
    (s.table.queue id).txns.Nodup ∧ ∀ r ∈ (s.table.queue id).requests,
      (r.granted = false ↔ ∃ w, s.waiting r.txn = some w ∧ w.call.inserts = false ∧ w.call.id = id) ∧
      (r.granted → (s.table.queue id).group ≠ .nonLock ∧ (r.mode = .exclusive → (s.table.queue id).group = .x)) := by
  have hq := (run_gapQueues hrun).1.plain id hid
  refine ⟨hq.nodup, fun r hr => ⟨⟨fun hnot => ?_, fun hblocked => ?_⟩, fun hgr => ⟨hq.held r hr hgr, hq.exclusive r hr hgr⟩⟩⟩
  · obtain ⟨w, hw, hins, hcall, -⟩ := hq.waits r hr hnot
    exact ⟨w, hw, hins, hcall⟩
  · obtain ⟨w, hw, hins, hcall⟩ := hblocked
    -- the request of the call is the only one of the transaction
    rw [inj_on_of_nodup_map hq.nodup hr (hq.waiter _ w hw hins hcall) rfl]

end LockManager

open LockManager

/-- A reader of the keys from 3 to 7 inserts the key 5 while nobody waits. -/
theorem run_progress_read : ∃ (h : List (Step Unit Int × Reply)) (s : LockManager Unit Int),
    run step {} [.call 2 (.sharedOnGap 0 () gap37)] = some (h, s) ∧
      isSafeInGap s.table (s.txns 2).state 2 0 () [5] ≠ .stuck := by
  refine ⟨_, _, rfl, (run_progress_iff [.call 2 (.sharedOnGap 0 () gap37)] rfl (fun w hw => ?_) 0 () [5]).2 fun u
    hu => ?_⟩
  · change none = some w at hw
    cases hw
  · change u ∈ ([] : List TxnId) at hu
    cases hu

/-- An older transaction waits for exactly the key 5, since a reader holds the
keys from 3 to 7; when the reader inserts that key, it goes round for ever. -/
theorem reader_spins : ∃ (h : List (Step Unit Int × Reply)) (s : LockManager Unit Int),
    run step {} [.call 2 (.sharedOnGap 0 () gap37), .call 1 (.exclusiveOnGap 0 () gap5)] = some (h, s) ∧
      h.map Prod.snd = [.blocked, .ret true] ∧ isSafeInGap s.table (s.txns 2).state 2 0 () [5] = .stuck := by
  exact ⟨_, _, rfl, rfl, rfl⟩

theorem run_granted_iff_read : ∃ (h : List (Step Unit Int × Reply)) (s : LockManager Unit Int),
    run step {} [.call 2 (.sharedOnGap 0 () gap37), .call 1 (.exclusiveOnGap 0 () gap5)] = some (h, s) ∧
      (s.table.queue (Call.exclusiveOnGap 0 () gap5).id).txns.Nodup :=
  ⟨_, _, rfl, (run_granted_iff [.call 2 (.sharedOnGap 0 () gap37), .call 1 (.exclusiveOnGap 0 () gap5)] rfl _ rfl).1⟩

end Rmdb.Lock
