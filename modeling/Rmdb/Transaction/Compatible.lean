/-
Table and record locks respect the compatibility matrix, as far as they do.

Shared and exclusive table locks and shared record locks do, as long as no
lock is upgraded while another transaction has a request on the object. The
others do so only for a transaction that is alone at the object: they look at a
summary of the queue, or at the requests before their own.
-/
import Rmdb.Transaction.Solo

namespace Rmdb.Lock

open List Run

def LockMode.compatible : LockMode → LockMode → Bool
  | .intentionShared, .exclusive => false
  | .intentionShared, _ => true
  | .intentionExclusive, .intentionShared => true
  | .intentionExclusive, .intentionExclusive => true
  | .shared, .intentionShared => true
  | .shared, .shared => true
  | .sIX, .intentionShared => true
  | _, _ => false

/-- A transaction with a request in the first mode may be told that it has the second one. -/
def LockMode.covers : LockMode → LockMode → Bool
  | .exclusive, _ => true
  | .shared, .shared => true
  | .shared, .intentionShared => true
  | _, _ => false

theorem LockMode.compatible_of_covers {m m' : LockMode} (h : LockMode.shared.covers m) (h' : LockMode.shared.covers m') :
    m.compatible m' := by
  cases m <;> cases h <;> cases m' <;> cases h' <;> rfl

variable {Ix V : Type} [GapData Ix V]

/-! ## The invariant of one object -/

/-- `told t m`: the transaction has been told that it has a lock of this mode. -/
structure CompatQueue (wt : TxnId → Option (Wait Ix V)) (told : TxnId → LockMode → Prop) (id : LockDataId Ix)
    (q : LockRequestQueue) : Prop where
  queue : (Plain wt id q ∧ q.Excl) ∨ ∃ r rest, Solo wt id q r rest
  requested : ∀ t m, told t m → t ∈ q.txns
  covered : q.Pure → ∀ t m, told t m → ∃ r ∈ q.requests, r.txn = t ∧ r.granted ∧ r.mode.covers m

section

variable {wt wt' : TxnId → Option (Wait Ix V)} {id : LockDataId Ix} {q q' : LockRequestQueue} {t : TxnId} {m : LockMode}
  {told told' : TxnId → LockMode → Prop}

theorem CompatQueue.plain (h : CompatQueue wt told id q) (hpure : q.Pure) : Plain wt id q ∧ q.Excl := by
  rcases h.queue with h | ⟨r, rest, h⟩
  · exact h
  · exact h.plain hpure

theorem CompatQueue.compatible (h : CompatQueue wt told id q) {u : TxnId} {m' : LockMode} (ht : told t m) (hu : told u m')
    (hne : t ≠ u) : m.compatible m' := by
  rcases h.queue with ⟨hplain, hexcl⟩ | ⟨r, rest, hsolo⟩
  · obtain ⟨r, hr, hrt, hg, hm⟩ := h.covered hplain.modes t m ht
    obtain ⟨r', hr', hru, hg', hm'⟩ := h.covered hplain.modes u m' hu
    have hne' : r.txn ≠ r'.txn := by rwa [hrt, hru]
    rw [hexcl r hr r' hr' hg hg' hne'] at hm
    rw [hexcl r' hr' r hr hg' hg hne'.symm] at hm'
    exact LockMode.compatible_of_covers hm hm'
  · obtain ⟨r₁, hr₁, h₁⟩ := mem_map.1 (h.requested t m ht)
    obtain ⟨r₂, hr₂, h₂⟩ := mem_map.1 (h.requested u m' hu)
    exact absurd (h₁.symm.trans ((hsolo.alone r₁ hr₁).trans ((hsolo.alone r₂ hr₂).symm.trans h₂))) hne

theorem CompatQueue.congr (h : CompatQueue wt told id q) (hwt : ∀ u, u ≠ t → wt' u = wt u)
    (hbefore : ∀ w, wt t = some w → w.call.inserts = false → w.call.id ≠ id)
    (hafter : ∀ w, wt' t = some w → w.call.inserts = false → w.call.id ≠ id) (htold : ∀ u m, told' u m → told u m) :
    CompatQueue wt' told' id q where
  queue := by
    rcases h.queue with ⟨hplain, hexcl⟩ | ⟨r, rest, hsolo⟩
    · refine .inl ⟨hplain.congr hwt ?_ hafter, hexcl⟩
      intro r hr hrt
      by_contra hng
      obtain ⟨w, hw, hcall, hid, _⟩ := hplain.waits r hr (by simpa using hng)
      exact hbefore w (hrt ▸ hw) hcall hid
    · refine .inr ⟨r, rest, { hsolo with free := fun u w hw => ?_ }⟩
      by_cases hu : u = t
      · exact hafter w (hu ▸ hw)
      · exact hsolo.free u w (hwt u hu ▸ hw)
  requested u m hu := h.requested u m (htold u m hu)
  covered hpure u m hu := h.covered hpure u m (htold u m hu)

theorem CompatQueue.solo (h : CompatQueue wt told id q) (hafter : SoloAfter wt id t m q q') (halone : q.Alone t)
    (htold : ∀ u m', told' u m' → told u m' ∨ (u = t ∧ m' = m)) : CompatQueue wt told' id q' := by
  obtain ⟨r, rest, hsolo, hrt, hm⟩ := hafter
  have hr : r ∈ q'.requests := by simp [hsolo.requests]
  have hown (u : TxnId) (m' : LockMode) (hu : told' u m') : u = t := by
    rcases htold u m' hu with hu | hu
    · obtain ⟨r', hr', rfl⟩ := mem_map.1 (h.requested u m' hu)
      exact halone r' hr'
    · exact hu.1
  refine ⟨.inr ⟨r, rest, hsolo⟩, ?_, ?_⟩
  · intro u m' hu
    rw [hown u m' hu]
    exact mem_map.2 ⟨r, hr, hrt⟩
  · intro hpure u m' hu
    have hg : r.granted := by
      refine hsolo.granted (by_contra fun hne => ?_)
      obtain ⟨r', hr'⟩ := exists_mem_of_ne_nil rest hne
      have hmode := hpure r' (by simp [hsolo.requests, hr'])
      simp [(hsolo.others r' hr').2] at hmode
    refine ⟨r, hr, hrt.trans (hown u m' hu).symm, hg, ?_⟩
    rcases hm with hx | ⟨hnil, hmode⟩ | hnot
    · rw [hx]
      rfl
    · rcases htold u m' hu with hu | ⟨_, rfl⟩
      · simpa [LockRequestQueue.txns, hnil] using h.requested u m' hu
      · rw [hmode]
        rcases hpure r hr with h' | h' <;> rw [← hmode, h'] <;> rfl
    · exact absurd hpure hnot

theorem CompatQueue.held (h : CompatQueue wt told id q) (hw : wt t = none) {r : LockRequest} (hown : q.own t = some r)
    (hcovers : r.mode = .shared ∨ r.mode = .exclusive → r.mode.covers m)
    (htold : ∀ u m', told' u m' → told u m' ∨ (u = t ∧ m' = m)) : CompatQueue wt told' id q where
  queue := h.queue
  requested u m' hu := by
    rcases htold u m' hu with hu | ⟨rfl, _⟩
    · exact h.requested u m' hu
    · exact LockRequestQueue.mem_txns_of_own hown
  covered hpure u m' hu := by
    rcases htold u m' hu with hu | ⟨rfl, rfl⟩
    · exact h.covered hpure u m' hu
    · obtain ⟨hr, rfl⟩ := LockRequestQueue.mem_of_own hown
      exact ⟨r, hr, rfl, (h.plain hpure).1.granted_of_own hr hw, hcovers (hpure r hr)⟩

/-- The first request of `t` is put into a queue of shared and exclusive ones, or granted there. -/
theorem CompatQueue.puts (h : CompatQueue wt told id q) {b : Bool} (hpure : q.Pure) (hput : Puts q ⟨t, m, b⟩ q')
    (hplain : Plain wt' id q') (hnew : ∀ u m', told u m' → u ≠ t)
    (hclear : b → ∀ r ∈ q.requests, r.txn ≠ t → r.granted → m = .shared ∧ r.mode ≠ .exclusive)
    (htold : ∀ u m', told' u m' → told u m' ∨ (u = t ∧ m' = m ∧ b)) : CompatQueue wt' told' id q' where
  queue := by
    refine .inl ⟨hplain, fun r hr r' hr' hg hg' hne => ?_⟩
    rcases (hput.mem r).1 hr with ⟨hr, hrt⟩ | rfl
    · rcases (hput.mem r').1 hr' with ⟨hr', _⟩ | rfl
      · exact (h.plain hpure).2 r hr r' hr' hg hg' hne
      · exact (hpure r hr).resolve_right (hclear hg' r hr hrt hg).2
    · rcases (hput.mem r').1 hr' with ⟨hr', hrt⟩ | rfl
      · exact (hclear hg r' hr' hrt hg').1
      · exact absurd rfl hne
  requested u m' hu := by
    rcases htold u m' hu with hu | ⟨rfl, _⟩
    · obtain ⟨r, hr, rfl⟩ := mem_map.1 (h.requested u m' hu)
      exact mem_map.2 ⟨r, (hput.mem r).2 (.inl ⟨hr, hnew _ m' hu⟩), rfl⟩
    · exact mem_map.2 ⟨_, (hput.mem _).2 (.inr rfl), rfl⟩
  covered _ u m' hu := by
    rcases htold u m' hu with hu | ⟨rfl, rfl, hb⟩
    · obtain ⟨r, hr, rfl, hg, hm⟩ := h.covered hpure u m' hu
      exact ⟨r, (hput.mem r).2 (.inl ⟨hr, hnew _ m' hu⟩), rfl, hg, hm⟩
    · refine ⟨_, (hput.mem _).2 (.inr rfl), rfl, hb, ?_⟩
      rcases hplain.modes _ ((hput.mem _).2 (.inr rfl)) with h' | h' <;> rw [show m' = _ from h'] <;> rfl

end

variable [DecidableEq Ix]

namespace LockManager

section

variable {s : LockManager Ix V} {t : TxnId} {id : LockDataId Ix}

omit [GapData Ix V] in
theorem mem_told_removeRequests {u : TxnId} {id' : LockDataId Ix} {m : LockMode}
    (h : (u, id', m) ∈ (s.removeRequests t id).told) :
    (u, id', m) ∈ s.told ∧ (id' = id → u = t → t ∉ (s.table.queue id).txns) := by
  by_cases ht : t ∈ (s.table.queue id).txns
  · cases hlook : s.table.lookup id with
    | none => simp [LockTable.queue_of_none hlook] at ht
    | some e =>
      rw [LockTable.queue_of_lookup hlook] at ht
      have hown : (e.queue.own t).isNone = false := by
        by_contra hnone
        exact LockRequestQueue.own_eq_none.1 (by simpa using hnone) ht
      simp only [removeRequests, hlook, hown, Bool.false_eq_true, if_false] at h
      obtain ⟨hmem, hne⟩ := mem_filter.1 h
      exact ⟨hmem, fun hid hu => absurd ⟨hu, hid⟩ (of_decide_eq_true hne)⟩
  · rw [removeRequests_of_not_mem ht] at h
    exact ⟨h, fun _ _ => ht⟩

omit [GapData Ix V] in
theorem removeRequests_alone (halone : (s.table.queue id).Alone t) (ht : t ∈ (s.table.queue id).txns) :
    (s.removeRequests t id).table.queue id = {} := by
  have hnil : ((s.removeRequests t id).table.queue id).txns = [] := by
    rw [removeRequests_queue_txns, filter_eq_nil_iff]
    intro u hu
    obtain ⟨r, hr, rfl⟩ := mem_map.1 hu
    simpa using halone r hr
  cases hlook : (s.removeRequests t id).table.lookup id with
  | none => exact LockTable.queue_of_none hlook
  | some e' =>
    rw [LockTable.queue_of_lookup hlook] at hnil
    obtain ⟨e, he, _, ⟨hnot, _⟩ | ⟨_, _, hne⟩⟩ := removeRequests_lookup s t hlook
    · rw [LockTable.queue_of_lookup he] at ht
      exact absurd ht hnot
    · exact absurd hnil hne

end

def Told (s : LockManager Ix V) (id : LockDataId Ix) (t : TxnId) (m : LockMode) : Prop := (t, id, m) ∈ s.told

structure CompatInv (s : LockManager Ix V) : Prop where
  queues : ∀ id, id.isGap = false → CompatQueue s.waiting (s.Told id) id (s.table.queue id)
  calls : ∀ t w, s.waiting t = some w → w.call.inserts = false → w.call.id.isGap = false → w.call.plain

/-- Two transactions that have been told of locks on one table or record have compatible ones. -/
def Compatible (s : LockManager Ix V) : Prop :=
  ∀ id, id.isGap = false → ∀ t u m m', s.Told id t m → s.Told id u m' → t ≠ u → m.compatible m'

variable {s s' : LockManager Ix V} {t : TxnId} {c : Call Ix V} {r : Reply}

theorem CompatInv.compatible (h : CompatInv s) : Compatible s := by
  intro id hid t u m m' ht hu hne
  exact (h.queues id hid).compatible ht hu hne

theorem CompatInv.plainOn (h : CompatInv s) {id : LockDataId Ix} (hid : id.isGap = false)
    (hplain : Plain s.waiting id (s.table.queue id)) : PlainOn (· = id) s where
  plain _ hid' := hid' ▸ hplain
  calls t w hw hcall hid' := h.calls t w hw hcall (hid' ▸ hid)

theorem CompatInv.setState (h : CompatInv s) (t : TxnId) (st : TransactionState) : CompatInv (s.setState t st) :=
  ⟨h.queues, h.calls⟩

/-- Nothing but the queue of `id` changes, and only `t` may begin or stop to wait. -/
theorem CompatInv.store (h : CompatInv s) (id : LockDataId Ix) (hqueue : ∀ id', id' ≠ id → s'.table.queue id' = s.table.queue id')
    (hwt : ∀ u, u ≠ t → s'.waiting u = s.waiting u)
    (hbefore : ∀ w, s.waiting t = some w → w.call.inserts = false → w.call.id = id)
    (hafter : ∀ w, s'.waiting t = some w → w.call.inserts = false → w.call.id = id ∧ (id.isGap = false → w.call.plain))
    (htold : ∀ id', id' ≠ id → ∀ u m, s'.Told id' u m → s.Told id' u m)
    (hself : id.isGap = false → CompatQueue s'.waiting (s'.Told id) id (s'.table.queue id)) : CompatInv s' where
  queues id' hgap := by
    by_cases hid : id' = id
    · subst hid
      exact hself hgap
    · rw [hqueue id' hid]
      exact (h.queues id' hgap).congr hwt (fun w hw hcall hid' => hid (hid'.symm.trans (hbefore w hw hcall)))
        (fun w hw hcall hid' => hid (hid'.symm.trans (hafter w hw hcall).1)) (htold id' hid)
  calls u w hw hcall hgap := by
    by_cases hu : u = t
    · subst hu
      obtain ⟨hid, hplain⟩ := hafter w hw hcall
      exact hplain (hid ▸ hgap)
    · exact h.calls u w (hwt u hu ▸ hw) hcall hgap

theorem CompatInv.release (h : CompatInv s) (hw : s.waiting t = none) {id : LockDataId Ix} (hgap : id.isGap = false)
    (ht : t ∈ (s.table.queue id).txns) :
    CompatQueue s.waiting ((s.removeRequests t id).Told id) id ((s.removeRequests t id).table.queue id) := by
  have hq := h.queues id hgap
  have htold (u : TxnId) (m : LockMode) (hu : (s.removeRequests t id).Told id u m) : s.Told id u m ∧ u ≠ t := by
    obtain ⟨hmem, hne⟩ := mem_told_removeRequests hu
    exact ⟨hmem, fun hut => hne rfl hut ht⟩
  rcases hq.queue with ⟨hplain, hexcl⟩ | ⟨r, rest, hsolo⟩
  · have hplain' := ((h.plainOn hgap hplain).removeRequests hw id).plain id rfl
    rw [removeRequests_waiting] at hplain'
    have hrequested (u : TxnId) (m : LockMode) (hu : (s.removeRequests t id).Told id u m) :
        u ∈ ((s.removeRequests t id).table.queue id).txns := by
      rw [removeRequests_queue_txns]
      exact mem_filter.2 ⟨hq.requested u m (htold u m hu).1, by simpa using (htold u m hu).2⟩
    refine ⟨.inl ⟨hplain', ?_⟩, hrequested, ?_⟩
    · exact fun r hr r' hr' => hexcl r (mem_requests_removeRequests hr) r' (mem_requests_removeRequests hr')
    · intro _ u m hu
      obtain ⟨r, hr, rfl⟩ := mem_map.1 (hrequested u m hu)
      obtain ⟨r', hr', hrt, hg, hm⟩ := hq.covered hplain.modes _ m (htold _ m hu).1
      rw [eq_of_nodup_txns hplain.nodup hr' (mem_requests_removeRequests hr) hrt] at hg hm
      exact ⟨r, hr, rfl, hg, hm⟩
  · obtain ⟨r₁, hr₁, rfl⟩ := mem_map.1 ht
    have halone : (s.table.queue id).Alone r₁.txn := fun r' hr' => (hsolo.alone r' hr').trans (hsolo.alone r₁ hr₁).symm
    have hnone (u : TxnId) (m : LockMode) : ¬(s.removeRequests r₁.txn id).Told id u m := by
      intro hu
      obtain ⟨r', hr', hru⟩ := mem_map.1 (hq.requested u m (htold u m hu).1)
      exact (htold u m hu).2 (hru.symm.trans (halone r' hr'))
    rw [removeRequests_alone halone ht]
    refine ⟨.inl ⟨plain_empty hsolo.free, nofun⟩, ?_, ?_⟩
    · exact fun u m hu => absurd hu (hnone u m)
    · exact fun _ u m hu => absurd hu (hnone u m)

theorem CompatInv.removeRequests (h : CompatInv s) (hw : s.waiting t = none) (id : LockDataId Ix) :
    CompatInv (s.removeRequests t id) := by
  by_cases ht : t ∈ (s.table.queue id).txns
  · refine h.store (t := t) id ?_ (fun u _ => by rw [removeRequests_waiting]) (fun w hw' => ?_) (fun w hw' => ?_) ?_ ?_
    · intro id' hid
      rw [LockTable.queue, removeRequests_lookup_ne s t hid, ← LockTable.queue]
    · rw [hw] at hw'
      cases hw'
    · rw [removeRequests_waiting, hw] at hw'
      cases hw'
    · exact fun id' _ u m hu => (mem_told_removeRequests hu).1
    · intro hgap
      rw [removeRequests_waiting]
      exact h.release hw hgap ht
  · rw [removeRequests_of_not_mem ht]
    exact h

end LockManager

variable [Index.IxCmp V]

/-! ## The calls -/

section

variable {T : LockTable Ix V} {st : TransactionState} {t : TxnId} {c : Call Ix V}

theorem verdict_held (hgap : c.id.isGap = false) (hv : verdict T st t c = .held) :
    ∃ r, (T.queue c.id).own t = some r ∧ (r.mode = .shared ∨ r.mode = .exclusive → r.mode.covers c.mode) := by
  cases hown : (T.queue c.id).own t with
  | none =>
    exfalso
    cases c with
    | sharedOnGap => cases hgap
    | exclusiveOnGap => cases hgap
    | safeInGap => cases hgap
    | _ =>
      simp only [verdict, lockSharedOnRecord, lockExclusiveOnRecord, lockSharedOnTable, lockExclusiveOnTable, lockISOnTable,
        lockIXOnTable, hown, waitDie] at hv
      split_ifs at hv
  | some r =>
    refine ⟨r, rfl, ?_⟩
    cases c with
    | sharedOnRecord fd rid => rintro (h | h) <;> rw [h] <;> rfl
    | exclusiveOnRecord fd rid =>
      simp only [verdict, lockExclusiveOnRecord, hown, waitDie] at hv
      split_ifs at hv with _ hx
      rw [hx]
      exact fun _ => rfl
    | sharedOnTable fd => rintro (h | h) <;> rw [h] <;> rfl
    | exclusiveOnTable fd =>
      simp only [verdict, lockExclusiveOnTable, hown, waitDie] at hv
      split_ifs at hv with hx
      rw [hx]
      exact fun _ => rfl
    | isOnTable fd => rintro (h | h) <;> rw [h] <;> rfl
    | ixOnTable fd =>
      simp only [verdict, lockIXOnTable, hown, waitDie] at hv
      split_ifs at hv with hx
      rintro (h | h)
      · simp [h] at hx
      · rw [h]
        rfl
    | _ => cases hgap

end

namespace LockManager

variable {s s' : LockManager Ix V} {t : TxnId} {c : Call Ix V} {r : Reply}

/-- The condition: the transaction is alone at the object, or the call is for
its first lock there, shared or exclusive, among locks of these two modes. -/
def CompatSound (s : LockManager Ix V) (t : TxnId) (c : Call Ix V) : Prop :=
  (s.table.queue c.id).Alone t ∨
    (c.plain ∧ (c.mode = .exclusive → t ∉ (s.table.queue c.id).txns) ∧ (s.table.queue c.id).Pure)

def CompatStep (s : LockManager Ix V) : Step Ix V → Prop
  | .call t c => c.id.isGap = false → CompatSound s t c
  | _ => True

omit [Index.IxCmp V] in
theorem told_tell {s₁ : LockManager Ix V} (h₁ : s₁.told = s.told) {id : LockDataId Ix} {u : TxnId} {m : LockMode}
    (hu : (s₁.tell t c).2.Told id u m) : s.Told id u m ∨ (id = c.id ∧ u = t ∧ m = c.mode) := by
  rcases mem_cons.1 hu with hu | hu
  · cases hu
    exact .inr ⟨rfl, rfl, rfl⟩
  · rw [h₁] at hu
    exact .inl hu

theorem Acquired.elsewhere (h : Acquired s t c r s') :
    (∀ id, id ≠ c.id → s'.table.queue id = s.table.queue id) ∧ (∀ u, u ≠ t → s'.waiting u = s.waiting u) ∧
      (∀ w, s'.waiting t = some w → s.waiting t = some w ∨ w.call = c) ∧
        ∀ id u m, s'.Told id u m → s.Told id u m ∨ (id = c.id ∧ u = t ∧ m = c.mode) := by
  have hblock (s₁ : LockManager Ix V) (id : LockDataId Ix) (w : Wait Ix V)
      (hw : (s₁.setWaiting t (some ⟨c, id⟩)).waiting t = some w) : w.call = c := by
    rw [setWaiting_waiting_self] at hw
    cases hw
    rfl
  cases h with
  | refuse => exact ⟨fun _ _ => rfl, fun _ _ => rfl, fun _ => .inl, fun _ _ _ => .inl⟩
  | returnFalse => exact ⟨fun _ _ => rfl, fun _ _ => rfl, fun _ => .inl, fun _ _ _ => .inl⟩
  | held => exact ⟨fun _ _ => rfl, fun _ _ => rfl, fun _ => .inl, fun _ _ _ => told_tell rfl⟩
  | upgrade q => exact ⟨fun _ => queue_store_ne s c q, fun _ _ => rfl, fun _ => .inl, fun _ _ _ => told_tell (s := s) rfl⟩
  | grant q => exact ⟨fun _ => queue_store_ne s c q, fun _ _ => rfl, fun _ => .inl, fun _ _ _ => told_tell (s := s) rfl⟩
  | pass q =>
    refine ⟨fun id hid => ?_, fun _ _ => rfl, fun _ => .inl, fun _ _ _ => told_tell (s := s) rfl⟩
    exact (queue_store_ne (s.store c q) c _ hid).trans (queue_store_ne s c q hid)
  | block q =>
    exact ⟨fun _ => queue_store_ne s c q, fun u hu => setWaiting_waiting_ne (s.store c q) hu _,
      fun w hw => .inr (hblock (s.store c q) c.id w hw), fun _ _ _ => .inl⟩
  | blockOn id =>
    exact ⟨fun _ _ => rfl, fun u hu => setWaiting_waiting_ne s hu _, fun w hw => .inr (hblock s id w hw), fun _ _ _ => .inl⟩

/-- What the call leaves at its own object, where the transaction is alone: it does not wait. -/
theorem CompatInv.acquired_alone (h : CompatInv s) (hgap : c.id.isGap = false) (halone : (s.table.queue c.id).Alone t)
    (hw : s.waiting t = none) (hacq : Acquired s t c r s') :
    CompatQueue s'.waiting (s'.Told c.id) c.id (s'.table.queue c.id) ∧ s'.waiting t = none := by
  have hq := h.queues c.id hgap
  have hsolo : SoloQueue s.waiting c.id (s.table.queue c.id) t := by
    rcases hq.queue with ⟨hplain, _⟩ | ⟨r, rest, hsolo⟩
    · rcases hplain.solo halone hw with hnil | ⟨r, hsolo⟩
      · exact .inl hnil
      · exact .inr ⟨r, [], hsolo, halone r (by simp [hsolo.requests])⟩
    · exact .inr ⟨r, rest, hsolo, halone r (by simp [hsolo.requests])⟩
  have hv' := verdict_solos (T := s.table) (s.txns t).state hgap hsolo
  have htold (u : TxnId) (m : LockMode) (hu : s'.Told c.id u m) : s.Told c.id u m ∨ (u = t ∧ m = c.mode) :=
    (hacq.elsewhere.2.2.2 c.id u m hu).imp_right And.right
  cases hacq with
  | refuse => exact ⟨hq, hw⟩
  | returnFalse => exact ⟨hq, hw⟩
  | held hv =>
    obtain ⟨r, hown, hcovers⟩ := verdict_held hgap hv
    exact ⟨hq.held hw hown hcovers htold, hw⟩
  | upgrade q hv =>
    rw [hv] at hv'
    rw [tell_table, queue_store_self]
    exact ⟨hq.solo hv' halone htold, hw⟩
  | grant q hv =>
    rw [hv] at hv'
    rw [tell_table, addLock_table, queue_store_self]
    exact ⟨hq.solo hv' halone htold, hw⟩
  | pass q hv hready =>
    rw [hv] at hv'
    rw [queue_grantNow, queue_store_self]
    exact ⟨hq.solo hv'.2 halone htold, hw⟩
  | block q hv hready =>
    rw [hv] at hv'
    have hready' : ready (s.store c q).table t c := ready_alone hgap (by rw [queue_store_self]; exact hv'.1)
    simp [hready'] at hready
  | blockOn id hv =>
    have hins := inserts_of_waitOn hv
    cases c with
    | safeInGap => cases hgap
    | _ => cases hins

theorem CompatInv.acquired_plain (h : CompatInv s) (hgap : c.id.isGap = false) (hc : c.plain)
    (hfirst : c.mode = .exclusive → t ∉ (s.table.queue c.id).txns) (hpure : (s.table.queue c.id).Pure)
    (hw : s.waiting t = none) (hacq : Acquired s t c r s') :
    CompatQueue s'.waiting (s'.Told c.id) c.id (s'.table.queue c.id) := by
  have hq := h.queues c.id hgap
  have hplain := (hq.plain hpure).1
  have hplain' := ((h.plainOn hgap hplain).acquired (fun _ => hc) hw hacq).plain c.id rfl
  have hmoves := verdict_moves (s.txns t).state hc hplain hw
  have htold := hacq.elsewhere.2.2.2 c.id
  have hnew (hmem : t ∉ (s.table.queue c.id).txns) (u : TxnId) (m : LockMode) (hu : s.Told c.id u m) : u ≠ t :=
    fun hut => hmem (hut ▸ hq.requested u m hu)
  cases hacq with
  | refuse => exact hq
  | returnFalse => exact hq
  | held hv =>
    obtain ⟨r, hown, hcovers⟩ := verdict_held hgap hv
    exact hq.held hw hown hcovers fun u m hu => (htold u m hu).imp_right And.right
  | upgrade q hv =>
    rw [hv] at hmoves
    exact absurd hmoves.2.1 (hfirst hmoves.1)
  | grant q hv =>
    rw [hv] at hmoves
    obtain ⟨hmem, hput, _, hm, _⟩ := hmoves
    rw [tell_table, addLock_table, queue_store_self] at hplain' ⊢
    refine hq.puts hpure hput hplain' (hnew hmem) ?_ fun u m hu => (htold u m hu).imp_right fun h => ⟨h.2.1, h.2.2, rfl⟩
    intro _ r hr _ hg
    rcases hm with ⟨hs, hgroup⟩ | ⟨_, hgroup⟩
    · exact ⟨hs, fun hx => hgroup (hplain.exclusive r hr hg hx)⟩
    · exact absurd hgroup (hplain.held r hr hg)
  | pass q hv hready =>
    have hblock := ((h.plainOn hgap hplain).block (fun _ => hc) hw hv).plain c.id rfl
    rw [setWaiting_table, queue_store_self] at hblock
    rw [queue_grantNow, queue_store_self] at hplain' ⊢
    rw [hv] at hmoves
    obtain ⟨hm, hput, _⟩ := hmoves
    have hmem : t ∉ (s.table.queue c.id).txns := hm.elim And.right hfirst
    have hgranted := (granted_puts (w := ⟨c, c.id⟩) hblock (setWaiting_waiting_self _ t _) hc (inserts_of_wait hv)).1
    refine hq.puts hpure (hput.trans hgranted rfl) hplain' (hnew hmem) ?_
      fun u m hu => (htold u m hu).imp_right fun h => ⟨h.2.1, h.2.2, rfl⟩
    intro _ r hr hrt hg
    refine ready_queue (T := (s.store c q).table) hc hready r ?_ hrt hg
    rw [queue_store_self]
    exact (hput.mem r).2 (.inl ⟨hr, hrt⟩)
  | block q hv hready =>
    rw [hv] at hmoves
    obtain ⟨hm, hput, _⟩ := hmoves
    have hmem : t ∉ (s.table.queue c.id).txns := hm.elim And.right hfirst
    rw [setWaiting_table, queue_store_self] at hplain' ⊢
    exact hq.puts hpure hput hplain' (hnew hmem) (by simp) fun u m hu => .inl hu
  | blockOn id hv =>
    have hins := inserts_of_waitOn hv
    cases c with
    | safeInGap => cases hgap
    | _ => cases hins

theorem CompatInv.acquired (h : CompatInv s) (hC : c.id.isGap = false → CompatSound s t c) (hw : s.waiting t = none)
    (hacq : Acquired s t c r s') : CompatInv s' := by
  obtain ⟨hqueue, hwt, hwait, htold⟩ := hacq.elsewhere
  have hnone (w : Wait Ix V) (hw' : s.waiting t = some w) : False := by
    rw [hw] at hw'
    cases hw'
  refine h.store (t := t) c.id hqueue hwt (fun w hw' => (hnone w hw').elim) ?_ ?_ ?_
  · intro w hw' _
    have hcall : w.call = c := (hwait w hw').resolve_left (hnone w)
    refine ⟨congrArg Call.id hcall, fun hgap => ?_⟩
    rcases hC hgap with halone | ⟨hc, _⟩
    · rw [(h.acquired_alone hgap halone hw hacq).2] at hw'
      cases hw'
    · rw [hcall]
      exact hc
  · exact fun id hid u m hu => (htold id u m hu).resolve_right fun h' => hid h'.1
  · intro hgap
    rcases hC hgap with halone | ⟨hc, hfirst, hpure⟩
    · exact (h.acquired_alone hgap halone hw hacq).1
    · exact h.acquired_plain hgap hc hfirst hpure hw hacq

theorem CompatInv.grantNow (h : CompatInv s) {w : Wait Ix V} (hw : s.waiting t = some w) (hcall : w.call.inserts = false)
    (hready : ready s.table t w.call) : CompatInv ((s.setWaiting t none).grantNow t w.call).2 := by
  have hnone : ((s.setWaiting t none).grantNow t w.call).2.waiting t = none := setWaiting_waiting_self s t none
  have htold (id : LockDataId Ix) (u : TxnId) (m : LockMode) (hu : ((s.setWaiting t none).grantNow t w.call).2.Told id u m) :
      s.Told id u m ∨ (id = w.call.id ∧ u = t ∧ m = w.call.mode) := told_tell (s := s) rfl hu
  refine h.store (t := t) _ (fun id' hid => LockTable.queue_store_ne _ hid _ _) (fun u hu => setWaiting_waiting_ne s hu none)
    (fun w' hw' _ => ?_) (fun w' hw' => ?_) (fun id hid u m hu => (htold id u m hu).resolve_right fun h' => hid h'.1) fun hgap => ?_
  · rw [hw] at hw'
    cases hw'
    rfl
  · rw [hnone] at hw'
    cases hw'
  · have hq := h.queues _ hgap
    obtain ⟨hplain, _⟩ : Plain s.waiting w.call.id (s.table.queue w.call.id) ∧ (s.table.queue w.call.id).Excl := by
      rcases hq.queue with hplain | ⟨r, rest, hsolo⟩
      · exact hplain
      · exact absurd rfl (hsolo.free t w hw hcall)
    have hc := h.calls t w hw hcall hgap
    have hplain' := ((h.plainOn hgap hplain).grantNow hw hcall fun _ => ready_queue hc hready).plain w.call.id rfl
    rw [queue_grantNow, setWaiting_table] at hplain' ⊢
    refine hq.puts hplain.modes (granted_puts hplain hw hc hcall).1 hplain' ?_ (fun _ => ready_queue hc hready)
      fun u m hu => (htold _ u m hu).imp_right fun h => ⟨h.2.1, h.2.2, rfl⟩
    -- its request was not granted, so it has not been told of a lock here
    rintro u m hu rfl
    obtain ⟨r, hr, hrt, hg, _⟩ := hq.covered hplain.modes u m hu
    have hown := eq_of_nodup_txns hplain.nodup hr (hplain.waiter u w hw hcall rfl) hrt
    simp [hown] at hg

omit [Index.IxCmp V] in
theorem CompatInv.stopWaiting (h : CompatInv s) {w : Wait Ix V} (hw : s.waiting t = some w) (hcall : w.call.inserts) :
    CompatInv (s.setWaiting t none) := by
  refine h.store (t := t) w.call.id (fun _ _ => rfl) (fun u hu => setWaiting_waiting_ne s hu none) (fun w' hw' hcall' => ?_)
    (fun w' hw' => ?_) (fun _ _ _ _ hu => hu) fun hgap => ?_
  · rw [hw] at hw'
    cases hw'
    simp [hcall] at hcall'
  · rw [setWaiting_waiting_self] at hw'
    cases hw'
  · cases hc : w.call <;> simp_all [Call.inserts, Call.id, LockDataId.isGap]

theorem CompatInv.stepped {a : Step Ix V} (h : CompatInv s) (hC : CompatStep s a) (hstep : Stepped s a r s') : CompatInv s' := by
  cases hstep with
  | refused => exact h
  | call t c st r s' hw _ hacq => exact (h.setState t st).acquired hC hw hacq
  | wake t w hw hcall hready => exact h.grantNow hw hcall hready
  | wakeInsert t w r s' hw hcall hacq =>
    refine (h.stopWaiting hw hcall).acquired (fun hgap => ?_) (setWaiting_waiting_self s t none) hacq
    cases hc : w.call <;> simp_all [Call.inserts, Call.id, LockDataId.isGap]
  | unlockEnded => exact h
  | unlock t id st hw => exact (h.setState t st).removeRequests hw id
  | finish => exact ⟨h.queues, h.calls⟩
  | rehash T hperm =>
    refine ⟨fun id hgap => ?_, h.calls⟩
    change CompatQueue s.waiting (s.Told id) id (T.queue id)
    rw [LockTable.queue_of_perm hperm]
    exact h.queues id hgap

omit [Index.IxCmp V] in
theorem compatInv_init : CompatInv ({} : LockManager Ix V) :=
  ⟨fun _ _ => ⟨.inl ⟨plain_empty nofun, nofun⟩, nofun, nofun⟩, nofun⟩

/-- In every state of a run that meets the condition, two transactions that
have been told of locks on one table or record have compatible ones. -/
theorem run_compatible [DecidableEq V] (steps : List (Step Ix V)) {h : List (Step Ix V × Reply)} {s : LockManager Ix V}
    (hC : Along step CompatStep {} steps) (hrun : run step {} steps = some (h, s)) : Compatible s := by
  have hinv : CompatInv s := runFrom_invariant (R := fun _ s => CompatInv s)
    (fun _ s a b s' hs hC hstep => hs.stepped hC (stepped hstep)) compatInv_init hC hrun
  exact hinv.compatible

end LockManager

open LockManager

/-- A reader of a table waits for a writer, and a second reader comes in beside it. -/
theorem run_compatible_wait : ∃ (h : List (Step Unit Int × Reply)) (s : LockManager Unit Int),
    run step {} [.call 3 (.exclusiveOnTable 1), .call 2 (.sharedOnTable 1), .unlock 3 (.table 1), .wake 2,
      .call 4 (.sharedOnTable 1)] = some (h, s) ∧ Compatible s := by
  have hC : Along step CompatStep ({} : LockManager Unit Int) [.call 3 (.exclusiveOnTable 1), .call 2 (.sharedOnTable 1),
      .unlock 3 (.table 1), .wake 2, .call 4 (.sharedOnTable 1)] := by
    refine .cons (fun _ => .inl nofun) rfl (.cons (fun _ => .inr ⟨rfl, nofun, ?_⟩) rfl
      (.cons trivial rfl (.cons trivial rfl (.cons (fun _ => .inr ⟨rfl, nofun, ?_⟩) rfl trivial))))
    · exact fun r hr => .inr (mem_singleton.1 hr ▸ rfl)
    · exact fun r hr => .inl (mem_singleton.1 hr ▸ rfl)
  exact ⟨_, _, rfl, run_compatible _ hC rfl⟩

/-- The wait of `lock_shared_on_table` looks for exclusive locks only, so it
is over at once beside an intention exclusive lock. -/
theorem shared_beside_intention_exclusive : ∃ (h : List (Step Unit Int × Reply)) (s : LockManager Unit Int),
    run step {} [.call 2 (.ixOnTable 1), .call 1 (.sharedOnTable 1)] = some (h, s) ∧
      h.map Prod.snd = [.ret true, .ret true] ∧ ¬Compatible s := by
  refine ⟨_, _, rfl, rfl, fun hcompatible => ?_⟩
  have hboth := hcompatible (.table 1) rfl 1 2 .shared .intentionExclusive mem_cons_self
    (mem_cons_of_mem _ mem_cons_self) (by decide)
  cases hboth

end Rmdb.Lock
