/-
Deadlock prevention.

There is no cycle as long as every transaction waits for younger ones only. The
age test of a call sees to that for the queue of its own object. It does not for
the overlapping gaps, of which it looks at the first one found; and it says
nothing about a transaction that is let in ahead of one that waits already.
-/
import Rmdb.Transaction.GapLocks

namespace Rmdb.Lock

open Option Run

variable {Ix V : Type} [DecidableEq Ix]

/-- The calls for shared and exclusive locks on tables and gaps. -/
def Call.onTableOrGap : Call Ix V → Bool
  | sharedOnGap .. => true
  | exclusiveOnGap .. => true
  | sharedOnTable .. => true
  | exclusiveOnTable .. => true
  | _ => false

omit [DecidableEq Ix] in
theorem Call.plain_of_onTableOrGap {c : Call Ix V} (h : c.onTableOrGap) : c.plain ∧ c.inserts = false := by
  cases c <;> first | exact ⟨rfl, rfl⟩ | cases h

/-- The group mode of the queue is one that the overlap test for `m` looks for. -/
def Entry.seenBy (e : Entry V) (m : LockMode) : Prop :=
  if m = .shared then e.queue.group = .x else e.queue.group ≠ .nonLock

variable [Index.IxCmp V]

variable {m : LockMode} {t : TxnId} {g : Gap V}

theorem Entry.blocks_iff {e : Entry V} :
    e.blocks m t g ↔ e.seenBy m ∧ g.isCoincide e.gap ∧ ∃ r ∈ e.queue.requests, r.txn ≠ t ∧ r.granted := by
  have hheld : e.heldByOther t ↔ ∃ r ∈ e.queue.requests, r.txn ≠ t ∧ r.granted := by simp [Entry.heldByOther]
  rw [Entry.blocks, Bool.and_eq_true, Bool.and_eq_true, hheld, and_assoc, Entry.seenBy]
  refine and_congr_left fun _ => ?_
  split_ifs <;> simp

variable {ix : Ix} {T : LockTable Ix V}

theorem LockTable.blocker_eq_none :
    T.blocker? m t ix g = none ↔ ∀ id e, T.lookup id = some e → id.onIndex ix → ¬e.blocks m t g := by
  rw [blocker?, map_eq_none_iff, List.find?_eq_none]
  constructor
  · intro h id e he hix
    exact h ⟨id, e⟩ (List.mem_filter.2 ⟨AList.mem_lookup_iff.1 he, hix⟩)
  · intro h e he
    obtain ⟨hmem, hix⟩ := List.mem_filter.1 he
    exact h e.1 e.2 (AList.mem_lookup_iff.2 hmem) hix

theorem LockTable.blocker_eq_some {b : Entry V}
    (h : T.blocker? m t ix g = some b) : ∃ id, T.lookup id = some b ∧ id.onIndex ix ∧ b.blocks m t g := by
  obtain ⟨e, he, rfl⟩ := map_eq_some_iff.1 h
  obtain ⟨hmem, hix⟩ := List.mem_filter.1 (List.mem_of_find?_eq_some he)
  have hblocks : e.2.blocks m t g := by simpa using List.find?_some he
  exact ⟨e.1, AList.mem_lookup_iff.2 hmem, hix, hblocks⟩

variable [GapData Ix V]

/-! ## The waits-for relation -/

/-- The transaction has a granted request that makes the wait predicate of the call false. -/
def InTheWay (T : LockTable Ix V) (c : Call Ix V) (u : TxnId) : Prop :=
  (∃ r ∈ (T.queue c.id).requests, r.txn = u ∧ r.granted ∧ (c.mode = .shared → r.mode = .exclusive)) ∨
    ∃ ix id e, c.id.onIndex ix ∧ T.lookup id = some e ∧ id.onIndex ix ∧ e.seenBy c.mode ∧ c.gap.isCoincide e.gap ∧
      ∃ r ∈ e.queue.requests, r.txn = u ∧ r.granted

omit [GapData Ix V] in
/-- Two calls for locks that do not go together, on one object or on gaps that overlap. -/
def Call.Conflicts (c c' : Call Ix V) : Prop :=
  ¬(c.mode = .shared ∧ c'.mode = .shared) ∧
    (c.id = c'.id ∨ ∃ ix, c.id.onIndex ix ∧ c'.id.onIndex ix ∧ c.gap.isCoincide c'.gap)

theorem Call.Conflicts.symm {c c' : Call Ix V} (h : c.Conflicts c') : c'.Conflicts c := by
  refine ⟨fun hs => h.1 hs.symm, ?_⟩
  rcases h.2 with hid | ⟨ix, hix, hix', hgap⟩
  · exact .inl hid.symm
  · exact .inr ⟨ix, hix', hix, (Gap.isCoincide_comm _ _).trans hgap⟩

namespace LockManager

/-- The first transaction is blocked, and the second one holds what it waits for. -/
def WaitsFor (s : LockManager Ix V) (t u : TxnId) : Prop :=
  t ≠ u ∧ ∃ w, s.waiting t = some w ∧ InTheWay s.table w.call u

/-- No transaction waits for itself, directly or through others. -/
def DeadlockFree (s : LockManager Ix V) : Prop := ∀ t, ¬Relation.TransGen s.WaitsFor t t

theorem deadlockFree_of_lt {s : LockManager Ix V} (h : ∀ t u, s.WaitsFor t u → t < u) : DeadlockFree s := by
  intro t hcycle
  have hlt : ∀ u, Relation.TransGen s.WaitsFor t u → t < u := by
    intro u hu
    induction hu with
    | single hu => exact h _ _ hu
    | tail _ hu ih => exact lt_trans ih (h _ _ hu)
  exact lt_irrefl t (hlt t hcycle)

/-! ## The condition -/

/-- The transaction is older than all that hold a lock on an overlapping gap. -/
def Older (s : LockManager Ix V) (t : TxnId) (c : Call Ix V) : Prop :=
  ∀ ix id e, c.id.onIndex ix → s.table.lookup id = some e → id.onIndex ix → e.blocks c.mode t c.gap →
    ∀ r ∈ e.queue.requests, r.granted → r.txn ≠ t → t < r.txn

/-- Whichever of the overlapping gaps the call finds first, its age test throws. -/
def Dies (s : LockManager Ix V) (t : TxnId) (c : Call Ix V) : Prop :=
  (c.mode = .exclusive ∨ s.table.lookup c.id = none) ∧
    ∀ ix id e, c.id.onIndex ix → s.table.lookup id = some e → id.onIndex ix → e.blocks c.mode t c.gap → e.queue.oldest < t

/-- The condition for a call. -/
structure DieSound (s : LockManager Ix V) (t : TxnId) (c : Call Ix V) : Prop where
  scope : c.onTableOrGap
  /-- Two gaps with one hash are one gap. -/
  gap : c.id.isGap → ∀ e, s.table.lookup c.id = some e → e.gap = c.gap
  /-- The call does not overtake one that waits for a lock it conflicts with. -/
  queued : ∀ u w, u ≠ t → s.waiting u = some w → ¬c.Conflicts w.call
  age : s.Older t c ∨ s.Dies t c

def DieStep (s : LockManager Ix V) : Step Ix V → Prop
  | .call t c => DieSound s t c
  | _ => True

variable {s s' : LockManager Ix V} {t : TxnId} {c : Call Ix V}

variable {q : LockRequestQueue}

/-- A call that goes to its wait is older than all it waits for on other gaps. -/
theorem DieSound.older (h : DieSound s t c) {st : TransactionState}
    (hv : verdict s.table st t c = .wait q) : s.Older t c := by
  rcases h.age with hold | ⟨hmode, hdies⟩
  · exact hold
  · intro ix id e hix he hix' hblocks
    exfalso
    cases c with
    | sharedOnGap fd ix' g =>
      obtain rfl := LockDataId.index_eq hix
      have hnone : s.table.lookup (.gap fd ix' (GapData.hash Ix g)) = none := hmode.resolve_left (by simp [Call.mode])
      cases hb : s.table.blocker? .shared t ix' g with
      | none => exact LockTable.blocker_eq_none.1 hb id e he hix' hblocks
      | some b =>
        obtain ⟨id', he', hix'', hblocks'⟩ := LockTable.blocker_eq_some hb
        simp only [verdict, lockSharedOnGap, hnone, hb, waitDie, if_pos (hdies ix' id' b hix he' hix'' hblocks')] at hv
        cases hv
    | exclusiveOnGap fd ix' g =>
      obtain rfl := LockDataId.index_eq hix
      cases hb : s.table.blocker? .exclusive t ix' g with
      | none => exact LockTable.blocker_eq_none.1 hb id e he hix' hblocks
      | some b =>
        obtain ⟨id', he', hix'', hblocks'⟩ := LockTable.blocker_eq_some hb
        have hlt : t > b.queue.oldest := hdies ix' id' b hix he' hix'' hblocks'
        rw [verdict, lockExclusiveOnGap, hb] at hv
        simp only [map_some, getD_some] at hv
        rw [waitDie, if_pos hlt] at hv
        cases hv
    | safeInGap => cases h.scope
    | _ => cases hix

/-! ## What the steps do to the relation -/

variable {v : TxnId}

/-- A lock is granted to `t` that conflicts with no blocked call: nobody waits for it. -/
theorem WaitsFor.of_grant {u : TxnId} (htable : s'.table = s.table.store c.id c.gap q)
    (hwait : ∀ u w, s'.waiting u = some w → u ≠ t ∧ s.waiting u = some w)
    (hgap : c.id.isGap → ∀ e, s.table.lookup c.id = some e → e.gap = c.gap)
    (hput : Puts (s.table.queue c.id) ⟨t, c.mode, true⟩ q) (hgroup : c.id.isGap → c.mode = .shared → q.group ≠ .x)
    (hclear : ∀ u w, u ≠ t → s.waiting u = some w → ¬c.Conflicts w.call) (h : s'.WaitsFor u v) : s.WaitsFor u v := by
  obtain ⟨hne, w, hw, hway⟩ := h
  obtain ⟨hut, hw⟩ := hwait u w hw
  have hclear := hclear u w hut hw
  refine ⟨hne, w, hw, ?_⟩
  rcases hway with ⟨r, hr, hrv, hg, hx⟩ | ⟨ix, id, e, hix, he, hix', hseen, hgap', r, hr, hrv, hg⟩
  · rw [htable] at hr
    by_cases hid : w.call.id = c.id
    · rw [hid, LockTable.queue_store_self] at hr
      rcases (hput.mem r).1 hr with ⟨hr, _⟩ | rfl
      · exact .inl ⟨r, hid ▸ hr, hrv, hg, hx⟩
      · refine absurd ⟨?_, .inl hid.symm⟩ hclear
        rintro ⟨hc, hw⟩
        have := hx hw
        simp [hc] at this
    · rw [LockTable.queue_store_ne _ hid] at hr
      exact .inl ⟨r, hr, hrv, hg, hx⟩
  · rw [htable] at he
    by_cases hid : id = c.id
    · subst hid
      have hisGap := LockDataId.isGap_of_onIndex hix'
      have hlook : (s.table.store c.id c.gap q).lookup c.id = some ⟨c.gap, q⟩ := lookup_store_of_gap (s := s) (hgap hisGap) q
      rw [hlook] at he
      cases he
      refine absurd ⟨?_, .inr ⟨ix, hix', hix, (Gap.isCoincide_comm _ _).trans hgap'⟩⟩ hclear
      rintro ⟨hc, hw⟩
      rw [Entry.seenBy, if_pos hw] at hseen
      exact hgroup hisGap hc hseen
    · rw [LockTable.lookup_store_ne _ hid] at he
      exact .inr ⟨ix, id, e, hix, he, hix', hseen, hgap', r, hr, hrv, hg⟩

theorem inTheWay_of_wait {c' : Call Ix V} {m : LockMode}
    (hput : Puts (s.table.queue c.id) ⟨t, m, false⟩ q) (hgroup : q.group = (s.table.queue c.id).group)
    (h : InTheWay (s.store c q).table c' v) : InTheWay s.table c' v := by
  have hold {r : LockRequest} (hr : r ∈ q.requests) (hg : r.granted) : r ∈ (s.table.queue c.id).requests := by
    rcases (hput.mem r).1 hr with ⟨hr, _⟩ | rfl
    · exact hr
    · cases hg
  rcases h with ⟨r, hr, hrv, hg, hx⟩ | ⟨ix, id, e, hix, he, hix', hseen, hgap, r, hr, hrv, hg⟩
  · by_cases hid : c'.id = c.id
    · rw [hid, queue_store_self] at hr
      exact .inl ⟨r, hid ▸ hold hr hg, hrv, hg, hx⟩
    · rw [queue_store_ne s c q hid] at hr
      exact .inl ⟨r, hr, hrv, hg, hx⟩
  · by_cases hid : id = c.id
    · subst hid
      have hlook := LockTable.lookup_store_self s.table c.id c.gap q
      rw [show (s.store c q).table = s.table.store c.id c.gap q from rfl, hlook] at he
      cases he
      have hr := hold hr hg
      cases hlook' : s.table.lookup c.id with
      | none => simp [LockTable.queue_of_none hlook'] at hr
      | some e =>
        rw [LockTable.queue_of_lookup hlook'] at hr hgroup
        rw [hlook', map_some, getD_some] at hgap
        rw [Entry.seenBy, hgroup] at hseen
        exact .inr ⟨ix, c.id, e, hix, hlook', hix', hseen, hgap, r, hr, hrv, hg⟩
    · rw [show (s.store c q).table = s.table.store c.id c.gap q from rfl, LockTable.lookup_store_ne _ hid] at he
      exact .inr ⟨ix, id, e, hix, he, hix', hseen, hgap, r, hr, hrv, hg⟩

theorem lt_of_inTheWay (h : InTheWay s.table c v) (hne : v ≠ t) (holder : s.Older t c)
    (hqueue : ∀ r ∈ (s.table.queue c.id).requests, t ≤ r.txn) : t < v := by
  rcases h with ⟨r, hr, rfl, _⟩ | ⟨ix, id, e, hix, he, hix', hseen, hgap, r, hr, rfl, hg⟩
  · exact lt_of_le_of_ne (hqueue r hr) hne.symm
  · exact holder ix id e hix he hix' (Entry.blocks_iff.2 ⟨hseen, hgap, r, hr, hne, hg⟩) r hr hg hne

/-! ## The invariant -/

structure DieInv (s : LockManager Ix V) : Prop where
  plain : PlainOn (fun _ => True) s
  own : OwnGap s
  calls : ∀ t w, s.waiting t = some w → w.call.onTableOrGap
  /-- No two calls wait for locks that do not go together. -/
  apart : ∀ t u w w', t ≠ u → s.waiting t = some w → s.waiting u = some w' → ¬w.call.Conflicts w'.call
  /-- Every transaction waits for younger ones only. -/
  edges : ∀ t u, s.WaitsFor t u → t < u

theorem DieInv.setState (h : DieInv s) (t : TxnId) (st : TransactionState) : DieInv (s.setState t st) :=
  ⟨h.plain.setState t st, h.own, h.calls, h.apart, h.edges⟩

omit [DecidableEq Ix] [Index.IxCmp V] in
theorem granted_group_shared (hc : c.onTableOrGap) (hisGap : c.id.isGap) (hmode : c.mode = .shared) (q : LockRequestQueue) :
    (granted t c q).group ≠ .x := by
  cases c with
  | sharedOnGap => simp [granted]
  | exclusiveOnGap => cases hmode
  | safeInGap => cases hc
  | _ => cases hisGap

theorem DieInv.grantNow (h : DieInv s) {w : Wait Ix V} (hw : s.waiting t = some w) (hready : ready s.table t w.call) :
    DieInv ((s.setWaiting t none).grantNow t w.call).2 := by
  have hscope := h.calls t w hw
  obtain ⟨hc, hcall⟩ := Call.plain_of_onTableOrGap hscope
  have hwait (u : TxnId) (w' : Wait Ix V) (hw' : ((s.setWaiting t none).grantNow t w.call).2.waiting u = some w') :
      u ≠ t ∧ s.waiting u = some w' := by
    by_cases hu : u = t
    · have hnone : ((s.setWaiting t none).grantNow t w.call).2.waiting t = none := setWaiting_waiting_self s t none
      rw [hu, hnone] at hw'
      cases hw'
    · exact ⟨hu, (setWaiting_waiting_ne s hu none).symm.trans hw'⟩
  refine ⟨h.plain.grantNow hw hcall fun _ => ready_queue hc hready, (h.own.setWaiting (t := t) (w := none) nofun).store w.call _, ?_, ?_, ?_⟩
  · exact fun u w' hw' => h.calls u w' (hwait u w' hw').2
  · exact fun u v w₁ w₂ hne h₁ h₂ => h.apart u v w₁ w₂ hne (hwait u w₁ h₁).2 (hwait v w₂ h₂).2
  · intro u v hedge
    refine h.edges u v (hedge.of_grant (c := w.call) (t := t) rfl hwait ?_ ?_
      (fun hisGap hmode => granted_group_shared hscope hisGap hmode _) ?_)
    · intro hisGap e he
      obtain ⟨e', he', hgap⟩ := h.own t w hw hcall hisGap
      rw [he] at he'
      cases he'
      exact hgap
    · exact (granted_puts (h.plain.plain w.call.id trivial) hw hc hcall).1
    · exact fun u w' hu hw' => h.apart t u w w' hu.symm hw hw'

theorem DieInv.block (h : DieInv s) (hsound : DieSound s t c) (hw : s.waiting t = none)
    (hv : verdict s.table (s.txns t).state t c = .wait q) : DieInv ((s.store c q).setWaiting t (some ⟨c, c.id⟩)) := by
  obtain ⟨hc, hcall⟩ := Call.plain_of_onTableOrGap hsound.scope
  have hm := verdict_moves (s.txns t).state hc (h.plain.plain c.id trivial) hw
  rw [hv] at hm
  obtain ⟨_, hput, hgroup, _, hage⟩ := hm
  have hself : ((s.store c q).setWaiting t (some ⟨c, c.id⟩)).waiting t = some ⟨c, c.id⟩ := setWaiting_waiting_self (s.store c q) t _
  have hother (u : TxnId) (hu : u ≠ t) : ((s.store c q).setWaiting t (some ⟨c, c.id⟩)).waiting u = s.waiting u :=
    setWaiting_waiting_ne (s.store c q) hu _
  refine ⟨h.plain.block (fun _ => hc) hw hv, (h.own.store c q).setWaiting ?_, ?_, ?_, ?_⟩
  · intro w hw' _ hisGap
    cases hw'
    exact ⟨_, lookup_store_of_gap (hsound.gap hisGap) q, rfl⟩
  · intro u w hw'
    by_cases hu : u = t
    · rw [hu, hself] at hw'
      cases hw'
      exact hsound.scope
    · rw [hother u hu] at hw'
      exact h.calls u w hw'
  · intro u v w₁ w₂ hne h₁ h₂
    by_cases hu : u = t
    · rw [hu, hself] at h₁
      cases h₁
      have hv : v ≠ t := fun hv => hne (hu.trans hv.symm)
      rw [hother v hv] at h₂
      exact hsound.queued v w₂ hv h₂
    · rw [hother u hu] at h₁
      by_cases hv : v = t
      · rw [hv, hself] at h₂
        cases h₂
        exact fun hconf => hsound.queued u w₁ hu h₁ hconf.symm
      · rw [hother v hv] at h₂
        exact h.apart u v w₁ w₂ hne h₁ h₂
  · rintro u v ⟨hne, w, hw', hway⟩
    have hway := inTheWay_of_wait hput hgroup hway
    by_cases hu : u = t
    · rw [hu, hself] at hw'
      cases hw'
      rw [hu]
      exact lt_of_inTheWay hway (fun hv => hne (hu.trans hv.symm)) (hsound.older hv) hage
    · rw [hother u hu] at hw'
      exact h.edges u v ⟨hne, w, hw', hway⟩

/-- `unlock` puts nobody into the way of a blocked call. The group mode of a
queue may rise to `X` by it, for a request that waits there: but that one does
not go with the blocked call. -/
theorem DieInv.waitsFor_of_removeRequests (h : DieInv s) {id : LockDataId Ix} {u : TxnId}
    (hedge : (s.removeRequests t id).WaitsFor u v) : s.WaitsFor u v := by
  obtain ⟨hne, w, hw, hway⟩ := hedge
  rw [removeRequests_waiting] at hw
  refine ⟨hne, w, hw, ?_⟩
  rcases hway with ⟨r, hr, hrv, hg, hx⟩ | ⟨ix, id', e', hix, he', hix', hseen, hgap, r, hr, hrv, hg⟩
  · exact .inl ⟨r, mem_requests_removeRequests hr, hrv, hg, hx⟩
  · obtain ⟨e, he, hgap', hq, hmem⟩ := removeRequests_entry he'
    have hplain : Plain s.waiting id' e.queue := by
      rw [← LockTable.queue_of_lookup he]
      exact h.plain.plain id' trivial
    refine .inr ⟨ix, id', e, hix, he, hix', ?_, hgap' ▸ hgap, r, hmem r hr, hrv, hg⟩
    rcases hq with hq | hq
    · rwa [Entry.seenBy, ← hq]
    · rw [Entry.seenBy] at hseen ⊢
      split_ifs at hseen ⊢ with hmode
      · rw [hq] at hseen
        obtain ⟨r₁, hr₁, hx₁⟩ := exists_exclusive_of_release hseen
        have hr₁ := List.mem_of_mem_filter hr₁
        by_cases hg₁ : r₁.granted
        · exact hplain.exclusive r₁ hr₁ hg₁ hx₁
        · exfalso
          obtain ⟨w₁, hw₁, hcall₁, hid₁, hmode₁⟩ := hplain.waits r₁ hr₁ (by simpa using hg₁)
          have hne₁ : u ≠ r₁.txn := by
            intro hu
            rw [hu, hw₁] at hw
            cases hw
            rw [hmode₁, hx₁] at hmode
            cases hmode
          obtain ⟨e₁, he₁, hgap₁⟩ := h.own r₁.txn w₁ hw₁ hcall₁ (hid₁ ▸ LockDataId.isGap_of_onIndex hix')
          rw [hid₁, he] at he₁
          cases he₁
          refine h.apart u r₁.txn w w₁ hne₁ hw hw₁ ⟨fun hs => ?_, .inr ⟨ix, hix, hid₁ ▸ hix', ?_⟩⟩
          · rw [hmode₁, hx₁] at hs
            cases hs.2
          · rw [← hgap₁, ← hgap']
            exact hgap
      · exact hplain.held r (hmem r hr) hg

theorem DieInv.removeRequests (h : DieInv s) (hw : s.waiting t = none) (id : LockDataId Ix) :
    DieInv (s.removeRequests t id) where
  plain := h.plain.removeRequests hw id
  own := h.own.removeRequests (h.plain.mono fun _ _ => trivial) hw id
  calls := by
    rw [removeRequests_waiting]
    exact h.calls
  apart := by
    rw [removeRequests_waiting]
    exact h.apart
  edges u v hedge := h.edges u v (h.waitsFor_of_removeRequests hedge)

theorem DieInv.grant (h : DieInv s) (hsound : DieSound s t c) (hw : s.waiting t = none)
    (hplain : PlainOn (fun _ => True) s') (htable : s'.table = s.table.store c.id c.gap q) (hwaiting : s'.waiting = s.waiting)
    (hput : Puts (s.table.queue c.id) ⟨t, c.mode, true⟩ q) (hgroup : c.mode = .shared → q.group ≠ .x) : DieInv s' := by
  have hwait (u : TxnId) (w : Wait Ix V) (hu : s'.waiting u = some w) : u ≠ t ∧ s.waiting u = some w := by
    rw [hwaiting] at hu
    refine ⟨fun hut => ?_, hu⟩
    rw [hut, hw] at hu
    cases hu
  refine ⟨hplain, ?_, hwaiting ▸ h.calls, hwaiting ▸ h.apart, ?_⟩
  · have hown := h.own.store c q
    intro u w hu hcall hid
    rw [htable]
    exact hown u w (hwait u w hu).2 hcall hid
  · intro u v hedge
    exact h.edges u v (hedge.of_grant htable hwait hsound.gap hput (fun _ => hgroup) hsound.queued)

theorem DieInv.acquired {r : Reply} (h : DieInv s) (hsound : DieSound s t c) (hw : s.waiting t = none)
    (hacq : Acquired s t c r s') : DieInv s' := by
  obtain ⟨hc, hcall⟩ := Call.plain_of_onTableOrGap hsound.scope
  have hplain' := h.plain.acquired (fun _ => hc) hw hacq
  have hm := verdict_moves (s.txns t).state hc (h.plain.plain c.id trivial) hw
  cases hacq with
  | refuse => exact h
  | returnFalse => exact h
  | held => exact ⟨hplain', h.own, h.calls, h.apart, h.edges⟩
  | upgrade q hv =>
    rw [hv] at hm
    obtain ⟨hmode, _, hput, _⟩ := hm
    rw [← hmode] at hput
    refine h.grant hsound hw hplain' rfl rfl hput fun hs => ?_
    rw [hmode] at hs
    cases hs
  | grant q hv =>
    rw [hv] at hm
    obtain ⟨_, hput, hgroup, _⟩ := hm
    refine h.grant hsound hw hplain' rfl rfl hput fun hs => ?_
    rw [hgroup, hs]
    simp [LockMode.group]
  | pass q hv hready =>
    have hnow := (h.block hsound hw hv).grantNow (setWaiting_waiting_self _ t _) hready
    rwa [setWaiting_undo (s := s.store c q) hw] at hnow
  | block q hv _ => exact h.block hsound hw hv
  | blockOn id hv => simp [inserts_of_waitOn hv] at hcall

theorem DieInv.stepped {a : Step Ix V} {r : Reply} (h : DieInv s) (hC : DieStep s a) (hstep : Stepped s a r s') : DieInv s' := by
  cases hstep with
  | refused => exact h
  | call t c st r s' hw _ hacq => exact (h.setState t st).acquired ⟨hC.scope, hC.gap, hC.queued, hC.age⟩ hw hacq
  | wake t w hw _ hready => exact h.grantNow hw hready
  | wakeInsert t w r s' hw hcall _ => simp [(Call.plain_of_onTableOrGap (h.calls t w hw)).2] at hcall
  | unlockEnded => exact h
  | unlock t id st hw => exact (h.setState t st).removeRequests hw id
  | finish => exact ⟨⟨h.plain.plain, h.plain.calls⟩, h.own, h.calls, h.apart, h.edges⟩
  | rehash T hperm =>
    have hlook (id : LockDataId Ix) : T.lookup id = s.table.lookup id := AList.perm_lookup hperm
    have hqueue := LockTable.queue_of_perm hperm
    refine ⟨⟨fun id _ => ?_, h.plain.calls⟩, ?_, h.calls, h.apart, ?_⟩
    · change Plain s.waiting id (T.queue id)
      rw [hqueue]
      exact h.plain.plain id trivial
    · exact fun u w hw hcall hid => (h.own u w hw hcall hid).imp fun e he => ⟨(hlook _).trans he.1, he.2⟩
    · intro u v hedge
      obtain ⟨hne, w, hw, hway⟩ := hedge
      simp only [InTheWay, hlook, hqueue] at hway
      exact h.edges u v ⟨hne, w, hw, hway⟩

theorem dieInv_init : DieInv ({} : LockManager Ix V) := by
  have hnone (t : TxnId) (w : Wait Ix V) : ({} : LockManager Ix V).waiting t ≠ some w := nofun
  refine ⟨plainOn_init _, fun t w hw => absurd hw (hnone t w), fun t w hw => absurd hw (hnone t w), ?_, ?_⟩
  · exact fun t u w w' _ hw => absurd hw (hnone t w)
  · intro t u hedge
    obtain ⟨_, w, hw, _⟩ := hedge
    exact absurd hw (hnone t w)

/-- In every state of a run that meets the condition, the waits-for relation has no cycle. -/
theorem run_deadlockFree [DecidableEq V] (steps : List (Step Ix V)) {h : List (Step Ix V × Reply)} {s : LockManager Ix V}
    (hC : Along step DieStep {} steps) (hrun : run step {} steps = some (h, s)) : DeadlockFree s := by
  have hinv : DieInv s := runFrom_invariant (R := fun _ s => DieInv s)
    (fun _ s a b s' hs hC hstep => hs.stepped hC (stepped hstep)) dieInv_init hC hrun
  exact deadlockFree_of_lt hinv.edges

end LockManager

open LockManager

/-- A transaction waits for a younger one that holds an overlapping gap. -/
theorem run_deadlockFree_wait : ∃ (h : List (Step Unit Int × Reply)) (s : LockManager Unit Int),
    run step {} [.call 2 (.exclusiveOnGap 0 () gap5), .call 1 (.sharedOnGap 0 () gap37)] = some (h, s) ∧
      (s.waiting 1).isSome ∧ DeadlockFree s := by
  have hC : Along step DieStep ({} : LockManager Unit Int)
      [.call 2 (.exclusiveOnGap 0 () gap5), .call 1 (.sharedOnGap 0 () gap37)] := by
    refine .cons ⟨rfl, fun _ _ => nofun, fun _ _ _ => nofun, .inl ?_⟩ rfl
      (.cons ⟨rfl, fun _ _ => nofun, fun _ _ _ => nofun, .inl ?_⟩ rfl trivial)
    · intro ix id e _ he
      cases he
    · intro ix id e _ he _ _ r hr _ _
      by_cases hid : id = (Call.exclusiveOnGap 0 () gap5 : Call Unit Int).id
      · subst hid
        cases he
        rw [List.mem_singleton.1 hr]
        decide
      · have hnone : (∅ : LockTable Unit Int).lookup id = some e :=
          (LockTable.lookup_store_ne ∅ hid gap5 _).symm.trans he
        cases hnone
  exact ⟨_, _, rfl, rfl, run_deadlockFree _ hC rfl⟩

/-- Transaction 1 waits for table 1, which 5 reads. Transaction 0 is let in
there beside 5, ahead of 1, and then waits for table 2, which 1 has. -/
theorem deadlock : ∃ (h : List (Step Unit Int × Reply)) (s : LockManager Unit Int),
    run step {} [.call 1 (.exclusiveOnTable 2), .call 5 (.sharedOnTable 1), .call 1 (.exclusiveOnTable 1),
      .call 0 (.sharedOnTable 1), .call 0 (.sharedOnTable 2)] = some (h, s) ∧
      h.reverse.map Prod.snd = [.ret true, .ret true, .blocked, .ret true, .blocked] ∧ ¬DeadlockFree s := by
  refine ⟨_, _, rfl, rfl, fun hfree => hfree 1 (.tail (b := 0) (.single ?_) ?_)⟩
  · exact ⟨by decide, _, rfl, .inl ⟨⟨0, .shared, true⟩, by decide, rfl, rfl, nofun⟩⟩
  · exact ⟨by decide, _, rfl, .inl ⟨⟨1, .exclusive, true⟩, by decide, rfl, rfl, fun _ => rfl⟩⟩

end Rmdb.Lock
