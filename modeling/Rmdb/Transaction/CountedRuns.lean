/-
Runs that keep the counters.

The upgrades that leave a counter behind, and the wait that raises one for a
request that is not granted, are `Call.miscounts`. Every other call moves the
counters with the requests, when it is made and when its wait is over.
-/
import Rmdb.Transaction.Counters

namespace Rmdb.Lock

open List

variable {Ix V : Type}

/-! ## The calls -/

section

variable [GapData Ix V]

def Verdict.Counts (c : Call Ix V) (t : TxnId) (q : LockRequestQueue) : Verdict Ix → Prop
  | .upgrade q' => Keeps t q q' ∧ Own (V := V) c.id t none (requestsOf t q'.requests)
  | .grant q' => Keeps t q q' ∧ Own (V := V) c.id t none (requestsOf t q'.requests)
  | .wait q' => Keeps t q q' ∧ Own c.id t (some c) (requestsOf t q'.requests)
  | _ => True

variable {c : Call Ix V} {q : LockRequestQueue} {t : TxnId} {m : LockMode} {r : LockRequest}

/-- Before the call the requests of the transaction are settled. -/
structure Calling (c : Call Ix V) (t : TxnId) (q : LockRequestQueue) : Prop where
  aged : Aged q
  range : t ≤ int32Max
  own : Own (V := V) c.id t none (requestsOf t q.requests)

theorem pending_singleton (hm : m = c.mode) : Own c.id t (some c) [⟨t, m, false⟩] where
  settled := nofun
  pending c' hc' := by
    cases hc'
    subst hm
    cases c
    case exclusiveOnRecord =>
      refine ⟨by simp, fun r' hr' => ?_⟩
      rw [mem_singleton] at hr'
      subst hr'
      exact .inr rfl
    all_goals rfl
  single _ := le_rfl

/-- The request is granted as it comes in, and the counter of its mode raised. -/
theorem Calling.addGranted (h : Calling c t q) (hown : q.own t = none) {n k : Int} (g : GroupLockMode)
    (hn : n = q.sharedNum + if LockRequest.countsShared ⟨t, m, true⟩ then 1 else 0)
    (hk : k = q.ixNum + if LockRequest.countsIx ⟨t, m, true⟩ then 1 else 0) :
    (Verdict.grant { q.addGranted t m with group := g, sharedNum := n, ixNum := k }).Counts c t q := by
  refine ⟨.append rfl hn hk (h.aged.append h.range rfl rfl), ?_⟩
  change Own c.id t none (requestsOf t (q.requests ++ [⟨t, m, true⟩]))
  rw [requestsOf_append, LockRequestQueue.requestsOf_of_own_none hown]
  exact own_singleton t m true (.inl rfl) c.id

theorem Calling.addWaiting (h : Calling c t q) (hown : q.own t = none) (hold : t ≤ q.oldest) (hm : m = c.mode) :
    (Verdict.wait (q.addWaiting t m)).Counts c t q := by
  refine ⟨.addWaiting (h.aged.addWaiting h.range hold m), ?_⟩
  change Own c.id t (some c) (requestsOf t (q.requests ++ [⟨t, m, false⟩]))
  rw [requestsOf_append, LockRequestQueue.requestsOf_of_own_none hown]
  exact pending_singleton hm

theorem Calling.settled (h : Calling c t q) (hown : q.own t = some r) : r.granted ∨ r.mode = .exclusive := by
  obtain ⟨l, hl⟩ := LockRequestQueue.requestsOf_of_own hown
  exact h.own.settled rfl r (by simp [hl])

theorem Calling.raise (h : Calling c t q) (hown : q.own t = some r) (g : GroupLockMode) {n k : Int}
    (hn : n + (if r.countsShared then 1 else 0) = q.sharedNum + if LockRequest.countsShared
    { r with mode := m } then 1 else 0)
    (hk : k + (if r.countsIx then 1 else 0) = q.ixNum + if LockRequest.countsIx { r with mode := m } then 1 else 0)
    (hm : r.granted ∨ m = .exclusive) :
    (Verdict.upgrade
      { q with
        requests := updateFirst t (fun r => { r with mode := m }) q.requests
        group := g
        sharedNum := n
        ixNum := k }).Counts c t q := by
  obtain ⟨l, hl⟩ := LockRequestQueue.requestsOf_of_own hown
  have hf (r : LockRequest) : LockRequest.txn { r with mode := m } = r.txn := rfl
  have hl' := requestsOf_updateFirst hf hl
  refine ⟨.head (requestsButOf_updateFirst hf) hl hl' hn hk (h.aged.of_txns (map_txn_updateFirst hf _) rfl), ?_⟩
  change Own c.id t none (requestsOf t (updateFirst t (fun r => { r with mode := m }) q.requests))
  rw [hl']
  exact .head (hl ▸ h.own) hm

/-- The request of the transaction waits to become exclusive. The counters are
right only where it did not count before. -/
theorem Calling.lower (h : Calling c t q) (hown : q.own t = some r) (hold : t ≤ q.oldest) (hid : c.id.isRecord = false)
    (hm : c.mode = .exclusive) (hshared : r.countsShared = false) (hix : r.countsIx = false) :
    (Verdict.wait
      { q with
        requests := updateFirst t (fun r => { r with granted := false, mode := .exclusive }) q.requests
        oldest := t }).Counts c t q := by
  obtain ⟨l, hl⟩ := LockRequestQueue.requestsOf_of_own hown
  obtain rfl : l = [] := by
    have hsingle := h.own.single hid
    rw [hl, length_cons] at hsingle
    exact length_eq_zero_iff.1 (by omega)
  have hf (r : LockRequest) : LockRequest.txn { r with granted := false, mode := .exclusive } = r.txn := rfl
  have hl' := requestsOf_updateFirst hf hl
  refine ⟨.head (requestsButOf_updateFirst hf) hl hl' (by simp [hshared]) (by simp [hix])
    (h.aged.of_txns (map_txn_updateFirst hf _) (h.aged.eq_oldest hown hold).symm), ?_⟩
  have hr : LockRequest.mk r.txn .exclusive false = ⟨t, .exclusive, false⟩ :=
    by rw [(LockRequestQueue.mem_of_own hown).2]
  change Own c.id t (some c)
    (requestsOf t (updateFirst t (fun r => { r with granted := false, mode := .exclusive }) q.requests))
  rw [hl', hr]
  exact pending_singleton hm.symm

theorem Calling.beside {fd : Nat} {rid : Rid} (h : Calling (.exclusiveOnRecord fd rid : Call Ix V) t q) (hold : t ≤ q.oldest) :
    (Verdict.wait (q.addWaiting t .exclusive)).Counts (.exclusiveOnRecord fd rid : Call Ix V) t q := by
  refine ⟨.addWaiting (h.aged.addWaiting h.range hold _), nofun, ?_, nofun⟩
  intro c hc
  cases hc
  change _ ≠ [] ∧ Settled (requestsOf t (q.requests ++ [⟨t, .exclusive, false⟩]))
  rw [requestsOf_append]
  refine ⟨by simp [LockRequestQueue.addWaiting, requestsOf_append], fun r' hr' => ?_⟩
  rcases mem_append.1 hr' with hmem | hmem
  · exact h.own.settled rfl r' hmem
  · rw [mem_singleton] at hmem
    exact .inr (by rw [hmem])

end

section

variable [DecidableEq Ix] [Index.IxCmp V] [GapData Ix V] {T : LockTable Ix V} {t : TxnId}

/-- The calls in which a counter is left behind, or raised for a request that is not granted. -/
def Call.miscounts (T : LockTable Ix V) (t : TxnId) (c : Call Ix V) : Prop :=
  let q := T.queue c.id
  match c with
  | .exclusiveOnTable _ =>
    ∃ r ∈ q.own t, r.mode ≠ .exclusive ∧ r.mode ≠ .intentionShared ∧ (q.sharedNum = 1 ∨ t ≤ q.oldest)
  | .exclusiveOnGap _ ix g =>
    ∃ r ∈ q.own t, r.mode = .shared ∧ (q.sharedNum = 1 → (T.blocker? .exclusive t ix g).isSome) ∧ t ≤ q.oldest ∧
      ∀ b ∈ T.blocker? .exclusive t ix g, t ≤ b.queue.oldest
  | .ixOnTable _ =>
    ∃ r ∈ q.own t, (r.mode = .shared ∧ q.sharedNum ≠ 1 ∨ r.mode = .intentionShared ∧ q.group ≠ .is ∧ q.group ≠ .ix) ∧
      t ≤ q.oldest
  | _ => False

instance decidableMiscounts (T : LockTable Ix V) (t : TxnId) (c : Call Ix V) : Decidable (c.miscounts T t) :=
  match c with
  | .exclusiveOnTable _ => Option.decidableExistsMem _
  | .exclusiveOnGap .. => Option.decidableExistsMem _
  | .ixOnTable _ => Option.decidableExistsMem _
  | .sharedOnGap .. => instDecidableFalse
  | .safeInGap .. => instDecidableFalse
  | .sharedOnRecord .. => instDecidableFalse
  | .exclusiveOnRecord .. => instDecidableFalse
  | .sharedOnTable _ => instDecidableFalse
  | .isOnTable _ => instDecidableFalse

variable {wt : TxnId → Option (Wait Ix V)} {c : Call Ix V}

omit [Index.IxCmp V] in
theorem Balanced.calling (h : Balanced wt c.id (T.queue c.id)) (hw : wt t = none) (ht : t ≤ int32Max) :
    Calling c t (T.queue c.id) := by
  have hown := h.own t
  rw [blockedAt, hw] at hown
  exact ⟨h.aged, ht, hown⟩

theorem Calling.raised {q : LockRequestQueue} {r : LockRequest} {m : LockMode} {n k : Int} (h : Calling c t q)
    (hown : q.own t = some r) (hraise : c.Raises T t q r m n k)
    (hshared : q.sharedNum = q.requests.countP LockRequest.countsShared)
    (htable : ∀ fd, c = .exclusiveOnTable fd → r.mode = .intentionShared) :
    (Verdict.upgrade
      { q with
        requests := updateFirst t (fun r => { r with mode := m }) q.requests
        group := m.group
        sharedNum := n
        ixNum := k }).Counts c t q := by
  cases c with
  | exclusiveOnGap fd ix g =>
    obtain ⟨⟨rfl, rfl, rfl⟩, hg, hmode, hone, _⟩ := hraise
    exact h.raise hown .x (by simp [LockRequest.countsShared, hmode, hg, hone]) (by simp [LockRequest.countsIx, hmode])
      (.inr rfl)
  | exclusiveOnRecord fd rid =>
    obtain ⟨⟨rfl, rfl, rfl⟩, hg, hmode, hone⟩ := hraise
    obtain ⟨r', hr'⟩ := length_eq_one_iff.1 hone
    have hr : r ∈ q.requests := (LockRequestQueue.mem_of_own hown).1
    rw [hr', mem_singleton] at hr
    subst hr
    rw [hr', countP_singleton] at hshared
    refine h.raise hown .x ?_ ?_ (.inr rfl)
    · simp [LockRequest.countsShared, hmode, hg] at hshared ⊢
      omega
    · simp [LockRequest.countsIx, hmode]
  | exclusiveOnTable fd =>
    obtain ⟨⟨rfl, rfl, rfl⟩, _⟩ := hraise
    have his := htable fd rfl
    exact h.raise hown .x (by simp [LockRequest.countsShared, his]) (by simp [LockRequest.countsIx, his]) (.inr rfl)
  | ixOnTable fd =>
    have hg : r.mode ≠ .exclusive → r.granted := fun hx => (h.settled hown).resolve_right hx
    obtain ⟨⟨rfl, rfl⟩, ⟨rfl, hmode⟩ | ⟨rfl, hmode⟩⟩ := hraise
    all_goals
      have hg := hg (by simp [hmode])
      exact h.raise hown _ (by simp [LockRequest.countsShared, hmode, hg]) (by simp [LockRequest.countsIx, hmode, hg]) (.inl hg)
  | _ => exact hraise.elim

theorem verdict_counts (st : TransactionState) (h : Balanced wt c.id (T.queue c.id)) (hw : wt t = none)
    (ht : t ≤ int32Max) (hc : ¬c.miscounts T t) : (verdict T st t c).Counts c t (T.queue c.id) := by
  have hcalling := h.calling hw ht
  have hans := verdict_answer T st t c
  generalize verdict T st t c = v at hans ⊢
  cases hans with
  | quiet v hv => rcases hv with rfl | rfl | rfl <;> trivial
  | waitOn id => trivial
  | held => trivial
  | grant g n k hcall hown _ hn hk =>
    refine hcalling.addGranted hown g (hn.trans ?_) (hk.trans ?_)
    all_goals cases c <;> rfl
  | insert fd ix key hcall hlook =>
    rw [LockTable.queue_of_none hlook] at hcalling ⊢
    have hq : ({ requests := [⟨t, .exclusive, true⟩], group := .x, oldest := t } : LockRequestQueue) =
        { LockRequestQueue.addGranted {} t .exclusive with group := .x } := by
      have hmin : t = if t < int32Max then t else int32Max := by
        split_ifs with hlt
        · rfl
        · exact le_antisymm ht (not_lt.1 hlt)
      simpa [LockRequestQueue.addGranted] using hmin
    rw [hq]
    exact hcalling.addGranted rfl .x (add_zero _).symm (add_zero _).symm
  | raise r m n k hown hraise =>
    refine hcalling.raised hown hraise h.shared fun fd hfd => ?_
    subst hfd
    by_contra his
    exact hc ⟨r, hown, hraise.2.1, his, .inl hraise.2.2⟩
  | wait hcall hown hage =>
    refine hcalling.addWaiting hown ?_ rfl
    rcases hage with hlook | hage
    · rw [LockTable.queue_of_none hlook]
      exact ht
    · exact hage
  | beside r hown hcall hage =>
    cases c with
    | exclusiveOnRecord fd rid => exact hcalling.beside hage
    | ixOnTable fd => exact absurd ⟨r, hown, hcall, hage⟩ hc
    | _ => exact hcall.elim
  | lower r hown hcall hage =>
    cases c with
    | exclusiveOnGap fd ix g => exact absurd ⟨r, hown, hcall.1, hcall.2.1, hage, hcall.2.2⟩ hc
    | exclusiveOnTable fd =>
      have his : r.mode = .intentionShared := by
        by_contra his
        exact hc ⟨r, hown, hcall.1, his, .inr hage⟩
      exact hcalling.lower hown hage rfl rfl (by simp [LockRequest.countsShared, his]) (by simp [LockRequest.countsIx, his])
    | _ => exact hcall.elim

end

/-! ## When a wait is over -/

section

variable {q q' : LockRequestQueue} {t : TxnId}

theorem grantOne_counts (V : Type) (id : LockDataId Ix) (m : LockMode) (hl : requestsOf t q.requests = [⟨t, m, false⟩])
    (hq' : q'.requests = updateFirst t LockRequest.grant q.requests ∨
      q'.requests = updateLast t LockRequest.grant q.requests)
    (hn : q'.sharedNum = q.sharedNum + if LockRequest.countsShared ⟨t, m, true⟩ then 1 else 0)
    (hk : q'.ixNum = q.ixNum + if LockRequest.countsIx ⟨t, m, true⟩ then 1 else 0) (haged : Aged q') :
    Keeps t q q' ∧ Own (V := V) id t none (requestsOf t q'.requests) := by
  have hf (r : LockRequest) : r.grant.txn = r.txn := rfl
  have hboth : requestsButOf t q'.requests = requestsButOf t q.requests ∧ requestsOf t q'.requests = [⟨t, m, true⟩] := by
    rcases hq' with hq' | hq'
    · rw [hq']
      exact ⟨requestsButOf_updateFirst hf, requestsOf_updateFirst hf hl⟩
    · rw [hq']
      exact ⟨requestsButOf_updateLast hf, requestsOf_updateLast hf hl⟩
  refine ⟨.head hboth.1 hl hboth.2 ((add_zero _).trans hn) ((add_zero _).trans hk) haged, ?_⟩
  rw [hboth.2]
  exact own_singleton t m true (.inl rfl) id

theorem LockRequest.grant_of_granted {r : LockRequest} (h : r.granted) : r.grant = r := by
  rw [grant, ← h]

/-- The first request of a transaction in the queue of a record is granted already, or does not count. -/
theorem grantSettled_counts (V : Type) {id : LockDataId Ix} (hid : id.isRecord) (hne : requestsOf t q.requests ≠ [])
    (hl : Settled (requestsOf t q.requests)) (hq' : q'.requests = updateFirst t LockRequest.grant q.requests)
    (hn : q'.sharedNum = q.sharedNum) (hk : q'.ixNum = q.ixNum) (haged : Aged q') :
    Keeps t q q' ∧ Own (V := V) id t none (requestsOf t q'.requests) := by
  have hf (r : LockRequest) : r.grant.txn = r.txn := rfl
  obtain ⟨r, l, hrl⟩ := exists_cons_of_ne_nil hne
  have hr : r.granted ∨ r.mode = .exclusive := hl r (by simp [hrl])
  have hown : Own (V := V) id t none (r :: l) := ⟨fun _ => hrl ▸ hl, nofun, by simp [hid]⟩
  have hrl' : requestsOf t q'.requests = r.grant :: l := hq' ▸ requestsOf_updateFirst hf hrl
  refine ⟨.head (hq' ▸ requestsButOf_updateFirst hf) hrl hrl' ?_ ?_ haged, ?_⟩
  · rcases hr with hr | hr
    · rw [hn, LockRequest.grant_of_granted hr]
    · simp [hn, LockRequest.countsShared, LockRequest.grant, hr]
  · rcases hr with hr | hr
    · rw [hk, LockRequest.grant_of_granted hr]
    · simp [hk, LockRequest.countsIx, LockRequest.grant, hr]
  · rw [hrl']
    exact hown.head (.inl rfl)

theorem granted_counts [GapData Ix V] {c : Call Ix V} (hcall : c.inserts = false) (haged : Aged q)
    (hown : Own c.id t (some c) (requestsOf t q.requests)) :
    Keeps t q (granted t c q) ∧ Own (V := V) c.id t none (requestsOf t (granted t c q).requests) := by
  have haged' : Aged (granted t c q) := by
    refine haged.of_txns (LockRequestQueue.txns_granted t c q) ?_
    cases c <;> rfl
  have hpending := hown.pending c rfl
  cases c with
  | sharedOnGap fd ix g => exact grantOne_counts V _ .shared hpending (.inr rfl) rfl (add_zero _).symm haged'
  | exclusiveOnGap fd ix g =>
    exact grantOne_counts V _ .exclusive hpending (.inr rfl) (add_zero _).symm (add_zero _).symm haged'
  | safeInGap fd ix key => cases hcall
  | sharedOnRecord fd rid => exact grantOne_counts V _ .shared hpending (.inr rfl) rfl (add_zero _).symm haged'
  | exclusiveOnRecord fd rid => exact grantSettled_counts V rfl hpending.1 hpending.2 rfl rfl rfl haged'
  | sharedOnTable fd => exact grantOne_counts V _ .shared hpending (.inr rfl) rfl (add_zero _).symm haged'
  | exclusiveOnTable fd =>
    exact grantOne_counts V _ .exclusive hpending (.inr rfl) (add_zero _).symm (add_zero _).symm haged'
  | isOnTable fd =>
    exact grantOne_counts V _ .intentionShared hpending (.inl rfl) (add_zero _).symm (add_zero _).symm haged'
  | ixOnTable fd => exact grantOne_counts V _ .intentionExclusive hpending (.inl rfl) (add_zero _).symm rfl haged'

end

/-! ## The lock manager -/

namespace LockManager

variable [DecidableEq Ix] [GapData Ix V] {s s' : LockManager Ix V} {t : TxnId} {c : Call Ix V} {r : Reply}

def Exact (s : LockManager Ix V) : Prop := ∀ id, (s.table.queue id).Exact

def Balances (s : LockManager Ix V) : Prop := ∀ id, Balanced s.waiting id (s.table.queue id)

theorem balances_init : Balances ({} : LockManager Ix V) := fun _ => balanced_empty fun _ => rfl

theorem Balances.store (h : s.Balances) (id : LockDataId Ix)
    (hqueue : ∀ id', id' ≠ id → s'.table.queue id' = s.table.queue id')
    (hwt : ∀ id', id' ≠ id → ∀ u, blockedAt s'.waiting id' u = blockedAt s.waiting id' u)
    (hself : Balanced s'.waiting id (s'.table.queue id)) : s'.Balances := by
  intro id'
  by_cases hid : id' = id
  · subst hid
    exact hself
  · rw [hqueue id' hid]
    exact (h id').congr (hwt id' hid)

theorem Balances.grantNow (h : s.Balances) {w : Wait Ix V} (hw : s.waiting t = some w)
    (hcall : w.call.inserts = false) :
    ((s.setWaiting t none).grantNow t w.call).2.Balances := by
  have hnone : ((s.setWaiting t none).grantNow t w.call).2.waiting t = none := setWaiting_waiting_self s t none
  have hne (u : TxnId) (hu : u ≠ t) : ((s.setWaiting t none).grantNow t w.call).2.waiting u = s.waiting u :=
    setWaiting_waiting_ne s hu none
  refine h.store w.call.id (fun id' hid => LockTable.queue_store_ne _ hid _ _) (fun id' hid u => ?_) ?_
  · by_cases hu : u = t
    · rw [hu, blockedAt_of_none hnone, blockedAt_ne hw hid]
    · exact blockedAt_congr (hne u hu) id'
  · have hown := (h w.call.id).own t
    rw [blockedAt_self hw hcall] at hown
    obtain ⟨hkeeps, hown'⟩ := granted_counts hcall (h w.call.id).aged hown
    rw [queue_grantNow, setWaiting_table]
    refine (h w.call.id).keeps hkeeps (fun u hu => blockedAt_congr (hne u hu) _) ?_
    rw [blockedAt_of_none hnone]
    exact hown'

theorem Balances.inserts (h : s.Balances) (hbefore : ∀ id, blockedAt s.waiting id t = none) (w : Option (Wait Ix V))
    (hw : ∀ w', w = some w' → w'.call.inserts) : (s.setWaiting t w).Balances := by
  intro id
  refine (h id).congr fun u => ?_
  by_cases hu : u = t
  · subst hu
    rw [hbefore]
    cases w with
    | none => exact blockedAt_of_none (setWaiting_waiting_self s u none) id
    | some w' => exact blockedAt_inserts (setWaiting_waiting_self s u (some w')) (hw w' rfl) id
  · exact blockedAt_congr (setWaiting_waiting_ne s hu w) id

theorem Balances.release (h : s.Balances) (hw : s.waiting t = none) (id : LockDataId Ix) :
    Balanced s.waiting id ((s.table.queue id).release t) := by
  have hown := (h id).own t
  rw [blockedAt_of_none hw] at hown
  have hrest : requestsOf t ((s.table.queue id).release t).requests = [] := by
    change requestsOf t (requestsButOf t (s.table.queue id).requests) = []
    rw [requestsOf, requestsButOf, filter_filter]
    simp
  refine (h id).keeps (.release (h id).aged (hown.settled rfl)) (fun _ _ => rfl) ?_
  rw [blockedAt_of_none hw, hrest]
  exact ⟨fun _ r hr => by simp at hr, by simp, fun _ => by simp⟩

theorem Balances.removeRequests (h : s.Balances) (hw : s.waiting t = none) (id : LockDataId Ix) :
    (s.removeRequests t id).Balances := by
  have hrelease := h.release hw id
  refine h.store id ?_ (fun _ _ _ => by rw [removeRequests_waiting]) ?_
  · intro id' hid
    rw [LockTable.queue, removeRequests_lookup_ne s t hid, ← LockTable.queue]
  · rw [removeRequests_waiting]
    cases hlook : (s.removeRequests t id).table.lookup id with
    | none =>
      -- nothing is left, so nobody is blocked there
      have htxns := removeRequests_queue_txns s t id
      rw [LockTable.queue_of_none hlook, ← LockRequestQueue.txns_release] at htxns
      have hempty : ((s.table.queue id).release t).requests = [] := map_eq_nil_iff.1 htxns.symm
      rw [LockTable.queue_of_none hlook]
      refine balanced_empty fun u => (hrelease.own u).blocked_none ?_
      rw [hempty]
      rfl
    | some e' =>
      rw [LockTable.queue_of_lookup hlook]
      obtain ⟨e, he, _, ⟨_, hq⟩ | ⟨_, hq, _⟩⟩ := removeRequests_lookup s t hlook
      · rw [hq, ← LockTable.queue_of_lookup he]
        exact h id
      · rw [hq, ← LockTable.queue_of_lookup he]
        exact hrelease

variable [Index.IxCmp V]

/-- The call goes on behind `check_lock`. -/
def Counted (s : LockManager Ix V) (t : TxnId) (c : Call Ix V) : Prop := t ≤ int32Max ∧ ¬c.miscounts s.table t

theorem Balances.block (h : s.Balances) (hc : s.Counted t c) (hw : s.waiting t = none) {q : LockRequestQueue}
    (hv : verdict s.table (s.txns t).state t c = .wait q) : ((s.store c q).setWaiting t (some ⟨c, c.id⟩)).Balances := by
  have hwait := setWaiting_waiting_self (s.store c q) t (some ⟨c, c.id⟩)
  have hne (u : TxnId) (hu : u ≠ t) : ((s.store c q).setWaiting t (some ⟨c, c.id⟩)).waiting u = s.waiting u :=
    setWaiting_waiting_ne (s.store c q) hu _
  refine h.store c.id (fun _ => queue_store_ne s c q) (fun id' hid u => ?_) ?_
  · by_cases hu : u = t
    · rw [hu, blockedAt_of_none hw, blockedAt_ne hwait hid]
    · exact blockedAt_congr (hne u hu) id'
  · have hcounts := verdict_counts (s.txns t).state (h c.id) hw hc.1 hc.2
    rw [hv] at hcounts
    rw [setWaiting_table, queue_store_self]
    refine (h c.id).keeps hcounts.1 (fun u hu => blockedAt_congr (hne u hu) _) ?_
    rw [blockedAt_self hwait (inserts_of_wait hv)]
    exact hcounts.2

theorem Balances.acquired (h : s.Balances) (hc : s.Counted t c) (hw : s.waiting t = none) (hacq : Acquired s t c r s') :
    s'.Balances := by
  have hcounts := verdict_counts (s.txns t).state (h c.id) hw hc.1 hc.2
  have hstored (q : LockRequestQueue) (hk : Keeps t (s.table.queue c.id) q)
      (hown : Own (V := V) c.id t none (requestsOf t q.requests)) : Balanced s.waiting c.id q :=
    (h c.id).keeps hk (fun _ _ => rfl) (by rwa [blockedAt_of_none hw])
  cases hacq with
  | refuse => exact h
  | returnFalse => exact h
  | held hv => exact h
  | upgrade q hv =>
    rw [hv] at hcounts
    refine h.store c.id (fun _ => queue_store_ne s c q) (fun _ _ _ => rfl) ?_
    rw [tell_table, queue_store_self]
    exact hstored q hcounts.1 hcounts.2
  | grant q hv =>
    rw [hv] at hcounts
    refine h.store c.id (fun _ => queue_store_ne s c q) (fun _ _ _ => rfl) ?_
    rw [tell_table, addLock_table, queue_store_self]
    exact hstored q hcounts.1 hcounts.2
  | pass q hv hready =>
    have hnow := (h.block hc hw hv).grantNow (t := t) (setWaiting_waiting_self _ t _) (inserts_of_wait hv)
    rwa [setWaiting_undo (s := s.store c q) hw] at hnow
  | block q hv _ => exact h.block hc hw hv
  | blockOn id hv =>
    refine h.inserts (blockedAt_of_none hw) _ fun w' hw' => ?_
    cases hw'
    exact inserts_of_waitOn hv

/-- The condition on a step, in the state before it: no call is made that loses
count, unless `check_lock` stops it. The ids are of the type `txn_id_t`. -/
def CountedStep (s : LockManager Ix V) : Step Ix V → Prop
  | .call t c =>
    t ≤ int32Max ∧ (c.miscounts s.table t → c.checksLock ∧ (s.txns t).state ≠ .default ∧ (s.txns t).state ≠ .growing)
  | .wake t => t ≤ int32Max
  | _ => True

instance decidableCountedStep (s : LockManager Ix V) : (a : Step Ix V) → Decidable (s.CountedStep a)
  | .call .. => instDecidableAnd
  | .wake t => Nat.decLe t int32Max
  | .unlock .. => instDecidableTrue
  | .finish .. => instDecidableTrue
  | .rehash _ => instDecidableTrue

theorem Balances.stepped {a : Step Ix V} (h : s.Balances) (hc : s.CountedStep a) (hstep : Stepped s a r s') :
    s'.Balances := by
  cases hstep with
  | refused => exact h
  | call t c st r s' hw hst hacq =>
    refine Balances.acquired (s := s.setState t st) h ⟨hc.1, fun hmis => ?_⟩ hw hacq
    obtain ⟨hchecks, hdefault, hgrowing⟩ := hc.2 hmis
    rcases hst with ⟨_, hno⟩ | hok
    · simp [hchecks] at hno
    · cases hstate : (s.txns t).state <;> simp_all [checkLock]
  | wake t w hw hcall _ => exact h.grantNow hw hcall
  | wakeInsert t w r s' hw hcall hacq =>
    have hstop := h.inserts (blockedAt_inserts hw hcall) none nofun
    refine hstop.acquired ⟨hc, fun hmis => ?_⟩ (setWaiting_waiting_self s t none) hacq
    cases hcase : w.call <;> simp_all [Call.inserts, Call.miscounts]
  | unlockEnded => exact h
  | unlock t id st hw => exact Balances.removeRequests (s := s.setState t st) h hw id
  | finish => exact h
  | rehash T hperm =>
    intro id
    change Balanced s.waiting id (T.queue id)
    rw [LockTable.queue_of_perm hperm]
    exact h id

end LockManager

open LockManager in
/-- In every state of a run of such steps the counters of every queue are exact. -/
theorem run_exact [DecidableEq Ix] [GapData Ix V] [Index.IxCmp V] [DecidableEq V] (steps : List (Step Ix V))
    {h : List (Step Ix V × Reply)} {s : LockManager Ix V} (hsteps : Run.Along LockManager.step CountedStep {} steps)
    (hrun : Run.run LockManager.step {} steps = some (h, s)) : s.Exact := by
  have hbalances : s.Balances := by
    refine Run.runFrom_invariant (R := fun _ s => Balances s) ?_ balances_init hsteps hrun
    intro _ s a r s' hs ha hstep
    exact hs.stepped ha (stepped hstep)
  exact fun id => (hbalances id).exact

/-- An intention shared lock is raised in place; then a reader waits for a writer. -/
theorem run_exact_upgrades : ∃ (h : List (Step Unit Int × Reply)) (s : LockManager Unit Int),
    Run.run LockManager.step {} [.call 3 (.isOnTable 1), .call 3 (.ixOnTable 1), .unlock 3 (.table 1),
      .call 4 (.exclusiveOnTable 1), .call 2 (.sharedOnTable 1), .unlock 4 (.table 1), .wake 2] = some (h, s) ∧
        s.Exact := by
  have hsteps : Run.Along LockManager.step LockManager.CountedStep ({} : LockManager Unit Int) [.call 3 (.isOnTable 1),
      .call 3 (.ixOnTable 1), .unlock 3 (.table 1), .call 4 (.exclusiveOnTable 1), .call 2 (.sharedOnTable 1),
      .unlock 4 (.table 1), .wake 2] := by decide +kernel
  exact ⟨_, _, rfl, run_exact _ hsteps rfl⟩

/-- A reader of a table that becomes its writer is counted as a reader still. -/
theorem upgrade_leaves_shared : ∃ (h : List (Step Unit Int × Reply)) (s : LockManager Unit Int),
    Run.run LockManager.step {} [.call 1 (.sharedOnTable 0), .call 1 (.exclusiveOnTable 0)] = some (h, s) ∧
      h.map Prod.snd = [.ret true, .ret true] ∧ (s.table.queue (.table 0)).sharedNum = 1 ∧
      (s.table.queue (.table 0)).requests = [⟨1, .exclusive, true⟩] ∧ ¬s.Exact := by
  refine ⟨_, _, rfl, rfl, rfl, rfl, fun hexact => ?_⟩
  have hshared := (hexact (.table 0)).shared
  revert hshared
  decide

end Rmdb.Lock
