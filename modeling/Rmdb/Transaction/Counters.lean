/-
The counters of a queue.

`shared_lock_num_`, `IX_lock_num_` and `oldest_txn_id_` sum up the requests of
a queue, and each lock function keeps them by hand. A step touches the requests
of one transaction, so what it does to the counters is compared with what it
does to those: `Keeps`.
-/
import Rmdb.Transaction.LockQueue

namespace Rmdb.Lock

open List

/-! ## The requests of one transaction -/

def LockRequest.countsShared (r : LockRequest) : Bool := r.granted && (r.mode = .shared || r.mode = .sIX)

def LockRequest.countsIx (r : LockRequest) : Bool := r.granted && (r.mode = .intentionExclusive || r.mode = .sIX)

@[simp] theorem LockRequest.countsShared_waiting (t : TxnId) (m : LockMode) : countsShared ⟨t, m, false⟩ = false := rfl

@[simp] theorem LockRequest.countsIx_waiting (t : TxnId) (m : LockMode) : countsIx ⟨t, m, false⟩ = false := rfl

@[simp] theorem LockRequest.countsShared_exclusive (t : TxnId) (b : Bool) :
    countsShared ⟨t, .exclusive, b⟩ = false := by
  cases b <;> rfl

@[simp] theorem LockRequest.countsIx_exclusive (t : TxnId) (b : Bool) : countsIx ⟨t, .exclusive, b⟩ = false := by
  cases b <;> rfl

def requestsOf (t : TxnId) (rs : List LockRequest) : List LockRequest := rs.filter fun r => r.txn = t

def requestsButOf (t : TxnId) (rs : List LockRequest) : List LockRequest := rs.filter fun r => r.txn ≠ t

section

variable {t u : TxnId} {rs rs' : List LockRequest} {f : LockRequest → LockRequest}

theorem countP_split (p : LockRequest → Bool) (t : TxnId) (rs : List LockRequest) :
    rs.countP p = (requestsOf t rs).countP p + (requestsButOf t rs).countP p := by
  rw [requestsOf, requestsButOf, countP_filter, countP_filter]
  induction rs with
  | nil => rfl
  | cons r rs ih =>
    rw [countP_cons, countP_cons, countP_cons, ih]
    by_cases hp : p r <;> by_cases ht : r.txn = t <;> simp [hp, ht] <;> omega

theorem requestsOf_of_butOf (h : requestsButOf t rs' = requestsButOf t rs) (hu : u ≠ t) :
    requestsOf u rs' = requestsOf u rs := by
  have hfilter (l : List LockRequest) : requestsOf u l = requestsOf u (requestsButOf t l) := by
    rw [requestsOf, requestsOf, requestsButOf, filter_filter]
    refine filter_congr fun r _ => ?_
    by_cases hr : r.txn = u <;> simp [hr, hu]
  rw [hfilter rs', hfilter rs, h]

theorem requestsOf_append (m : LockMode) (b : Bool) : requestsOf t (rs ++ [⟨t, m, b⟩]) = requestsOf t rs ++
    [⟨t, m, b⟩] := by
  simp [requestsOf]

theorem requestsButOf_append (m : LockMode) (b : Bool) : requestsButOf t (rs ++ [⟨t, m, b⟩]) = requestsButOf t rs := by
  simp [requestsButOf]

theorem requestsButOf_updateFirst (hf : ∀ r, (f r).txn = r.txn) :
    requestsButOf t (updateFirst t f rs) = requestsButOf t rs := by
  induction rs with
  | nil => rfl
  | cons r rs ih =>
    rw [updateFirst]
    split_ifs with hr
    · simp [requestsButOf, hf, hr]
    · simpa [requestsButOf, hr] using ih

theorem requestsOf_updateFirst (hf : ∀ r, (f r).txn = r.txn) {r : LockRequest} {l : List LockRequest}
    (h : requestsOf t rs = r :: l) : requestsOf t (updateFirst t f rs) = f r :: l := by
  induction rs with
  | nil => simp [requestsOf] at h
  | cons r' rs ih =>
    rw [updateFirst]
    split_ifs with hr
    · simp only [requestsOf, filter_cons, hr, decide_true, if_true, List.cons.injEq] at h
      simp [requestsOf, hf, hr, ← h.1, ← h.2]
    · simp only [requestsOf, filter_cons, hr, decide_false] at h ⊢
      exact ih h

theorem requestsOf_reverse : requestsOf t rs.reverse = (requestsOf t rs).reverse := filter_reverse

theorem requestsButOf_reverse : requestsButOf t rs.reverse = (requestsButOf t rs).reverse := filter_reverse

theorem requestsButOf_updateLast (hf : ∀ r, (f r).txn = r.txn) :
    requestsButOf t (updateLast t f rs) = requestsButOf t rs := by
  rw [updateLast, requestsButOf_reverse, requestsButOf_updateFirst hf, requestsButOf_reverse, reverse_reverse]

theorem requestsOf_updateLast (hf : ∀ r, (f r).txn = r.txn) {r : LockRequest} (h : requestsOf t rs = [r]) :
    requestsOf t (updateLast t f rs) = [f r] := by
  have hreverse : requestsOf t rs.reverse = [r] := by rw [requestsOf_reverse, h, reverse_singleton]
  rw [updateLast, requestsOf_reverse, requestsOf_updateFirst hf hreverse, reverse_singleton]

theorem LockRequestQueue.own_eq_head (q : LockRequestQueue) (t : TxnId) :
    q.own t = (requestsOf t q.requests).head? := by
  rw [own, requestsOf, List.head?_filter]

theorem LockRequestQueue.requestsOf_of_own_none {q : LockRequestQueue} (h : q.own t = none) :
    requestsOf t q.requests = [] := by rwa [own_eq_head, List.head?_eq_none_iff] at h

theorem LockRequestQueue.requestsOf_of_own {q : LockRequestQueue} {r : LockRequest} (h : q.own t = some r) :
    ∃ l, requestsOf t q.requests = r :: l := by
  rw [own_eq_head] at h
  exact List.head?_eq_some_iff.1 h

end

/-! ## The counters -/

structure LockRequestQueue.Exact (q : LockRequestQueue) : Prop where
  shared : q.sharedNum = q.requests.countP LockRequest.countsShared
  ix : q.ixNum = q.requests.countP LockRequest.countsIx
  least : ∀ r ∈ q.requests, q.oldest ≤ r.txn
  attained : q.requests ≠ [] → ∃ r ∈ q.requests, r.txn = q.oldest

instance (q : LockRequestQueue) : Decidable q.Exact :=
  decidable_of_iff
    (q.sharedNum = q.requests.countP LockRequest.countsShared ∧ q.ixNum = q.requests.countP LockRequest.countsIx ∧
      (∀ r ∈ q.requests, q.oldest ≤ r.txn) ∧ (q.requests ≠ [] → ∃ r ∈ q.requests, r.txn = q.oldest))
    ⟨fun ⟨h₁, h₂, h₃, h₄⟩ => ⟨h₁, h₂, h₃, h₄⟩, fun h => ⟨h.shared, h.ix, h.least, h.attained⟩⟩

/-- What `unlock` takes for `oldest_txn_id_`. -/
def oldestOf (rs : List LockRequest) : TxnId := rs.foldl (fun o r => if r.txn < o then r.txn else o) int32Max

theorem foldl_oldest_mem (rs : List LockRequest) (o : TxnId) :
    rs.foldl (fun o r => if r.txn < o then r.txn else o) o = o ∨
      ∃ r ∈ rs, r.txn = rs.foldl (fun o r => if r.txn < o then r.txn else o) o := by
  induction rs generalizing o with
  | nil => exact .inl rfl
  | cons r rs ih =>
    rw [foldl_cons]
    rcases ih (if r.txn < o then r.txn else o) with h | ⟨r', hr', h⟩
    · rw [h]
      split_ifs
      · exact .inr ⟨r, by simp, rfl⟩
      · exact .inl rfl
    · exact .inr ⟨r', by simp [hr'], h⟩

/-- The least of the ids of the queue, which are of the type `txn_id_t`. -/
structure Aged (q : LockRequestQueue) : Prop where
  oldest : q.oldest = oldestOf q.requests
  range : ∀ t ∈ q.txns, t ≤ int32Max

section

variable {q q' : LockRequestQueue} {t : TxnId}

theorem Aged.least (h : Aged q) : ∀ r ∈ q.requests, q.oldest ≤ r.txn := by
  rw [h.oldest]
  exact (foldl_oldest_le q.requests int32Max).2

theorem Aged.attained (h : Aged q) (hne : q.requests ≠ []) : ∃ r ∈ q.requests, r.txn = q.oldest := by
  rw [h.oldest]
  rcases foldl_oldest_mem q.requests int32Max with hmax | hmem
  · -- `INT32_MAX` is itself an id
    obtain ⟨r, hr⟩ := exists_mem_of_ne_nil _ hne
    have hle := (foldl_oldest_le q.requests int32Max).2 r hr
    have hrange := h.range r.txn (mem_map_of_mem hr)
    rw [hmax] at hle
    exact ⟨r, hr, (le_antisymm hrange hle).trans hmax.symm⟩
  · exact hmem

theorem aged_empty : Aged {} := ⟨rfl, by simp⟩

theorem Aged.of_txns (h : Aged q) (htxns : q'.txns = q.txns) (hold : q'.oldest = q.oldest) : Aged q' := by
  refine ⟨?_, htxns ▸ h.range⟩
  have hfold (l : List LockRequest) :
      oldestOf l = (l.map LockRequest.txn).foldl (fun o u => if u < o then u else o) int32Max := by
    rw [oldestOf, foldl_map]
  have hmap : q'.requests.map LockRequest.txn = q.requests.map LockRequest.txn := htxns
  rw [hold, h.oldest, hfold, hfold, hmap]

theorem Aged.append (h : Aged q) (ht : t ≤ int32Max) {m : LockMode} {b : Bool}
    (hq' : q'.requests = q.requests ++ [⟨t, m, b⟩]) (hold : q'.oldest = if t < q.oldest then t else q.oldest) :
    Aged q' := by
  refine ⟨?_, fun u hu => ?_⟩
  · rw [hold, hq', h.oldest, oldestOf, oldestOf, foldl_append, foldl_cons, foldl_nil]
  · rw [LockRequestQueue.txns, hq', map_append, mem_append] at hu
    rcases hu with hu | hu
    · exact h.range u hu
    · rw [map_singleton, mem_singleton] at hu
      exact hu.trans_le ht

theorem Aged.addWaiting (h : Aged q) (ht : t ≤ int32Max) (hold : t ≤ q.oldest) (m : LockMode) :
    Aged (q.addWaiting t m) := by
  refine h.append ht (m := m) (b := false) rfl ?_
  change t = _
  split_ifs with hlt
  · rfl
  · exact le_antisymm hold (not_lt.1 hlt)

theorem Aged.release (h : Aged q) (t : TxnId) : Aged (q.release t) := by
  refine ⟨rfl, fun u hu => h.range u ?_⟩
  rw [LockRequestQueue.txns_release] at hu
  exact mem_of_mem_filter hu

/-- A transaction that is in the queue and passes the age test is the oldest. -/
theorem Aged.eq_oldest (h : Aged q) {r : LockRequest} (hown : q.own t = some r) (hold : t ≤ q.oldest) :
    q.oldest = t := by
  obtain ⟨hr, hrt⟩ := LockRequestQueue.mem_of_own hown
  exact le_antisymm (hrt ▸ h.least r hr) hold

end

/-! ## A change of the requests of one transaction -/

/-- How far a counter is ahead of the requests of `t`. -/
def surplus (p : LockRequest → Bool) (t : TxnId) (n : Int) (rs : List LockRequest) : Int :=
    n - (requestsOf t rs).countP p

/-- Every request is granted, the exclusive ones apart. -/
def Settled (l : List LockRequest) : Prop := ∀ r ∈ l, r.granted ∨ r.mode = .exclusive

section

variable {p : LockRequest → Bool} {t : TxnId} {n n' : Int} {rs : List LockRequest} {r : LockRequest}

theorem surplus_append {m : LockMode} {b : Bool} (h : n' = n + if p ⟨t, m, b⟩ then 1 else 0) :
    surplus p t n' (rs ++ [⟨t, m, b⟩]) = surplus p t n rs := by
  rw [surplus, surplus, requestsOf_append, countP_append, countP_singleton, h]
  split_ifs <;> simp

theorem surplus_head {rs' l : List LockRequest} {r' : LockRequest} (hl : requestsOf t rs = r :: l)
    (hl' : requestsOf t rs' = r' :: l) (h : n' + (if p r then 1 else 0) = n + if p r' then 1 else 0) :
    surplus p t n' rs' = surplus p t n rs := by
  rw [surplus, surplus, hl', hl, countP_cons, countP_cons]
  push_cast
  omega

theorem surplus_release (modes : LockMode → Bool) (hmodes : modes .exclusive = false)
    (hp : ∀ r, p r = (r.granted && modes r.mode)) (hl : Settled (requestsOf t rs)) :
    surplus p t (n - (rs.filter fun r => r.txn = t && modes r.mode).length)
      (requestsButOf t rs) = surplus p t n rs := by
  have hnone : requestsOf t (requestsButOf t rs) = [] := by
    rw [requestsOf, requestsButOf, filter_filter]
    simp
  have hcount : (rs.filter fun r => r.txn = t && modes r.mode).length = (requestsOf t rs).countP p := by
    rw [← countP_eq_length_filter, requestsOf, countP_filter]
    refine countP_congr fun r hr => ?_
    by_cases ht : r.txn = t
    · rcases hl r (mem_filter.2 ⟨hr, by simpa using ht⟩) with hg | hx
      · simp [hp, hg, ht]
      · simp [hp, hx, hmodes]
    · simp [ht]
  rw [surplus, surplus, hnone, hcount, countP_nil]
  simp

end

/-- The counters move by what the requests of `t` gain. -/
structure Keeps (t : TxnId) (q q' : LockRequestQueue) : Prop where
  others : requestsButOf t q'.requests = requestsButOf t q.requests
  shared : surplus LockRequest.countsShared t q'.sharedNum q'.requests =
    surplus LockRequest.countsShared t q.sharedNum q.requests
  ix : surplus LockRequest.countsIx t q'.ixNum q'.requests = surplus LockRequest.countsIx t q.ixNum q.requests
  aged : Aged q'

section

variable {q q' : LockRequestQueue} {t : TxnId}

theorem Keeps.append {m : LockMode} {b : Bool} (hq' : q'.requests = q.requests ++ [⟨t, m, b⟩])
    (hshared : q'.sharedNum = q.sharedNum + if LockRequest.countsShared ⟨t, m, b⟩ then 1 else 0)
    (hix : q'.ixNum = q.ixNum + if LockRequest.countsIx ⟨t, m, b⟩ then 1 else 0) (haged : Aged q') : Keeps t q q' where
  others := by rw [hq', requestsButOf_append]
  shared := by rw [hq', surplus_append hshared]
  ix := by rw [hq', surplus_append hix]
  aged := haged

theorem Keeps.addWaiting {m : LockMode} (haged : Aged (q.addWaiting t m)) : Keeps t q (q.addWaiting t m) :=
  .append (m := m) (b := false) rfl (by simp [LockRequestQueue.addWaiting])
    (by simp [LockRequestQueue.addWaiting]) haged

theorem Keeps.head {r r' : LockRequest} {l : List LockRequest}
    (hothers : requestsButOf t q'.requests = requestsButOf t q.requests) (hl : requestsOf t q.requests = r :: l)
    (hl' : requestsOf t q'.requests = r' :: l)
    (hshared : q'.sharedNum + (if r.countsShared then 1 else 0) = q.sharedNum + if r'.countsShared then 1 else 0)
    (hix : q'.ixNum + (if r.countsIx then 1 else 0) = q.ixNum + if r'.countsIx then 1 else 0)
    (haged : Aged q') : Keeps t q q' where
  others := hothers
  shared := surplus_head hl hl' hshared
  ix := surplus_head hl hl' hix
  aged := haged

theorem Keeps.release (h : Aged q) (hl : Settled (requestsOf t q.requests)) : Keeps t q (q.release t) where
  others := by
    change requestsButOf t (requestsButOf t q.requests) = _
    rw [requestsButOf, requestsButOf, filter_filter]
    simp
  shared := surplus_release (fun m => m = .shared || m = .sIX) rfl (fun _ => rfl) hl
  ix := surplus_release (fun m => m = .intentionExclusive || m = .sIX) rfl (fun _ => rfl) hl
  aged := h.release t

end

/-! ## The invariant of a queue -/

/-- Only in the queues of records a transaction may have more than one request. -/
def LockDataId.isRecord {Ix : Type} : LockDataId Ix → Bool
  | .record .. => true
  | _ => false

variable {Ix V : Type}

/-- The requests of a transaction that is blocked in the queue. Behind the wait
of `lock_exclusive_on_record` the first one is granted, which may be the shared
one that was there. -/
def Pending (t : TxnId) (l : List LockRequest) : Call Ix V → Prop
  | .exclusiveOnRecord .. => l ≠ [] ∧ Settled l
  | c => l = [⟨t, c.mode, false⟩]

structure Own (id : LockDataId Ix) (t : TxnId) (blocked : Option (Call Ix V)) (l : List LockRequest) : Prop where
  settled : blocked = none → Settled l
  pending : ∀ c, blocked = some c → Pending t l c
  single : id.isRecord = false → l.length ≤ 1

theorem own_singleton (t : TxnId) (m : LockMode) (b : Bool) (hb : b ∨ m = .exclusive) (id : LockDataId Ix) :
    Own (V := V) id t none [⟨t, m, b⟩] where
  settled _ r' hr' := by
    rw [mem_singleton] at hr'
    subst hr'
    exact hb
  pending := nofun
  single _ := le_rfl

theorem Own.head {id : LockDataId Ix} {t : TxnId} {r r' : LockRequest} {l : List LockRequest}
    (h : Own (V := V) id t none (r :: l))
    (hr' : r'.granted ∨ r'.mode = .exclusive) : Own (V := V) id t none (r' :: l) where
  settled _ r'' hr'' := by
    rcases mem_cons.1 hr'' with heq | hmem
    · exact heq ▸ hr'
    · exact h.settled rfl r'' (by simp [hmem])
  pending := nofun
  single hid := h.single hid

theorem Own.blocked_none {id : LockDataId Ix} {t : TxnId} {l : List LockRequest} {blocked : Option (Call Ix V)}
    (h : Own id t blocked l) (hl : l = []) :
    blocked = none := by
  subst hl
  cases hb : blocked with
  | none => rfl
  | some c =>
    have hpending := h.pending c hb
    cases c
    case exclusiveOnRecord => exact absurd rfl hpending.1
    all_goals cases hpending

section

variable [DecidableEq Ix] [GapData Ix V]

def blockedAt (wt : TxnId → Option (Wait Ix V)) (id : LockDataId Ix) (t : TxnId) : Option (Call Ix V) :=
  match wt t with
  | none => none
  | some w => if w.call.inserts = false ∧ w.call.id = id then some w.call else none

section

variable {wt wt' : TxnId → Option (Wait Ix V)} {t : TxnId}

theorem blockedAt_congr {u : TxnId} (h : wt' u = wt u) (id : LockDataId Ix) :
    blockedAt wt' id u = blockedAt wt id u := by
  rw [blockedAt, blockedAt, h]

theorem blockedAt_of_none (h : wt t = none) (id : LockDataId Ix) : blockedAt wt id t = none := by rw [blockedAt, h]

theorem blockedAt_self {w : Wait Ix V} (h : wt t = some w) (hcall : w.call.inserts = false) :
    blockedAt wt w.call.id t = some w.call := by simp [blockedAt, h, hcall]

theorem blockedAt_ne {w : Wait Ix V} (h : wt t = some w) {id : LockDataId Ix} (hid : id ≠ w.call.id) :
    blockedAt wt id t = none := by simp [blockedAt, h, hid.symm]

theorem blockedAt_inserts {w : Wait Ix V} (h : wt t = some w) (hcall : w.call.inserts) (id : LockDataId Ix) :
    blockedAt wt id t = none := by simp [blockedAt, h, hcall]

end

/-- The counters of the queue are exact, and stay so when a blocked call is granted. -/
structure Balanced (wt : TxnId → Option (Wait Ix V)) (id : LockDataId Ix) (q : LockRequestQueue) : Prop where
  shared : q.sharedNum = q.requests.countP LockRequest.countsShared
  ix : q.ixNum = q.requests.countP LockRequest.countsIx
  aged : Aged q
  own : ∀ t, Own id t (blockedAt wt id t) (requestsOf t q.requests)

variable {wt wt' : TxnId → Option (Wait Ix V)} {id : LockDataId Ix} {q q' : LockRequestQueue} {t : TxnId}

theorem Balanced.exact (h : Balanced wt id q) : q.Exact := ⟨h.shared, h.ix, h.aged.least, h.aged.attained⟩

theorem balanced_empty (h : ∀ t, blockedAt wt id t = none) : Balanced wt id {} where
  shared := rfl
  ix := rfl
  aged := aged_empty
  own t := ⟨fun _ r hr => by simp [requestsOf] at hr, by simp [h], fun _ => by simp [requestsOf]⟩

theorem Balanced.congr (h : Balanced wt id q) (hwt : ∀ u, blockedAt wt' id u = blockedAt wt id u) : Balanced wt' id q :=
  ⟨h.shared, h.ix, h.aged, fun u => (hwt u).symm ▸ h.own u⟩

theorem surplus_of_count {p : LockRequest → Bool} {n n' : Int} {rs rs' : List LockRequest}
    (hothers : requestsButOf t rs' = requestsButOf t rs) (h : surplus p t n' rs' = surplus p t n rs)
    (hn : n = rs.countP p) : n' = rs'.countP p := by
  rw [countP_split p t] at hn ⊢
  rw [surplus, surplus] at h
  rw [hothers]
  push_cast at hn ⊢
  omega

/-- The requests of `t` change, and whether it is blocked. -/
theorem Balanced.keeps (h : Balanced wt id q) (hk : Keeps t q q')
    (hwt : ∀ u, u ≠ t → blockedAt wt' id u = blockedAt wt id u)
    (hown : Own id t (blockedAt wt' id t) (requestsOf t q'.requests)) : Balanced wt' id q' where
  shared := surplus_of_count hk.others hk.shared h.shared
  ix := surplus_of_count hk.others hk.ix h.ix
  aged := hk.aged
  own u := by
    by_cases hu : u = t
    · subst hu
      exact hown
    · rw [hwt u hu, requestsOf_of_butOf hk.others hu]
      exact h.own u

end

end Rmdb.Lock
