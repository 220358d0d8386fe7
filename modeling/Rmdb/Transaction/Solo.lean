/-
A transaction that is alone at a table or record.

No call of it waits: where a wait is entered, its predicate holds at once. The
mode of its first request says what it has, unless `lock_IX_on_table` has put
further ones behind it.
-/
import Rmdb.Transaction.GapLocks

namespace Rmdb.Lock

open List

namespace LockRequestQueue

def Pure (q : LockRequestQueue) : Prop := ∀ r ∈ q.requests, r.mode = .shared ∨ r.mode = .exclusive

def Excl (q : LockRequestQueue) : Prop :=
  ∀ r ∈ q.requests, ∀ r' ∈ q.requests, r.granted → r'.granted → r.txn ≠ r'.txn → r.mode = .shared

def Alone (q : LockRequestQueue) (t : TxnId) : Prop := ∀ r ∈ q.requests, r.txn = t

end LockRequestQueue

variable {Ix V : Type} [GapData Ix V]

/-- The requests of one transaction that is alone: behind the first one come
only the requests that `lock_IX_on_table` adds. -/
structure Solo (wt : TxnId → Option (Wait Ix V)) (id : LockDataId Ix) (q : LockRequestQueue) (r : LockRequest)
    (rest : List LockRequest) : Prop where
  requests : q.requests = r :: rest
  others : ∀ r' ∈ rest, r'.txn = r.txn ∧ r'.mode = .intentionExclusive
  granted : rest = [] → r.granted
  table : rest ≠ [] → ∃ fd, id = .table fd
  exclusive : r.mode = .exclusive → q.group = .x
  group : q.group ≠ .nonLock
  oldest : q.oldest ≤ r.txn
  /-- Nobody waits there. -/
  free : ∀ u w, wt u = some w → w.call.inserts = false → w.call.id ≠ id

section

variable {wt : TxnId → Option (Wait Ix V)} {id : LockDataId Ix} {q : LockRequestQueue} {r : LockRequest} {rest : List LockRequest}

theorem Solo.alone (h : Solo wt id q r rest) : q.Alone r.txn := by
  intro r' hr'
  rw [h.requests] at hr'
  rcases mem_cons.1 hr' with rfl | hr'
  · rfl
  · exact (h.others r' hr').1

theorem Solo.plain (h : Solo wt id q r rest) (hpure : q.Pure) : Plain wt id q ∧ q.Excl := by
  have hrest : rest = [] := by
    by_contra hne
    obtain ⟨r', hr'⟩ := exists_mem_of_ne_nil rest hne
    have := hpure r' (by simp [h.requests, hr'])
    simp [(h.others r' hr').2] at this
  subst hrest
  have hmem {r' : LockRequest} (hr' : r' ∈ q.requests) : r' = r := by simpa [h.requests] using hr'
  constructor
  · constructor
    · exact hpure
    · simp [LockRequestQueue.txns, h.requests]
    · intro r' hr' hng
      simp [hmem hr', h.granted rfl] at hng
    · intro u w hw hcall hid
      exact absurd hid (h.free u w hw hcall)
    · exact fun _ _ _ => h.group
    · exact fun r' hr' _ hx => h.exclusive (hmem hr' ▸ hx)
    · exact fun r' hr' => hmem hr' ▸ h.oldest
  · intro r₁ hr₁ r₂ hr₂ _ _ hne
    exact absurd (congrArg LockRequest.txn ((hmem hr₁).trans (hmem hr₂).symm)) hne

theorem Plain.solo (h : Plain wt id q) (halone : q.Alone t) (hw : wt t = none) :
    (q.requests = [] ∧ ∀ u w, wt u = some w → w.call.inserts = false → w.call.id ≠ id) ∨ ∃ r, Solo wt id q r [] := by
  have hfree : ∀ u w, wt u = some w → w.call.inserts = false → w.call.id ≠ id := by
    intro u w hwu hcall hid
    have hut : u = t := halone _ (h.waiter u w hwu hcall hid)
    simp [hut, hw] at hwu
  rcases hreq : q.requests with _ | ⟨r, rest⟩
  · exact .inl ⟨rfl, hfree⟩
  · have hr : r ∈ q.requests := by simp [hreq]
    have hrest : rest = [] := by
      by_contra hne
      obtain ⟨r', hr'⟩ := exists_mem_of_ne_nil rest hne
      have hnodup := h.nodup
      rw [LockRequestQueue.txns, hreq, map_cons, nodup_cons] at hnodup
      refine hnodup.1 (mem_map.2 ⟨r', hr', ?_⟩)
      rw [halone r hr, halone r' (by simp [hreq, hr'])]
    subst hrest
    have hg : r.granted := h.granted_of_own hr (halone r hr ▸ hw)
    exact .inr ⟨r, hreq, by simp, fun _ => hg, by simp, h.exclusive r hr hg, h.held r hr hg, h.oldest r hr, hfree⟩

/-! ## Calls of a transaction that is alone -/

/-- The transaction is alone in `q'` too, and the modes it was told of are
covered: it has the mode it asked for and nothing before, or `EXCLUSIVE`, or
a mode that no other transaction gets past. -/
def SoloAfter (wt : TxnId → Option (Wait Ix V)) (id : LockDataId Ix) (t : TxnId) (m : LockMode) (q q' : LockRequestQueue) : Prop :=
  ∃ r rest, Solo wt id q' r rest ∧ r.txn = t ∧ (r.mode = .exclusive ∨ (q.requests = [] ∧ r.mode = m) ∨ ¬q'.Pure)

variable {t : TxnId} {m : LockMode} {q' : LockRequestQueue}

theorem SoloAfter.fresh (hq : q.requests = []) (hfree : ∀ u w, wt u = some w → w.call.inserts = false → w.call.id ≠ id)
    (hq' : q'.requests = [⟨t, m, true⟩]) (hne : q'.group ≠ .nonLock) (hx : m = .exclusive → q'.group = .x)
    (holdest : q'.oldest ≤ t) : SoloAfter wt id t m q q' :=
  ⟨⟨t, m, true⟩, [], ⟨hq', by simp, fun _ => rfl, by simp, hx, hne, holdest, hfree⟩, rfl, .inr (.inl ⟨hq, rfl⟩)⟩

theorem SoloAfter.head (h : Solo wt id q r rest) (r' : LockRequest) (rest' : List LockRequest) (hq' : q'.requests = r' :: rest')
    (htxn : r'.txn = r.txn) (hrest : ∀ r₁ ∈ rest', r₁.txn = r.txn ∧ r₁.mode = .intentionExclusive)
    (hgranted : rest' = [] → r'.granted) (htable : rest' ≠ [] → ∃ fd, id = .table fd)
    (hx : r'.mode = .exclusive → q'.group = .x) (hne : q'.group ≠ .nonLock) (holdest : q'.oldest ≤ r.txn)
    (hm : r'.mode = .exclusive ∨ ¬q'.Pure) : SoloAfter wt id r.txn m q q' :=
  ⟨r', rest', ⟨hq', htxn ▸ hrest, hgranted, htable, hx, hne, htxn ▸ holdest, h.free⟩, htxn, hm.imp_right .inr⟩

/-- What the verdict of a call does for a transaction that is alone. A wait is over at once. -/
def Verdict.Solos (wt : TxnId → Option (Wait Ix V)) (c : Call Ix V) (t : TxnId) (q : LockRequestQueue) : Verdict Ix → Prop
  | .upgrade q' => SoloAfter wt c.id t c.mode q q'
  | .grant q' => SoloAfter wt c.id t c.mode q q'
  | .wait q' => q'.Alone t ∧ SoloAfter wt c.id t c.mode q (granted t c q')
  | _ => True

variable {c : Call Ix V} {fd : Nat}

theorem solos_addGranted (hq : q.requests = [])
    (hfree : ∀ u w, wt u = some w → w.call.inserts = false → w.call.id ≠ c.id) {g : GroupLockMode} (hne : g ≠ .nonLock)
    (hx : c.mode = .exclusive → g = .x) (n k : Int) :
    (Verdict.grant { q.addGranted t c.mode with group := g, sharedNum := n, ixNum := k } : Verdict Ix).Solos wt c t q := by
  refine SoloAfter.fresh hq hfree (by simp [LockRequestQueue.addGranted, hq]) hne hx ?_
  simp only [LockRequestQueue.addGranted]
  split_ifs with h
  · exact le_rfl
  · exact not_lt.1 h

omit [GapData Ix V] in
theorem granted_singleton (t : TxnId) (c : Call Ix V) (hcall : c.inserts = false) (hq : q.requests = [⟨t, m, false⟩]) :
    (granted t c q).requests = [⟨t, m, true⟩] ∧ (granted t c q).oldest = q.oldest := by
  have hfirst : updateFirst t LockRequest.grant [⟨t, m, false⟩] = [⟨t, m, true⟩] := by simp [updateFirst, LockRequest.grant]
  have hlast : updateLast t LockRequest.grant [⟨t, m, false⟩] = [⟨t, m, true⟩] := by
    simp [updateLast, updateFirst, LockRequest.grant]
  cases c with
  | safeInGap => cases hcall
  | _ => simp only [granted, hq, hfirst, hlast, and_self]

theorem solos_addWaiting (hcall : c.inserts = false) (hq : q.requests = [])
    (hfree : ∀ u w, wt u = some w → w.call.inserts = false → w.call.id ≠ c.id) :
    (Verdict.wait (q.addWaiting t c.mode) : Verdict Ix).Solos wt c t q := by
  have hreq : (q.addWaiting t c.mode).requests = [⟨t, c.mode, false⟩] := by simp [LockRequestQueue.addWaiting, hq]
  obtain ⟨hrequests, holdest⟩ := granted_singleton t c hcall hreq
  obtain ⟨hne, hx⟩ := granted_group (t := t) hcall (q.addWaiting t c.mode)
  refine ⟨?_, .fresh hq hfree hrequests hne hx (holdest ▸ le_rfl)⟩
  intro r hr
  rw [hreq, mem_singleton] at hr
  rw [hr]

theorem Solo.own (h : Solo wt id q r rest) : q.own r.txn = some r := by
  simp [LockRequestQueue.own, h.requests]

theorem Solo.updateFirst (h : Solo wt id q r rest) (f : LockRequest → LockRequest) :
    updateFirst r.txn f q.requests = f r :: rest := by
  simp [Lock.updateFirst, h.requests]

theorem not_pure_of_head {r' : LockRequest} {rest' : List LockRequest} (hq : q.requests = r' :: rest')
    (hm : r'.mode ≠ .shared ∧ r'.mode ≠ .exclusive) : ¬q.Pure := by
  intro hpure
  rcases hpure r' (by simp [hq]) with h | h
  · exact hm.1 h
  · exact hm.2 h

theorem Solo.raise (h : Solo wt id q r rest) (m' : LockMode) (n k : Int)
    (hm : m' = .exclusive ∨ m' = .sIX ∨ m' = .intentionExclusive) :
    SoloAfter wt id r.txn m q
      { q with
        requests := Lock.updateFirst r.txn (fun r => { r with mode := m' }) q.requests
        sharedNum := n
        ixNum := k
        group := m'.group } := by
  refine .head h _ _ (h.updateFirst _) rfl h.others h.granted h.table ?_ ?_ h.oldest ?_
  · intro hx
    change m'.group = .x
    rw [show m' = .exclusive from hx]
    rfl
  · rcases hm with rfl | rfl | rfl <;> simp [LockMode.group]
  · rcases hm with rfl | rfl | rfl
    · exact .inl rfl
    · exact .inr (not_pure_of_head (h.updateFirst _) (by simp))
    · exact .inr (not_pure_of_head (h.updateFirst _) (by simp))

/-- `lock_IX_on_table` puts one more request behind the others. -/
theorem Solo.ixWait (h : Solo wt (.table fd) q r rest) (hmode : r.mode ≠ .exclusive) :
    (Verdict.wait (q.addWaiting r.txn .intentionExclusive) : Verdict Ix).Solos wt (.ixOnTable fd) r.txn q := by
  have hreq : (q.addWaiting r.txn .intentionExclusive).requests = r :: (rest ++ [⟨r.txn, .intentionExclusive, false⟩]) := by
    simp [LockRequestQueue.addWaiting, h.requests]
  refine ⟨?_, ?_⟩
  · intro r' hr'
    rw [hreq, mem_cons, mem_append, mem_singleton] at hr'
    rcases hr' with rfl | hr' | rfl
    · rfl
    · exact (h.others r' hr').1
    · rfl
  · have hgranted : (Lock.granted r.txn (Call.ixOnTable fd : Call Ix V) (q.addWaiting r.txn .intentionExclusive)).requests =
        r.grant :: (rest ++ [⟨r.txn, .intentionExclusive, false⟩]) := by
      simp [Lock.granted, hreq, Lock.updateFirst]
    refine .head h _ _ hgranted rfl ?_ (by simp) (fun _ => ⟨fd, rfl⟩) (fun hx => absurd hx hmode)
      (granted_group (c := (Call.ixOnTable fd : Call Ix V)) rfl _).1 le_rfl (.inr ?_)
    · intro r' hr'
      rcases mem_append.1 hr' with hr' | hr'
      · exact h.others r' hr'
      · rw [mem_singleton.1 hr']
        exact ⟨rfl, rfl⟩
    · intro hpure
      have hlast := hpure ⟨r.txn, .intentionExclusive, false⟩ (by simp [hgranted])
      simp at hlast

theorem updateLast_cons (f : LockRequest → LockRequest) (r' : LockRequest) (hne : rest ≠ [])
    (hrest : ∀ r₁ ∈ rest, r₁.txn = t) :
    ∃ rest', updateLast t f (r' :: rest) = r' :: rest' ∧ rest' ≠ [] ∧ ∀ r₁ ∈ rest', r₁ ∈ rest ∨ ∃ r₀ ∈ rest, r₁ = f r₀ := by
  obtain ⟨init, last, rfl⟩ := (eq_nil_or_concat rest).resolve_left hne
  rw [concat_eq_append] at hrest ⊢
  refine ⟨init ++ [f last], by simp [updateLast, Lock.updateFirst, hrest last (by simp)], by simp, fun r₁ hr₁ => ?_⟩
  rcases mem_append.1 hr₁ with hr₁ | hr₁
  · exact .inl (by simp [hr₁])
  · exact .inr ⟨last, by simp, mem_singleton.1 hr₁⟩

/-- An upgrade to an exclusive table lock gives up the lock for the time of the wait. -/
theorem Solo.exclusiveWait (h : Solo wt (.table fd) q r rest) : (Verdict.wait
      { q with
        requests := Lock.updateFirst r.txn (fun r => { r with granted := false, mode := .exclusive }) q.requests
        oldest := r.txn } : Verdict Ix).Solos wt (.exclusiveOnTable fd) r.txn q := by
  have hreq := h.updateFirst fun r => { r with granted := false, mode := .exclusive }
  refine ⟨?_, ?_⟩
  · intro r' hr'
    rw [hreq] at hr'
    rcases mem_cons.1 hr' with rfl | hr'
    · rfl
    · exact (h.others r' hr').1
  · rcases eq_or_ne rest [] with rfl | hne
    · refine .head h ⟨r.txn, .exclusive, true⟩ [] ?_ rfl (by simp) (fun _ => rfl) (by simp) (fun _ => rfl)
        (by simp [Lock.granted]) le_rfl (.inl rfl)
      simp [Lock.granted, hreq, updateLast, Lock.updateFirst, LockRequest.grant]
    · obtain ⟨rest', hlast, hne', hmem⟩ := updateLast_cons (t := r.txn) LockRequest.grant ⟨r.txn, .exclusive, false⟩ hne
        fun r₁ hr₁ => (h.others r₁ hr₁).1
      refine .head h ⟨r.txn, .exclusive, false⟩ rest' ?_ rfl ?_ (fun hnil => absurd hnil hne')
        (fun _ => ⟨fd, rfl⟩) (fun _ => rfl) (by simp [Lock.granted]) le_rfl (.inl rfl)
      · simp only [Lock.granted, hreq]
        exact hlast
      · intro r₁ hr₁
        rcases hmem r₁ hr₁ with hr₁ | ⟨r₀, hr₀, rfl⟩
        · exact h.others r₁ hr₁
        · exact h.others r₀ hr₀

def SoloQueue (wt : TxnId → Option (Wait Ix V)) (id : LockDataId Ix) (q : LockRequestQueue) (t : TxnId) : Prop :=
  (q.requests = [] ∧ ∀ u w, wt u = some w → w.call.inserts = false → w.call.id ≠ id) ∨
    ∃ r rest, Solo wt id q r rest ∧ r.txn = t

theorem own_of_requests_nil (h : q.requests = []) : q.own t = none := by simp [LockRequestQueue.own, h]

theorem SoloQueue.own_none (h : SoloQueue wt id q t) (hown : q.own t = none) :
    q.requests = [] ∧ ∀ u w, wt u = some w → w.call.inserts = false → w.call.id ≠ id := by
  rcases h with h | ⟨r, rest, h, rfl⟩
  · exact h
  · rw [h.own] at hown
    cases hown

theorem SoloQueue.own_some (h : SoloQueue wt id q t) (hown : q.own t = some r) :
    r.txn = t ∧ ∃ rest, Solo wt id q r rest := by
  rcases h with ⟨hnil, _⟩ | ⟨r', rest, h, rfl⟩
  · rw [own_of_requests_nil hnil] at hown
    cases hown
  · rw [h.own] at hown
    cases hown
    exact ⟨rfl, rest, h⟩

end

variable [DecidableEq Ix] [Index.IxCmp V]

section

variable {T : LockTable Ix V} {wt : TxnId → Option (Wait Ix V)} {t : TxnId} {c : Call Ix V}

theorem verdict_solos (st : TransactionState) (hgap : c.id.isGap = false) (h : SoloQueue wt c.id (T.queue c.id) t) :
    (verdict T st t c).Solos wt c t (T.queue c.id) := by
  have hans := verdict_answer T st t c
  generalize verdict T st t c = v at hans ⊢
  cases hans with
  | quiet v hv => rcases hv with rfl | rfl | rfl <;> trivial
  | waitOn id => trivial
  | held => trivial
  | grant g n k _ hown hgroup =>
    obtain ⟨hnil, hfree⟩ := h.own_none hown
    exact solos_addGranted hnil hfree hgroup.1 (fun hx => (hgroup.2.2 hx).2) n k
  | insert fd ix key hcall =>
    subst hcall
    cases hgap
  | raise r m n k hown hraise =>
    obtain ⟨rfl, rest, h⟩ := h.own_some hown
    refine h.raise m n k ?_
    cases c with
    | exclusiveOnRecord => exact .inl hraise.1.1
    | exclusiveOnTable => exact .inl hraise.1.1
    | ixOnTable => exact .inr (hraise.2.imp And.left And.left)
    | exclusiveOnGap => cases hgap
    | _ => exact hraise.elim
  | wait hcall hown =>
    obtain ⟨hnil, hfree⟩ := h.own_none hown
    exact solos_addWaiting hcall hnil hfree
  | beside r hown hcall =>
    obtain ⟨rfl, rest, h⟩ := h.own_some hown
    cases c with
    | exclusiveOnRecord fd rid =>
      -- a record has no second request of the same transaction
      obtain ⟨fd', hfd⟩ := h.table fun hrest => hcall.2 (by rw [h.requests, hrest]; rfl)
      cases hfd
    | ixOnTable fd => exact h.ixWait (by rcases hcall with ⟨hm, _⟩ | ⟨hm, _⟩ <;> simp [hm])
    | _ => exact hcall.elim
  | lower r hown hcall =>
    obtain ⟨rfl, rest, h⟩ := h.own_some hown
    cases c with
    | exclusiveOnTable fd => exact h.exclusiveWait
    | exclusiveOnGap => cases hgap
    | _ => exact hcall.elim

theorem ready_alone (hgap : c.id.isGap = false) (h : (T.queue c.id).Alone t) : ready T t c := by
  have hbefore : (T.queue c.id).requests.takeWhile (fun r => r.txn ≠ t) = [] := by
    cases hreq : (T.queue c.id).requests with
    | nil => rfl
    | cons r rs => simp [h r (by simp [hreq])]
  have hexclusive : (T.queue c.id).noExclusive t := noExclusive_iff.2 fun r hr hne => absurd (h r hr) hne
  have hgranted : (T.queue c.id).noGranted t := noGranted_iff.2 fun r hr hne => absurd (h r hr) hne
  cases c with
  | sharedOnRecord fd rid => exact hexclusive
  | exclusiveOnRecord fd rid => simp only [ready, LockRequestQueue.noGrantedBefore, hbefore, all_nil]
  | sharedOnTable fd => exact hexclusive
  | exclusiveOnTable fd => exact hgranted
  | isOnTable fd => simp only [ready, LockRequestQueue.onlySharedBefore, hbefore, all_nil]
  | ixOnTable fd => simp only [ready, LockRequestQueue.noGrantedBefore, hbefore, all_nil]
  | _ => cases hgap

end

end Rmdb.Lock
