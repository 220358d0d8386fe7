/-
What the steps of the lock manager leave alone.

A call changes one queue of the table, the transaction that makes it and
nothing else. Each of the nine calls either puts one request of its
transaction at the end of the queue or changes requests the transaction has
there: `Verdict.Adds`.
-/
import Rmdb.Lib.Run
import Rmdb.Transaction.LockManager

namespace Rmdb.Lock

open Function List

/-! ## Lists of requests -/

variable {t : TxnId}

variable {f : LockRequest → LockRequest}

@[simp] theorem map_txn_updateFirst (hf : ∀ r, (f r).txn = r.txn)
    (rs : List LockRequest) : (updateFirst t f rs).map LockRequest.txn = rs.map LockRequest.txn := by
  induction rs with
  | nil => rfl
  | cons r rs ih =>
    rw [updateFirst]
    split_ifs
    · simp [hf]
    · simp [ih]

@[simp] theorem map_txn_updateLast (hf : ∀ r, (f r).txn = r.txn)
    (rs : List LockRequest) : (updateLast t f rs).map LockRequest.txn = rs.map LockRequest.txn := by
  rw [updateLast, map_reverse, map_txn_updateFirst hf, map_reverse, reverse_reverse]

namespace LockRequestQueue

def txns (q : LockRequestQueue) : List TxnId := q.requests.map LockRequest.txn

variable {q : LockRequestQueue} {t : TxnId}

theorem mem_of_own {r : LockRequest} (h : q.own t = some r) :
    r ∈ q.requests ∧ r.txn = t := ⟨mem_of_find?_eq_some h, by simpa using List.find?_some h⟩

theorem mem_txns_of_own {r : LockRequest} (h : q.own t = some r) : t ∈ q.txns :=
  mem_map.2 ⟨r, mem_of_own h⟩

theorem own_eq_none : q.own t = none ↔ t ∉ q.txns := by
  simp [own, txns]

@[simp] theorem txns_empty : ({} : LockRequestQueue).txns = [] := rfl

@[simp] theorem txns_addWaiting (q : LockRequestQueue) (t : TxnId) (m : LockMode) : (q.addWaiting t m).txns = q.txns ++ [t] := by
  simp [txns, addWaiting]

@[simp] theorem txns_addGranted (q : LockRequestQueue) (t : TxnId) (m : LockMode) : (q.addGranted t m).txns = q.txns ++ [t] := by
  simp [txns, addGranted]

@[simp] theorem txns_granted {Ix V : Type} (t : TxnId) (c : Call Ix V) (q : LockRequestQueue) : (granted t c q).txns = q.txns := by
  have hf : ∀ r : LockRequest, r.grant.txn = r.txn := fun _ => rfl
  cases c <;> simp [granted, txns, map_txn_updateFirst hf, map_txn_updateLast hf]

theorem txns_release (q : LockRequestQueue) (t : TxnId) : (q.release t).txns = q.txns.filter (· ≠ t) := by
  simp only [release, txns, filter_map]
  rfl

end LockRequestQueue

variable {Ix V : Type}

/-! ## The table -/

section

variable [DecidableEq Ix]

namespace LockTable

variable {id : LockDataId Ix}

theorem queue_of_lookup {T : LockTable Ix V} {e : Entry V} (h : T.lookup id = some e) :
    T.queue id = e.queue := by simp [queue, h]

theorem queue_of_perm {T T' : LockTable Ix V} (h : T.entries.Perm T'.entries) (id : LockDataId Ix) :
    T.queue id = T'.queue id := by rw [queue, AList.perm_lookup h, ← queue]

theorem queue_of_none {T : LockTable Ix V} (h : T.lookup id = none) : T.queue id = {} := by
  simp [queue, h]

theorem lookup_store_self (T : LockTable Ix V) (id : LockDataId Ix) (g : Gap V) (q : LockRequestQueue) :
    (T.store id g q).lookup id = some ⟨((T.lookup id).map Entry.gap).getD g, q⟩ := by simp [store]

theorem lookup_store_ne (T : LockTable Ix V) {id' : LockDataId Ix} (h : id' ≠ id) (g : Gap V) (q : LockRequestQueue) :
    (T.store id g q).lookup id' = T.lookup id' := by simp [store, h]

@[simp] theorem queue_store_self (T : LockTable Ix V) (id : LockDataId Ix) (g : Gap V) (q : LockRequestQueue) :
    (T.store id g q).queue id = q := by simp [queue, lookup_store_self]

theorem queue_store_ne (T : LockTable Ix V) {id' : LockDataId Ix} (h : id' ≠ id) (g : Gap V) (q : LockRequestQueue) :
    (T.store id g q).queue id' = T.queue id' := by simp [queue, lookup_store_ne T h]

end LockTable

namespace LockManager

@[simp] theorem setState_self (s : LockManager Ix V) (t : TxnId) : s.setState t (s.txns t).state = s := by
  rw [setState, update_eq_self]

@[simp] theorem setWaiting_waiting_self (s : LockManager Ix V) (t : TxnId) (w : Option (Wait Ix V)) :
    (s.setWaiting t w).waiting t = w := by simp [setWaiting]

variable {t : TxnId} {s : LockManager Ix V} {id id' : LockDataId Ix}

theorem setWaiting_table (s : LockManager Ix V) (w : Option (Wait Ix V)) : (s.setWaiting t w).table = s.table := rfl

theorem addLock_table (s : LockManager Ix V) : (s.addLock t id).table = s.table := rfl

@[simp] theorem setWaiting_waiting_ne (s : LockManager Ix V) {u : TxnId} (h : u ≠ t) (w : Option (Wait Ix V)) :
    (s.setWaiting t w).waiting u = s.waiting u := by simp [setWaiting, h]

theorem setWaiting_undo (h : s.waiting t = none) (w : Option (Wait Ix V)) :
    (s.setWaiting t w).setWaiting t none = s := by
  have hupdate : update (update s.waiting t w) t none = s.waiting := by
    rw [update_idem, ← h, update_eq_self]
  rw [setWaiting, setWaiting, hupdate]

theorem setState_state (s : LockManager Ix V) (t u : TxnId) (st : TransactionState) :
    ((s.setState t st).txns u).state = if u = t then st else (s.txns u).state := by
  rw [setState]
  by_cases hu : u = t <;> simp [hu]

@[simp] theorem setState_lockSet (s : LockManager Ix V) (t u : TxnId) (st : TransactionState) :
    ((s.setState t st).txns u).lockSet = (s.txns u).lockSet := by
  rw [setState]
  by_cases hu : u = t <;> simp [hu]

@[simp] theorem addLock_state (s : LockManager Ix V) (t u : TxnId) (id : LockDataId Ix) :
    ((s.addLock t id).txns u).state = (s.txns u).state := by
  rw [addLock]
  by_cases hu : u = t <;> simp [hu]

theorem mem_addLock (s : LockManager Ix V) (t u : TxnId) (id id' : LockDataId Ix) :
    id' ∈ ((s.addLock t id).txns u).lockSet ↔ (u = t ∧ id' = id) ∨ id' ∈ (s.txns u).lockSet := by
  rw [addLock]
  by_cases hu : u = t <;> simp [hu]

@[simp] theorem removeRequests_txns (s : LockManager Ix V) (t : TxnId) (id : LockDataId Ix) :
    (s.removeRequests t id).txns = s.txns := by
  rw [removeRequests]
  cases s.table.lookup id with
  | none => rfl
  | some e => simp only; split_ifs <;> rfl

theorem removeRequests_lookup_ne (s : LockManager Ix V) (t : TxnId) (h : id' ≠ id) :
    (s.removeRequests t id).table.lookup id' = s.table.lookup id' := by
  rw [removeRequests]
  cases s.table.lookup id with
  | none => rfl
  | some e =>
    simp only
    split_ifs
    · rfl
    · exact AList.lookup_erase_ne h
    · exact AList.lookup_insert_ne h

variable {e' : Entry V}

/-- What `unlock` does to the queue: nothing where the transaction has no
request, else it removes them all, and the queue if it is empty then. -/
theorem removeRequests_lookup (s : LockManager Ix V) (t : TxnId)
    (h : (s.removeRequests t id).table.lookup id = some e') :
    ∃ e, s.table.lookup id = some e ∧ e'.gap = e.gap ∧
      ((t ∉ e.queue.txns ∧ e'.queue = e.queue) ∨
        (t ∈ e.queue.txns ∧ e'.queue = e.queue.release t ∧ e'.queue.txns ≠ [])) := by
  rw [removeRequests] at h
  cases hlook : s.table.lookup id with
  | none => simp [hlook] at h
  | some e =>
    simp only [hlook] at h
    split_ifs at h with hown hempty
    · rw [hlook] at h
      cases h
      exact ⟨e', rfl, rfl, .inl ⟨LockRequestQueue.own_eq_none.1 (by simpa using hown), rfl⟩⟩
    · rw [AList.lookup_erase] at h
      cases h
    · rw [AList.lookup_insert] at h
      cases h
      refine ⟨e, rfl, rfl, .inr ⟨?_, rfl, ?_⟩⟩
      · by_contra hmem
        exact hown (by simp [LockRequestQueue.own_eq_none.2 hmem])
      · simpa [LockRequestQueue.txns] using hempty

theorem removeRequests_of_not_mem (h : t ∉ (s.table.queue id).txns) : s.removeRequests t id = s := by
  rw [removeRequests]
  cases hlook : s.table.lookup id with
  | none => rfl
  | some e =>
    rw [LockTable.queue_of_lookup hlook] at h
    simp [LockRequestQueue.own_eq_none.2 h]

theorem removeRequests_entry (h : (s.removeRequests t id).table.lookup id' = some e') :
    ∃ e, s.table.lookup id' = some e ∧ e'.gap = e.gap ∧ (e'.queue = e.queue ∨ e'.queue = e.queue.release t) ∧
      ∀ r ∈ e'.queue.requests, r ∈ e.queue.requests := by
  by_cases hid : id' = id
  · subst hid
    obtain ⟨e, he, hgap, ⟨_, hq⟩ | ⟨_, hq, _⟩⟩ := removeRequests_lookup s t h
    · exact ⟨e, he, hgap, .inl hq, fun r hr => hq ▸ hr⟩
    · exact ⟨e, he, hgap, .inr hq, fun r hr => mem_of_mem_filter (hq ▸ hr)⟩
  · rw [removeRequests_lookup_ne s t hid] at h
    exact ⟨e', h, rfl, .inl rfl, fun r hr => hr⟩

theorem mem_requests_removeRequests {r : LockRequest}
    (h : r ∈ ((s.removeRequests t id).table.queue id').requests) : r ∈ (s.table.queue id').requests := by
  cases hlook : (s.removeRequests t id).table.lookup id' with
  | none => simp [LockTable.queue_of_none hlook] at h
  | some e' =>
    obtain ⟨e, he, _, _, hmem⟩ := removeRequests_entry hlook
    rw [LockTable.queue_of_lookup hlook] at h
    rw [LockTable.queue_of_lookup he]
    exact hmem r h

theorem removeRequests_queue_txns (s : LockManager Ix V) (t : TxnId) (id : LockDataId Ix) :
    ((s.removeRequests t id).table.queue id).txns = (s.table.queue id).txns.filter (· ≠ t) := by
  rw [removeRequests]
  cases hlook : s.table.lookup id with
  | none => simp [LockTable.queue_of_none hlook]
  | some e =>
    rw [LockTable.queue_of_lookup hlook]
    simp only
    split_ifs with hown hempty
    · rw [LockTable.queue_of_lookup hlook, filter_eq_self.2]
      intro u hu
      have ht : t ∉ e.queue.txns := LockRequestQueue.own_eq_none.1 (by simpa using hown)
      simpa using ne_of_mem_of_not_mem hu ht
    · rw [← LockRequestQueue.txns_release, LockTable.queue_of_none (AList.lookup_erase id s.table)]
      exact (congrArg (List.map LockRequest.txn) (isEmpty_iff.1 hempty)).symm
    · rw [← LockRequestQueue.txns_release, LockTable.queue_of_lookup (AList.lookup_insert s.table)]

@[simp] theorem removeRequests_waiting (s : LockManager Ix V) (t : TxnId) (id : LockDataId Ix) :
    (s.removeRequests t id).waiting = s.waiting := by
  rw [removeRequests]
  cases s.table.lookup id with
  | none => rfl
  | some e => simp only; split_ifs <;> rfl

end LockManager

end

/-! ## What the calls find -/

def Call.inserts : Call Ix V → Bool
  | safeInGap .. => true
  | _ => false

def LockMode.Enters (m : LockMode) (g g' : GroupLockMode) : Prop :=
  g' ≠ .nonLock ∧ (m = .shared → g ≠ .x ∧ g' = .s) ∧ (m = .exclusive → g = .nonLock ∧ g' = .x)

variable [DecidableEq Ix] [Index.IxCmp V] [GapData Ix V]

/-- The call finds no lock on an overlapping gap. -/
def Call.Unblocked (T : LockTable Ix V) (t : TxnId) : Call Ix V → Prop
  | sharedOnGap _ ix g => T.blocker? .shared t ix g = none
  | exclusiveOnGap _ ix g => T.blocker? .exclusive t ix g = none
  | _ => True

/-- Where the call raises the own request `r` to the mode `m`, and what it leaves in the counters. -/
def Call.Raises (T : LockTable Ix V) (t : TxnId) (q : LockRequestQueue) (r : LockRequest) (m : LockMode) (n k : Int) :
    Call Ix V → Prop
  | .exclusiveOnGap _ ix g =>
    (m = .exclusive ∧ n = 0 ∧ k = q.ixNum) ∧ r.granted ∧ r.mode = .shared ∧ q.sharedNum = 1 ∧
      T.blocker? .exclusive t ix g = none
  | .exclusiveOnRecord .. =>
    (m = .exclusive ∧ n = 0 ∧ k = q.ixNum) ∧ r.granted ∧ r.mode = .shared ∧ q.requests.length = 1
  | .exclusiveOnTable _ => (m = .exclusive ∧ n = q.sharedNum ∧ k = q.ixNum) ∧ r.mode ≠ .exclusive ∧ q.sharedNum = 1
  | .ixOnTable _ =>
    (n = q.sharedNum ∧ k = q.ixNum + 1) ∧
      (m = .sIX ∧ r.mode = .shared ∨ m = .intentionExclusive ∧ r.mode = .intentionShared)
  | _ => False

/-- Where the own request `r` goes back to waiting. -/
def Call.Lowers (T : LockTable Ix V) (t : TxnId) (q : LockRequestQueue) (r : LockRequest) : Call Ix V → Prop
  | .exclusiveOnGap _ ix g =>
    r.mode = .shared ∧ (q.sharedNum = 1 → (T.blocker? .exclusive t ix g).isSome) ∧
      ∀ b ∈ T.blocker? .exclusive t ix g, t ≤ b.queue.oldest
  | .exclusiveOnTable _ => r.mode ≠ .exclusive ∧ q.sharedNum ≠ 1
  | _ => False

/-- Where another request waits beside the own one. -/
def Call.Besides (q : LockRequestQueue) (r : LockRequest) : Call Ix V → Prop
  | .exclusiveOnRecord .. => r.mode = .shared ∧ q.requests.length ≠ 1
  | .ixOnTable _ => r.mode = .shared ∧ q.sharedNum ≠ 1 ∨ r.mode = .intentionShared ∧ q.group ≠ .is ∧ q.group ≠ .ix
  | _ => False

/-- What a call answers over the queue `q`, with what it has tested by then. -/
inductive Answer (T : LockTable Ix V) (t : TxnId) (q : LockRequestQueue) (c : Call Ix V) : Verdict Ix → Prop
  | quiet (v : Verdict Ix) (hv : v = .refuse ∨ v = .returnFalse ∨ v = .stuck) : Answer T t q c v
  | waitOn (id : LockDataId Ix) (hcall : c.inserts) : Answer T t q c (.waitOn id)
  | held (hown : t ∈ q.txns) : Answer T t q c .held
  | grant (g : GroupLockMode) (n k : Int) (hcall : c.inserts = false) (hown : q.own t = none)
      (hgroup : c.mode.Enters q.group g)
      (hn : n = q.sharedNum + if c.mode = .shared then 1 else 0)
      (hk : k = q.ixNum + if c.mode = .intentionExclusive then 1 else 0)
      (hfree : T.lookup c.id = none → c.Unblocked T t) :
      Answer T t q c (.grant { q.addGranted t c.mode with group := g, sharedNum := n, ixNum := k })
  | insert (fd : Nat) (ix : Ix) (key : List V) (hcall : c = .safeInGap fd ix key) (hlook : T.lookup c.id = none)
      (hfind : ((T.gaps ix).find? fun e => e.2.gap.isInGap key && e.2.heldByOther t) = none) :
      Answer T t q c (.grant { requests := [⟨t, .exclusive, true⟩], group := .x, oldest := t })
  | raise (r : LockRequest) (m : LockMode) (n k : Int) (hown : q.own t = some r) (hraise : c.Raises T t q r m n k) :
      Answer T t q c (.upgrade
        { q with
          requests := updateFirst t (fun r => { r with mode := m }) q.requests
          group := m.group
          sharedNum := n
          ixNum := k })
  | wait (hcall : c.inserts = false) (hown : q.own t = none) (hage : T.lookup c.id = none ∨ t ≤ q.oldest) :
      Answer T t q c (.wait (q.addWaiting t c.mode))
  | beside (r : LockRequest) (hown : q.own t = some r) (hcall : c.Besides q r) (hage : t ≤ q.oldest) :
      Answer T t q c (.wait (q.addWaiting t c.mode))
  /-- The lock is given up for the time of the wait. -/
  | lower (r : LockRequest) (hown : q.own t = some r) (hcall : c.Lowers T t q r) (hage : t ≤ q.oldest) :
      Answer T t q c (.wait
        { q with
          requests := updateFirst t (fun r => { r with granted := false, mode := .exclusive }) q.requests
          oldest := t })

variable {T : LockTable Ix V} {c : Call Ix V} {fd : Nat} {rid : Rid} {ix : Ix} {g : Gap V} {st : TransactionState}
    {q : LockRequestQueue}

theorem Answer.stuck : Answer T t q c .stuck := .quiet _ (.inr (.inr rfl))

theorem Answer.waitDie {o : TxnId} {v : Verdict Ix} (h : t ≤ o → Answer T t q c v) : Answer T t q c (waitDie t o v) := by
  rw [Lock.waitDie]
  split_ifs with ho
  · exact .quiet _ (.inl rfl)
  · exact h (not_lt.1 ho)

theorem Answer.own {r : LockRequest} (hown : q.own t = some r) : Answer T t q c .held :=
  .held (LockRequestQueue.mem_txns_of_own hown)

theorem LockMode.enters_shared {g : GroupLockMode} (h : g ≠ .x) : LockMode.shared.Enters g .s :=
  ⟨by simp, fun _ => ⟨h, rfl⟩, nofun⟩

theorem LockMode.enters_exclusive {g : GroupLockMode} (h : ¬g ≠ .nonLock) : LockMode.exclusive.Enters g .x :=
  ⟨by simp, nofun, fun _ => ⟨not_not.1 h, rfl⟩⟩

theorem lockSharedOnRecord_answer :
    Answer T t q (.sharedOnRecord fd rid) (lockSharedOnRecord q t) := by
  rw [lockSharedOnRecord]
  cases hown : q.own t with
  | some r =>
    simp only
    split_ifs
    · exact .own hown
    · exact .stuck
  | none =>
    simp only
    split_ifs with hgroup
    · exact .waitDie fun ho => .wait rfl hown (.inr ho)
    · exact .grant .s _ _ rfl hown (LockMode.enters_shared fun hx => hgroup (.inl hx)) rfl (add_zero _).symm
        fun _ => trivial

theorem lockExclusiveOnRecord_answer :
    Answer T t q (.exclusiveOnRecord fd rid) (lockExclusiveOnRecord q t) := by
  rw [lockExclusiveOnRecord]
  cases hown : q.own t with
  | some r =>
    simp only
    split_ifs with hg hx hone hmode
    · exact .stuck
    · exact .own hown
    · exact .raise r .exclusive 0 _ hown ⟨⟨rfl, rfl, rfl⟩, by simpa using hg, hone⟩
    · exact .stuck
    · have hmode := not_not.1 hmode
      exact .waitDie fun ho => .beside r hown ⟨hmode, fun hlen => hone ⟨hmode, hlen⟩⟩ ho
  | none =>
    simp only
    split_ifs with hgroup
    · exact .waitDie fun ho => .wait rfl hown (.inr ho)
    · exact .grant .x _ _ rfl hown (LockMode.enters_exclusive hgroup) (add_zero _).symm (add_zero _).symm fun _ => trivial

theorem lockSharedOnTable_answer : Answer T t q (.sharedOnTable fd) (lockSharedOnTable q t) := by
  rw [lockSharedOnTable]
  cases hown : q.own t with
  | some r =>
    simp only
    split_ifs
    · exact .own hown
    · exact .stuck
  | none =>
    simp only
    split_ifs with hgroup
    · exact .waitDie fun ho => .wait rfl hown (.inr ho)
    · exact .grant .s _ _ rfl hown (LockMode.enters_shared fun hx => hgroup (.inl hx)) rfl (add_zero _).symm
        fun _ => trivial

theorem lockExclusiveOnTable_answer :
    Answer T t q (.exclusiveOnTable fd) (lockExclusiveOnTable q t) := by
  rw [lockExclusiveOnTable]
  cases hown : q.own t with
  | some r =>
    simp only
    split_ifs with hx hone
    · exact .own hown
    · exact .raise r .exclusive _ _ hown ⟨⟨rfl, rfl, rfl⟩, hx, hone⟩
    · exact .waitDie fun ho => .lower r hown ⟨hx, hone⟩ ho
  | none =>
    simp only
    split_ifs with hgroup
    · exact .waitDie fun ho => .wait rfl hown (.inr ho)
    · exact .grant .x _ _ rfl hown (LockMode.enters_exclusive hgroup) (add_zero _).symm (add_zero _).symm fun _ => trivial

theorem lockISOnTable_answer : Answer T t q (.isOnTable fd) (lockISOnTable q t) := by
  rw [lockISOnTable]
  cases hown : q.own t with
  | some r =>
    simp only
    split_ifs
    · exact .own hown
    · exact .stuck
  | none =>
    simp only
    split_ifs with hgroup hnon
    · exact .waitDie fun ho => .wait rfl hown (.inr ho)
    · exact .grant .is _ _ rfl hown ⟨by simp, nofun, nofun⟩ (add_zero _).symm (add_zero _).symm fun _ => trivial
    · exact .grant _ _ _ rfl hown ⟨hnon, nofun, nofun⟩ (add_zero _).symm (add_zero _).symm fun _ => trivial

theorem lockIXOnTable_answer : Answer T t q (.ixOnTable fd) (lockIXOnTable q t) := by
  rw [lockIXOnTable]
  cases hown : q.own t with
  | some r =>
    simp only
    split_ifs with hheld hshared his
    · exact .own hown
    · exact .raise r .sIX _ _ hown ⟨⟨rfl, rfl⟩, .inl ⟨rfl, hshared.1⟩⟩
    · exact .raise r .intentionExclusive _ _ hown ⟨⟨rfl, rfl⟩, .inr ⟨rfl, his.1⟩⟩
    · refine .waitDie fun ho => .beside r hown ?_ ho
      cases hmode : r.mode with
      | shared => exact .inl ⟨hmode, fun hone => hshared ⟨hmode, hone⟩⟩
      | intentionShared => exact .inr ⟨hmode, not_or.1 fun hgroup => his ⟨hmode, hgroup⟩⟩
      | _ => simp [hmode] at hheld
  | none =>
    simp only
    split_ifs
    · exact .waitDie fun ho => .wait rfl hown (.inr ho)
    · exact .grant .ix _ _ rfl hown ⟨by simp, nofun, nofun⟩ (add_zero _).symm rfl fun _ => trivial

theorem lockSharedOnGap_answer :
    Answer T t (T.queue (.gap fd ix (GapData.hash Ix g))) (.sharedOnGap fd ix g) (lockSharedOnGap T t fd ix g) := by
  rw [lockSharedOnGap]
  cases hlook : T.lookup (.gap fd ix (GapData.hash Ix g)) with
  | none =>
    rw [LockTable.queue_of_none hlook]
    cases hb : T.blocker? .shared t ix g with
    | none => exact .grant .s 1 0 rfl rfl (LockMode.enters_shared (by simp)) rfl rfl fun _ => hb
    | some b => exact .waitDie fun _ => .wait rfl rfl (.inl hlook)
  | some e =>
    have hfree (h : T.lookup (.gap fd ix (GapData.hash Ix g)) = none) : (Call.sharedOnGap fd ix g).Unblocked T t := by
      rw [hlook] at h
      cases h
    rw [LockTable.queue_of_lookup hlook]
    cases hown : e.queue.own t with
    | some r =>
      simp only [hown]
      split_ifs
      · exact .own hown
      · exact .stuck
    | none =>
      simp only [hown]
      split_ifs with hgroup
      · exact .waitDie fun ho => .wait rfl hown (.inr ho)
      · exact .grant .s _ _ rfl hown (LockMode.enters_shared hgroup) rfl (add_zero _).symm hfree

theorem lockExclusiveOnGap_answer :
    Answer T t (T.queue (.gap fd ix (GapData.hash Ix g))) (.exclusiveOnGap fd ix g) (lockExclusiveOnGap T t fd ix g) := by
  rw [lockExclusiveOnGap]
  refine .waitDie fun hages => ?_
  cases hlook : T.lookup (.gap fd ix (GapData.hash Ix g)) with
  | none =>
    rw [LockTable.queue_of_none hlook]
    simp only
    split_ifs with hb
    · exact .wait rfl rfl (.inl hlook)
    · have hb : T.blocker? .exclusive t ix g = none := by simpa using hb
      exact .grant .x 0 0 rfl rfl (LockMode.enters_exclusive (by simp)) rfl rfl fun _ => hb
  | some e =>
    have hfree (h : T.lookup (.gap fd ix (GapData.hash Ix g)) = none) : (Call.exclusiveOnGap fd ix g).Unblocked T t := by
      rw [hlook] at h
      cases h
    rw [LockTable.queue_of_lookup hlook]
    cases hown : e.queue.own t with
    | some r =>
      simp only [hown]
      split_ifs with hg hx hmode hone
      · exact .stuck
      · exact .own hown
      · exact .stuck
      · exact .raise r .exclusive 0 _ hown
          ⟨⟨rfl, rfl, rfl⟩, by simpa using hg, not_not.1 hmode, hone.1, by simpa using hone.2⟩
      · refine .waitDie fun ho => .lower r hown ⟨not_not.1 hmode, fun hnum => ?_, fun b hb => ?_⟩ ho
        · by_contra hb
          exact hone ⟨hnum, by simpa using hb⟩
        · rw [hb] at hages
          exact hages
    | none =>
      simp only [hown]
      split_ifs with hgroup
      · exact .waitDie fun ho => .wait rfl hown (.inr ho)
      · exact .grant .x _ _ rfl hown (LockMode.enters_exclusive hgroup) (add_zero _).symm (add_zero _).symm hfree

theorem isSafeInGap_answer {key : List V} : Answer T t (T.queue (Call.safeInGap fd ix key).id) (.safeInGap fd ix key)
    (isSafeInGap T st t fd ix key) := by
  rw [isSafeInGap]
  cases hfind : (T.gaps ix).find? fun e => e.2.gap.isInGap key && e.2.heldByOther t with
  | some b =>
    refine .waitDie fun _ => ?_
    split_ifs
    · exact .quiet _ (.inr (.inl rfl))
    · exact .waitOn b.1 rfl
  | none =>
    cases hlook : T.lookup (.gap fd ix (GapData.hash Ix (.ofKey (GapData.columnsOf ix key)))) with
    | none => exact .insert fd ix key rfl hlook hfind
    | some e =>
      simp only
      split_ifs with hself
      · obtain ⟨r, hr, hrt⟩ := any_eq_true.1 hself
        refine .held (mem_map.2 ⟨r, ?_, by simpa using (Bool.and_eq_true_iff.1 hrt).1⟩)
        rwa [LockTable.queue_of_lookup (by exact hlook)]
      · exact .stuck

theorem verdict_answer (T : LockTable Ix V) (st : TransactionState) (t : TxnId) (c : Call Ix V) :
    Answer T t (T.queue c.id) c (verdict T st t c) := by
  cases c with
  | sharedOnGap fd ix g => exact lockSharedOnGap_answer
  | exclusiveOnGap fd ix g => exact lockExclusiveOnGap_answer
  | safeInGap fd ix key => exact isSafeInGap_answer
  | sharedOnRecord fd rid => exact lockSharedOnRecord_answer
  | exclusiveOnRecord fd rid => exact lockExclusiveOnRecord_answer
  | sharedOnTable fd => exact lockSharedOnTable_answer
  | exclusiveOnTable fd => exact lockExclusiveOnTable_answer
  | isOnTable fd => exact lockISOnTable_answer
  | ixOnTable fd => exact lockIXOnTable_answer

/-! ## What a call adds to its queue -/

/-- The queues of the verdict have the transactions of `q`, and `t`. -/
def Verdict.Adds (t : TxnId) (q : LockRequestQueue) : Verdict Ix → Prop
  | .upgrade q' => q'.txns = q.txns ∧ t ∈ q.txns
  | .grant q' => q'.txns = q.txns ++ [t]
  | .wait q' => (q'.txns = q.txns ∧ t ∈ q.txns) ∨ q'.txns = q.txns ++ [t]
  | _ => True

theorem verdict_adds (T : LockTable Ix V) (st : TransactionState) (t : TxnId) (c : Call Ix V) :
    (verdict T st t c).Adds t (T.queue c.id) := by
  have h := verdict_answer T st t c
  generalize verdict T st t c = v at h ⊢
  cases h with
  | quiet v hv => rcases hv with rfl | rfl | rfl <;> trivial
  | waitOn => trivial
  | held => trivial
  | grant g n k => exact LockRequestQueue.txns_addGranted _ t c.mode
  | insert fd ix key _ hlook =>
    rw [LockTable.queue_of_none hlook]
    rfl
  | raise r m n k hown => exact ⟨map_txn_updateFirst (by exact fun _ => rfl) _, LockRequestQueue.mem_txns_of_own hown⟩
  | wait => exact .inr (LockRequestQueue.txns_addWaiting _ t c.mode)
  | beside => exact .inr (LockRequestQueue.txns_addWaiting _ t c.mode)
  | lower r hown => exact .inl ⟨map_txn_updateFirst (by exact fun _ => rfl) _, LockRequestQueue.mem_txns_of_own hown⟩

/-! ## What a step does -/

theorem inserts_of_wait {T : LockTable Ix V} {st : TransactionState} {c : Call Ix V} {q : LockRequestQueue}
    (h : verdict T st t c = .wait q) : c.inserts = false := by
  have hans := h ▸ verdict_answer T st t c
  cases hans with
  | quiet _ hv => simp at hv
  | wait hcall => exact hcall
  | beside r _ hcall => cases c <;> first | rfl | exact hcall.elim
  | lower r _ hcall => cases c <;> first | rfl | exact hcall.elim

theorem inserts_of_waitOn {T : LockTable Ix V} {st : TransactionState} {c : Call Ix V} {id : LockDataId Ix}
    (h : verdict T st t c = .waitOn id) : c.inserts := by
  have hans := h ▸ verdict_answer T st t c
  cases hans with
  | quiet _ hv => simp at hv
  | waitOn id hcall => exact hcall

omit [Index.IxCmp V] in
@[simp] theorem LockManager.grantNow_state (s : LockManager Ix V) (t : TxnId) (c : Call Ix V) (u : TxnId) :
    ((s.grantNow t c).2.txns u).state = (s.txns u).state := addLock_state (s.store c _) t u c.id

namespace LockManager

inductive Acquired (s : LockManager Ix V) (t : TxnId) (c : Call Ix V) : Reply → LockManager Ix V → Prop
  | refuse : Acquired s t c (.throw .deadlockPrevention) s
  | returnFalse : Acquired s t c (.ret false) s
  | held (hv : verdict s.table (s.txns t).state t c = .held) : Acquired s t c (.ret true) (s.tell t c).2
  | upgrade (q : LockRequestQueue) (hv : verdict s.table (s.txns t).state t c = .upgrade q) :
      Acquired s t c (.ret true) ((s.store c q).tell t c).2
  | grant (q : LockRequestQueue) (hv : verdict s.table (s.txns t).state t c = .grant q) :
      Acquired s t c (.ret true) (((s.store c q).addLock t c.id).tell t c).2
  | pass (q : LockRequestQueue) (hv : verdict s.table (s.txns t).state t c = .wait q)
      (hready : ready (s.store c q).table t c) : Acquired s t c (.ret true) ((s.store c q).grantNow t c).2
  | block (q : LockRequestQueue) (hv : verdict s.table (s.txns t).state t c = .wait q)
      (hready : ready (s.store c q).table t c = false) :
      Acquired s t c .blocked ((s.store c q).setWaiting t (some ⟨c, c.id⟩))
  | blockOn (id : LockDataId Ix) (hv : verdict s.table (s.txns t).state t c = .waitOn id) :
      Acquired s t c .blocked (s.setWaiting t (some ⟨c, id⟩))

omit [Index.IxCmp V] in
theorem tell_table (s : LockManager Ix V) (c : Call Ix V) : (s.tell t c).2.table = s.table := rfl

omit [Index.IxCmp V] in
theorem queue_grantNow (s : LockManager Ix V) (c : Call Ix V) :
    (s.grantNow t c).2.table.queue c.id = granted t c (s.table.queue c.id) := LockTable.queue_store_self ..

variable {r : Reply}

theorem acquired {s s' : LockManager Ix V} {t : TxnId} {c : Call Ix V} (h : s.acquire t c = some (r, s')) :
    Acquired s t c r s' := by
  rw [acquire] at h
  cases hv : verdict s.table (s.txns t).state t c with
  | held => rw [hv] at h; cases h; exact .held hv
  | upgrade q => rw [hv] at h; cases h; exact .upgrade q hv
  | grant q => rw [hv] at h; cases h; exact .grant q hv
  | wait q =>
    simp only [hv] at h
    split_ifs at h with hready
    · cases h; exact .pass q hv hready
    · cases h; exact .block q hv (by simpa using hready)
  | waitOn id => rw [hv] at h; cases h; exact .blockOn id hv
  | refuse => rw [hv] at h; cases h; exact .refuse
  | returnFalse => rw [hv] at h; cases h; exact .returnFalse
  | stuck => simp [hv] at h

theorem Acquired.state {s s' : LockManager Ix V} {t : TxnId} {c : Call Ix V} (h : Acquired s t c r s')
    (u : TxnId) : (s'.txns u).state = (s.txns u).state := by
  cases h with
  | refuse => rfl
  | returnFalse => rfl
  | held => rfl
  | upgrade q => rfl
  | grant q => exact addLock_state (s.store c q) t u c.id
  | pass q => exact grantNow_state (s.store c q) t c u
  | block q => rfl
  | blockOn id => rfl

inductive Stepped (s : LockManager Ix V) : Step Ix V → Reply → LockManager Ix V → Prop
  | refused (t : TxnId) (c : Call Ix V) (r : Reply) (hchecks : c.checksLock) (hr : checkLock (s.txns t).state = .error r) :
      Stepped s (.call t c) r s
  | call (t : TxnId) (c : Call Ix V) (st : TransactionState) (r : Reply) (s' : LockManager Ix V)
      (hw : s.waiting t = none)
      (hst : st = (s.txns t).state ∧ c.checksLock = false ∨ checkLock (s.txns t).state = .ok st)
      (h : Acquired (s.setState t st) t c r s') : Stepped s (.call t c) r s'
  | wake (t : TxnId) (w : Wait Ix V) (hw : s.waiting t = some w) (hcall : w.call.inserts = false)
      (hready : ready s.table t w.call) : Stepped s (.wake t) (.ret true) ((s.setWaiting t none).grantNow t w.call).2
  | wakeInsert (t : TxnId) (w : Wait Ix V) (r : Reply) (s' : LockManager Ix V) (hw : s.waiting t = some w)
      (hcall : w.call.inserts)
      (h : Acquired (s.setWaiting t none) t w.call r s') : Stepped s (.wake t) r s'
  | unlockEnded (t : TxnId) (id : LockDataId Ix) (he : (s.txns t).state.ended) : Stepped s (.unlock t id) (.ret false) s
  | unlock (t : TxnId) (id : LockDataId Ix) (st : TransactionState) (hw : s.waiting t = none)
      (he : (s.txns t).state.ended = false)
      (hst : st = if (s.txns t).state = .growing then .shrinking else (s.txns t).state) :
      Stepped s (.unlock t id) (.ret true) ((s.setState t st).removeRequests t id)
  | finish (t : TxnId) (st : TransactionState) (hw : s.waiting t = none) (hst : st.ended) :
      Stepped s (.finish t st) (.ret true) { s with txns := update s.txns t { state := st, lockSet := [] } }
  | rehash (T : LockTable Ix V) (hperm : T.entries.Perm s.table.entries) :
      Stepped s (.rehash T) (.ret true) { s with table := T }

theorem stepped [DecidableEq V] {s s' : LockManager Ix V} {a : Step Ix V} (h : s.step a = some (r, s')) : Stepped s a r s' := by
  cases a with
  | call t c =>
    rw [step, LockManager.call] at h
    split_ifs at h with hw hchecks
    · cases hcheck : checkLock (s.txns t).state with
      | error r' => rw [hcheck] at h; cases h; exact .refused t c r hchecks hcheck
      | ok st => rw [hcheck] at h; exact .call t c st r s' (by simpa using hw) (.inr hcheck) (acquired h)
    · refine .call t c _ r s' (by simpa using hw) (.inl ⟨rfl, by simpa using hchecks⟩) ?_
      rw [setState_self]
      exact acquired h
  | wake t =>
    rw [step, LockManager.wake] at h
    cases hw : s.waiting t with
    | none => simp [hw] at h
    | some w =>
      obtain ⟨c, id⟩ := w
      cases c
      case safeInGap fd ix key =>
        simp only [hw] at h
        split_ifs at h
        exact .wakeInsert t _ r s' hw rfl (acquired h)
      all_goals
        simp only [hw] at h
        split_ifs at h with hready
        cases h
        exact .wake t _ hw rfl hready
  | unlock t id =>
    rw [step, LockManager.unlock] at h
    split_ifs at h with hw he hgrow
    · cases h; exact .unlockEnded t id he
    · cases h
      exact .unlock t id .shrinking (by simpa using hw) (by simpa using he) (by simp [hgrow])
    · cases h
      have hun := Stepped.unlock (s := s) t id (s.txns t).state (by simpa using hw) (by simpa using he) (by simp [hgrow])
      rwa [setState_self] at hun
  | finish t st =>
    rw [step, LockManager.finish] at h
    split_ifs at h with hw
    rw [not_or, not_not] at hw
    cases h
    exact .finish t st (by simpa using hw.1) hw.2
  | rehash T =>
    rw [step] at h
    split_ifs at h with hperm
    cases h
    exact .rehash T hperm

end LockManager

end Rmdb.Lock
