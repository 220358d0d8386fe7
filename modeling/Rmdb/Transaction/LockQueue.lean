/-
Queues of shared and exclusive requests.

As long as only these are asked for, a transaction has at most one request in a
queue, a request that is not granted belongs to a blocked call, and the group
mode is not below what is granted. Every change of such a queue puts one request
in the place of the one the transaction had, if any: `Puts`.
-/
import Rmdb.Transaction.LockSteps

namespace Rmdb.Lock

open List

/-- `q'` has the request `r₁`, and of other transactions what `q` has. -/
structure Puts (q : LockRequestQueue) (r₁ : LockRequest) (q' : LockRequestQueue) : Prop where
  mem : ∀ r, r ∈ q'.requests ↔ (r ∈ q.requests ∧ r.txn ≠ r₁.txn) ∨ r = r₁
  nodup : q'.txns.Nodup

variable {t : TxnId} {r₀ : LockRequest}

variable {rs : List LockRequest}

/-- With one request for each transaction, the first one of `t` is the one. -/
theorem mem_updateFirst_iff {f : LockRequest → LockRequest}
    (hnodup : (rs.map LockRequest.txn).Nodup) (h₀ : r₀ ∈ rs) (ht : r₀.txn = t) (r : LockRequest) :
    r ∈ updateFirst t f rs ↔ (r ∈ rs ∧ r.txn ≠ t) ∨ r = f r₀ := by
  induction rs with
  | nil => simp at h₀
  | cons r₁ rs ih =>
    rw [map_cons, nodup_cons] at hnodup
    rw [updateFirst]
    split_ifs with h₁
    · have hr₀ : r₀ = r₁ := by
        rcases mem_cons.1 h₀ with h | h
        · exact h
        · exact absurd (mem_map.2 ⟨r₀, h, ht.trans h₁.symm⟩) hnodup.1
      have hrest (r : LockRequest) (hr : r ∈ rs) : r.txn ≠ t := fun h =>
        hnodup.1 (mem_map.2 ⟨r, hr, h.trans h₁.symm⟩)
      subst hr₀
      constructor
      · intro h
        rcases mem_cons.1 h with h | h
        · exact .inr h
        · exact .inl ⟨by simp [h], hrest r h⟩
      · rintro (⟨h, hne⟩ | h)
        · rcases mem_cons.1 h with rfl | h
          · exact absurd h₁ hne
          · simp [h]
        · simp [h]
    · have h₀' : r₀ ∈ rs := by
        rcases mem_cons.1 h₀ with rfl | h
        · exact absurd ht h₁
        · exact h
      rw [mem_cons, ih hnodup.2 h₀', mem_cons]
      constructor
      · rintro (rfl | ⟨h, hne⟩ | h)
        · exact .inl ⟨.inl rfl, h₁⟩
        · exact .inl ⟨.inr h, hne⟩
        · exact .inr h
      · rintro (⟨rfl | h, hne⟩ | h)
        · exact .inl rfl
        · exact .inr (.inl ⟨h, hne⟩)
        · exact .inr (.inr h)

variable {q q' : LockRequestQueue} {r₁ : LockRequest}

theorem Puts.append (hnodup : q.txns.Nodup) (hown : q.own r₁.txn = none)
    (hq' : q'.requests = q.requests ++ [r₁]) : Puts q r₁ q' := by
  have hnew : r₁.txn ∉ q.txns := LockRequestQueue.own_eq_none.1 hown
  constructor
  · intro r
    rw [hq', mem_append, mem_singleton]
    refine or_congr_left (and_iff_left_of_imp fun hr hrt => hnew ?_).symm
    exact hrt ▸ mem_map.2 ⟨r, hr, rfl⟩
  · rw [LockRequestQueue.txns, hq', map_append]
    exact List.Nodup.append hnodup (nodup_singleton _) (disjoint_singleton.2 hnew)

theorem Puts.first (f : LockRequest → LockRequest) (hnodup : q.txns.Nodup)
    (h₀ : r₀ ∈ q.requests) (hf : ∀ r, (f r).txn = r.txn) (hq' : q'.requests = updateFirst r₀.txn f q.requests) :
    Puts q (f r₀) q' := by
  constructor
  · intro r
    rw [hq', mem_updateFirst_iff hnodup h₀ rfl, hf]
  · rw [LockRequestQueue.txns, hq', map_txn_updateFirst hf]
    exact hnodup

theorem Puts.last (f : LockRequest → LockRequest) (hnodup : q.txns.Nodup)
    (h₀ : r₀ ∈ q.requests) (hf : ∀ r, (f r).txn = r.txn) (hq' : q'.requests = updateLast r₀.txn f q.requests) :
    Puts q (f r₀) q' := by
  constructor
  · intro r
    have hreverse : (q.requests.reverse.map LockRequest.txn).Nodup := by
      rw [map_reverse]
      exact nodup_reverse.2 hnodup
    rw [hq', updateLast, mem_reverse, mem_updateFirst_iff hreverse (mem_reverse.2 h₀) rfl, hf, mem_reverse]
  · rw [LockRequestQueue.txns, hq', map_txn_updateLast hf]
    exact hnodup

theorem Puts.trans {q'' : LockRequestQueue} {r₂ : LockRequest} (h₁ : Puts q r₁ q') (h₂ : Puts q' r₂ q'')
    (ht : r₁.txn = r₂.txn) : Puts q r₂ q'' := by
  refine ⟨fun r => ?_, h₂.nodup⟩
  rw [h₂.mem, h₁.mem, ht]
  constructor
  · rintro (⟨h | rfl, hne⟩ | h)
    · exact .inl h
    · exact absurd ht hne
    · exact .inr h
  · rintro (h | h)
    · exact .inl ⟨.inl h, h.2⟩
    · exact .inr h

variable {r : LockRequest}

theorem eq_of_nodup_txns (hnodup : q.txns.Nodup) {r' : LockRequest} (hr : r ∈ q.requests)
    (hr' : r' ∈ q.requests) (h : r.txn = r'.txn) : r = r' := inj_on_of_nodup_map hnodup hr hr' h

/-! ## The invariant of a queue -/

variable {Ix V : Type} [GapData Ix V]

/-- A queue of shared and exclusive requests, with the calls that are blocked in it. -/
structure Plain (wt : TxnId → Option (Wait Ix V)) (id : LockDataId Ix) (q : LockRequestQueue) : Prop where
  modes : ∀ r ∈ q.requests, r.mode = .shared ∨ r.mode = .exclusive
  nodup : q.txns.Nodup
  /-- A request that is not granted belongs to a blocked call. -/
  waits : ∀ r ∈ q.requests, r.granted = false →
    ∃ w, wt r.txn = some w ∧ w.call.inserts = false ∧ w.call.id = id ∧ w.call.mode = r.mode
  waiter : ∀ t w, wt t = some w → w.call.inserts = false → w.call.id = id → ⟨t, w.call.mode, false⟩ ∈ q.requests
  /-- The group mode is not below what is granted. -/
  held : ∀ r ∈ q.requests, r.granted → q.group ≠ .nonLock
  exclusive : ∀ r ∈ q.requests, r.granted → r.mode = .exclusive → q.group = .x
  oldest : ∀ r ∈ q.requests, q.oldest ≤ r.txn

variable {wt : TxnId → Option (Wait Ix V)} {id : LockDataId Ix}

theorem plain_empty (h : ∀ t w, wt t = some w → w.call.inserts = false → w.call.id ≠ id) : Plain wt id {} where
  modes r hr := by simp at hr
  nodup := nodup_nil
  waits r hr := by simp at hr
  waiter t w hw hcall hid := absurd hid (h t w hw hcall)
  held r hr := by simp at hr
  exclusive r hr := by simp at hr
  oldest r hr := by simp at hr

theorem Plain.granted_of_own (h : Plain wt id q) (hr : r ∈ q.requests) (hw : wt r.txn = none) : r.granted := by
  by_contra hng
  obtain ⟨w, hw', _⟩ := h.waits r hr (by simpa using hng)
  rw [hw] at hw'
  cases hw'

theorem Plain.puts {wt' : TxnId → Option (Wait Ix V)}
    (h : Plain wt id q) (hput : Puts q r₁ q') (hmode : r₁.mode = .shared ∨ r₁.mode = .exclusive)
    (hwt : ∀ u, u ≠ r₁.txn → wt' u = wt u)
    (hwaits : r₁.granted = false → ∃ w, wt' r₁.txn = some w ∧ w.call.inserts = false ∧ w.call.id = id ∧ w.call.mode = r₁.mode)
    (hwaiter : ∀ w, wt' r₁.txn = some w → w.call.inserts = false → w.call.id = id → r₁ = ⟨r₁.txn, w.call.mode, false⟩)
    (hnon : q'.group = .nonLock → q.group = .nonLock ∧ r₁.granted = false)
    (hx : q'.group ≠ .x → (r₁.granted → r₁.mode ≠ .exclusive) ∧
      (q.group ≠ .x ∨ ∀ r ∈ q.requests, r.txn ≠ r₁.txn → r.granted → r.mode ≠ .exclusive))
    (holdest : q'.oldest ≤ r₁.txn ∧ ∀ r ∈ q.requests, r.txn ≠ r₁.txn → q'.oldest ≤ r.txn) : Plain wt' id q' where
  modes r hr := by
    rcases (hput.mem r).1 hr with hr | rfl
    · exact h.modes r hr.1
    · exact hmode
  nodup := hput.nodup
  waits r hr hng := by
    rcases (hput.mem r).1 hr with hr | rfl
    · rw [hwt _ hr.2]
      exact h.waits r hr.1 hng
    · exact hwaits hng
  waiter t w hw hcall hid := by
    rw [hput.mem]
    by_cases ht : t = r₁.txn
    · subst ht
      exact .inr (hwaiter w hw hcall hid).symm
    · rw [hwt t ht] at hw
      exact .inl ⟨h.waiter t w hw hcall hid, ht⟩
  held r hr hg hgroup := by
    obtain ⟨hgroup, hng⟩ := hnon hgroup
    rcases (hput.mem r).1 hr with hr | rfl
    · exact h.held r hr.1 hg hgroup
    · simp [hng] at hg
  exclusive r hr hg hexcl := by
    by_contra hgroup
    obtain ⟨hown, hothers⟩ := hx hgroup
    rcases (hput.mem r).1 hr with hr | rfl
    · rcases hothers with hothers | hothers
      · exact hothers (h.exclusive r hr.1 hg hexcl)
      · exact hothers r hr.1 hr.2 hg hexcl
    · exact hown hg hexcl
  oldest r hr := by
    rcases (hput.mem r).1 hr with hr | rfl
    · exact holdest.2 r hr.1 hr.2
    · exact holdest.1

/-! ### What `unlock` leaves -/

theorem GroupLockMode.rank_le_max (a b : GroupLockMode) : a.rank ≤ (a.max b).rank ∧ b.rank ≤ (a.max b).rank := by
  rw [max]
  split_ifs with h
  · exact ⟨h.le, le_rfl⟩
  · exact ⟨le_rfl, not_lt.1 h⟩

theorem rank_foldl_max (rs : List LockRequest) (g : GroupLockMode) :
    g.rank ≤ (rs.foldl (fun g r => g.max r.mode.group) g).rank ∧
      ∀ r ∈ rs, r.mode.group.rank ≤ (rs.foldl (fun g r => g.max r.mode.group) g).rank := by
  induction rs generalizing g with
  | nil => simp
  | cons r rs ih =>
    obtain ⟨hg, hrs⟩ := ih (g.max r.mode.group)
    obtain ⟨hleft, hright⟩ := g.rank_le_max r.mode.group
    rw [foldl_cons]
    refine ⟨hleft.trans hg, fun r' hr' => ?_⟩
    rcases mem_cons.1 hr' with rfl | hr'
    · exact hright.trans hg
    · exact hrs r' hr'

theorem foldl_oldest_le (rs : List LockRequest) (o : TxnId) :
    rs.foldl (fun o r => if r.txn < o then r.txn else o) o ≤ o ∧
      ∀ r ∈ rs, rs.foldl (fun o r => if r.txn < o then r.txn else o) o ≤ r.txn := by
  induction rs generalizing o with
  | nil => simp
  | cons r rs ih =>
    obtain ⟨ho, hrs⟩ := ih (if r.txn < o then r.txn else o)
    rw [foldl_cons]
    have hle : (if r.txn < o then r.txn else o) ≤ o ∧ (if r.txn < o then r.txn else o) ≤ r.txn := by
      split_ifs with h
      · exact ⟨h.le, le_rfl⟩
      · exact ⟨le_rfl, not_lt.1 h⟩
    refine ⟨ho.trans hle.1, fun r' hr' => ?_⟩
    rcases mem_cons.1 hr' with rfl | hr'
    · exact ho.trans hle.2
    · exact hrs r' hr'

variable {g : GroupLockMode}

theorem GroupLockMode.eq_x_of_rank (h : 5 ≤ g.rank) : g = .x := by
  cases g <;> simp_all [rank]

theorem release_group_ne (q : LockRequestQueue) (t : TxnId) : (q.release t).group ≠ .nonLock := by
  intro h
  have hrank : 1 ≤ (q.release t).group.rank := (rank_foldl_max _ .is).1
  rw [h] at hrank
  cases hrank

theorem release_group_eq_x (hr : r ∈ (q.release t).requests)
    (hmode : r.mode = .exclusive) : (q.release t).group = .x := by
  have hrank := (rank_foldl_max (q.release t).requests .is).2 r hr
  rw [hmode] at hrank
  exact GroupLockMode.eq_x_of_rank hrank

theorem exists_exclusive_of_foldl_max (hg : g ≠ .x)
    (h : rs.foldl (fun g r => g.max r.mode.group) g = .x) : ∃ r ∈ rs, r.mode = .exclusive := by
  induction rs generalizing g with
  | nil => exact absurd h hg
  | cons r rs ih =>
    by_cases hr : r.mode = .exclusive
    · exact ⟨r, by simp, hr⟩
    · have hmax : g.max r.mode.group ≠ .x := by
        rw [GroupLockMode.max]
        split_ifs
        · cases hm : r.mode <;> simp_all [LockMode.group]
        · exact hg
      obtain ⟨r', hr', hx⟩ := ih hmax h
      exact ⟨r', by simp [hr'], hx⟩

/-- Where `unlock` leaves the group mode at `X`, an exclusive request is left, granted or not. -/
theorem exists_exclusive_of_release (h : (q.release t).group = .x) :
    ∃ r ∈ (q.release t).requests, r.mode = .exclusive := exists_exclusive_of_foldl_max (by simp) h

theorem Plain.release (h : Plain wt id q) (hw : wt t = none) : Plain wt id (q.release t) where
  modes r hr := h.modes r (mem_of_mem_filter hr)
  nodup := by
    rw [LockRequestQueue.txns_release]
    exact h.nodup.filter _
  waits r hr := h.waits r (mem_of_mem_filter hr)
  waiter u w hwu hcall hid := by
    refine mem_filter.2 ⟨h.waiter u w hwu hcall hid, ?_⟩
    have hut : u ≠ t := fun hut => by simp [hut, hw] at hwu
    simpa using hut
  held _ _ _ := release_group_ne q t
  exclusive _ hr _ hmode := release_group_eq_x hr hmode
  oldest r hr := (foldl_oldest_le _ int32Max).2 r hr

/-! ## The calls for shared and exclusive locks -/

/-- `lock_exclusive_on_record` is not among them: it puts a second request beside one that is there. -/
def Call.plain : Call Ix V → Bool
  | exclusiveOnRecord .. => false
  | isOnTable .. => false
  | ixOnTable .. => false
  | _ => true

omit [GapData Ix V] in
theorem Call.plain_of_inserts {c : Call Ix V} (h : c.inserts) : c.plain := by
  cases c
  case safeInGap => rfl
  all_goals cases h

/-- What the verdict of such a call does to the queue. -/
def Verdict.Moves (t : TxnId) (m : LockMode) (q : LockRequestQueue) : Verdict Ix → Prop
  | .held => t ∈ q.txns
  | .upgrade q' => m = .exclusive ∧ t ∈ q.txns ∧ Puts q ⟨t, .exclusive, true⟩ q' ∧ q'.group = .x ∧ q'.oldest = q.oldest
  | .grant q' =>
    t ∉ q.txns ∧ Puts q ⟨t, m, true⟩ q' ∧ q'.group = m.group ∧
      (m = .shared ∧ q.group ≠ .x ∨ m = .exclusive ∧ q.group = .nonLock) ∧
      q'.oldest ≤ t ∧ ∀ r ∈ q.requests, q'.oldest ≤ r.txn
  | .wait q' =>
    (m = .shared ∧ t ∉ q.txns ∨ m = .exclusive) ∧ Puts q ⟨t, m, false⟩ q' ∧ q'.group = q.group ∧ q'.oldest = t ∧
      ∀ r ∈ q.requests, t ≤ r.txn
  | _ => True

section

variable {wt : TxnId → Option (Wait Ix V)} {id : LockDataId Ix} {q : LockRequestQueue} {t : TxnId} {m : LockMode}

theorem Plain.addGranted (h : Plain wt id q) (hown : q.own t = none) (hm : m = .shared ∨ m = .exclusive)
    {g : GroupLockMode} (hgroup : m.Enters q.group g) (n k : Int) :
    (Verdict.grant { q.addGranted t m with group := g, sharedNum := n, ixNum := k } : Verdict Ix).Moves t m q := by
  have hput (q' : LockRequestQueue) (hq' : q'.requests = q.requests ++ [⟨t, m, true⟩]) : Puts q ⟨t, m, true⟩ q' :=
    .append h.nodup hown hq'
  have hg : g = m.group ∧ (m = .shared ∧ q.group ≠ .x ∨ m = .exclusive ∧ q.group = .nonLock) := by
    rcases hm with rfl | rfl
    · exact ⟨(hgroup.2.1 rfl).2, .inl ⟨rfl, (hgroup.2.1 rfl).1⟩⟩
    · exact ⟨(hgroup.2.2 rfl).2, .inr ⟨rfl, (hgroup.2.2 rfl).1⟩⟩
  refine ⟨LockRequestQueue.own_eq_none.1 hown, hput _ rfl, hg.1, hg.2, ?_⟩
  simp only [LockRequestQueue.addGranted]
  split_ifs with ho
  · exact ⟨le_rfl, fun r hr => ho.le.trans (h.oldest r hr)⟩
  · exact ⟨not_lt.1 ho, h.oldest⟩

theorem Plain.addWaiting (h : Plain wt id q) (hown : q.own t = none) (hm : m = .shared ∨ m = .exclusive)
    (hage : ∀ r ∈ q.requests, t ≤ r.txn) : (Verdict.wait (q.addWaiting t m) : Verdict Ix).Moves t m q := by
  have hput (q' : LockRequestQueue) (hq' : q'.requests = q.requests ++ [⟨t, m, false⟩]) : Puts q ⟨t, m, false⟩ q' :=
    .append h.nodup hown hq'
  exact ⟨hm.imp_left fun hm => ⟨hm, LockRequestQueue.own_eq_none.1 hown⟩, hput _ rfl, rfl, rfl, hage⟩

theorem Plain.upgrade (h : Plain wt id q) (hw : wt t = none) {r : LockRequest} (hown : q.own t = some r) (n k : Int) :
    (Verdict.upgrade
      { q with
        requests := updateFirst t (fun r => { r with mode := .exclusive }) q.requests
        group := .x
        sharedNum := n
        ixNum := k } : Verdict Ix).Moves t .exclusive q := by
  obtain ⟨hr, rfl⟩ := LockRequestQueue.mem_of_own hown
  have hput (q' : LockRequestQueue)
      (hq' : q'.requests = updateFirst r.txn (fun r => { r with mode := .exclusive }) q.requests) :
      Puts q { r with mode := .exclusive } q' := .first (fun r => { r with mode := .exclusive }) h.nodup hr (fun _ => rfl) hq'
  rw [show ({ r with mode := .exclusive } : LockRequest) = ⟨r.txn, .exclusive, true⟩ by
    rw [← h.granted_of_own hr hw]] at hput
  exact ⟨rfl, LockRequestQueue.mem_txns_of_own hown, hput _ rfl, rfl, rfl⟩

theorem Plain.waitUpgrade (h : Plain wt id q) {r : LockRequest} (hown : q.own t = some r) (hage : t ≤ q.oldest) :
    (Verdict.wait
      { q with
        requests := updateFirst t (fun r => { r with granted := false, mode := .exclusive }) q.requests
        oldest := t } : Verdict Ix).Moves t .exclusive q := by
  obtain ⟨hr, rfl⟩ := LockRequestQueue.mem_of_own hown
  refine ⟨.inr rfl, ?_, rfl, rfl, fun r hr => hage.trans (h.oldest r hr)⟩
  exact Puts.first (fun r => { r with granted := false, mode := .exclusive }) h.nodup hr (fun _ => rfl) rfl

end

/-! ## The end of a wait -/

theorem noExclusive_iff : q.noExclusive t ↔ ∀ r ∈ q.requests, r.txn ≠ t → r.granted → r.mode ≠ .exclusive := by
  rw [LockRequestQueue.noExclusive, all_eq_true]
  refine forall₂_congr fun r _ => ?_
  simp only [Bool.or_eq_true, decide_eq_true_eq, Bool.not_eq_true', Bool.and_eq_false_iff, decide_eq_false_iff_not]
  constructor
  · rintro (h | h | h) hne hg
    · exact absurd h hne
    · exact h
    · simp [h] at hg
  · intro h
    by_cases hne : r.txn = t
    · exact .inl hne
    · by_cases hg : r.granted
      · exact .inr (.inl (h hne hg))
      · exact .inr (.inr (by simpa using hg))

theorem noGranted_iff : q.noGranted t ↔ ∀ r ∈ q.requests, r.txn ≠ t → r.granted = false := by
  rw [LockRequestQueue.noGranted, all_eq_true]
  refine forall₂_congr fun r _ => ?_
  simp [or_iff_not_imp_left]

omit [GapData Ix V] in
theorem granted_group {c : Call Ix V} (hcall : c.inserts = false) (q : LockRequestQueue) :
    (granted t c q).group ≠ .nonLock ∧ (c.mode = .exclusive → (granted t c q).group = .x) := by
  have hs (g : GroupLockMode) : GroupLockMode.max .s g ≠ .nonLock := by cases g <;> simp [GroupLockMode.max, GroupLockMode.rank]
  have hix (g : GroupLockMode) : GroupLockMode.max .ix g ≠ .nonLock := by
    cases g <;> simp [GroupLockMode.max, GroupLockMode.rank]
  cases c with
  | sharedOnGap fd ix g => simp [granted, Call.mode]
  | exclusiveOnGap fd ix g => exact ⟨by simp [granted], fun _ => rfl⟩
  | safeInGap fd ix key => cases hcall
  | sharedOnRecord fd rid => exact ⟨hs q.group, by simp [Call.mode]⟩
  | exclusiveOnRecord fd rid => exact ⟨by simp [granted], fun _ => rfl⟩
  | sharedOnTable fd =>
    refine ⟨?_, by simp [Call.mode]⟩
    simp only [granted]
    split_ifs
    · simp
    · exact hs q.group
  | exclusiveOnTable fd => exact ⟨by simp [granted], fun _ => rfl⟩
  | isOnTable fd =>
    refine ⟨?_, by simp [Call.mode]⟩
    simp only [granted]
    split_ifs with h
    · simp
    · exact h
  | ixOnTable fd =>
    refine ⟨?_, by simp [Call.mode]⟩
    simp only [granted]
    split_ifs
    · simp
    · exact hix q.group

variable {w : Wait Ix V}

theorem granted_puts
    (h : Plain wt w.call.id q) (hw : wt t = some w) (hc : w.call.plain) (hcall : w.call.inserts = false) :
    Puts q ⟨t, w.call.mode, true⟩ (granted t w.call q) ∧ (granted t w.call q).oldest = q.oldest := by
  have hown := h.waiter t w hw hcall rfl
  have hput (q' : LockRequestQueue) (hq' : q'.requests = updateLast t LockRequest.grant q.requests) :
      Puts q ⟨t, w.call.mode, true⟩ q' := .last LockRequest.grant h.nodup hown (fun _ => rfl) hq'
  obtain ⟨c, id⟩ := w
  cases c with
  | sharedOnGap fd ix g => exact ⟨hput _ rfl, rfl⟩
  | exclusiveOnGap fd ix g => exact ⟨hput _ rfl, rfl⟩
  | safeInGap fd ix key => cases hcall
  | sharedOnRecord fd rid => exact ⟨hput _ rfl, rfl⟩
  | exclusiveOnRecord fd rid => cases hc
  | sharedOnTable fd => exact ⟨hput _ rfl, rfl⟩
  | exclusiveOnTable fd => exact ⟨hput _ rfl, rfl⟩
  | isOnTable fd => cases hc
  | ixOnTable fd => cases hc

omit [GapData Ix V] in
theorem Call.plain_mode {c : Call Ix V} (hc : c.plain) : c.mode = .shared ∨ c.mode = .exclusive := by
  cases c <;> simp_all [Call.plain, Call.mode]

theorem Plain.granted {wt' : TxnId → Option (Wait Ix V)}
    (h : Plain wt w.call.id q) (hw : wt t = some w) (hc : w.call.plain) (hcall : w.call.inserts = false)
    (hready : ∀ r ∈ q.requests, r.txn ≠ t → r.granted → w.call.mode = .shared ∧ r.mode ≠ .exclusive) (hwt : wt' t = none)
    (hwt' : ∀ u, u ≠ t → wt' u = wt u) : Plain wt' w.call.id (granted t w.call q) := by
  obtain ⟨hput, holdest⟩ := granted_puts h hw hc hcall
  obtain ⟨hne, hx⟩ := granted_group (t := t) hcall q
  refine h.puts hput (Call.plain_mode hc) hwt' (by simp) ?_ (fun hnon => absurd hnon hne) ?_ ?_
  · intro w' hw'
    simp [hwt] at hw'
  · intro hgroup
    exact ⟨fun _ hmode => hgroup (hx hmode), .inr fun r hr hrt hg => (hready r hr hrt hg).2⟩
  · rw [holdest]
    have hown : q.oldest ≤ t := h.oldest _ (h.waiter t w hw hcall rfl)
    exact ⟨hown, fun r hr _ => h.oldest r hr⟩

/-! ## What the calls leave of the invariant -/

section

variable {wt wt' : TxnId → Option (Wait Ix V)} {id : LockDataId Ix} {q q' : LockRequestQueue} {t : TxnId} {m : LockMode}

theorem Plain.congr (h : Plain wt id q) (hwt : ∀ u, u ≠ t → wt' u = wt u) (hgranted : ∀ r ∈ q.requests, r.txn = t → r.granted)
    (hwt' : ∀ w, wt' t = some w → w.call.inserts = false → w.call.id ≠ id) : Plain wt' id q where
  modes := h.modes
  nodup := h.nodup
  waits r hr hng := by
    have hrt : r.txn ≠ t := fun hrt => by simp [hgranted r hr hrt] at hng
    rw [hwt _ hrt]
    exact h.waits r hr hng
  waiter u w hw hcall hid := by
    have hut : u ≠ t := fun hut => hwt' w (hut ▸ hw) hcall hid
    exact h.waiter u w (hwt u hut ▸ hw) hcall hid
  held := h.held
  exclusive := h.exclusive
  oldest := h.oldest

theorem Plain.of_upgrade (h : Plain wt id q) (hw : wt t = none) (hv : (Verdict.upgrade q' : Verdict Ix).Moves t m q) :
    Plain wt id q' := by
  obtain ⟨_, hmem, hput, hgroup, holdest⟩ := hv
  refine h.puts hput (.inr rfl) (fun _ _ => rfl) (by simp) (fun w hw' => by simp [hw] at hw') (by simp [hgroup])
    (fun hx => absurd hgroup hx) ?_
  obtain ⟨r, hr, rfl⟩ := mem_map.1 hmem
  rw [holdest]
  exact ⟨h.oldest r hr, fun r hr _ => h.oldest r hr⟩

theorem Plain.of_grant (h : Plain wt id q) (hw : wt t = none) (hv : (Verdict.grant q' : Verdict Ix).Moves t m q) :
    Plain wt id q' := by
  obtain ⟨_, hput, hgroup, hm, ht, holdest⟩ := hv
  refine h.puts hput (hm.imp And.left And.left) (fun _ _ => rfl) (by simp) (fun w hw' => by simp [hw] at hw') ?_ ?_
    ⟨ht, fun r hr _ => holdest r hr⟩
  · intro hnon
    rcases hm with ⟨rfl, _⟩ | ⟨rfl, _⟩ <;> simp [hgroup, LockMode.group] at hnon
  · intro hx
    rcases hm with ⟨rfl, hfree⟩ | ⟨rfl, _⟩
    · exact ⟨fun _ => by simp, .inl hfree⟩
    · exact absurd hgroup hx

theorem Plain.of_wait (h : Plain wt id q) {w : Wait Ix V} (hwt : ∀ u, u ≠ t → wt' u = wt u) (hw : wt' t = some w)
    (hcall : w.call.inserts = false) (hid : w.call.id = id) (hv : (Verdict.wait q' : Verdict Ix).Moves t w.call.mode q) :
    Plain wt' id q' := by
  obtain ⟨hm, hput, hgroup, holdest, hage⟩ := hv
  refine h.puts hput (hm.imp_left And.left) hwt (fun _ => ⟨w, hw, hcall, hid, rfl⟩) ?_ ?_ ?_ ?_
  · intro w' hw' _ _
    rw [hw] at hw'
    cases hw'
    rfl
  · exact fun hnon => ⟨hgroup ▸ hnon, rfl⟩
  · exact fun hx => ⟨by simp, .inl (hgroup ▸ hx)⟩
  · rw [holdest]
    exact ⟨le_rfl, fun r hr _ => hage r hr⟩

end

variable [DecidableEq Ix]

/-! ## All queues of a kind -/

namespace LockManager

structure PlainOn (P : LockDataId Ix → Prop) (s : LockManager Ix V) : Prop where
  plain : ∀ id, P id → Plain s.waiting id (s.table.queue id)
  calls : ∀ t w, s.waiting t = some w → w.call.inserts = false → P w.call.id → w.call.plain

variable {P : LockDataId Ix → Prop} {s s' : LockManager Ix V} {t : TxnId}

theorem PlainOn.setState (h : PlainOn P s) (t : TxnId) (st : TransactionState) : PlainOn P (s.setState t st) := ⟨h.plain, h.calls⟩

theorem plainOn_init (P : LockDataId Ix → Prop) : PlainOn P ({} : LockManager Ix V) := ⟨fun _ _ => plain_empty nofun, nofun⟩

theorem PlainOn.mono {Q : LockDataId Ix → Prop} (h : PlainOn P s) (hQ : ∀ id, Q id → P id) : PlainOn Q s where
  plain id hid := h.plain id (hQ id hid)
  calls t w hw hcall hid := h.calls t w hw hcall (hQ _ hid)

/-- Nothing but the queue of `id` changes, and only `t` may begin or stop to wait. -/
theorem PlainOn.store (h : PlainOn P s) (id : LockDataId Ix) (hqueue : ∀ id', id' ≠ id → s'.table.queue id' = s.table.queue id')
    (hwt : ∀ u, u ≠ t → s'.waiting u = s.waiting u)
    (hbefore : ∀ w, s.waiting t = some w → w.call.inserts = false → w.call.id = id)
    (hafter : ∀ w, s'.waiting t = some w → w.call.inserts = false → w.call.id = id ∧ (P id → w.call.plain))
    (hself : P id → Plain s'.waiting id (s'.table.queue id)) : PlainOn P s' where
  plain id' hP := by
    by_cases hid : id' = id
    · subst hid
      exact hself hP
    · rw [hqueue id' hid]
      refine (h.plain id' hP).congr hwt ?_ fun w hw hcall hid' => hid (hid'.symm.trans (hafter w hw hcall).1)
      intro r hr hrt
      by_contra hng
      obtain ⟨w, hw, hcall, hid', _⟩ := (h.plain id' hP).waits r hr (by simpa using hng)
      exact hid (hid'.symm.trans (hbefore w (hrt ▸ hw) hcall))
  calls u w hw hcall hP := by
    by_cases hu : u = t
    · subst hu
      obtain ⟨hid, hplain⟩ := hafter w hw hcall
      exact hplain (hid ▸ hP)
    · exact h.calls u w (hwt u hu ▸ hw) hcall hP

variable {w : Wait Ix V}

theorem PlainOn.grantNow (h : PlainOn P s) (hw : s.waiting t = some w) (hcall : w.call.inserts = false)
    (hready : P w.call.id → ∀ r ∈ (s.table.queue w.call.id).requests, r.txn ≠ t → r.granted →
      w.call.mode = .shared ∧ r.mode ≠ .exclusive) :
    PlainOn P ((s.setWaiting t none).grantNow t w.call).2 := by
  have hnone : ((s.setWaiting t none).grantNow t w.call).2.waiting t = none := setWaiting_waiting_self s t none
  refine h.store (t := t) _ (fun id' hid => LockTable.queue_store_ne _ hid _ _) (fun u hu => setWaiting_waiting_ne s hu none) ?_ ?_ ?_
  · intro w' hw' _
    rw [hw] at hw'
    cases hw'
    rfl
  · intro w' hw'
    rw [hnone] at hw'
    cases hw'
  · intro hP
    rw [queue_grantNow, setWaiting_table]
    exact (h.plain _ hP).granted hw (h.calls t w hw hcall hP) hcall (hready hP) hnone
      fun u hu => setWaiting_waiting_ne s hu none

theorem PlainOn.stopWaiting (h : PlainOn P s) (hw : s.waiting t = some w) (hcall : w.call.inserts) :
    PlainOn P (s.setWaiting t none) where
  plain id hP := by
    refine (h.plain id hP).congr (t := t) (fun u hu => setWaiting_waiting_ne s hu none) ?_ ?_
    · intro r hr hrt
      by_contra hng
      obtain ⟨w', hw', hcall', _⟩ := (h.plain id hP).waits r hr (by simpa using hng)
      rw [hrt, hw] at hw'
      cases hw'
      simp [hcall] at hcall'
    · intro w' hw'
      rw [setWaiting_waiting_self] at hw'
      cases hw'
  calls u w' hw' := by
    by_cases hu : u = t
    · rw [hu, setWaiting_waiting_self] at hw'
      cases hw'
    · rw [setWaiting_waiting_ne s hu] at hw'
      exact h.calls u w' hw'

theorem PlainOn.removeRequests (h : PlainOn P s) (hw : s.waiting t = none) (id : LockDataId Ix) :
    PlainOn P (s.removeRequests t id) := by
  refine h.store (t := t) id ?_ (fun u _ => by rw [removeRequests_waiting]) ?_ ?_ fun hP => ?_
  · intro id' hid
    rw [LockTable.queue, removeRequests_lookup_ne s t hid, ← LockTable.queue]
  · intro w hw'
    rw [hw] at hw'
    cases hw'
  · intro w hw'
    rw [removeRequests_waiting, hw] at hw'
    cases hw'
  · have hplain := h.plain id hP
    rw [removeRequests_waiting]
    cases hlook : (s.removeRequests t id).table.lookup id with
    | none =>
      rw [LockTable.queue_of_none hlook]
      refine plain_empty fun u w hwu hcall hid => ?_
      have hmem := hplain.waiter u w hwu hcall hid
      have hrest : u ∈ ((s.removeRequests t id).table.queue id).txns := by
        rw [removeRequests_queue_txns]
        refine mem_filter.2 ⟨mem_map.2 ⟨_, hmem, rfl⟩, ?_⟩
        have hut : u ≠ t := fun hut => by simp [hut, hw] at hwu
        simpa using hut
      rw [LockTable.queue_of_none hlook] at hrest
      simp at hrest
    | some e' =>
      rw [LockTable.queue_of_lookup hlook]
      obtain ⟨e, he, _, ⟨_, hq⟩ | ⟨_, hq, _⟩⟩ := removeRequests_lookup s t hlook
      · rw [hq, ← LockTable.queue_of_lookup he]
        exact hplain
      · rw [hq, ← LockTable.queue_of_lookup he]
        exact hplain.release hw

end LockManager

variable [Index.IxCmp V]

variable {T : LockTable Ix V}

theorem verdict_moves (st : TransactionState) {c : Call Ix V} (hc : c.plain)
    (h : Plain wt c.id (T.queue c.id)) (hw : wt t = none) : (verdict T st t c).Moves t c.mode (T.queue c.id) := by
  have hans := verdict_answer T st t c
  generalize verdict T st t c = v at hans ⊢
  cases hans with
  | quiet v hv => rcases hv with rfl | rfl | rfl <;> trivial
  | waitOn id => trivial
  | held hown => exact hown
  | grant g n k _ hown hgroup => exact h.addGranted hown (Call.plain_mode hc) hgroup n k
  | insert fd ix key hcall hlook =>
    rw [LockTable.queue_of_none hlook, hcall]
    exact ⟨by simp, Puts.append (q := {}) nodup_nil rfl rfl, rfl, .inr ⟨rfl, rfl⟩, le_rfl, by simp⟩
  | raise r m n k hown hraise =>
    obtain ⟨rfl, hm⟩ : m = .exclusive ∧ c.mode = .exclusive := by
      cases c <;> first | exact ⟨hraise.1.1, rfl⟩ | exact hraise.elim | cases hc
    rw [hm]
    exact h.upgrade hw hown n k
  | wait _ hown hage =>
    refine h.addWaiting hown (Call.plain_mode hc) fun r hr => ?_
    rcases hage with hlook | hage
    · simp [LockTable.queue_of_none hlook] at hr
    · exact hage.trans (h.oldest r hr)
  | beside r _ hcall => cases c <;> first | exact hcall.elim | cases hc
  | lower r hown hcall hage =>
    have hm : c.mode = .exclusive := by cases c <;> first | rfl | exact hcall.elim
    rw [hm]
    exact h.waitUpgrade hown hage

theorem ready_queue {c : Call Ix V} (hc : c.plain) (hready : ready T t c) :
    ∀ r ∈ (T.queue c.id).requests, r.txn ≠ t → r.granted → c.mode = .shared ∧ r.mode ≠ .exclusive := by
  intro r hr hne hg
  cases c with
  | sharedOnGap fd ix g => exact ⟨rfl, noExclusive_iff.1 (Bool.and_eq_true_iff.1 hready).1 r hr hne hg⟩
  | exclusiveOnGap fd ix g => simp [noGranted_iff.1 (Bool.and_eq_true_iff.1 hready).1 r hr hne] at hg
  | safeInGap fd ix key => cases hready
  | sharedOnRecord fd rid => exact ⟨rfl, noExclusive_iff.1 hready r hr hne hg⟩
  | exclusiveOnRecord fd rid => cases hc
  | sharedOnTable fd => exact ⟨rfl, noExclusive_iff.1 hready r hr hne hg⟩
  | exclusiveOnTable fd => simp [noGranted_iff.1 hready r hr hne] at hg
  | isOnTable fd => cases hc
  | ixOnTable fd => cases hc

namespace LockManager

variable {P : LockDataId Ix → Prop} {s s' : LockManager Ix V} {t : TxnId} {c : Call Ix V} {r : Reply}

omit [Index.IxCmp V] in
theorem queue_store_self (s : LockManager Ix V) (c : Call Ix V) (q : LockRequestQueue) : (s.store c q).table.queue c.id = q :=
  LockTable.queue_store_self _ _ _ _

omit [Index.IxCmp V] in
theorem queue_store_ne (s : LockManager Ix V) (c : Call Ix V) (q : LockRequestQueue) {id : LockDataId Ix} (h : id ≠ c.id) :
    (s.store c q).table.queue id = s.table.queue id := LockTable.queue_store_ne _ h _ _

theorem PlainOn.block (h : PlainOn P s) (hc : P c.id → c.plain) (hw : s.waiting t = none) {q : LockRequestQueue}
    (hv : verdict s.table (s.txns t).state t c = .wait q) : PlainOn P ((s.store c q).setWaiting t (some ⟨c, c.id⟩)) := by
  refine h.store (t := t) _ (fun _ => queue_store_ne s c q) (fun u hu => setWaiting_waiting_ne _ hu _) ?_ ?_ fun hP => ?_
  · intro w hw'
    simp [hw] at hw'
  · intro w hw' _
    rw [setWaiting_waiting_self] at hw'
    cases hw'
    exact ⟨rfl, hc⟩
  · have hm := verdict_moves (s.txns t).state (hc hP) (h.plain c.id hP) hw
    rw [hv] at hm
    rw [setWaiting_table, queue_store_self]
    exact (h.plain c.id hP).of_wait (w := ⟨c, c.id⟩) (fun u hu => setWaiting_waiting_ne (s.store c q) hu _)
      (setWaiting_waiting_self (s.store c q) t _) (inserts_of_wait hv) rfl hm

theorem PlainOn.acquired (h : PlainOn P s) (hc : P c.id → c.plain) (hw : s.waiting t = none) (hacq : Acquired s t c r s') :
    PlainOn P s' := by
  have hmoves (hP : P c.id) := verdict_moves (s.txns t).state (hc hP) (h.plain c.id hP) hw
  have hbefore (id : LockDataId Ix) (w : Wait Ix V) (hw' : s.waiting t = some w) (_ : w.call.inserts = false) : w.call.id = id := by
    rw [hw] at hw'
    cases hw'
  cases hacq with
  | refuse => exact h
  | returnFalse => exact h
  | held hv => exact ⟨h.plain, h.calls⟩
  | upgrade q hv =>
    refine h.store (t := t) _ (fun _ => queue_store_ne s c q) (fun _ _ => rfl) (hbefore c.id) (fun w hw' => ?_) fun hP => ?_
    · change s.waiting t = some w at hw'
      simp [hw] at hw'
    · have hm := hmoves hP
      rw [hv] at hm
      rw [tell_table, queue_store_self]
      exact (h.plain c.id hP).of_upgrade hw hm
  | grant q hv =>
    refine h.store (t := t) _ (fun _ => queue_store_ne s c q) (fun _ _ => rfl) (hbefore c.id) (fun w hw' => ?_) fun hP => ?_
    · change s.waiting t = some w at hw'
      simp [hw] at hw'
    · have hm := hmoves hP
      rw [hv] at hm
      rw [tell_table, addLock_table, queue_store_self]
      exact (h.plain c.id hP).of_grant hw hm
  | pass q hv hready =>
    have hnow := (h.block hc hw hv).grantNow (t := t) (setWaiting_waiting_self _ t _) (inserts_of_wait hv)
      fun hP => ready_queue (T := (s.store c q).table) (hc hP) hready
    rwa [setWaiting_undo (s := s.store c q) hw] at hnow
  | block q hv _ => exact h.block hc hw hv
  | blockOn id hv =>
    have hinserts := inserts_of_waitOn hv
    have hafter (w : Wait Ix V) (hw' : (s.setWaiting t (some ⟨c, id⟩)).waiting t = some w) : w.call.inserts := by
      rw [setWaiting_waiting_self] at hw'
      cases hw'
      exact hinserts
    refine h.store (t := t) _ (fun _ _ => rfl) (fun u hu => setWaiting_waiting_ne s hu _) (hbefore c.id) ?_ fun hP => ?_
    · intro w hw' hcall
      simp [hafter w hw'] at hcall
    · refine (h.plain c.id hP).congr (t := t) (fun u hu => setWaiting_waiting_ne s hu _) ?_ ?_
      · exact fun r hr hrt => (h.plain c.id hP).granted_of_own hr (hrt ▸ hw)
      · intro w hw' hcall
        simp [hafter w hw'] at hcall

/-- What each step keeps, where the calls on these objects are for shared and exclusive locks. -/
theorem PlainOn.stepped {a : Step Ix V} (h : PlainOn P s) (hc : ∀ t c, a = .call t c → P c.id → c.plain)
    (hstep : Stepped s a r s') : PlainOn P s' := by
  cases hstep with
  | refused => exact h
  | call t c st r s' hw _ hacq => exact (h.setState t st).acquired (hc t c rfl) hw hacq
  | wake t w hw hcall hready =>
    exact h.grantNow hw hcall fun hP => ready_queue (h.calls t w hw hcall hP) hready
  | wakeInsert t w r s' hw hcall hacq =>
    exact (h.stopWaiting hw hcall).acquired (fun _ => Call.plain_of_inserts hcall) (setWaiting_waiting_self s t none) hacq
  | unlockEnded => exact h
  | unlock t id st hw => exact (h.setState t st).removeRequests hw id
  | finish => exact ⟨h.plain, h.calls⟩
  | rehash T hperm =>
    refine ⟨fun id hP => ?_, h.calls⟩
    change Plain s.waiting id (T.queue id)
    rw [LockTable.queue_of_perm hperm]
    exact h.plain id hP

end LockManager

end Rmdb.Lock
