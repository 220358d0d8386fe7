/-
Gap locks exclude conflicting access.

A request that passes the overlap test has no conflicting lock on any gap that
shares a key with its own, and neither has a request that was blocked and wakes.
But two paths skip the test, both for a gap that has a queue already: a shared
request is granted whenever the group mode of that queue is not `X`, and an
exclusive one whenever it is `NON_LOCK`.
-/
import Rmdb.Transaction.LockQueue

namespace Rmdb.Lock

open Run

variable {Ix V : Type} [DecidableEq Ix]

def LockDataId.isGap : LockDataId Ix → Bool
  | .gap .. => true
  | _ => false

omit [DecidableEq Ix] in
theorem Call.plain_of_isGap [GapData Ix V] {c : Call Ix V} (h : c.id.isGap) : c.plain := by
  cases c <;> first | rfl | cases h

theorem LockDataId.isGap_of_onIndex {ix : Ix} {id : LockDataId Ix} (h : id.onIndex ix) : id.isGap := by
  cases id <;> first | rfl | cases h

theorem LockDataId.index_eq {fd : Nat} {ix ix' : Ix} {h : UInt64} (hix : (LockDataId.gap fd ix' h).onIndex ix) :
    ix' = ix := by simpa [onIndex] using hix

namespace LockManager

variable [GapData Ix V]

/-! ## Blocked calls -/

section

variable {s : LockManager Ix V} {t : TxnId}

def OwnGap (s : LockManager Ix V) : Prop :=
  ∀ t w, s.waiting t = some w → w.call.inserts = false → w.call.id.isGap →
    ∃ e, s.table.lookup w.call.id = some e ∧ e.gap = w.call.gap

theorem lookup_store_keeps (c : Call Ix V) (q : LockRequestQueue) {id : LockDataId Ix} {e : Entry V}
    (he : s.table.lookup id = some e) : ∃ e', (s.store c q).table.lookup id = some e' ∧ e'.gap = e.gap := by
  by_cases hid : id = c.id
  · subst hid
    exact ⟨_, LockTable.lookup_store_self _ _ _ _, by simp [he]⟩
  · exact ⟨e, (LockTable.lookup_store_ne _ hid _ _).trans he, rfl⟩

theorem OwnGap.store (h : OwnGap s) (c : Call Ix V) (q : LockRequestQueue) : OwnGap (s.store c q) := by
  intro u w hw hcall hid
  obtain ⟨e, he, hgap⟩ := h u w hw hcall hid
  obtain ⟨e', he', hgap'⟩ := lookup_store_keeps c q he
  exact ⟨e', he', hgap'.trans hgap⟩

theorem OwnGap.setWaiting (h : OwnGap s) {w : Option (Wait Ix V)}
    (hgap : ∀ w', w = some w' → w'.call.inserts = false → w'.call.id.isGap →
      ∃ e, s.table.lookup w'.call.id = some e ∧ e.gap = w'.call.gap) : OwnGap (s.setWaiting t w) := by
  intro u w' hw' hcall hid
  by_cases hu : u = t
  · rw [hu, setWaiting_waiting_self] at hw'
    exact hgap w' hw' hcall hid
  · rw [setWaiting_waiting_ne s hu] at hw'
    exact h u w' hw' hcall hid

theorem OwnGap.removeRequests (h : OwnGap s) (hplain : PlainOn (fun id => id.isGap) s) (hw : s.waiting t = none)
    (id : LockDataId Ix) : OwnGap (s.removeRequests t id) := by
  intro u w hwu hcall hid
  rw [removeRequests_waiting] at hwu
  obtain ⟨e, he, hgap⟩ := h u w hwu hcall hid
  have hplain' := (hplain.removeRequests hw id).plain w.call.id hid
  have hmem := hplain'.waiter u w (by rw [removeRequests_waiting]; exact hwu) hcall rfl
  cases hlook : (s.removeRequests t id).table.lookup w.call.id with
  | none => simp [LockTable.queue_of_none hlook] at hmem
  | some e' =>
    obtain ⟨e₀, he₀, hgap₀, _⟩ := removeRequests_entry hlook
    rw [he] at he₀
    cases he₀
    exact ⟨e', rfl, hgap₀.trans hgap⟩

end

end LockManager

variable [Index.IxOrder V]

namespace LockManager

/-- Another transaction has a granted lock of a mode that does not go with
`m`, on a gap of the index that shares a key with `g`. -/
def Conflicts (s : LockManager Ix V) (t : TxnId) (ix : Ix) (g : Gap V) (m : LockMode) : Prop :=
  ∃ id e, s.table.lookup id = some e ∧ id.onIndex ix ∧ ∃ r ∈ e.queue.requests, r.granted ∧ r.txn ≠ t ∧
    (m = .exclusive ∨ r.mode = .exclusive) ∧ ∃ k, g.isInGap k ∧ e.gap.isInGap k

/-- No two transactions hold conflicting locks on gaps that share a key. -/
def GapSafe (s : LockManager Ix V) : Prop :=
  ∀ ix id₁ id₂ e₁ e₂, s.table.lookup id₁ = some e₁ → s.table.lookup id₂ = some e₂ → id₁.onIndex ix → id₂.onIndex ix →
    ∀ r₁ ∈ e₁.queue.requests, ∀ r₂ ∈ e₂.queue.requests, r₁.granted → r₂.granted → r₁.txn ≠ r₂.txn →
      r₁.mode = .exclusive → ¬∃ k, e₁.gap.isInGap k ∧ e₂.gap.isInGap k

variable [GapData Ix V]

variable {g : Gap V} {m : LockMode}

theorem not_conflicts_of_blocker (h : PlainOn (fun id => id.isGap) s) {ix : Ix}
    (hm : m = .shared ∨ m = .exclusive) (hnone : s.table.blocker? m t ix g = none) :
    ¬s.Conflicts t ix g m := by
  rintro ⟨id, e, he, hix, r, hr, hg, hrt, hmode, k, hk, hk'⟩
  have hplain : Plain s.waiting id e.queue := by
    rw [← LockTable.queue_of_lookup he]
    exact h.plain id (LockDataId.isGap_of_onIndex hix)
  have hmem : (⟨id, e⟩ : Σ _ : LockDataId Ix, Entry V) ∈ s.table.gaps ix :=
    List.mem_filter.2 ⟨AList.mem_lookup_iff.1 he, hix⟩
  have hheld : e.heldByOther t := List.any_eq_true.2 ⟨r, hr, by simp [hrt, hg]⟩
  have hblocks : e.blocks m t g := by
    rw [Entry.blocks, Gap.isCoincide_of_isInGap hk hk', hheld]
    rcases hm with rfl | rfl
    · have hx : r.mode = .exclusive := by simpa using hmode
      simp [hplain.exclusive r hr hg hx]
    · simp [hplain.held r hr hg]
  rw [LockTable.blocker?, Option.map_eq_none_iff, List.find?_eq_none] at hnone
  exact hnone _ hmem hblocks

variable {s' : LockManager Ix V} {c : Call Ix V} {b : Bool}

/-- A request of `t` is put into the queue of its gap; if it is granted, nothing conflicts with it. -/
theorem GapSafe.put (h : GapSafe s)
    {q' : LockRequestQueue} (hne : ∀ id, id ≠ c.id → s'.table.lookup id = s.table.lookup id)
    (hself : s'.table.lookup c.id = some ⟨c.gap, q'⟩) (hgap : ∀ e, s.table.lookup c.id = some e → e.gap = c.gap)
    (hput : Puts (s.table.queue c.id) ⟨t, m, b⟩ q') (hclear : b → ∀ ix, c.id.onIndex ix → ¬s.Conflicts t ix c.gap m) :
    GapSafe s' := by
  -- a granted request was there, or is the one that was put
  have hold (id : LockDataId Ix) (e' : Entry V) (he' : s'.table.lookup id = some e') (r : LockRequest)
      (hr : r ∈ e'.queue.requests) (hg : r.granted) :
      (∃ e, s.table.lookup id = some e ∧ e.gap = e'.gap ∧ r ∈ e.queue.requests) ∨
        (id = c.id ∧ e'.gap = c.gap ∧ r.txn = t ∧ r.mode = m ∧ b) := by
    by_cases hid : id = c.id
    · subst hid
      rw [hself] at he'
      cases he'
      rcases (hput.mem r).1 hr with ⟨hr, _⟩ | rfl
      · left
        cases hlook : s.table.lookup c.id with
        | none => simp [LockTable.queue_of_none hlook] at hr
        | some e =>
          rw [LockTable.queue_of_lookup hlook] at hr
          exact ⟨e, rfl, hgap e hlook, hr⟩
      · exact .inr ⟨rfl, rfl, rfl, rfl, hg⟩
    · rw [hne id hid] at he'
      exact .inl ⟨e', he', rfl, hr⟩
  intro ix id₁ id₂ e₁ e₂ he₁ he₂ hix₁ hix₂ r₁ hr₁ r₂ hr₂ hg₁ hg₂ hne₁₂ hmode ⟨k, hk₁, hk₂⟩
  rcases hold id₁ e₁ he₁ r₁ hr₁ hg₁ with ⟨e, he, hgap₁, hr⟩ | ⟨rfl, hgap₁, htxn, hm, hb⟩
  · rcases hold id₂ e₂ he₂ r₂ hr₂ hg₂ with ⟨e', he', hgap₂, hr'⟩ | ⟨rfl, hgap₂, htxn, hm, hb⟩
    · exact h ix id₁ id₂ e e' he he' hix₁ hix₂ r₁ hr r₂ hr' hg₁ hg₂ hne₁₂ hmode ⟨k, hgap₁ ▸ hk₁, hgap₂ ▸ hk₂⟩
    · exact hclear hb ix hix₂
        ⟨id₁, e, he, hix₁, r₁, hr, hg₁, fun h => hne₁₂ (h.trans htxn.symm), .inr hmode, k, hgap₂ ▸ hk₂, hgap₁ ▸ hk₁⟩
  · rcases hold id₂ e₂ he₂ r₂ hr₂ hg₂ with ⟨e', he', hgap₂, hr'⟩ | ⟨_, _, htxn', _⟩
    · exact hclear hb ix hix₁
        ⟨id₂, e', he', hix₂, r₂, hr', hg₂, fun h => hne₁₂ (htxn.trans h.symm), .inl (hm.symm.trans hmode), k, hgap₁ ▸ hk₁,
          hgap₂ ▸ hk₂⟩
    · exact hne₁₂ (htxn.trans htxn'.symm)

/-! ## The condition -/

/-- The two paths without an overlap test are taken only where nothing
conflicts, two gaps with one hash are one gap, and `isSafeInGap` reads the key
it was given. -/
def GapSound (s : LockManager Ix V) (t : TxnId) (c : Call Ix V) : Prop :=
  match c with
  | .sharedOnGap _ ix g => ∀ e, s.table.lookup c.id = some e →
      e.gap = g ∧ (e.queue.own t = none → e.queue.group ≠ .x → ¬s.Conflicts t ix g .shared)
  | .exclusiveOnGap _ ix g => ∀ e, s.table.lookup c.id = some e →
      e.gap = g ∧ (e.queue.own t = none → e.queue.group = .nonLock → ¬s.Conflicts t ix g .exclusive)
  | .safeInGap _ ix key => GapData.columnsOf ix key = key
  | _ => True

def GapStep (s : LockManager Ix V) : Step Ix V → Prop
  | .call t c => GapSound s t c
  | _ => True

variable {s : LockManager Ix V} {t : TxnId}

variable {fd : Nat} {q : LockRequestQueue}

/-- `isSafeInGap` makes its queue only where no other transaction holds a gap with the key. -/
theorem not_conflicts_of_find {ix : Ix} {key : List V} (hsound : GapSound s t (.safeInGap fd ix key))
    (hfind : ((s.table.gaps ix).find? fun e => e.2.gap.isInGap key && e.2.heldByOther t) = none) :
    ¬s.Conflicts t ix (Call.safeInGap fd ix key : Call Ix V).gap .exclusive := by
  intro ⟨id, e, he, hix, r, hr, hg, hrt, _, k, hk, hk'⟩
  have hkey : k = key := by
    rw [Call.gap, hsound] at hk
    exact Gap.isInGap_ofKey.1 hk
  subst hkey
  have hmem : (⟨id, e⟩ : Σ _ : LockDataId Ix, Entry V) ∈ s.table.gaps ix :=
    List.mem_filter.2 ⟨AList.mem_lookup_iff.1 he, hix⟩
  have hheld : e.heldByOther t := List.any_eq_true.2 ⟨r, hr, by simp [hrt, hg]⟩
  exact List.find?_eq_none.1 hfind _ hmem (by simp [hk', hheld])

theorem verdict_clear (h : PlainOn (fun id => id.isGap) s) (hsound : GapSound s t c)
    (hv : verdict s.table st t c = .grant q ∨ verdict s.table st t c = .upgrade q) {ix : Ix}
    (hix : c.id.onIndex ix) : ¬s.Conflicts t ix c.gap c.mode := by
  have hans := verdict_answer s.table st t c
  generalize verdict s.table st t c = v at hans hv
  cases hans with
  | grant g n k hcall hown hgroup _ _ hfree =>
    cases hlook : s.table.lookup c.id with
    | none =>
      have hfree := hfree hlook
      cases c with
      | sharedOnGap fd ix' g =>
        obtain rfl := LockDataId.index_eq hix
        exact not_conflicts_of_blocker h (.inl rfl) hfree
      | exclusiveOnGap fd ix' g =>
        obtain rfl := LockDataId.index_eq hix
        exact not_conflicts_of_blocker h (.inr rfl) hfree
      | safeInGap => cases hcall
      | _ => cases hix
    | some e =>
      rw [LockTable.queue_of_lookup hlook] at hown hgroup
      cases c with
      | sharedOnGap fd ix' g =>
        obtain rfl := LockDataId.index_eq hix
        exact (hsound e hlook).2 hown (hgroup.2.1 rfl).1
      | exclusiveOnGap fd ix' g =>
        obtain rfl := LockDataId.index_eq hix
        exact (hsound e hlook).2 hown (hgroup.2.2 rfl).1
      | safeInGap => cases hcall
      | _ => cases hix
  | insert fd ix' key hcall _ hfind =>
    subst hcall
    obtain rfl := LockDataId.index_eq hix
    exact not_conflicts_of_find hsound hfind
  | raise r m n k _ hraise =>
    cases c with
    | exclusiveOnGap fd ix' g =>
      obtain rfl := LockDataId.index_eq hix
      exact not_conflicts_of_blocker h (.inr rfl) hraise.2.2.2.2
    | _ => first | exact hraise.elim | cases hix
  | quiet v hv' => rcases hv' with rfl | rfl | rfl <;> simp at hv
  | _ => simp at hv

theorem ready_clear (h : PlainOn (fun id => id.isGap) s) (hready : ready s.table t c) {ix : Ix}
    (hix : c.id.onIndex ix) : ¬s.Conflicts t ix c.gap c.mode := by
  cases c with
  | sharedOnGap fd ix' g =>
    obtain rfl := LockDataId.index_eq hix
    exact not_conflicts_of_blocker h (.inl rfl) (Option.isNone_iff_eq_none.1 (Bool.and_eq_true_iff.1 hready).2)
  | exclusiveOnGap fd ix' g =>
    obtain rfl := LockDataId.index_eq hix
    exact not_conflicts_of_blocker h (.inr rfl) (Option.isNone_iff_eq_none.1 (Bool.and_eq_true_iff.1 hready).2)
  | safeInGap => cases hready
  | _ => cases hix

/-! ## The invariant -/

structure GapInv (s : LockManager Ix V) : Prop where
  safe : GapSafe s
  waits : OwnGap s
  keys : ∀ t w, s.waiting t = some w → w.call.inserts → ∀ s', GapSound s' t w.call

omit [GapData Ix V] in
theorem GapSafe.congr (h : GapSafe s)
    (hlook : ∀ id, id.isGap → s'.table.lookup id = s.table.lookup id) : GapSafe s' := by
  intro ix id₁ id₂ e₁ e₂ he₁ he₂ hix₁ hix₂
  rw [hlook _ (LockDataId.isGap_of_onIndex hix₁)] at he₁
  rw [hlook _ (LockDataId.isGap_of_onIndex hix₂)] at he₂
  exact h ix id₁ id₂ e₁ e₂ he₁ he₂ hix₁ hix₂

omit [Index.IxOrder V] in
/-- Where the gaps that share a hash are one, a queue is stored under the gap of the call. -/
theorem lookup_store_of_gap (hgap : ∀ e, s.table.lookup c.id = some e → e.gap = c.gap) (q : LockRequestQueue) :
    (s.store c q).table.lookup c.id = some ⟨c.gap, q⟩ := by
  rw [store, LockTable.lookup_store_self]
  cases hlook : s.table.lookup c.id with
  | none => rfl
  | some e => simp [hgap e hlook]

theorem GapSafe.store (h : GapSafe s) (hgap : ∀ e, s.table.lookup c.id = some e → e.gap = c.gap)
    (hput : Puts (s.table.queue c.id) ⟨t, m, b⟩ q)
    (hclear : b → ∀ ix, c.id.onIndex ix → ¬s.Conflicts t ix c.gap m) : GapSafe (s.store c q) :=
  h.put (fun _ hid => LockTable.lookup_store_ne _ hid _ _) (lookup_store_of_gap hgap q) hgap hput hclear

theorem GapInv.setState (h : GapInv s) (t : TxnId) (st : TransactionState) : GapInv (s.setState t st) :=
  ⟨h.safe, h.waits, h.keys⟩

theorem gap_of_sound (hsound : GapSound s t c) (hid : c.id.isGap) (hcall : c.inserts = false) :
    ∀ e, s.table.lookup c.id = some e → e.gap = c.gap := by
  cases c with
  | sharedOnGap fd ix g => exact fun e he => (hsound e he).1
  | exclusiveOnGap fd ix g => exact fun e he => (hsound e he).1
  | safeInGap => cases hcall
  | _ => cases hid

/-- `isSafeInGap` is granted its lock only where the gap has no queue. -/
theorem gap_of_verdict (hsound : GapSound s t c) (hid : c.id.isGap)
    (hv : verdict s.table st t c = .grant q ∨ verdict s.table st t c = .upgrade q) :
    ∀ e, s.table.lookup c.id = some e → e.gap = c.gap := by
  have hans := verdict_answer s.table st t c
  generalize verdict s.table st t c = v at hans hv
  cases hans with
  | grant _ _ _ hcall => exact gap_of_sound hsound hid hcall
  | insert fd ix key _ hlook =>
    intro e he
    rw [hlook] at he
    cases he
  | raise r m n k _ hraise => exact gap_of_sound hsound hid (by cases c <;> first | rfl | exact hraise.elim)
  | quiet v hv' => rcases hv' with rfl | rfl | rfl <;> simp at hv
  | _ => simp at hv

theorem GapInv.store (h : GapInv s) (hput : c.id.isGap → Puts (s.table.queue c.id) ⟨t, m, b⟩ q)
    (hgap : c.id.isGap → ∀ e, s.table.lookup c.id = some e → e.gap = c.gap)
    (hclear : b → ∀ ix, c.id.onIndex ix → ¬s.Conflicts t ix c.gap m) : GapInv (s.store c q) where
  safe := by
    by_cases hid : c.id.isGap
    · exact h.safe.store (hgap hid) (hput hid) hclear
    · exact h.safe.congr fun id' hid' => LockTable.lookup_store_ne _ (show id' ≠ c.id from fun heq => hid (heq ▸ hid')) _ _
  waits := h.waits.store c q
  keys := h.keys

theorem GapInv.setWaiting (h : GapInv s) {w : Wait Ix V}
    (hgap : w.call.inserts = false → w.call.id.isGap → ∃ e, s.table.lookup w.call.id = some e ∧ e.gap = w.call.gap)
    (hkey : w.call.inserts → ∀ s', GapSound s' t w.call) : GapInv (s.setWaiting t (some w)) where
  safe := h.safe
  waits := by
    refine h.waits.setWaiting fun w' hw' => ?_
    cases hw'
    exact hgap
  keys u w' hw' hcall := by
    by_cases hu : u = t
    · rw [hu, setWaiting_waiting_self] at hw'
      cases hw'
      exact hu ▸ hkey hcall
    · rw [setWaiting_waiting_ne s hu] at hw'
      exact h.keys u w' hw' hcall

theorem GapInv.stopWaiting (h : GapInv s) (t : TxnId) : GapInv (s.setWaiting t none) where
  safe := h.safe
  waits := h.waits.setWaiting nofun
  keys u w hw := by
    by_cases hu : u = t
    · rw [hu, setWaiting_waiting_self] at hw
      cases hw
    · rw [setWaiting_waiting_ne s hu] at hw
      exact h.keys u w hw

theorem GapInv.grantNow (h : GapInv s) (hplain : PlainOn (fun id => id.isGap) s) {w : Wait Ix V} (hw : s.waiting t = some w)
    (hcall : w.call.inserts = false) (hready : ready s.table t w.call) :
    GapInv ((s.setWaiting t none).grantNow t w.call).2 := by
  have hstore : GapInv ((s.setWaiting t none).store w.call (granted t w.call (s.table.queue w.call.id))) := by
    refine (h.stopWaiting t).store (t := t) (m := w.call.mode) (b := true) ?_ ?_ ?_
    · intro hid
      exact (granted_puts (hplain.plain _ hid) hw (hplain.calls t w hw hcall hid) hcall).1
    · intro hid e he
      obtain ⟨e', he', hgap⟩ := h.waits t w hw hcall hid
      change s.table.lookup w.call.id = some e at he
      rw [he] at he'
      cases he'
      exact hgap
    · exact fun _ ix hix => ready_clear hplain hready hix
  exact ⟨hstore.safe, hstore.waits, hstore.keys⟩

theorem GapInv.block (h : GapInv s) (hplain : PlainOn (fun id => id.isGap) s) (hsound : GapSound s t c)
    (hw : s.waiting t = none) (hv : verdict s.table (s.txns t).state t c = .wait q) :
    GapInv ((s.store c q).setWaiting t (some ⟨c, c.id⟩)) := by
  have hcall := inserts_of_wait hv
  refine GapInv.setWaiting ?_ ?_ ?_
  · refine h.store (t := t) (m := c.mode) (b := false) ?_ (fun hid => gap_of_sound hsound hid hcall) (by simp)
    intro hid
    have hm := verdict_moves (s.txns t).state (Call.plain_of_isGap hid) (hplain.plain _ hid) hw
    rw [hv] at hm
    exact hm.2.1
  · exact fun _ hid => ⟨_, lookup_store_of_gap (gap_of_sound hsound hid hcall) q, rfl⟩
  · intro hins
    simp [hcall] at hins

theorem GapInv.acquired (h : GapInv s) (hplain : PlainOn (fun id => id.isGap) s)
    {r : Reply} (hsound : GapSound s t c) (hw : s.waiting t = none) (hacq : Acquired s t c r s') : GapInv s' := by
  have hmoves (hid : c.id.isGap) := verdict_moves (s.txns t).state (Call.plain_of_isGap hid) (hplain.plain _ hid) hw
  cases hacq with
  | refuse => exact h
  | returnFalse => exact h
  | held => exact ⟨h.safe, h.waits, h.keys⟩
  | upgrade q hv =>
    have hstore : GapInv (s.store c q) := by
      refine h.store (t := t) (m := .exclusive) (b := true) ?_ (fun hid => gap_of_verdict hsound hid (.inr hv)) ?_
      · intro hid
        have hm := hmoves hid
        rw [hv] at hm
        exact hm.2.2.1
      · intro _ ix hix
        have hm := hmoves (LockDataId.isGap_of_onIndex hix)
        rw [hv] at hm
        rw [← hm.1]
        exact verdict_clear hplain hsound (.inr hv) hix
    exact ⟨hstore.safe, hstore.waits, hstore.keys⟩
  | grant q hv =>
    have hstore : GapInv (s.store c q) := by
      refine h.store (t := t) (m := c.mode) (b := true) ?_ (fun hid => gap_of_verdict hsound hid (.inl hv)) ?_
      · intro hid
        have hm := hmoves hid
        rw [hv] at hm
        exact hm.2.1
      · exact fun _ ix hix => verdict_clear hplain hsound (.inl hv) hix
    exact ⟨hstore.safe, hstore.waits, hstore.keys⟩
  | pass q hv hready =>
    have hblocked := h.block hplain hsound hw hv
    have hplain' : PlainOn (fun id => id.isGap) ((s.store c q).setWaiting t (some ⟨c, c.id⟩)) :=
      hplain.block (fun hid => Call.plain_of_isGap hid) hw hv
    have hnow := hblocked.grantNow hplain' (setWaiting_waiting_self _ t _) (inserts_of_wait hv) hready
    rwa [setWaiting_undo (s := s.store c q) hw] at hnow
  | block q hv _ => exact h.block hplain hsound hw hv
  | blockOn id hv =>
    have hins := inserts_of_waitOn hv
    refine h.setWaiting (fun hcall => by simp [hins] at hcall) fun _ s' => ?_
    cases c with
    | safeInGap fd ix key => exact hsound
    | _ => cases hins

theorem GapInv.removeRequests (h : GapInv s) (hplain : PlainOn (fun id => id.isGap) s) (hw : s.waiting t = none)
    (id : LockDataId Ix) : GapInv (s.removeRequests t id) := by
  refine ⟨?_, ?_, ?_⟩
  · intro ix id₁ id₂ e₁' e₂' he₁ he₂ hix₁ hix₂ r₁ hr₁ r₂ hr₂ hg₁ hg₂ hne hmode
    obtain ⟨e₁, he₁, hgap₁, _, hmem₁⟩ := removeRequests_entry he₁
    obtain ⟨e₂, he₂, hgap₂, _, hmem₂⟩ := removeRequests_entry he₂
    rw [hgap₁, hgap₂]
    exact h.safe ix id₁ id₂ e₁ e₂ he₁ he₂ hix₁ hix₂ r₁ (hmem₁ r₁ hr₁) r₂ (hmem₂ r₂ hr₂) hg₁ hg₂ hne hmode
  · exact h.waits.removeRequests hplain hw id
  · intro u w hwu
    rw [removeRequests_waiting] at hwu
    exact h.keys u w hwu

theorem GapInv.stepped {a : Step Ix V} {r : Reply} (h : GapInv s)
    (hplain : PlainOn (fun id => id.isGap) s) (hC : GapStep s a) (hstep : Stepped s a r s') : GapInv s' := by
  cases hstep with
  | refused => exact h
  | call t c st r s' hw _ hacq =>
    refine (h.setState t st).acquired (hplain.setState t st) ?_ hw hacq
    cases c <;> exact hC
  | wake t w hw hcall hready => exact h.grantNow hplain hw hcall hready
  | wakeInsert t w r s' hw hcall hacq =>
    exact (h.stopWaiting t).acquired (hplain.stopWaiting hw hcall) (h.keys t w hw hcall _) (setWaiting_waiting_self s t none) hacq
  | unlockEnded => exact h
  | unlock t id st hw => exact (h.setState t st).removeRequests (hplain.setState t st) hw id
  | finish => exact ⟨h.safe, h.waits, h.keys⟩
  | rehash T hperm =>
    have hlook (id : LockDataId Ix) : T.lookup id = s.table.lookup id := AList.perm_lookup hperm
    exact ⟨h.safe.congr fun id _ => hlook id,
      fun u w hw hcall hid => (h.waits u w hw hcall hid).imp fun e he => ⟨(hlook _).trans he.1, he.2⟩, h.keys⟩

theorem gapInv_init : PlainOn (fun id => id.isGap) ({} : LockManager Ix V) ∧ GapInv ({} : LockManager Ix V) := by
  refine ⟨plainOn_init _, ⟨?_, nofun, nofun⟩⟩
  intro ix id₁ id₂ e₁ e₂ he₁
  cases he₁

/-- In every state of a run that meets the condition, no two transactions
hold gap locks, one of them exclusive, on gaps that share a key. -/
theorem run_gapSafe (steps : List (Step Ix V)) {h : List (Step Ix V × Reply)} {s : LockManager Ix V}
    (hC : Along step GapStep {} steps) (hrun : run step {} steps = some (h, s)) : GapSafe s := by
  have hinv : PlainOn (fun id => id.isGap) s ∧ GapInv s :=
    runFrom_invariant (R := fun _ s => PlainOn (fun id => id.isGap) s ∧ GapInv s) (fun _ s a b s' hs hC hstep =>
      ⟨hs.1.stepped (fun _ _ _ hid => Call.plain_of_isGap hid) (stepped hstep), hs.2.stepped hs.1 hC (stepped hstep)⟩)
      gapInv_init hC hrun
  exact hinv.2.safe

end LockManager

open LockManager

def gap37 : Gap Int := [{ left := some (.ge, 3), right := some (.le, 7) }]

def gap5 : Gap Int := .ofKey [5]

/-- A reader waits for a writer on another gap that shares the key 5. -/
theorem run_gapSafe_wait : ∃ (h : List (Step Unit Int × Reply)) (s : LockManager Unit Int),
    run step {} [.call 2 (.exclusiveOnGap 0 () gap5), .call 1 (.sharedOnGap 0 () gap37),
      .unlock 2 (Call.exclusiveOnGap 0 () gap5).id, .wake 1] = some (h, s) ∧ GapSafe s := by
  have hC : Along step GapStep ({} : LockManager Unit Int) [.call 2 (.exclusiveOnGap 0 () gap5),
      .call 1 (.sharedOnGap 0 () gap37), .unlock 2 (Call.exclusiveOnGap 0 () gap5).id, .wake 1] :=
    .cons nofun rfl (.cons nofun rfl (.cons trivial rfl (.cons trivial rfl trivial)))
  exact ⟨_, _, rfl, run_gapSafe _ hC rfl⟩

/-- Transaction 1 holds both gaps, the second one exclusively; the queue of
the first one is in mode `S`, so transaction 2 is let in beside the writer. -/
theorem reader_beside_writer : ∃ (h : List (Step Unit Int × Reply)) (s : LockManager Unit Int),
    run step {} [.call 1 (.sharedOnGap 0 () gap37), .call 1 (.exclusiveOnGap 0 () gap5),
      .call 2 (.sharedOnGap 0 () gap37)] = some (h, s) ∧ h.map Prod.snd = [.ret true, .ret true, .ret true] ∧ ¬GapSafe s := by
  refine ⟨_, _, rfl, rfl, fun hsafe => ?_⟩
  exact hsafe () (Call.exclusiveOnGap 0 () gap5).id (Call.sharedOnGap 0 () gap37).id _ _ rfl rfl rfl rfl
    ⟨1, .exclusive, true⟩ (by decide) ⟨2, .shared, true⟩ (by decide) rfl rfl (by decide) rfl ⟨[5], by decide, by decide⟩

end Rmdb.Lock
