/-
The lock that an `INSERT` takes on its key.

`InsertExecutor` lays the columns of an index out one after the other and calls
`isSafeInGap` with this buffer. The search for other locks reads it so, but the
gap that is locked is made of what is in the buffer where the columns are in the
record: the same for an index on the first columns of the table.
-/
import Rmdb.Execution.PlainScan
import Rmdb.Transaction.InsertProgress

namespace Rmdb.Execution

open List Index
open Lock (Gap GapData LockManager LockDataId TxnId Call cmpLeft cmpRight)

variable {m : TabMeta}

/-- The indexes of the table by their positions. Behind the buffer of the key
come the bytes `behind`; `hash` is `std::hash<Gap>`. -/
@[reducible] def gapData (m : TabMeta) (hash : Gap ColValue → UInt64) (behind : List UInt8) :
    GapData (Fin m.indexes.length) ColValue where
  hash := hash
  columnsOf i key := (m.ix i).cols.map fun c => ⟨c.keyCol, c.read ((key.map ColValue.raw).flatten ++ behind)⟩

def insertKey (m : TabMeta) (i : Fin m.indexes.length) (rec : List UInt8) : List ColValue :=
  columns (m.ix i).keyCols ((m.ix i).key rec).bytes

/-! ## A lock on one key -/

/-- Only this key of the index lies in the gap. -/
def IsKeyGap (ix : IndexMeta) (rec : List UInt8) (g : Gap ColValue) : Prop :=
  ∀ key : RawKey ix.keyCols, g.isInGap (keyColumns key) ↔ key.bytes = (ix.key rec).bytes

def HoldsKey (m : TabMeta) (s : LockManager (Fin m.indexes.length) ColValue) (t : TxnId) (i : Fin m.indexes.length)
    (rec : List UInt8) : Prop :=
  ∃ id e, s.table.lookup id = some e ∧ id.onIndex i ∧
    (∃ r ∈ e.queue.requests, r.txn = t ∧ r.mode = .exclusive ∧ r.granted) ∧
    IsKeyGap (m.ix i) rec e.gap

def ReadsInside (ix : IndexMeta) : Prop := ∀ c ∈ ix.cols, c.offset + c.len ≤ colTotLen ix.keyCols

/-- What `INSERT` needs of `isSafeInGap`. -/
structure KeyLocked (m : TabMeta) (s : LockManager (Fin m.indexes.length) ColValue) (t : TxnId)
    (i : Fin m.indexes.length)
    (rec : List UInt8) : Prop where
  holds : HoldsKey m s t i rec
  inside : ReadsInside (m.ix i)
  alone : ∀ u, u ≠ t → ¬s.Holds u i (insertKey m i rec)

def ReadsKey (ix : IndexMeta) (rec : List UInt8) : Prop := ∀ c ∈ ix.cols, c.read (ix.key rec).bytes = c.read rec

theorem flatten_insertKey (i : Fin m.indexes.length) (rec : List UInt8) :
    ((insertKey m i rec).map ColValue.raw).flatten = ((m.ix i).key rec).bytes :=
  (columns_flatten ((m.ix i).key rec).length_eq).2

theorem read_append {c : ColMeta} {bs : List UInt8} (h : c.offset + c.len ≤ bs.length) (behind : List UInt8) :
    c.read (bs ++ behind) = c.read bs := by
  refine map_congr_left fun j hj => ?_
  rw [mem_range] at hj
  rw [getD_eq_getElem?_getD, getD_eq_getElem?_getD, List.getElem?_append_left (by omega)]

section

variable {w : ColMeta → List UInt8} (hw : ∀ c : ColMeta, (w c).length = c.len)
include hw

theorem flatMap_eq_iff {w' : ColMeta → List UInt8} (hw' : ∀ c : ColMeta, (w' c).length = c.len) :
    ∀ cols : List ColMeta, cols.flatMap w = cols.flatMap w' ↔ ∀ c ∈ cols, w c = w' c
  | [] => by simp
  | c :: cols => by
    have hlen : (w c).length = (w' c).length := (hw c).trans (hw' c).symm
    rw [flatMap_cons, flatMap_cons, forall_mem_cons, ← flatMap_eq_iff hw' cols]
    constructor
    · intro h
      exact append_inj h hlen
    · intro ⟨hc, hcols⟩
      rw [hc, hcols]

theorem isInGap_ofKey_iff {cols : List ColMeta} (hfloat : ∀ c ∈ cols, c.type ≠ .float) {bs : List UInt8}
    (hbs : bs.length = colTotLen (cols.map ColMeta.keyCol)) :
    (Gap.ofKey (cols.map fun c => (⟨c.keyCol, w c⟩ : ColValue))).isInGap (columns (cols.map ColMeta.keyCol) bs) ↔
      bs = cols.flatMap w := by
  induction cols generalizing bs with
  | nil =>
    have hnil : bs = [] := eq_nil_of_length_eq_zero hbs
    simp [Gap.ofKey, columns, Gap.isInGap, hnil]
  | cons c cols ih =>
    obtain ⟨hc, hcols⟩ := forall_mem_cons.1 hfloat
    rw [map_cons, colTotLen_cons, c.keyCol_len] at hbs
    have hdrop : (bs.drop c.len).length = colTotLen (cols.map ColMeta.keyCol) := by simp; omega
    have ih := ih hcols hdrop
    have htake : (bs.take c.len).length = c.keyCol.len := by simp [c.keyCol_len]; omega
    have heq : ixCompareCol c.keyCol (bs.take c.len) (w c) = 0 ↔ bs.take c.len = w c := by
      constructor
      · exact eq_of_ixCompareCol (ColMeta.keyCol_ne_float hc) htake ((hw c).trans c.keyCol_len.symm)
      · intro h
        have hswap := ixCompareCol_swap c.keyCol (w c) (w c)
        rw [h]
        omega
    have hcons : bs = w c ++ cols.flatMap w ↔ bs.take c.len = w c ∧ bs.drop c.len = cols.flatMap w := by
      constructor
      · intro h
        rw [h, ← hw c, take_left, drop_left]
        exact ⟨rfl, rfl⟩
      · intro h
        rw [← h.1, ← h.2, take_append_drop]
    rw [flatMap_cons, hcons, ← heq, ← ih]
    simp [Gap.ofKey, columns, Gap.isInGap, cmpLeft, cmpRight, ixCmp, c.keyCol_len]

/-- Exactly one key lies in the gap of some values, that of the record where they are the record's. -/
theorem isKeyGap_ofKey_iff (ix : IndexMeta) (rec : List UInt8) :
    IsKeyGap ix rec (.ofKey (ix.cols.map fun c => ⟨c.keyCol, w c⟩)) ↔ ∀ c ∈ ix.cols, w c = c.read rec := by
  rw [← flatMap_eq_iff hw (fun c => c.length_read rec)]
  have hin (key : RawKey ix.keyCols) : (Gap.ofKey (ix.cols.map fun c => (⟨c.keyCol, w c⟩ : ColValue))).isInGap
    (keyColumns key) ↔
      key.bytes = ix.cols.flatMap w := isInGap_ofKey_iff hw ix.noFloat key.length_eq
  constructor
  · intro h
    exact ((hin (ix.key rec).toRawKey).1 ((h (ix.key rec).toRawKey).2 rfl)).symm
  · intro h key
    rw [hin, h]
    rfl

end

/-! ## What the call locks -/

section

variable (hash : Gap ColValue → UInt64) (behind rec : List UInt8) {s s' : LockManager (Fin m.indexes.length) ColValue}
  {t : TxnId} {fd : Nat} {i : Fin m.indexes.length}

/-- The gap that `isSafeInGap` makes is that of the key where the columns are read right. -/
theorem isKeyGap_columnsOf_iff (hinside : ReadsInside (m.ix i)) :
    IsKeyGap (m.ix i) rec (.ofKey ((gapData m hash behind).columnsOf i (insertKey m i rec))) ↔ ReadsKey (m.ix i) rec := by
  have hread : (gapData m hash behind).columnsOf i (insertKey m i rec) =
      (m.ix i).cols.map fun c => ⟨c.keyCol, c.read (((m.ix i).key rec).bytes ++ behind)⟩ := by
    rw [← flatten_insertKey]
    rfl
  rw [hread, isKeyGap_ofKey_iff (fun c => c.length_read _)]
  refine forall₂_congr fun c hc => ?_
  rw [read_append (by rw [((m.ix i).key rec).length_eq]; exact hinside c hc)]

variable {id : LockDataId (Fin m.indexes.length)}

theorem holdsKey_store (hid : id.onIndex i) (g : Gap ColValue) (hnone : s.table.lookup id = none)
    (htable : s'.table = s.table.store id g { requests := [⟨t, .exclusive, true⟩], group := .x, oldest := t }) :
    HoldsKey m s' t i rec ↔ HoldsKey m s t i rec ∨ IsKeyGap (m.ix i) rec g := by
  have hself : s'.table.lookup id = some ⟨g, { requests := [⟨t, .exclusive, true⟩], group := .x, oldest := t }⟩ := by
    rw [htable, Lock.LockTable.lookup_store_self, hnone]
    rfl
  have hne (id' : LockDataId (Fin m.indexes.length)) (h : id' ≠ id) : s'.table.lookup id' = s.table.lookup id' := by
    rw [htable, Lock.LockTable.lookup_store_ne _ h]
  constructor
  · intro ⟨id', e, he, hix, hown, hkey⟩
    by_cases h : id' = id
    · rw [h, hself, Option.some.injEq] at he
      subst he
      exact .inr hkey
    · rw [hne id' h] at he
      exact .inl ⟨id', e, he, hix, hown, hkey⟩
  · intro h
    rcases h with ⟨id', e, he, hix, hown, hkey⟩ | hkey
    · have h : id' ≠ id := by
        intro h
        rw [h, hnone] at he
        cases he
      exact ⟨id', e, (hne id' h).trans he, hix, hown, hkey⟩
    · exact ⟨id, _, hself, hid, ⟨_, mem_singleton_self _, rfl, rfl, rfl⟩, hkey⟩

theorem holds_store {u : TxnId} (hu : u ≠ t) (g : Gap ColValue) {key : List ColValue}
    (htable : s'.table = s.table.store id g { requests := [⟨t, .exclusive, true⟩], group := .x, oldest := t })
    (h : s'.Holds u i key) : s.Holds u i key := by
  obtain ⟨id', e, he, hix, hin, r, hr, hru, hg⟩ := h
  by_cases hid : id' = id
  · rw [hid, htable, Lock.LockTable.lookup_store_self, Option.some.injEq] at he
    subst he
    rw [mem_singleton.1 hr] at hru
    exact absurd hru.symm hu
  · rw [htable, Lock.LockTable.lookup_store_ne _ hid] at he
    exact ⟨id', e, he, hix, hin, r, hr, hru, hg⟩

theorem keyLocked_of_acquire
    (h : @LockManager.acquire _ _ _ _ (gapData m hash behind) s t (.safeInGap fd i (insertKey m i rec)) =
      some (.ret true, s')) :
    KeyLocked m s' t i rec ↔ ReadsInside (m.ix i) ∧
      (HoldsKey m s t i rec ∨
        ReadsKey (m.ix i) rec ∧
          s.table.lookup (@Call.id _ _ (gapData m hash behind) (.safeInGap fd i (insertKey m i rec))) = none) := by
  let := gapData m hash behind
  obtain ⟨hfree, ⟨hsome, htable⟩ | ⟨hnone, htable⟩⟩ := (LockManager.acquired h).inserted
  · have hsame : HoldsKey m s' t i rec ↔ HoldsKey m s t i rec := by rw [HoldsKey, HoldsKey, htable]
    constructor
    · intro hlocked
      exact ⟨hlocked.inside, .inl (hsame.1 hlocked.holds)⟩
    · intro ⟨hinside, hcase⟩
      rcases hcase with hholds | ⟨_, hnone⟩
      · refine ⟨hsame.2 hholds, hinside, fun u hu => ?_⟩
        rw [LockManager.Holds, htable]
        exact hfree u hu
      · rw [hnone] at hsome
        cases hsome
  · have hkeep := holdsKey_store rec (i := i) (t := t) (by simp [Call.id, LockDataId.onIndex]) _ hnone htable
    constructor
    · intro hlocked
      refine ⟨hlocked.inside, (hkeep.1 hlocked.holds).imp_right fun hgap => ⟨?_, hnone⟩⟩
      exact (isKeyGap_columnsOf_iff hash behind rec hlocked.inside).1 hgap
    · intro ⟨hinside, hcase⟩
      refine ⟨hkeep.2 (hcase.imp_right fun hread => ?_), hinside, fun u hu hh =>
        hfree u hu (holds_store hu _ htable hh)⟩
      exact (isKeyGap_columnsOf_iff hash behind rec hinside).2 hread.1

/-- The call of `InsertExecutor` returns true in the step from `s` to `s'`: as it is made,
    or when its last wait is over. -/
def Inserts (m : TabMeta) (hash : Gap ColValue → UInt64) (behind : List UInt8)
    (s s' : LockManager (Fin m.indexes.length) ColValue)
    (t : TxnId) (fd : Nat) (i : Fin m.indexes.length) (rec : List UInt8) : Prop :=
  let := gapData m hash behind
  s.step (.call t (.safeInGap fd i (insertKey m i rec))) = some (.ret true, s') ∨
    (∃ id, s.waiting t = some ⟨.safeInGap fd i (insertKey m i rec), id⟩) ∧ s.step (.wake t) = some (.ret true, s')

/-- Then the key is locked exactly where the columns are read inside the buffer
and either the transaction held the lock already, or the key had no queue and is
what the call reads. -/
theorem keyLocked_iff (h : Inserts m hash behind s s' t fd i rec) :
    KeyLocked m s' t i rec ↔ ReadsInside (m.ix i) ∧
      (HoldsKey m s t i rec ∨
        ReadsKey (m.ix i) rec ∧
          s.table.lookup (@Call.id _ _ (gapData m hash behind) (.safeInGap fd i (insertKey m i rec))) = none) := by
  let := gapData m hash behind
  rcases h with hcall | ⟨⟨id, hw⟩, hwake⟩
  · rw [LockManager.step, LockManager.call] at hcall
    split_ifs at hcall with hw hchecks
    · cases hchecks
    · exact keyLocked_of_acquire hash behind rec hcall
  · rw [LockManager.step, LockManager.wake, hw] at hwake
    simp only at hwake
    split_ifs at hwake
    exact keyLocked_of_acquire (s := s.setWaiting t none) hash behind rec hwake

end

def gapLength (g : Gap ColValue) : UInt64 := .ofNat g.length

/-- `INSERT` of (1, 2) into `t(a INT, b INT)` with an index on both columns in their order. -/
theorem keyLocked_onAB : ∃ s', Inserts tabOnAB gapLength [] {} s' 1 0 (0 : Fin 1) (bytesOf 1 ++ bytesOf 2) ∧
    KeyLocked tabOnAB s' 1 (0 : Fin 1) (bytesOf 1 ++ bytesOf 2) := by
  have hinserts : Inserts tabOnAB gapLength [] {} _ 1 0 (0 : Fin 1) (bytesOf 1 ++ bytesOf 2) := .inl rfl
  refine ⟨_, hinserts, (keyLocked_iff gapLength [] _ hinserts).2 ⟨?_, .inr ⟨?_, rfl⟩⟩⟩
  · intro c hc
    fin_cases hc <;> decide
  · intro c hc
    fin_cases hc <;> decide

def ixOnBA : IndexMeta := ⟨"t_b_a.idx", [colB, colA], by simp [colA, colB], by decide⟩

def tabOnBA : TabMeta where
  name := "t"
  cols := [colA, colB]
  indexes := [ixOnBA]
  distinct := tabAB.distinct
  layout := tabAB.layout
  ixCols := by simp [ixOnBA]

/-- There the key of (1, 2) is `b = 2, a = 1`, and the gap that is locked is `b = 1, a = 2`. -/
theorem other_key_locked : ∃ s', Inserts tabOnBA gapLength [] {} s' 1 0 (0 : Fin 1) (bytesOf 1 ++ bytesOf 2) ∧
    s'.table.entries.map (fun e => e.2.gap) = [.ofKey [⟨.int, bytesOf 1⟩, ⟨.int, bytesOf 2⟩]] ∧
    ¬KeyLocked tabOnBA s' 1 (0 : Fin 1) (bytesOf 1 ++ bytesOf 2) := by
  have hround : @LockManager.acquire _ _ _ _ (gapData tabOnBA gapLength []) {} 1 (.safeInGap 0 (0 : Fin 1)
      (insertKey tabOnBA (0 : Fin 1) (bytesOf 1 ++ bytesOf 2))) = some (.ret true, _) := rfl
  refine ⟨_, .inl hround, rfl, fun hlocked => ?_⟩
  obtain ⟨_, ⟨_, _, he, _⟩ | ⟨hread, _⟩⟩ := (keyLocked_of_acquire gapLength [] _ hround).1 hlocked
  · cases he
  · exact absurd (hread colB (by simp [TabMeta.ix, tabOnBA, ixOnBA])) (by decide)

end Rmdb.Execution
