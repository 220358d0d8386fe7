/-
The locks of a statement, and when two statements conflict by them.

A sequential scan locks the table and the whole of every index, an index scan
only a gap of its index, and an `INSERT` only its keys. Two statements that
come to one row by different indexes may then have no lock in common. What a scan
finds does not matter here.
-/
import Rmdb.Execution.Scan
import Rmdb.Transaction.Compatible
import Rmdb.Transaction.Rollback

namespace Rmdb.Execution

open List Index
open Lock (Gap LockMode cmpLeft cmpRight)

/-! ## The conditions an index scan locks by -/

def CompOp.isLower : CompOp → Bool
  | .gt => true
  | .ge => true
  | .eq => true
  | _ => false

def CompOp.isUpper : CompOp → Bool
  | .lt => true
  | .le => true
  | .eq => true
  | _ => false

def Condition.on (cols : List ColMeta) (cond : Condition) (i : Nat) : Bool :=
  cols.findIdx? (fun c => c.name = cond.col.name) = some i

def lowerCond (cols : List ColMeta) (conds : List Condition) (i : Nat) : Option Condition :=
  conds.reverse.find? fun cond => cond.on cols i && cond.op.isLower

def upperCond (cols : List ColMeta) (conds : List Condition) (i : Nat) : Option Condition :=
  conds.reverse.find? fun cond => cond.on cols i && cond.op.isUpper

def Condition.meets (cond : Condition) (v : ColValue) : Bool := cond.op.test (ixCompareCol v.col v.raw cond.raw)

/-- Each column of the key meets the last condition on it of either kind. -/
def Admits (cols : List ColMeta) (conds : List Condition) (key : List ColValue) : Prop :=
  ∀ i v, key[i]? = some v →
    (∀ cond, lowerCond cols conds i = some cond → cond.meets v) ∧ ∀ cond, upperCond cols conds i = some cond → cond.meets v

theorem lowerCond_append (cols : List ColMeta) (conds : List Condition) (cond : Condition) (i : Nat) :
    lowerCond cols (conds ++ [cond]) i =
      if cond.on cols i && cond.op.isLower then some cond else lowerCond cols conds i := by
  rw [lowerCond, reverse_append, reverse_singleton, singleton_append, List.find?_cons]
  cases cond.on cols i && cond.op.isLower <;> rfl

theorem upperCond_append (cols : List ColMeta) (conds : List Condition) (cond : Condition) (i : Nat) :
    upperCond cols (conds ++ [cond]) i =
      if cond.on cols i && cond.op.isUpper then some cond else upperCond cols conds i := by
  rw [upperCond, reverse_append, reverse_singleton, singleton_append, List.find?_cons]
  cases cond.on cols i && cond.op.isUpper <;> rfl

variable {cond : Condition}

variable {cols : List ColMeta} {conds : List Condition}

theorem lowerCond_isLower {i : Nat} (h : lowerCond cols conds i = some cond) : cond.op.isLower := by
  rw [lowerCond] at h
  have hcond := List.find?_some h
  exact (Bool.and_eq_true_iff.1 hcond).2

theorem upperCond_isUpper {i : Nat} (h : upperCond cols conds i = some cond) : cond.op.isUpper := by
  rw [upperCond] at h
  have hcond := List.find?_some h
  exact (Bool.and_eq_true_iff.1 hcond).2

namespace IndexScan

theorem make_append (cols : List ColMeta) (conds : List Condition) (cond : Condition) :
    make cols (conds ++ [cond]) = (make cols conds).take cols cond := by
  rw [make, foldl_append]
  rfl

theorem bounds_take (cols : List ColMeta) (sc : IndexScan) (cond : Condition) (i : Nat) :
    (sc.take cols cond).bounds[i]? = (sc.bounds[i]?).map fun b =>
      if cond.on cols i then
        { left := PredicateManager.left cond <|> b.left, right := PredicateManager.right cond <|> b.right }
      else b := by
  rw [take, Condition.on]
  by_cases hne : cond.op = .ne
  · have hleft : PredicateManager.left cond = none := by rw [PredicateManager.left, hne]
    have hright : PredicateManager.right cond = none := by rw [PredicateManager.right, hne]
    simp [hne, hleft, hright]
  rw [if_neg hne, PredicateManager.addPredicate]
  cases hfind : cols.findIdx? (fun c => c.name = cond.col.name) with
  | none => simp
  | some j =>
    simp only [Option.map_some, List.getElem?_modify, Option.some.injEq, decide_eq_true_eq]
    by_cases hji : j = i <;> simp [hji]

theorem bounds_make (cols : List ColMeta) (conds : List Condition) {i : Nat} (hi : i < cols.length) :
    (make cols conds).bounds[i]? = some
      { left := (lowerCond cols conds i).bind PredicateManager.left
        right := (upperCond cols conds i).bind PredicateManager.right } := by
  induction conds using List.reverseRecOn with
  | nil => simp [make, PredicateManager.init, lowerCond, upperCond, hi]
  | append_singleton conds cond ih =>
    rw [make_append, bounds_take, ih, Option.map_some, lowerCond_append, upperCond_append]
    cases cond.on cols i with
    | false => simp
    | true => cases hop : cond.op <;> simp [CompOp.isLower, CompOp.isUpper, PredicateManager.left, PredicateManager.right, hop]

theorem length_bounds_make (cols : List ColMeta) (conds : List Condition) :
    (make cols conds).bounds.length = cols.length := by
  induction conds using List.reverseRecOn with
  | nil => simp [make, PredicateManager.init]
  | append_singleton conds cond ih =>
    rw [make_append, take]
    split
    · rename_i bounds hadd
      split_ifs at hadd
      obtain ⟨j, -, rfl⟩ := Option.map_eq_some_iff.1 hadd
      simpa using ih
    · exact ih

end IndexScan

theorem length_columns : ∀ (cs : List KeyCol) (bs : List UInt8), (columns cs bs).length = cs.length
  | [], _ => rfl
  | c :: cs, bs => by rw [columns, length_cons, length_cons, length_columns]

theorem col_of_columns : ∀ {cs : List KeyCol} {bs : List UInt8} {i : Nat} {v : ColValue},
    (columns cs bs)[i]? = some v → cs[i]? = some v.col
  | [], _, _, _, h => by simp [columns] at h
  | c :: cs, bs, 0, v, h => by
    simp only [columns, List.getElem?_cons_zero, Option.some.injEq] at h
    simp [← h]
  | c :: cs, bs, i + 1, v, h => by
    simp only [columns, List.getElem?_cons_succ] at h ⊢
    exact col_of_columns h

variable {v : ColValue}

theorem cmpLeft_lowerCond (hop : cond.op.isLower) :
    cmpLeft v ((PredicateManager.left cond).map fun (op, w) => (op, ⟨v.col, w⟩)) = cond.meets v := by
  cases h : cond.op <;> simp [CompOp.isLower, h] at hop <;>
    simp [PredicateManager.left, Condition.meets, CompOp.test, cmpLeft, h, ixCmp]

theorem cmpRight_upperCond (hop : cond.op.isUpper) :
    cmpRight v ((PredicateManager.right cond).map fun (op, w) => (op, ⟨v.col, w⟩)) = cond.meets v := by
  cases h : cond.op <;> simp [CompOp.isUpper, h] at hop <;>
    simp [PredicateManager.right, Condition.meets, CompOp.test, cmpRight, h, ixCmp]

/-- A key lies in the gap of an index scan when the scan's last conditions admit it. -/
theorem isInGap_make_iff (cols : List ColMeta) (conds : List Condition) (bs : List UInt8) :
    ((IndexScan.make cols conds).gap cols).isInGap (columns (cols.map ColMeta.keyCol) bs) ↔
      Admits cols conds (columns (cols.map ColMeta.keyCol) bs) := by
  rw [Gap.isInGap_iff]
  have hlen : ((IndexScan.make cols conds).gap cols).length = (columns (cols.map ColMeta.keyCol) bs).length := by
    rw [length_columns, IndexScan.gap, gapOf, length_zipWith, IndexScan.length_bounds_make, length_map, Nat.min_self]
  have hgap : ∀ i v, (columns (cols.map ColMeta.keyCol) bs)[i]? = some v →
      ((IndexScan.make cols conds).gap cols)[i]? = some (Lock.ColConds.mk
        (((lowerCond cols conds i).bind PredicateManager.left).map fun (op, w) => (op, ⟨v.col, w⟩))
        (((upperCond cols conds i).bind PredicateManager.right).map fun (op, w) => (op, ⟨v.col, w⟩))) := by
    intro i v hv
    have hcol := col_of_columns hv
    rw [List.getElem?_map, Option.map_eq_some_iff] at hcol
    obtain ⟨c, hc, hcv⟩ := hcol
    have hi : i < cols.length := (List.getElem?_eq_some_iff.1 hc).1
    rw [IndexScan.gap, gapOf, List.getElem?_zipWith, hc, IndexScan.bounds_make cols conds hi, ← hcv]
  constructor
  · rintro ⟨-, h⟩ i v hv
    obtain ⟨hl, hr⟩ := h i _ v (hgap i v hv) hv
    refine ⟨fun cond hcond => ?_, fun cond hcond => ?_⟩
    · rw [hcond] at hl
      rw [← cmpLeft_lowerCond (lowerCond_isLower hcond)]
      exact hl
    · rw [hcond] at hr
      rw [← cmpRight_upperCond (upperCond_isUpper hcond)]
      exact hr
  · refine fun h => ⟨hlen, fun i c v hc hv => ?_⟩
    obtain ⟨hl, hr⟩ := h i v hv
    rw [hgap i v hv, Option.some.injEq] at hc
    subst hc
    constructor
    · cases hcond : lowerCond cols conds i with
      | none => rfl
      | some cond => exact (cmpLeft_lowerCond (lowerCond_isLower hcond)).trans (hl cond hcond)
    · cases hcond : upperCond cols conds i with
      | none => rfl
      | some cond => exact (cmpRight_upperCond (upperCond_isUpper hcond)).trans (hr cond hcond)

/-! ## Statements and their requests -/

inductive LockRequest (n : Nat) where
  | table (mode : LockMode)
  | gap (i : Fin n) (mode : LockMode) (gap : Gap ColValue)

variable {indexes : List (List ColMeta)}

structure ScanRun (indexes : List (List ColMeta)) where
  index : Option (Fin indexes.length)
  conds : List Condition
  fetched : List Rid
  rids : List Rid

/-- A statement that ran to its end. `behind` has the bytes that are in memory
behind the buffer of each key. -/
inductive StmtRun (indexes : List (List ColMeta)) where
  | select (scan : ScanRun indexes)
  | update (scan : ScanRun indexes)
  | delete (scan : ScanRun indexes)
  | insert (rec : List UInt8) (behind : Fin indexes.length → List UInt8) (rid : Rid)

def fullGaps (indexes : List (List ColMeta)) (mode : LockMode) : List (LockRequest indexes.length) :=
  (List.finRange indexes.length).map fun i => .gap i mode (gapOf (indexes.get i) (PredicateManager.init (indexes.get i)))

def gapModeOf (gapMode : Bool) : LockMode := if gapMode then .exclusive else .shared

def ScanRun.requests (sc : ScanRun indexes) (gapMode : Bool) : List (LockRequest indexes.length) :=
  match sc.index with
  | none => .table .shared :: fullGaps indexes (gapModeOf gapMode)
  | some i => [.gap i (gapModeOf gapMode) ((IndexScan.make (indexes.get i) sc.conds).gap (indexes.get i))]

def ScanRun.writeRequests (sc : ScanRun indexes) : List (LockRequest indexes.length) :=
  if sc.index = none ∧ sc.rids ≠ [] then .table .exclusive :: fullGaps indexes .exclusive else []

/-- The columns that `isSafeInGap` makes its gap of: each one is read from the
buffer of the key, but at its offset in the record. -/
def lockedColumns (cols : List ColMeta) (rec behind : List UInt8) : List ColValue :=
  cols.map fun c => ⟨c.keyCol, c.read (cols.flatMap (fun d => d.read rec) ++ behind)⟩

def StmtRun.requests : StmtRun indexes → List (LockRequest indexes.length)
  | .select sc => sc.requests false
  | .update sc => sc.requests true ++ sc.writeRequests
  | .delete sc => sc.requests true ++ sc.writeRequests
  | .insert rec behind _ =>
    if indexes = [] then .table .exclusive :: fullGaps indexes .exclusive
    else (List.finRange indexes.length).map fun i =>
      .gap i .exclusive (Gap.ofKey (lockedColumns (indexes.get i) rec (behind i)))

def StmtRun.Touches : StmtRun indexes → Rid → Prop
  | .select sc, rid => rid ∈ sc.fetched
  | .update sc, rid => rid ∈ sc.fetched ∨ rid ∈ sc.rids
  | .delete sc, rid => rid ∈ sc.fetched ∨ rid ∈ sc.rids
  | .insert _ _ rid, rid' => rid' = rid

def StmtRun.Writes : StmtRun indexes → Rid → Prop
  | .select _, _ => False
  | .update sc, rid => rid ∈ sc.rids
  | .delete sc, rid => rid ∈ sc.rids
  | .insert _ _ rid, rid' => rid' = rid

def keyColumns {cs : List KeyCol} (key : RawKey cs) : List ColValue := columns cs key.bytes

/-- Incompatible modes on the table, or gaps of one index, not both shared, with a key in both. -/
def LockRequest.Conflicts (indexes : List (List ColMeta)) : LockRequest indexes.length → LockRequest indexes.length → Prop
  | .table m, .table m' => m.compatible m' = false
  | .gap i m g, .gap j m' g' => i = j ∧ (m = .exclusive ∨ m' = .exclusive) ∧
      ∃ key : RawKey ((indexes.get i).map ColMeta.keyCol),
        g.isInGap (keyColumns key) ∧ g'.isInGap (keyColumns key)
  | _, _ => False

def StmtRun.Conflict (A B : StmtRun indexes) : Prop :=
  ∃ r ∈ A.requests, ∃ r' ∈ B.requests, r.Conflicts indexes r'

/-! ## When the requests conflict -/

def StmtRun.scan : StmtRun indexes → Option (ScanRun indexes)
  | .select sc => some sc
  | .update sc => some sc
  | .delete sc => some sc
  | .insert .. => none

/-- The statement is one that locks the table: a sequential scan, or an `INSERT` into a table without indexes. -/
def StmtRun.OnTable (A : StmtRun indexes) : Prop :=
  match A.scan with
  | some sc => sc.index = none
  | none => indexes = []

/-- The keys of index `i` that the statement locks: all of them for a
sequential scan, those its conditions admit for a scan of this index, and for
an `INSERT` those equal to the columns that `isSafeInGap` reads. -/
def StmtRun.Covers (A : StmtRun indexes) (i : Fin indexes.length) (key : List ColValue) : Prop :=
  match A with
  | .select sc => ∀ j, sc.index = some j → i = j ∧ Admits (indexes.get i) sc.conds key
  | .update sc => ∀ j, sc.index = some j → i = j ∧ Admits (indexes.get i) sc.conds key
  | .delete sc => ∀ j, sc.index = some j → i = j ∧ Admits (indexes.get i) sc.conds key
  | .insert rec behind _ => ∀ (j : Nat) v w, key[j]? = some v →
      (lockedColumns (indexes.get i) rec (behind i))[j]? = some w → ixCmp v w = 0

def ScanRun.gapOn (sc : ScanRun indexes) (i : Fin indexes.length) : Gap ColValue :=
  match sc.index with
  | none => gapOf (indexes.get i) (PredicateManager.init (indexes.get i))
  | some _ => (IndexScan.make (indexes.get i) sc.conds).gap (indexes.get i)

theorem isInGap_full (cols : List ColMeta) (bs : List UInt8) :
    (gapOf cols (PredicateManager.init cols)).isInGap (columns (cols.map ColMeta.keyCol) bs) := by
  refine (isInGap_make_iff cols [] bs).2 fun i v _ => ⟨fun cond h => ?_, fun cond h => ?_⟩
  · simp [lowerCond] at h
  · simp [upperCond] at h

theorem mem_fullGaps {mode : LockMode} {r : LockRequest indexes.length} :
    r ∈ fullGaps indexes mode ↔ ∃ i, r = .gap i mode (gapOf (indexes.get i) (PredicateManager.init (indexes.get i))) := by
  simp only [fullGaps, mem_map, mem_finRange, true_and, eq_comm]

theorem ScanRun.gap_mem_requests (sc : ScanRun indexes) (gapMode : Bool) {i : Fin indexes.length} {m : LockMode}
    {g : Gap ColValue} (h : .gap i m g ∈ sc.requests gapMode) :
    m = gapModeOf gapMode ∧ g = sc.gapOn i ∧ ∀ j, sc.index = some j → i = j := by
  rw [ScanRun.requests] at h
  rw [ScanRun.gapOn]
  cases hix : sc.index with
  | none =>
    simp only [hix, mem_cons, mem_fullGaps, reduceCtorEq, false_or] at h
    obtain ⟨j, hj⟩ := h
    cases hj
    exact ⟨rfl, rfl, nofun⟩
  | some j =>
    simp only [hix, mem_singleton] at h
    cases h
    exact ⟨rfl, rfl, fun k hk => Option.some.inj hk⟩

theorem ScanRun.isInGap_gapOn (sc : ScanRun indexes) {i : Fin indexes.length} (hi : ∀ j, sc.index = some j → i = j)
    (key : RawKey ((indexes.get i).map ColMeta.keyCol)) :
    (sc.gapOn i).isInGap (keyColumns key) ↔
      ∀ j, sc.index = some j → i = j ∧ Admits (indexes.get i) sc.conds (keyColumns key) := by
  rw [gapOn, keyColumns]
  cases hix : sc.index with
  | none => exact ⟨fun _ => nofun, fun _ => isInGap_full _ _⟩
  | some j =>
    rw [isInGap_make_iff]
    exact ⟨fun h k hk => ⟨hi k (hix.trans hk), h⟩, fun h => (h j rfl).2⟩

theorem isInGap_lockedColumns (cols : List ColMeta) (rec behind : List UInt8) (key : RawKey (cols.map ColMeta.keyCol)) :
    (Gap.ofKey (lockedColumns cols rec behind)).isInGap (keyColumns key) ↔
      ∀ (j : Nat) v w, (keyColumns key)[j]? = some v → (lockedColumns cols rec behind)[j]? = some w → ixCmp v w = 0 := by
  have hlen : (Gap.ofKey (lockedColumns cols rec behind)).length = (keyColumns key).length := by
    rw [Gap.ofKey, length_map, lockedColumns, length_map, keyColumns, length_columns, length_map]
  rw [Gap.isInGap_iff, Gap.ofKey]
  constructor
  · rintro ⟨-, h⟩ j v w hv hw
    have hcol := (h j _ v (by rw [List.getElem?_map, hw]; rfl) hv).1
    simpa [cmpLeft] using hcol
  · refine fun h => ⟨hlen, fun j c v hc hv => ?_⟩
    rw [List.getElem?_map, Option.map_eq_some_iff] at hc
    obtain ⟨w, hw, rfl⟩ := hc
    have heq := h j v w hv hw
    simp [cmpLeft, cmpRight, heq]

namespace StmtRun

variable {sc : ScanRun indexes} {i : Fin indexes.length} {m : LockMode} {key : RawKey ((indexes.get i).map ColMeta.keyCol)}

theorem index_of_mem_writeRequests {r : LockRequest indexes.length} (h : r ∈ sc.writeRequests) : sc.index = none := by
  rw [ScanRun.writeRequests] at h
  split_ifs at h with hseq
  · exact hseq.1
  · simp at h

variable {gapMode : Bool} {g : Gap ColValue}

theorem covers_of_scan (h : .gap i m g ∈ sc.requests gapMode) (hkey : g.isInGap (keyColumns key)) :
    ∀ j, sc.index = some j → i = j ∧ Admits (indexes.get i) sc.conds (keyColumns key) := by
  obtain ⟨-, rfl, hi⟩ := sc.gap_mem_requests gapMode h
  exact (sc.isInGap_gapOn hi key).1 hkey

theorem covers_of_mem (A : StmtRun indexes) (h : .gap i m g ∈ A.requests) (hkey : g.isInGap (keyColumns key)) :
    A.Covers i (keyColumns key) := by
  cases A with
  | select sc => exact covers_of_scan h hkey
  | update sc =>
    rcases mem_append.1 h with h | h
    · exact covers_of_scan h hkey
    · exact fun j hj => absurd (index_of_mem_writeRequests h) (by simp [hj])
  | delete sc =>
    rcases mem_append.1 h with h | h
    · exact covers_of_scan h hkey
    · exact fun j hj => absurd (index_of_mem_writeRequests h) (by simp [hj])
  | insert rec behind rid =>
    have hne : indexes ≠ [] := fun hnil => by subst hnil; exact i.elim0
    simp only [requests, if_neg hne, mem_map, mem_finRange, true_and] at h
    obtain ⟨j, hj⟩ := h
    cases hj
    exact (isInGap_lockedColumns _ _ _ key).1 hkey

theorem mem_of_scan (gapMode : Bool)
    (h : ∀ j, sc.index = some j → i = j ∧ Admits (indexes.get i) sc.conds (keyColumns key)) :
    ∃ g, .gap i (gapModeOf gapMode) g ∈ sc.requests gapMode ∧ g.isInGap (keyColumns key) := by
  refine ⟨sc.gapOn i, ?_, (sc.isInGap_gapOn (fun j hj => (h j hj).1) key).2 h⟩
  rw [ScanRun.requests, ScanRun.gapOn]
  cases hix : sc.index with
  | none => exact mem_cons_of_mem _ (mem_fullGaps.2 ⟨i, rfl⟩)
  | some j =>
    obtain ⟨rfl, -⟩ := h j hix
    exact mem_singleton.2 rfl

/-- A covered key lies in a requested gap, an exclusive one when the statement writes. -/
theorem mem_of_covers (A : StmtRun indexes) (h : A.Covers i (keyColumns key)) :
    ∃ m g, .gap i m g ∈ A.requests ∧ g.isInGap (keyColumns key) ∧ ∀ rid, A.Writes rid → m = .exclusive := by
  cases A with
  | select sc =>
    obtain ⟨g, hg, hkey⟩ := mem_of_scan false h
    exact ⟨_, g, hg, hkey, fun rid => False.elim⟩
  | update sc =>
    obtain ⟨g, hg, hkey⟩ := mem_of_scan true h
    exact ⟨_, g, mem_append_left _ hg, hkey, fun _ _ => rfl⟩
  | delete sc =>
    obtain ⟨g, hg, hkey⟩ := mem_of_scan true h
    exact ⟨_, g, mem_append_left _ hg, hkey, fun _ _ => rfl⟩
  | insert rec behind rid =>
    have hne : indexes ≠ [] := fun hnil => by subst hnil; exact i.elim0
    refine ⟨.exclusive, _, ?_, (isInGap_lockedColumns (indexes.get i) rec (behind i) key).2 h, fun _ _ => rfl⟩
    simp only [requests, if_neg hne, mem_map, mem_finRange, true_and]
    exact ⟨i, rfl⟩

theorem index_of_table_mem (h : .table m ∈ sc.requests gapMode) : sc.index = none := by
  rw [ScanRun.requests] at h
  cases hix : sc.index with
  | none => rfl
  | some j => simp [hix] at h

theorem onTable_of_mem (A : StmtRun indexes) (h : .table m ∈ A.requests) : A.OnTable := by
  cases A with
  | select sc => exact index_of_table_mem h
  | update sc => exact (mem_append.1 h).elim index_of_table_mem index_of_mem_writeRequests
  | delete sc => exact (mem_append.1 h).elim index_of_table_mem index_of_mem_writeRequests
  | insert rec behind rid =>
    by_contra hne
    have hne : indexes ≠ [] := hne
    simp [requests, hne] at h

theorem mem_of_onTable (A : StmtRun indexes) (h : A.OnTable) :
    (∃ m, .table m ∈ A.requests) ∧ ∀ rid, A.Writes rid → .table .exclusive ∈ A.requests := by
  cases A with
  | select sc =>
    have h : sc.index = none := h
    exact ⟨⟨.shared, by simp [requests, ScanRun.requests, h]⟩, fun rid => False.elim⟩
  | update sc =>
    have h : sc.index = none := h
    refine ⟨⟨.shared, by simp [requests, ScanRun.requests, h]⟩, fun rid hrid => ?_⟩
    simp [requests, ScanRun.writeRequests, h, ne_nil_of_mem hrid]
  | delete sc =>
    have h : sc.index = none := h
    refine ⟨⟨.shared, by simp [requests, ScanRun.requests, h]⟩, fun rid hrid => ?_⟩
    simp [requests, ScanRun.writeRequests, h, ne_nil_of_mem hrid]
  | insert rec behind rid =>
    have h : indexes = [] := h
    have hmem : .table .exclusive ∈ (StmtRun.insert rec behind rid).requests := by simp [requests, h]
    exact ⟨⟨_, hmem⟩, fun _ _ => hmem⟩

end StmtRun

/-! ## A row by two indexes -/

def eqCond (col : ColMeta) (n : UInt32) : Condition := ⟨col, .eq, bytesOf n⟩

def insertOne : List Request := [.stmt (.insert "t" [.int 1, .int 2] fun _ => true)]

def fetchBy (s : Session [tabAB]) (i : Fin 2) (cond : Condition) : Option (List Rid) :=
  (IndexScan.make (tabAB.ix i).cols [cond]).fetched ((s.db 0).ihs i) ⟨[], [], ⟨0, 0⟩⟩ 3

def tabABIndexes : List (List ColMeta) := [[colA], [colB]]

def selectA (fetched : List Rid) : StmtRun tabABIndexes := .select ⟨some (0 : Fin 2), [eqCond colA 1], fetched, fetched⟩
def updateByB (fetched : List Rid) : StmtRun tabABIndexes := .update ⟨some (1 : Fin 2), [eqCond colB 2], fetched, fetched⟩

def deleteAll (fetched : List Rid) : StmtRun tabABIndexes := .delete ⟨none, [], fetched, fetched⟩

end Rmdb.Execution
