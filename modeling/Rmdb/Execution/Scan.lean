/-
The scans below a statement.

`SeqScanExecutor` goes through the heap file. `IndexScanExecutor` takes the
conditions on columns of its index into a lower and an upper bound for each
column, the last condition of a kind replacing the ones before, makes a range
of keys of them, and tests some of what it finds again. Only conditions
`column op constant` are here.
-/
import Rmdb.Execution.Statement
import Rmdb.Index.Scan
import Rmdb.Transaction.Gap

namespace Rmdb.Execution

open Index Record
open Lock (ColConds LeftOp RightOp Gap cmpLeft cmpRight)

/-! ## Conditions -/

inductive CompOp where
  | eq
  | ne
  | lt
  | gt
  | le
  | ge
  deriving DecidableEq, Repr

def CompOp.test : CompOp → Int → Bool
  | .eq, cmp => cmp = 0
  | .ne, cmp => cmp ≠ 0
  | .lt, cmp => cmp < 0
  | .gt, cmp => cmp > 0
  | .le, cmp => cmp ≤ 0
  | .ge, cmp => cmp ≥ 0

structure Condition where
  col : ColMeta
  op : CompOp
  raw : List UInt8

/-- `compare(a, b, col_len, col_type)` of execution_defs.h, which is `ix_compare` on one column. -/
def compare (c : ColMeta) (a b : List UInt8) : Int := ixCompareCol c.keyCol a b

def Condition.holds (cond : Condition) (rec : List UInt8) : Bool :=
  cond.op.test (compare cond.col (cond.col.read rec) cond.raw)

def cmpConds (conds : List Condition) (rec : List UInt8) : Bool := conds.all fun cond => cond.holds rec

/-! ## The heap file -/

/-- `Bitmap::next_bit(true, …)`: the next slot in use behind `curr`, or `n`. -/
def nextBit (pg : RmPage) (n : Nat) (curr : Int) : Int :=
  (((List.range n).find? fun i : Nat => curr < i && (pg.slots i).isSome).map Int.ofNat).getD n

def rmScanNext (h : RmFileHandle) : Nat → Rid → Rid
  | 0, rid => ⟨noPage, rid.slotNo⟩
  | pages + 1, rid =>
    let slotNo := nextBit (h.pages rid.pageNo) h.numRecordsPerPage rid.slotNo
    if slotNo < h.numRecordsPerPage then ⟨rid.pageNo, slotNo⟩
    else if rid.pageNo + 1 ≥ h.numPages then ⟨noPage, slotNo⟩
    else rmScanNext h pages ⟨rid.pageNo + 1, -1⟩

def rmScanFrom (h : RmFileHandle) : Nat → Rid → Option (List Rid)
  | 0, _ => none
  | fuel + 1, rid =>
    if rid.pageNo = noPage then some []
    else (rmScanFrom h fuel (rmScanNext h h.numPages.toNat rid)).map fun rids => rid :: rids

def rmScan (h : RmFileHandle) : Option (List Rid) :=
  if firstRecordPage < h.numPages then
    rmScanFrom h (h.numPages.toNat * h.numRecordsPerPage + 1) (rmScanNext h h.numPages.toNat ⟨firstRecordPage, -1⟩)
  else some []

/-! ## The bounds of an index scan -/

abbrev Bounds := List (ColConds (List UInt8))

namespace PredicateManager

/-- `PredicateManager(index_meta)` -/
def init (cols : List ColMeta) : Bounds := cols.map fun _ => {}

def left (cond : Condition) : Option (LeftOp × List UInt8) :=
  match cond.op with
  | .gt => some (.gt, cond.raw)
  | .ge => some (.ge, cond.raw)
  | .eq => some (.eq, cond.raw)
  | _ => none

def right (cond : Condition) : Option (RightOp × List UInt8) :=
  match cond.op with
  | .lt => some (.lt, cond.raw)
  | .le => some (.le, cond.raw)
  | .eq => some (.eq, cond.raw)
  | _ => none

/-- `addPredicate`; `none` for a column that is not of the index. A bound replaces the one before. -/
def addPredicate (cols : List ColMeta) (bounds : Bounds) (cond : Condition) : Option Bounds :=
  (cols.findIdx? fun c => c.name = cond.col.name).map fun i =>
    bounds.modify i fun b => { left := left cond <|> b.left, right := right cond <|> b.right }

/-- The last operator of the lower bounds up to the first one that is not `=`,
how many `=` there are, and the values. -/
def getLeftLastTuple (op : Option LeftOp) : Bounds → Option LeftOp × Nat × List (List UInt8)
  | [] => (op, 0, [])
  | b :: bs =>
    match b.left with
    | none => (none, 0, [])
    | some (.eq, v) =>
      let (op, n, vs) := getLeftLastTuple (some .eq) bs
      (op, n + 1, v :: vs)
    | some (op, v) => (some op, 0, [v])

def getRightLastTuple (op : Option RightOp) : Bounds → Option RightOp × Nat × List (List UInt8)
  | [] => (op, 0, [])
  | b :: bs =>
    match b.right with
    | none => (none, 0, [])
    | some (.eq, v) =>
      let (op, n, vs) := getRightLastTuple (some .eq) bs
      (op, n + 1, v :: vs)
    | some (op, v) => (some op, 0, [v])

end PredicateManager

structure ColValue where
  col : KeyCol
  raw : List UInt8
  deriving DecidableEq

instance : IxCmp ColValue where
  ixCmp a b := ixCompareCol b.col a.raw b.raw

/-- `Gap(index_conds)` -/
def gapOf (cols : List ColMeta) (bounds : Bounds) : Gap ColValue :=
  List.zipWith (fun c b =>
    { left := b.left.map fun (op, v) => (op, ⟨c.keyCol, v⟩)
      right := b.right.map fun (op, v) => (op, ⟨c.keyCol, v⟩) }) cols bounds

def columns : List KeyCol → List UInt8 → List ColValue
  | [], _ => []
  | c :: cs, bs => ⟨c, bs.take c.len⟩ :: columns cs (bs.drop c.len)

/-! ## The index -/

/-- What the executor finds in memory it has not written: the two key buffers, column by column, and `upper_`. -/
structure Uninit where
  leftKey : List (List UInt8)
  rightKey : List (List UInt8)
  upper : Iid

/-- The largest value of a column: `INT32_MAX`, `FLT_MAX`, or bytes `0xff`. -/
def maxRaw (c : ColMeta) : List UInt8 :=
  match c.type with
  | .int => bytesOf 0x7fffffff
  | .float => bytesOf 0x7f7fffff
  | .string => List.replicate c.len 0xff

/-- The smallest: `INT32_MIN`, or zeros. `FLT_MIN` is the smallest positive `float`, not the smallest one. -/
def minRaw (c : ColMeta) : List UInt8 :=
  match c.type with
  | .int => bytesOf 0x80000000
  | .float => bytesOf 0x00800000
  | .string => List.replicate c.len 0

def setRemaining (fill : ColMeta → List UInt8) (ix : IndexMeta) (n : Nat) (key : List (List UInt8)) : List (List UInt8) :=
  ix.cols.mapIdx fun i c => if n ≤ i then fill c else key.getD i []

def keyOf (ix : IndexMeta) (raws : List (List UInt8)) : Key ix.keyCols where
  bytes := ((List.range ix.cols.length).zip ix.cols).flatMap fun (i, c) =>
    (List.range c.len).map fun j => (raws.getD i []).getD j 0
  length_eq := by
    rw [List.length_flatMap, colTotLen, IndexMeta.keyCols, List.map_map]
    have hlen : ∀ p ∈ (List.range ix.cols.length).zip ix.cols,
        ((List.range p.2.len).map fun j => (raws.getD p.1 []).getD j 0).length = p.2.len := by simp
    rw [List.map_congr_left hlen]
    have hcols : ((List.range ix.cols.length).zip ix.cols).map Prod.snd = ix.cols :=
      List.map_snd_zip (by simp)
    conv_rhs => rw [← hcols]
    rw [List.map_map]
    congr 1
    exact List.map_congr_left fun p _ => (ColMeta.keyCol_len p.2).symm
  ordered := ordered_of_forall_ne _ fun _ hc => by
    obtain ⟨c, hmem, rfl⟩ := List.mem_map.1 hc
    exact ColMeta.keyCol_ne_float (ix.noFloat c hmem)

/-- `IndexScanExecutor`: the bounds and the conditions that are left. -/
structure IndexScan where
  bounds : Bounds
  conds : List Condition

namespace IndexScan

def take (cols : List ColMeta) (sc : IndexScan) (cond : Condition) : IndexScan :=
  match if cond.op = .ne then none else PredicateManager.addPredicate cols sc.bounds cond with
  | some bounds => { sc with bounds := bounds }
  | none => { sc with conds := sc.conds ++ [cond] }

def make (cols : List ColMeta) (conds : List Condition) : IndexScan :=
  conds.foldl (take cols) { bounds := PredicateManager.init cols, conds := [] }

def gap (cols : List ColMeta) (sc : IndexScan) : Gap ColValue := gapOf cols sc.bounds

variable {ix : IndexMeta}

/-- The range of `beginTuple`: the positions from `lower_` to `upper_`. -/
def range (sc : IndexScan) (ih : IxIndexHandle (Key ix.keyCols) (btreeOrder ix.keyCols)) (mem : Uninit) :
    Option (Iid × Iid) := do
  let (leftOp, lastIdx, leftVals) := PredicateManager.getLeftLastTuple none sc.bounds
  let (rightOp, _, rightVals) := PredicateManager.getRightLastTuple none sc.bounds
  let leftKey := leftVals ++ mem.leftKey.drop leftVals.length
  let rightKey := rightVals ++ mem.rightKey.drop rightVals.length
  let max (n : Nat) (key : List (List UInt8)) := keyOf ix (setRemaining maxRaw ix n key)
  let min (n : Nat) (key : List (List UInt8)) := keyOf ix (setRemaining minRaw ix n key)
  if leftOp.isNone ∧ rightOp.isNone then
    let lower ← ih.lowerBound (min lastIdx leftKey)
    let upper ← ih.upperBound (max lastIdx rightKey)
    some (lower, upper)
  else
    let (lower, upper) ← match leftOp with
      | none => some (ih.leafBegin, mem.upper)
      | some .eq => do
        let lower ← ih.lowerBound (keyOf ix leftKey)
        let upper ← ih.upperBound (keyOf ix rightKey)
        some (lower, upper)
      | some .gt => do
        let lower ← ih.upperBound (max (lastIdx + 1) leftKey)
        let upper ← if rightOp.isNone ∧ lastIdx > 0 then ih.upperBound (max lastIdx leftKey) else some mem.upper
        some (lower, upper)
      | some .ge => do
        let lower ← ih.lowerBound (min (lastIdx + 1) leftKey)
        let upper ← if rightOp.isNone ∧ lastIdx > 0 then ih.upperBound (max lastIdx leftKey) else some mem.upper
        some (lower, upper)
    match rightOp with
    -- whatever was found for the upper bound before is replaced
    | none => ih.leafEnd.map fun upper => (lower, upper)
    | some .eq => some (lower, upper)
    | some .lt => do
      let upper ← ih.lowerBound (min (lastIdx + 1) rightKey)
      let lower ← if leftOp.isNone ∧ lastIdx > 0 then ih.lowerBound (min lastIdx rightKey) else some lower
      some (lower, upper)
    | some .le => do
      let upper ← ih.upperBound (max (lastIdx + 1) rightKey)
      let lower ← if leftOp.isNone ∧ lastIdx > 0 then ih.lowerBound (min lastIdx rightKey) else some lower
      some (lower, upper)

/-- `cmpIndexConds`: the bounds behind the first range, but none of them when the first column has no `=`. -/
def cmpIndexConds (sc : IndexScan) (key : Key ix.keyCols) : Bool :=
  let cols := (columns ix.keyCols key.bytes).zip (sc.gap ix.cols)
  let leftIdx := (PredicateManager.getLeftLastTuple none sc.bounds).2.1
  let rightIdx := (PredicateManager.getRightLastTuple none sc.bounds).2.1
  (leftIdx = 0 || (cols.drop (leftIdx + 1)).all fun (v, b) => cmpLeft v b.left) &&
    (rightIdx = 0 || (cols.drop (rightIdx + 1)).all fun (v, b) => cmpRight v b.right)

def fetched (sc : IndexScan) (ih : IxIndexHandle (Key ix.keyCols) (btreeOrder ix.keyCols)) (mem : Uninit) (fuel : Nat) :
    Option (List Rid) := do
  let (lower, upper) ← sc.range ih mem
  let scan ← IxScan.start ih lower upper
  let entries ← IxScan.scanAll ih fuel scan
  let indexClean := (PredicateManager.getLeftLastTuple none sc.bounds).2.1 = ix.cols.length
  some ((entries.filter fun e => indexClean || sc.cmpIndexConds e.1).map Prod.snd)

end IndexScan

end Rmdb.Execution
