/-
Conditions of a join, and the executors it is made of.

A condition names two columns. `cmp_cond` looks them up by table and name and
compares as many bytes as the left one has, `Cond.sat` compares the values.
For columns of one length that is the same.
-/
import Rmdb.Lib.Iter
import Rmdb.Execution.Scan

namespace Rmdb.Execution

open Option List Index

structure TabCol where
  tabName : String
  colName : String
  deriving DecidableEq, Repr

/-- A constant with its bytes; a value that was moved from has none. -/
structure RawValue where
  type : ColType
  raw : Option (List UInt8)
  deriving DecidableEq, Repr

/-- `Condition`, without subqueries. -/
structure Cond where
  lhsCol : TabCol
  op : CompOp
  isRhsVal : Bool
  rhsCol : TabCol
  rhsVal : RawValue
  deriving DecidableEq, Repr

structure Col where
  tabName : String
  col : ColMeta

/-- `get_col` of executor_abstract.h -/
def getCol (recCols : List Col) (target : TabCol) : Option Col :=
  recCols.find? fun c => c.tabName = target.tabName ∧ c.col.name = target.colName

/-- `AbstractExecutor`. What `getType` is asked for is whether this is a `SortExecutor`. -/
structure Executor (σ : Type) extends Iter σ (List UInt8) where
  cols : List Col
  tupleLen : Nat
  isSort : Bool

structure Join (σ τ : Type) where
  left : Executor σ
  right : Executor τ
  fedConds : List Cond

namespace Join

variable {σ τ : Type}

def cols (j : Join σ τ) : List Col :=
  j.left.cols ++ j.right.cols.map fun c => { c with col := { c.col with offset := c.col.offset + j.left.tupleLen } }

def tupleLen (j : Join σ τ) : Nat := j.left.tupleLen + j.right.tupleLen

def concat (j : Join σ τ) (l r : List UInt8) : List UInt8 := l.take j.left.tupleLen ++ r.take j.right.tupleLen

/-- `cmp_cond`, which also sets `last_cmp_`; `none` is an exception. -/
def cmpCond (j : Join σ τ) (l r : List UInt8) (cond : Cond) : Option (Bool × Int) := do
  let lhs ← getCol j.cols cond.lhsCol
  let (rhsType, rhsData) ←
    if cond.isRhsVal then cond.rhsVal.raw.map fun raw => (cond.rhsVal.type, raw)
    else (getCol j.cols cond.rhsCol).map fun rhs => (rhs.col.type, r.drop (rhs.col.offset - j.left.tupleLen))
  if lhs.col.type ≠ rhsType then none
  else
    let lastCmp := ixCompareCol lhs.col.keyCol (l.drop lhs.col.offset) rhsData
    some (cond.op.test lastCmp, lastCmp)

/-- `cmp_conds`: `all_of` stops at the first condition that fails. -/
def cmpConds (j : Join σ τ) (l r : List UInt8) : Int → List Cond → Option (Bool × Int)
  | lastCmp, [] => some (true, lastCmp)
  | _, cond :: conds => do
    let (ok, lastCmp) ← j.cmpCond l r cond
    if ok then j.cmpConds l r lastCmp conds else some (false, lastCmp)

end Join

/-! ## What a condition says -/

/-- Strings compared by their bytes, the shorter one filled up with zeros. -/
def charCmp (a b : List UInt8) : Int :=
  let n := max a.length b.length
  memcmp n (a ++ List.replicate (n - a.length) 0) (b ++ List.replicate (n - b.length) 0)

def valueCmp (lc rc : ColMeta) (l r : List UInt8) : Int :=
  match lc.type with
  | .string => charCmp (lc.read l) (rc.read r)
  | _ => ixCompareCol lc.keyCol (lc.read l) (rc.read r)

namespace Join

variable {σ τ : Type}

def condCols (j : Join σ τ) (cond : Cond) : Option (ColMeta × ColMeta) :=
  match getCol j.left.cols cond.lhsCol, getCol j.right.cols cond.rhsCol with
  | some lc, some rc => some (lc.col, rc.col)
  | _, _ => none

def sat (j : Join σ τ) (cond : Cond) (l r : List UInt8) : Bool :=
  match j.condCols cond with
  | some (lc, rc) => cond.op.test (valueCmp lc rc l r)
  | none => false

def satAll (j : Join σ τ) (l r : List UInt8) : Bool := j.fedConds.all fun cond => j.sat cond l r

/-- `left.c op right.d`, of two columns of one type, `INT` or `CHAR`, that lie
in their rows. The bytes that `compare` reads on the right lie in the row too. -/
structure Between (j : Join σ τ) (cond : Cond) : Prop where
  isCol : cond.isRhsVal = false
  notLeft : getCol j.left.cols cond.rhsCol = none
  cols : ∃ lc rc, j.condCols cond = some (lc, rc) ∧ lc.type = rc.type ∧ lc.type ≠ .float ∧
    lc.offset + lc.len ≤ j.left.tupleLen ∧ rc.offset + rc.len ≤ j.right.tupleLen ∧
      rc.offset + lc.len ≤ j.right.tupleLen

/-- The comparison that the code makes for a condition. -/
def condCmp (j : Join σ τ) (cond : Cond) (l r : List UInt8) : Int :=
  match j.condCols cond with
  | some (lc, rc) => ixCompareCol lc.keyCol (l.drop lc.offset) (r.drop rc.offset)
  | none => 0

def condHolds (j : Join σ τ) (l r : List UInt8) (cond : Cond) : Bool := cond.op.test (j.condCmp cond l r)

def firstFail (j : Join σ τ) (l r : List UInt8) (conds : List Cond) : Option Cond :=
  conds.find? fun cond => !j.condHolds l r cond

variable {j : Join σ τ} {l r : List UInt8} {cond : Cond} {conds : List Cond} {lastCmp : Int}

theorem condCols_eq_some {lc rc : ColMeta} : j.condCols cond = some (lc, rc) ↔
    ∃ lt rt, getCol j.left.cols cond.lhsCol = some ⟨lt, lc⟩ ∧ getCol j.right.cols cond.rhsCol = some ⟨rt, rc⟩ := by
  rw [condCols]
  split
  next lhs rhs hl hr =>
    rw [hl, hr]
    obtain ⟨lt, lc'⟩ := lhs
    obtain ⟨rt, rc'⟩ := rhs
    simp
  next hnone =>
    refine iff_of_false (by simp) ?_
    rintro ⟨lt, rt, hl, hr⟩
    exact hnone _ _ hl hr

theorem cmpCond_eq (h : j.Between cond) : j.cmpCond l r cond = some (j.condHolds l r cond, j.condCmp cond l r) := by
  obtain ⟨lc, rc, hcols, htype, -⟩ := h.cols
  obtain ⟨lt, rt, hl, hr⟩ := condCols_eq_some.1 hcols
  have hlhs : getCol j.cols cond.lhsCol = some ⟨lt, lc⟩ := by
    rw [getCol] at hl ⊢
    rw [cols, List.find?_append, hl, some_or]
  have hrhs : getCol j.cols cond.rhsCol = some ⟨rt, { rc with offset := rc.offset + j.left.tupleLen }⟩ := by
    have hleft := h.notLeft
    rw [getCol] at hleft hr ⊢
    rw [cols, List.find?_append, hleft, none_or, List.find?_map, Function.comp_def, hr, map_some]
  rw [condHolds, condCmp, hcols, cmpCond, hlhs, hrhs, h.isCol]
  simp [htype]

theorem cmpConds_of_none (h : ∀ cond ∈ conds, j.Between cond) (hfail : j.firstFail l r conds = none) :
    ∃ k, j.cmpConds l r lastCmp conds = some (true, k) := by
  induction conds generalizing lastCmp with
  | nil => exact ⟨lastCmp, rfl⟩
  | cons cond conds ih =>
    rw [firstFail, List.find?_cons] at hfail
    cases hcond : j.condHolds l r cond with
    | false => simp [hcond] at hfail
    | true =>
      simp only [hcond, Bool.not_true] at hfail
      obtain ⟨k, hk⟩ := @ih (j.condCmp cond l r) (fun c hc => h c (mem_cons_of_mem _ hc)) hfail
      refine ⟨k, ?_⟩
      rw [cmpConds, cmpCond_eq (h cond mem_cons_self), hcond]
      exact hk

theorem cmpConds_of_some (h : ∀ cond ∈ conds, j.Between cond) (hfail : j.firstFail l r conds = some cond) :
    j.cmpConds l r lastCmp conds = some (false, j.condCmp cond l r) := by
  induction conds generalizing lastCmp with
  | nil => simp [firstFail] at hfail
  | cons cond' conds ih =>
    rw [cmpConds, cmpCond_eq (h cond' mem_cons_self)]
    rw [firstFail, List.find?_cons] at hfail
    cases hcond : j.condHolds l r cond' with
    | false =>
      simp only [hcond, Bool.not_false, some.injEq] at hfail
      subst hfail
      rfl
    | true =>
      simp only [hcond, Bool.not_true] at hfail
      exact ih (fun c hc => h c (mem_cons_of_mem _ hc)) hfail

/-! ## Columns of one length -/

end Join

theorem memcmp_take : ∀ (n : Nat) (a b : List UInt8), memcmp n (a.take n) (b.take n) = memcmp n a b
  | 0, _, _ => rfl
  | _ + 1, [], _ => by simp [memcmp]
  | _ + 1, _ :: _, [] => by simp [memcmp]
  | n + 1, x :: a, y :: b => by simp only [take_succ_cons, memcmp, memcmp_take n a b]

theorem readInt_take (a : List UInt8) : readInt (a.take 4) = readInt a := by rw [readInt, readInt, take_take, Nat.min_self]

theorem read_eq_take {c : ColMeta} {rec : List UInt8} (h : c.offset + c.len ≤ rec.length) :
    c.read rec = (rec.drop c.offset).take c.len := by
  refine ext_getElem (by simp [ColMeta.read]; omega) fun i hi _ => ?_
  have hi' : i < c.len := by simpa [ColMeta.read] using hi
  simp [ColMeta.read, List.getElem?_eq_getElem (show c.offset + i < rec.length by omega)]

theorem valueCmp_eq {lc rc : ColMeta} {l r : List UInt8} (hfloat : lc.type ≠ .float)
    (hlen : lc.len = rc.len) (hl : lc.offset + lc.len ≤ l.length) (hr : rc.offset + rc.len ≤ r.length) :
    valueCmp lc rc l r = ixCompareCol lc.keyCol (l.drop lc.offset) (r.drop rc.offset) := by
  rw [valueCmp, read_eq_take hl, read_eq_take hr, ← hlen]
  have hla : ((l.drop lc.offset).take lc.len).length = lc.len := by simp; omega
  have hra : ((r.drop rc.offset).take lc.len).length = lc.len := by simp; omega
  cases ht : lc.type with
  | string =>
    simp only [charCmp, hla, hra, max_self, Nat.sub_self, replicate_zero, append_nil, memcmp_take]
    simp [ColMeta.keyCol, ht, ixCompareCol]
  | int =>
    have h4 : lc.len = 4 := lc.len_eq (by simp [ht])
    simp only [ColMeta.keyCol, ht, ixCompareCol, h4, readInt_take]
  | float => exact absurd ht hfloat

namespace Join

variable {σ τ : Type} {j : Join σ τ} {l r : List UInt8} {cond : Cond}

theorem sat_eq_condHolds (h : j.Between cond) (hlen : ∀ lc rc, j.condCols cond = some (lc, rc) → lc.len = rc.len)
    (hl : l.length = j.left.tupleLen) (hr : r.length = j.right.tupleLen) : j.sat cond l r = j.condHolds l r cond := by
  obtain ⟨lc, rc, hcols, -, hfloat, hlc, hrc, -⟩ := h.cols
  rw [sat, condHolds, condCmp, hcols]
  have hvalue := valueCmp_eq (l := l) (r := r) hfloat (hlen lc rc hcols) (by omega) (by omega)
  simp only [hvalue]

theorem concat_eq (hl : l.length = j.left.tupleLen) (hr : r.length = j.right.tupleLen) : j.concat l r = l ++ r := by
  rw [concat, ← hl, ← hr, take_length, take_length]

end Join

/-! ## Columns as keys -/

def keyAt (k : KeyCol) (hk : k ≠ .float) (offset : Nat) (rec : List UInt8) : Key [k] where
  bytes := (List.range k.len).map fun i => rec.getD (offset + i) 0
  length_eq := by simp [colTotLen]
  ordered := ordered_of_forall_ne _ (by simpa using hk)

theorem ixCompareCol_take (k : KeyCol) (hk : k ≠ .float) (a b : List UInt8) :
    ixCompareCol k (a.take k.len) (b.take k.len) = ixCompareCol k a b := by
  cases k with
  | int => simp only [ixCompareCol, KeyCol.len, readInt_take]
  | float => exact absurd rfl hk
  | char n => exact memcmp_take n a b

theorem ixCmp_keyAt {k : KeyCol} (hk : k ≠ .float) {lo ro : Nat} {l r : List UInt8} (hl : lo + k.len ≤ l.length)
    (hr : ro + k.len ≤ r.length) : ixCmp (keyAt k hk lo l) (keyAt k hk ro r) = ixCompareCol k (l.drop lo) (r.drop ro) := by
  rw [← ixCompareCol_take k hk (l.drop lo)]
  have hbytes : ∀ {off : Nat} {rec : List UInt8}, off + k.len ≤ rec.length →
      (keyAt k hk off rec).bytes = (rec.drop off).take k.len := by
    intro off rec h
    refine ext_getElem (by simp [keyAt]; omega) fun i hi _ => ?_
    have hi' : i < k.len := by simpa [keyAt] using hi
    simp [keyAt, List.getElem?_eq_getElem (show off + i < rec.length by omega)]
  change ixCompare [k] (keyAt k hk lo l).bytes (keyAt k hk ro r).bytes = _
  rw [hbytes hl, hbytes hr, ixCompare, ixCompare]
  split_ifs with h
  · rfl
  · exact (not_not.1 h).symm

def Ascending (c : ColMeta) (rows : List (List UInt8)) : Prop :=
  rows.Pairwise fun a b => ixCompareCol c.keyCol (a.drop c.offset) (b.drop c.offset) ≤ 0

end Rmdb.Execution
