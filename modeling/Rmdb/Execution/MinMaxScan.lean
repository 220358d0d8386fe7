/-
`MIN` and `MAX` as an index scan with a limit.

The planner makes the scan when there are no more conditions than columns in
the index. For `MIN` the first record of the range that passes the tests is
taken, for `MAX` the last one before the end of the range, tested or not.
-/
import Rmdb.Execution.IndexScanExecutor
import Rmdb.Execution.PlainScan
import Rmdb.Optimizer.Scans

namespace Rmdb.Execution

open List Index Record
open Optimizer (AggType Plan Query Planner)

variable {m : TabMeta}

/-! ## The statement -/

def Cond.condition (m : TabMeta) (c : Cond) : Option Condition := do
  let col ← m.cols.find? fun d => d.name = c.lhsCol.colName
  let raw ← c.rhsVal.raw
  some ⟨col, c.op, raw⟩

def minMaxQuery (m : TabMeta) (isMax : Bool) (conds : List Condition) : Query where
  tables := [m.name]
  conds := conds.map fun c => c.toCond m.name
  aggTypes := [if isMax then .max else .min]
  asc := true
  limit := -1
  hasSort := false
  sortBys := ⟨"", ""⟩
  isDesc := false

/-- The statement from its plan on, where that is an index scan without an
aggregate over it. -/
def selectMinMax (p : Planner) (T : Table m) (isMax : Bool) (c : ColMeta) (conds : List Condition) (mem : Uninit)
    (fuel : Nat) : Option (List (List UInt8)) := do
  let (plan, q) ← p.physicalOptimization (minMaxQuery m isMax conds)
  match plan with
  | .scan s =>
    if s.isIndexScan ∧ q.aggTypes = [.col] then do
      let i ← m.indexes.findFinIdx? fun ix => ix.colNames = s.indexColNames
      let conds ← s.conds.mapM (Cond.condition m)
      selectFrom (projection (IndexScanExecutor.iter T i conds s.asc mem fuel) [c]) fuel (none, q.limit)
    else none
  | _ => none

/-- The planner gives the conditions `fed` to the index `i`, and there are not
more of them than columns: the aggregate is dropped. -/
structure Rewritten (p : Planner) (m : TabMeta) (conds : List Condition) (i : Fin m.indexes.length)
    (fed : List Condition) : Prop where
  cols : p.getIndexCols m.name (conds.map fun c => c.toCond m.name) =
    some ((m.ix i).colNames, fed.map fun c => c.toCond m.name)
  few : fed.length ≤ (m.ix i).cols.length
  index : (m.indexes.findFinIdx? fun ix => ix.colNames = (m.ix i).colNames) = some i
  mem : ∀ c ∈ fed, c ∈ conds

section Plan

variable {p : Planner} {conds fed : List Condition} {i : Fin m.indexes.length} {isMax : Bool}

theorem physicalOptimization_minMax : p.physicalOptimization (minMaxQuery m isMax conds) =
    match p.getIndexCols m.name (conds.map fun c => c.toCond m.name) with
    | none => some (.scan ⟨false, m.name, conds.map fun c => c.toCond m.name, [], true⟩,
        { minMaxQuery m isMax conds with conds := [] })
    | some (ix, fed) =>
      if fed.length ≤ ix.length then
        some (.scan ⟨true, m.name, fed, ix, !isMax⟩,
          { minMaxQuery m isMax conds with conds := [], aggTypes := [.col], asc := !isMax, limit := 1 })
      else some (.scan ⟨true, m.name, fed, ix, true⟩, { minMaxQuery m isMax conds with conds := [] }) := by
  have hpop : ∀ c ∈ conds.map fun c => c.toCond m.name, Optimizer.popped m.name c = true := by
    intro c hc
    obtain ⟨d, -, rfl⟩ := mem_map.1 hc
    simp [Optimizer.popped, Condition.toCond]
  have hcurr : (conds.map fun c => c.toCond m.name).filter (Optimizer.popped m.name) =
      conds.map fun c => c.toCond m.name := filter_eq_self.2 hpop
  have hleft : (conds.map fun c => c.toCond m.name).filter (fun c => !Optimizer.popped m.name c) = [] :=
    filter_eq_nil_iff.2 fun c hc => by simp [hpop c hc]
  cases hcols : p.getIndexCols m.name (conds.map fun c => c.toCond m.name) with
  | none =>
    simp [Planner.physicalOptimization, Planner.makeOneRel, Planner.scanTables, Planner.scanTable, Optimizer.popConds,
      minMaxQuery, hcurr, hleft, hcols, Planner.joinScans, Optimizer.generateSortPlan]
  | some r =>
    obtain ⟨ix, fed⟩ := r
    by_cases hfew : fed.length ≤ ix.length
    · cases isMax <;>
        simp [Planner.physicalOptimization, Planner.makeOneRel, Planner.scanTables, Planner.scanTable,
          Optimizer.popConds, minMaxQuery, hcurr, hleft, hcols, hfew, Query.minMax, Planner.joinScans,
          Optimizer.generateSortPlan]
    · simp [Planner.physicalOptimization, Planner.makeOneRel, Planner.scanTables, Planner.scanTable,
        Optimizer.popConds, minMaxQuery, hcurr, hleft, hcols, hfew, Planner.joinScans, Optimizer.generateSortPlan]

theorem Rewritten.plan_eq (h : Rewritten p m conds i fed) :
    p.physicalOptimization (minMaxQuery m isMax conds) =
      some (.scan ⟨true, m.name, fed.map fun c => c.toCond m.name, (m.ix i).colNames, !isMax⟩,
        { minMaxQuery m isMax conds with conds := [], aggTypes := [.col], asc := !isMax, limit := 1 }) := by
  have hfew : (fed.map fun c => c.toCond m.name).length ≤ (m.ix i).colNames.length := by
    rw [IndexMeta.colNames, length_map, length_map]
    exact h.few
  rw [physicalOptimization_minMax, h.cols]
  exact if_pos hfew

theorem find?_name {c : ColMeta} (hc : c ∈ m.cols) : (m.cols.find? fun d => d.name = c.name) = some c := by
  obtain ⟨A, B, hAB⟩ := append_of_mem hc
  have hdistinct := m.distinct
  rw [hAB, pairwise_append] at hdistinct
  rw [List.find?_eq_some_iff_append]
  refine ⟨by simp, A, B, hAB, fun d hd => ?_⟩
  simpa using hdistinct.2.2 d hd c mem_cons_self

theorem condition_toCond {c : Condition} (hc : c.col ∈ m.cols) : (c.toCond m.name).condition m = some c := by
  change ((m.cols.find? fun d => d.name = c.col.name).bind fun col => some ⟨col, c.op, c.raw⟩) = some c
  rw [find?_name hc]
  rfl

theorem mapM_condition (hcols : ∀ c ∈ fed, c.col ∈ m.cols) :
    (fed.map fun c => c.toCond m.name).mapM (Cond.condition m) = some fed := by
  induction fed with
  | nil => rfl
  | cons c fed ih =>
    rw [map_cons, mapM_cons, condition_toCond (hcols c mem_cons_self),
      ih fun d hd => hcols d (mem_cons_of_mem _ hd)]
    rfl

theorem Rewritten.select_eq (h : Rewritten p m conds i fed) (hcols : ∀ c ∈ conds, c.col ∈ m.cols) (T : Table m)
    (c : ColMeta) (mem : Uninit) (fuel : Nat) : selectMinMax p T isMax c conds mem fuel =
      selectFrom (projection (IndexScanExecutor.iter T i fed (!isMax) mem fuel) [c]) fuel (none, 1) := by
  simp [selectMinMax, h.plan_eq, h.index, mapM_condition fun d hd => hcols d (h.mem d hd)]

end Plan

/-! ## The record that is taken -/

/-- A record behind the end of the range and before its beginning: such a scan does not meet its end. -/
def Crossed (ix : IndexMeta) (fed : List Condition) (live : Rid → Option (List UInt8)) (mem : Uninit)
    (e : Bool × List (List UInt8)) : Prop :=
  ∃ rid rec, live rid = some rec ∧ Behind ix rec e ∧ ¬ Behind ix rec (beginOf ix fed mem)

structure Stops (ix : IndexMeta) (fed : List Condition) (live : Rid → Option (List UInt8)) (mem : Uninit)
    (e : Bool × List (List UInt8)) (rec : List UInt8) : Prop where
  behind : Behind ix rec (beginOf ix fed mem)
  before : ¬ Behind ix rec e ∨ Crossed ix fed live mem e
  tested : Tested ix fed rec

/-- The record that is taken. For `MIN` it is the first of the index that the
scan stops at. For `MAX` it is the last one before the end, unless nothing is
between the beginning and the end. -/
def Taken (isMax : Bool) (ix : IndexMeta) (fed : List Condition) (live : Rid → Option (List UInt8)) (mem : Uninit)
    (e : Bool × List (List UInt8)) (rec : List UInt8) : Prop :=
  if isMax then
    ¬ Behind ix rec e ∧ (∀ rid rec', live rid = some rec' → ¬ Behind ix rec' e → ix.key rec' ≤ ix.key rec) ∧
      ∃ rid rec', live rid = some rec' ∧ ¬ (Behind ix rec' (beginOf ix fed mem) ↔ Behind ix rec' e)
  else
    Stops ix fed live mem e rec ∧
      ∀ rid rec', live rid = some rec' → Stops ix fed live mem e rec' → ix.key rec ≤ ix.key rec'

section Results

open IndexScanExecutor

variable {T : Table m} {A : Content m} {i : Fin m.indexes.length} {fed : List Condition} {mem : Uninit}
  {L : List (Block (Key (m.ix i).keyCols))} {Us : List (List (Block (Key (m.ix i).keyCols)))} {lower upper : Iid}
  {e : Bool × List (List UInt8)}

variable {x : Key (m.ix i).keyCols × Rid} {rec : List UInt8}

theorem passes_iff (hT : T.Holds A) (htyped : Typed (m.ix i).cols fed)
    (hlive : A.live x.2 = some rec) (hkey : (m.ix i).key rec = x.1) :
    passes T i (IndexScan.make (m.ix i).cols fed) x = true ↔ Tested (m.ix i) fed rec := by
  rw [← tested_iff htyped]
  simp only [passes, indexClean, (takes_make htyped).left, hT.live, hlive, Option.any_some, hkey, Bool.and_eq_true,
    Bool.or_eq_true, decide_eq_true_eq]

section Begin

variable (t : Tree (T.ihs i) L Us)
  (hrange : (IndexScan.make (m.ix i).cols fed).range (T.ihs i) mem = some (lower, upper))
  (hlower : CutAt L (beginOf (m.ix i) fed mem) lower)

include t hrange hlower

theorem beginTuple_seek {asc : Bool} (h : asc = true ∨ lower = upper) (fuel : Nat) :
    beginTuple T i (IndexScan.make (m.ix i).cols fed) asc mem fuel =
      seek T i (IndexScan.make (m.ix i).cols fed) fuel ⟨lower, upper, lower.pageNo⟩ := by
  have hend : (!IxScan.isEnd ⟨lower, upper, lower.pageNo⟩ && !asc) = false := by
    rcases h with h | h <;> simp [h, IxScan.isEnd]
  simp only [beginTuple, hrange, t.start_eq hlower upper, Option.bind_eq_bind, Option.bind_some, hend,
    Bool.false_eq_true, if_false]

theorem beginTuple_prev (h : lower ≠ upper) (fuel : Nat) :
    beginTuple T i (IndexScan.make (m.ix i).cols fed) false mem fuel =
      ((((T.ihs i).prevIid upper).bind (T.ihs i).entryAt).bind fun x => (T.fh.getRecord x.2).toOption).map fun rec =>
        ⟨⟨lower, upper, lower.pageNo⟩, some rec, false⟩ := by
  have hend : (!IxScan.isEnd ⟨lower, upper, lower.pageNo⟩ && !false) = true := by simpa [IxScan.isEnd] using h
  simp only [beginTuple, hrange, t.start_eq hlower upper, Option.bind_eq_bind, Option.bind_some, hend, if_true,
    IxIndexHandle.getRid]
  cases (T.ihs i).prevIid upper with
  | none => rfl
  | some iid =>
    rw [Option.bind_some, Option.bind_some]
    cases (T.ihs i).entryAt iid with
    | none => rfl
    | some x =>
      rw [Option.map_some, Option.bind_some, Option.bind_some]
      cases (T.fh.getRecord x.2).toOption <;> rfl

end Begin

def firstRow (T : Table m) (i : Fin m.indexes.length) (fed : List Condition) (isMax : Bool) (c : ColMeta) (mem : Uninit)
    (fuel : Nat) : Option (List (List UInt8)) :=
  selectFrom (projection (IndexScanExecutor.iter T i fed (!isMax) mem fuel) [c]) fuel (none, 1)

variable {isMax : Bool} {c : ColMeta} {fuel : Nat}

theorem firstRow_found {scan : IxScan} (hfuel : 1 < fuel)
    (h : beginTuple T i (IndexScan.make (m.ix i).cols fed) (!isMax) mem fuel = some ⟨scan, some rec, false⟩) :
    firstRow T i fed isMax c mem fuel = some [c.read rec] := by
  have hrow : ([c].flatMap fun c => c.read rec) = c.read rec := by simp
  have hbegin : (iter T i fed (!isMax) mem fuel).beginTuple none = some (some ⟨scan, some rec, false⟩) := by
    simp [IndexScanExecutor.iter, h]
  rw [firstRow, selectFrom_limit_one hbegin rfl rfl hfuel, hrow]

theorem firstRow_end {scan : IxScan} (hfuel : 0 < fuel)
    (h : beginTuple T i (IndexScan.make (m.ix i).cols fed) (!isMax) mem fuel = some ⟨scan, none, true⟩) :
    firstRow T i fed isMax c mem fuel = some [] := by
  have hbegin : (iter T i fed (!isMax) mem fuel).beginTuple none = some (some ⟨scan, none, true⟩) :=
    by simp [IndexScanExecutor.iter, h]
  rw [firstRow, selectFrom_limit_end hbegin rfl hfuel]

theorem firstRow_none (h : beginTuple T i (IndexScan.make (m.ix i).cols fed) (!isMax) mem fuel = none) :
    firstRow T i fed isMax c mem fuel = none := by
  rw [firstRow, selectFrom_none (by simp [IndexScanExecutor.iter, h])]

def Gives (T : Table m) (i : Fin m.indexes.length) (fed : List Condition) (isMax : Bool) (c : ColMeta) (mem : Uninit)
    (row : List UInt8) : Prop := ∃ enough, ∀ fuel ≥ enough, firstRow T i fed isMax c mem fuel = some [row]

theorem Gives.unique {row row' : List UInt8} (h : Gives T i fed isMax c mem row) (h' : Gives T i fed isMax c mem row') :
    row = row' := by
  obtain ⟨n, hn⟩ := h
  obtain ⟨n', hn'⟩ := h'
  have heq := (hn (max n n') (le_max_left ..)).symm.trans (hn' (max n n') (le_max_right ..))
  simpa using heq

theorem not_gives {row : List UInt8} (h : ∃ n, ∀ fuel ≥ n, firstRow T i fed isMax c mem fuel ≠ some [row]) :
    ¬ Gives T i fed isMax c mem row := by
  rintro ⟨n', hn'⟩
  obtain ⟨n, hn⟩ := h
  exact hn (max n n') (le_max_left ..) (hn' (max n n') (le_max_right ..))

structure Entries (T : Table m) (A : Content m) (i : Fin m.indexes.length)
    (L : List (Block (Key (m.ix i).keyCols))) : Prop where
  live : ∀ x ∈ flat L, ∃ rec, A.live x.2 = some rec ∧ (m.ix i).key rec = x.1
  mem : ∀ rid rec, A.live rid = some rec → ((m.ix i).key rec, rid) ∈ flat L
  sorted : (flat L).Pairwise fun x y => x.1 < y.1
  records : HaveRecords T i (flat L)

theorem entries_of (hT : T.Holds A) (hagree : A.AgreeAt i) (t : Tree (T.ihs i) L Us)
    (hL : ∀ k rid, (k, rid) ∈ flat L ↔ A.map i k = some rid) : Entries T A i L := by
  have hlive : ∀ x ∈ flat L, ∃ rec, A.live x.2 = some rec ∧ (m.ix i).key rec = x.1 :=
    fun x hx => (hagree _ _).1 ((hL x.1 x.2).1 hx)
  refine ⟨hlive, fun rid rec h => (hL _ _).2 ((hagree _ _).2 ⟨rec, h, rfl⟩), t.sorted, fun x hx => ?_⟩
  obtain ⟨rec, hrec, -⟩ := hlive x hx
  exact ⟨rec, by rw [hT.live, hrec]⟩

theorem behind_entry (hkey : (m.ix i).key rec = x.1) (b : Bool × List (List UInt8)) :
    isBehind (m.ix i).cols b.1 b.2 (valuesOf (m.ix i) x.1) = true ↔ Behind (m.ix i) rec b := by
  rw [← hkey]
  exact behind_key

theorem before_entry (hkey : (m.ix i).key rec = x.1) (b : Bool × List (List UInt8)) :
    (!isBehind (m.ix i).cols b.1 b.2 (valuesOf (m.ix i) x.1)) = true ↔ ¬ Behind (m.ix i) rec b := by
  rw [← behind_entry hkey, Bool.not_eq_true', Bool.eq_false_iff]

theorem le_of_append {κ : Type} [IxOrder κ] {X Y : List (κ × Rid)} {x y : κ × Rid}
    (h : (X ++ x :: Y).Pairwise fun a b => a.1 < b.1) (hy : y ∈ x :: Y) : x.1 ≤ y.1 := by
  rw [pairwise_append, pairwise_cons] at h
  obtain rfl | hy := mem_cons.1 hy
  · exact le_rfl
  · exact (h.2.1.1 y hy).le

theorem le_of_getLast? {κ : Type} [IxOrder κ] {X : List (κ × Rid)} (h : X.Pairwise fun a b => a.1 < b.1)
    {P : κ × Rid → Bool} {x : κ × Rid} (hlast : (X.filter P).getLast? = some x) :
    x ∈ X ∧ P x = true ∧ ∀ y ∈ X, P y = true → y.1 ≤ x.1 := by
  obtain ⟨Y, hY⟩ := List.getLast?_eq_some_iff.1 hlast
  have hx : x ∈ X.filter P := by simp [hY]
  have hsorted := h.filter P
  rw [hY, pairwise_append] at hsorted
  refine ⟨(mem_filter.1 hx).1, (mem_filter.1 hx).2, fun y hy hP => ?_⟩
  have hmem := mem_filter.2 ⟨hy, hP⟩
  rw [hY, mem_append, mem_singleton] at hmem
  obtain hmem | rfl := hmem
  · exact (hsorted.2.2 y hmem x (by simp)).le
  · exact le_rfl

theorem crossed_iff (hE : Entries T A i L) : (∃ x ∈ flat L, behindAt (m.ix i) e x.1 = true ∧
      behindAt (m.ix i) (beginOf (m.ix i) fed mem) x.1 = false) ↔ Crossed (m.ix i) fed A.live mem e := by
  constructor
  · intro ⟨x, hx, he, hb⟩
    obtain ⟨rec, hlive, hkey⟩ := hE.live x hx
    exact ⟨x.2, rec, hlive, (behind_entry hkey e).1 he,
      fun h => Bool.eq_false_iff.1 hb ((behind_entry hkey _).2 h)⟩
  · intro ⟨rid, rec, hlive, he, hb⟩
    refine ⟨_, hE.mem rid rec hlive, (behind_entry rfl e).2 he, ?_⟩
    exact Bool.eq_false_iff.2 fun h => hb ((behind_entry rfl _).1 h)

theorem stops_iff (hT : T.Holds A) (htyped : Typed (m.ix i).cols fed) (hE : Entries T A i L)
    (hlive : A.live x.2 = some rec) (hkey : (m.ix i).key rec = x.1) :
    ((behindAt (m.ix i) (beginOf (m.ix i) fed mem) x.1 = true ∧ (behindAt (m.ix i) e x.1 = false ∨
        ∃ y ∈ flat L, behindAt (m.ix i) e y.1 = true ∧ behindAt (m.ix i) (beginOf (m.ix i) fed mem) y.1 = false)) ∧
      passes T i (IndexScan.make (m.ix i).cols fed) x = true) ↔ Stops (m.ix i) fed A.live mem e rec := by
  rw [crossed_iff hE, behind_entry hkey, Bool.eq_false_iff, Ne, behind_entry hkey, passes_iff hT htyped hlive hkey]
  exact ⟨fun h => ⟨h.1.1, h.1.2, h.2⟩, fun h => ⟨⟨h.behind, h.before⟩, h.tested⟩⟩

section Scans

variable (hT : T.Holds A) (htyped : Typed (m.ix i).cols fed) (hE : Entries T A i L) (t : Tree (T.ihs i) L Us)
  (hrange : (IndexScan.make (m.ix i).cols fed).range (T.ihs i) mem = some (lower, upper))
  (hlower : CutAt L (beginOf (m.ix i) fed mem) lower) (hupper : CutAt L e upper)

include hT htyped hE t hrange hlower hupper

theorem min_result : (∃ rid rec, A.live rid = some rec ∧ Taken false (m.ix i) fed A.live mem e rec ∧
      Gives T i fed false c mem (c.read rec)) ∨
    ((∀ rid rec, A.live rid = some rec → ¬ Taken false (m.ix i) fed A.live mem e rec) ∧
      ∀ row, ¬ Gives T i fed false c mem row) := by
  obtain ⟨X, R, D, hflat, hlo, hR, hbefore, hend⟩ := t.reach hlower hupper
  have hbegin : ∀ fuel, beginTuple T i (IndexScan.make (m.ix i).cols fed) (!false) mem fuel = _ :=
    beginTuple_seek t hrange hlower (.inl rfl)
  have hstops : ∀ {x : Key (m.ix i).keyCols × Rid} {rec : List UInt8}, A.live x.2 = some rec →
      (m.ix i).key rec = x.1 → x ∈ flat L →
      (x ∈ R ∧ passes T i (IndexScan.make (m.ix i).cols fed) x = true ↔ Stops (m.ix i) fed A.live mem e rec) := by
    intro x rec hlive hkey hx
    rw [hR, ← stops_iff hT htyped hE hlive hkey, and_iff_right hx]
  cases hfind : R.find? (passes T i (IndexScan.make (m.ix i).cols fed)) with
  | some x =>
    obtain ⟨hpass, M, B, rfl, hM⟩ := List.find?_eq_some_iff_append.1 hfind
    have hM : ∀ y ∈ M, passes T i (IndexScan.make (m.ix i).cols fed) y = false := fun y hy => by simpa using hM y hy
    have hx : x ∈ flat L := ((hR x).1 (by simp)).1
    have hflat' : flat L = X ++ (M ++ x :: (B ++ D)) := by simpa using hflat
    obtain ⟨rec, hlive, hkey⟩ := hE.live x hx
    refine .inl ⟨x.2, rec, hlive, ⟨(hstops hlive hkey hx).1 ⟨by simp, hpass⟩, fun rid' rec' hlive' hstop => ?_⟩,
      M.length + 2, fun fuel hfuel => ?_⟩
    · -- what else it would stop at comes later
      obtain ⟨hmem, hpass'⟩ := (@hstops ((m.ix i).key rec', rid') rec' hlive' rfl (hE.mem _ _ hlive')).2 hstop
      have hlater : ((m.ix i).key rec', rid') ∈ x :: B := by
        refine (mem_append.1 hmem).resolve_left fun hmem => ?_
        rw [hM _ hmem] at hpass'
        cases hpass'
      have hsorted := hE.sorted
      rw [hflat', ← append_assoc] at hsorted
      have hle := le_of_append hsorted (mem_append_left D hlater)
      rwa [hkey]
    · have hlive' : T.fh.live x.2 = some rec := by rw [hT.live, hlive]
      obtain ⟨scan, hseek⟩ :=
        seek_found t hE.records hflat' hlo hM hpass (fun k hk => hbefore k (by simp; omega)) hlive'
        (by omega : M.length < fuel)
      exact firstRow_found (by omega) ((hbegin fuel).trans hseek)
  | none =>
    have hnone : ∀ x ∈ R, passes T i (IndexScan.make (m.ix i).cols fed) x = false := by
      intro x hx
      simpa using List.find?_eq_none.1 hfind x hx
    refine .inr ⟨fun rid rec hlive htaken => ?_, fun row => not_gives ?_⟩
    · obtain ⟨hmem, hpass⟩ := (@hstops ((m.ix i).key rec, rid) rec hlive rfl (hE.mem _ _ hlive)).2 htaken.1
      rw [hnone _ hmem] at hpass
      cases hpass
    · rcases hend with hend | ⟨rfl, hover⟩
      · refine ⟨R.length + 1, fun fuel hfuel => ?_⟩
        obtain ⟨scan, hseek⟩ := seek_end t hE.records hflat hlo hnone hend (by omega : R.length < fuel)
        rw [firstRow_end (by omega) ((hbegin fuel).trans hseek)]
        simp
      · refine ⟨0, fun fuel _ => ?_⟩
        have hseek := seek_over t hE.records (by simpa using hflat) hlo hnone hover fuel
        rw [firstRow_none ((hbegin fuel).trans hseek)]
        simp

omit htyped in
theorem max_result : (∃ rid rec, A.live rid = some rec ∧ Taken true (m.ix i) fed A.live mem e rec ∧
      Gives T i fed true c mem (c.read rec)) ∨
    ((∀ rid rec, A.live rid = some rec → ¬ Taken true (m.ix i) fed A.live mem e rec) ∧
      ∀ row, ¬ Gives T i fed true c mem row) := by
  have hsame := t.cut_eq_iff hlower hupper
  by_cases heq : lower = upper
  · -- nothing between the beginning and the end
    have hbegin : ∀ fuel, beginTuple T i (IndexScan.make (m.ix i).cols fed) (!true) mem fuel = _ :=
      beginTuple_seek t hrange hlower (.inr heq)
    refine .inr ⟨fun rid rec _ htaken => ?_, fun row => not_gives ⟨1, fun fuel hfuel => ?_⟩⟩
    · obtain ⟨-, -, rid', rec', hlive', hdiff⟩ := htaken
      have hboth := hsame.1 heq _ (hE.mem rid' rec' hlive')
      refine hdiff ?_
      rw [← behind_entry (x := ((m.ix i).key rec', rid')) rfl, ← behind_entry (x := ((m.ix i).key rec', rid')) rfl e]
      exact iff_of_eq (congrArg (· = true) hboth)
    · obtain ⟨fuel, rfl⟩ : ∃ k, fuel = k + 1 := ⟨fuel - 1, by omega⟩
      have hseek : seek T i (IndexScan.make (m.ix i).cols fed) (fuel + 1) ⟨lower, upper, lower.pageNo⟩ =
          some ⟨⟨lower, upper, lower.pageNo⟩, none, true⟩ := by
        rw [seek, if_pos (by simp [IxScan.isEnd, heq])]
      rw [firstRow_end (by omega) ((hbegin _).trans hseek)]
      simp
  · have hbegin : ∀ fuel, beginTuple T i (IndexScan.make (m.ix i).cols fed) (!true) mem fuel = _ :=
      beginTuple_prev t hrange hlower heq
    rw [t.prev_cut (m.ix i).order hupper] at hbegin
    cases hlast : ((flat L).filter fun x => !behindAt (m.ix i) e x.1).getLast? with
    | none =>
      rw [hlast] at hbegin
      rw [List.getLast?_eq_none_iff, filter_eq_nil_iff] at hlast
      refine .inr ⟨fun rid rec hlive htaken => ?_, fun row => not_gives ⟨0, fun fuel _ => ?_⟩⟩
      · exact hlast _ (hE.mem rid rec hlive) ((before_entry rfl e).2 htaken.1)
      · rw [firstRow_none (hbegin fuel)]
        simp
    | some x =>
      rw [hlast] at hbegin
      obtain ⟨hx, hbefore, hmax⟩ := le_of_getLast? hE.sorted hlast
      obtain ⟨rec, hlive, hkey⟩ := hE.live x hx
      refine .inl ⟨x.2, rec, hlive, ⟨(before_entry hkey e).1 hbefore, fun rid rec' hlive' hbefore' => ?_, ?_⟩, 2,
        fun fuel hfuel => ?_⟩
      · rw [hkey]
        exact hmax _ (hE.mem rid rec' hlive') ((before_entry rfl e).2 hbefore')
      · obtain ⟨y, hy, hdiff⟩ : ∃ y ∈ flat L,
            behindAt (m.ix i) (beginOf (m.ix i) fed mem) y.1 ≠ behindAt (m.ix i) e y.1 := by
          by_contra hall
          exact heq (hsame.2 fun y hy => by_contra fun h => hall ⟨y, hy, h⟩)
        obtain ⟨rec', hlive', hkey'⟩ := hE.live y hy
        refine ⟨y.2, rec', hlive', fun hiff => hdiff ?_⟩
        rw [← behind_entry hkey', ← behind_entry hkey' e] at hiff
        exact Bool.eq_iff_iff.2 hiff
      · have hget : (T.fh.getRecord x.2).toOption = some rec := by
          rw [RmFileHandle.getRecord_eq (by rw [hT.live, hlive])]
          rfl
        rw [Option.bind_some, hget, Option.map_some] at hbegin
        exact firstRow_found (by omega) (hbegin fuel)

end Scans

/-- The statement gives the row of the record that is taken, and if there is none it does not give one row. -/
theorem rows_cases (isMax : Bool) (c : ColMeta) (hT : T.Holds A) (hagree : A.AgreeAt i)
    (htyped : Typed (m.ix i).cols fed) (hmem : mem.Fits (m.ix i)) (hend : endOf (m.ix i) fed mem = some e) :
    (∃ rid rec, A.live rid = some rec ∧ Taken isMax (m.ix i) fed A.live mem e rec ∧
      Gives T i fed isMax c mem (c.read rec)) ∨
    ((∀ rid rec, A.live rid = some rec → ¬ Taken isMax (m.ix i) fed A.live mem e rec) ∧
      ∀ row, ¬ Gives T i fed isMax c mem row) := by
  obtain ⟨L, Us, lower, upper, t, hL, hrange, hlower, hupper⟩ := scan_positions hT htyped hmem
  rw [hend] at hupper
  have hE := entries_of hT hagree t hL
  cases isMax with
  | false => exact min_result hT htyped hE t hrange hlower hupper
  | true => exact max_result hT hE t hrange hlower hupper

theorem taken_unique (hagree : A.AgreeAt i) {rid rid' : Rid} {rec' : List UInt8} (hlive : A.live rid = some rec)
    (hlive' : A.live rid' = some rec') (h : Taken isMax (m.ix i) fed A.live mem e rec)
    (h' : Taken isMax (m.ix i) fed A.live mem e rec') : rec = rec' := by
  have hkey : (m.ix i).key rec = (m.ix i).key rec' := by
    cases isMax with
    | false => exact le_antisymm (h.2 rid' rec' hlive' h'.1) (h'.2 rid rec hlive h.1)
    | true => exact le_antisymm (h'.2.1 rid rec hlive h.1) (h.2.1 rid' rec' hlive' h'.1)
  have hmap := (hagree _ _).2 ⟨rec, hlive, rfl⟩
  rw [hkey, (hagree _ _).2 ⟨rec', hlive', rfl⟩, Option.some.injEq] at hmap
  rw [hmap, hlive, Option.some.injEq] at hlive'
  exact hlive'

/-- If the end was not set, it may have been where the scan begins. -/
theorem unset_end (isMax : Bool) (c : ColMeta) (hT : T.Holds A) (htyped : Typed (m.ix i).cols fed)
    (hmem : mem.Fits (m.ix i)) (hend : endOf (m.ix i) fed mem = none) :
    ∃ mem', mem'.Fits (m.ix i) ∧ ∀ row, ¬ Gives T i fed isMax c mem' row := by
  obtain ⟨L, Us, lower, -, t, -, -, hlower, -⟩ := scan_positions hT htyped hmem
  have hmem' : Uninit.Fits { mem with upper := lower } (m.ix i) := ⟨hmem.left, hmem.right⟩
  obtain ⟨lower', upper, hrange, hlower', hupper⟩ := (takes_make htyped).range_eq t hmem'.left hmem'.right
  have hupper : EndAt L { mem with upper := lower } upper (endOf (m.ix i) fed mem) := hupper
  rw [hend] at hupper
  obtain rfl : upper = lower := hupper
  obtain rfl : lower' = upper := (t.cut_eq_iff hlower' hlower).2 fun _ _ => rfl
  refine ⟨_, hmem', fun row => not_gives ⟨1, fun fuel hfuel => ?_⟩⟩
  obtain ⟨fuel, rfl⟩ : ∃ k, fuel = k + 1 := ⟨fuel - 1, by omega⟩
  have hseek : seek T i (IndexScan.make (m.ix i).cols fed) (fuel + 1) ⟨lower', lower', lower'.pageNo⟩ =
      some ⟨⟨lower', lower', lower'.pageNo⟩, none, true⟩ := by
    rw [seek, if_pos (by simp [IxScan.isEnd])]
  rw [firstRow_end (by omega) ((beginTuple_seek t hrange hlower' (.inr rfl) _).trans hseek)]
  simp

end Results

end Rmdb.Execution
