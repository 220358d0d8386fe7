/-
The executors of a `SELECT` without conditions.

Its plan is a sequential scan of each table, nested-loop joins without
conditions, and a sort where there is an `ORDER BY`. What comes out are the rows
of the cross product.
-/
import Rmdb.Optimizer.Joins
import Rmdb.Execution.SeqScanExecutor
import Rmdb.Execution.NestedLoopJoin

namespace Rmdb.Execution

open List Index Record
open Optimizer (Plan ScanPlan Query Planner generateSortPlan)

/-! ## Sorting -/

/-- `std::sort`: what it does with a comparison is its own affair, but the elements stay. -/
structure StdSort where
  sort : (List UInt8 → List UInt8 → Bool) → List (List UInt8) → List (List UInt8)
  perm : ∀ less rows, (sort less rows).Perm rows

structure SortExecutor (σ : Type) where
  prev : σ
  records : List (List UInt8)
  currentTuple : Option (List UInt8)
  isEnd : Bool

namespace SortExecutor

variable {σ : Type} (std : StdSort) (prev : Executor σ) (col : ColMeta) (isDesc : Bool)

def drain : Nat → σ → List (List UInt8) → Option (List (List UInt8) × σ)
  | 0, _, _ => none
  | fuel + 1, s, records =>
    if prev.isEnd s then some (records, s)
    else do
      let (rec, s) ← prev.next s
      let s ← prev.nextTuple s
      drain fuel s (records ++ [rec])

def less (l r : List UInt8) : Bool :=
  if isDesc then compare col (col.read l) (col.read r) > 0 else compare col (col.read l) (col.read r) < 0

/-- `is_end_` is not set back. -/
def beginTuple (fuel : Nat) (s : SortExecutor σ) : Option (SortExecutor σ) := do
  let child ← prev.beginTuple s.prev
  let (records, child) ← drain prev fuel child []
  match std.sort (less col isDesc) records with
  | [] => some ⟨child, [], none, true⟩
  | r :: records => some ⟨child, records, some r, s.isEnd⟩

def nextTuple (s : SortExecutor σ) : Option (SortExecutor σ) :=
  match s.records with
  | [] => some { s with isEnd := true }
  | r :: records => some { s with records := records, currentTuple := some r }

def executor (fuel : Nat) : Executor (SortExecutor σ) where
  beginTuple := beginTuple std prev col isDesc fuel
  nextTuple := nextTuple
  isEnd := SortExecutor.isEnd
  next s := s.currentTuple.map fun rec => (rec, { s with currentTuple := none })
  cols := prev.cols
  tupleLen := prev.tupleLen
  isSort := true

variable {std prev col isDesc} {fuel : Nat}

theorem drain_eq {P : σ → Prop} : ∀ {rows records : List (List UInt8)} {fuel : Nat} {s : σ}, rows.length < fuel →
    prev.Shows P rows s → ∃ s', drain prev fuel s records = some (records ++ rows, s') ∧ P s'
  | _, _, 0, _, hfuel, _ => absurd hfuel (Nat.not_lt_zero _)
  | [], records, fuel + 1, s, _, h => by
    refine ⟨s, ?_, h.1⟩
    rw [drain, if_pos h.2, append_nil]
  | r :: rows, records, fuel + 1, s, hfuel, h => by
    obtain ⟨-, hend, s₁, hnext, -, -, s₂, hstep, hrest⟩ := h
    obtain ⟨s', hdrain, hP⟩ := @drain_eq P rows (records ++ [r]) fuel s₂ (Nat.lt_of_succ_lt_succ hfuel) hrest
    refine ⟨s', ?_, hP⟩
    rw [drain, if_neg (by simp [hend]), hnext]
    simp only [Option.bind_eq_bind, Option.bind_some, hstep, hdrain, append_assoc, singleton_append]

variable {P : σ → Prop} {s : SortExecutor σ}

theorem shows_records : ∀ {records : List (List UInt8)} {child : σ} {r : List UInt8}, P child →
    (executor std prev col isDesc fuel).Shows (fun s => P s.prev) (r :: records) ⟨child, records, some r, false⟩
  | [], child, _, h => ⟨h, rfl, ⟨child, [], none, false⟩, rfl, h, rfl, ⟨child, [], none, true⟩, rfl, h, rfl⟩
  | r' :: records, child, _, h => ⟨h, rfl, ⟨child, r' :: records, none, false⟩, rfl, h, rfl, _, rfl, shows_records h⟩

variable (std col isDesc)

theorem beginTuple_eq {child : σ} (hbegin : prev.beginTuple s.prev = some child) (hshows : prev.Shows P rows child)
    (hfuel : rows.length < fuel) : ∃ s', (executor std prev col isDesc fuel).beginTuple s = some s' ∧ P s'.prev ∧
      (s.isEnd = true → s'.isEnd = true) ∧ (s.isEnd = false →
        (executor std prev col isDesc fuel).Shows (fun s => P s.prev) (std.sort (less col isDesc) rows) s') := by
  obtain ⟨s₂, hdrain, hP⟩ := @drain_eq _ prev P rows [] fuel child hfuel hshows
  have heq : (executor std prev col isDesc fuel).beginTuple s =
      match std.sort (less col isDesc) rows with
      | [] => some ⟨s₂, [], none, true⟩
      | r :: records => some ⟨s₂, records, some r, s.isEnd⟩ := by
    show beginTuple std prev col isDesc fuel s = _
    simp only [beginTuple, hbegin, Option.bind_eq_bind, Option.bind_some, hdrain, nil_append]
  cases hsort : std.sort (less col isDesc) rows with
  | nil =>
    rw [hsort] at heq
    exact ⟨_, heq, hP, fun _ => rfl, fun _ => ⟨hP, rfl⟩⟩
  | cons r records =>
    rw [hsort] at heq
    refine ⟨_, heq, hP, fun h => h, fun hfresh => ?_⟩
    rw [hfresh]
    exact shows_records hP

theorem begins_sorted (hprev : prev.Begins rows s.prev) (hfuel : rows.length < fuel) (hfresh : s.isEnd = false) :
    (executor std prev col isDesc fuel).Begins (std.sort (less col isDesc) rows) s := by
  obtain ⟨child, hbegin, hshows⟩ := hprev
  obtain ⟨s', hs', _, _, hrows⟩ := beginTuple_eq std col isDesc hbegin hshows hfuel
  exact ⟨s', hs', (hrows hfresh).forget⟩

/-! ### Passes over a sort -/

def Sorts (std : StdSort) (prev : Executor σ) (col : ColMeta) (isDesc : Bool) (fuel : Nat) (rows : List (List UInt8))
    (s : SortExecutor σ) : Prop :=
  ∃ out, (executor std prev col isDesc fuel).Begins out s ∧ out.Perm rows ∧
    out.Pairwise fun a b => less col isDesc b a = false

theorem passes_isEnd (hprev : prev.Replays P rows) (hfuel : rows.length < fuel) : ∀ (ks : List Nat)
    {s : SortExecutor σ}, P s.prev → ∃ s', (executor std prev col isDesc fuel).passes ks s = some s' ∧ P s'.prev ∧
      (s'.isEnd = true ↔ s.isEnd = true ∨ ∃ k ∈ ks, rows.length ≤ k)
  | [], s, hs => ⟨s, rfl, hs, by simp⟩
  | k :: ks, s, hs => by
    obtain ⟨child, hbegin, hshows⟩ := hprev s.prev hs
    obtain ⟨s₁, hs₁, hP₁, hended, hrows⟩ := beginTuple_eq std col isDesc hbegin hshows hfuel
    obtain ⟨s₂, hs₂, hP₂, hend₂⟩ : ∃ s₂, (executor std prev col isDesc fuel).take k s₁ = some s₂ ∧ P s₂.prev ∧
        (s₂.isEnd = true ↔ s.isEnd = true ∨ rows.length ≤ k) := by
      cases hend : s.isEnd with
      | true => exact ⟨s₁, Iter.take_of_isEnd (hended hend) k, hP₁, by simp [hended hend]⟩
      | false =>
        obtain ⟨s₂, hs₂, hrest⟩ := (hrows hend).take k
        refine ⟨s₂, hs₂, hrest.state, ?_⟩
        have hempty : s₂.isEnd = _ := hrest.isEnd_eq
        simp [hempty, (std.perm _ rows).length_eq]
    obtain ⟨s', hs', hP', hend'⟩ := passes_isEnd hprev hfuel ks hP₂
    refine ⟨s', ?_, hP', by rw [hend', hend₂]; simp [or_assoc]⟩
    simp [Iter.passes, hs₁, hs₂, hs']

def twoRows : Executor (List (List UInt8)) :=
  { Iter.ofList [[2, 0, 0, 0], [1, 0, 0, 0]] with cols := [], tupleLen := 4, isSort := false }

def intCol : ColMeta := .intAt "a" 0

def reversal : StdSort := ⟨fun _ rows => rows.reverse, fun _ rows => rows.reverse_perm⟩

end SortExecutor

/-! ## The tree of executors -/

/-- An executor as it was constructed. -/
structure AnyExecutor where
  State : Type
  exec : Executor State
  start : State

def AnyExecutor.Replays (e : AnyExecutor) (rows : List (List UInt8)) : Prop := ∃ P, e.exec.Replays P rows ∧ P e.start

structure TableFile where
  cols : List ColMeta
  recordSize : Nat
  file : RmFileHandle

variable (tables : String → TableFile) (std : StdSort) (fuel : Nat)

def scanExecutor (tabName : String) : AnyExecutor where
  State := SeqScan
  exec := SeqScan.executor (tables tabName).file [] ((tables tabName).cols.map (Col.mk tabName))
    (tables tabName).recordSize fuel
  start := ⟨⟨noPage, -1⟩, none⟩

def joinExecutor (left right : AnyExecutor) : AnyExecutor where
  State := NestedLoopJoin left.State right.State
  exec := NestedLoopJoin.executor ⟨left.exec, right.exec, []⟩ fuel
  start := .init left.start right.start 0

/-- `convert_plan_executor`, for plans without conditions. -/
def convertPlanExecutor : Plan → Option AnyExecutor
  | .scan s => if s.isIndexScan = false ∧ s.conds = [] then some (scanExecutor tables fuel s.tabName) else none
  | .join .nestLoop left right [] => do
    let left ← convertPlanExecutor left
    let right ← convertPlanExecutor right
    some (joinExecutor fuel left right)
  | .join .. => none
  | .sort subplan selCol isDesc => do
    let prev ← convertPlanExecutor subplan
    (getCol prev.exec.cols selCol).map fun col =>
      ⟨SortExecutor prev.State, SortExecutor.executor std prev.exec col.col isDesc fuel, ⟨prev.start, [], none, false⟩⟩

/-! ## The cross product -/

def tableRows (tabName : String) : List (List UInt8) :=
  SeqScan.records (tables tabName).file [] (tableRids (tables tabName).file)

def cross (rows : List (List UInt8)) (tabName : String) : List (List UInt8) :=
  (tableRows tables tabName).flatMap fun l => rows.map fun r => l ++ r

structure TableFile.Valid (t : TableFile) : Prop where
  heap : t.file.HeapOK
  header : ∀ i, (t.file.pages 0).slots i = none
  size : ∀ rid rec, t.file.live rid = some rec → rec.length = t.recordSize

variable {tables std fuel} {tabName : String} {rows : List (List UInt8)}

theorem length_of_mem_tableRows (h : (tables tabName).Valid) {r : List UInt8} (hr : r ∈ tableRows tables tabName) :
    r.length = (tables tabName).recordSize := by
  obtain ⟨rid, -, hlive⟩ := mem_filterMap.1 (mem_filter.1 hr).1
  exact h.size rid r hlive

theorem length_tableRows (h : (tables tabName).Valid) :
    (tableRows tables tabName).length = (tableRids (tables tabName).file).length := by
  have hall : ∀ r ∈ (tableRids (tables tabName).file).filterMap (tables tabName).file.live, cmpConds [] r = true :=
    fun _ _ => rfl
  have hsome : ∀ rid ∈ tableRids (tables tabName).file, ((tables tabName).file.live rid).isSome :=
    fun rid hrid => (mem_tableRids h.heap h.header).1 hrid
  rw [tableRows, SeqScan.records, filter_eq_self.2 hall, filterMap_length_eq_length.2 hsome]

theorem replays_scanExecutor (h : (tables tabName).Valid) (hfuel : (tableRows tables tabName).length < fuel) :
    (scanExecutor tables fuel tabName).Replays (tableRows tables tabName) := by
  rw [length_tableRows h] at hfuel
  exact ⟨_, SeqScan.replays_records h.heap h.header hfuel, trivial⟩

theorem found_eq_self {σ τ : Type} {j : Join σ τ} (h : j.fedConds = []) (l : List UInt8) :
    ∀ rs : List (List UInt8), NestedLoopJoin.found j l rs = rs
  | [] => rfl
  | r :: rs => by
    have hpass : NestedLoopJoin.passes j l r = true := by
      rw [NestedLoopJoin.passes, h]
      rfl
    rw [NestedLoopJoin.found, if_pos hpass, found_eq_self h l rs]

variable {e : AnyExecutor} {q : Query} {t : String} {rest : List String}

theorem replays_joinExecutor (h : (tables tabName).Valid) (he : e.Replays rows)
    (hlen : ∀ r ∈ rows, r.length = e.exec.tupleLen) (hfuel : (tableRows tables tabName).length < fuel)
    (hfuel' : rows.length < fuel) :
    (joinExecutor fuel (scanExecutor tables fuel tabName) e).Replays (cross tables rows tabName) := by
  obtain ⟨P, hscan, hP⟩ := replays_scanExecutor h hfuel
  obtain ⟨Q, hrows, hQ⟩ := he
  refine ⟨NestedLoopJoin.Inv P Q rows, ?_, NestedLoopJoin.inv_init hP hQ 0⟩
  have hjoin := @NestedLoopJoin.replays_rows _ _ ⟨(scanExecutor tables fuel tabName).exec, e.exec, []⟩ P Q _ rows fuel
    nofun hrows hfuel' hscan hfuel
  have heq : NestedLoopJoin.rows ⟨(scanExecutor tables fuel tabName).exec, e.exec, []⟩ (tableRows tables tabName) rows =
      cross tables rows tabName := by
    unfold NestedLoopJoin.rows cross
    refine flatMap_congr fun l hl => ?_
    rw [found_eq_self rfl]
    exact map_congr_left fun r hr => Join.concat_eq (length_of_mem_tableRows h hl) (hlen r hr)
  rwa [heq] at hjoin

theorem length_of_mem_cross (h : (tables tabName).Valid) (hlen : ∀ r ∈ rows, r.length = e.exec.tupleLen) :
    ∀ r ∈ cross tables rows tabName,
      r.length = (joinExecutor fuel (scanExecutor tables fuel tabName) e).exec.tupleLen := by
  intro r hr
  obtain ⟨l, hl, hr⟩ := mem_flatMap.1 hr
  obtain ⟨r', hr', rfl⟩ := mem_map.1 hr
  rw [length_append, length_of_mem_tableRows h hl, hlen r' hr']
  rfl

/-! ## The plan of the planner -/

def seqPlan (tabName : String) : ScanPlan := ⟨false, tabName, [], [], true⟩

variable (tables fuel) in
def joinedExecutor (t : String) (rest : List String) : AnyExecutor :=
  rest.foldl (fun e t => joinExecutor fuel (scanExecutor tables fuel t) e) (scanExecutor tables fuel t)

variable (tables) in
def crossRows (t : String) (rest : List String) : List (List UInt8) := rest.foldl (cross tables) (tableRows tables t)

variable (tables fuel) in
/-- More steps than a table or a part of the cross product has rows. -/
def Enough (t : String) (rest : List String) : Prop :=
  (∀ t' ∈ t :: rest, (tableRows tables t').length < fuel) ∧ ∀ n ≤ rest.length,
    (crossRows tables t (rest.take n)).length < fuel

theorem scanTables_nil (p : Planner) (h : q.conds = []) : ∀ ts : List String, p.scanTables q ts = (ts.map seqPlan, q)
  | [] => rfl
  | t :: ts => by
    have hscan : p.scanTable q t = (seqPlan t, q) := by
      unfold Planner.scanTable Optimizer.popConds Planner.getIndexCols
      obtain ⟨tabs, conds⟩ := q
      obtain rfl : conds = [] := h
      rfl
    rw [Planner.scanTables, hscan]
    simp only [scanTables_nil p h ts, map_cons]

theorem physicalOptimization_nil (p : Planner) (h : q.conds = []) (htables : q.tables = t :: rest) :
    ∃ q', p.physicalOptimization q =
      some (generateSortPlan q (Planner.joinRest [0] (rest.map seqPlan) 1 (.scan (seqPlan t))), q') := by
  obtain ⟨q', hjoin, hsort, hsortBys, hdesc⟩ := @Optimizer.joinScans_nil p q t rest seqPlan h
  refine ⟨q', ?_⟩
  have hplan : Planner.joinRest [0] ((t :: rest).map seqPlan) 0 (.scan (seqPlan t)) =
      Planner.joinRest [0] (rest.map seqPlan) 1 (.scan (seqPlan t)) := rfl
  simp only [Planner.physicalOptimization, Planner.makeOneRel, htables, scanTables_nil p h, hjoin, Option.bind_eq_bind,
    Option.bind_some, hplan, generateSortPlan, hsort, hsortBys, hdesc]

theorem convertPlanExecutor_joinRest : ∀ {rest : List String} {i : Nat} {plan : Plan} {e : AnyExecutor}, 1 ≤ i →
    convertPlanExecutor tables std fuel plan = some e →
    convertPlanExecutor tables std fuel (Planner.joinRest [0] (rest.map seqPlan) i plan) =
      some (rest.foldl (fun e t => joinExecutor fuel (scanExecutor tables fuel t) e) e)
  | [], _, _, _, _, he => he
  | t :: rest, i, plan, e, hi, he => by
    have hne : i ∉ [0] := by simp; omega
    have hjoin : convertPlanExecutor tables std fuel (.join .nestLoop (.scan (seqPlan t)) plan []) =
        some (joinExecutor fuel (scanExecutor tables fuel t) e) := by
      simp [convertPlanExecutor, he, seqPlan]
    rw [map_cons, Planner.joinRest, if_neg hne, convertPlanExecutor_joinRest (by omega) hjoin]
    rfl

theorem replays_foldl : ∀ {rest : List String} {e : AnyExecutor} {rows : List (List UInt8)},
    (∀ t ∈ rest, (tables t).Valid) → e.Replays rows → (∀ r ∈ rows, r.length = e.exec.tupleLen) →
    (∀ t ∈ rest, (tableRows tables t).length < fuel) →
    (∀ n ≤ rest.length, ((rest.take n).foldl (cross tables) rows).length < fuel) →
    (rest.foldl (fun e t => joinExecutor fuel (scanExecutor tables fuel t) e) e).Replays
    (rest.foldl (cross tables) rows)
  | [], _, _, _, he, _, _, _ => he
  | t :: rest, e, rows, hvalid, he, hlen, hfuel, hcross => by
    have ht := hvalid t mem_cons_self
    rw [foldl_cons, foldl_cons]
    refine replays_foldl (fun t ht => hvalid t (mem_cons_of_mem _ ht))
      (replays_joinExecutor ht he hlen (hfuel t mem_cons_self) (hcross 0 (Nat.zero_le _)))
      (length_of_mem_cross ht hlen) (fun t ht => hfuel t (mem_cons_of_mem _ ht)) fun n hn => ?_
    exact hcross (n + 1) (Nat.succ_le_succ hn)

theorem replays_joinedExecutor (hvalid : ∀ t' ∈ t :: rest, (tables t').Valid)
    (hfuel : Enough tables fuel t rest) : (joinedExecutor tables fuel t rest).Replays (crossRows tables t rest) :=
  replays_foldl (fun t ht => hvalid t (mem_cons_of_mem _ ht))
    (replays_scanExecutor (hvalid t mem_cons_self) (hfuel.1 t mem_cons_self))
    (fun _ hr => length_of_mem_tableRows (hvalid t mem_cons_self) hr)
    (fun t ht => hfuel.1 t (mem_cons_of_mem _ ht)) hfuel.2

variable (tables std fuel) in
def queryRows (q : Query) (t : String) (rest : List String) : Option (List (List UInt8)) :=
  if q.hasSort then
    (getCol (joinedExecutor tables fuel t rest).exec.cols q.sortBys).map fun col =>
      std.sort (SortExecutor.less col.col q.isDesc) (crossRows tables t rest)
  else some (crossRows tables t rest)

theorem queryRows_of_single (h : q.hasSort = false) (t : String) :
    queryRows tables std fuel q t [] = some (tableRows tables t) := by
  rw [queryRows, if_neg (by simp [h])]
  rfl

theorem begins_queryRows {p : Planner} {q' : Query} {plan : Plan}
    (hvalid : ∀ t' ∈ t :: rest, (tables t').Valid) (hfuel : Enough tables fuel t rest) (hconds : q.conds = [])
    (htables : q.tables = t :: rest) (hplan : p.physicalOptimization q = some (plan, q'))
    (he : convertPlanExecutor tables std fuel plan = some e) :
    ∃ rows, queryRows tables std fuel q t rest = some rows ∧ rows.Perm (crossRows tables t rest) ∧
      e.exec.Begins rows e.start := by
  obtain ⟨q'', hplan'⟩ := physicalOptimization_nil p hconds htables
  obtain ⟨P, hreplays, hP⟩ := replays_joinedExecutor hvalid hfuel
  have hjoined : convertPlanExecutor tables std fuel
      (Planner.joinRest [0] (rest.map seqPlan) 1 (.scan (seqPlan t))) = some (joinedExecutor tables fuel t rest) :=
    convertPlanExecutor_joinRest le_rfl (by simp [convertPlanExecutor, seqPlan])
  have hbegins := hreplays.begins hP
  obtain ⟨rfl, -⟩ : generateSortPlan q _ = plan ∧ q'' = q' := by simpa [hplan'] using hplan
  unfold queryRows
  unfold generateSortPlan at he
  split at he
  · next hsort =>
    rw [if_pos hsort]
    simp only [convertPlanExecutor, hjoined, Option.bind_eq_bind, Option.bind_some, Option.map_eq_some_iff] at he
    obtain ⟨col, hcol, rfl⟩ := he
    rw [hcol]
    exact ⟨_, rfl, std.perm _ _, SortExecutor.begins_sorted _ _ _ hbegins
      (by simpa using hfuel.2 rest.length le_rfl) rfl⟩
  · next hsort =>
    rw [if_neg hsort]
    obtain rfl := Option.some.inj (hjoined.symm.trans he)
    exact ⟨_, rfl, .refl _, hbegins⟩

end Rmdb.Execution
