/-
What a sort-merge join is given.

The planner takes a sort-merge join for the first condition when nested loops
are switched off and each child is a sort or an index scan. It does not ask
which column the sort or the index goes by, nor in which direction.
-/
import Rmdb.Optimizer.Order

namespace Rmdb.Optimizer

open Execution

section Inputs

variable {V : Type} [LinearOrder V] {lit : RawValue → V} {p : Planner} {q : Query} {plan : Plan}
  {indexes : String → List (List String)}

/-- Both children of every sort-merge join deliver their rows in ascending order
of the column that the first condition of the join has on that side. -/
def MergesSorted (lit : RawValue → V) (indexes : String → List (List String)) (plan : Plan) : Prop :=
  ∀ m ∈ plan.merges, ∀ c ∈ m.2.2, Honoured lit indexes m.1 c.lhsCol false ∧ Honoured lit indexes m.2.1 c.rhsCol false

namespace Leaf

/-- Records that meet the conditions of the scan stand in the order of the
column, whenever the scan or the sort over it may give them so. -/
def Ascends (lit : RawValue → V) (indexes : String → List (List String)) (l : Leaf) (col : TabCol) : Prop :=
  ∀ r r' : Record V, l.scan.passes lit r → l.scan.passes lit r' → Apart indexes l.tabName r r' → l.Before r r' →
    r col.colName ≤ r' col.colName

def ordered (l : Leaf) : Bool := l.sorted.isSome || l.scan.isIndexScan

theorem isOrdered_plan (l : Leaf) : Planner.isOrdered l.plan = l.ordered := by
  obtain ⟨s, _ | ⟨col, isDesc⟩⟩ := l <;> rfl

theorem honoured_iff_ascends (l : Leaf) (col : TabCol) :
    Honoured lit indexes l.plan col false ↔ l.Ascends lit indexes col := by
  constructor
  · intro hon r r' hr hr' hapart hbefore
    have hrecords : ((ofTwo indexes (fun _ => r) fun _ => r').records l.tabName).filter (l.scan.passes lit) =
        [r, r'] := by
      simp [ofTwo, hapart, hr, hr']
    have hout := hon _ _ (l.delivers_iff.2 ⟨[r, r'], by rw [hrecords], by simpa using hbefore, rfl⟩)
    exact (List.pairwise_cons.1 hout).1 _ List.mem_cons_self
  · intro hasc db out hout
    obtain ⟨rows, hrows, hsorted, rfl⟩ := l.delivers_iff.1 hout
    have hpass : ∀ r ∈ rows, l.scan.passes lit r := fun r hr => (List.mem_filter.1 (hrows.mem_iff.1 hr)).2
    rw [List.pairwise_map]
    exact ((db.apart hrows).and hsorted).imp_of_mem fun hr hr' h => hasc _ _ (hpass _ hr) (hpass _ hr') h.1 h.2

/-- A sort by the column does, and so does an upward scan of an index that
begins with it. -/
theorem ascends_of_first {l : Leaf} {col : TabCol} (h : l.sorted = some (col, false) ∨
      l.sorted = none ∧ l.scan.isIndexScan = true ∧ l.scan.asc = true ∧ ∃ ix, l.scan.indexColNames = col.colName :: ix) :
    l.Ascends lit indexes col := by
  intro r r' _ _ _ hbefore
  unfold Leaf.Before at hbefore
  rcases h with h | ⟨h, hscan, hasc, ix, hix⟩
  · rw [h] at hbefore
    exact hbefore
  · rw [h] at hbefore
    have hkeys := hbefore hscan
    rw [hasc, hix] at hkeys
    have hkeys : (r col.colName :: ix.map r) ≤ r' col.colName :: ix.map r' := hkeys
    exact not_lt.1 fun hlt => absurd hkeys (not_le.2 (List.Lex.rel hlt))

end Leaf

/-- A sort-merge join is taken for the condition: nested loops are switched off,
and both of its tables are sorted or scanned through an index. -/
def Planner.MergesBy (p : Planner) (q : Query) (c : Cond) : Prop :=
  p.enableNestedloopJoin = false ∧ p.enableSortmergeJoin = true ∧
    (p.leafOf q c.lhsCol.tabName).ordered = true ∧ (p.leafOf q c.rhsCol.tabName).ordered = true

theorem joinTag_sortMerge {l r : Leaf} : p.joinTag l.plan r.plan = some .sortMerge ↔
    p.enableNestedloopJoin = false ∧ p.enableSortmergeJoin = true ∧ l.ordered = true ∧ r.ordered = true := by
  rw [Planner.joinTag, l.isOrdered_plan, r.isOrdered_plan]
  cases p.enableNestedloopJoin <;> cases p.enableSortmergeJoin <;> cases l.ordered <;> cases r.ordered <;> simp

theorem mem_merges {m : Plan × Plan × Option Cond} : m ∈ p.merges q ↔ ∃ c ∈ q.joinConds.head?, p.MergesBy q c ∧
    m = ((p.leafOf q c.lhsCol.tabName).plan, (p.leafOf q c.rhsCol.tabName).plan, some c) := by
  rw [Planner.merges]
  split
  · simp [*]
  next c _ hjoins => simp [hjoins, joinTag_sortMerge, Planner.MergesBy]

/-- Sort-merge joins have sorted inputs exactly when the first condition does
not lead to one, or the sort or the index that each of its tables is read
through ascends in the column of the condition. -/
theorem mergesSorted_iff (lit : RawValue → V) (p : Planner) (q : Query) (h : q.WF) (plan : Plan) (q' : Query)
    (hmake : p.makeOneRel q = some (plan, q')) :
    MergesSorted lit p.indexes plan ↔ ∀ c ∈ q.joinConds.head?, p.MergesBy q c →
      (p.leafOf q c.lhsCol.tabName).Ascends lit p.indexes c.lhsCol ∧
        (p.leafOf q c.rhsCol.tabName).Ascends lit p.indexes c.rhsCol := by
  obtain ⟨-, hmerges, -⟩ := makeOneRel_built h hmake
  rw [MergesSorted, hmerges]
  constructor
  · intro hsorted c hc hby
    rw [← Leaf.honoured_iff_ascends, ← Leaf.honoured_iff_ascends]
    exact hsorted _ (mem_merges.2 ⟨c, hc, hby, rfl⟩) c rfl
  · intro hasc m hm c' hc'
    obtain ⟨c, hc, hby, rfl⟩ := mem_merges.1 hm
    obtain rfl : c = c' := by simpa using hc'
    rw [Leaf.honoured_iff_ascends, Leaf.honoured_iff_ascends]
    exact hasc c hc hby

end Inputs

/-! ## Three queries -/

def mergePlanner (indexes : List (List String)) : Planner :=
  { plannerWith indexes with enableNestedloopJoin := false }

def mergeQuery (conds : List Cond) (isDesc : Bool) : Query :=
  { select ["t", "u"] (colCond "t" "a" "u" "a" :: conds) (some ⟨"t", "a"⟩) with isDesc := isDesc }

theorem mergesSorted_mergeQuery : ∃ plan q', (mergePlanner [["a"]]).makeOneRel (mergeQuery [] false) = some (plan, q') ∧
    plan.merges ≠ [] ∧ MergesSorted intConst (mergePlanner [["a"]]).indexes plan := by
  refine ⟨_, _, rfl, by decide, ?_⟩
  refine (mergesSorted_iff intConst (mergePlanner [["a"]]) (mergeQuery [] false)
    ⟨by decide, by decide, by decide, by decide, by decide⟩ _ _ rfl).2 fun c hc _ => ?_
  obtain rfl : colCond "t" "a" "u" "a" = c := Option.some.inj hc
  exact ⟨Leaf.ascends_of_first (.inr ⟨by decide, by decide, by decide, [], by decide⟩),
    Leaf.ascends_of_first (.inl (by decide))⟩

/-- Sort-merge joins of rows that are not sorted: an index on another column,
which was found for a condition on it, and two sorts for `desc`. -/
theorem merge_unsorted :
    (∃ plan q', (mergePlanner [["b"]]).makeOneRel (mergeQuery [constCond "t" "b" .gt 1] false) = some (plan, q') ∧
      ¬ MergesSorted intConst (mergePlanner [["b"]]).indexes plan) ∧
    ∃ plan q', (mergePlanner []).makeOneRel (mergeQuery [] true) = some (plan, q') ∧
      ¬ MergesSorted intConst (mergePlanner []).indexes plan := by
  refine ⟨⟨_, _, rfl, fun h => ?_⟩, ⟨_, _, rfl, fun h => ?_⟩⟩
  · have hleft := (h _ List.mem_cons_self _ rfl).1
    have hkeys : (["b"].map (record 2 2)) ≤ ["b"].map (record 1 3) := le_of_lt (List.Lex.rel (by decide))
    have hout := Leaf.delivers_two (record 2 2) (record 1 3) (by decide : ∀ ix ∈ [["b"]], _)
      ⟨⟨true, "t", [constCond "t" "b" .gt 1], ["b"], true⟩, none⟩ (by decide) (by decide) fun _ => hkeys
    exact absurd (hleft _ _ hout) (by decide)
  · have hleft := (h _ List.mem_cons_self _ rfl).1
    have hout := Leaf.delivers_two (record 2 0) (record 1 0) (by decide : ∀ ix ∈ [], _)
      ⟨⟨false, "t", [], [], true⟩, some (⟨"t", "a"⟩, true)⟩ rfl rfl (by decide : record 1 0 "a" ≤ record 2 0 "a")
    exact absurd (hleft _ _ hout) (by decide)

end Rmdb.Optimizer
