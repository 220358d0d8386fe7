/-
Plans: their scans from left to right, where a condition is evaluated, and
what `push_conds` does with one.
-/
import Rmdb.Optimizer.Planner

namespace Rmdb.Optimizer

open List Execution

/-! ## Plans -/

structure Leaf where
  scan : ScanPlan
  sorted : Option (TabCol × Bool)
  deriving DecidableEq, Repr

def Leaf.tabName (l : Leaf) : String := l.scan.tabName

namespace Plan

def leaves : Plan → List Leaf
  | .scan s => [⟨s, none⟩]
  | .join _ left right _ => left.leaves ++ right.leaves
  | .sort subplan selCol isDesc => subplan.leaves.map fun l => ⟨l.scan, some (selCol, isDesc)⟩

def tables (plan : Plan) : List String := plan.leaves.map Leaf.tabName

def visible (plan : Plan) : List String := (plan.leaves.filter fun l => l.sorted.isNone).map Leaf.tabName

def merges : Plan → List (Plan × Plan × Option Cond)
  | .scan _ => []
  | .join tag left right conds =>
    (if tag = .sortMerge then [(left, right, conds.head?)] else []) ++ (left.merges ++ right.merges)
  | .sort subplan _ _ => subplan.merges

def joinConds : Plan → List Cond
  | .scan _ => []
  | .join _ left right conds => conds ++ (left.joinConds ++ right.joinConds)
  | .sort subplan _ _ => subplan.joinConds

end Plan

def Leaf.plan (l : Leaf) : Plan :=
  match l.sorted with
  | none => .scan l.scan
  | some (col, isDesc) => .sort (.scan l.scan) col isDesc

@[simp] theorem Leaf.leaves_plan (l : Leaf) : l.plan.leaves = [l] := by
  obtain ⟨s, _ | ⟨col, isDesc⟩⟩ := l <;> rfl

@[simp] theorem Leaf.joinConds_plan (l : Leaf) : l.plan.joinConds = [] := by
  obtain ⟨s, _ | ⟨col, isDesc⟩⟩ := l <;> rfl

@[simp] theorem Leaf.merges_plan (l : Leaf) : l.plan.merges = [] := by
  obtain ⟨s, _ | ⟨col, isDesc⟩⟩ := l <;> rfl

def Is (c c' : Cond) : Prop := c' = c ∨ c.isRhsVal = false ∧ c' = c.swap

instance (c c' : Cond) : Decidable (Is c c') := inferInstanceAs (Decidable (_ ∨ _))

def Own (c : Cond) (tabName : String) : Prop :=
  c.lhsCol.tabName = tabName ∧ (c.isRhsVal = true ∨ c.rhsCol.tabName = tabName)

instance (c : Cond) (t : String) : Decidable (Own c t) := inferInstanceAs (Decidable (_ ∧ _))

/-- The plan evaluates the condition: in the scan of its table, or in a join
that has its left table on the left and its right table on the right. -/
def Plan.Evaluates (c : Cond) : Plan → Prop
  | .scan s => Own c s.tabName ∧ ∃ c' ∈ s.conds, Is c c'
  | .join _ left right conds => left.Evaluates c ∨ right.Evaluates c ∨
      ∃ c' ∈ conds, Is c c' ∧ c'.lhsCol.tabName ∈ left.tables ∧ c'.rhsCol.tabName ∈ right.tables
  | .sort subplan _ _ => subplan.Evaluates c

def Plan.decEvaluates (c : Cond) : (plan : Plan) → Decidable (plan.Evaluates c)
  | .scan _ => inferInstanceAs (Decidable (_ ∧ _))
  | .join _ left right _ =>
    have := left.decEvaluates c
    have := right.decEvaluates c
    inferInstanceAs (Decidable (_ ∨ _ ∨ _))
  | .sort subplan _ _ => subplan.decEvaluates c

instance (c : Cond) (plan : Plan) : Decidable (plan.Evaluates c) := plan.decEvaluates c

/-- Every table is scanned once, and every condition is evaluated. -/
structure Complete (q : Query) (plan : Plan) : Prop where
  tables : plan.tables.Perm q.tables
  conds : ∀ c ∈ q.conds, plan.Evaluates c

/-! ## Placed conditions -/

namespace Plan

def Placed : Plan → Prop
  | .scan _ => True
  | .join _ left right conds => left.Placed ∧ right.Placed ∧
      ∀ c ∈ conds, c.lhsCol.tabName ∈ left.tables ∧ c.rhsCol.tabName ∈ right.tables
  | .sort (.scan _) _ _ => True
  | .sort .. => False

@[simp] theorem tables_scan (s : ScanPlan) : (Plan.scan s).tables = [s.tabName] := rfl

@[simp] theorem tables_join (tag : JoinTag) (left right : Plan) (conds : List Cond) :
    (Plan.join tag left right conds).tables = left.tables ++ right.tables := map_append

@[simp] theorem tables_sort (plan : Plan) (col : TabCol) (isDesc : Bool) :
    (Plan.sort plan col isDesc).tables = plan.tables := by
  simp [tables, leaves, Function.comp_def, Leaf.tabName]

@[simp] theorem visible_scan (s : ScanPlan) : (Plan.scan s).visible = [s.tabName] := rfl

@[simp] theorem visible_join (tag : JoinTag) (left right : Plan) (conds : List Cond) :
    (Plan.join tag left right conds).visible = left.visible ++ right.visible := by simp [visible, leaves]

@[simp] theorem visible_sort (plan : Plan) (col : TabCol) (isDesc : Bool) :
    (Plan.sort plan col isDesc).visible = [] := by
  simp [visible, leaves]

/-- A plan with its conditions in place evaluates those of its joins and those
of the scans that are their own. -/
theorem evaluates_iff {c : Cond} : ∀ {plan : Plan}, plan.Placed → (plan.Evaluates c ↔
    (∃ l ∈ plan.leaves, Own c l.tabName ∧ ∃ c' ∈ l.scan.conds, Is c c') ∨ ∃ c' ∈ plan.joinConds, Is c c')
  | .scan s, _ => by simp [Evaluates, leaves, joinConds, Leaf.tabName]
  | .join tag left right conds, ⟨hl, hr, hconds⟩ => by
    have hhere : (∃ c' ∈ conds, Is c c' ∧ c'.lhsCol.tabName ∈ left.tables ∧ c'.rhsCol.tabName ∈ right.tables) ↔
        ∃ c' ∈ conds, Is c c' :=
      ⟨fun ⟨c', hc', his, _⟩ => ⟨c', hc', his⟩, fun ⟨c', hc', his⟩ => ⟨c', hc', his, hconds c' hc'⟩⟩
    rw [Evaluates, hhere, evaluates_iff hl, evaluates_iff hr]
    simp only [leaves, joinConds, mem_append, or_and_right, exists_or, or_assoc, or_comm, or_left_comm]
  | .sort (.scan s) _ _, _ => by simp [Evaluates, leaves, joinConds, Leaf.tabName]

theorem visible_subset (plan : Plan) : plan.visible ⊆ plan.tables := by
  intro t ht
  obtain ⟨l, hl, rfl⟩ := mem_map.1 ht
  exact mem_map.2 ⟨l, (mem_filter.1 hl).1, rfl⟩

end Plan

theorem Leaf.placed_plan (l : Leaf) : l.plan.Placed := by
  obtain ⟨s, _ | ⟨col, isDesc⟩⟩ := l <;> trivial

/-! ## `push_conds` -/

section Push

variable {cond : Cond}

/-- What `push_conds` answers for a plan that is left as it is. -/
def found (cond : Cond) (plan : Plan) : Nat :=
  if cond.lhsCol.tabName ∈ plan.visible then 1 else if cond.rhsCol.tabName ∈ plan.visible then 2 else 0

structure Pushed (cond : Cond) (plan plan' : Plan) : Prop where
  leaves : plan'.leaves = plan.leaves
  placed : plan.Placed → plan'.Placed
  joinConds : ∃ c, (c = cond ∨ c = cond.swap) ∧ plan'.joinConds.Perm (c :: plan.joinConds)

variable {tag : JoinTag} {left left' right right' : Plan} {conds : List Cond}

theorem Pushed.tables {plan plan' : Plan} (h : Pushed cond plan plan') : plan'.tables = plan.tables := by
  rw [Plan.tables, h.leaves, Plan.tables]

theorem Pushed.inLeft (h : Pushed cond left left') :
    Pushed cond (.join tag left right conds) (.join tag left' right conds) where
  leaves := by simp only [Plan.leaves, h.leaves]
  placed := fun ⟨hl, hr, hconds⟩ => ⟨h.placed hl, hr, by rwa [h.tables]⟩
  joinConds := by
    obtain ⟨c, hc, hperm⟩ := h.joinConds
    refine ⟨c, hc, ((hperm.append_right right.joinConds).append_left conds).trans ?_⟩
    exact perm_middle

theorem Pushed.inRight (h : Pushed cond right right') :
    Pushed cond (.join tag left right conds) (.join tag left right' conds) where
  leaves := by simp only [Plan.leaves, h.leaves]
  placed := fun ⟨hl, hr, hconds⟩ => ⟨hl, h.placed hr, by rwa [h.tables]⟩
  joinConds := by
    obtain ⟨c, hc, hperm⟩ := h.joinConds
    refine ⟨c, hc, ((hperm.append_left left.joinConds).append_left conds).trans ?_⟩
    simp only [Plan.joinConds, ← append_assoc]
    exact perm_middle

theorem Pushed.here {c : Cond} (hc : c = cond ∨ c = cond.swap) (hl : c.lhsCol.tabName ∈ left.tables)
    (hr : c.rhsCol.tabName ∈ right.tables) :
    Pushed cond (.join tag left right conds) (.join tag left right (conds ++ [c])) where
  leaves := rfl
  placed := fun ⟨hpl, hpr, hconds⟩ => ⟨hpl, hpr, fun c' hc' => by
    rcases mem_append.1 hc' with hc' | hc'
    · exact hconds c' hc'
    · rw [mem_singleton.1 hc']
      exact ⟨hl, hr⟩⟩
  joinConds := ⟨c, hc, by
    simp only [Plan.joinConds, append_assoc]
    exact perm_middle⟩

theorem pushConds_left (h : (pushConds cond left).1 = 3) :
    pushConds cond (.join tag left right conds) = (3, .join tag (pushConds cond left).2 right conds) := by
  simp [pushConds, h]

theorem pushConds_right (h : pushConds cond left = (found cond left, left)) (hr : (pushConds cond right).1 = 3) :
    pushConds cond (.join tag left right conds) = (3, .join tag left (pushConds cond right).2 conds) := by
  have hl : found cond left ≠ 3 := by unfold found; split_ifs <;> simp
  simp [pushConds, h, hl, hr]

theorem pushConds_here (h : pushConds cond left = (found cond left, left))
    (hr : pushConds cond right = (found cond right, right)) :
    pushConds cond (.join tag left right conds) =
      if found cond left = 0 ∨ found cond right = 0 then
        (found cond left + found cond right, .join tag left right conds)
      else (3, .join tag left right (conds ++ [if found cond left = 2 then cond.swap else cond])) := by
  have hthree : ∀ plan, found cond plan ≠ 3 := fun plan => by unfold found; split_ifs <;> simp
  simp [pushConds, h, hr, hthree]

/-- Both tables in sight, the condition is put where they come together; else
the plan is left as it is. -/
theorem pushConds_eq (hne : cond.lhsCol.tabName ≠ cond.rhsCol.tabName) {plan : Plan} (hnodup : plan.tables.Nodup) :
    if cond.lhsCol.tabName ∈ plan.visible ∧ cond.rhsCol.tabName ∈ plan.visible then
      (pushConds cond plan).1 = 3 ∧ Pushed cond plan (pushConds cond plan).2
    else pushConds cond plan = (found cond plan, plan) := by
  induction plan with
  | scan s =>
    have hboth : ¬ (cond.lhsCol.tabName ∈ (Plan.scan s).visible ∧ cond.rhsCol.tabName ∈ (Plan.scan s).visible) := by
      simp only [Plan.visible_scan, mem_singleton]
      rintro ⟨hl, hr⟩
      exact hne (hl.trans hr.symm)
    rw [if_neg hboth]
    simp only [pushConds, found, Plan.visible_scan, mem_singleton, eq_comm]
  | sort plan col isDesc _ => simp [pushConds, found]
  | join tag left right conds ihl ihr =>
    rw [Plan.tables_join, nodup_append] at hnodup
    obtain ⟨hnl, hnr, hdisj⟩ := hnodup
    have hapart : ∀ t, t ∈ left.visible → t ∉ right.visible := fun t htl htr =>
      hdisj t (left.visible_subset htl) t (right.visible_subset htr) rfl
    have ihl := ihl hnl
    have ihr := ihr hnr
    simp only [Plan.visible_join, mem_append]
    split_ifs at ihl with hleft
    · obtain ⟨hres, hpushed⟩ := ihl
      rw [if_pos ⟨.inl hleft.1, .inl hleft.2⟩, pushConds_left hres]
      exact ⟨rfl, hpushed.inLeft⟩
    split_ifs at ihr with hright
    · obtain ⟨hres, hpushed⟩ := ihr
      rw [if_pos ⟨.inr hright.1, .inr hright.2⟩, pushConds_right ihl hres]
      exact ⟨rfl, hpushed.inRight⟩
    rw [pushConds_here ihl ihr]
    -- what is left: the two tables on different sides, or one of them not in sight
    by_cases hll : cond.lhsCol.tabName ∈ left.visible
    · have hlr := hapart _ hll
      have hrl : cond.rhsCol.tabName ∉ left.visible := fun h => hleft ⟨hll, h⟩
      by_cases hrr : cond.rhsCol.tabName ∈ right.visible
      · simp only [found, hll, hlr, hrr, if_true, if_false, true_or, or_true, and_self]
        exact ⟨rfl, .here (.inl rfl) (left.visible_subset hll) (right.visible_subset hrr)⟩
      · simp [found, hll, hlr, hrl, hrr]
    · by_cases hrl : cond.rhsCol.tabName ∈ left.visible
      · have hrr := hapart _ hrl
        by_cases hlr : cond.lhsCol.tabName ∈ right.visible
        · simp only [found, hll, hlr, hrl, if_true, if_false, true_or, or_true, and_self]
          exact ⟨rfl, .here (.inr rfl) (left.visible_subset hrl) (right.visible_subset hlr)⟩
        · simp [found, hll, hlr, hrl, hrr]
      · by_cases hlr : cond.lhsCol.tabName ∈ right.visible
        · have hrr : cond.rhsCol.tabName ∉ right.visible := fun h => hright ⟨hlr, h⟩
          simp [found, hll, hlr, hrl, hrr]
        · simp [found, hll, hlr, hrl]

/-- Sort-merge joins of two leaves keep their children and their first condition. -/
theorem pushConds_merges {l r : Leaf} {c : Cond} : ∀ {plan : Plan},
    (∀ m ∈ plan.merges, m = (l.plan, r.plan, some c)) → (pushConds cond plan).2.merges = plan.merges
  | .scan _, _ => rfl
  | .sort .., _ => rfl
  | .join .nestLoop left right conds, h => by
    have hl := @pushConds_merges l r c left fun m hm => h m (by simp [Plan.merges, hm])
    have hr := @pushConds_merges l r c right fun m hm => h m (by simp [Plan.merges, hm])
    simp only [pushConds]
    split_ifs <;> simp [Plan.merges, hl, hr]
  | .join .sortMerge left right conds, h => by
    obtain ⟨rfl, rfl, hc⟩ : left = l.plan ∧ right = r.plan ∧ conds.head? = some c := by
      simpa using h (left, right, conds.head?) (by simp [Plan.merges])
    have hleaf : ∀ l : Leaf, (pushConds cond l.plan).2 = l.plan := fun ⟨_, sorted⟩ => by cases sorted <;> rfl
    simp only [pushConds, hleaf]
    split_ifs <;> simp [Plan.merges, hc]

end Push

end Rmdb.Optimizer
