/-
What `get_index_cols` does to the list of conditions.

The list is put together again from the first conditions on the columns of the
index, the first ones on the other columns, and the second ones. It is a
permutation of what it was when no column has a third.
-/
import Rmdb.Optimizer.Scans

namespace Rmdb.Optimizer

open List Execution

variable {p : Planner} {t : String} {conds : List Cond} {ix : List String} {col : String}

def onCol (conds : List Cond) (col : String) : List Cond := conds.filter fun c => c.lhsCol.colName = col

/-! ## The conditions on a column -/

theorem onCol_filterMap {f : String → Option Cond} (hf : ∀ col c, f col = some c → c.lhsCol.colName = col)
    {cols : List String} (hcols : (cols.filter fun col' => col' = col) = if col ∈ cols then [col] else []) :
    onCol (cols.filterMap f) col = if col ∈ cols then (f col).toList else [] := by
  have hfilter : ∀ cols : List String,
      onCol (cols.filterMap f) col = (cols.filter fun col' => col' = col).filterMap f := by
    intro cols
    rw [onCol, filter_filterMap, filterMap_filter]
    congr 1
    funext col'
    cases hc : f col' with
    | none => simp
    | some c => simp [Option.filter, hf col' c hc]
  rw [hfilter, hcols]
  split
  · cases hc : f col <;> simp [hc]
  · rfl

theorem filter_indexSet : ((indexSet conds).filter fun col' => col' = col) =
    if col ∈ indexSet conds then [col] else [] := by
  rw [indexSet, filter_eraseDups]
  simp [mem_eraseDups]

theorem condOf_eq : condOf conds col = (onCol conds col)[0]? := by
  rw [condOf, ← List.head?_filter, List.head?_eq_getElem?, onCol]

theorem colName_of_condOf (col : String) (c : Cond) (h : condOf conds col = some c) : c.lhsCol.colName = col :=
  (condOf_or_repeatOf.1 (.inl h)).1

theorem colName_of_repeatOf (col : String) (c : Cond) (h : repeatOf conds col = some c) : c.lhsCol.colName = col :=
  (condOf_or_repeatOf.1 (.inr h)).1

theorem take_two {α : Type} : ∀ l : List α, l.take 2 = l[0]?.toList ++ l[1]?.toList
  | [] => rfl
  | [_] => rfl
  | _ :: _ :: _ => rfl

theorem onCol_eq_nil (h : col ∉ indexSet conds) : onCol conds col = [] := by
  refine filter_eq_nil_iff.2 fun c hc => ?_
  simpa using fun heq => h (mem_indexSet.2 ⟨c, hc, heq⟩)

/-- Two conditions of each column are there afterwards, or as many as there were. -/
theorem onCol_fedConds : (onCol (p.fedConds ix conds) col).Perm ((onCol conds col).take 2) := by
  have hfirst : onCol ((ix.eraseDups.filter fun col => col ∈ indexSet conds).filterMap (condOf conds)) col =
      if col ∈ ix ∧ col ∈ indexSet conds then (condOf conds col).toList else [] := by
    have hnames : ((ix.eraseDups.filter fun col => col ∈ indexSet conds).filter fun col' => col' = col) =
        if col ∈ ix.eraseDups.filter (fun col => col ∈ indexSet conds) then [col] else [] := by
      rw [filter_comm, filter_eraseDups]
      by_cases hix : col ∈ ix <;> simp [hix, mem_eraseDups, filter_cons]
    rw [onCol_filterMap colName_of_condOf hnames]
    simp [mem_eraseDups]
  have hother : (onCol (p.unordered (((indexSet conds).filter fun col => col ∉ ix).filterMap (condOf conds))) col).Perm
      (if col ∉ ix ∧ col ∈ indexSet conds then (condOf conds col).toList else []) := by
    have hnames : (((indexSet conds).filter fun col => col ∉ ix).filter fun col' => col' = col) =
        if col ∈ (indexSet conds).filter (fun col => col ∉ ix) then [col] else [] := by
      rw [filter_comm, filter_indexSet]
      by_cases hset : col ∈ indexSet conds <;> simp [hset, filter_cons]
    refine ((p.unordered_perm _).filter _).trans (.of_eq ((onCol_filterMap colName_of_condOf hnames).trans ?_))
    simp [and_comm]
  have hrepeat : (onCol (p.unordered ((indexSet conds).filterMap (repeatOf conds))) col).Perm
      (if col ∈ indexSet conds then (repeatOf conds col).toList else []) :=
    ((p.unordered_perm _).filter _).trans (.of_eq (onCol_filterMap colName_of_repeatOf filter_indexSet))
  have hsplit : onCol (p.fedConds ix conds) col =
      onCol ((ix.eraseDups.filter fun col => col ∈ indexSet conds).filterMap (condOf conds)) col ++
        onCol (p.unordered (((indexSet conds).filter fun col => col ∉ ix).filterMap (condOf conds))) col ++
        onCol (p.unordered ((indexSet conds).filterMap (repeatOf conds))) col := by
    simp [onCol, Planner.fedConds]
  rw [hsplit, hfirst]
  refine (((List.Perm.refl _).append hother).append hrepeat).trans (.of_eq ?_)
  rw [take_two, ← condOf_eq]
  by_cases hset : col ∈ indexSet conds
  · by_cases hix : col ∈ ix <;> simp [hix, hset, repeatOf, onCol]
  · have hnil := onCol_eq_nil hset
    simp [hset, condOf_eq, hnil]

def AtMostTwo (conds : List Cond) : Prop := ∀ c ∈ conds, (onCol conds c.lhsCol.colName).length ≤ 2

theorem count_eq_onCol (conds : List Cond) (c : Cond) : conds.count c = (onCol conds c.lhsCol.colName).count c := by
  rw [onCol, count_filter (by simp)]

theorem fedConds_perm_iff : (p.fedConds ix conds).Perm conds ↔ AtMostTwo conds := by
  constructor
  · intro h c _
    have hlen := (onCol_fedConds.symm.trans (h.filter fun d : Cond => d.lhsCol.colName = c.lhsCol.colName)).length_eq
    rw [length_take] at hlen
    unfold onCol at hlen ⊢
    omega
  · intro h
    refine perm_iff_count.2 fun c => ?_
    rw [count_eq_onCol, count_eq_onCol conds, onCol_fedConds.count_eq]
    by_cases hc : c ∈ conds
    · rw [take_of_length_le (h c hc)]
    · have hnot : c ∉ onCol conds c.lhsCol.colName := fun hmem => hc (mem_of_mem_filter hmem)
      rw [count_eq_zero.2 hnot, count_eq_zero.2 fun hmem => hnot (mem_of_mem_take hmem)]

/-! ## The call -/

def Planner.currConds (p : Planner) (t : String) (conds : List Cond) : List Cond :=
  ((p.getIndexCols t conds).map Prod.snd).getD conds

/-- The conditions are all there, first of all the first one on each column of
the index, in its order, and one is on its first column. -/
structure Arranged (ix : List String) (conds fed : List Cond) : Prop where
  perm : fed.Perm conds
  order : ix.eraseDups.filterMap (condOf conds) <+: fed
  first : ∃ c ∈ conds, ix.head? = some c.lhsCol.colName

def Planner.KeepsConds (p : Planner) (t : String) (conds : List Cond) : Prop :=
  match p.getIndexCols t conds with
  | some (ix, _) => Arranged ix conds (p.currConds t conds)
  | none => p.currConds t conds = conds

theorem firstConds_prefix : ix.eraseDups.filterMap (condOf conds) <+: p.fedConds ix conds := by
  have hnone : ∀ col ∈ ix.eraseDups, col ∉ indexSet conds → condOf conds col = none := by
    intro col _ hset
    rw [condOf_eq, onCol_eq_nil hset]
    rfl
  have hsame : ix.eraseDups.filterMap (condOf conds) =
      (ix.eraseDups.filter fun col => col ∈ indexSet conds).filterMap (condOf conds) := by
    rw [filterMap_filter]
    refine filterMap_congr fun col hcol => ?_
    by_cases hset : col ∈ indexSet conds
    · simp [hset]
    · simp [hset, hnone col hcol]
  rw [hsame, Planner.fedConds, append_assoc]
  exact prefix_append ..

theorem Usable.first (h : Usable conds ix) : ∃ c ∈ conds, ix.head? = some c.lhsCol.colName := by
  cases ix with
  | nil => exact absurd rfl h.1
  | cons col ix =>
    have hset : col ∈ indexSet conds := by
      by_contra hset
      exact h.1 (by simp [matched, hset])
    obtain ⟨c, hc, rfl⟩ := mem_indexSet.1 hset
    exact ⟨c, hc, rfl⟩

/-- The call keeps the conditions unless an index is taken and a column has a third condition. -/
theorem keepsConds_iff : p.KeepsConds t conds ↔ (p.Indexed t conds → AtMostTwo conds) := by
  rcases @getIndexCols_eq p t conds with ⟨hnone, hix⟩ | ⟨ix, hmem, husable, hsome⟩
  · simp [Planner.KeepsConds, Planner.currConds, hnone, hix]
  · have hix : p.Indexed t conds := ⟨ix, hmem, husable⟩
    simp only [Planner.KeepsConds, Planner.currConds, hsome, Option.map_some, Option.getD_some, hix, true_implies]
    rw [← @fedConds_perm_iff p conds ix]
    exact ⟨fun h => h.perm, fun h => ⟨h, firstConds_prefix, husable.first⟩⟩

def plannerOnA : Planner where
  indexes t := if t = "t" then [["a"]] else []
  enableNestedloopJoin := true
  enableSortmergeJoin := false
  unordered conds := conds
  unordered_perm _ := .refl _

def threeOnA : List Cond :=
  [⟨⟨"t", "a"⟩, .gt, true, ⟨"", ""⟩, ⟨.int, some [1, 0, 0, 0]⟩⟩,
    ⟨⟨"t", "a"⟩, .lt, true, ⟨"", ""⟩, ⟨.int, some [9, 0, 0, 0]⟩⟩,
    ⟨⟨"t", "a"⟩, .ne, true, ⟨"", ""⟩, ⟨.int, some [5, 0, 0, 0]⟩⟩]

/-- The third condition is lost. -/
theorem threeOnA_lost : plannerOnA.getIndexCols "t" threeOnA = some (["a"], threeOnA.take 2) ∧
    ¬ plannerOnA.KeepsConds "t" threeOnA := by
  have hcols : plannerOnA.getIndexCols "t" threeOnA = some (["a"], threeOnA.take 2) := by decide
  refine ⟨hcols, fun h => ?_⟩
  simp only [Planner.KeepsConds, Planner.currConds, hcols] at h
  have hlen := h.perm.length_eq
  simp [threeOnA] at hlen

end Rmdb.Optimizer
