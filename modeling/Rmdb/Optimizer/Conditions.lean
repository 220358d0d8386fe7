/-
Whether every condition of a query is evaluated.

The planner loses a condition in three ways: `get_index_cols` keeps two
conditions a column, `pop_conds` gives a condition on two columns of one table
to the first table of the query, and `push_conds` does not look below a sort.
`NoLoss` is what a query must meet for that not to happen.
-/
import Rmdb.Optimizer.Joins

namespace Rmdb.Optimizer

open List Execution

section Loss

variable {p : Planner} {q : Query}

/-- What a query must meet for no condition to be lost: conditions on one table
are of the first table; of the conditions of an index scan each is one of the
first two on its column, or like one of those; and a condition between two
tables that are joined already is like one that was kept, when one of the tables
is under a sort. -/
structure NoLoss (p : Planner) (q : Query) : Prop where
  own : ∀ c ∈ q.conds, c.lhsCol.tabName = c.rhsCol.tabName → q.tables.head? = some c.lhsCol.tabName
  scans : ∀ t ∈ q.tables, p.Indexed t (q.condsOf t) → ∀ c ∈ q.condsOf t,
    ∃ c' ∈ q.condsOf t, Is c c' ∧ c' ∈ (sameCol (q.condsOf t) c').take 2
  joins : ∀ c ∈ q.joinConds, ∃ c' ∈ p.keptJoins q, Is c c'

theorem joinable_subset (hidden : String → Bool) : ∀ (order : List String) (conds : List Cond),
    joinable hidden order conds ⊆ conds
  | _, [] => by simp [joinable]
  | order, c :: conds => by
    have ih := joinable_subset hidden (newTables order c ++ order) conds
    intro c' hc'
    rw [joinable, mem_append] at hc'
    rcases hc' with hc' | hc'
    · split_ifs at hc'
      · simp at hc'
      · simp [mem_singleton.1 hc']
    · exact mem_cons_of_mem _ (ih hc')

theorem keptJoins_subset : p.keptJoins q ⊆ q.joinConds := by
  intro c hc
  rcases mem_append.1 hc with hc | hc
  · exact mem_of_mem_take hc
  · exact mem_of_mem_drop (joinable_subset _ _ _ hc)

theorem swap_swap (c : Cond) : c.swap.swap = c := by
  have hop : c.op.swap.swap = c.op := by cases c.op <;> rfl
  cases c
  simp_all [Cond.swap]

theorem Is.not_join {c c' : Cond} (h : Is c c') (hc : c.isRhsVal = true ∨ c.lhsCol.tabName = c.rhsCol.tabName) :
    ¬ (c'.lhsCol.tabName ≠ c'.rhsCol.tabName ∧ c'.isRhsVal = false) := by
  rintro ⟨hne, hval⟩
  rcases h with rfl | ⟨hcol, rfl⟩
  · rcases hc with hc | hc
    · simp [hc] at hval
    · exact hne hc
  · rcases hc with hc | hc
    · simp [hc] at hcol
    · exact hne hc.symm

theorem leafOf_conds {t : String} {c : Cond} :
    (c ∈ (p.scanIn q t).conds → c ∈ (p.leafOf q t).scan.conds) ∧ (c ∈ (p.leafOf q t).scan.conds →
      c ∈ (p.scanIn q t).conds ∨ c.lhsCol.tabName ≠ c.rhsCol.tabName ∧ c.isRhsVal = false) := by
  rw [Planner.leafOf]
  split
  · exact ⟨id, .inl⟩
  next c' _ hjoins =>
    obtain ⟨-, hne, hval⟩ := mem_joinConds.1 (show c' ∈ q.joinConds by simp [hjoins])
    split_ifs
    · have hlike := @indexJoin_like p (p.scanIn q t) c' c'.lhsCol.tabName
      refine ⟨hlike.sub c, fun h => (hlike.conds c h).imp id ?_⟩
      rintro rfl
      exact ⟨hne, hval⟩
    · have hlike := @indexJoin_like p (p.scanIn q t) (exchanged c') (exchanged c').lhsCol.tabName
      refine ⟨hlike.sub c, fun h => (hlike.conds c h).imp id ?_⟩
      rintro rfl
      exact ⟨Ne.symm hne, hval⟩
    · exact ⟨id, .inl⟩

section Evaluates

variable {plan : Plan} {c : Cond}

theorem Joined.evaluates_own (hplan : Joined (p.leafOf q) q.order (p.keptJoins q) plan)
    (hc : c.isRhsVal = true ∨ c.lhsCol.tabName = c.rhsCol.tabName) (hmem : c.lhsCol.tabName ∈ q.order) :
    plan.Evaluates c ↔ ∃ c', p.Keeps c.lhsCol.tabName (q.condsOf c.lhsCol.tabName) c' ∧ Is c c' := by
  rw [Plan.evaluates_iff hplan.placed, hplan.leaves]
  constructor
  · rintro (⟨l, hl, hown, c', hc', his⟩ | ⟨c', hc', his⟩)
    · obtain ⟨t, -, rfl⟩ := mem_map.1 hl
      obtain ⟨htab, -⟩ := hown
      rw [leafOf_tabName] at htab
      subst htab
      rcases leafOf_conds.2 hc' with hc' | hjoin
      · exact ⟨c', (mem_scanOf_conds _).1 hc', his⟩
      · exact absurd hjoin (his.not_join hc)
    · obtain ⟨k, hk, hlike⟩ := hplan.conds.only c' hc'
      obtain ⟨-, hne, hval⟩ := mem_joinConds.1 (keptJoins_subset hk)
      rcases hlike with rfl | rfl
      · exact absurd ⟨hne, hval⟩ (his.not_join hc)
      · exact absurd ⟨Ne.symm hne, hval⟩ (his.not_join hc)
  · rintro ⟨c', hkeeps, his⟩
    refine .inl ⟨p.leafOf q c.lhsCol.tabName, mem_map_of_mem hmem, ⟨?_, hc.imp id ?_⟩, c', ?_, his⟩
    · exact (leafOf_tabName _).symm
    · intro h
      rw [leafOf_tabName, h]
    · exact leafOf_conds.1 ((mem_scanOf_conds _).2 hkeeps)

theorem Joined.evaluates_join (hplan : Joined (p.leafOf q) q.order (p.keptJoins q) plan) (hc : c ∈ q.joinConds) :
    plan.Evaluates c ↔ ∃ k ∈ p.keptJoins q, Is c k := by
  obtain ⟨-, hne, hval⟩ := mem_joinConds.1 hc
  rw [Plan.evaluates_iff hplan.placed]
  constructor
  · rintro (⟨l, -, ⟨htab, hown⟩, -⟩ | ⟨c', hc', his⟩)
    · rcases hown with hown | hown
      · simp [hval] at hown
      · exact absurd (htab.trans hown.symm) hne
    · obtain ⟨k, hk, hlike⟩ := hplan.conds.only c' hc'
      refine ⟨k, hk, ?_⟩
      rcases his with rfl | ⟨-, rfl⟩
      · rcases hlike with hlike | hlike
        · exact .inl hlike.symm
        · exact .inr ⟨hval, by rw [hlike, swap_swap]⟩
      · rcases hlike with hlike | hlike
        · exact .inr ⟨hval, hlike.symm⟩
        · exact .inl (by rw [← swap_swap k, ← hlike, swap_swap])
  · rintro ⟨k, hk, his⟩
    obtain ⟨c', hc', hlike⟩ := hplan.conds.has k hk
    refine .inr ⟨c', hc', ?_⟩
    rcases his with rfl | ⟨-, rfl⟩
    · rcases hlike with rfl | rfl
      · exact .inl rfl
      · exact .inr ⟨hval, rfl⟩
    · rcases hlike with rfl | rfl
      · exact .inr ⟨hval, rfl⟩
      · exact .inl (swap_swap c)

end Evaluates

theorem mem_condsOf {t : String} {c : Cond} : c ∈ q.condsOf t ↔ c ∈ q.conds ∧
    if c.lhsCol.tabName = c.rhsCol.tabName then q.tables.head? = some t
    else c.lhsCol.tabName = t ∧ c.isRhsVal = true := by
  rw [Query.condsOf, mem_filter]
  by_cases hone : c.lhsCol.tabName = c.rhsCol.tabName <;> simp [onOneTable, hone]

/-- The planner builds a plan unless a join is asked for and both knobs are off,
and the plan evaluates every condition of the query exactly when the query meets
`NoLoss`. -/
theorem complete_iff (p : Planner) (q : Query) (h : q.WF) :
    ((p.makeOneRel q).isSome = true ↔ p.CanJoin q) ∧
      ∀ plan q', p.makeOneRel q = some (plan, q') → (Complete q plan ↔ NoLoss p q) := by
  refine ⟨makeOneRel_isSome h, fun plan q' hmake => ?_⟩
  obtain ⟨hplan, -⟩ := makeOneRel_built h hmake
  have htables : plan.tables.Perm q.tables := by
    rw [hplan.tables leafOf_tabName]
    exact h.order_perm
  have horder : ∀ c ∈ q.conds, c.lhsCol.tabName ∈ q.order := fun c hc => h.order_perm.mem_iff.2 (h.lhs c hc)
  refine ⟨fun hcomplete => ?_, fun hloss => ⟨htables, fun c hc => ?_⟩⟩
  · have hkeeps : ∀ c ∈ q.conds, c.isRhsVal = true ∨ c.lhsCol.tabName = c.rhsCol.tabName →
        ∃ c', p.Keeps c.lhsCol.tabName (q.condsOf c.lhsCol.tabName) c' ∧ Is c c' := fun c hc hown =>
      (hplan.evaluates_own hown (horder c hc)).1 (hcomplete.conds c hc)
    have hfirst : ∀ c ∈ q.conds, c.lhsCol.tabName = c.rhsCol.tabName → q.tables.head? = some c.lhsCol.tabName := by
      intro c hc hone
      obtain ⟨c', ⟨hmem, -⟩, his⟩ := hkeeps c hc (.inr hone)
      have hone' : c'.lhsCol.tabName = c'.rhsCol.tabName := by
        rcases his with rfl | ⟨-, rfl⟩
        · exact hone
        · exact hone.symm
      have hhead := (mem_condsOf.1 hmem).2
      rwa [if_pos hone'] at hhead
    refine ⟨hfirst, fun t _ hix c hc => ?_, fun c hc => ?_⟩
    · obtain ⟨hmem, hgiven⟩ := mem_condsOf.1 hc
      have htab : c.lhsCol.tabName = t ∧ (c.isRhsVal = true ∨ c.lhsCol.tabName = c.rhsCol.tabName) := by
        split_ifs at hgiven with hone
        · rw [hfirst c hmem hone, Option.some.injEq] at hgiven
          exact ⟨hgiven, .inr hone⟩
        · exact ⟨hgiven.1, .inl hgiven.2⟩
      obtain ⟨rfl, hown⟩ := htab
      obtain ⟨c', ⟨hmem', htwo⟩, his⟩ := hkeeps c hmem hown
      exact ⟨c', hmem', his, htwo hix⟩
    · exact (hplan.evaluates_join hc).1 (hcomplete.conds c (mem_joinConds.1 hc).1)
  · by_cases hown : c.isRhsVal = true ∨ c.lhsCol.tabName = c.rhsCol.tabName
    · rw [hplan.evaluates_own hown (horder c hc)]
      have hgiven : c ∈ q.condsOf c.lhsCol.tabName := by
        refine mem_condsOf.2 ⟨hc, ?_⟩
        split_ifs with hone
        · exact hloss.own c hc hone
        · exact ⟨rfl, hown.resolve_right hone⟩
      by_cases hix : p.Indexed c.lhsCol.tabName (q.condsOf c.lhsCol.tabName)
      · obtain ⟨c', hmem', his, htwo⟩ := hloss.scans _ (h.lhs c hc) hix c hgiven
        exact ⟨c', ⟨hmem', fun _ => htwo⟩, his⟩
      · exact ⟨c, ⟨hgiven, fun h => absurd h hix⟩, .inl rfl⟩
    · obtain ⟨hval, hne⟩ := not_or.1 hown
      have hjoin : c ∈ q.joinConds := mem_joinConds.2 ⟨hc, hne, by simpa using hval⟩
      exact (hplan.evaluates_join hjoin).2 (hloss.joins c hjoin)

end Loss

/-! ## Three queries -/

def plannerWith (indexes : List (List String)) : Planner where
  indexes t := if t = "t" then indexes else []
  enableNestedloopJoin := true
  enableSortmergeJoin := true
  unordered conds := conds
  unordered_perm := List.Perm.refl

def select (tables : List String) (conds : List Cond) (sortBys : Option TabCol) : Query where
  tables := tables
  conds := conds
  aggTypes := [.col, .col]
  asc := true
  limit := -1
  hasSort := sortBys.isSome
  sortBys := sortBys.getD ⟨"", ""⟩
  isDesc := false

def constCond (tab col : String) (op : CompOp) (n : UInt8) : Cond :=
  ⟨⟨tab, col⟩, op, true, ⟨"", ""⟩, ⟨.int, some [n, 0, 0, 0]⟩⟩

def colCond (tab col tab' col' : String) : Cond := ⟨⟨tab, col⟩, .eq, false, ⟨tab', col'⟩, ⟨.int, none⟩⟩

def plainQuery : Query :=
  select ["t", "u"] [colCond "t" "a" "u" "a", constCond "t" "a" .gt 1, constCond "t" "a" .lt 9] (some ⟨"t", "b"⟩)

theorem complete_plainQuery : ∃ plan q', (plannerWith [["a"]]).makeOneRel plainQuery = some (plan, q') ∧
    Complete plainQuery plan := by
  obtain ⟨hsome, hiff⟩ := complete_iff (plannerWith [["a"]]) plainQuery
    ⟨by decide, by decide, by decide, by decide, by decide⟩
  obtain ⟨⟨plan, q'⟩, hmake⟩ := Option.isSome_iff_exists.1 (hsome.2 (.inr (.inl rfl)))
  have hscans : ∀ t ∈ plainQuery.tables, ∀ c ∈ plainQuery.condsOf t,
      ∃ c' ∈ plainQuery.condsOf t, Is c c' ∧ c' ∈ (sameCol (plainQuery.condsOf t) c').take 2 := by decide +kernel
  exact ⟨plan, q', hmake, (hiff plan q' hmake).2 ⟨by decide, fun t ht _ => hscans t ht, by decide +kernel⟩⟩

/-- Conditions that no node of the plan evaluates: the third one on a column
that an index was found for; one on two columns of the second table; and a
second one between two tables that are sorted for the first. -/
theorem conditions_lost :
    ((plannerWith [["a"]]).makeOneRel
        (select ["t"] [constCond "t" "a" .gt 1, constCond "t" "a" .lt 9, constCond "t" "a" .ne 5] none)).any
      (fun r => ¬ r.1.Evaluates (constCond "t" "a" .ne 5)) ∧
    ((plannerWith []).makeOneRel (select ["u", "t"] [colCond "t" "a" "t" "b"] none)).any
      (fun r => ¬ r.1.Evaluates (colCond "t" "a" "t" "b")) ∧
    ((plannerWith []).makeOneRel
        (select ["t", "u"] [colCond "t" "a" "u" "a", colCond "t" "b" "u" "b"] (some ⟨"t", "a"⟩))).any
      (fun r => ¬ r.1.Evaluates (colCond "t" "b" "u" "b")) := by
  decide +kernel

end Rmdb.Optimizer
