/-
Whether the rows come in the order that the query asks for.

The planner drops the sort when the sort column is in a condition of an index
scan, or is one side of the first join condition. What is left of an order is
then up to the scans and to where the joins put them.
-/
import Rmdb.Optimizer.Conditions
import Rmdb.Optimizer.Delivery

namespace Rmdb.Optimizer

open Execution

section Order

variable {V : Type} [LinearOrder V] {lit : RawValue → V} {p : Planner} {q : Query} {plan : Plan} {x y : Tuple V}

/-- The rows are in the order of the column, whatever is in the tables. -/
def Honoured (lit : RawValue → V) (indexes : String → List (List String)) (plan : Plan) (col : TabCol)
    (isDesc : Bool) : Prop :=
  ∀ (db : Database indexes V) (out : List (Tuple V)), plan.Delivers lit db out →
    out.Pairwise fun x y => InOrder isDesc (x col.tabName col.colName) (y col.tabName col.colName)

def Planner.sortsLast (p : Planner) (q : Query) : Bool :=
  p.sorts q && !(q.joinConds.take 1).any fun c => c.names q.sortBys

structure Meets (lit : RawValue → V) (p : Planner) (q : Query) (x : Tuple V) : Prop where
  scans : ∀ t ∈ q.tables, (p.leafOf q t).scan.passes lit (x t)
  joins : ∀ c ∈ p.keptJoins q, condHolds lit c x

/-- The order of the scans and the joins is the one that was asked for: two rows
that some database can have are in the right order whenever the first table with
two records for them lets them stand so. -/
def Planner.Ordered (lit : RawValue → V) (p : Planner) (q : Query) : Prop :=
  ∀ x y : Tuple V, Meets lit p q x → Meets lit p q y → Together p.indexes q.tables x y →
    Precedes p.indexes (q.order.map (p.leafOf q)) x y →
    InOrder q.isDesc (x q.sortBys.tabName q.sortBys.colName) (y q.sortBys.tabName q.sortBys.colName)

theorem compares_swap (op : CompOp) (a b : V) : compares op.swap a b = compares op b a := by
  cases op <;> simp [compares, CompOp.swap, eq_comm]

theorem condHolds_swap {c : Cond} (h : c.isRhsVal = false) : condHolds lit c.swap x = condHolds lit c x := by
  simp [condHolds, Cond.swap, h, compares_swap]

theorem Joined.passes_iff (hplan : Joined (p.leafOf q) q.order (p.keptJoins q) plan) (h : q.WF) :
    plan.Passes lit x ↔ Meets lit p q x := by
  have hval : ∀ c ∈ p.keptJoins q, c.isRhsVal = false := fun c hc => (mem_joinConds.1 (keptJoins_subset hc)).2.2
  have hlike : ∀ {c k : Cond}, k ∈ p.keptJoins q → c = k ∨ c = k.swap → condHolds lit c x = condHolds lit k x := by
    rintro c k hk (rfl | rfl)
    · rfl
    · exact condHolds_swap (hval k hk)
  constructor
  · refine fun hpass => ⟨fun t ht => ?_, fun k hk => ?_⟩
    · have hleaf : p.leafOf q t ∈ plan.leaves := by
        rw [hplan.leaves]
        exact List.mem_map_of_mem (h.order_perm.mem_iff.2 ht)
      have := hpass.scans _ hleaf
      rwa [leafOf_tabName] at this
    · obtain ⟨c, hc, hck⟩ := hplan.conds.has k hk
      rw [← hlike hk hck]
      exact hpass.joins c hc
  · refine fun hmeets => ⟨fun l hl => ?_, fun c hc => ?_⟩
    · rw [hplan.leaves] at hl
      obtain ⟨t, ht, rfl⟩ := List.mem_map.1 hl
      rw [leafOf_tabName]
      exact hmeets.scans t (h.order_perm.mem_iff.1 ht)
    · obtain ⟨k, hk, hck⟩ := hplan.conds.only c hc
      rw [hlike hk hck]
      exact hmeets.joins k hk

/-- Without a sort on top the rows come in the order of the scans and joins. -/
theorem Joined.ordered_iff (hplan : Joined (p.leafOf q) q.order (p.keptJoins q) plan) (h : q.WF)
    (hcol : q.sortBys.tabName ∈ q.tables) :
    Honoured lit p.indexes plan q.sortBys q.isDesc ↔ p.Ordered lit q := by
  have htables : plan.tables.Perm q.tables := by
    rw [hplan.tables leafOf_tabName]
    exact h.order_perm
  have hnodup : plan.tables.Nodup := htables.nodup_iff.2 h.distinct
  have hsort : q.sortBys.tabName ∈ plan.tables := htables.mem_iff.2 hcol
  constructor
  · intro hon x y hx hy htog hprec
    rw [← hplan.leaves] at hprec
    obtain ⟨out, hout, hshows⟩ := Plan.exists_delivers hplan.placed hnodup ((hplan.passes_iff h).2 hx)
      ((hplan.passes_iff h).2 hy) fun t ht => htog t (htables.mem_iff.1 ht)
    obtain ⟨a, b, hsub, ha, hb⟩ := hshows.both hprec
    have := List.pairwise_iff_forall_sublist.1 (hon _ out hout) hsub
    rwa [ha _ hsort, hb _ hsort] at this
  · intro hord db out hout
    refine (hout.ordered hplan.placed hnodup).imp_of_mem fun {x y} hx hy hprec => ?_
    obtain ⟨hpassx, hmemx⟩ := hout.row hplan.placed hnodup x hx
    obtain ⟨hpassy, hmemy⟩ := hout.row hplan.placed hnodup y hy
    rw [hplan.leaves] at hprec
    refine hord x y ((hplan.passes_iff h).1 hpassx) ((hplan.passes_iff h).1 hpassy) (fun t ht => ?_) hprec
    have ht := htables.mem_iff.2 ht
    exact or_iff_not_imp_left.2 fun hne => (db.keys t).forall (hmemx t ht) (hmemy t ht) hne

theorem physicalOptimization_isSome (h : q.WF) : (p.physicalOptimization q).isSome = true ↔ p.CanJoin q := by
  rw [← makeOneRel_isSome h, Planner.physicalOptimization]
  cases p.makeOneRel q <;> simp

/-- There is a plan unless a join is asked for and both knobs are off, and the
plan delivers the rows in the order of the query exactly when the query is
sorted last, or the order of the scans and joins is the one that was asked for. -/
theorem honoured_iff (lit : RawValue → V) (p : Planner) (q : Query) (h : q.WF) (hcol : q.sortBys.tabName ∈ q.tables) :
    ((p.physicalOptimization q).isSome = true ↔ p.CanJoin q) ∧
      ∀ plan q', p.physicalOptimization q = some (plan, q') →
        (Honoured lit p.indexes plan q.sortBys q.isDesc ↔ p.sortsLast q = true ∨ p.Ordered lit q) := by
  refine ⟨physicalOptimization_isSome h, fun plan q' hplan => ?_⟩
  obtain ⟨⟨rel, q''⟩, hmake, hsome⟩ := Option.bind_eq_some_iff.1 hplan
  obtain ⟨rfl, rfl⟩ : generateSortPlan q'' rel = plan ∧ q'' = q' := by simpa using hsome
  obtain ⟨hjoined, -, hhas, hby, hdesc⟩ := makeOneRel_built h hmake
  rw [← Planner.sortsLast] at hhas
  rw [generateSortPlan, hhas, hby, hdesc]
  split_ifs with hlast
  · refine iff_of_true ?_ (.inl hlast)
    rintro db out ⟨xs, -, -, hsorted⟩
    exact hsorted
  · rw [hjoined.ordered_iff h hcol]
    simp [hlast]

end Order

/-! ## Four queries -/

def intConst (v : RawValue) : Int := Index.readInt (v.raw.getD [])

def ascQuery : Query := select ["t"] [constCond "t" "a" .gt 1] (some ⟨"t", "a"⟩)

theorem honoured_ascQuery : ∃ plan q', (plannerWith [["a"]]).physicalOptimization ascQuery = some (plan, q') ∧
    Honoured intConst (plannerWith [["a"]]).indexes plan ⟨"t", "a"⟩ false := by
  obtain ⟨hsome, hiff⟩ := honoured_iff intConst (plannerWith [["a"]]) ascQuery
    ⟨by decide, by decide, by decide, by decide, by decide⟩ (by decide)
  obtain ⟨⟨plan, q'⟩, hplan⟩ := Option.isSome_iff_exists.1 (hsome.2 (.inl (by decide)))
  refine ⟨plan, q', hplan, (hiff plan q' hplan).2 (.inr fun x y _ _ _ hprec => ?_)⟩
  have hleaves : ascQuery.order.map ((plannerWith [["a"]]).leafOf ascQuery) =
      [⟨⟨true, "t", [constCond "t" "a" .gt 1], ["a"], true⟩, none⟩] := by decide +kernel
  rw [hleaves] at hprec
  obtain ⟨-, hbefore⟩ := hprec.resolve_right fun h => h.2
  have hkeys : [x "t" "a"] ≤ [y "t" "a"] := hbefore rfl
  exact not_lt.1 fun hlt : y "t" "a" < x "t" "a" => absurd hkeys (not_le.2 (List.Lex.rel hlt))

def descQuery : Query := { ascQuery with isDesc := true }

def secondQuery : Query := select ["t"] [constCond "t" "a" .gt 1, constCond "t" "b" .gt 1] (some ⟨"t", "b"⟩)

def rightQuery : Query :=
  select ["t", "u"] [⟨⟨"t", "a"⟩, .ne, false, ⟨"u", "a"⟩, ⟨.int, none⟩⟩] (some ⟨"u", "a"⟩)

def record (a b : Int) : Record Int := fun col => if col = "a" then a else b

def twoRecords (indexes : List (List String)) (r r' : Record Int) (h : ∀ ix ∈ indexes, ix.map r ≠ ix.map r') :
    Database (plannerWith indexes).indexes Int where
  records _ := [r, r']
  keys t := by
    simp only [List.pairwise_pair, Apart, plannerWith]
    split_ifs
    · exact h
    · simp

theorem Leaf.delivers_two {indexes : List (List String)} (r r' : Record Int)
    (h : ∀ ix ∈ indexes, ix.map r ≠ ix.map r') (l : Leaf) (hr : l.scan.passes intConst r)
    (hr' : l.scan.passes intConst r') (hbefore : l.Before r r') :
    l.plan.Delivers intConst (twoRecords indexes r r' h) [fun _ => r, fun _ => r'] :=
  l.delivers_iff.2 ⟨[r, r'], by simp [twoRecords, hr, hr'], by simpa using hbefore, rfl⟩

/-- Rows in another order than the one that was asked for: an index is gone
through upwards for `desc`; it is gone through in the order of its first column
for the second; and the order of a right side is not the order of a join. -/
theorem order_lost :
    (∃ plan q', (plannerWith [["a"]]).physicalOptimization descQuery = some (plan, q') ∧
      ¬ Honoured intConst (plannerWith [["a"]]).indexes plan ⟨"t", "a"⟩ true) ∧
    (∃ plan q', (plannerWith [["a", "b"]]).physicalOptimization secondQuery = some (plan, q') ∧
      ¬ Honoured intConst (plannerWith [["a", "b"]]).indexes plan ⟨"t", "b"⟩ false) ∧
    ∃ plan q', (plannerWith []).physicalOptimization rightQuery = some (plan, q') ∧
      ¬ Honoured intConst (plannerWith []).indexes plan ⟨"u", "a"⟩ false := by
  refine ⟨⟨.scan ⟨true, "t", descQuery.conds, ["a"], true⟩, _, rfl, fun h => ?_⟩,
    ⟨.scan ⟨true, "t", secondQuery.conds, ["a", "b"], true⟩, _, rfl, fun h => ?_⟩,
    ⟨.join .nestLoop (.sort (.scan ⟨false, "t", [], [], true⟩) ⟨"t", "a"⟩ false)
      (.sort (.scan ⟨false, "u", [], [], true⟩) ⟨"u", "a"⟩ false) rightQuery.conds, _, rfl, fun h => ?_⟩⟩
  · have hkeys : (["a"].map (record 2 0)) ≤ ["a"].map (record 3 0) := le_of_lt (List.Lex.rel (by decide))
    have hout := Leaf.delivers_two (record 2 0) (record 3 0) (by decide : ∀ ix ∈ [["a"]], _)
      ⟨⟨true, "t", descQuery.conds, ["a"], true⟩, none⟩ (by decide) (by decide) fun _ => hkeys
    exact absurd (h _ _ hout) (by decide)
  · have hkeys : (["a", "b"].map (record 2 3)) ≤ ["a", "b"].map (record 3 2) := le_of_lt (List.Lex.rel (by decide))
    have hout := Leaf.delivers_two (record 2 3) (record 3 2) (by decide : ∀ ix ∈ [["a", "b"]], _)
      ⟨⟨true, "t", secondQuery.conds, ["a", "b"], true⟩, none⟩ (by decide) (by decide) fun _ => hkeys
    exact absurd (h _ _ hout) (by decide)
  · have hout : ∀ t, (Leaf.mk ⟨false, t, [], [], true⟩ (some (⟨t, "a"⟩, false))).plan.Delivers intConst
        (twoRecords [] (record 0 0) (record 1 0) (by decide)) [fun _ => record 0 0, fun _ => record 1 0] :=
      fun t => Leaf.delivers_two _ _ _ _ rfl rfl (by decide : record 0 0 "a" ≤ record 1 0 "a")
    exact absurd (h _ _ ⟨_, _, hout "t", hout "u", rfl⟩) (by decide)

end Rmdb.Optimizer
