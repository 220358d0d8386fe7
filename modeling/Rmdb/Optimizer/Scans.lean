/-
The scans of a query: which conditions a table is given, which of them are
kept, whether an index is taken, and what the loop over the tables leaves of
the query.

`get_index_cols` keeps two conditions a column, and `pop_conds` gives a
condition on two columns of one table to the first table of the query.
-/
import Rmdb.Optimizer.Planner

namespace Rmdb.Optimizer

open List Execution

/-! ## The index of a scan -/

section Index
variable {p : Planner} {t : String} {conds : List Cond} {c : Cond} {ix : List String}

theorem mem_indexSet {col : String} : col ∈ indexSet conds ↔ ∃ c ∈ conds, c.lhsCol.colName = col := by
  simp [indexSet, mem_eraseDups]

def sameCol (conds : List Cond) (c : Cond) : List Cond := conds.filter fun c' => c'.lhsCol.colName = c.lhsCol.colName

theorem mem_take_two {α : Type} {a : α} : ∀ {l : List α}, a ∈ l.take 2 ↔ l[0]? = some a ∨ l[1]? = some a
  | [] => by simp
  | [b] => by simp [eq_comm]
  | b :: b' :: l => by simp [eq_comm]

theorem condOf_or_repeatOf {col : String} : (condOf conds col = some c ∨ repeatOf conds col = some c) ↔
    c.lhsCol.colName = col ∧ c ∈ (sameCol conds c).take 2 := by
  have hhead : condOf conds col = (conds.filter fun c => c.lhsCol.colName = col)[0]? := by
    rw [condOf, ← List.head?_filter, List.head?_eq_getElem?]
  rw [hhead, repeatOf, ← mem_take_two]
  constructor
  · intro hc
    obtain rfl : c.lhsCol.colName = col := by simpa using (mem_filter.1 (mem_of_mem_take hc)).2
    exact ⟨rfl, hc⟩
  · rintro ⟨rfl, hc⟩
    exact hc

/-- What is kept of the conditions of an index scan: the first two of a column. -/
theorem mem_fedConds : c ∈ p.fedConds ix conds ↔ c ∈ (sameCol conds c).take 2 := by
  simp only [Planner.fedConds, mem_append, (p.unordered_perm _).mem_iff, mem_filterMap, mem_filter,
    mem_eraseDups, decide_eq_true_eq]
  constructor
  · rintro ((⟨col, -, hc⟩ | ⟨col, -, hc⟩) | ⟨col, -, hc⟩)
    · exact (condOf_or_repeatOf.1 (.inl hc)).2
    · exact (condOf_or_repeatOf.1 (.inl hc)).2
    · exact (condOf_or_repeatOf.1 (.inr hc)).2
  · intro hc
    have hcol : c.lhsCol.colName ∈ indexSet conds :=
      mem_indexSet.2 ⟨c, (mem_filter.1 (mem_of_mem_take hc)).1, rfl⟩
    rcases condOf_or_repeatOf.2 ⟨rfl, hc⟩ with hc | hc
    · by_cases hix : c.lhsCol.colName ∈ ix
      · exact .inl (.inl ⟨_, ⟨hix, hcol⟩, hc⟩)
      · exact .inl (.inr ⟨_, ⟨hcol, hix⟩, hc⟩)
    · exact .inr ⟨_, hcol, hc⟩

theorem filter_eraseDups (col : String) (ix : List String) :
    (ix.eraseDups.filter fun col' => col' = col) = if col ∈ ix then [col] else [] := by
  match ix with
  | [] => rfl
  | col' :: ix =>
    have ih := filter_eraseDups col (ix.filter fun a => !a == col')
    rw [eraseDups_cons]
    by_cases heq : col' = col
    · subst heq
      rw [filter_cons_of_pos (by simp), ih, if_neg (by simp), if_pos mem_cons_self]
    · rw [filter_cons_of_neg (by simpa using heq), ih]
      simp [Ne.symm heq]
termination_by ix.length
decreasing_by simpa using Nat.lt_succ_of_le (length_filter_le _ _)

theorem fedConds_singleton : p.fedConds ix [c] = [c] := by
  have hset : indexSet [c] = [c.lhsCol.colName] := rfl
  have hcond : condOf [c] c.lhsCol.colName = some c := by simp [condOf]
  have hrepeat : repeatOf [c] c.lhsCol.colName = none := by simp [repeatOf]
  have hnil : p.unordered [] = [] := (p.unordered_perm []).eq_nil
  have hone : p.unordered [c] = [c] := perm_singleton.1 (p.unordered_perm [c])
  have hfirst : (ix.eraseDups.filter fun col => col ∈ indexSet [c]) =
      if c.lhsCol.colName ∈ ix then [c.lhsCol.colName] else [] := by
    simpa [hset] using filter_eraseDups c.lhsCol.colName ix
  rw [Planner.fedConds, hfirst, hset]
  by_cases hix : c.lhsCol.colName ∈ ix
  · simp [hix, hcond, hrepeat, hnil]
  · simp [hix, hcond, hrepeat, hnil, hone]

def Usable (conds : List Cond) (ix : List String) : Prop :=
  matched conds ix ≠ [] ∧ (matched conds ix).length ≤ conds.length

def Choice.After (conds : List Cond) (seen : List (List String)) (s : Choice) : Prop :=
  (s.indexColNames = [] ∧ s.maxLen = 0 ∧ ∀ ix ∈ seen, ¬ Usable conds ix) ∨
    (s.indexColNames ∈ seen ∧ Usable conds s.indexColNames)

theorem Choice.After.turn (hne : conds ≠ []) {seen : List (List String)} {s : Choice} (hs : s.After conds seen)
    (ix : List String) : (s.turn conds ix).After conds (seen ++ [ix]) := by
  have hsize : 0 < conds.length := length_pos_iff.2 hne
  have hpos : ∀ {n}, n < (matched conds ix).length → matched conds ix ≠ [] := fun h hnil => by simp [hnil] at h
  have hix : ix ∈ seen ++ [ix] := by simp
  rw [Choice.turn]
  split_ifs with hlong hall hempty heq
  · exact .inr ⟨hix, hpos hlong.1, hlong.2.le⟩
  · exact .inr ⟨hix, hpos (hall ▸ hsize), hall.le⟩
  · exact .inr ⟨hix, hpos (hall ▸ hsize), hall.le⟩
  · rcases hs with ⟨hnames, -⟩ | ⟨hmem, hs⟩
    · exact absurd hnames hempty
    · exact .inr ⟨mem_append_left _ hmem, hs⟩
  · rcases hs with ⟨hnames, hmax, hnone⟩ | ⟨hmem, hs⟩
    · refine .inl ⟨hnames, hmax, fun ix' hix' => ?_⟩
      rcases mem_append.1 hix' with hix' | hix'
      · exact hnone ix' hix'
      · rw [mem_singleton.1 hix']
        rintro ⟨hmatched, hle⟩
        have hlen : 0 < (matched conds ix).length := length_pos_iff.2 hmatched
        omega
    · exact .inr ⟨mem_append_left _ hmem, hs⟩

theorem Choice.After.foldl (hne : conds ≠ []) : ∀ {l seen : List (List String)} {s : Choice}, s.After conds seen →
    (l.foldl (Choice.turn conds) s).After conds (seen ++ l)
  | [], _, _, hs => by simpa using hs
  | ix :: l, seen, s, hs => by simpa using (hs.turn hne ix).foldl hne (l := l)

/-- There is an index with a condition on its first column. (One that names more
columns than there are conditions has one twice, and is not taken.) -/
def Planner.Indexed (p : Planner) (t : String) (conds : List Cond) : Prop := ∃ ix ∈ p.indexes t, Usable conds ix

theorem getIndexCols_eq : (p.getIndexCols t conds = none ∧ ¬ p.Indexed t conds) ∨
    ∃ ix ∈ p.indexes t, Usable conds ix ∧ p.getIndexCols t conds = some (ix, p.fedConds ix conds) := by
  rw [Planner.getIndexCols]
  split_ifs with hnone
  · refine .inl ⟨rfl, fun ⟨ix, hix, hmatched, _⟩ => ?_⟩
    rcases hnone with rfl | hnil
    · refine hmatched ?_
      cases ix <;> rfl
    · simp [hnil] at hix
  · obtain ⟨hne, -⟩ := not_or.1 hnone
    have hstart : Choice.After conds [] ⟨0, 0, []⟩ := .inl ⟨rfl, rfl, by simp⟩
    rcases hstart.foldl hne (l := p.indexes t) with ⟨hnil, -, hnone⟩ | ⟨hmem, husable⟩
    · have hnil : p.chooseIndex t conds = [] := hnil
      exact .inl ⟨by simp [hnil], fun ⟨ix, hix, h⟩ => hnone ix hix h⟩
    · have hmem : p.chooseIndex t conds ∈ p.indexes t := hmem
      have husable : Usable conds (p.chooseIndex t conds) := husable
      have hne' : p.chooseIndex t conds ≠ [] := fun hnil => by
        rw [hnil] at husable
        exact husable.1 rfl
      exact .inr ⟨_, hmem, husable, by simp [hne']⟩

end Index

/-! ## The scans -/

/-- A query as the analysis leaves it. -/
structure Query.WF (q : Query) : Prop where
  nonempty : q.tables ≠ []
  distinct : q.tables.Nodup
  named : "" ∉ q.tables
  lhs : ∀ c ∈ q.conds, c.lhsCol.tabName ∈ q.tables
  rhs : ∀ c ∈ q.conds, c.isRhsVal = false → c.rhsCol.tabName ∈ q.tables

def onOneTable (c : Cond) : Bool := c.lhsCol.tabName = c.rhsCol.tabName

/-- The conditions that are given to a table: the first table gets those on
columns of one table, whichever that is. -/
def Query.condsOf (q : Query) (t : String) : List Cond :=
  q.conds.filter fun c => if onOneTable c then q.tables.head? = some t else c.lhsCol.tabName = t && c.isRhsVal

def Query.joinConds (q : Query) : List Cond := q.conds.filter fun c => !onOneTable c && !c.isRhsVal

def Planner.scanOf (p : Planner) (t : String) (conds : List Cond) (asc : Bool) : ScanPlan :=
  match p.getIndexCols t conds with
  | none => ⟨false, t, conds, [], true⟩
  | some (ix, fed) => ⟨true, t, fed, ix, asc⟩

/-- The conditions that its scan keeps. -/
def Planner.Keeps (p : Planner) (t : String) (conds : List Cond) (c : Cond) : Prop :=
  c ∈ conds ∧ (p.Indexed t conds → c ∈ (sameCol conds c).take 2)

section Scans

variable {p : Planner} {t : String} {conds : List Cond} {c : Cond} {q : Query}

theorem scanOf_tabName (asc : Bool) : (p.scanOf t conds asc).tabName = t := by
  rw [Planner.scanOf]
  split <;> rfl

theorem mem_scanOf_conds (asc : Bool) : c ∈ (p.scanOf t conds asc).conds ↔ p.Keeps t conds c := by
  rcases @getIndexCols_eq p t conds with ⟨hnone, hix⟩ | ⟨ix, hmem, husable, hsome⟩
  · simp [Planner.scanOf, Planner.Keeps, hnone, hix]
  · have hix : p.Indexed t conds := ⟨ix, hmem, husable⟩
    simp only [Planner.scanOf, Planner.Keeps, hsome, mem_fedConds, hix, true_implies]
    exact ⟨fun h => ⟨(mem_filter.1 (mem_of_mem_take h)).1, h⟩, fun h => h.2⟩

/-- The sort is dropped for this scan: it goes through an index, and has a
condition on the column that is sorted by. -/
def Planner.dropsSort (p : Planner) (t : String) (conds : List Cond) (col : TabCol) : Bool :=
  (p.getIndexCols t conds).any fun r => r.2.any fun c => c.names col

@[simp] theorem minMax_conds : q.minMax.conds = q.conds := by unfold Query.minMax; split <;> rfl

@[simp] theorem minMax_tables : q.minMax.tables = q.tables := by unfold Query.minMax; split <;> rfl

@[simp] theorem minMax_hasSort : q.minMax.hasSort = q.hasSort := by unfold Query.minMax; split <;> rfl

@[simp] theorem minMax_sortBys : q.minMax.sortBys = q.sortBys := by unfold Query.minMax; split <;> rfl

@[simp] theorem minMax_isDesc : q.minMax.isDesc = q.isDesc := by unfold Query.minMax; split <;> rfl

def Query.ascAt (q : Query) (met : Bool) : Bool := if met then q.minMax.asc else q.asc

def Planner.meets (p : Planner) (t : String) (conds : List Cond) : Bool :=
  (p.getIndexCols t conds).any fun r => r.2.length ≤ r.1.length

structure Scanned (q q' : Query) (dropped met : Bool) : Prop where
  tables : q'.tables = q.tables
  sortBys : q'.sortBys = q.sortBys
  isDesc : q'.isDesc = q.isDesc
  hasSort : q'.hasSort = (q.hasSort && !dropped)
  asc : q'.asc = q.ascAt met
  minMax : q'.minMax.asc = q.minMax.asc

theorem Scanned.ascAt {q' : Query} {d met : Bool} (h : Scanned q q' d met) (met' : Bool) :
    q'.ascAt met' = q.ascAt (met || met') := by
  cases met' with
  | true => simpa [Query.ascAt] using h.minMax
  | false => simpa [Query.ascAt] using h.asc

theorem Scanned.trans {q' q'' : Query} {d d' met met' : Bool} (h : Scanned q q' d met)
    (h' : Scanned q' q'' d' met') : Scanned q q'' (d || d') (met || met') where
  tables := h'.tables.trans h.tables
  sortBys := h'.sortBys.trans h.sortBys
  isDesc := h'.isDesc.trans h.isDesc
  hasSort := by rw [h'.hasSort, h.hasSort, Bool.and_assoc, Bool.not_or]
  asc := by rw [h'.asc, h.ascAt]
  minMax := h'.minMax.trans h.minMax

theorem minMax_congr {q' : Query} (hagg : q'.aggTypes = q.aggTypes) (hasc : q'.asc = q.asc) :
    q'.minMax.asc = q.minMax.asc := by
  simp only [Query.minMax, hagg]
  split <;> simp [hasc]

theorem minMax_minMax : q.minMax.minMax.asc = q.minMax.asc := by
  rcases hagg : q.aggTypes with _ | ⟨a, _ | ⟨b, l⟩⟩
  · simp [Query.minMax, hagg]
  · cases a <;> simp [Query.minMax, hagg]
  · simp [Query.minMax, hagg]

theorem scanTable_spec : (p.scanTable q t).1 =
      p.scanOf t (q.conds.filter (popped t)) (q.ascAt (p.meets t (q.conds.filter (popped t)))) ∧
    (p.scanTable q t).2.conds = q.conds.filter (fun c => !popped t c) ∧
    Scanned q (p.scanTable q t).2 (p.dropsSort t (q.conds.filter (popped t)) q.sortBys)
      (p.meets t (q.conds.filter (popped t))) := by
  rcases @getIndexCols_eq p t (q.conds.filter (popped t)) with ⟨hnone, hix⟩ | ⟨ix, hmem, husable, hsome⟩
  · simp only [Planner.scanTable, popConds, hnone, Planner.scanOf]
    refine ⟨trivial, trivial, rfl, rfl, rfl, by simp [Planner.dropsSort, hnone], ?_, ?_⟩
    · simp [Planner.meets, hnone, Query.ascAt]
    · exact minMax_congr rfl rfl
  · have hnames : p.dropsSort t (q.conds.filter (popped t)) q.sortBys =
        (p.fedConds ix (q.conds.filter (popped t))).any fun c => c.names q.sortBys := by
      simp [Planner.dropsSort, hsome]
    have hmeets : p.meets t (q.conds.filter (popped t)) =
        decide ((p.fedConds ix (q.conds.filter (popped t))).length ≤ ix.length) := by
      simp [Planner.meets, hsome]
    have hmm : ({ q with conds := q.conds.filter fun c => !popped t c } : Query).minMax.asc = q.minMax.asc :=
      minMax_congr rfl rfl
    simp only [Planner.scanTable, popConds, hsome, Planner.scanOf]
    refine ⟨?_, ?_, ?_, ?_, ?_, ?_, ?_, ?_⟩
    · by_cases hlen : (p.fedConds ix (q.conds.filter (popped t))).length ≤ ix.length
      · simp only [hmeets, hlen, Query.ascAt, decide_true, if_true, ← hmm]
        split_ifs <;> rfl
      · simp only [hmeets, hlen, Query.ascAt, decide_false, if_false, Bool.false_eq_true]
        split_ifs <;> rfl
    · split_ifs <;> simp
    · split_ifs <;> simp
    · split_ifs <;> simp
    · split_ifs <;> simp
    · rw [hnames]
      split_ifs <;> simp_all
    · by_cases hlen : (p.fedConds ix (q.conds.filter (popped t))).length ≤ ix.length
      · simp only [hmeets, hlen, Query.ascAt, decide_true, if_true, ← hmm]
        split_ifs <;> rfl
      · simp only [hmeets, hlen, Query.ascAt, decide_false, if_false, Bool.false_eq_true]
        split_ifs <;> rfl
    · split_ifs
      · refine Eq.trans ?_ (minMax_minMax.trans hmm)
        exact minMax_congr rfl rfl
      · exact minMax_minMax.trans hmm
      · exact minMax_congr rfl rfl
      · exact hmm

def isConst (t : String) (c : Cond) : Bool := c.lhsCol.tabName = t && c.isRhsVal

def Planner.metAt (p : Planner) (conds : String → List Cond) (tables : List String) (t : String) : Bool :=
  (tables.takeWhile (fun t' => t' ≠ t) ++ [t]).any fun t' => p.meets t' (conds t')

def Planner.scansOf (p : Planner) (q : Query) (conds : String → List Cond) (tables : List String) : List ScanPlan :=
  tables.map fun t => p.scanOf t (conds t) (q.ascAt (p.metAt conds tables t))

theorem Scanned.cons {tables : List String} {q' q'' : Query} {conds : String → List Cond} (hnew : t ∉ tables)
    (h : Scanned q q' (p.dropsSort t (conds t) q.sortBys) (p.meets t (conds t)))
    (h' : Scanned q' q'' (tables.any fun t' => p.dropsSort t' (conds t') q'.sortBys)
      (tables.any fun t' => p.meets t' (conds t'))) :
    p.scansOf q conds (t :: tables) =
        p.scanOf t (conds t) (q.ascAt (p.meets t (conds t))) :: p.scansOf q' conds tables ∧
      Scanned q q'' ((t :: tables).any fun t' => p.dropsSort t' (conds t') q.sortBys)
        ((t :: tables).any fun t' => p.meets t' (conds t')) := by
  constructor
  · rw [Planner.scansOf, map_cons]
    congr 1
    · simp [Planner.metAt]
    · refine map_congr_left fun t' ht' => ?_
      have hne : t ≠ t' := fun heq => hnew (heq ▸ ht')
      rw [h.ascAt, Planner.metAt, takeWhile_cons_of_pos (by simpa using hne)]
      rfl
  · have htrans := h.trans h'
    rw [h.sortBys] at htrans
    exact htrans

theorem scanTables_two {conds : String → List Cond} : ∀ {tables : List String} {q : Query},
    (∀ c ∈ q.conds, onOneTable c = false) → tables.Nodup → (∀ t ∈ tables, conds t = q.conds.filter (isConst t)) →
    (p.scanTables q tables).1 = p.scansOf q conds tables ∧
      (p.scanTables q tables).2.conds = q.conds.filter (fun c => !(c.isRhsVal && c.lhsCol.tabName ∈ tables)) ∧
      Scanned q (p.scanTables q tables).2 (tables.any fun t => p.dropsSort t (conds t) q.sortBys)
        (tables.any fun t => p.meets t (conds t))
  | [], q, _, _, _ =>
    ⟨rfl, by simp [Planner.scanTables], rfl, rfl, rfl, by simp [Planner.scanTables], rfl, rfl⟩
  | t :: tables, q, htwo, hnodup, hof => by
    obtain ⟨hnew, hnodup⟩ := nodup_cons.1 hnodup
    obtain ⟨hscan, hconds, hscanned⟩ := @scanTable_spec p t q
    have hpopped : ∀ c ∈ q.conds, popped t c = isConst t c := by
      intro c hc
      have hc' : ¬ c.lhsCol.tabName = c.rhsCol.tabName := by simpa [onOneTable] using htwo c hc
      simp [popped, isConst, hc', eq_comm]
    rw [filter_congr hpopped, ← hof t mem_cons_self] at hscan hscanned
    have hrest : (p.scanTable q t).2.conds = q.conds.filter fun c => !isConst t c := by
      rw [hconds]
      exact filter_congr fun c hc => by rw [hpopped c hc]
    have hother : ∀ t' ∈ tables, conds t' = (p.scanTable q t).2.conds.filter (isConst t') := by
      intro t' ht'
      have hne : t' ≠ t := fun h => hnew (h ▸ ht')
      rw [hof t' (mem_cons_of_mem _ ht'), hrest, filter_filter]
      refine filter_congr fun c _ => ?_
      by_cases htab : c.lhsCol.tabName = t'
      · simp [isConst, htab, hne]
      · simp [isConst, htab]
    obtain ⟨ihscans, ihconds, ihscanned⟩ := scanTables_two
      (fun c hc => htwo c (mem_of_mem_filter (hconds ▸ hc))) hnodup hother
    obtain ⟨hscans, hall⟩ := hscanned.cons hnew ihscanned
    refine ⟨?_, ?_, hall⟩
    · rw [hscans, ← ihscans, ← hscan]
      rfl
    · rw [Planner.scanTables, ihconds, hrest, filter_filter]
      refine filter_congr fun c _ => ?_
      by_cases htab : c.lhsCol.tabName = t
      · cases hval : c.isRhsVal <;> simp [isConst, htab, hval]
      · simp [isConst, htab]

theorem scanTables_spec (h : q.WF) : (p.scanTables q q.tables).1 = p.scansOf q q.condsOf q.tables ∧
    (p.scanTables q q.tables).2.conds = q.joinConds ∧
    Scanned q (p.scanTables q q.tables).2 (q.tables.any fun t => p.dropsSort t (q.condsOf t) q.sortBys)
      (q.tables.any fun t => p.meets t (q.condsOf t)) := by
  obtain ⟨t, tables, htables⟩ := exists_cons_of_ne_nil h.nonempty
  have hnodup := h.distinct
  have hlhs := h.lhs
  rw [htables] at hnodup hlhs ⊢
  obtain ⟨hnew, hnodup⟩ := nodup_cons.1 hnodup
  obtain ⟨hscan, hconds, hscanned⟩ := @scanTable_spec p t q
  have hfirst : q.conds.filter (popped t) = q.condsOf t := by
    refine filter_congr fun c _ => ?_
    by_cases hone : c.lhsCol.tabName = c.rhsCol.tabName
    · simp [popped, onOneTable, hone, htables]
    · simp [popped, onOneTable, hone, eq_comm]
  rw [hfirst] at hscan hscanned
  have htwo : ∀ c ∈ (p.scanTable q t).2.conds, onOneTable c = false := by
    intro c hc
    rw [hconds, mem_filter] at hc
    by_contra hone
    simp [popped, show c.lhsCol.tabName = c.rhsCol.tabName by simpa [onOneTable] using hone] at hc
  have hother : ∀ t' ∈ tables, q.condsOf t' = (p.scanTable q t).2.conds.filter (isConst t') := by
    intro t' ht'
    have hne : t' ≠ t := fun h => hnew (h ▸ ht')
    rw [hconds, filter_filter]
    refine filter_congr fun c _ => ?_
    by_cases hone : c.lhsCol.tabName = c.rhsCol.tabName
    · simp [popped, onOneTable, hone, htables, Ne.symm hne]
    · by_cases htab : c.lhsCol.tabName = t'
      · subst htab
        simp [popped, onOneTable, hone, isConst, Ne.symm hne]
      · simp [onOneTable, hone, isConst, htab]
  obtain ⟨ihscans, ihconds, ihscanned⟩ := scanTables_two htwo hnodup hother
  obtain ⟨hscans, hall⟩ := hscanned.cons hnew ihscanned
  refine ⟨?_, ?_, hall⟩
  · rw [hscans, ← ihscans, ← hscan]
    rfl
  · rw [Planner.scanTables, ihconds, hconds, filter_filter]
    refine filter_congr fun c hc => ?_
    have htab := mem_cons.1 (hlhs c hc)
    by_cases hone : c.lhsCol.tabName = c.rhsCol.tabName
    · simp [popped, onOneTable, hone]
    · cases hval : c.isRhsVal with
      | false => simp [popped, onOneTable, hone, hval]
      | true => rcases htab with htab | htab <;> simp [popped, onOneTable, hone, hval, htab]

end Scans

end Rmdb.Optimizer
