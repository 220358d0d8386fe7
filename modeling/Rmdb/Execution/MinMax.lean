/-
When `MIN` and `MAX` as an index scan give the smallest and the largest value.

The record that is taken is the first or the last by the whole key of the index.
That is the right one when the conditions are bounds of its first columns, all
but the last of these with `=`, and the value is of one of these columns.
-/
import Rmdb.Execution.MinMaxScan

namespace Rmdb.Execution

open Option List Index Record
open Optimizer (Planner)

variable {m : TabMeta}

/-! ## The smallest and the largest value -/

/-- A value of the column in a record that meets the conditions, with none before (for `MAX`: behind) it. -/
structure Extreme (isMax : Bool) (c : ColMeta) (conds : List Condition) (live : Rid → Option (List UInt8))
    (row : List UInt8) : Prop where
  found : ∃ rid rec, live rid = some rec ∧ cmpConds conds rec = true ∧ c.read rec = row
  bound : ∀ rid rec, live rid = some rec → cmpConds conds rec = true →
    if isMax then compare c (c.read rec) row ≤ 0 else 0 ≤ compare c (c.read rec) row

def Met (conds : List Condition) (live : Rid → Option (List UInt8)) : Prop :=
  ∃ rid rec, live rid = some rec ∧ cmpConds conds rec = true

/-- The statement gives one row, and it is the smallest or largest value of the
records that meet the conditions, if there are any. -/
def MinMaxRight (p : Planner) (T : Table m) (i : Fin m.indexes.length) (isMax : Bool) (c : ColMeta)
    (conds : List Condition) : Prop :=
  Met conds T.fh.live → ∀ mem, mem.Fits (m.ix i) → ∃ enough row,
    (∀ fuel ≥ enough, selectMinMax p T isMax c conds mem fuel = some [row]) ∧ Extreme isMax c conds T.fh.live row

/-- The end of the scan is set, and the record that is taken has the value. -/
def TakesExtreme (isMax : Bool) (ix : IndexMeta) (c : ColMeta) (fed conds : List Condition)
    (live : Rid → Option (List UInt8)) : Prop :=
  ∀ mem, mem.Fits ix → ∃ e, endOf ix fed mem = some e ∧ ∃ rid rec, live rid = some rec ∧
    Taken isMax ix fed live mem e rec ∧ Extreme isMax c conds live (c.read rec)

def OnCols (m : TabMeta) (conds : List Condition) : Prop :=
  ∀ d ∈ conds, d.col ∈ m.cols ∧ d.raw.length = d.col.len

theorem OnCols.typed {conds : List Condition} (h : OnCols m conds) (i : Fin m.indexes.length) :
    Typed (m.ix i).cols conds := by
  intro d hd j hon
  obtain ⟨hj, hname, -⟩ := List.findIdx?_eq_some_iff_getElem.1 (on_iff.1 hon)
  have hcol : (m.ix i).cols[j] ∈ m.cols := m.ixCols _ (get_mem _ _) _ (getElem_mem hj)
  have hfind := find?_name hcol
  rw [of_decide_eq_true hname, find?_name (h d hd).1, some.injEq] at hfind
  exact ⟨by rw [List.getElem?_eq_getElem hj, hfind], (h d hd).2⟩

/-! ## Conditions for which it is right -/

/-- Plain conditions on the columns with `=` and on the next one, and the value
of one of these columns. -/
structure Focused (ix : IndexMeta) (c : ColMeta) (fed : List Condition) : Prop where
  plain : Plain ix fed
  near : ∀ d ∈ fed, ∃ j ≤ (leading (lowers ix.cols fed)).eqs.length, d.on ix.cols j ∧ d.op ≠ .ne
  col : ∃ j ≤ (leading (lowers ix.cols fed)).eqs.length, ix.cols[j]? = some c

section Focused

variable {ix : IndexMeta} {c : ColMeta} {fed : List Condition}

theorem Focused.tested (h : Focused ix c fed) (rec : List UInt8) : Tested ix fed rec := by
  have hfar : ∀ d ∈ fed, ∀ j > (leading (lowers ix.cols fed)).eqs.length, ¬ d.on ix.cols j := by
    intro d hd j hj hon
    obtain ⟨j', hj', hon', -⟩ := h.near d hd
    have heq := (on_iff.1 hon).symm.trans (on_iff.1 hon')
    simp only [some.injEq] at heq
    omega
  refine ⟨.inr ⟨.inr fun j hj d hd => ?_, .inr fun j hj d hd => ?_⟩, fun d hd hrest => ?_⟩
  · obtain ⟨hmem, hon⟩ := cond_some hd
    exact absurd hon (hfar d hmem j hj)
  · obtain ⟨hmem, hon⟩ := cond_some hd
    rw [← h.plain.eqs] at hj
    exact absurd hon (hfar d hmem j hj)
  · obtain ⟨j, -, hon, hne⟩ := h.near d hd
    rw [on_iff.1 hon] at hrest
    rcases hrest with hop | hnone
    · exact absurd hop hne
    · cases hnone

theorem compare_le_of_cmpCols : ∀ {cols : List ColMeta} {as bs : List (List UInt8)} {j : Nat} {c : ColMeta}
    {a b : List UInt8}, (∀ k < j, as[k]? = bs[k]?) → cols[j]? = some c → as[j]? = some a → bs[j]? = some b →
    cmpCols cols as bs ≤ 0 → compare c a b ≤ 0
  | d :: cols, x :: as, y :: bs, 0, c, a, b, _, hc, ha, hb, h => by
    simp only [List.getElem?_cons_zero, some.injEq] at hc ha hb
    rw [cmpCols, hc, ha, hb] at h
    split_ifs at h with hzero <;> omega
  | d :: cols, x :: as, y :: bs, j + 1, c, a, b, hsame, hc, ha, hb, h => by
    obtain rfl : x = y := by simpa using hsame 0 (by omega)
    have hzero : compare d x x = 0 := by
      have hswap := ixCompareCol_swap d.keyCol x x
      unfold compare
      omega
    rw [cmpCols, if_neg (by simp [hzero])] at h
    exact compare_le_of_cmpCols (j := j) (fun k hk => by simpa using hsame (k + 1) (by omega)) (by simpa using hc)
      (by simpa using ha) (by simpa using hb) h

variable {rec' rec : List UInt8}

theorem key_le_iff : ix.key rec ≤ ix.key rec' ↔
    cmpCols ix.cols (ix.cols.map fun c => c.read rec) (ix.cols.map fun c => c.read rec') ≤ 0 := by
  rw [← ixCmp_le_zero, ← ixCompare_flatten ix.noFloat (fits_record ix rec) (fits_record ix rec'), ← flatMap_def,
    ← flatMap_def]
  rfl

/-- A record that meets the conditions has the constant of each `=`. -/
theorem read_eq (htyped : Typed ix.cols fed) (hrec : cmpConds fed rec = true) {k : Nat}
    {d : Condition} (hd : (leading (lowers ix.cols fed)).eqs[k]? = some d) :
    ix.cols[k]? = some d.col ∧ d.col.read rec = d.raw := by
  obtain ⟨hl, hop⟩ := leading_eqs_some hd
  have hk : k < ix.cols.length := by simpa [lowers] using (List.getElem?_eq_some_iff.1 hl).1
  rw [getElem?_lowers hk, some.injEq] at hl
  obtain ⟨hmem, hon⟩ := cond_some hl
  obtain ⟨hcol, hlen⟩ := htyped d hmem k hon
  have hholds := all_eq_true.1 hrec d hmem
  simp only [Condition.holds, hop, CompOp.test, decide_eq_true_eq] at hholds
  have hfloat := ColMeta.keyCol_ne_float (ix.noFloat _ (mem_of_getElem? hcol))
  exact ⟨hcol, eq_of_ixCompareCol hfloat (by simp [ColMeta.keyCol_len]) (by rw [hlen, ColMeta.keyCol_len]) hholds⟩

/-- Records that meet the conditions are in the order of the column. -/
theorem Focused.compare_le (h : Focused ix c fed) (htyped : Typed ix.cols fed)
    (hrec : cmpConds fed rec = true) (hrec' : cmpConds fed rec' = true) (hle : ix.key rec ≤ ix.key rec') :
    compare c (c.read rec) (c.read rec') ≤ 0 := by
  obtain ⟨j, hj, hcol⟩ := h.col
  refine compare_le_of_cmpCols (fun k hk => ?_) hcol (by simp [hcol]) (by simp [hcol]) (key_le_iff.1 hle)
  have hd := List.getElem?_eq_getElem (show k < (leading (lowers ix.cols fed)).eqs.length by omega)
  obtain ⟨hk, hread⟩ := read_eq htyped hrec hd
  obtain ⟨-, hread'⟩ := read_eq htyped hrec' hd
  rw [List.getElem?_map, List.getElem?_map, hk, map_some, map_some, hread, hread']

end Focused

section Right

variable {T : Table m} {A : Content m} {i : Fin m.indexes.length} {conds fed : List Condition} {c : ColMeta}
  {mem : Uninit} {L : List (Block (Key (m.ix i).keyCols))}

/-- Of the records that something holds of, one whose key is related to all their keys. -/
theorem exists_extreme (hE : Entries T A i L) {R : Key (m.ix i).keyCols → Key (m.ix i).keyCols → Prop}
    (hR : ∀ s : Set (Key (m.ix i).keyCols × Rid), s.Finite → s.Nonempty → ∃ x ∈ s, ∀ y ∈ s, R x.1 y.1)
    {P : List UInt8 → Prop} (h : ∃ rid rec, A.live rid = some rec ∧ P rec) :
    ∃ rid rec, A.live rid = some rec ∧ P rec ∧
      ∀ rid' rec', A.live rid' = some rec' → P rec' → R ((m.ix i).key rec) ((m.ix i).key rec') := by
  have hmem : ∀ {rid rec}, A.live rid = some rec → P rec →
      ((m.ix i).key rec, rid) ∈ {x | x ∈ flat L ∧ ∀ rec, A.live x.2 = some rec → P rec} := by
    intro rid rec hlive hP
    exact ⟨hE.mem rid rec hlive, fun rec' hrec' => some.inj (hlive.symm.trans hrec') ▸ hP⟩
  obtain ⟨rid₀, rec₀, hlive₀, hP₀⟩ := h
  obtain ⟨x, ⟨hx, hxP⟩, hall⟩ := hR _ ((finite_toSet (flat L)).subset fun x hx => hx.1) ⟨_, hmem hlive₀ hP₀⟩
  obtain ⟨rec, hlive, hkey⟩ := hE.live x hx
  refine ⟨x.2, rec, hlive, hxP rec hlive, fun rid' rec' hlive' hP' => ?_⟩
  rw [hkey]
  exact hall _ (hmem hlive' hP')

theorem Focused.takesExtreme (h : Focused (m.ix i) c fed) (htyped : Typed (m.ix i).cols fed) (hT : T.Holds A)
    (hagree : A.AgreeAt i) (hlive : Consistent (m.ix i) fed A.live)
    (hsame : ∀ rec, cmpConds conds rec = cmpConds fed rec) (hmet : Met conds A.live) (isMax : Bool) :
    TakesExtreme isMax (m.ix i) c fed conds A.live := by
  intro mem hmem
  have hexact := h.plain.exact htyped hlive
  obtain ⟨e, hend⟩ := isSome_iff_exists.1 (hexact.isSet mem hmem)
  obtain ⟨L, Us, lower, -, t, hL, -, hlower, -⟩ := scan_positions hT htyped hmem
  have hE := entries_of hT hagree t hL
  have hrange : ∀ {rid rec}, A.live rid = some rec →
      (cmpConds fed rec = true ↔ Behind (m.ix i) rec (beginOf (m.ix i) fed mem) ∧ ¬ Behind (m.ix i) rec e) := by
    intro rid rec hrec
    rw [← hexact.same mem hmem e hend rid rec hrec, ← and_assoc, and_iff_left (h.tested rec)]
  simp only [Met, hsame] at hmet
  refine ⟨e, hend, ?_⟩
  cases isMax with
  | false =>
    have hstops : ∀ {rid rec}, A.live rid = some rec →
        (Stops (m.ix i) fed A.live mem e rec ↔ cmpConds fed rec = true) := by
      intro rid rec hrec
      have hcross : ¬ Crossed (m.ix i) fed A.live mem e := by
        intro ⟨rid, rec, hrec, he, hb⟩
        exact hb (hexact.inOrder mem hmem e hend rid rec hrec he)
      rw [hrange hrec]
      exact ⟨fun hs => ⟨hs.behind, hs.before.resolve_right hcross⟩, fun hs => ⟨hs.1, .inl hs.2, h.tested rec⟩⟩
    obtain ⟨rid, rec, hrec, hmeets, hfirst⟩ := exists_extreme hE (fun s => s.exists_min_image Prod.fst) hmet
    refine ⟨rid, rec, hrec, ⟨(hstops hrec).2 hmeets, fun rid' rec' hrec' hs => ?_⟩,
      ⟨rid, rec, hrec, by rw [hsame, hmeets], rfl⟩, fun rid' rec' hrec' hmeets' => ?_⟩
    · exact hfirst rid' rec' hrec' ((hstops hrec').1 hs)
    · rw [hsame] at hmeets'
      have hle := h.compare_le htyped hmeets hmeets' (hfirst rid' rec' hrec' hmeets')
      have hswap := ixCompareCol_swap c.keyCol (c.read rec) (c.read rec')
      simp only [Bool.false_eq_true, if_false, compare] at hle ⊢
      omega
  | true =>
    obtain ⟨rid₀, rec₀, hrec₀, hmeets₀⟩ := hmet
    obtain ⟨hb₀, he₀⟩ := (hrange hrec₀).1 hmeets₀
    obtain ⟨rid, rec, hrec, he, hlast⟩ := exists_extreme hE (fun s => s.exists_max_image Prod.fst)
      (R := fun x y => y ≤ x) (P := fun rec => ¬ Behind (m.ix i) rec e) ⟨rid₀, rec₀, hrec₀, he₀⟩
    have hmeets : cmpConds fed rec = true := by
      -- not before one that meets the conditions, so not before the beginning
      have hbehind := Cut.mono hlower hE.sorted (hE.mem rid₀ rec₀ hrec₀) (hE.mem rid rec hrec)
        (hlast rid₀ rec₀ hrec₀ he₀) (behind_key.2 hb₀)
      exact (hrange hrec).2 ⟨behind_key.1 hbehind, he⟩
    refine ⟨rid, rec, hrec, ⟨he, hlast, rid₀, rec₀, hrec₀, fun hiff => he₀ (hiff.1 hb₀)⟩,
      ⟨rid, rec, hrec, by rw [hsame, hmeets], rfl⟩, fun rid' rec' hrec' hmeets' => ?_⟩
    rw [hsame] at hmeets'
    exact h.compare_le htyped hmeets' hmeets (hlast rid' rec' hrec' ((hrange hrec').1 hmeets').2)

end Right

/-! ## The result -/

def insertCrossed : List Request :=
  [.stmt (.insert "t" [.int 1, .int 5] fun _ => true), .stmt (.insert "t" [.int 2, .int 3] fun _ => true)]

theorem insertCrossed_agrees : ∃ h s A, Run.run (@clientHandler [tabOnAB] noFloats) (.create [tabOnAB]) insertCrossed =
    some (h, s) ∧ (s.db 0).Holds A ∧ A.AgreeAt (0 : Fin 1) :=
  onAB_agrees (by simp [insertCrossed, Request.Maintained, Stmt.Maintained])

def zeroMem : Uninit := ⟨[bytesOf 0, bytesOf 0], [bytesOf 0, bytesOf 0], ⟨0, 0⟩⟩

theorem zeroMem_fits : zeroMem.Fits ixOnAB := ⟨.cons rfl (.cons rfl .nil), .cons rfl (.cons rfl .nil)⟩

def aAbove : List Condition := [⟨colA, .gt, bytesOf 0⟩]

def aOne : List Condition := [eqCond colA 1]

theorem rewritten_one {p : Planner} (hp : p.indexes "t" = [["a", "b"]]) {d : Condition} (hd : d.col = colA) :
    Rewritten p tabOnAB [d] (0 : Fin 1) [d] where
  cols := by
    have hcol : (d.toCond "t").lhsCol.colName = "a" := by simp [Condition.toCond, hd, colA]
    have hset : Optimizer.indexSet [d.toCond "t"] = ["a"] := by
      rw [Optimizer.indexSet, map_singleton, hcol]
      rfl
    have hchoice : p.chooseIndex "t" [d.toCond "t"] = ["a", "b"] := by
      simp [Planner.chooseIndex, hp, Optimizer.Choice.turn, Optimizer.matched, hset]
    change p.getIndexCols "t" [d.toCond "t"] = some (["a", "b"], [d.toCond "t"])
    simp [Planner.getIndexCols, hp, hchoice, Optimizer.fedConds_singleton]
  few := by
    change 1 ≤ 2
    omega
  index := by decide
  mem _ h := h

/-- `MIN` and `MAX` as an index scan are right exactly when the record that is taken has the value. -/
theorem minMaxRight_iff {p : Planner} {T : Table m} {A : Content m} {i : Fin m.indexes.length}
    {conds fed : List Condition} {isMax : Bool} {c : ColMeta} (hplan : Rewritten p m conds i fed)
    (hconds : OnCols m conds) (hT : T.Holds A) (hagree : A.AgreeAt i) :
    MinMaxRight p T i isMax c conds ↔
      (Met conds T.fh.live → TakesExtreme isMax (m.ix i) c fed conds T.fh.live) := by
  have htyped : Typed (m.ix i).cols fed := OnCols.typed (fun d hd => hconds d (hplan.mem d hd)) i
  have hselect : ∀ mem fuel, selectMinMax p T isMax c conds mem fuel = firstRow T i fed isMax c mem fuel :=
    hplan.select_eq (fun d hd => (hconds d hd).1) T c
  simp only [MinMaxRight, hselect, hT.live]
  refine forall_congr' fun _ => ⟨fun h mem hmem => ?_, fun h mem hmem => ?_⟩
  · cases hend : endOf (m.ix i) fed mem with
    | none =>
      obtain ⟨mem', hmem', hnot⟩ := unset_end isMax c hT htyped hmem hend
      obtain ⟨enough, row, hrows, -⟩ := h mem' hmem'
      exact absurd ⟨enough, hrows⟩ (hnot row)
    | some e =>
      obtain ⟨enough, row, hrows, hext⟩ := h mem hmem
      rcases rows_cases isMax c hT hagree htyped hmem hend with ⟨rid, rec, hlive, htaken, hgives⟩ | ⟨-, hnot⟩
      · refine ⟨e, rfl, rid, rec, hlive, htaken, ?_⟩
        rw [hgives.unique ⟨enough, hrows⟩]
        exact hext
      · exact absurd ⟨enough, hrows⟩ (hnot row)
  · obtain ⟨e, hend, rid, rec, hlive, htaken, hext⟩ := h mem hmem
    rcases rows_cases isMax c hT hagree htyped hmem hend with ⟨rid', rec', hlive', htaken', enough, hrows⟩ | ⟨hnot, -⟩
    · obtain rfl := taken_unique hagree hlive hlive' htaken htaken'
      exact ⟨enough, _, hrows, hext⟩
    · exact absurd htaken (hnot rid rec hlive)

/-- `MIN(b)` and `MAX(b)` of `a = 1` are right. -/
theorem minMax_aOne : ∃ h s, Run.run (@clientHandler [tabOnAB] noFloats) (.create [tabOnAB]) insertCrossed =
    some (h, s) ∧ ∀ p : Planner, p.indexes "t" = [["a", "b"]] → ∀ isMax,
      Rewritten p tabOnAB aOne (0 : Fin 1) aOne ∧ @MinMaxRight tabOnAB p (s.db 0) (0 : Fin 1) isMax colB aOne := by
  have htyped : Typed ixOnAB.cols aOne := by
    simp [Typed, aOne, eqCond, Condition.on, ixOnAB, colA, colB, List.findIdx?_cons, bytesOf]
  have hfocused : Focused ixOnAB colB aOne := by
    refine ⟨?_, ?_, 1, by decide, rfl⟩
    · constructor <;>
        simp [ixOnAB, aOne, eqCond, Condition.on, colA, colB, List.findIdx?_cons, lowerCond, upperCond, lowers, uppers,
          leading, CompOp.isLower, CompOp.isUpper, range_succ]
    · simp [ixOnAB, aOne, eqCond, Condition.on, colA, colB, List.findIdx?_cons]
  obtain ⟨h, s, A, hrun, hT, hagree⟩ := insertCrossed_agrees
  have hconsistent : Consistent ixOnAB aOne A.live := by
    intro rid rec _ _ l u hl _
    simp [ixOnAB, aOne, eqCond, Condition.on, colA, colB, List.findIdx?_cons, lowerCond, lowers, leading,
      CompOp.isLower, range_succ] at hl
  refine ⟨h, s, hrun, fun p hp isMax => ?_⟩
  have hplan : Rewritten p tabOnAB aOne (0 : Fin 1) aOne := rewritten_one hp rfl
  have hcols : OnCols tabOnAB aOne := by simp [OnCols, aOne, eqCond, tabOnAB, colA, bytesOf]
  refine ⟨hplan, (minMaxRight_iff hplan hcols hT hagree).2 fun hmet => ?_⟩
  rw [hT.live] at hmet ⊢
  exact @Focused.takesExtreme tabOnAB (s.db 0) A (0 : Fin 1) aOne aOne colB hfocused htyped hT hagree hconsistent
    (fun _ => rfl) hmet isMax

/-- A scan that begins at another record is wrong. -/
theorem not_minMaxRight {p : Planner} {T : Table m} {i : Fin m.indexes.length} {conds fed : List Condition}
    {isMax : Bool} {c : ColMeta} {mem : Uninit} {fuel : Nat} {rec : List UInt8} (hplan : Rewritten p m conds i fed)
    (hcols : ∀ d ∈ conds, d.col ∈ m.cols) (hmem : mem.Fits (m.ix i))
    (hbegin : (IndexScanExecutor.beginTuple T i (IndexScan.make (m.ix i).cols fed) (!isMax) mem fuel).any fun st =>
      st.rmRecord = some rec ∧ st.isEnd = false)
    (hmet : Met conds T.fh.live) (hworse : ¬ Extreme isMax c conds T.fh.live (c.read rec)) :
    ¬ MinMaxRight p T i isMax c conds := by
  intro h
  obtain ⟨enough, row, hrows, hext⟩ := h hmet mem hmem
  cases hst : IndexScanExecutor.beginTuple T i (IndexScan.make (m.ix i).cols fed) (!isMax) mem fuel with
  | none => simp [hst] at hbegin
  | some st =>
    obtain ⟨scan, rmRecord, isEnd⟩ := st
    simp only [hst, any_some, decide_eq_true_eq] at hbegin
    obtain ⟨rfl, rfl⟩ := hbegin
    have hfuel := IndexScanExecutor.beginTuple_add (enough + 2) hst
    have hrow := hrows (fuel + (enough + 2)) (by omega)
    rw [hplan.select_eq hcols] at hrow
    have hrow' := (firstRow_found (c := c) (by omega) hfuel).symm.trans hrow
    simp only [some.injEq, List.cons.injEq, and_true] at hrow'
    exact hworse (hrow' ▸ hext)

/-- `MIN(b)` of `a > 0` is 5, the `b` of the record with the least `a`. And `MAX(a)` of
`a = 1 AND b > 2` is 2. -/
theorem minMax_wrong : ∃ h s, Run.run (@clientHandler [tabOnAB] noFloats) (.create [tabOnAB]) insertCrossed =
      some (h, s) ∧ ∀ p : Planner, p.indexes "t" = [["a", "b"]] →
        (Rewritten p tabOnAB aAbove (0 : Fin 1) aAbove ∧
          ¬ @MinMaxRight tabOnAB p (s.db 0) (0 : Fin 1) false colB aAbove) ∧
        Rewritten p tabOnAB aOneBAbove (0 : Fin 1) aOneBAbove ∧
          ¬ @MinMaxRight tabOnAB p (s.db 0) (0 : Fin 1) true colA aOneBAbove := by
  have hscans : (Run.run (@clientHandler [tabOnAB] noFloats) (.create [tabOnAB]) insertCrossed).any (fun r =>
      (r.2.db 0).fh.live ⟨1, 0⟩ = some (bytesOf 1 ++ bytesOf 5) ∧
        (r.2.db 0).fh.live ⟨1, 1⟩ = some (bytesOf 2 ++ bytesOf 3) ∧
      (@IndexScanExecutor.beginTuple tabOnAB (r.2.db 0) (0 : Fin 1) (IndexScan.make [colA, colB] aAbove) true zeroMem
        5).any
        (fun st => st.rmRecord = some (bytesOf 1 ++ bytesOf 5) ∧ st.isEnd = false) = true ∧
      (@IndexScanExecutor.beginTuple tabOnAB (r.2.db 0) (0 : Fin 1)
        (IndexScan.make [colA, colB] aOneBAbove) false zeroMem
        5).any (fun st => st.rmRecord = some (bytesOf 2 ++ bytesOf 3) ∧ st.isEnd = false) = true) = true := by
    decide +kernel
  obtain ⟨h, s, -, hrun, -⟩ := insertCrossed_agrees
  simp only [hrun, any_some, decide_eq_true_eq] at hscans
  obtain ⟨hlive, hlive', hmin, hmax⟩ := hscans
  refine ⟨h, s, hrun, fun p hp => ?_⟩
  have habove : Rewritten p tabOnAB aAbove (0 : Fin 1) aAbove := rewritten_one hp rfl
  have hone : Rewritten p tabOnAB aOneBAbove (0 : Fin 1) aOneBAbove :=
    ⟨getIndexCols_aOneBAbove p hp, by decide, by decide, fun _ h => h⟩
  refine ⟨⟨habove, ?_⟩, hone, ?_⟩
  · refine not_minMaxRight habove (by simp [aAbove, tabOnAB]) zeroMem_fits hmin ⟨_, _, hlive', by decide⟩ fun hext => ?_
    exact absurd (hext.bound _ _ hlive' (by decide)) (by decide)
  · refine not_minMaxRight hone (by simp [aOneBAbove, eqCond, tabOnAB]) zeroMem_fits hmax ⟨_, _, hlive, by decide⟩
      fun hext => ?_
    -- a record with `a = 1` does not have the value 2
    obtain ⟨rid, rec, -, hmeets, hread⟩ := hext.found
    have hone := all_eq_true.1 hmeets (eqCond colA 1) (by simp [aOneBAbove])
    have hone : (eqCond colA 1).op.test (compare colA (colA.read rec) (bytesOf 1)) = true := hone
    rw [hread] at hone
    exact absurd hone (by decide)

end Rmdb.Execution
