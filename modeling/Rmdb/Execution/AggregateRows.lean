/-
The rows that come out of an aggregation.

`Next` writes the keys of the group in the order of `GROUP BY`, where the select
list has one, and the aggregates; the projection reads the items at the places
of the select list. For no rows at all there is one record, of zeros.
-/
import Rmdb.Lib.Lists
import Rmdb.Execution.AggregateGroups

namespace Rmdb.Execution

open List Index
open Optimizer (AggType)

namespace AggItem

def InScope (it : AggItem) : Prop :=
  (it.agg = .sum → it.col.type = .int) ∧ (it.agg = .max ∨ it.agg = .min → it.col.type ≠ .float)

instance (it : AggItem) : Decidable it.InScope := inferInstanceAs (Decidable (_ ∧ _))

variable {it : AggItem}

theorem InScope.typed (h : it.InScope) (hcount : it.agg = .count → it.col.type = .int) : it.Typed := by
  unfold Typed
  cases hagg : it.agg with
  | count => exact hcount hagg
  | max => exact h.2 (.inl hagg)
  | min => exact h.2 (.inr hagg)
  | sum => exact h.1 hagg
  | col => trivial

variable {target : TabCol} {agg : AggType} {cols : List Col}

theorem lookup_agg (h : lookup cols agg target = some it) : it.agg = agg := by
  unfold lookup at h
  split at h
  · rw [← Option.some.inj h]
  · obtain ⟨c, -, hit⟩ := Option.map_eq_some_iff.1 h
    split at hit <;> rw [← hit]

theorem lookup_count (h : lookup cols agg target = some it) (hcount : it.agg = .count) : it.col.type = .int := by
  unfold lookup at h
  split at h
  · rw [← Option.some.inj h]
  · obtain ⟨c, -, hit⟩ := Option.map_eq_some_iff.1 h
    split at hit
    · rw [← hit]
    · next hne =>
      subst hit
      by_contra hint
      exact hne ⟨hcount, hint⟩

end AggItem

namespace AggregateExecutor

variable {σ : Type} (ex : AggregateExecutor σ)

def expected (g : List (List UInt8)) : List UInt8 := ex.items.flatMap fun it => (it.value g).getD []

def laidOut (g : List (List UInt8)) : List UInt8 :=
  (if ex.hasGroupCol then ex.groupBys.flatMap fun c => c.read (g.headD []) else []) ++
    (ex.items.filter fun it => it.agg ≠ .col).flatMap fun it => (it.value g).getD []

/-- The value of each item is where the projection reads it, and nothing was
written behind the end of the record. -/
def IsRow (g : List (List UInt8)) (rec : List UInt8) : Prop :=
  rec.length ≤ ex.tupleLen ∧ ∀ i it, ex.items[i]? = some it →
    it.value g = some ((rec.drop (ex.projOffset i)).take it.col.len)

def RowPerGroup (rows out : List (List UInt8)) : Prop :=
  ∃ gs, gs.Perm (ex.groupsOf rows) ∧ List.Forall₂ ex.IsRow gs out

/-- For no rows, there is no group, or only `COUNT` is asked for. Otherwise what
is laid out for the groups are their items. -/
def Aligned (rows : List (List UInt8)) : Prop :=
  if rows = [] then if ex.groupBys = [] then ∀ it ∈ ex.items, it.agg = .count else ex.hasGroupCol = true
  else ((groups ex.sameKeys rows).map ex.laidOut).Perm ((groups ex.sameKeys rows).map ex.expected)

variable {ex} {g : List (List UInt8)}

/-- Slices of the lengths of some values are the values exactly if the whole is
the values one behind the other. -/
theorem slices_iff : ∀ {items : List AggItem} {rec : List UInt8}, (∀ it ∈ items, it.Typed) →
    ((rec.length ≤ (items.map fun it => it.col.len).sum ∧ ∀ i it, items[i]? = some it →
        it.value g = some ((rec.drop ((items.take i).map fun it => it.col.len).sum).take it.col.len)) ↔
      (∀ it ∈ items, (it.value g).isSome) ∧ rec = items.flatMap fun it => (it.value g).getD [])
  | [], rec, _ => by simp
  | it :: items, rec, h => by
    have ih := @slices_iff items (rec.drop it.col.len) fun it hit => h it (mem_cons_of_mem _ hit)
    constructor
    · intro ⟨hlen, hslice⟩
      -- the first slice is the first value, and the rest is sliced for the other items
      have hfirst := hslice 0 it rfl
      simp only [take_zero, map_nil, sum_nil, drop_zero] at hfirst
      have hrest := ih.1 ⟨by simp only [map_cons, sum_cons, length_drop] at hlen ⊢; omega,
        fun i it' hit' => by
          have h' := hslice (i + 1) it' hit'
          rwa [take_succ_cons, map_cons, sum_cons, ← drop_drop] at h'⟩
      refine ⟨forall_mem_cons.2 ⟨by rw [hfirst]; rfl, hrest.1⟩, ?_⟩
      rw [flatMap_cons, hfirst, Option.getD_some, ← hrest.2, take_append_drop]
    · intro ⟨hsome, hrec⟩
      rw [forall_mem_cons] at hsome
      obtain ⟨v, hv⟩ := Option.isSome_iff_exists.1 hsome.1
      have hvlen := AggItem.length_value (h it mem_cons_self) hv
      rw [flatMap_cons, hv, Option.getD_some] at hrec
      have hdrop : rec.drop it.col.len = items.flatMap fun it => (it.value g).getD [] := by
        rw [hrec, ← hvlen, drop_left]
      obtain ⟨hlen, hslice⟩ := ih.2 ⟨hsome.2, hdrop⟩
      refine ⟨by simp only [map_cons, sum_cons, length_drop] at hlen ⊢; omega, fun i it' hit' => ?_⟩
      cases i with
      | zero =>
        obtain rfl := Option.some.inj hit'
        rw [hv, hrec]
        simp [← hvlen]
      | succ i =>
        rw [take_succ_cons, map_cons, sum_cons, ← drop_drop]
        exact hslice i it' hit'

variable {rec : List UInt8}

theorem isRow_iff (h : ex.Typed) :
    ex.IsRow g rec ↔ (∀ it ∈ ex.items, (it.value g).isSome) ∧ rec = ex.expected g := slices_iff h.item

theorem isRow_iff_of_ne_nil (h : ex.Typed) (hg : g ≠ []) : ex.IsRow g rec ↔ rec = ex.expected g := by
  rw [isRow_iff h, and_iff_right]
  intro it _
  obtain ⟨v, hv⟩ := it.exists_value hg
  rw [hv]
  rfl

theorem record_entryOf [FloatOps] (h : ex.Typed) (hg : g ≠ []) : ex.record (ex.entryOf g) = ex.laidOut g := by
  have hkeys : ((ex.keysOf (g.headD [])).zip ex.groupBys).flatMap (fun p => p.1.raw.take p.2.len) =
      ex.groupBys.flatMap fun c => c.read (g.headD []) := by
    unfold keysOf
    induction ex.groupBys with
    | nil => rfl
    | cons c cs ih =>
      rw [map_cons, zip_cons_cons, flatMap_cons, flatMap_cons, ih]
      simp
  have hitems : ∀ {items : List AggItem}, (∀ it ∈ items, it.Typed) →
      (items.zip (items.map (·.running g))).flatMap (fun p => p.1.written p.2) =
        (items.filter fun it => it.agg ≠ .col).flatMap fun it => (it.value g).getD [] := by
    intro items hitems
    induction items with
    | nil => rfl
    | cons it items ih =>
      rw [map_cons, zip_cons_cons, flatMap_cons, ih fun it hit => hitems it (mem_cons_of_mem _ hit)]
      by_cases hcol : it.agg = .col
      · simp [hcol, AggItem.written]
      · rw [filter_cons_of_pos (by simpa using hcol), flatMap_cons,
          AggItem.value_eq_written (hitems it mem_cons_self) hcol hg]
        rfl
  rw [record, h.values_entryOf hg, laidOut]
  have hif := congrArg (fun keys => if ex.hasGroupCol then keys else []) hkeys
  exact congrArg₂ (· ++ ·) hif (hitems h.item)

section Make

variable {prev : Executor σ} {sels : List (AggType × TabCol)} {groupBys : List TabCol}
  {having : List ((AggType × TabCol) × CompOp × AggValue)} {tableOrder : TableOrder}

theorem make_eq (hmake : make prev sels groupBys having tableOrder = some ex) : ex.prev = prev ∧
    sels.mapM (fun sel => AggItem.lookup prev.cols sel.1 sel.2) = some ex.items ∧
    having.mapM (fun cond => (AggItem.lookup prev.cols cond.1.1 cond.1.2).map fun it =>
      ({ it with op := cond.2.1, rhsVal := cond.2.2 } : Having)) = some ex.having ∧
    groupBys.mapM (fun col => (getCol prev.cols col).map Col.col) = some ex.groupBys := by
  simp only [make, Option.bind_eq_bind, Option.bind_eq_some_iff] at hmake
  obtain ⟨items, hitems, conds, hconds, cols, hcols, h⟩ := hmake
  rw [← Option.some.inj h]
  exact ⟨rfl, hitems, hconds, hcols⟩

theorem make_groupBys_ne_nil (hmake : make prev sels groupBys having tableOrder = some ex) (h : groupBys ≠ []) :
    ex.groupBys ≠ [] := by
  obtain ⟨col, cols, rfl⟩ := exists_cons_of_ne_nil h
  obtain ⟨-, -, -, hcols⟩ := make_eq hmake
  rw [mapM_cons] at hcols
  simp only [Option.bind_eq_bind, Option.bind_eq_some_iff] at hcols
  obtain ⟨c, -, cs, -, hcs⟩ := hcols
  rw [← Option.some.inj hcs]
  exact cons_ne_nil _ _

theorem make_item (hmake : make prev sels groupBys having tableOrder = some ex) {it : AggItem} (hit : it ∈ ex.items)
    (hscope : it.InScope) : it.Typed := by
  obtain ⟨sel, -, hsel⟩ := Lists.mem_of_mapM (make_eq hmake).2.1 it hit
  exact hscope.typed fun hcount => AggItem.lookup_count hsel hcount

theorem make_having (hmake : make prev sels groupBys having tableOrder = some ex) {cond : Having}
    (hcond : cond ∈ ex.having) (hscope : cond.InScope) : cond.Typed := by
  obtain ⟨c, -, hc⟩ := Lists.mem_of_mapM (make_eq hmake).2.2.1 cond hcond
  obtain ⟨it, hit, rfl⟩ := Option.map_eq_some_iff.1 hc
  exact hscope.typed fun hcount => AggItem.lookup_count hit hcount

theorem make_compared (hmake : make prev sels groupBys having tableOrder = some ex)
    (hagg : ∀ cond ∈ ex.having, cond.agg ≠ .col) (htype : ∀ cond ∈ ex.having, cond.rhsVal.type = cond.col.type) :
    ex.Compared := by
  refine ⟨fun cond hcond hcount => ?_, hagg, htype⟩
  obtain ⟨c, -, hc⟩ := Lists.mem_of_mapM (make_eq hmake).2.2.1 cond hcond
  obtain ⟨it, hit, rfl⟩ := Option.map_eq_some_iff.1 hc
  exact AggItem.lookup_count hit hcount

theorem make_count {target : TabCol} (hmake : make prev [(.count, target)] groupBys having tableOrder = some ex) :
    ∃ it, ex.items = [it] ∧ it.agg = .count ∧ it.col.type = .int := by
  obtain ⟨-, hitems, -, -⟩ := make_eq hmake
  obtain ⟨it, hit, heq⟩ : ∃ it, AggItem.lookup prev.cols .count target = some it ∧ [it] = ex.items := by
    simpa [mapM_cons, Option.bind_eq_some_iff] using hitems
  have hcount := AggItem.lookup_agg hit
  exact ⟨it, heq.symm, hcount, AggItem.lookup_count hit hcount⟩

end Make

/-! ## One row for each group -/

variable [FloatOps] {rows : List (List UInt8)} {fuel : Nat} {s : State σ}

variable {out : List (List UInt8)}

omit [FloatOps] in
theorem forall₂_isRow (h : ex.Typed) {gs : List (List (List UInt8))} (hne : ∀ g ∈ gs, g ≠ []) :
    List.Forall₂ ex.IsRow gs out ↔ out = gs.map ex.expected := by
  induction gs generalizing out with
  | nil => simp
  | cons g gs ih =>
    rw [forall₂_cons_left_iff, map_cons]
    constructor
    · rintro ⟨rec, out, hrow, hrows, rfl⟩
      rw [(isRow_iff_of_ne_nil h (hne g mem_cons_self)).1 hrow,
        (ih fun g hg => hne g (mem_cons_of_mem _ hg)).1 hrows]
    · rintro rfl
      exact ⟨_, _, (isRow_iff_of_ne_nil h (hne g mem_cons_self)).2 rfl,
        (ih fun g hg => hne g (mem_cons_of_mem _ hg)).2 rfl, rfl⟩

omit [FloatOps] in
theorem rowPerGroup_iff (h : ex.Typed) (hrows : rows ≠ []) :
    ex.RowPerGroup rows out ↔ out.Perm ((groups ex.sameKeys rows).map ex.expected) := by
  have hgroups : ex.groupsOf rows = groups ex.sameKeys rows := if_neg fun h => hrows h.1
  rw [RowPerGroup, hgroups]
  constructor
  · rintro ⟨gs, hgs, hout⟩
    rw [(forall₂_isRow h fun g hg => groups_ne_nil rows g (hgs.subset hg)).1 hout]
    exact hgs.map _
  · intro hperm
    obtain ⟨gs, hout, hgs⟩ := (congrFun (congrFun (eq_map_comp_perm ex.expected) _) _).mpr hperm
    exact ⟨gs, hgs, (forall₂_isRow h fun g hg => groups_ne_nil rows g (hgs.subset hg)).2 hout⟩

variable (ex) in
/-- For no rows: a record of zeros for `COUNT`, an exception for other items, or
nothing if a column of the group is asked for. -/
def EmptyOut (out : List (List UInt8)) : Prop :=
  if ex.groupBys ≠ [] ∧ ex.hasGroupCol then out = []
  else (∀ it ∈ ex.items, it.agg = .count) ∧ out = [ex.items.flatMap fun _ => bytesOf 0]

theorem shows_nil {prev : σ} :
    (ex.iter fuel).Shows (fun _ => True) out ⟨prev, [], !(!ex.groupBys.isEmpty && ex.hasGroupCol)⟩ ↔
      ex.EmptyOut out := by
  unfold EmptyOut
  split_ifs with hgroup
  · have hflag : (!(!ex.groupBys.isEmpty && ex.hasGroupCol)) = false := by simp [hgroup]
    rw [hflag]
    have hnil : (ex.iter fuel).Shows (fun _ => True) [] ⟨prev, [], false⟩ := ⟨trivial, rfl⟩
    exact ⟨fun hout => hout.unique hnil, fun hout => hout ▸ hnil⟩
  · have hflag : (!(!ex.groupBys.isEmpty && ex.hasGroupCol)) = true := by
      simp only [Bool.not_eq_true', Bool.and_eq_false_iff, Bool.not_eq_false', List.isEmpty_iff]
      by_cases hempty : ex.groupBys = []
      · exact .inl hempty
      · exact .inr (by simpa using fun h => hgroup ⟨hempty, h⟩)
    rw [hflag]
    have hone (hcount : ∀ it ∈ ex.items, it.agg = .count) : (ex.iter fuel).Shows (fun _ => True)
        [ex.items.flatMap fun _ => bytesOf 0] ⟨prev, [], true⟩ := by
      have hnext : (ex.iter fuel).next ⟨prev, [], true⟩ = some
        (ex.items.flatMap fun _ => bytesOf 0, ⟨prev, [], true⟩) := by
        simpa [iter, next] using hcount
      exact Iter.shows_cons trivial rfl hnext ⟨trivial, rfl, ⟨prev, [], false⟩, rfl, trivial, rfl⟩
    constructor
    · intro hout
      have hcount : ∀ it ∈ ex.items, it.agg = .count := by
        obtain _ | ⟨r, out⟩ := out
        · exact absurd hout.2 (by simp [iter, isEnd])
        · obtain ⟨s', hnext, -⟩ := hout.next
          by_contra hcount
          have hall : ¬ (ex.items.all fun it => it.agg = .count) = true := by simpa using hcount
          simp only [iter, next, if_true, if_neg hall] at hnext
          cases hnext
      exact ⟨hcount, hout.unique (hone hcount)⟩
    · intro hout
      exact hout.2 ▸ hone hout.1

omit [FloatOps] in
theorem rowPerGroup_nil (h : ex.Typed) (hout : ex.EmptyOut out) :
    ex.RowPerGroup [] out ↔ (ex.groupBys ≠ [] → ex.hasGroupCol) := by
  unfold EmptyOut at hout
  by_cases hgroup : ex.groupBys = []
  · rw [if_neg fun h => h.1 hgroup] at hout
    obtain ⟨hcount, rfl⟩ := hout
    have hvalue : ∀ it ∈ ex.items, it.value [] = some (bytesOf 0) := fun it hit => by
      unfold AggItem.value
      rw [hcount it hit]
      rfl
    have hrow : ex.IsRow [] (ex.items.flatMap fun _ => bytesOf 0) := by
      refine (isRow_iff h).2 ⟨fun it hit => by rw [hvalue it hit]; rfl, ?_⟩
      exact flatMap_congr fun it hit => by rw [hvalue it hit]; rfl
    refine iff_of_true ⟨[[]], ?_, .cons hrow .nil⟩ (absurd hgroup)
    rw [groupsOf, if_pos ⟨rfl, hgroup⟩]
  · have hnone : ex.groupsOf [] = [] := by
      rw [groupsOf, if_neg fun h => hgroup h.2]
      rfl
    rw [RowPerGroup, hnone]
    by_cases hcol : ex.hasGroupCol = true
    · rw [if_pos ⟨hgroup, hcol⟩] at hout
      exact iff_of_true ⟨[], .refl _, hout ▸ .nil⟩ fun _ => hcol
    · rw [if_neg fun h => hcol h.2] at hout
      refine iff_of_false ?_ fun h => hcol (h hgroup)
      rintro ⟨gs, hgs, hrows⟩
      rw [hgs.eq_nil, hout.2] at hrows
      cases hrows

theorem rowPerGroup_nil_iff (h : ex.Typed) {prev : σ} :
    (∃ out, (ex.iter fuel).Shows (fun _ => True) out ⟨prev, [], !(!ex.groupBys.isEmpty && ex.hasGroupCol)⟩ ∧
      ex.RowPerGroup [] out) ↔ ex.Aligned [] := by
  unfold Aligned
  rw [if_pos rfl]
  constructor
  · rintro ⟨out, hshows, hrow⟩
    have hout := shows_nil.1 hshows
    have hcol := (rowPerGroup_nil h hout).1 hrow
    split_ifs with hgroup
    · rw [EmptyOut, if_neg fun h => h.1 hgroup] at hout
      exact hout.1
    · exact hcol hgroup
  · intro hcond
    split_ifs at hcond with hgroup
    · have hout : ex.EmptyOut [ex.items.flatMap fun _ => bytesOf 0] := by
        rw [EmptyOut, if_neg fun h => h.1 hgroup]
        exact ⟨hcond, rfl⟩
      exact ⟨_, shows_nil.2 hout, (rowPerGroup_nil h hout).2 fun h => absurd hgroup h⟩
    · have hout : ex.EmptyOut [] := by rw [EmptyOut, if_pos ⟨hgroup, hcond⟩]
      exact ⟨[], shows_nil.2 hout, (rowPerGroup_nil h hout).2 fun _ => hcond⟩

/-- Aggregation gives one row for each group, with the value of each item where
it is read, exactly if the layouts agree. -/
theorem aggregate_rowPerGroup_iff {prev : Executor σ} {sels : List (AggType × TabCol)} {groupBys : List TabCol}
    {tableOrder : TableOrder} (hmake : make prev sels groupBys [] tableOrder = some ex)
    (hscope : ∀ it ∈ ex.items, it.InScope) (hprev : prev.Begins rows s.prev) (hfuel : rows.length < fuel)
    (hfresh : s.isEmptyTable = false) :
    (∃ out, (ex.iter fuel).Begins out s ∧ ex.RowPerGroup rows out) ↔ ex.Aligned rows := by
  obtain ⟨hex, -, hhaving, -⟩ := make_eq hmake
  have hnone : ex.having = [] := (Option.some.inj hhaving).symm
  have h : ex.Typed :=
    ⟨fun it hit => make_item hmake hit (hscope it hit), by simp [hnone], by simp [hnone], by simp [hnone]⟩
  rw [← hex] at hprev
  by_cases hrows : rows = []
  · subst hrows
    obtain ⟨prev', hbegin⟩ := beginTuple_nil hprev hfuel hfresh
    rw [← rowPerGroup_nil_iff h]
    refine exists_congr fun out => and_congr_left fun _ => ?_
    exact Iter.begins_iff hbegin
  · rw [Aligned, if_neg hrows]
    have hnext : ∀ prev e es, (ex.iter fuel).next ⟨prev, e :: es, false⟩ = some (ex.record e, ⟨prev, e :: es, false⟩) :=
      fun _ _ _ => rfl
    obtain ⟨gs, hgs, hbegins⟩ :=
      begins_groups (.inl h.adds) h.compared hprev hfuel hfresh hrows rfl hnext rfl rfl
    have hall : (gs.filter fun g => ex.lets (ex.entryOf g)) = gs :=
      filter_eq_self.2 fun g _ => by simp [lets, hnone, passes]
    have hrecords : (gs.map fun g => ex.record (ex.entryOf g)) = gs.map ex.laidOut :=
      map_congr_left fun g hg => record_entryOf h (groups_ne_nil rows g (hgs.subset hg))
    rw [hall, hrecords] at hbegins
    have hout : (gs.map ex.laidOut).Perm ((groups ex.sameKeys rows).map ex.laidOut) := hgs.map _
    constructor
    · intro hsome
      obtain ⟨out, hbegins', hrow⟩ := hsome
      rw [hbegins'.unique hbegins, rowPerGroup_iff h hrows] at hrow
      exact hout.symm.trans hrow
    · intro hperm
      exact ⟨_, hbegins, (rowPerGroup_iff h hrows).2 (hout.trans hperm)⟩

omit [FloatOps] in
/-- The group's columns first and as `GROUP BY` has them, and then aggregates. -/
theorem aligned_of_keys_first (aggs : List AggItem) (hitems : ex.items = ex.groupBys.map (AggItem.mk .col) ++ aggs)
    (haggs : ∀ it ∈ aggs, it.agg ≠ .col) (hrows : rows ≠ []) : ex.Aligned rows := by
  rw [Aligned, if_neg hrows]
  refine .of_eq (map_congr_left fun g hg => ?_)
  obtain ⟨a, g, rfl⟩ := exists_cons_of_ne_nil (groups_ne_nil rows g hg)
  have hkeys : (ex.groupBys.map (AggItem.mk .col)).filter (fun it => it.agg ≠ .col) = [] := by simp
  have haggs' : aggs.filter (fun it => it.agg ≠ .col) = aggs := filter_eq_self.2 (by simpa using haggs)
  have hcols : (if ex.hasGroupCol then ex.groupBys.flatMap fun c => c.read a else []) =
      ex.groupBys.flatMap fun c => c.read a := by
    split
    · rfl
    · next hno =>
      have hnil : ex.groupBys = [] := by
        by_contra hne
        obtain ⟨c, cs, hcs⟩ := exists_cons_of_ne_nil hne
        exact hno (by simp [hasGroupCol, hitems, hcs])
      rw [hnil]
      rfl
  rw [laidOut, expected, hitems, filter_append, hkeys, haggs', nil_append, headD_cons, hcols,
    flatMap_append, flatMap_map]
  rfl

omit [FloatOps] in
/-! ## The groups that `HAVING` leaves -/

theorem havingHolds_congr (h : ex.Typed) {g g' : List (List UInt8)} (hg : g ≠ []) (hg' : g' ≠ [])
    (heq : ex.entryOf g = ex.entryOf g') : ex.havingHolds g = ex.havingHolds g' := by
  have hvalues := congrArg (fun e => e.2.havingValues) heq
  simp only [h.havingValues_entryOf hg, h.havingValues_entryOf hg', map_inj_left] at hvalues
  have hholds : ∀ cond ∈ ex.having, cond.holds g = cond.holds g' := fun cond hcond => by
    rw [Having.holds, Having.holds, AggItem.value_eq_written (h.having cond hcond) (h.agg cond hcond) hg,
      AggItem.value_eq_written (h.having cond hcond) (h.agg cond hcond) hg', hvalues cond hcond]
  unfold havingHolds
  rw [Bool.eq_iff_iff, all_eq_true, all_eq_true]
  exact forall₂_congr fun cond hcond => by rw [hholds cond hcond]

/-- The groups that come out are those whose aggregates pass, exactly if to put
the first row's value for each `SUM` makes no difference for a group. -/
theorem aggregate_having_iff {prev : Executor σ} {sels : List (AggType × TabCol)} {groupBys : List TabCol}
    {having : List ((AggType × TabCol) × CompOp × AggValue)} {tableOrder : TableOrder}
    (hmake : make prev sels groupBys having tableOrder = some ex) (hgroup : groupBys ≠ [])
    (hitems : ∀ it ∈ ex.items, it.InScope) (hscope : ∀ cond ∈ ex.having, cond.InScope)
    (hagg : ∀ cond ∈ ex.having, cond.agg ≠ .col) (htype : ∀ cond ∈ ex.having, cond.rhsVal.type = cond.col.type)
    (hprev : prev.Begins rows s.prev) (hfuel : rows.length < fuel) (hfresh : s.isEmptyTable = false) :
    (∃ gs : List (List (List UInt8)), (ex.entryIter fuel).Begins (gs.map ex.entryOf) s ∧
      gs.Perm ((groups ex.sameKeys rows).filter ex.havingHolds)) ↔
    (rows = [] → ex.hasGroupCol = true) ∧ ∀ g ∈ groups ex.sameKeys rows, ex.havingSees g = ex.havingHolds g := by
  obtain ⟨hex, -, -, -⟩ := make_eq hmake
  have h : ex.Typed := ⟨fun it hit => make_item hmake hit (hitems it hit),
    fun cond hcond => make_having hmake hcond (hscope cond hcond), hagg, htype⟩
  rw [← hex] at hprev
  have hne : ∀ g ∈ groups ex.sameKeys rows, g ≠ [] := groups_ne_nil rows
  by_cases hrows : rows = []
  · subst hrows
    obtain ⟨prev', hbegin⟩ := beginTuple_nil hprev hfuel hfresh
    rw [isEmpty_eq_false_iff.2 (make_groupBys_ne_nil hmake hgroup), Bool.not_false, Bool.true_and] at hbegin
    refine Iff.trans ?_ (and_iff_left (by intro g hg; cases hg)).symm
    constructor
    · intro ⟨gs, ⟨s', hbegin', hshows⟩, hgs⟩ _
      obtain rfl : gs = [] := hgs.eq_nil
      obtain rfl := Option.some.inj (hbegin.symm.trans hbegin')
      simpa [entryIter, iter, isEnd] using hshows.isEnd_eq
    · intro hcol
      rw [hcol rfl] at hbegin
      exact ⟨[], ⟨_, hbegin, trivial, rfl⟩, .refl _⟩
  · rw [and_iff_right fun h => absurd h hrows]
    have hnext : ∀ prev e es, (ex.entryIter fuel).next ⟨prev, e :: es, false⟩ = some (id e, ⟨prev, e :: es, false⟩) :=
      fun _ _ _ => rfl
    obtain ⟨gs, hgs, hbegins⟩ := begins_groups (.inl h.adds) h.compared hprev hfuel hfresh hrows rfl hnext rfl rfl
    have hlets : ∀ g ∈ gs, ex.lets (ex.entryOf g) = ex.havingSees g := fun g hg =>
      lets_entryOf h (hne g (hgs.mem_iff.1 hg))
    simp only [id, filter_congr hlets] at hbegins
    constructor
    · intro ⟨gs', hbegins', hgs'⟩ g hg
      have hsame := hbegins'.unique hbegins
      rw [Bool.eq_iff_iff]
      constructor
      · -- what was let through is one of the groups that pass
        intro hsees
        have hmem : ex.entryOf g ∈ gs'.map ex.entryOf :=
          hsame ▸ mem_map_of_mem (mem_filter.2 ⟨hgs.mem_iff.2 hg, hsees⟩)
        obtain ⟨g', hg', heq⟩ := mem_map.1 hmem
        obtain ⟨hg', hholds⟩ := mem_filter.1 (hgs'.mem_iff.1 hg')
        rw [← hholds]
        exact havingHolds_congr h (hne g hg) (hne g' hg') heq.symm
      · intro hholds
        have hmem : ex.entryOf g ∈ (gs.filter ex.havingSees).map ex.entryOf :=
          hsame ▸ mem_map_of_mem (hgs'.mem_iff.2 (mem_filter.2 ⟨hg, hholds⟩))
        obtain ⟨g', hg', heq⟩ := mem_map.1 hmem
        obtain ⟨hg', hsees⟩ := mem_filter.1 hg'
        rw [← hsees, ← lets_entryOf h (hne g hg), ← lets_entryOf h (hne g' (hgs.mem_iff.1 hg')), heq]
    · intro heq
      refine ⟨gs.filter ex.havingSees, hbegins, ?_⟩
      rw [← filter_congr heq]
      exact hgs.filter _

end AggregateExecutor

def rowsOf (rows : List (UInt32 × UInt32)) : List (List UInt8) := rows.map fun (a, b) => bytesOf a ++ bytesOf b

def scanRows (rows : List (UInt32 × UInt32)) : Executor (List (List UInt8)) :=
  { Iter.ofList (rowsOf rows) with cols := [⟨"t", colA⟩, ⟨"t", colB⟩], tupleLen := 8, isSort := false }

def groupByA (rows : List (UInt32 × UInt32)) (sels : List (AggType × TabCol))
    (having : List ((AggType × TabCol) × CompOp × AggValue)) : Option (AggregateExecutor (List (List UInt8))) :=
  AggregateExecutor.make (scanRows rows) sels [⟨"t", "a"⟩] having .inserted

def keyThenCount : AggregateExecutor (List (List UInt8)) :=
  (groupByA [(1, 5), (2, 5), (1, 6)] [(.col, ⟨"t", "a"⟩), (.count, ⟨"", ""⟩)] []).get (by rfl)

def countThenKey : AggregateExecutor (List (List UInt8)) :=
  (groupByA [(7, 5)] [(.count, ⟨"", ""⟩), (.col, ⟨"t", "a"⟩)] []).get (by rfl)

theorem keyThenCount_make : groupByA [(1, 5), (2, 5), (1, 6)] [(.col, ⟨"t", "a"⟩), (.count, ⟨"", ""⟩)] [] =
    some keyThenCount := (Option.some_get _).symm

/-- The key stands before the count, as the record has it. -/
theorem keyThenCount_rows : ∃ out, (@AggregateExecutor.iter _ keyThenCount noFloats 4).Begins out ⟨[], [], false⟩ ∧
    keyThenCount.RowPerGroup (rowsOf [(1, 5), (2, 5), (1, 6)]) out :=
  (@AggregateExecutor.aggregate_rowPerGroup_iff _ keyThenCount noFloats _ 4 ⟨[], [], false⟩
    (scanRows [(1, 5), (2, 5), (1, 6)]) _ _ _ keyThenCount_make (by decide) ((Iter.replays_ofList _).begins trivial)
    (by decide) rfl).2
    (AggregateExecutor.aligned_of_keys_first keyThenCount.items.tail rfl (by decide) (by decide))

/-- The record has the key where the count is read. -/
theorem countThenKey_rows : ¬ ∃ out, (@AggregateExecutor.iter _ countThenKey noFloats 2).Begins out ⟨[], [], false⟩ ∧
    countThenKey.RowPerGroup (rowsOf [(7, 5)]) out := by
  intro ⟨out, hbegins, gs, hgs, hrows⟩
  obtain rfl : gs = [rowsOf [(7, 5)]] := perm_singleton.1 hgs
  have hone : (@AggregateExecutor.iter _ countThenKey noFloats 2).Begins [bytesOf 7 ++ bytesOf 1] ⟨[], [], false⟩ :=
    ⟨_, rfl, trivial, rfl, _, rfl, trivial, rfl, _, rfl, trivial, rfl⟩
  obtain rfl := hbegins.unique hone
  obtain ⟨-, hvalue⟩ := (forall₂_cons.1 hrows).1
  exact absurd (hvalue 0 _ rfl) (by decide)

def havingSum (k : UInt32) : Option (AggregateExecutor (List (List UInt8))) :=
  groupByA [(1, 5), (1, 6)] [(.col, ⟨"t", "a"⟩)] [((.sum, ⟨"t", "b"⟩), .gt, ⟨.int, k, [], bytesOf k⟩)]

def sumOver4 : AggregateExecutor (List (List UInt8)) := (havingSum 4).get (by rfl)

def sumOver10 : AggregateExecutor (List (List UInt8)) := (havingSum 10).get (by rfl)

theorem sumOver4_make : havingSum 4 = some sumOver4 := (Option.some_get _).symm

/-- Both 5 and 11 are over 4. -/
theorem sumOver4_groups : ∃ gs : List (List (List UInt8)),
    (@AggregateExecutor.entryIter _ sumOver4 noFloats 3).Begins
    (gs.map (@AggregateExecutor.entryOf _ sumOver4 noFloats)) ⟨[], [], false⟩ ∧
    gs.Perm ((groups sumOver4.sameKeys (rowsOf [(1, 5), (1, 6)])).filter sumOver4.havingHolds) :=
  (@AggregateExecutor.aggregate_having_iff _ sumOver4 noFloats _ 3 ⟨[], [], false⟩ (scanRows [(1, 5), (1, 6)]) _ _ _ _
    sumOver4_make (by simp) (by decide) (by decide) (by decide) (by decide) ((Iter.replays_ofList _).begins trivial)
    (by decide) rfl).2 ⟨by decide, by decide +kernel⟩

/-- The sum is 11, and 5 is looked at. -/
theorem sumOver10_groups : ¬ ∃ gs : List (List (List UInt8)),
    (@AggregateExecutor.entryIter _ sumOver10 noFloats 3).Begins
    (gs.map (@AggregateExecutor.entryOf _ sumOver10 noFloats))
      ⟨[], [], false⟩ ∧
    gs.Perm ((groups sumOver10.sameKeys (rowsOf [(1, 5), (1, 6)])).filter sumOver10.havingHolds) := by
  intro ⟨gs, hbegins, hgs⟩
  have hone : (groups sumOver10.sameKeys (rowsOf [(1, 5), (1, 6)])).filter sumOver10.havingHolds =
      [rowsOf [(1, 5), (1, 6)]] := by decide +kernel
  obtain rfl : gs = [rowsOf [(1, 5), (1, 6)]] := perm_singleton.1 (hone ▸ hgs)
  have hnone : (@AggregateExecutor.entryIter _ sumOver10 noFloats 3).Begins [] ⟨[], [], false⟩ := ⟨_, rfl, trivial, rfl⟩
  exact absurd (hbegins.unique hnone) (by simp)

end Rmdb.Execution
