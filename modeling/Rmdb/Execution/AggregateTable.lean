/-
The hash table of an aggregation.

A running value is the fold of the values of the rows of its group, and the
table has one of each item for each group, behind the keys of its first row.
Only a `SUM` of strings is an exception, once a group has a second row.
-/
import Rmdb.Lib.Group
import Rmdb.Execution.Aggregate

namespace Rmdb

open List

theorem bytesOf_wordOf {bs : List UInt8} (h : bs.length = 4) : bytesOf (wordOf bs) = bs :=
  (wordOf_inj rfl h).1 (wordOf_bytesOf _)

namespace Execution

open Index
open Optimizer (AggType)

namespace AggValue

@[simp] theorem ofCol_type (c : ColMeta) (r : List UInt8) : (ofCol c r).type = c.type := by
  unfold ofCol
  split
  · next h => exact h.symm
  · rfl

@[simp] theorem ofCol_raw (c : ColMeta) (r : List UInt8) : (ofCol c r).raw = c.read r := by
  unfold ofCol
  split
  · rfl
  · next h => exact bytesOf_wordOf (by rw [ColMeta.length_read, c.len_eq (by simpa using h)])

end AggValue

/-! ## Running values -/

namespace AggItem

def Adds (it : AggItem) : Prop := it.agg = .sum → it.col.type ≠ .string

instance (it : AggItem) : Decidable it.Adds := inferInstanceAs (Decidable (_ → _))

variable [FloatOps]

def step (it : AggItem) (v : AggValue) (r : List UInt8) : AggValue :=
  (v.combine it.agg (it.input r)).toOption.getD v

def folded (it : AggItem) : List (List UInt8) → AggValue
  | [] => .blank
  | r :: rows => rows.foldl it.step (it.input r)

variable {it : AggItem} {g : List (List UInt8)}

theorem folded_concat (hg : g ≠ []) (r : List UInt8) : it.folded (g ++ [r]) = it.step (it.folded g) r := by
  obtain ⟨a, g, rfl⟩ := exists_cons_of_ne_nil hg
  rw [cons_append, folded, folded, foldl_append]
  rfl

omit [FloatOps] in
theorem input_type (hcol : it.agg ≠ .col) (hcount : it.agg = .count → it.col.type = .int) (r : List UInt8) :
    (it.input r).type = it.col.type := by
  unfold input
  cases hagg : it.agg with
  | count => exact (hcount hagg).symm
  | col => exact absurd hagg hcol
  | _ => exact AggValue.ofCol_type it.col r

theorem step_type (hcol : it.agg ≠ .col) (hcount : it.agg = .count → it.col.type = .int) {v : AggValue}
    (hv : v.type = it.col.type) (r : List UInt8) : (it.step v r).type = it.col.type := by
  have hinput := input_type hcol hcount r
  unfold step AggValue.combine
  cases hagg : it.agg with
  | count => exact hv
  | col => exact absurd hagg hcol
  | max =>
    simp only [Except.toOption, Option.getD_some]
    split
    · exact hinput
    · exact hv
  | min =>
    simp only [Except.toOption, Option.getD_some]
    split
    · exact hinput
    · exact hv
  | sum => cases hadd : add v.raw (it.input r).raw v.type <;> exact hv

theorem folded_type (hcol : it.agg ≠ .col) (hcount : it.agg = .count → it.col.type = .int) (hg : g ≠ []) :
    (it.folded g).type = it.col.type := by
  induction g using List.reverseRecOn with
  | nil => exact absurd rfl hg
  | append_singleton g r ih =>
    by_cases hnil : g = []
    · subst hnil
      exact input_type hcol hcount r
    · rw [folded_concat hnil]
      exact step_type hcol hcount (ih hnil) r

theorem combine_folded (h : it.Adds) (hg : g ≠ []) (r : List UInt8) :
    (it.folded g).combine it.agg (it.input r) = .ok (it.folded (g ++ [r])) := by
  have hok : ∃ v, (it.folded g).combine it.agg (it.input r) = .ok v := by
    unfold AggValue.combine
    cases hagg : it.agg with
    | sum =>
      have htype : (it.folded g).type = it.col.type := folded_type (by simp [hagg]) (by simp [hagg]) hg
      have hne := h hagg
      rw [← htype] at hne
      simp only [add]
      cases hfolded : (it.folded g).type with
      | string => exact absurd hfolded hne
      | _ => exact ⟨_, rfl⟩
    | _ => exact ⟨_, rfl⟩
  obtain ⟨v, hv⟩ := hok
  rw [folded_concat hg, step, hv]
  rfl

theorem combine_error (h : ¬ it.Adds) (hg : g ≠ []) (r : List UInt8) :
    ∃ e, (it.folded g).combine it.agg (it.input r) = .error e := by
  obtain ⟨hagg, htype⟩ : it.agg = .sum ∧ it.col.type = .string := by simpa [Adds] using h
  have hfolded : (it.folded g).type = it.col.type := folded_type (by simp [hagg]) (by simp [hagg]) hg
  rw [htype] at hfolded
  unfold AggValue.combine
  rw [hagg, hfolded]
  exact ⟨_, rfl⟩

end AggItem

/-! ## The table -/

section CombineAll

variable [FloatOps] {g : List (List UInt8)}

theorem combineAll_cons (it : AggItem) (items : List AggItem) (v w : AggValue) (vs ws : List AggValue) :
    combineAll (it :: items) (v :: vs) (w :: ws) =
      (v.combine it.agg w).bind fun u => (combineAll items vs ws).bind fun us => .ok (u :: us) := by
  unfold combineAll
  rw [zip_cons_cons, zip_cons_cons, mapM_cons]
  rfl

theorem combineAll_folded (hg : g ≠ []) (r : List UInt8) : ∀ {items : List AggItem}, (∀ it ∈ items, it.Adds) →
    combineAll items (items.map (·.folded g)) (items.map (·.input r)) = .ok (items.map (·.folded (g ++ [r])))
  | [], _ => rfl
  | it :: items, h => by
    rw [map_cons, map_cons, combineAll_cons, AggItem.combine_folded (h it mem_cons_self) hg,
      combineAll_folded hg r fun it hit => h it (mem_cons_of_mem _ hit)]
    rfl

theorem combineAll_error (hg : g ≠ []) (r : List UInt8) : ∀ {items : List AggItem}, (¬ ∀ it ∈ items, it.Adds) →
    ∃ e, combineAll items (items.map (·.folded g)) (items.map (·.input r)) = .error e
  | [], h => absurd nofun h
  | it :: items, h => by
    rw [map_cons, map_cons, combineAll_cons]
    by_cases hit : it.Adds
    · obtain ⟨e, he⟩ := combineAll_error hg r fun hall => h (forall_mem_cons.2 ⟨hit, hall⟩)
      rw [AggItem.combine_folded hit hg, he]
      exact ⟨e, rfl⟩
    · obtain ⟨e, he⟩ := AggItem.combine_error hit hg r
      rw [he]
      exact ⟨e, rfl⟩

end CombineAll

namespace AggregateExecutor

variable {σ : Type} (ex : AggregateExecutor σ)

def sameKeys (r r' : List UInt8) : Bool := ((ex.keysOf r).zip (ex.keysOf r')).all fun (v, w) => v.same w

def Adds : Prop := (∀ it ∈ ex.items, it.Adds) ∧ ∀ it ∈ ex.having.map Having.toAggItem, it.Adds

def entryOf [FloatOps] (g : List (List UInt8)) : List AggValue × AggEntry :=
  (ex.keysOf (g.headD []), ⟨ex.items.map (·.folded g), ex.having.map (·.folded g)⟩)

variable {ex}

variable [FloatOps]

theorem insertCombine_entries (r : List UInt8) : ∀ {gs : List (List (List UInt8))}, (∀ g ∈ gs, g ≠ []) →
    (ex.Adds ∨ ∀ g ∈ gs, ¬ g.head?.any (ex.sameKeys · r)) →
      ex.insertCombine (ex.keysOf r) (ex.inputOf r) (gs.map ex.entryOf) =
        .ok ((addToGroup ex.sameKeys r gs).map ex.entryOf)
  | [], _, _ => rfl
  | g :: gs, hne, h => by
    have ih := insertCombine_entries r (fun g hg => hne g (mem_cons_of_mem _ hg))
      (h.imp_right fun h g hg => h g (mem_cons_of_mem _ hg))
    obtain ⟨a, g, rfl⟩ := exists_cons_of_ne_nil (hne g mem_cons_self)
    have hlike : (((ex.entryOf (a :: g)).1.zip (ex.keysOf r)).all fun (v, w) => v.same w) = ex.sameKeys a r := rfl
    unfold addToGroup
    rw [map_cons, insertCombine, hlike]
    cases hsame : ex.sameKeys a r with
    | true =>
      obtain ⟨hitems, hhaving⟩ := h.resolve_right fun h => h (a :: g) mem_cons_self (by simpa using hsame)
      have hvalues : combineAll ex.items (ex.entryOf (a :: g)).2.values (ex.inputOf r).values =
          .ok (ex.items.map (·.folded (a :: g ++ [r]))) := combineAll_folded (cons_ne_nil a g) r hitems
      have hhaving := combineAll_folded (cons_ne_nil a g) r hhaving
      rw [map_map, map_map, map_map] at hhaving
      have hconds : combineAll (ex.having.map Having.toAggItem) (ex.entryOf (a :: g)).2.havingValues
          (ex.inputOf r).havingValues = .ok (ex.having.map (·.folded (a :: g ++ [r]))) := hhaving
      rw [if_pos rfl, hvalues, hconds]
      simp only [hsame, if_true, List.head?_cons, Option.any_some, map_cons]
      rfl
    | false =>
      simp only [hsame, Bool.false_eq_true, if_false, List.head?_cons, Option.any_some, map_cons, ih]
      rfl

theorem insertCombine_error (h : ¬ ex.Adds) (r : List UInt8) : ∀ {gs : List (List (List UInt8))}, (∀ g ∈ gs, g ≠ []) →
    (∃ g ∈ gs, g.head?.any (ex.sameKeys · r)) →
      (ex.insertCombine (ex.keysOf r) (ex.inputOf r) (gs.map ex.entryOf)).toOption = none
  | [], _, ⟨_, hg, _⟩ => absurd hg not_mem_nil
  | g :: gs, hne, hlike => by
    obtain ⟨a, g, rfl⟩ := exists_cons_of_ne_nil (hne g mem_cons_self)
    have hkeys : (((ex.entryOf (a :: g)).1.zip (ex.keysOf r)).all fun (v, w) => v.same w) = ex.sameKeys a r := rfl
    rw [map_cons, insertCombine, hkeys]
    cases hsame : ex.sameKeys a r with
    | true =>
      rw [if_pos rfl]
      by_cases hitems : ∀ it ∈ ex.items, it.Adds
      · obtain ⟨e, he⟩ := combineAll_error (cons_ne_nil a g) r fun hhaving => h ⟨hitems, hhaving⟩
        rw [map_map, map_map] at he
        have hconds : combineAll (ex.having.map Having.toAggItem) (ex.entryOf (a :: g)).2.havingValues
          (ex.inputOf r).havingValues = .error e := he
        have hvalues : combineAll ex.items (ex.entryOf (a :: g)).2.values (ex.inputOf r).values =
          .ok (ex.items.map (·.folded (a :: g ++ [r]))) := combineAll_folded (cons_ne_nil a g) r hitems
        rw [hvalues, hconds]
        rfl
      · obtain ⟨e, he⟩ := combineAll_error (cons_ne_nil a g) r hitems
        have hvalues : combineAll ex.items (ex.entryOf (a :: g)).2.values (ex.inputOf r).values = .error e := he
        rw [hvalues]
        rfl
    | false =>
      have hrest : ∃ g ∈ gs, g.head?.any (ex.sameKeys · r) := by
        obtain ⟨g', hg', hlike⟩ := hlike
        obtain rfl | hg' := mem_cons.1 hg'
        · exact absurd hlike (by simp [hsame])
        · exact ⟨g', hg', hlike⟩
      have ih := insertCombine_error h r (fun g hg => hne g (mem_cons_of_mem _ hg)) hrest
      rw [if_neg (by simp)]
      cases hins : ex.insertCombine (ex.keysOf r) (ex.inputOf r) (gs.map ex.entryOf) with
      | error e => rfl
      | ok table =>
        rw [hins] at ih
        cases ih

/-- The loop of `beginTuple`: with what was seen before, the table is that of all rows. -/
theorem build_entries {P : σ → Prop} :
    ∀ {rows seen : List (List UInt8)} {fuel : Nat} {s : σ}, (ex.Adds ∨ Singles ex.sameKeys (seen ++ rows)) →
      rows.length < fuel → ex.prev.Shows P rows s →
      ∃ s', ex.build fuel s ((groups ex.sameKeys seen).map ex.entryOf) =
        some ((groups ex.sameKeys (seen ++ rows)).map ex.entryOf, s')
  | _, _, 0, _, _, hfuel, _ => absurd hfuel (Nat.not_lt_zero _)
  | [], seen, fuel + 1, s, _, _, hrows => by
    refine ⟨s, ?_⟩
    rw [build, if_pos hrows.2, append_nil]
  | r :: rows, seen, fuel + 1, s, h, hfuel, hrows => by
    obtain ⟨-, hend, s₁, hnext, -, -, s₂, hstep, hrest⟩ := hrows
    rw [← singleton_append, ← append_assoc] at h ⊢
    obtain ⟨s', hbuild⟩ := @build_entries P rows (seen ++ [r]) fuel s₂ h (Nat.lt_of_succ_lt_succ hfuel) hrest
    have hinsert := insertCombine_entries r (groups_ne_nil seen) (h.imp_right fun h => h.of_append.alone)
    refine ⟨s', ?_⟩
    rw [build, if_neg (by simp [hend]), hnext]
    simp only [Option.bind_eq_bind, Option.bind_some, hinsert, Except.toOption, hstep]
    rw [← groups_concat, hbuild]

theorem build_error (h : ¬ ex.Adds) {P : σ → Prop} :
    ∀ {rows seen : List (List UInt8)} {fuel : Nat} {s : σ}, Singles ex.sameKeys seen →
      ¬ Singles ex.sameKeys (seen ++ rows) → ex.prev.Shows P rows s →
      ex.build fuel s ((groups ex.sameKeys seen).map ex.entryOf) = none
  | _, _, 0, _, _, _, _ => rfl
  | [], seen, fuel + 1, s, hseen, hrows, _ => absurd hseen (by rwa [append_nil] at hrows)
  | r :: rows, seen, fuel + 1, s, hseen, hrows, hshows => by
    obtain ⟨-, hend, s₁, hnext, -, -, s₂, hstep, hrest⟩ := hshows
    rw [← singleton_append, ← append_assoc] at hrows
    rw [build, if_neg (by simp [hend]), hnext]
    simp only [Option.bind_eq_bind, Option.bind_some]
    by_cases halone : ∀ g ∈ groups ex.sameKeys seen, ¬ g.head?.any (ex.sameKeys · r)
    · rw [insertCombine_entries r (groups_ne_nil seen) (.inr halone), ← groups_concat]
      simp only [Except.toOption, Option.bind_some, hstep]
      exact build_error h (hseen.concat halone) hrows hrest
    · rw [insertCombine_error h r (groups_ne_nil seen) (by simpa using halone)]
      rfl

/-! ## The walk over the table -/

variable (ex) in
def lets (e : List AggValue × AggEntry) : Bool := passes (e.2.havingValues.zip ex.having) = some true

omit [FloatOps] in
theorem shows_entries {ρ : Type} {f : List AggValue × AggEntry → ρ} {it : Iter (State σ) ρ}
    (hnext : ∀ prev e es, it.next ⟨prev, e :: es, false⟩ = some (f e, ⟨prev, e :: es, false⟩))
    (hstep : it.nextTuple = ex.nextTuple) (hend : it.isEnd = isEnd) (prev : σ) :
    ∀ {es : List (List AggValue × AggEntry)}, (∀ e ∈ es, (passes (e.2.havingValues.zip ex.having)).isSome) →
      ∃ es', ex.seek es = some es' ∧ it.Shows (fun _ => True) ((es.filter ex.lets).map f) ⟨prev, es', false⟩
  | [], _ => ⟨[], rfl, trivial, by rw [hend]; rfl⟩
  | e :: es, h => by
    obtain ⟨es', hseek, hrest⟩ := shows_entries hnext hstep hend prev fun e he => h e (mem_cons_of_mem _ he)
    obtain ⟨ok, hok⟩ := Option.isSome_iff_exists.1 (h e mem_cons_self)
    cases ok with
    | true =>
      have hlets : ex.lets e = true := by simp [lets, hok]
      refine ⟨e :: es, by simp [seek, hok], ?_⟩
      rw [filter_cons_of_pos hlets, map_cons]
      refine Iter.shows_cons trivial (by rw [hend]; rfl) (hnext prev e es) ⟨trivial, by rw [hend]; rfl, _, ?_, hrest⟩
      rw [hstep]
      simp [nextTuple, hseek]
    | false =>
      have hlets : ¬ ex.lets e = true := by simp [lets, hok]
      refine ⟨es', by simp [seek, hok, hseek], ?_⟩
      rwa [filter_cons_of_neg hlets]

omit [FloatOps] in
theorem passes_isSome {f : Having → AggValue} : ∀ {conds : List Having},
    (∀ cond ∈ conds, (f cond).type = cond.rhsVal.type) → (passes ((conds.map f).zip conds)).isSome
  | [], _ => rfl
  | cond :: conds, h => by
    have ih := passes_isSome fun c hc => h c (mem_cons_of_mem _ hc)
    obtain ⟨ok, hok⟩ : ∃ ok, cmpCond (f cond) cond = some ok := by
      rw [cmpCond, if_neg (not_not.2 (h cond mem_cons_self))]
      exact ⟨_, rfl⟩
    rw [map_cons, zip_cons_cons, passes, hok]
    cases ok with
    | true => exact ih
    | false => rfl

variable (ex) in
omit [FloatOps] in
/-- What the analyzer and the constructor see to: the left side of a condition is
an aggregate, and its type that of the constant. -/
structure Compared : Prop where
  count : ∀ cond ∈ ex.having, cond.agg = .count → cond.col.type = .int
  agg : ∀ cond ∈ ex.having, cond.agg ≠ .col
  type : ∀ cond ∈ ex.having, cond.rhsVal.type = cond.col.type

theorem Compared.passes_isSome (h : ex.Compared) {g : List (List UInt8)} (hg : g ≠ []) :
    (passes ((ex.entryOf g).2.havingValues.zip ex.having)).isSome :=
  AggregateExecutor.passes_isSome fun cond hcond => by
    rw [h.type cond hcond]
    exact AggItem.folded_type (h.agg cond hcond) (h.count cond hcond) hg

variable {rows : List (List UInt8)} {fuel : Nat} {s : State σ}

theorem beginTuple_eq (h : ex.Adds ∨ Singles ex.sameKeys rows) (hprev : ex.prev.Begins rows s.prev)
    (hfuel : rows.length < fuel) (hfresh : s.isEmptyTable = false) :
    ∃ prev, ∃ gs : List (List (List UInt8)), gs.Perm (groups ex.sameKeys rows) ∧
      ex.beginTuple fuel s = (ex.seek (gs.map ex.entryOf)).map fun es =>
        ⟨prev, es, rows.isEmpty && !(!ex.groupBys.isEmpty && ex.hasGroupCol)⟩ := by
  obtain ⟨s₁, hbegin, hshows⟩ := hprev
  obtain ⟨s₂, hbuild⟩ := @build_entries σ ex _ (fun _ => True) rows [] fuel s₁ h hfuel hshows
  have hperm := ex.tableOrder.perm ((groups ex.sameKeys rows).map ex.entryOf)
  obtain ⟨gs, horder, hgs⟩ := (congrFun (congrFun (eq_map_comp_perm ex.entryOf) _) _).mpr hperm
  refine ⟨s₂, gs, hgs, ?_⟩
  have hempty : (gs.map ex.entryOf).isEmpty = rows.isEmpty := by
    rw [Bool.eq_iff_iff, List.isEmpty_iff, List.isEmpty_iff, map_eq_nil_iff, ← @groups_eq_nil _ ex.sameKeys rows]
    exact ⟨fun h => (h ▸ hgs).nil_eq.symm, fun h => (h ▸ hgs).eq_nil⟩
  simp only [beginTuple, hbegin, Option.bind_eq_bind, Option.bind_some]
  rw [show ([] : List (List AggValue × AggEntry)) = (groups ex.sameKeys []).map ex.entryOf from rfl, hbuild]
  simp only [Option.bind_some, nil_append, horder, hempty, hfresh, Bool.false_or]
  cases ex.seek (gs.map ex.entryOf) <;> rfl

theorem beginTuple_error (h : ¬ ex.Adds) (hrows : ¬ Singles ex.sameKeys rows) (hprev : ex.prev.Begins rows s.prev) :
    ex.beginTuple fuel s = none := by
  obtain ⟨s₁, hbegin, hshows⟩ := hprev
  have hbuild := @build_error σ ex _ h (fun _ => True) rows [] fuel s₁ (by intro g hg; cases hg) hrows hshows
  simp only [beginTuple, hbegin, Option.bind_eq_bind, Option.bind_some]
  rw [show ([] : List (List AggValue × AggEntry)) = (groups ex.sameKeys []).map ex.entryOf from rfl, hbuild]
  rfl

theorem beginTuple_nil (hprev : ex.prev.Begins [] s.prev) (hfuel : 0 < fuel) (hfresh : s.isEmptyTable = false) :
    ∃ prev, ex.beginTuple fuel s = some ⟨prev, [], !(!ex.groupBys.isEmpty && ex.hasGroupCol)⟩ := by
  obtain ⟨prev, gs, hgs, hbegin⟩ := beginTuple_eq (.inr (by intro g hg; cases hg)) hprev hfuel hfresh
  obtain rfl : gs = [] := hgs.eq_nil
  exact ⟨prev, hbegin⟩

/-- For rows that there are, the groups that `HAVING` lets through are handed out. -/
theorem begins_groups (h : ex.Adds ∨ Singles ex.sameKeys rows) (hcompared : ex.Compared)
    (hprev : ex.prev.Begins rows s.prev) (hfuel : rows.length < fuel) (hfresh : s.isEmptyTable = false)
    (hrows : rows ≠ []) {ρ : Type} {f : List AggValue × AggEntry → ρ} {it : Iter (State σ) ρ}
    (hbegin : it.beginTuple = ex.beginTuple fuel)
    (hnext : ∀ prev e es, it.next ⟨prev, e :: es, false⟩ = some (f e, ⟨prev, e :: es, false⟩))
    (hstep : it.nextTuple = ex.nextTuple) (hend : it.isEnd = isEnd) :
    ∃ gs : List (List (List UInt8)), gs.Perm (groups ex.sameKeys rows) ∧
      it.Begins ((gs.filter fun g => ex.lets (ex.entryOf g)).map fun g => f (ex.entryOf g)) s := by
  obtain ⟨prev, gs, hgs, heq⟩ := beginTuple_eq h hprev hfuel hfresh
  have hsome : ∀ e ∈ gs.map ex.entryOf, (passes (e.2.havingValues.zip ex.having)).isSome := by
    intro e he
    obtain ⟨g, hg, rfl⟩ := mem_map.1 he
    exact hcompared.passes_isSome (groups_ne_nil rows g (hgs.subset hg))
  obtain ⟨es, hseek, hshows⟩ := shows_entries hnext hstep hend prev hsome
  refine ⟨gs, hgs, ⟨prev, es, false⟩, ?_, ?_⟩
  · rw [hbegin, heq, hseek, isEmpty_eq_false_iff.2 hrows]
    rfl
  · rwa [filter_map, map_map] at hshows

end AggregateExecutor

end Execution

end Rmdb
