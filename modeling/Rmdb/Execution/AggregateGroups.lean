/-
What an aggregate of a group is, and what `AggregateExecutor` has for it.

The running value is the true one in the bytes, or for a `COUNT` in the number.
The number of a `SUM` is still that of the first row, and `HAVING` looks at the
numbers.
-/
import Mathlib.Data.List.MinMax
import Mathlib.Data.UInt
import Rmdb.Execution.AggregateTable

namespace Rmdb

open Option List Index

def ColMeta.rank (c : ColMeta) (rec : List UInt8) : List Int := encode [c.keyCol] (c.read rec)

namespace Execution

open Optimizer (AggType)

theorem compare_read_lt {c : ColMeta} (h : c.type ≠ .float) (r r' : List UInt8) :
    compare c (c.read r) (c.read r') < 0 ↔ c.rank r < c.rank r' := by
  have hlen : ∀ r, (c.read r).length = colTotLen [c.keyCol] := fun r => by
    simp [colTotLen, ColMeta.keyCol_len]
  have hord : ∀ r, ordered [c.keyCol] (c.read r) = true := fun r =>
    ordered_of_forall_ne _ fun k hk => by
      rw [mem_singleton.1 hk]
      exact ColMeta.keyCol_ne_float h
  rw [ColMeta.rank, ColMeta.rank, ← ixCompare_neg_iff _ (hlen r) (hlen r') (hord r) (hord r')]
  simp only [ixCompare, compare]
  split_ifs with hzero
  · rfl
  · omega

theorem compare_read_gt {c : ColMeta} (h : c.type ≠ .float) (r r' : List UInt8) :
    compare c (c.read r) (c.read r') > 0 ↔ c.rank r' < c.rank r := by
  rw [← compare_read_lt h r' r]
  have hswap : compare c (c.read r') (c.read r) = -compare c (c.read r) (c.read r') := ixCompareCol_swap ..
  omega

namespace AggValue

theorem ofCol_int {c : ColMeta} (h : c.type = .int) (r : List UInt8) :
    ofCol c r = ⟨.int, wordOf (c.read r), [], bytesOf (wordOf (c.read r))⟩ := by
  unfold ofCol
  rw [h]

theorem compareAs_ofCol (c : ColMeta) (r b : List UInt8) :
    compareAs (c.read r) b (ofCol c r).strVal.length c.type = compare c (c.read r) b := by
  unfold compare ofCol ColMeta.keyCol
  cases h : c.type with
  | int => rfl
  | float => rfl
  | string => simp [compareAs, ixCompareCol]

end AggValue

/-! ## The values of a group -/

namespace AggItem

/-- The aggregates that are looked at: sums of numbers, the smallest and the
largest of numbers or strings. -/
def Typed (it : AggItem) : Prop :=
  match it.agg with
  | .count | .sum => it.col.type = .int
  | .max | .min => it.col.type ≠ .float
  | .col => True

theorem Typed.adds {it : AggItem} (h : it.Typed) : it.Adds := by
  intro hagg
  unfold Typed at h
  rw [hagg] at h
  simp [show it.col.type = .int from h]

def value (it : AggItem) (g : List (List UInt8)) : Option (List UInt8) :=
  match it.agg with
  | .count => some (bytesOf (UInt32.ofNat g.length))
  | .sum => if g = [] then none else some (bytesOf (g.map fun r => wordOf (it.col.read r)).sum)
  | .max => (g.argmax it.col.rank).map it.col.read
  | .min => (g.argmin it.col.rank).map it.col.read
  | .col => g.head?.map it.col.read

def running (it : AggItem) (g : List (List UInt8)) : AggValue :=
  match it.agg with
  | .count => ⟨.int, UInt32.ofNat g.length, [], bytesOf 1⟩
  | .sum => ⟨.int, wordOf (it.col.read (g.headD [])), [], bytesOf (g.map fun r => wordOf (it.col.read r)).sum⟩
  | .max => ((g.argmax it.col.rank).map (.ofCol it.col)).getD .blank
  | .min => ((g.argmin it.col.rank).map (.ofCol it.col)).getD .blank
  | .col => .blank

variable {it : AggItem} {g : List (List UInt8)}

theorem exists_argmax (it : AggItem) (h : g ≠ []) : ∃ m, g.argmax it.col.rank = some m :=
  ne_none_iff_exists'.1 (mt argmax_eq_none.1 h)

theorem exists_argmin (it : AggItem) (h : g ≠ []) : ∃ m, g.argmin it.col.rank = some m :=
  ne_none_iff_exists'.1 (mt argmin_eq_none.1 h)

theorem running_first (h : it.Typed) (r : List UInt8) : it.running [r] = it.input r := by
  unfold running input
  unfold Typed at h
  cases hagg : it.agg with
  | sum =>
    rw [hagg] at h
    simp [AggValue.ofCol_int h]
  | _ => rfl

variable [FloatOps]

theorem combine_running (h : it.Typed) (hg : g ≠ []) (r : List UInt8) :
    (it.running g).combine it.agg (it.input r) = .ok (it.running (g ++ [r])) := by
  unfold Typed at h
  unfold AggValue.combine running input
  cases hagg : it.agg with
  | count => simp [UInt32.ofNat_add]
  | max =>
    rw [hagg] at h
    obtain ⟨m, hm⟩ := it.exists_argmax hg
    simp only [argmax_concat, hm, map_some, getD_some, AggValue.ofCol_type, AggValue.ofCol_raw,
      AggValue.compareAs_ofCol, compare_read_lt h]
    split_ifs <;> rfl
  | min =>
    rw [hagg] at h
    obtain ⟨m, hm⟩ := it.exists_argmin hg
    simp only [argmin_concat, hm, map_some, getD_some, AggValue.ofCol_type, AggValue.ofCol_raw,
      AggValue.compareAs_ofCol, compare_read_gt h]
    split_ifs <;> rfl
  | sum =>
    rw [hagg] at h
    obtain ⟨a, g, rfl⟩ := exists_cons_of_ne_nil hg
    simp [AggValue.ofCol_int h, add, Except.map, UInt32.add_assoc]
  | col => rfl

theorem folded_eq_running (h : it.Typed) (hg : g ≠ []) : it.folded g = it.running g := by
  induction g using List.reverseRecOn with
  | nil => exact absurd rfl hg
  | append_singleton g r ih =>
    by_cases hnil : g = []
    · subst hnil
      exact (running_first h r).symm
    · rw [folded_concat hnil, step, ih hnil, combine_running h hnil]
      rfl

omit [FloatOps] in
theorem value_eq_written (h : it.Typed) (hcol : it.agg ≠ .col) (hg : g ≠ []) :
    it.value g = some (it.written (it.running g)) := by
  unfold Typed at h
  unfold value written running
  cases hagg : it.agg with
  | count =>
    rw [hagg] at h
    rw [it.col.len_eq (by simp [h])]
    rfl
  | max =>
    obtain ⟨m, hm⟩ := it.exists_argmax hg
    simp [hm]
  | min =>
    obtain ⟨m, hm⟩ := it.exists_argmin hg
    simp [hm]
  | sum =>
    rw [hagg] at h
    simp only [if_neg hg]
    rw [it.col.len_eq (by simp [h])]
    rfl
  | col => exact absurd hagg hcol

omit [FloatOps] in
theorem length_value (h : it.Typed) {v : List UInt8} (hv : it.value g = some v) : v.length = it.col.len := by
  unfold Typed at h
  unfold value at hv
  cases hagg : it.agg with
  | count =>
    rw [hagg] at h hv
    rw [it.col.len_eq (by simp [h]), ← some.inj hv]
    rfl
  | sum =>
    rw [hagg] at h hv
    simp only at hv
    split_ifs at hv
    rw [it.col.len_eq (by simp [h]), ← some.inj hv]
    rfl
  | _ =>
    rw [hagg] at hv
    obtain ⟨r, -, rfl⟩ := map_eq_some_iff.1 hv
    exact ColMeta.length_read _ _

omit [FloatOps] in
theorem exists_value (it : AggItem) (hg : g ≠ []) : ∃ v, it.value g = some v := by
  unfold value
  cases it.agg with
  | count => exact ⟨_, rfl⟩
  | sum => exact ⟨_, if_neg hg⟩
  | max =>
    obtain ⟨m, hm⟩ := it.exists_argmax hg
    exact ⟨it.col.read m, by simp [hm]⟩
  | min =>
    obtain ⟨m, hm⟩ := it.exists_argmin hg
    exact ⟨it.col.read m, by simp [hm]⟩
  | col =>
    obtain ⟨a, g, rfl⟩ := exists_cons_of_ne_nil hg
    exact ⟨_, rfl⟩

end AggItem

/-! ## Conditions -/

namespace Having

def test (cond : Having) (v : List UInt8) : Bool := cond.op.test (compare cond.col v cond.rhsVal.raw)

def holds (cond : Having) (g : List (List UInt8)) : Bool := (cond.value g).any cond.test

/-- What `cmp_cond` looks at: of a `SUM` the number, which is that of the first row. -/
def sees (cond : Having) (g : List (List UInt8)) : Option (List UInt8) :=
  if cond.agg = .sum then g.head?.map cond.col.read else cond.value g

theorem cmpCond_running {cond : Having} {g : List (List UInt8)} (h : cond.Typed) (hcol : cond.agg ≠ .col)
    (htype : cond.rhsVal.type = cond.col.type) (hg : g ≠ []) :
    AggregateExecutor.cmpCond (cond.running g) cond = some ((cond.sees g).any cond.test) := by
  have hofCol : ∀ m, AggregateExecutor.cmpCond (.ofCol cond.col m) cond = some (cond.test (cond.col.read m)) := by
    intro m
    have hraw : (if cond.col.type = .int then bytesOf (AggValue.ofCol cond.col m).intVal else cond.col.read m) =
        cond.col.read m := by
      split
      · next hint =>
        rw [AggValue.ofCol_int hint]
        exact bytesOf_wordOf (by rw [ColMeta.length_read, cond.col.len_eq (by simp [hint])])
      · rfl
    simp only [AggregateExecutor.cmpCond, AggValue.ofCol_type, AggValue.ofCol_raw, hraw, htype, ne_eq, not_true,
      if_false, AggValue.compareAs_ofCol, test]
  unfold AggItem.Typed at h
  unfold AggItem.running sees AggItem.value
  cases hagg : cond.agg with
  | count =>
    rw [hagg] at h
    simp [AggregateExecutor.cmpCond, htype, h, test, compare, ColMeta.keyCol, compareAs]
  | sum =>
    rw [hagg] at h
    obtain ⟨a, g, rfl⟩ := exists_cons_of_ne_nil hg
    have hsum := hofCol a
    rw [AggValue.ofCol_int h] at hsum
    simpa [AggregateExecutor.cmpCond, htype, h] using hsum
  | max =>
    obtain ⟨m, hm⟩ := cond.exists_argmax hg
    simp [hm, hofCol]
  | min =>
    obtain ⟨m, hm⟩ := cond.exists_argmin hg
    simp [hm, hofCol]
  | col => exact absurd hagg hcol

end Having

namespace AggregateExecutor

variable {σ : Type} (ex : AggregateExecutor σ)

/-- The groups of some rows. Without `GROUP BY` no rows are a group too. -/
def groupsOf (rows : List (List UInt8)) : List (List (List UInt8)) :=
  if rows = [] ∧ ex.groupBys = [] then [[]] else groups ex.sameKeys rows

structure Typed : Prop where
  item : ∀ it ∈ ex.items, it.Typed
  having : ∀ cond ∈ ex.having, cond.Typed
  agg : ∀ cond ∈ ex.having, cond.agg ≠ .col
  type : ∀ cond ∈ ex.having, cond.rhsVal.type = cond.col.type

variable {ex}

theorem Typed.adds (h : ex.Typed) : ex.Adds := by
  refine ⟨fun it hit => (h.item it hit).adds, fun it hit => ?_⟩
  obtain ⟨cond, hcond, rfl⟩ := mem_map.1 hit
  exact (h.having cond hcond).adds

theorem Typed.compared (h : ex.Typed) : ex.Compared where
  count cond hcond hcount := by
    have htyped := h.having cond hcond
    unfold AggItem.Typed at htyped
    rwa [hcount] at htyped
  agg := h.agg
  type := h.type

variable (ex) in
def havingHolds (g : List (List UInt8)) : Bool := ex.having.all fun cond => cond.holds g

variable (ex) in
def havingSees (g : List (List UInt8)) : Bool := ex.having.all fun cond => (cond.sees g).any cond.test

theorem passes_running {g : List (List UInt8)} (hg : g ≠ []) : ∀ {conds : List Having},
    (∀ cond ∈ conds, cond.Typed) → (∀ cond ∈ conds, cond.agg ≠ .col) →
      (∀ cond ∈ conds, cond.rhsVal.type = cond.col.type) →
      passes ((conds.map (·.running g)).zip conds) = some (conds.all fun cond => (cond.sees g).any cond.test)
  | [], _, _, _ => rfl
  | cond :: conds, h, hagg, htype => by
    have ih := passes_running hg (fun c hc => h c (mem_cons_of_mem _ hc))
      (fun c hc => hagg c (mem_cons_of_mem _ hc)) fun c hc => htype c (mem_cons_of_mem _ hc)
    rw [map_cons, zip_cons_cons, passes, Having.cmpCond_running (h cond mem_cons_self)
      (hagg cond mem_cons_self) (htype cond mem_cons_self) hg, ih]
    cases hok : (cond.sees g).any cond.test <;> simp [hok]

variable [FloatOps] {g : List (List UInt8)}

theorem Typed.values_entryOf (h : ex.Typed) (hg : g ≠ []) : (ex.entryOf g).2.values = ex.items.map (·.running g) :=
  map_congr_left fun it hit => AggItem.folded_eq_running (h.item it hit) hg

theorem Typed.havingValues_entryOf (h : ex.Typed) (hg : g ≠ []) :
    (ex.entryOf g).2.havingValues = ex.having.map (·.running g) :=
  map_congr_left fun cond hcond => AggItem.folded_eq_running (h.having cond hcond) hg

theorem lets_entryOf (h : ex.Typed) (hg : g ≠ []) : ex.lets (ex.entryOf g) = ex.havingSees g := by
  rw [lets, h.havingValues_entryOf hg, passes_running hg h.having h.agg h.type]
  show decide (some (ex.havingSees g) = some true) = ex.havingSees g
  cases ex.havingSees g <;> rfl

end AggregateExecutor

end Execution

end Rmdb
