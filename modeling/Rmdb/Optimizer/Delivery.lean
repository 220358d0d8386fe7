/-
What a plan delivers, and in which order.

A sequential scan promises no order, an index scan goes by the keys of its
index, a join is left-major and a sort goes by its column. Below the sort of the
query two rows are thus compared table by table from left to right: the first
table that has two records for them decides.
-/
import Rmdb.Optimizer.Plan
import Mathlib.Data.List.Lex
import Mathlib.Data.List.Pairwise

namespace Rmdb.Optimizer

open List Execution

variable {V : Type}

abbrev Record (V : Type) := String → V

abbrev Tuple (V : Type) := String → Record V

def Agree (tables : List String) (x y : Tuple V) : Prop := ∀ t ∈ tables, x t = y t

def beside (tables : List String) (x y : Tuple V) : Tuple V := fun t => if t ∈ tables then x t else y t

section Agree

variable {x y : Tuple V}

variable {tables : List String}

theorem beside_left : Agree tables (beside tables x y) x := fun t ht => by simp [beside, ht]

theorem beside_right {others : List String} (h : ∀ t ∈ tables, ∀ t' ∈ others, t ≠ t') :
    Agree others (beside tables x y) y := fun t ht => by
  have : t ∉ tables := fun hmem => h t hmem t ht rfl
  simp [beside, this]

theorem Agree.symm (h : Agree tables x y) : Agree tables y x := fun t ht => (h t ht).symm

theorem Agree.trans {z : Tuple V} (h : Agree tables x y) (h' : Agree tables y z) :
    Agree tables x z := fun t ht => (h t ht).trans (h' t ht)

theorem agree_leaf {l : Leaf} {a : Tuple V} : Agree l.plan.tables a x ↔ a l.tabName = x l.tabName := by
  obtain ⟨s, _ | ⟨col, isDesc⟩⟩ := l <;> simp [Leaf.plan, Agree, Leaf.tabName]

theorem agree_beside {tag : JoinTag} {left right : Plan} {conds : List Cond} {a b : Tuple V}
    (hdisj : ∀ t ∈ left.tables, ∀ t' ∈ right.tables, t ≠ t') (ha : Agree left.tables a x)
    (hb : Agree right.tables b x) : Agree (Plan.join tag left right conds).tables (beside left.tables a b) x := by
  intro t ht
  rw [Plan.tables_join] at ht
  rcases mem_append.1 ht with ht | ht
  · exact (beside_left t ht).trans (ha t ht)
  · exact (beside_right hdisj t ht).trans (hb t ht)

end Agree

variable {indexes : String → List (List String)}

def Apart (indexes : String → List (List String)) (t : String) (r r' : Record V) : Prop :=
  ∀ ix ∈ indexes t, ix.map r ≠ ix.map r'

theorem Apart.symm {t : String} {r r' : Record V} (h : Apart indexes t r r') : Apart indexes t r' r :=
  fun ix hix => (h ix hix).symm

instance {t : String} : Std.Symm (Apart indexes t : Record V → Record V → Prop) := ⟨fun _ _ => Apart.symm⟩

structure Database (indexes : String → List (List String)) (V : Type) where
  records : String → List (Record V)
  keys : ∀ t, (records t).Pairwise (Apart indexes t)

theorem Database.apart (db : Database indexes V) {t : String} {p : Record V → Bool} {rows : List (Record V)}
    (h : rows.Perm ((db.records t).filter p)) : rows.Pairwise (Apart indexes t) :=
  (h.pairwise_iff Apart.symm).2 ((db.keys t).filter p)

section Delivery

variable [LinearOrder V]

def compares (op : CompOp) (a b : V) : Bool :=
  match op with
  | .eq => a = b
  | .ne => a ≠ b
  | .lt => a < b
  | .gt => b < a
  | .le => a ≤ b
  | .ge => b ≤ a

/-- A condition holds of a row; `lit` are the values of the constants. -/
def condHolds (lit : RawValue → V) (c : Cond) (x : Tuple V) : Bool :=
  compares c.op (x c.lhsCol.tabName c.lhsCol.colName)
    (if c.isRhsVal then lit c.rhsVal else x c.rhsCol.tabName c.rhsCol.colName)

def InOrder {α : Type} [LE α] (isDesc : Bool) (a b : α) : Prop := if isDesc then b ≤ a else a ≤ b

instance {α : Type} [LE α] [DecidableLE α] (isDesc : Bool) (a b : α) : Decidable (InOrder isDesc a b) :=
  inferInstanceAs (Decidable (if isDesc then b ≤ a else a ≤ b))

namespace ScanPlan

/-- The conditions on the columns of the table hold. The join condition in front
of those of an index scan is left to the join. -/
def passes (lit : RawValue → V) (s : ScanPlan) (r : Record V) : Bool :=
  s.conds.all fun c => !decide (Own c s.tabName) || condHolds lit c fun _ => r

def Before (s : ScanPlan) (r r' : Record V) : Prop :=
  s.isIndexScan = true → InOrder (!s.asc) (s.indexColNames.map r) (s.indexColNames.map r')

end ScanPlan

def Leaf.Before (l : Leaf) (r r' : Record V) : Prop :=
  match l.sorted with
  | none => l.scan.Before r r'
  | some (col, isDesc) => InOrder isDesc (r col.colName) (r' col.colName)

/-- The lists of rows that a plan may deliver. -/
def Plan.Delivers (lit : RawValue → V) (db : Database indexes V) : Plan → List (Tuple V) → Prop
  | .scan s, out => ∃ rows : List (Record V), rows.Perm ((db.records s.tabName).filter (s.passes lit)) ∧
      rows.Pairwise s.Before ∧ out = rows.map fun r _ => r
  | .join _ left right conds, out => ∃ ls rs, left.Delivers lit db ls ∧ right.Delivers lit db rs ∧
      out = ls.flatMap fun l => (rs.map (beside left.tables l)).filter fun x => conds.all (condHolds lit · x)
  | .sort subplan col isDesc, out => ∃ xs, subplan.Delivers lit db xs ∧ out.Perm xs ∧
      out.Pairwise fun x y => InOrder isDesc (x col.tabName col.colName) (y col.tabName col.colName)

theorem InOrder.total {α : Type} [LinearOrder α] (isDesc : Bool) (a b : α) :
    InOrder isDesc a b ∨ InOrder isDesc b a := by
  cases isDesc
  · exact le_total a b
  · exact le_total b a

theorem InOrder.trans {α : Type} [LinearOrder α] {isDesc : Bool} {a b c : α} (h : InOrder isDesc a b)
    (h' : InOrder isDesc b c) : InOrder isDesc a c := by
  cases isDesc
  · exact le_trans (a := a) h h'
  · exact le_trans (a := c) h' h

theorem ScanPlan.before_total (s : ScanPlan) (r r' : Record V) : s.Before r r' ∨ s.Before r' r := by
  rcases InOrder.total (!s.asc) (s.indexColNames.map r) (s.indexColNames.map r') with h | h
  · exact .inl fun _ => h
  · exact .inr fun _ => h

theorem Leaf.before_total (l : Leaf) (r r' : Record V) : l.Before r r' ∨ l.Before r' r := by
  unfold Leaf.Before
  split
  · exact l.scan.before_total r r'
  · exact InOrder.total _ _ _

theorem ScanPlan.exists_ordered (s : ScanPlan) (rows : List (Record V)) :
    ∃ rows' : List (Record V), rows'.Perm rows ∧ rows'.Pairwise s.Before := by
  classical
  have : Std.Total (α := Record V) s.Before := ⟨s.before_total⟩
  have : IsTrans (Record V) s.Before := ⟨fun _ _ _ h h' hix => (h hix).trans (h' hix)⟩
  exact ⟨rows.insertionSort s.Before, perm_insertionSort _ _, pairwise_insertionSort _ _⟩

variable {lit : RawValue → V} {db : Database indexes V} {x y : Tuple V} {out : List (Tuple V)}

/-! ## The rows of a plan -/

theorem Leaf.delivers_iff (l : Leaf) : l.plan.Delivers lit db out ↔
    ∃ rows : List (Record V), rows.Perm ((db.records l.tabName).filter (l.scan.passes lit)) ∧
      rows.Pairwise l.Before ∧ out = rows.map fun r _ => r := by
  obtain ⟨s, _ | ⟨col, isDesc⟩⟩ := l
  · rfl
  · constructor
    · rintro ⟨_, ⟨rows, hrows, -, rfl⟩, hperm, hsorted⟩
      have hout : out = (out.map fun x => x s.tabName).map fun r _ => r := by
        rw [map_map]
        refine (map_id out).symm.trans (map_congr_left fun x hx => ?_)
        obtain ⟨r, -, rfl⟩ := mem_map.1 (hperm.mem_iff.1 hx)
        rfl
      refine ⟨out.map fun x => x s.tabName, ?_, ?_, hout⟩
      · have := hperm.map fun x => x s.tabName
        rw [map_map] at this
        exact (this.trans (by rw [Function.comp_def, map_id'])).trans hrows
      · rw [hout, pairwise_map] at hsorted
        exact hsorted
    · rintro ⟨rows, hrows, hsorted, rfl⟩
      obtain ⟨rows', hperm', hordered⟩ := s.exists_ordered rows
      exact ⟨_, ⟨rows', hperm'.trans hrows, hordered, rfl⟩, hperm'.symm.map _, pairwise_map.2 hsorted⟩

theorem condHolds_congr {c : Cond} (hl : x c.lhsCol.tabName = y c.lhsCol.tabName)
    (hr : x c.rhsCol.tabName = y c.rhsCol.tabName) : condHolds lit c x = condHolds lit c y := by
  rw [condHolds, condHolds, hl, hr]

namespace Plan

structure Passes (lit : RawValue → V) (plan : Plan) (x : Tuple V) : Prop where
  scans : ∀ l ∈ plan.leaves, l.scan.passes lit (x l.tabName)
  joins : ∀ c ∈ plan.joinConds, condHolds lit c x

theorem mem_tables_of_leaf {plan : Plan} {l : Leaf} (h : l ∈ plan.leaves) : l.tabName ∈ plan.tables :=
  mem_map_of_mem h

theorem Placed.mem_tables {c : Cond} : ∀ {plan : Plan}, plan.Placed → c ∈ plan.joinConds →
    c.lhsCol.tabName ∈ plan.tables ∧ c.rhsCol.tabName ∈ plan.tables
  | .join _ left right conds, ⟨hl, hr, hconds⟩, hc => by
    simp only [joinConds, mem_append] at hc
    simp only [tables_join, mem_append]
    rcases hc with hc | hc | hc
    · exact ⟨.inl (hconds c hc).1, .inr (hconds c hc).2⟩
    · exact ⟨.inl (hl.mem_tables hc).1, .inl (hl.mem_tables hc).2⟩
    · exact ⟨.inr (hr.mem_tables hc).1, .inr (hr.mem_tables hc).2⟩
  | .sort (.scan _) _ _, _, hc => by simp [joinConds] at hc

theorem Passes.congr {plan : Plan} (hplaced : plan.Placed) (hagree : Agree plan.tables x y)
    (h : plan.Passes lit x) : plan.Passes lit y where
  scans l hl := by
    rw [← hagree _ (mem_tables_of_leaf hl)]
    exact h.scans l hl
  joins c hc := by
    obtain ⟨hlhs, hrhs⟩ := hplaced.mem_tables hc
    rw [← condHolds_congr (hagree _ hlhs) (hagree _ hrhs)]
    exact h.joins c hc

theorem passes_join {tag : JoinTag} {left right : Plan} {conds : List Cond} :
    (Plan.join tag left right conds).Passes lit x ↔
      left.Passes lit x ∧ right.Passes lit x ∧ ∀ c ∈ conds, condHolds lit c x := by
  constructor
  · intro h
    refine ⟨⟨fun l hl => h.scans l ?_, fun c hc => h.joins c ?_⟩,
      ⟨fun l hl => h.scans l ?_, fun c hc => h.joins c ?_⟩, fun c hc => h.joins c ?_⟩ <;>
    simp [leaves, joinConds, *]
  · rintro ⟨hl, hr, hconds⟩
    constructor
    · intro l hmem
      exact (mem_append.1 hmem).elim (hl.scans l) (hr.scans l)
    · intro c hmem
      rcases mem_append.1 hmem with hmem | hmem
      · exact hconds c hmem
      · exact (mem_append.1 hmem).elim (hl.joins c) (hr.joins c)

end Plan

theorem Plan.Delivers.row : ∀ {plan : Plan} {out : List (Tuple V)}, plan.Delivers lit db out → plan.Placed →
    plan.tables.Nodup → ∀ x ∈ out, plan.Passes lit x ∧ ∀ t ∈ plan.tables, x t ∈ db.records t := by
  have hleaf : ∀ (l : Leaf) {out : List (Tuple V)}, l.plan.Delivers lit db out → ∀ x ∈ out,
      l.scan.passes lit (x l.tabName) ∧ x l.tabName ∈ db.records l.tabName := by
    intro l out h x hx
    obtain ⟨rows, hrows, -, rfl⟩ := l.delivers_iff.1 h
    obtain ⟨r, hr, rfl⟩ := mem_map.1 hx
    obtain ⟨hmem, hpass⟩ := mem_filter.1 (hrows.mem_iff.1 hr)
    exact ⟨hpass, hmem⟩
  intro plan
  induction plan with
  | scan s =>
    intro out h _ _ x hx
    obtain ⟨hpass, hmem⟩ := hleaf ⟨s, none⟩ h x hx
    refine ⟨⟨fun l hl => ?_, fun c hc => absurd hc not_mem_nil⟩, fun t ht => ?_⟩
    · rwa [mem_singleton.1 hl]
    · rwa [mem_singleton.1 ht]
  | sort subplan col isDesc =>
    intro out h hplaced _ x hx
    obtain ⟨s, rfl⟩ : ∃ s, subplan = .scan s := by
      cases subplan with
      | scan s => exact ⟨s, rfl⟩
      | _ => exact hplaced.elim
    obtain ⟨hpass, hmem⟩ := hleaf ⟨s, some (col, isDesc)⟩ h x hx
    refine ⟨⟨fun l hl => ?_, fun c hc => absurd hc not_mem_nil⟩, fun t ht => ?_⟩
    · rwa [mem_singleton.1 hl]
    · rw [Plan.tables_sort] at ht
      rwa [mem_singleton.1 ht]
  | join tag left right conds ihl ihr =>
    rintro _ ⟨ls, rs, hls, hrs, rfl⟩ ⟨hpl, hpr, -⟩ hnodup x hx
    rw [Plan.tables_join, nodup_append] at hnodup
    obtain ⟨hnl, hnr, hdisj⟩ := hnodup
    obtain ⟨a, ha, hx⟩ := mem_flatMap.1 hx
    obtain ⟨hx, hconds⟩ := mem_filter.1 hx
    obtain ⟨b, hb, rfl⟩ := mem_map.1 hx
    obtain ⟨hpassl, hmeml⟩ := ihl hls hpl hnl a ha
    obtain ⟨hpassr, hmemr⟩ := ihr hrs hpr hnr b hb
    refine ⟨Plan.passes_join.2 ⟨hpassl.congr hpl beside_left.symm, hpassr.congr hpr (beside_right hdisj).symm,
      all_eq_true.1 hconds⟩, fun t ht => ?_⟩
    rw [Plan.tables_join] at ht
    rcases mem_append.1 ht with ht | ht
    · rw [beside_left t ht]
      exact hmeml t ht
    · rw [beside_right hdisj t ht]
      exact hmemr t ht

/-! ## The order -/

/-- A row may stand before another: the first table with two records for them
decides, where it has an order. -/
def Precedes (indexes : String → List (List String)) : List Leaf → Tuple V → Tuple V → Prop
  | [], _, _ => False
  | l :: ls, x, y =>
    Apart indexes l.tabName (x l.tabName) (y l.tabName) ∧ l.Before (x l.tabName) (y l.tabName) ∨
      x l.tabName = y l.tabName ∧ Precedes indexes ls x y

theorem precedes_append {ls ls' : List Leaf} : Precedes indexes (ls ++ ls') x y ↔
    Precedes indexes ls x y ∨ Agree (ls.map Leaf.tabName) x y ∧ Precedes indexes ls' x y := by
  induction ls with
  | nil => simp [Precedes, Agree]
  | cons l ls ih =>
    simp only [cons_append, Precedes, ih, Agree, map_cons, forall_mem_cons]
    tauto

theorem Precedes.congr {x' y' : Tuple V} : ∀ {ls : List Leaf}, Agree (ls.map Leaf.tabName) x x' →
    Agree (ls.map Leaf.tabName) y y' → Precedes indexes ls x y → Precedes indexes ls x' y'
  | l :: ls, hx, hy, h => by
    obtain ⟨hx, hxs⟩ := forall_mem_cons.1 hx
    obtain ⟨hy, hys⟩ := forall_mem_cons.1 hy
    simp only [Precedes, ← hx, ← hy]
    exact h.imp id fun ⟨heq, h⟩ => ⟨heq, h.congr hxs hys⟩

theorem Leaf.delivers_ordered (l : Leaf) (h : l.plan.Delivers lit db out) : out.Pairwise (Precedes indexes [l]) := by
  obtain ⟨rows, hrows, hsorted, rfl⟩ := l.delivers_iff.1 h
  rw [pairwise_map]
  exact ((db.apart hrows).and hsorted).imp fun h => .inl h

theorem Plan.Delivers.ordered {plan : Plan} (h : plan.Delivers lit db out) (hplaced : plan.Placed)
    (hnodup : plan.tables.Nodup) : out.Pairwise (Precedes indexes plan.leaves) := by
  induction plan generalizing out with
  | scan s => exact Leaf.delivers_ordered ⟨s, none⟩ h
  | sort subplan col isDesc =>
    cases subplan with
    | scan s => exact Leaf.delivers_ordered ⟨s, some (col, isDesc)⟩ h
    | _ => exact hplaced.elim
  | join tag left right conds ihl ihr =>
    obtain ⟨ls, rs, hls, hrs, rfl⟩ := h
    obtain ⟨hpl, hpr, -⟩ := hplaced
    rw [Plan.tables_join, nodup_append] at hnodup
    obtain ⟨hnl, hnr, hdisj⟩ := hnodup
    rw [pairwise_flatMap]
    constructor
    · -- one row on the left: the right side decides
      intro a _
      refine List.Pairwise.filter _ (pairwise_map.2 ((ihr hrs hpr hnr).imp fun h => ?_))
      exact precedes_append.2 (.inr ⟨beside_left.trans beside_left.symm,
        h.congr (beside_right hdisj).symm (beside_right hdisj).symm⟩)
    · refine (ihl hls hpl hnl).imp fun h x hx y hy => ?_
      obtain ⟨b, -, rfl⟩ := mem_map.1 (mem_filter.1 hx).1
      obtain ⟨b', -, rfl⟩ := mem_map.1 (mem_filter.1 hy).1
      exact precedes_append.2 (.inl (h.congr beside_left.symm beside_left.symm))

/-! ## Two rows that a plan delivers -/

def Together (indexes : String → List (List String)) (tables : List String) (x y : Tuple V) : Prop :=
  ∀ t ∈ tables, x t = y t ∨ Apart indexes t (x t) (y t)

open Classical in
noncomputable def ofTwo (indexes : String → List (List String)) (x y : Tuple V) : Database indexes V where
  records t := if Apart indexes t (x t) (y t) then [x t, y t] else [x t]
  keys t := by
    split_ifs with h
    · simpa using h
    · simp

/-- The rows have these two among them, in this order if they may stand in it. -/
structure Shows (indexes : String → List (List String)) (plan : Plan) (x y : Tuple V) (out : List (Tuple V)) :
    Prop where
  first : ∃ a ∈ out, Agree plan.tables a x
  second : ∃ b ∈ out, Agree plan.tables b y
  both : Precedes indexes plan.leaves x y → ∃ a b, [a, b].Sublist out ∧ Agree plan.tables a x ∧ Agree plan.tables b y

theorem Leaf.exists_delivers (l : Leaf) (hx : l.scan.passes lit (x l.tabName)) (hy : l.scan.passes lit (y l.tabName))
    (h : x l.tabName = y l.tabName ∨ Apart indexes l.tabName (x l.tabName) (y l.tabName)) :
    ∃ out, l.plan.Delivers lit (ofTwo indexes x y) out ∧ Shows indexes l.plan x y out := by
  by_cases hapart : Apart indexes l.tabName (x l.tabName) (y l.tabName)
  · have hrecords : ((ofTwo indexes x y).records l.tabName).filter (l.scan.passes lit) =
        [x l.tabName, y l.tabName] := by
      simp [ofTwo, hapart, hx, hy]
    by_cases hbefore : l.Before (x l.tabName) (y l.tabName)
    · refine ⟨_, l.delivers_iff.2 ⟨[x l.tabName, y l.tabName], by rw [hrecords], by simpa using hbefore, rfl⟩, ?_⟩
      refine ⟨⟨_, mem_cons_self, agree_leaf.2 rfl⟩,
        ⟨_, mem_cons_of_mem _ mem_cons_self, agree_leaf.2 rfl⟩, fun _ => ?_⟩
      exact ⟨_, _, .refl _, agree_leaf.2 rfl, agree_leaf.2 rfl⟩
    · have hafter := (l.before_total _ _).resolve_left hbefore
      refine ⟨_, l.delivers_iff.2 ⟨[y l.tabName, x l.tabName], ?_, by simpa using hafter, rfl⟩, ?_⟩
      · rw [hrecords]
        exact .swap ..
      refine ⟨⟨_, mem_cons_of_mem _ mem_cons_self, agree_leaf.2 rfl⟩,
        ⟨_, mem_cons_self, agree_leaf.2 rfl⟩, fun hprec => ?_⟩
      rw [l.leaves_plan] at hprec
      rcases hprec with ⟨-, h⟩ | ⟨-, h⟩
      · exact absurd h hbefore
      · exact h.elim
  · have hsame := h.resolve_right hapart
    have hrecords : ((ofTwo indexes x y).records l.tabName).filter (l.scan.passes lit) = [x l.tabName] := by
      simp [ofTwo, hapart, hx]
    refine ⟨_, l.delivers_iff.2 ⟨[x l.tabName], by rw [hrecords], by simp, rfl⟩, ?_⟩
    refine ⟨⟨_, mem_cons_self, agree_leaf.2 rfl⟩, ⟨_, mem_cons_self, agree_leaf.2 hsame⟩, fun hprec => ?_⟩
    rw [l.leaves_plan] at hprec
    rcases hprec with ⟨h, -⟩ | ⟨-, h⟩
    · exact absurd h hapart
    · exact h.elim

section Join

variable {tag : JoinTag} {left right : Plan} {conds : List Cond} {ls rs : List (Tuple V)}

theorem Shows.join (hplaced : (Plan.join tag left right conds).Placed)
    (hnodup : (Plan.join tag left right conds).tables.Nodup) (hx : (Plan.join tag left right conds).Passes lit x)
    (hy : (Plan.join tag left right conds).Passes lit y) (hls : Shows indexes left x y ls)
    (hrs : Shows indexes right x y rs) : Shows indexes (Plan.join tag left right conds) x y
      (ls.flatMap fun l => (rs.map (beside left.tables l)).filter fun x => conds.all (condHolds lit · x)) := by
  rw [Plan.tables_join, nodup_append] at hnodup
  obtain ⟨-, -, hdisj⟩ := hnodup
  -- a row that agrees with one that meets the conditions is not filtered out
  have hconds : ∀ {z a b : Tuple V}, (Plan.join tag left right conds).Passes lit z → Agree left.tables a z →
      Agree right.tables b z → conds.all (condHolds lit · (beside left.tables a b)) := fun hz ha hb =>
    all_eq_true.2 (Plan.passes_join.1 (hz.congr hplaced (agree_beside hdisj ha hb).symm)).2.2
  have hmem : ∀ {z a b : Tuple V}, (Plan.join tag left right conds).Passes lit z → Agree left.tables a z →
      Agree right.tables b z → b ∈ rs →
      beside left.tables a b ∈ (rs.map (beside left.tables a)).filter fun x => conds.all (condHolds lit · x) :=
    fun hz ha hb hrs => mem_filter.2 ⟨mem_map_of_mem hrs, hconds hz ha hb⟩
  obtain ⟨a, ha, hax⟩ := hls.first
  obtain ⟨a', ha', hay⟩ := hls.second
  obtain ⟨b, hb, hbx⟩ := hrs.first
  obtain ⟨b', hb', hby⟩ := hrs.second
  refine ⟨⟨_, mem_flatMap.2 ⟨a, ha, hmem hx hax hbx hb⟩, agree_beside hdisj hax hbx⟩,
    ⟨_, mem_flatMap.2 ⟨a', ha', hmem hy hay hby hb'⟩, agree_beside hdisj hay hby⟩, fun hprec => ?_⟩
  rcases precedes_append.1 hprec with hprec | ⟨hagree, hprec⟩
  · obtain ⟨a, a', hsub, hax, hay⟩ := hls.both hprec
    refine ⟨beside left.tables a b, beside left.tables a' b', ?_, agree_beside hdisj hax hbx,
      agree_beside hdisj hay hby⟩
    have hpair := hsub.flatMap
      fun l => (rs.map (beside left.tables l)).filter fun x => conds.all (condHolds lit · x)
    rw [flatMap_cons, flatMap_cons, flatMap_nil, append_nil] at hpair
    refine .trans ?_ hpair
    exact (singleton_sublist.2 (hmem hx hax hbx hb)).append (singleton_sublist.2 (hmem hy hay hby hb'))
  · obtain ⟨b, b', hsub, hbx, hby⟩ := hrs.both hprec
    have hay : Agree left.tables a y := hax.trans hagree
    refine ⟨beside left.tables a b, beside left.tables a b', ?_, agree_beside hdisj hax hbx,
      agree_beside hdisj hay hby⟩
    refine .trans ?_ (sublist_flatten_of_mem (mem_map_of_mem ha))
    have hpair := (hsub.map (beside left.tables a)).filter fun x => conds.all (condHolds lit · x)
    have hself : ([b, b'].map (beside left.tables a)).filter (fun x => conds.all (condHolds lit · x)) =
        [beside left.tables a b, beside left.tables a b'] :=
      filter_eq_self.2 (forall_mem_cons.2 ⟨hconds hx hax hbx,
        forall_mem_singleton.2 (hconds hy hay hby)⟩)
    rwa [hself] at hpair

end Join

/-- Two rows of one database that meet the conditions are delivered, in the
order in which they may stand. -/
theorem Plan.exists_delivers {plan : Plan} (hplaced : plan.Placed) (hnodup : plan.tables.Nodup)
    (hx : plan.Passes lit x) (hy : plan.Passes lit y) (h : Together indexes plan.tables x y) :
    ∃ out, plan.Delivers lit (ofTwo indexes x y) out ∧ Shows indexes plan x y out := by
  induction plan with
  | scan s =>
    exact Leaf.exists_delivers ⟨s, none⟩ (hx.scans _ mem_cons_self) (hy.scans _ mem_cons_self)
      (h _ mem_cons_self)
  | sort subplan col isDesc =>
    cases subplan with
    | scan s =>
      exact Leaf.exists_delivers ⟨s, some (col, isDesc)⟩ (hx.scans _ mem_cons_self)
        (hy.scans _ mem_cons_self) (h _ mem_cons_self)
    | _ => exact hplaced.elim
  | join tag left right conds ihl ihr =>
    obtain ⟨hnl, hnr, -⟩ := nodup_append.1 (Plan.tables_join .. ▸ hnodup)
    obtain ⟨hxl, hxr, -⟩ := Plan.passes_join.1 hx
    obtain ⟨hyl, hyr, -⟩ := Plan.passes_join.1 hy
    have htables : ∀ t, t ∈ left.tables ∨ t ∈ right.tables → x t = y t ∨ Apart indexes t (x t) (y t) := fun t ht =>
      h t (by rwa [Plan.tables_join, mem_append])
    obtain ⟨ls, hls, hshowsl⟩ := ihl hplaced.1 hnl hxl hyl fun t ht => htables t (.inl ht)
    obtain ⟨rs, hrs, hshowsr⟩ := ihr hplaced.2.1 hnr hxr hyr fun t ht => htables t (.inr ht)
    exact ⟨_, ⟨ls, rs, hls, hrs, rfl⟩, hshowsl.join hplaced hnodup hx hy hshowsr⟩

end Delivery

end Rmdb.Optimizer
