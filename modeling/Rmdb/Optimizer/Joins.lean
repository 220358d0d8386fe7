/-
The joins of a query: the order of the tables, the sorts over the first two of
them, and which conditions are put into a join. `makeOneRel_spec` says what
the whole plan is.
-/
import Rmdb.Optimizer.Plan
import Rmdb.Optimizer.Scans

namespace Rmdb.Optimizer

open List Execution

/-! ## The joins -/

def newTables (order : List String) (c : Cond) : List String :=
  [c.lhsCol.tabName, c.rhsCol.tabName].filter fun t => t ∉ order

/-- The tables from left to right, after the joins of some conditions. -/
def joinOrder : List String → List Cond → List String
  | order, [] => order
  | order, c :: conds => joinOrder (newTables order c ++ order) conds

/-- The conditions that are put into a join: not those on two tables that are
joined already when one of them is under a sort. -/
def joinable (hidden : String → Bool) : List String → List Cond → List Cond
  | _, [] => []
  | order, c :: conds =>
    (if newTables order c = [] ∧ (hidden c.lhsCol.tabName ∨ hidden c.rhsCol.tabName) then [] else [c]) ++
      joinable hidden (newTables order c ++ order) conds

structure Holds (kept conds : List Cond) : Prop where
  has : ∀ k ∈ kept, ∃ c ∈ conds, c = k ∨ c = k.swap
  only : ∀ c ∈ conds, ∃ k ∈ kept, c = k ∨ c = k.swap

structure Pops (scans : List ScanPlan) (order : List String) (s : Popped) : Prop where
  joined : ∀ t ∈ scans.map ScanPlan.tabName, t ∈ s.joinedTables ↔ t ∈ order
  scantbl : ∀ i scan, scans[i]? = some scan → (i ∈ s.scantbl ↔ scan.tabName ∈ order)

structure Joined (leaf : String → Leaf) (order : List String) (kept : List Cond) (plan : Plan) : Prop where
  leaves : plan.leaves = order.map leaf
  placed : plan.Placed
  conds : Holds kept plan.joinConds

section Joins

variable {scans : List ScanPlan} {leaf : String → Leaf} {order : List String} {kept : List Cond} {plan : Plan}
  {s : Popped}
  {cond : Cond} {t : String}

theorem Holds.append {conds : List Cond} {k c : Cond} (h : Holds kept conds) (hc : c = k ∨ c = k.swap)
    {conds' : List Cond} (hperm : conds'.Perm (c :: conds)) : Holds (kept ++ [k]) conds' where
  has k' hk' := by
    rcases mem_append.1 hk' with hk' | hk'
    · obtain ⟨c', hc', h'⟩ := h.has k' hk'
      exact ⟨c', hperm.mem_iff.2 (mem_cons_of_mem _ hc'), h'⟩
    · rw [mem_singleton.1 hk']
      exact ⟨c, hperm.mem_iff.2 mem_cons_self, hc⟩
  only c' hc' := by
    rcases mem_cons.1 (hperm.mem_iff.1 hc') with rfl | hc'
    · exact ⟨k, by simp, hc⟩
    · obtain ⟨k', hk', h'⟩ := h.only c' hc'
      exact ⟨k', mem_append_left _ hk', h'⟩

theorem Pops.popScan_eq (h : Pops scans order s) (hdist : (scans.map ScanPlan.tabName).Nodup)
    (ht : t ∈ scans.map ScanPlan.tabName) :
    ∃ scan s', scan ∈ scans ∧ scan.tabName = t ∧ popScan scans t s = (some scan, s') ∧ Pops scans (t :: order) s' := by
  obtain ⟨scan, hscan, htab⟩ := mem_map.1 ht
  cases hidx : scans.findIdx? fun scan => scan.tabName = t with
  | none => simpa [htab] using List.findIdx?_eq_none_iff.1 hidx scan hscan
  | some i =>
    obtain ⟨hi, hname, -⟩ := List.findIdx?_eq_some_iff_getElem.1 hidx
    have hname : scans[i].tabName = t := by simpa using hname
    have hget : scans[i]? = some scans[i] := List.getElem?_eq_getElem hi
    refine ⟨scans[i], ⟨i :: s.scantbl, s.joinedTables ++ [t]⟩, getElem_mem hi, hname, ?_, fun t' ht' => ?_,
      fun i' scan' hi' => ?_⟩
    · simp only [popScan, hidx, hget]
    · simp [h.joined t' ht', or_comm]
    · rw [mem_cons, mem_cons, h.scantbl i' scan' hi']
      refine or_congr_left' fun _ => ⟨fun heq => ?_, fun htab' => ?_⟩
      · subst heq
        rw [hget, Option.some.injEq] at hi'
        rw [← hi', hname]
      · refine ((List.getElem?_inj (by simpa using hi) hdist).1 ?_).symm
        rw [List.getElem?_map, List.getElem?_map, hget, hi', Option.map_some, Option.map_some, hname, htab']

theorem Pops.congr {order' : List String} (h : Pops scans order s) (heq : ∀ t, t ∈ order ↔ t ∈ order') :
    Pops scans order' s where
  joined t ht := by rw [h.joined t ht, heq]
  scantbl i scan hi := by rw [h.scantbl i scan hi, heq]

theorem Joined.tables (h : Joined leaf order kept plan) (hleaf : ∀ t, (leaf t).tabName = t) : plan.tables = order := by
  rw [Plan.tables, h.leaves, map_map]
  simp [Function.comp_def, hleaf]

theorem Joined.mem_visible (h : Joined leaf order kept plan) (hleaf : ∀ t, (leaf t).tabName = t) :
    t ∈ plan.visible ↔ t ∈ order ∧ (leaf t).sorted.isSome = false := by
  rw [Plan.visible, h.leaves]
  simp only [mem_map, mem_filter]
  constructor
  · rintro ⟨_, ⟨⟨t', ht', rfl⟩, hsorted⟩, rfl⟩
    rw [hleaf]
    exact ⟨ht', by simpa using hsorted⟩
  · rintro ⟨ht, hsorted⟩
    exact ⟨leaf t, ⟨⟨t, ht, rfl⟩, by simpa using hsorted⟩, hleaf t⟩

theorem Joined.push (h : Joined leaf order kept plan) (hleaf : ∀ t, (leaf t).tabName = t) (hnodup : order.Nodup)
    (hne : cond.lhsCol.tabName ≠ cond.rhsCol.tabName) (hl : cond.lhsCol.tabName ∈ order)
    (hr : cond.rhsCol.tabName ∈ order) :
    Joined leaf order
      (kept ++ if (leaf cond.lhsCol.tabName).sorted.isSome ∨ (leaf cond.rhsCol.tabName).sorted.isSome then []
        else [cond])
      (pushConds cond plan).2 := by
  have hpush := @pushConds_eq cond hne plan (by rwa [h.tables hleaf])
  simp only [h.mem_visible hleaf] at hpush
  by_cases hhidden : (leaf cond.lhsCol.tabName).sorted.isSome ∨ (leaf cond.rhsCol.tabName).sorted.isSome
  · rw [if_neg (by
      rintro ⟨⟨-, hl⟩, -, hr⟩
      rcases hhidden with h | h
      · rw [hl] at h
        exact absurd h (by simp)
      · rw [hr] at h
        exact absurd h (by simp))] at hpush
    rw [hpush, if_pos hhidden, append_nil]
    exact h
  · obtain ⟨hl', hr'⟩ := not_or.1 hhidden
    rw [if_pos ⟨⟨hl, by simpa using hl'⟩, hr, by simpa using hr'⟩] at hpush
    obtain ⟨-, hpushed⟩ := hpush
    obtain ⟨c, hc, hperm⟩ := hpushed.joinConds
    rw [if_neg hhidden]
    exact ⟨hpushed.leaves.trans h.leaves, hpushed.placed h.placed, h.conds.append hc hperm⟩

theorem Joined.addLeft {scan : ScanPlan} {c : Cond} (h : Joined leaf order kept plan)
    (hleaf : ∀ t, (leaf t).tabName = t)
    (hscan : leaf t = ⟨scan, none⟩) (hc : c = cond ∨ c = cond.swap) (hl : c.lhsCol.tabName = t)
    (hr : c.rhsCol.tabName ∈ order) :
    Joined leaf (t :: order) (kept ++ [cond]) (.join .nestLoop (.scan scan) plan [c]) where
  leaves := by rw [Plan.leaves, h.leaves, Plan.leaves, map_cons, hscan]; rfl
  placed := by
    have htab : scan.tabName = t := by simpa [hscan, Leaf.tabName] using hleaf t
    refine ⟨trivial, h.placed, ?_⟩
    simpa [h.tables hleaf, htab] using ⟨hl, hr⟩
  conds := h.conds.append hc (List.Perm.refl _)

theorem Joined.laterJoin (h : Joined leaf order kept plan) (hs : Pops scans order s)
    (hdist : (scans.map ScanPlan.tabName).Nodup) (hleaf : ∀ t, (leaf t).tabName = t)
    (hnew : ∀ scan ∈ scans, scan.tabName ∉ order → leaf scan.tabName = ⟨scan, none⟩) (hnodup : order.Nodup)
    (hne : cond.lhsCol.tabName ≠ cond.rhsCol.tabName) (hl : cond.lhsCol.tabName ∈ scans.map ScanPlan.tabName)
    (hr : cond.rhsCol.tabName ∈ scans.map ScanPlan.tabName) :
    ∃ plan' s', Planner.laterJoin scans (plan, s) cond = some (plan', s') ∧
      Pops scans (newTables order cond ++ order) s' ∧
      Joined leaf (newTables order cond ++ order)
        (kept ++ joinable (fun t => (leaf t).sorted.isSome) order [cond]) plan' := by
  by_cases hlo : cond.lhsCol.tabName ∈ order
  · have hlj : cond.lhsCol.tabName ∈ s.joinedTables := (hs.joined _ hl).2 hlo
    by_cases hro : cond.rhsCol.tabName ∈ order
    · have hrj : cond.rhsCol.tabName ∈ s.joinedTables := (hs.joined _ hr).2 hro
      have hnone : newTables order cond = [] := by simp [newTables, hlo, hro]
      have hpush := h.push hleaf hnodup hne hlo hro
      refine ⟨(pushConds cond plan).2, s, by simp [Planner.laterJoin, hlj, hrj], by simpa [hnone] using hs, ?_⟩
      simpa [joinable, hnone] using hpush
    · have hrj : cond.rhsCol.tabName ∉ s.joinedTables := fun h' => hro ((hs.joined _ hr).1 h')
      obtain ⟨scan, s', hscan, htab, hpop, hs'⟩ := hs.popScan_eq hdist hr
      have hnone : newTables order cond = [cond.rhsCol.tabName] := by simp [newTables, hlo, hro]
      refine ⟨_, s', by simp [Planner.laterJoin, hlj, hrj, hpop]; rfl, by simpa [hnone] using hs', ?_⟩
      have hadd : Joined leaf (cond.rhsCol.tabName :: order) (kept ++ [cond])
          (.join .nestLoop (.scan scan) plan [cond.swap]) :=
        h.addLeft hleaf (htab ▸ hnew scan hscan (htab ▸ hro)) (.inr rfl) rfl hlo
      simpa [joinable, hnone] using hadd
  · have hlj : cond.lhsCol.tabName ∉ s.joinedTables := fun h' => hlo ((hs.joined _ hl).1 h')
    obtain ⟨scan, s', hscan, htab, hpop, hs'⟩ := hs.popScan_eq hdist hl
    have hleft : leaf cond.lhsCol.tabName = ⟨scan, none⟩ := htab ▸ hnew scan hscan (htab ▸ hlo)
    by_cases hro : cond.rhsCol.tabName ∈ order
    · have hrj : cond.rhsCol.tabName ∈ s'.joinedTables := (hs'.joined _ hr).2 (mem_cons_of_mem _ hro)
      have hnone : newTables order cond = [cond.lhsCol.tabName] := by simp [newTables, hlo, hro]
      refine ⟨_, s', by simp [Planner.laterJoin, hlj, hrj, hpop]; rfl, by simpa [hnone] using hs', ?_⟩
      have hadd := h.addLeft hleaf hleft (.inl rfl) rfl hro
      simpa [joinable, hnone] using hadd
    · have hrj : cond.rhsCol.tabName ∉ s'.joinedTables := fun h' => by
        simpa [hro, Ne.symm hne] using (hs'.joined _ hr).1 h'
      obtain ⟨scan', s'', hscan', htab', hpop', hs''⟩ := hs'.popScan_eq hdist hr
      have hnone : newTables order cond = [cond.lhsCol.tabName, cond.rhsCol.tabName] := by simp [newTables, hlo, hro]
      have hright : leaf cond.rhsCol.tabName = ⟨scan', none⟩ := htab' ▸ hnew scan' hscan' (htab' ▸ hro)
      refine ⟨_, s'', by simp [Planner.laterJoin, hlj, hrj, hpop, hpop']; rfl, ?_, ?_⟩
      · exact hs''.congr fun t => by simp [hnone, or_left_comm]
      · rw [hnone]
        refine ⟨?_, ⟨⟨trivial, trivial, ?_⟩, h.placed, by simp⟩, ?_⟩
        · simp [Plan.leaves, h.leaves, hleft, hright]
        · simp [htab, htab']
        · have hconds := h.conds.append (.inl rfl) (List.Perm.refl (cond :: plan.joinConds))
          simpa [joinable, hnone, Plan.joinConds] using hconds

theorem nodup_newTables (hnodup : order.Nodup) (hne : cond.lhsCol.tabName ≠ cond.rhsCol.tabName) :
    (newTables order cond ++ order).Nodup := by
  refine nodup_append.2 ⟨List.Nodup.filter _ (by simpa using hne), hnodup, fun t ht t' ht' heq => ?_⟩
  simpa [heq, ht'] using (mem_filter.1 ht).2

theorem joinOrder_spec {tables : List String} : ∀ {conds : List Cond} {order : List String}, order.Nodup →
    order ⊆ tables →
    (∀ c ∈ conds, c.lhsCol.tabName ≠ c.rhsCol.tabName ∧ c.lhsCol.tabName ∈ tables ∧ c.rhsCol.tabName ∈ tables) →
    (joinOrder order conds).Nodup ∧ joinOrder order conds ⊆ tables ∧ order ⊆ joinOrder order conds
  | [], _, hnodup, hsub, _ => ⟨hnodup, hsub, List.Subset.refl _⟩
  | c :: conds, order, hnodup, hsub, hconds => by
    obtain ⟨hne, hl, hr⟩ := hconds c mem_cons_self
    have hnew : newTables order c ++ order ⊆ tables := by
      refine append_subset.2 ⟨fun t ht => ?_, hsub⟩
      have ht := (mem_filter.1 ht).1
      simp only [mem_cons, not_mem_nil, or_false] at ht
      rcases ht with rfl | rfl
      · exact hl
      · exact hr
    obtain ⟨hnodup', hsub', hgrow⟩ := joinOrder_spec (nodup_newTables hnodup hne) hnew
      fun c' hc' => hconds c' (mem_cons_of_mem _ hc')
    exact ⟨hnodup', hsub', fun t ht => hgrow (mem_append_right _ ht)⟩

theorem Joined.laterJoins (hdist : (scans.map ScanPlan.tabName).Nodup) (hleaf : ∀ t, (leaf t).tabName = t) :
    ∀ {conds : List Cond} {order : List String} {kept : List Cond} {plan : Plan} {s : Popped},
    Joined leaf order kept plan → Pops scans order s → order.Nodup →
    (∀ scan ∈ scans, scan.tabName ∉ order → leaf scan.tabName = ⟨scan, none⟩) →
    (∀ c ∈ conds, c.lhsCol.tabName ≠ c.rhsCol.tabName ∧ c.lhsCol.tabName ∈ scans.map ScanPlan.tabName ∧
      c.rhsCol.tabName ∈ scans.map ScanPlan.tabName) →
    ∃ plan' s', conds.foldlM (Planner.laterJoin scans) (plan, s) = some (plan', s') ∧
      Pops scans (joinOrder order conds) s' ∧
      Joined leaf (joinOrder order conds) (kept ++ joinable (fun t => (leaf t).sorted.isSome) order conds) plan'
  | [], _, _, plan, s, h, hs, _, _, _ =>
    ⟨plan, s, rfl, hs, by simpa [joinable, joinOrder] using h⟩
  | c :: conds, order, kept, plan, s, h, hs, hnodup, hnew, hconds => by
    obtain ⟨hne, hl, hr⟩ := hconds c mem_cons_self
    obtain ⟨plan', s', hstep, hs', h'⟩ := h.laterJoin hs hdist hleaf hnew hnodup hne hl hr
    obtain ⟨plan'', s'', hrest, hs'', h''⟩ := h'.laterJoins hdist hleaf hs' (nodup_newTables hnodup hne)
      (fun scan hscan hout => hnew scan hscan fun hin => hout (mem_append_right _ hin))
      (fun c' hc' => hconds c' (mem_cons_of_mem _ hc'))
    refine ⟨plan'', s'', ?_, hs'', ?_⟩
    · rw [foldlM_cons, hstep]
      exact hrest
    · simpa [joinable, joinOrder] using h''

/-- The tables that no condition joined come on the left, the last one first. -/
theorem joinRest_leaves : ∀ {scans : List ScanPlan} {i : Nat} {plan : Plan}, plan.Placed →
    (∀ k scan, scans[k]? = some scan → (i + k ∈ s.scantbl ↔ scan.tabName ∈ order)) →
    (Planner.joinRest s.scantbl scans i plan).leaves =
        ((scans.filter fun scan => scan.tabName ∉ order).map fun scan => ⟨scan, none⟩).reverse ++ plan.leaves ∧
      (Planner.joinRest s.scantbl scans i plan).Placed ∧
      (Planner.joinRest s.scantbl scans i plan).joinConds = plan.joinConds
  | [], _, _, hplaced, _ => ⟨rfl, hplaced, rfl⟩
  | scan :: scans, i, plan, hplaced, hiff => by
    have hi : i ∈ s.scantbl ↔ scan.tabName ∈ order := hiff 0 scan rfl
    have htail : ∀ k scan', scans[k]? = some scan' → (i + 1 + k ∈ s.scantbl ↔ scan'.tabName ∈ order) := by
      intro k scan' hk
      rw [Nat.add_assoc, Nat.add_comm 1]
      exact hiff (k + 1) scan' hk
    rw [Planner.joinRest]
    by_cases hin : scan.tabName ∈ order
    · rw [if_pos (hi.2 hin), filter_cons_of_neg (by simpa using hin)]
      exact joinRest_leaves hplaced htail
    · rw [if_neg fun h => hin (hi.1 h), filter_cons_of_pos (by simpa using hin)]
      obtain ⟨hleaves, hplaced', hconds⟩ := @joinRest_leaves scans (i + 1) (.join .nestLoop (.scan scan) plan [])
        ⟨trivial, hplaced, by simp⟩ htail
      refine ⟨?_, hplaced', hconds⟩
      rw [hleaves]
      simp [Plan.leaves]

theorem laterJoin_merges {l r : Leaf} {c : Cond} {plan' : Plan} {s' : Popped}
    (h : ∀ m ∈ plan.merges, m = (l.plan, r.plan, some c))
    (hstep : Planner.laterJoin scans (plan, s) cond = some (plan', s')) : plan'.merges = plan.merges := by
  simp only [Planner.laterJoin] at hstep
  split at hstep
  · cases hstep
    simp [Plan.merges]
  · split_ifs at hstep <;> cases hstep <;> simp [Plan.merges]
  · cases hstep
    simp [Plan.merges]
  · cases hstep
    exact pushConds_merges h

theorem laterJoins_merges {l r : Leaf} {c : Cond} {plan' : Plan} {s' : Popped} : ∀ {conds : List Cond} {plan : Plan}
    {s : Popped}, (∀ m ∈ plan.merges, m = (l.plan, r.plan, some c)) →
    conds.foldlM (Planner.laterJoin scans) (plan, s) = some (plan', s') → plan'.merges = plan.merges
  | [], _, _, _, hrun => by
    cases hrun
    rfl
  | cond :: conds, plan, s, h, hrun => by
    obtain ⟨⟨plan₁, s₁⟩, hstep, hrun⟩ := Option.bind_eq_some_iff.1 hrun
    have hfirst := laterJoin_merges h hstep
    rw [laterJoins_merges (hfirst ▸ h) hrun, hfirst]

theorem joinRest_merges {scantbl : List Nat} : ∀ {scans : List ScanPlan} {i : Nat} {plan : Plan},
    (Planner.joinRest scantbl scans i plan).merges = plan.merges
  | [], _, _ => rfl
  | scan :: scans, i, plan => by
    rw [Planner.joinRest, joinRest_merges]
    split_ifs
    · rfl
    · simp [Plan.merges]
end Joins

/-! ## The first join -/

def exchanged (c : Cond) : Cond := { c with lhsCol := c.rhsCol, rhsCol := c.lhsCol }

/-- A child of the first join: through an index on the join column if there is
one, else under a sort if the join is to do the sorting. -/
def Planner.joinLeaf (p : Planner) (scan : ScanPlan) (sorts : Bool) (c : Cond) (isDesc : Bool) : Leaf :=
  let scan := (p.indexJoin scan c.lhsCol.tabName [c]).1
  ⟨scan, if sorts ∧ ¬ scan.isIndexScan then some (c.lhsCol, isDesc) else none⟩

def Planner.joinChild (p : Planner) (scan : ScanPlan) (sorts : Bool) (c : Cond) (isDesc : Bool) : Plan :=
  sortChild sorts (p.indexJoin scan c.lhsCol.tabName [c]).1 c.lhsCol isDesc

structure Like (scan scan' : ScanPlan) (c : Cond) : Prop where
  tabName : scan'.tabName = scan.tabName
  sub : ∀ c' ∈ scan.conds, c' ∈ scan'.conds
  conds : ∀ c' ∈ scan'.conds, c' ∈ scan.conds ∨ c' = c

section First

variable {p : Planner} {scan : ScanPlan} {c cond : Cond} {q : Query} {scans : List ScanPlan}

variable {t : String}

theorem indexJoin_conds : (p.indexJoin scan t [c]).2 = [c] := by
  rw [Planner.indexJoin]
  split_ifs
  · rfl
  · rcases @getIndexCols_eq p t [c] with ⟨hnone, -⟩ | ⟨ix, -, -, hsome⟩
    · simp only [hnone]
    · simp only [hsome, fedConds_singleton]

theorem indexJoin_isIndexScan :
    (p.indexJoin scan t [c]).1.isIndexScan = (scan.isIndexScan || (p.getIndexCols t [c]).isSome) := by
  rw [Planner.indexJoin]
  cases hscan : scan.isIndexScan with
  | true => simp [hscan]
  | false =>
    rcases @getIndexCols_eq p t [c] with ⟨hnone, -⟩ | ⟨ix, -, -, hsome⟩
    · simp [hnone, hscan]
    · simp [hsome]

theorem indexJoin_like : Like scan (p.indexJoin scan t [c]).1 c := by
  rw [Planner.indexJoin]
  split_ifs
  · exact ⟨rfl, fun _ h => h, fun _ h => .inl h⟩
  · rcases @getIndexCols_eq p t [c] with ⟨hnone, -⟩ | ⟨ix, -, -, hsome⟩
    · simp only [hnone]
      exact ⟨rfl, fun _ h => h, fun _ h => .inl h⟩
    · simp only [hsome, fedConds_singleton]
      exact ⟨rfl, fun c' h => mem_cons_of_mem _ h, fun c' h => (mem_cons.1 h).symm⟩

variable {isDesc sorts : Bool}

theorem joinChild_eq : p.joinChild scan sorts c isDesc = (p.joinLeaf scan sorts c isDesc).plan := by
  rw [Planner.joinChild, Planner.sortChild, Planner.joinLeaf]
  split_ifs <;> rfl

theorem joinLeaf_tabName : (p.joinLeaf scan sorts c isDesc).tabName = scan.tabName :=
  indexJoin_like.tabName

theorem joinTag_eq (hknobs : p.enableNestedloopJoin = true ∨ p.enableSortmergeJoin = true) (left right : Plan) :
    ∃ tag, p.joinTag left right = some tag := by
  rw [← Option.isSome_iff_exists, Planner.joinTag]
  rcases hknobs with h | h
  · simp [h]
  · split_ifs <;> simp

theorem firstJoin_spec (hknobs : p.enableNestedloopJoin = true ∨ p.enableSortmergeJoin = true)
    (hdist : (scans.map ScanPlan.tabName).Nodup) (hnamed : "" ∉ scans.map ScanPlan.tabName)
    (hl : cond.lhsCol.tabName ∈ scans.map ScanPlan.tabName) (hr : cond.rhsCol.tabName ∈ scans.map ScanPlan.tabName) :
    ∃ tag s q' left right l r, p.firstJoin q scans cond = some (.join tag l.plan r.plan [cond], s, q') ∧
      p.joinTag l.plan r.plan = some tag ∧
      l = p.joinLeaf left (q.hasSort && cond.names q.sortBys) cond q.isDesc ∧
      r = p.joinLeaf right (q.hasSort && cond.names q.sortBys) (exchanged cond) q.isDesc ∧
      q'.hasSort = (q.hasSort && !cond.names q.sortBys) ∧ q'.sortBys = q.sortBys ∧ q'.isDesc = q.isDesc ∧
      left ∈ scans ∧ left.tabName = cond.lhsCol.tabName ∧ right ∈ scans ∧ right.tabName = cond.rhsCol.tabName ∧
      Pops scans [cond.lhsCol.tabName, cond.rhsCol.tabName] s := by
  have hstart : Pops scans [] ⟨[], List.replicate q.tables.length ""⟩ := by
    refine ⟨fun t ht => ?_, by simp⟩
    have hne : t ≠ "" := fun h => hnamed (h ▸ ht)
    simp [hne]
  obtain ⟨left, s, hleft, hltab, hlpop, hs⟩ := hstart.popScan_eq hdist hl
  obtain ⟨right, s', hright, hrtab, hrpop, hs'⟩ := hs.popScan_eq hdist hr
  have hexch : ([cond].map fun c => ({ c with lhsCol := c.rhsCol, rhsCol := c.lhsCol } : Cond)) = [exchanged cond] :=
    rfl
  have hlconds : (p.indexJoin left cond.lhsCol.tabName [cond]).2 = [cond] := indexJoin_conds
  obtain ⟨tag, htag⟩ := joinTag_eq hknobs (p.joinChild left (q.hasSort && cond.names q.sortBys) cond q.isDesc)
    (p.joinChild right (q.hasSort && cond.names q.sortBys) (exchanged cond) q.isDesc)
  refine ⟨tag, s', if q.hasSort && cond.names q.sortBys then { q with hasSort := false } else q, left, right, _, _, ?_,
    joinChild_eq ▸ joinChild_eq ▸ htag, rfl, rfl, ?_, ?_, ?_, hleft, hltab, hright, hrtab,
    hs'.congr fun t => by simp [or_comm]⟩
  · rw [← joinChild_eq, ← joinChild_eq]
    simp only [Planner.joinChild, exchanged] at htag
    simp only [Planner.firstJoin, hlpop, hrpop, Option.bind_eq_bind, Option.bind_some, hlconds, hexch, any_cons,
      any_nil, Bool.or_false, exchanged, htag, Planner.joinChild]
  · cases hsort : q.hasSort <;> cases hnames : cond.names q.sortBys <;> simp [hsort]
  · split_ifs <;> rfl
  · split_ifs <;> rfl

end First

/-! ## The whole plan -/

def Planner.sorts (p : Planner) (q : Query) : Bool :=
  q.hasSort && !q.tables.any fun t => p.dropsSort t (q.condsOf t) q.sortBys

def Planner.scanIn (p : Planner) (q : Query) (t : String) : ScanPlan :=
  p.scanOf t (q.condsOf t) (q.ascAt (p.metAt q.condsOf q.tables t))

def Planner.sortsJoin (p : Planner) (q : Query) (c : Cond) : Bool := p.sorts q && c.names q.sortBys

def Planner.CanJoin (p : Planner) (q : Query) : Prop :=
  q.joinConds = [] ∨ p.enableNestedloopJoin = true ∨ p.enableSortmergeJoin = true

def Planner.leafOf (p : Planner) (q : Query) (t : String) : Leaf :=
  match q.joinConds with
  | [] => ⟨p.scanIn q t, none⟩
  | c :: _ =>
    if t = c.lhsCol.tabName then p.joinLeaf (p.scanIn q t) (p.sortsJoin q c) c q.isDesc
    else if t = c.rhsCol.tabName then p.joinLeaf (p.scanIn q t) (p.sortsJoin q c) (exchanged c) q.isDesc
    else ⟨p.scanIn q t, none⟩

/-- The sort-merge join of the plan, if it has one. -/
def Planner.merges (p : Planner) (q : Query) : List (Plan × Plan × Option Cond) :=
  match q.joinConds with
  | [] => []
  | c :: _ =>
    let left := (p.leafOf q c.lhsCol.tabName).plan
    let right := (p.leafOf q c.rhsCol.tabName).plan
    if p.joinTag left right = some .sortMerge then [(left, right, some c)] else []

def Query.firstTables (q : Query) : List String :=
  match q.joinConds with
  | [] => q.tables.take 1
  | c :: _ => [c.lhsCol.tabName, c.rhsCol.tabName]

def Query.joinedOrder (q : Query) : List String := joinOrder q.firstTables (q.joinConds.drop 1)

def Query.order (q : Query) : List String :=
  (q.tables.filter fun t => t ∉ q.joinedOrder).reverse ++ q.joinedOrder

/-- A table of the first join is put under a sort: the query is sorted by a
column of that join, and no index is there for the table. -/
def Planner.hides (p : Planner) (q : Query) (t : String) : Bool :=
  match q.joinConds with
  | [] => false
  | c :: _ =>
    p.sortsJoin q c && !(p.getIndexCols t (q.condsOf t)).isSome &&
      if t = c.lhsCol.tabName then !(p.getIndexCols t [c]).isSome
      else t = c.rhsCol.tabName && !(p.getIndexCols t [exchanged c]).isSome

def Planner.keptJoins (p : Planner) (q : Query) : List Cond :=
  q.joinConds.take 1 ++ joinable (p.hides q) q.firstTables (q.joinConds.drop 1)

section Whole

variable {p : Planner} {q : Query}

variable {c : Cond}

theorem mem_joinConds : c ∈ q.joinConds ↔ c ∈ q.conds ∧ c.lhsCol.tabName ≠ c.rhsCol.tabName ∧ c.isRhsVal = false := by
  simp [Query.joinConds, onOneTable]

theorem scanIn_tabName (t : String) : (p.scanIn q t).tabName = t := scanOf_tabName _

theorem leafOf_tabName (t : String) : (p.leafOf q t).tabName = t := by
  rw [Planner.leafOf]
  split
  · exact scanIn_tabName t
  · split_ifs
    · rw [joinLeaf_tabName, scanIn_tabName]
    · rw [joinLeaf_tabName, scanIn_tabName]
    · exact scanIn_tabName t

theorem Joined.rest {tables order : List String} {kept : List Cond} {plan : Plan} {s : Popped} {leaf : String → Leaf}
    {scanIn : String → ScanPlan} (htab : ∀ t, (scanIn t).tabName = t) (h : Joined leaf order kept plan)
    (hs : Pops (tables.map scanIn) order s) (hnew : ∀ t ∈ tables, t ∉ order → leaf t = ⟨scanIn t, none⟩) :
    Joined leaf ((tables.filter fun t => t ∉ order).reverse ++ order) kept
      (Planner.joinRest s.scantbl (tables.map scanIn) 0 plan) := by
  obtain ⟨hleaves, hplaced, hconds⟩ := joinRest_leaves h.placed fun k scan hk => by
    rw [Nat.zero_add]
    exact hs.scantbl k scan hk
  refine ⟨?_, hplaced, hconds ▸ h.conds⟩
  rw [hleaves, h.leaves, map_append, map_reverse, filter_map, map_map]
  congr 2
  simp only [Function.comp_def, htab]
  refine map_congr_left fun t ht => ?_
  obtain ⟨ht, hout⟩ := mem_filter.1 ht
  rw [hnew t ht (by simpa using hout)]

theorem pops_first {t : String} {tables : List String} {scanIn : String → ScanPlan} (htab : ∀ t, (scanIn t).tabName = t)
    (hnodup : (t :: tables).Nodup) : Pops ((t :: tables).map scanIn) [t] ⟨[0], [t]⟩ where
  joined t' _ := Iff.rfl
  scantbl i scan hi := by
    cases i with
    | zero =>
      have hscan : scanIn t = scan := by simpa using hi
      simp [← hscan, htab]
    | succ i =>
      have hmem : scan ∈ tables.map scanIn := mem_of_getElem? hi
      obtain ⟨t', ht', rfl⟩ := mem_map.1 hmem
      have hne : t' ≠ t := fun h => (nodup_cons.1 hnodup).1 (h ▸ ht')
      simp [htab, hne]

theorem joinLeaf_sorted {scan : ScanPlan} {sorts isDesc : Bool} : (p.joinLeaf scan sorts c isDesc).sorted.isSome =
      (sorts && !scan.isIndexScan && !(p.getIndexCols c.lhsCol.tabName [c]).isSome) := by
  have hix := @indexJoin_isIndexScan p scan c c.lhsCol.tabName
  simp only [Planner.joinLeaf, hix]
  cases sorts <;> cases scan.isIndexScan <;> cases (p.getIndexCols c.lhsCol.tabName [c]).isSome <;> rfl

theorem leafOf_sorted (t : String) : (p.leafOf q t).sorted.isSome = p.hides q t := by
  have hix : (p.scanIn q t).isIndexScan = (p.getIndexCols t (q.condsOf t)).isSome := by
    rw [Planner.scanIn, Planner.scanOf]
    split <;> simp_all
  rw [Planner.leafOf, Planner.hides]
  split
  · rfl
  next c _ _ =>
    by_cases hl : t = c.lhsCol.tabName
    · rw [if_pos hl, if_pos hl, joinLeaf_sorted, hix, ← hl]
    · by_cases hr : t = c.rhsCol.tabName
      · rw [if_neg hl, if_neg hl, if_pos hr, joinLeaf_sorted, hix]
        simp [exchanged, hr]
      · simp [hl, hr]

theorem joinScans_nil {Q : Query} {t : String} {tables : List String} {scanIn : String → ScanPlan}
    (hconds : Q.conds = []) :
    ∃ Q', p.joinScans ((t :: tables).map scanIn) Q =
        some (Planner.joinRest [0] ((t :: tables).map scanIn) 0 (.scan (scanIn t)), Q') ∧
      Q'.hasSort = Q.hasSort ∧ Q'.sortBys = Q.sortBys ∧ Q'.isDesc = Q.isDesc := by
  cases tables with
  | nil => exact ⟨Q, rfl, rfl, rfl, rfl⟩
  | cons t' tables =>
    refine ⟨{ Q with conds := [] }, ?_, rfl, rfl, rfl⟩
    simp only [Planner.joinScans, hconds, map_cons]

theorem joinScans_cons {Q : Query} {scans : List ScanPlan} {conds : List Cond} (hconds : Q.conds = c :: conds)
    (hscans : 2 ≤ scans.length) : p.joinScans scans Q = (do
      let (plan, s, Q) ← p.firstJoin Q scans c
      let (plan, s) ← conds.foldlM (Planner.laterJoin scans) (plan, s)
      some (Planner.joinRest s.scantbl scans 0 plan, { Q with conds := [] })) := by
  match scans, hscans with
  | _ :: _ :: _, _ => simp only [Planner.joinScans, hconds]

theorem Query.WF.joinConds (h : q.WF) : ∀ c ∈ q.joinConds, c.lhsCol.tabName ≠ c.rhsCol.tabName ∧
    c.lhsCol.tabName ∈ q.tables ∧ c.rhsCol.tabName ∈ q.tables := by
  intro c hc
  obtain ⟨hmem, hne, hval⟩ := mem_joinConds.1 hc
  exact ⟨hne, h.lhs c hmem, h.rhs c hmem hval⟩

theorem Query.WF.joinedOrder (h : q.WF) :
    q.joinedOrder.Nodup ∧ q.joinedOrder ⊆ q.tables ∧ q.firstTables ⊆ q.joinedOrder := by
  have hfirst : q.firstTables.Nodup ∧ q.firstTables ⊆ q.tables := by
    rw [Query.firstTables]
    split
    · exact ⟨h.distinct.sublist (take_sublist _ _), (take_sublist _ _).subset⟩
    next c _ hjoins =>
      obtain ⟨hne, hl, hr⟩ := h.joinConds c (by simp [hjoins])
      simp [hne, hl, hr]
  exact joinOrder_spec hfirst.1 hfirst.2 fun c hc => h.joinConds c (mem_of_mem_drop hc)

theorem Query.WF.order_perm (h : q.WF) : q.order.Perm q.tables := by
  obtain ⟨hnodup, hsub, -⟩ := h.joinedOrder
  refine (perm_ext_iff_of_nodup ?_ h.distinct).2 fun t => ?_
  · refine nodup_append.2 ⟨nodup_reverse.2 (h.distinct.filter _), hnodup, fun t ht t' ht' heq => ?_⟩
    simpa [heq, ht'] using (mem_filter.1 (mem_reverse.1 ht)).2
  · simp only [Query.order, mem_append, mem_reverse, mem_filter, decide_eq_true_eq]
    constructor
    · rintro (⟨ht, -⟩ | ht)
      · exact ht
      · exact hsub ht
    · intro ht
      by_cases hin : t ∈ q.joinedOrder
      · exact .inr hin
      · exact .inl ⟨ht, hin⟩

theorem two_tables (hl : c.lhsCol.tabName ∈ q.tables) (hr : c.rhsCol.tabName ∈ q.tables)
    (hne : c.lhsCol.tabName ≠ c.rhsCol.tabName) : 2 ≤ q.tables.length := by
  match htables : q.tables with
  | [] => simp [htables] at hl
  | [t] => exact absurd (by simp_all) hne
  | _ :: _ :: _ => simp

theorem makeOneRel_spec (h : q.WF) (hjoin : p.CanJoin q) :
    ∃ plan q', p.makeOneRel q = some (plan, q') ∧ Joined (p.leafOf q) q.order (p.keptJoins q) plan ∧
      plan.merges = p.merges q ∧
      q'.hasSort = (p.sorts q && !(q.joinConds.take 1).any fun c => c.names q.sortBys) ∧ q'.sortBys = q.sortBys ∧
      q'.isDesc = q.isDesc := by
  obtain ⟨hscans, hconds, hscanned⟩ := @scanTables_spec p q h
  have hsorts : (p.scanTables q q.tables).2.hasSort = p.sorts q := hscanned.hasSort
  have hscans : (p.scanTables q q.tables).1 = q.tables.map (p.scanIn q) := hscans
  have htabs : (q.tables.map (p.scanIn q)).map ScanPlan.tabName = q.tables := by
    simp [Function.comp_def, scanIn_tabName]
  rw [Planner.makeOneRel]
  generalize p.scanTables q q.tables = r at hscans hconds hscanned hsorts
  obtain ⟨scans, Q⟩ := r
  simp only at hscans hconds hscanned hsorts ⊢
  subst hscans
  cases hjoins : q.joinConds with
  | nil =>
    obtain ⟨t, tables, htables⟩ := exists_cons_of_ne_nil h.nonempty
    have hleaf : p.leafOf q = fun t => ⟨p.scanIn q t, none⟩ := funext fun t => by simp [Planner.leafOf, hjoins]
    have hkept : p.keptJoins q = [] := by simp [Planner.keptJoins, hjoins, joinable]
    have horder : q.joinedOrder = [t] := by simp [Query.joinedOrder, Query.firstTables, hjoins, htables, joinOrder]
    have hstart : Joined (p.leafOf q) [t] [] (.scan (p.scanIn q t)) :=
      ⟨by simp [hleaf, Plan.leaves], trivial, by simp, by simp [Plan.joinConds]⟩
    rw [Query.order, horder, hkept, htables]
    obtain ⟨Q', hjoin, hsort, hby, hdesc⟩ := @joinScans_nil p Q t tables (p.scanIn q) (hconds.trans hjoins)
    refine ⟨_, Q', hjoin, ?_, by simp [joinRest_merges, Plan.merges, Planner.merges, hjoins],
      by simpa [hsorts] using hsort, hby.trans hscanned.sortBys, hdesc.trans hscanned.isDesc⟩
    exact hstart.rest scanIn_tabName (pops_first scanIn_tabName (htables ▸ h.distinct)) fun t _ _ => by rw [hleaf]
  | cons c conds =>
    have hc := hjoins ▸ h.joinConds
    obtain ⟨hne, hl, hr⟩ := hc c mem_cons_self
    obtain ⟨tag, s, Q', left, right, l, r, hfirst, htag, hlleaf, hrleaf, hsort, hby, hdesc, hleft, hltab, hright, hrtab,
      hs⟩ :=
      @firstJoin_spec p c Q (q.tables.map (p.scanIn q)) (hjoin.resolve_left (by simp [hjoins])) (by rw [htabs]; exact h.distinct)
        (by rw [htabs]; exact h.named) (by rwa [htabs]) (by rwa [htabs])
    rw [hsorts, hscanned.sortBys, hscanned.isDesc] at hlleaf hrleaf
    rw [hsorts, hscanned.sortBys] at hsort
    obtain ⟨tl, -, rfl⟩ := mem_map.1 hleft
    obtain ⟨tr, -, rfl⟩ := mem_map.1 hright
    rw [scanIn_tabName] at hltab hrtab
    subst hltab hrtab
    have hfirstTables : q.firstTables = [c.lhsCol.tabName, c.rhsCol.tabName] := by rw [Query.firstTables, hjoins]
    obtain rfl : l = p.leafOf q c.lhsCol.tabName := by simp [hlleaf, Planner.leafOf, hjoins, Planner.sortsJoin]
    obtain rfl : r = p.leafOf q c.rhsCol.tabName := by
      simp [hrleaf, Planner.leafOf, hjoins, Planner.sortsJoin, Ne.symm hne]
    have hstart : Joined (p.leafOf q) q.firstTables [c] (.join tag (p.leafOf q c.lhsCol.tabName).plan
        (p.leafOf q c.rhsCol.tabName).plan [c]) := by
      refine ⟨by simp [hfirstTables, Plan.leaves], ⟨Leaf.placed_plan _, Leaf.placed_plan _, ?_⟩, ?_, ?_⟩ <;>
      simp [Plan.joinConds, Plan.tables, leafOf_tabName]
    have hnew : ∀ t, t ∉ q.firstTables → p.leafOf q t = ⟨p.scanIn q t, none⟩ := by
      intro t ht
      rw [hfirstTables] at ht
      simp only [mem_cons, not_mem_nil, or_false, not_or] at ht
      simp [Planner.leafOf, hjoins, ht]
    obtain ⟨plan', s', hlater, hs', hjoined⟩ := hstart.laterJoins (by rw [htabs]; exact h.distinct)
      leafOf_tabName (hfirstTables ▸ hs) (by simpa [hfirstTables] using hne)
      (fun scan hscan hout => by
        obtain ⟨t, -, rfl⟩ := mem_map.1 hscan
        rw [scanIn_tabName] at hout ⊢
        exact hnew t hout)
      (fun c' hc' => by rw [htabs]; exact hc c' (mem_cons_of_mem _ hc'))
    have hdrop : q.joinConds.drop 1 = conds := by rw [hjoins]; rfl
    have htwo : 2 ≤ (q.tables.map (p.scanIn q)).length := by
      rw [length_map]
      exact two_tables hl hr hne
    refine ⟨Planner.joinRest s'.scantbl (q.tables.map (p.scanIn q)) 0 plan', { Q' with conds := [] }, ?_, ?_, ?_, ?_,
      hby.trans hscanned.sortBys, hdesc.trans hscanned.isDesc⟩
    · rw [joinScans_cons (hconds.trans hjoins) htwo, hfirst]
      simp [hlater]
    · have hkept' : p.keptJoins q = [c] ++ joinable (fun t => (p.leafOf q t).sorted.isSome) q.firstTables conds := by
        rw [Planner.keptJoins, hdrop, hjoins, funext leafOf_sorted]
        rfl
      rw [Query.order, Query.joinedOrder, hdrop, hkept']
      refine hjoined.rest scanIn_tabName hs' fun t _ hout => hnew t fun hin => hout ?_
      exact hdrop ▸ h.joinedOrder.2.2 hin
    · have hmerges : (Plan.join tag (p.leafOf q c.lhsCol.tabName).plan (p.leafOf q c.rhsCol.tabName).plan [c]).merges =
          p.merges q := by
        simp [Plan.merges, Planner.merges, hjoins, htag]
      have hone : ∀ m ∈ p.merges q,
          m = ((p.leafOf q c.lhsCol.tabName).plan, (p.leafOf q c.rhsCol.tabName).plan, some c) := by
        simp only [Planner.merges, hjoins]
        split_ifs <;> simp
      rw [joinRest_merges, laterJoins_merges (hmerges ▸ hone) hlater, hmerges]
    · simpa using hsort

theorem makeOneRel_none (h : q.WF) (hjoin : ¬ p.CanJoin q) : p.makeOneRel q = none := by
  obtain ⟨hjoins, hoff⟩ := not_or.1 hjoin
  obtain ⟨c, conds, hjoins⟩ := exists_cons_of_ne_nil hjoins
  obtain ⟨hne, hl, hr⟩ := h.joinConds c (by simp [hjoins])
  obtain ⟨hscans, hconds, -⟩ := @scanTables_spec p q h
  have htwo : 2 ≤ (p.scanTables q q.tables).1.length := by
    rw [hscans, Planner.scansOf, length_map]
    exact two_tables hl hr hne
  have hfirst : ∀ Q scans, p.firstJoin Q scans c = none := by
    intro Q scans
    have htag : ∀ left right, p.joinTag left right = none := fun left right => by simp_all [Planner.joinTag]
    simp [Planner.firstJoin, htag]
  rw [Planner.makeOneRel]
  dsimp only
  rw [joinScans_cons (hconds.trans hjoins) htwo, hfirst]
  rfl

theorem makeOneRel_isSome (h : q.WF) : (p.makeOneRel q).isSome = true ↔ p.CanJoin q := by
  by_cases hjoin : p.CanJoin q
  · obtain ⟨plan, q', hmake, -⟩ := makeOneRel_spec h hjoin
    simp [hmake, hjoin]
  · simp [makeOneRel_none h hjoin, hjoin]

theorem makeOneRel_built {plan : Plan} {q' : Query} (h : q.WF) (hmake : p.makeOneRel q = some (plan, q')) :
    Joined (p.leafOf q) q.order (p.keptJoins q) plan ∧ plan.merges = p.merges q ∧
      q'.hasSort = (p.sorts q && !(q.joinConds.take 1).any fun c => c.names q.sortBys) ∧ q'.sortBys = q.sortBys ∧
      q'.isDesc = q.isDesc := by
  have hjoin : p.CanJoin q := (makeOneRel_isSome h).1 (by simp [hmake])
  obtain ⟨plan', q'', hmake', hspec⟩ := makeOneRel_spec h hjoin
  obtain ⟨rfl, rfl⟩ : plan = plan' ∧ q' = q'' := by simpa [hmake] using hmake'
  exact hspec

end Whole

end Rmdb.Optimizer
