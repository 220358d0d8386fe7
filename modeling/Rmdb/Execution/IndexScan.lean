/-
When an index scan gives what a sequential scan gives.

The scan reads the records between two cuts of the index, and tests some of the
conditions on them again. `Exact` compares that with all the conditions, record
by record.
-/
import Rmdb.Execution.ScanBounds
import Rmdb.Execution.SeqScan

namespace Rmdb.Execution

open List Index
open Lock (cmpLeft cmpRight)

section Tests

variable {cols : List ColMeta} {conds : List Condition}

/-! ## What is tested again -/

theorem columns_key (ix : IndexMeta) (rec : List UInt8) :
    columns ix.keyCols (ix.key rec).bytes = ix.cols.map fun c => ⟨c.keyCol, c.read rec⟩ := by
  have hcols : ∀ cols : List ColMeta, columns (cols.map ColMeta.keyCol) (cols.flatMap fun c => c.read rec) =
      cols.map fun c => ⟨c.keyCol, c.read rec⟩ := by
    intro cols
    induction cols with
    | nil => rfl
    | cons c cols ih =>
      have hlen : (c.read rec).length = c.keyCol.len := by rw [c.length_read, c.keyCol_len]
      simp only [map_cons, columns, flatMap_cons, ← hlen, take_left, drop_left, ih]
  exact hcols ix.cols

theorem valuesOf_key (ix : IndexMeta) (rec : List UInt8) : valuesOf ix (ix.key rec) = ix.cols.map fun c =>
    c.read rec := by
  rw [valuesOf, columns_key, map_map]
  rfl

theorem conds_make (cols : List ColMeta) (conds : List Condition) : (IndexScan.make cols conds).conds =
    conds.filter fun c => c.op = .ne || (cols.findIdx? fun d => d.name = c.col.name).isNone := by
  induction conds using List.reverseRecOn with
  | nil => rfl
  | append_singleton conds cond ih =>
    rw [IndexScan.make_append, filter_append, ← ih, IndexScan.take]
    by_cases hne : cond.op = .ne
    · simp [hne]
    · cases hfind : cols.findIdx? (fun d => d.name = cond.col.name) with
      | none =>
        rw [filter_cons_of_pos (by rw [hfind]; simp)]
        simp [hne, PredicateManager.addPredicate, hfind]
      | some j =>
        rw [filter_cons_of_neg (by rw [hfind]; simp [hne])]
        simp [hne, PredicateManager.addPredicate, hfind]

theorem all_drop_zip {α β : Type} {xs : List α} {ys : List β} {n : Nat} {p : α × β → Bool} :
    ((xs.zip ys).drop n).all p = true ↔ ∀ j, n ≤ j → ∀ a b, xs[j]? = some a → ys[j]? = some b → p (a, b) = true := by
  rw [all_eq_true]
  constructor
  · intro h j hj a b ha hb
    refine h (a, b) (mem_iff_getElem?.2 ⟨j - n, ?_⟩)
    rw [List.getElem?_drop, Nat.add_sub_cancel' hj, List.getElem?_zip_eq_some]
    exact ⟨ha, hb⟩
  · rintro h ⟨a, b⟩ hmem
    obtain ⟨k, hk⟩ := mem_iff_getElem?.1 hmem
    rw [List.getElem?_drop, List.getElem?_zip_eq_some] at hk
    exact h (n + k) (Nat.le_add_right n k) a b hk.1 hk.2

/-- The conditions of these columns hold: all from the second one behind the `=`, or none at all
when the first column is not `=`. -/
def TestedFrom (l : Lead) (conds : Nat → Option Condition) (rec : List UInt8) : Prop :=
  l.eqs.length = 0 ∨ ∀ j > l.eqs.length, ∀ c, conds j = some c → c.holds rec

variable {ix : IndexMeta}

theorem gap_make {j : Nat} {col : ColMeta} (hcol : ix.cols[j]? = some col) :
    ((IndexScan.make ix.cols conds).gap ix.cols)[j]? = some (Lock.ColConds.mk
      (((lowerCond ix.cols conds j).bind PredicateManager.left).map fun (op, w) => (op, ⟨col.keyCol, w⟩))
      (((upperCond ix.cols conds j).bind PredicateManager.right).map fun (op, w) => (op, ⟨col.keyCol, w⟩))) := by
  rw [IndexScan.gap, gapOf, List.getElem?_zipWith, hcol,
    IndexScan.bounds_make ix.cols conds (List.getElem?_eq_some_iff.1 hcol).1]

theorem cmpIndexConds_iff (htyped : Typed ix.cols conds) (rec : List UInt8) :
    (IndexScan.make ix.cols conds).cmpIndexConds (ix.key rec) = true ↔
      TestedFrom (leading (lowers ix.cols conds)) (lowerCond ix.cols conds) rec ∧
      TestedFrom (leading (uppers ix.cols conds)) (upperCond ix.cols conds) rec := by
  have htakes := takes_make htyped
  have hholds : ∀ {j : Nat} {col : ColMeta} {c : Condition}, ix.cols[j]? = some col → c ∈ conds ∧ c.on ix.cols j →
      c.meets ⟨col.keyCol, col.read rec⟩ = c.holds rec := by
    rintro j col c hcol ⟨hmem, hon⟩
    obtain ⟨hcol', -⟩ := htyped c hmem j hon
    obtain rfl : col = c.col := Option.some.inj (hcol.symm.trans hcol')
    rfl
  simp only [IndexScan.cmpIndexConds, htakes.left, htakes.right, Bool.and_eq_true, Bool.or_eq_true, decide_eq_true_eq,
    all_drop_zip, columns_key, List.getElem?_map, Option.map_eq_some_iff, TestedFrom]
  refine and_congr (or_congr Iff.rfl ⟨fun h j hj c hc => ?_, ?_⟩) (or_congr Iff.rfl ⟨fun h j hj c hc => ?_, ?_⟩)
  · obtain ⟨hmem, hon⟩ := cond_some hc
    obtain ⟨hcol, -⟩ := htyped c hmem j hon
    have := h j hj _ _ ⟨_, hcol, rfl⟩ (gap_make hcol)
    rw [hc, Option.bind_some] at this
    rw [← hholds hcol ⟨hmem, hon⟩, ← cmpLeft_lowerCond (lowerCond_isLower hc)]
    exact this
  · rintro h j hj v b ⟨col, hcol, rfl⟩ hb
    obtain rfl := Option.some.inj ((gap_make hcol).symm.trans hb)
    cases hc : lowerCond ix.cols conds j with
    | none => rfl
    | some c =>
      have := h j hj c hc
      rw [← hholds hcol (cond_some hc), ← cmpLeft_lowerCond (lowerCond_isLower hc)] at this
      exact this
  · obtain ⟨hmem, hon⟩ := cond_some hc
    obtain ⟨hcol, -⟩ := htyped c hmem j hon
    have := h j hj _ _ ⟨_, hcol, rfl⟩ (gap_make hcol)
    rw [hc, Option.bind_some] at this
    rw [← hholds hcol ⟨hmem, hon⟩, ← cmpRight_upperCond (upperCond_isUpper hc)]
    exact this
  · rintro h j hj v b ⟨col, hcol, rfl⟩ hb
    obtain rfl := Option.some.inj ((gap_make hcol).symm.trans hb)
    cases hc : upperCond ix.cols conds j with
    | none => rfl
    | some c =>
      have := h j hj c hc
      rw [← hholds hcol (cond_some hc), ← cmpRight_upperCond (upperCond_isUpper hc)] at this
      exact this

end Tests

/-! ## The scan -/

section Scan

variable {m : TabMeta}

def indexScan (T : Table m) (i : Fin m.indexes.length) (conds : List Condition) (mem : Uninit) (fuel : Nat) :
    Option (List Rid) := do
  let sc := IndexScan.make (m.ix i).cols conds
  let rids ← sc.fetched (T.ihs i) mem fuel
  some (rids.filter fun rid => (T.fh.live rid).any (cmpConds sc.conds))

theorem indexScan_add {T : Table m} {i : Fin m.indexes.length} {conds : List Condition} {mem : Uninit} {fuel : Nat}
    {out : List Rid} (k : Nat) (h : indexScan T i conds mem fuel = some out) :
    indexScan T i conds mem (fuel + k) = some out := by
  simp only [indexScan, IndexScan.fetched, Option.bind_eq_bind, Option.bind_eq_some_iff] at h ⊢
  obtain ⟨rids, ⟨range, hrange, sc, hstart, entries, hscan, hrids⟩, hout⟩ := h
  exact ⟨rids, ⟨range, hrange, sc, hstart, entries, IxScan.scanAll_add k hscan, hrids⟩, hout⟩

structure Uninit.Fits (mem : Uninit) (ix : IndexMeta) : Prop where
  left : Execution.Fits ix.cols mem.leftKey
  right : Execution.Fits ix.cols mem.rightKey

def beginOf (ix : IndexMeta) (conds : List Condition) (mem : Uninit) : Bool × List (List UInt8) :=
  scanBegin ix.cols.length (leading (lowers ix.cols conds)) (leading (uppers ix.cols conds))
    ((leading (uppers ix.cols conds)).buffer mem.rightKey)

def endOf (ix : IndexMeta) (conds : List Condition) (mem : Uninit) : Option (Bool × List (List UInt8)) :=
  scanEnd ix.cols.length (leading (lowers ix.cols conds)) (leading (uppers ix.cols conds))
    ((leading (uppers ix.cols conds)).buffer mem.rightKey)

def Behind (ix : IndexMeta) (rec : List UInt8) (b : Bool × List (List UInt8)) : Prop :=
  isBehind ix.cols b.1 b.2 (ix.cols.map fun c => c.read rec) = true

/-- What is tested on a record of the range: if not all columns are `=`, the
conditions on the columns that `cmpIndexConds` looks at, and those that are no
bounds of a column. -/
structure Tested (ix : IndexMeta) (conds : List Condition) (rec : List UInt8) : Prop where
  bounds : (leading (lowers ix.cols conds)).eqs.length = ix.cols.length ∨
    TestedFrom (leading (lowers ix.cols conds)) (lowerCond ix.cols conds) rec ∧
    TestedFrom (leading (uppers ix.cols conds)) (upperCond ix.cols conds) rec
  rest : ∀ c ∈ conds, c.op = .ne ∨ (ix.cols.findIdx? fun d => d.name = c.col.name) = none → c.holds rec

/-- The scan is right about the records of a table: its end is set; no record is
behind the end and before the beginning; and a record is in the range and passes
the tests when it meets the conditions. -/
structure Exact (ix : IndexMeta) (conds : List Condition) (live : Rid → Option (List UInt8)) : Prop where
  isSet : ∀ mem, mem.Fits ix → (endOf ix conds mem).isSome
  inOrder : ∀ mem, mem.Fits ix → ∀ e, endOf ix conds mem = some e → ∀ rid rec, live rid = some rec →
    Behind ix rec e → Behind ix rec (beginOf ix conds mem)
  same : ∀ mem, mem.Fits ix → ∀ e, endOf ix conds mem = some e → ∀ rid rec, live rid = some rec →
    (Behind ix rec (beginOf ix conds mem) ∧ ¬ Behind ix rec e ∧ Tested ix conds rec ↔ cmpConds conds rec)

def Content.AgreeAt (A : Content m) (i : Fin m.indexes.length) : Prop :=
  ∀ k rid, A.map i k = some rid ↔ ∃ rec, A.live rid = some rec ∧ (m.ix i).key rec = k

variable {T : Table m} {A : Content m} {i : Fin m.indexes.length} {conds : List Condition} {mem : Uninit}

theorem tested_iff {ix : IndexMeta} (htyped : Typed ix.cols conds) (rec : List UInt8) :
    ((leading (lowers ix.cols conds)).eqs.length = ix.cols.length ∨
      (IndexScan.make ix.cols conds).cmpIndexConds (ix.key rec) = true) ∧
        cmpConds (IndexScan.make ix.cols conds).conds rec = true ↔ Tested ix conds rec := by
  have hrest : cmpConds (IndexScan.make ix.cols conds).conds rec = true ↔
      ∀ c ∈ conds, c.op = .ne ∨ (ix.cols.findIdx? fun d => d.name = c.col.name) = none → c.holds rec := by
    rw [cmpConds, conds_make, all_eq_true]
    simp only [mem_filter, Bool.or_eq_true, decide_eq_true_eq, Option.isNone_iff_eq_none, and_imp]
  rw [cmpIndexConds_iff htyped, hrest]
  exact ⟨fun ⟨h1, h2⟩ => ⟨h1, h2⟩, fun ⟨h1, h2⟩ => ⟨h1, h2⟩⟩

theorem scan_positions (hT : T.Holds A) (htyped : Typed (m.ix i).cols conds) (hmem : mem.Fits (m.ix i)) :
    ∃ L Us lower upper, Tree (T.ihs i) L Us ∧ (∀ k rid, (k, rid) ∈ flat L ↔ A.map i k = some rid) ∧
      (IndexScan.make (m.ix i).cols conds).range (T.ihs i) mem = some (lower, upper) ∧
      CutAt L (beginOf (m.ix i) conds mem) lower ∧ EndAt L mem upper (endOf (m.ix i) conds mem) := by
  obtain ⟨L, Us, t, hL⟩ := hT.map i
  obtain ⟨lower, upper, hrange, hlower, hupper⟩ := (takes_make htyped).range_eq t hmem.left hmem.right
  exact ⟨L, Us, lower, upper, t, hL, hrange, hlower, hupper⟩

def passed (T : Table m) (i : Fin m.indexes.length) (conds : List Condition)
    (entries : List (Key (m.ix i).keyCols × Rid)) :
    List Rid :=
  ((entries.filter fun e => (leading (lowers (m.ix i).cols conds)).eqs.length = (m.ix i).cols.length ||
    (IndexScan.make (m.ix i).cols conds).cmpIndexConds e.1).map Prod.snd).filter fun rid =>
      (T.fh.live rid).any (cmpConds (IndexScan.make (m.ix i).cols conds).conds)

theorem indexScan_eq {lower upper : Iid} {sc : IxScan}
    (hrange : (IndexScan.make (m.ix i).cols conds).range (T.ihs i) mem = some (lower, upper))
    (hstart : IxScan.start (T.ihs i) lower upper = some sc) (htyped : Typed (m.ix i).cols conds) (fuel : Nat) :
    indexScan T i conds mem fuel = (IxScan.scanAll (T.ihs i) fuel sc).map (passed T i conds) := by
  simp only [indexScan, IndexScan.fetched, hrange, hstart, Option.bind_eq_bind, Option.bind_some,
    (takes_make htyped).left]
  cases IxScan.scanAll (T.ihs i) fuel sc <;> rfl

section Passed

variable {entries : List (Key (m.ix i).keyCols × Rid)}

def OfRecords (A : Content m) (i : Fin m.indexes.length) (entries : List (Key (m.ix i).keyCols × Rid)) : Prop :=
  ∀ e ∈ entries, ∃ rec, A.live e.2 = some rec ∧ (m.ix i).key rec = e.1

theorem nodup_passed (hrecords : OfRecords A i entries) (hnodup : entries.Nodup) :
    (passed T i conds entries).Nodup := by
  refine List.Nodup.filter _ (List.Nodup.map_on ?_ (hnodup.filter _))
  rintro ⟨k, rid⟩ hx ⟨k', rid'⟩ hx' heq
  obtain rfl : rid = rid' := heq
  obtain ⟨rec, hlive, hkey⟩ := hrecords _ (mem_of_mem_filter hx)
  obtain ⟨rec', hlive', hkey'⟩ := hrecords _ (mem_of_mem_filter hx')
  rw [hlive, Option.some.injEq] at hlive'
  rw [Prod.mk.injEq]
  exact ⟨hkey.symm.trans (hlive' ▸ hkey'), rfl⟩

theorem mem_passed (hT : T.Holds A) (htyped : Typed (m.ix i).cols conds) (hrecords : OfRecords A i entries)
    {rid : Rid} :
    rid ∈ passed T i conds entries ↔
      ∃ rec, A.live rid = some rec ∧ ((m.ix i).key rec, rid) ∈ entries ∧ Tested (m.ix i) conds rec := by
  simp only [passed, mem_filter, mem_map, hT.live, Bool.or_eq_true, decide_eq_true_eq, Prod.exists,
    exists_eq_right]
  constructor
  · rintro ⟨⟨k, hmem, hbounds⟩, hrest⟩
    obtain ⟨rec, hlive, rfl⟩ := hrecords _ hmem
    simp only [hlive, Option.any_some] at hrest
    exact ⟨rec, hlive, hmem, (tested_iff htyped rec).1 ⟨hbounds, hrest⟩⟩
  · rintro ⟨rec, hlive, hmem, htested⟩
    obtain ⟨hbounds, hrest⟩ := (tested_iff htyped rec).2 htested
    exact ⟨⟨_, hmem, hbounds⟩, by simpa [hlive] using hrest⟩

end Passed

/-- An end that was not set may be no position at all. -/
theorem indexScan_unset (hT : T.Holds A) (htyped : Typed (m.ix i).cols conds) (hmem : mem.Fits (m.ix i))
    (hend : endOf (m.ix i) conds mem = none) (hupper : mem.upper.slotNo < 0) (fuel : Nat) :
    indexScan T i conds mem fuel = none := by
  obtain ⟨L, Us, lower, upper, t, -, hrange, hlower, hup⟩ := scan_positions hT htyped hmem
  rw [hend] at hup
  obtain rfl : upper = mem.upper := hup
  have hslot : 0 ≤ lower.slotNo := Cut.slotNo hlower
  have hnone : IxScan.scanAll (T.ihs i) fuel ⟨lower, mem.upper, lower.pageNo⟩ = none := scan_nowhere hupper rfl hslot
  rw [indexScan_eq hrange (t.start_eq hlower mem.upper) htyped, hnone]
  rfl

abbrev behindAt (ix : IndexMeta) (b : Bool × List (List UInt8)) (key : Key ix.keyCols) : Bool :=
  isBehind ix.cols b.1 b.2 (valuesOf ix key)

variable {rec : List UInt8}

theorem behind_key {ix : IndexMeta} {b : Bool × List (List UInt8)} :
    behindAt ix b (ix.key rec) = true ↔ Behind ix rec b := by
  rw [behindAt, valuesOf_key, Behind]

variable {e : Bool × List (List UInt8)}

/-- A record behind the end and before the beginning: the scan runs over the last entry. -/
theorem indexScan_crossed (hT : T.Holds A) (hagree : A.AgreeAt i) (htyped : Typed (m.ix i).cols conds)
    (hmem : mem.Fits (m.ix i)) (hend : endOf (m.ix i) conds mem = some e) {rid : Rid}
    (hlive : A.live rid = some rec) (he : Behind (m.ix i) rec e)
    (hb : ¬ Behind (m.ix i) rec (beginOf (m.ix i) conds mem)) (fuel : Nat) : indexScan T i conds mem fuel = none := by
  obtain ⟨L, Us, lower, upper, t, hL, hrange, hlower, hup⟩ := scan_positions hT htyped hmem
  rw [hend] at hup
  have hup : CutAt L e upper := hup
  have hentry : ((m.ix i).key rec, rid) ∈ flat L := (hL _ _).2 ((hagree _ _).2 ⟨rec, hlive, rfl⟩)
  have hnone := t.scan_none (m.ix i).order hlower hup hentry (behind_key.2 he)
    (Bool.eq_false_iff.2 fun h => hb (behind_key.1 h)) fuel
  rw [indexScan_eq hrange (t.start_eq hlower upper) htyped, hnone]
  rfl

theorem indexScan_some (hT : T.Holds A) (hagree : A.AgreeAt i) (htyped : Typed (m.ix i).cols conds)
    (hmem : mem.Fits (m.ix i)) (hend : endOf (m.ix i) conds mem = some e)
    (hord : ∀ rid rec, A.live rid = some rec → Behind (m.ix i) rec e →
    Behind (m.ix i) rec (beginOf (m.ix i) conds mem)) :
    ∃ enough out, (∀ fuel ≥ enough, indexScan T i conds mem fuel = some out) ∧ out.Nodup ∧ ∀ rid, rid ∈ out ↔
      ∃ rec, A.live rid = some rec ∧ Behind (m.ix i) rec (beginOf (m.ix i) conds mem) ∧ ¬ Behind (m.ix i) rec e ∧
        Tested (m.ix i) conds rec := by
  obtain ⟨L, Us, lower, upper, t, hL, hrange, hlower, hup⟩ := scan_positions hT htyped hmem
  rw [hend] at hup
  have hup : CutAt L e upper := hup
  have hrecords : OfRecords A i (flat L) := fun x hx => (hagree _ _).1 ((hL x.1 x.2).1 hx)
  have hcross : ∀ x ∈ flat L, behindAt (m.ix i) e x.1 = true →
      behindAt (m.ix i) (beginOf (m.ix i) conds mem) x.1 = true := by
    rintro ⟨k, rid⟩ hx hbehind
    obtain ⟨rec, hlive, hkey⟩ := hrecords _ hx
    rw [← hkey] at hbehind ⊢
    exact behind_key.2 (hord rid rec hlive (behind_key.1 hbehind))
  have hnodup : (flat L).Nodup := t.sorted.imp fun h => ne_of_apply_ne Prod.fst h.ne
  refine ⟨(flat L).length + 1, passed T i conds ((flat L).filter fun x =>
    behindAt (m.ix i) (beginOf (m.ix i) conds mem) x.1 && !behindAt (m.ix i) e x.1), fun fuel hfuel => ?_, ?_, fun rid => ?_⟩
  · rw [indexScan_eq hrange (t.start_eq hlower upper) htyped,
      t.scan_cuts (m.ix i).order hlower hup hcross (Nat.lt_of_succ_le hfuel), Option.map_some]
  · exact nodup_passed (fun x hx => hrecords x (mem_of_mem_filter hx)) (hnodup.filter _)
  · rw [mem_passed hT htyped fun x hx => hrecords x (mem_of_mem_filter hx)]
    refine exists_congr fun rec => and_congr_right fun hlive => ?_
    have hentry : ((m.ix i).key rec, rid) ∈ flat L := (hL _ _).2 ((hagree _ _).2 ⟨rec, hlive, rfl⟩)
    rw [mem_filter, Bool.and_eq_true, Bool.not_eq_true', Bool.eq_false_iff, Ne, behind_key, behind_key]
    simp only [hentry, true_and, and_assoc]

/-- The index scan ends and gives the rids that the sequential scan gives, each
once and whatever was in memory before. -/
def SameRids (T : Table m) (i : Fin m.indexes.length) (conds : List Condition) : Prop :=
  ∀ mem, mem.Fits (m.ix i) → ∃ enough out rids, (∀ fuel ≥ enough, indexScan T i conds mem fuel = some out) ∧
    seqScan T.fh conds = some rids ∧ out.Nodup ∧ out.Perm rids

theorem Exact.sameRids (hexact : Exact (m.ix i) conds A.live) (hT : T.Holds A)
    (hheader : ∀ j, (T.fh.pages 0).slots j = none) (hagree : A.AgreeAt i) (htyped : Typed (m.ix i).cols conds) :
    SameRids T i conds := by
  intro mem hmem
  obtain ⟨rids, hseq, hnodup, hrids⟩ := seqScan_spec hT.heap hheader conds
  rw [hT.live] at hrids
  obtain ⟨e, hend⟩ := Option.isSome_iff_exists.1 (hexact.isSet mem hmem)
  obtain ⟨enough, out, hout, hnodup', hmem'⟩ :=
    indexScan_some hT hagree htyped hmem hend (hexact.inOrder mem hmem e hend)
  refine ⟨enough, out, rids, hout, hseq, hnodup', (perm_ext_iff_of_nodup hnodup' hnodup).2 fun rid => ?_⟩
  rw [hmem', hrids]
  exact exists_congr fun rec => and_congr_right fun hlive => hexact.same mem hmem e hend rid rec hlive

theorem SameRids.exact (hsame : SameRids T i conds) (hT : T.Holds A) (hheader : ∀ j, (T.fh.pages 0).slots j = none)
    (hagree : A.AgreeAt i) (htyped : Typed (m.ix i).cols conds) : Exact (m.ix i) conds A.live := by
  have hends : ∀ {mem}, mem.Fits (m.ix i) → ∃ fuel, indexScan T i conds mem fuel ≠ none := by
    intro mem hmem
    obtain ⟨enough, out, -, hout, -⟩ := hsame mem hmem
    exact ⟨enough, by simp [hout enough le_rfl]⟩
  have hinOrder : ∀ mem, mem.Fits (m.ix i) → ∀ e, endOf (m.ix i) conds mem = some e → ∀ rid rec,
      A.live rid = some rec → Behind (m.ix i) rec e → Behind (m.ix i) rec (beginOf (m.ix i) conds mem) := by
    intro mem hmem e hend rid rec hlive he
    by_contra hb
    obtain ⟨fuel, hfuel⟩ := hends hmem
    exact hfuel (indexScan_crossed hT hagree htyped hmem hend hlive he hb fuel)
  refine ⟨fun mem hmem => ?_, hinOrder, fun mem hmem e hend rid rec hlive => ?_⟩
  · -- whatever is at the end of the buffers, `upper_` may have been anything
    rw [Option.isSome_iff_ne_none]
    intro hend
    have hmem' : Uninit.Fits { mem with upper := ⟨0, -1⟩ } (m.ix i) := ⟨hmem.left, hmem.right⟩
    obtain ⟨fuel, hfuel⟩ := hends hmem'
    exact hfuel (indexScan_unset hT htyped hmem' hend (by simp) fuel)
  · obtain ⟨rids, hseq, -, hrids⟩ := seqScan_spec hT.heap hheader conds
    obtain ⟨enough, out, rids', hout, hseq', -, hperm⟩ := hsame mem hmem
    obtain ⟨enough', out', hout', -, hmem'⟩ := indexScan_some hT hagree htyped hmem hend (hinOrder mem hmem e hend)
    obtain rfl : out' = out := by
      have hsame := hout (max enough enough') (le_max_left ..)
      rwa [hout' (max enough enough') (le_max_right ..), Option.some.injEq] at hsame
    obtain rfl : rids = rids' := by simpa [hseq] using hseq'
    rw [hT.live] at hrids
    have hiff := (hmem' rid).symm.trans (hperm.mem_iff.trans (hrids rid))
    simpa [hlive] using hiff

end Scan

end Rmdb.Execution
