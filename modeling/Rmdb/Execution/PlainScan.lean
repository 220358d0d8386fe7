/-
The conditions for which an index scan is right.

`Plain` conditions bound each column once from either side, do not bound a later
column without an `=` on the first one, and do not leave the column behind the
`=` open above. On these the range is right, unless they contradict each other.
-/
import Rmdb.Execution.IndexScan
import Rmdb.Optimizer.Planner
import Rmdb.Transaction.Rollback

namespace Rmdb.Execution

open List Index

variable {ix : IndexMeta} {conds : List Condition}

structure Plain (ix : IndexMeta) (conds : List Condition) : Prop where
  lower : ∀ c ∈ conds, ∀ j, c.on ix.cols j → c.op.isLower → lowerCond ix.cols conds j = some c
  upper : ∀ c ∈ conds, ∀ j, c.on ix.cols j → c.op.isUpper → upperCond ix.cols conds j = some c
  first : (leading (lowers ix.cols conds)).eqs = [] → ∀ c ∈ conds, ∀ j, c.on ix.cols j → c.op ≠ .ne → j = 0
  closed : (leading (lowers ix.cols conds)).eqs ≠ [] → (leading (lowers ix.cols conds)).next.isSome →
    (leading (uppers ix.cols conds)).next.isSome

/-! ## The range of plain conditions -/

theorem leading_eqs_congr {ls us : List (Option Condition)}
    (h : List.Forall₂ (fun l u => ∀ c : Condition, c.op = .eq → (l = some c ↔ u = some c)) ls us) :
    (leading ls).eqs = (leading us).eqs := by
  induction h with
  | nil => rfl
  | @cons l u ls us h _ ih =>
    rcases l with - | c
    · rcases u with - | d
      · rfl
      · have hd : d.op ≠ .eq := fun hd => by simpa using (h d hd).2 rfl
        simp [leading, hd]
    · by_cases hc : c.op = .eq
      · obtain rfl : u = some c := (h c hc).1 rfl
        simp [leading, hc, ih]
      · rcases u with - | d
        · simp [leading, hc]
        · have hd : d.op ≠ .eq := fun hd => by
            obtain rfl : c = d := by simpa using (h d hd).2 rfl
            exact hc hd
          simp [leading, hc, hd]

theorem Plain.eqs (h : Plain ix conds) :
    (leading (lowers ix.cols conds)).eqs = (leading (uppers ix.cols conds)).eqs := by
  refine leading_eqs_congr ?_
  rw [lowers, uppers, forall₂_map_left_iff, forall₂_map_right_iff]
  refine forall₂_same.2 fun j _ c hc => ⟨fun hl => ?_, fun hu => ?_⟩
  · obtain ⟨hmem, hon⟩ := cond_some hl
    exact h.upper c hmem j hon (by simp [hc, CompOp.isUpper])
  · obtain ⟨hmem, hon⟩ := cond_some hu
    exact h.lower c hmem j hon (by simp [hc, CompOp.isLower])

def eqConsts (ix : IndexMeta) (conds : List Condition) : List (List UInt8) :=
  (leading (lowers ix.cols conds)).eqs.map Condition.raw

theorem Plain.begin_eq (h : Plain ix conds) (mem : Uninit) : beginOf ix conds mem =
    ((leading (lowers ix.cols conds)).next.any fun c => c.op = .gt,
      eqConsts ix conds ++ (leading (lowers ix.cols conds)).next.toList.map Condition.raw) := by
  have heqs := h.eqs
  rw [beginOf, scanBegin, eqConsts]
  cases hnext : (leading (lowers ix.cols conds)).next with
  | some c => simp [Lead.consts, hnext]
  | none =>
    have htake : ((leading (uppers ix.cols conds)).buffer mem.rightKey).take
      (leading (lowers ix.cols conds)).eqs.length =
        (leading (lowers ix.cols conds)).eqs.map Condition.raw := by
      rw [Lead.buffer, Lead.consts, ← heqs, map_append, append_assoc, take_left' (by simp)]
    simp only [htake, Lead.consts, hnext, Option.toList_none, append_nil, map_nil, Option.any_none, ite_self]

theorem Plain.end_eq (h : Plain ix conds) {mem : Uninit} (hmem : mem.Fits ix) : endOf ix conds mem =
    some ((leading (uppers ix.cols conds)).next.all fun c => c.op = .le,
      eqConsts ix conds ++ (leading (uppers ix.cols conds)).next.toList.map Condition.raw) := by
  have heqs := h.eqs
  have htake : ∀ n, ((leading (uppers ix.cols conds)).buffer mem.rightKey).take
      ((leading (lowers ix.cols conds)).eqs.length + n) = eqConsts ix conds ++
        (((leading (uppers ix.cols conds)).next.toList.map Condition.raw) ++
          mem.rightKey.drop (leading (uppers ix.cols conds)).consts.length).take n := by
    intro n
    rw [Lead.buffer, Lead.consts, ← heqs, map_append, append_assoc, eqConsts, take_append]
    simp
  rw [endOf, scanEnd]
  cases hnext : (leading (uppers ix.cols conds)).next with
  | some c =>
    rw [hnext] at htake
    simp only [htake, Option.all_some, Option.toList_some, map_cons, map_nil, singleton_append,
      take_succ_cons, take_zero]
  | none =>
    have hzero := htake 0
    rw [Nat.add_zero, take_zero, append_nil] at hzero
    simp only [Option.all_none, Option.toList_none, map_nil, append_nil, ← heqs]
    split_ifs with hall hsome
    · have hdrop : mem.rightKey.drop (leading (uppers ix.cols conds)).consts.length = [] := by
        rw [drop_eq_nil_iff, hmem.right.length, Lead.consts, hnext, ← heqs]
        simp [hall]
      rw [Lead.buffer, hdrop, Lead.consts, hnext, ← heqs]
      simp [eqConsts]
    · have hnil : (leading (lowers ix.cols conds)).eqs = [] := by
        by_contra hne
        simpa [hnext] using h.closed hne hsome
      simp [eqConsts, hnil]
    · rw [hzero]

/-! ## A record against the ends of the range -/

theorem cmpCols_eq_zero : ∀ {cols : List ColMeta} {as bs : List (List UInt8)}, cmpCols cols as bs = 0 ↔
    ∀ (j : Nat) c a b, cols[j]? = some c → as[j]? = some a → bs[j]? = some b → compare c a b = 0
  | c :: cols, a :: as, b :: bs => by
    have ih := @cmpCols_eq_zero cols as bs
    rw [cmpCols]
    constructor
    · intro h j c' a' b' hc ha hb
      split_ifs at h with hne
      · exact absurd h hne
      · cases j with
        | zero =>
          simp only [List.getElem?_cons_zero, Option.some.injEq] at hc ha hb
          rw [← hc, ← ha, ← hb]
          exact not_not.1 hne
        | succ j => exact ih.1 h j c' a' b' (by simpa using hc) (by simpa using ha) (by simpa using hb)
    · intro h
      have hfirst := h 0 c a b rfl rfl rfl
      rw [if_neg (by simpa using hfirst)]
      exact ih.2 fun j c' a' b' hc ha hb => h (j + 1) c' a' b' hc ha hb
  | [], _, _ => by simp [cmpCols]
  | _ :: _, [], _ => by simp [cmpCols]
  | _ :: _, _ :: _, [] => by simp [cmpCols]

theorem leading_eqs_some : ∀ {ls : List (Option Condition)} {i : Nat} {c : Condition}, (leading ls).eqs[i]? = some c →
    ls[i]? = some (some c) ∧ c.op = .eq
  | [], _, _, h => by simp [leading] at h
  | none :: ls, _, _, h => by simp [leading] at h
  | some d :: ls, i, c, h => by
    rw [leading] at h
    split_ifs at h with heq
    · cases i with
      | zero =>
        obtain rfl : d = c := by simpa using h
        exact ⟨rfl, heq⟩
      | succ i => simpa using leading_eqs_some (by simpa using h)
    · simp at h

theorem leading_next_some : ∀ {ls : List (Option Condition)} {c : Condition}, (leading ls).next = some c →
    ls[(leading ls).eqs.length]? = some (some c)
  | [], _, h => by simp [leading] at h
  | none :: ls, _, h => by simp [leading] at h
  | some d :: ls, c, h => by
    rw [leading] at h ⊢
    split_ifs at h ⊢ with heq
    · simpa using leading_next_some h
    · simpa using h

section Records

variable {rec : List UInt8}

def cmpEqs (ix : IndexMeta) (conds : List Condition) (rec : List UInt8) : Int :=
  cmpCols ix.cols (ix.cols.map fun c => c.read rec) (eqConsts ix conds)

theorem fits_record (ix : IndexMeta) (rec : List UInt8) : Fits ix.cols (ix.cols.map fun c => c.read rec) :=
  fits_map fun c _ => c.length_read rec

theorem length_eqs_le (ix : IndexMeta) (conds : List Condition) :
    (leading (lowers ix.cols conds)).eqs.length ≤ ix.cols.length := by
  have := leading_length_le (lowers ix.cols conds)
  simp only [lowers, length_map, length_range] at this
  simp only [lowers]
  omega

theorem cmpEqs_eq_zero (htyped : Typed ix.cols conds) :
    cmpEqs ix conds rec = 0 ↔ ∀ c ∈ (leading (lowers ix.cols conds)).eqs, c.holds rec := by
  have hcol : ∀ {j : Nat} {c : Condition}, (leading (lowers ix.cols conds)).eqs[j]? = some c →
      ix.cols[j]? = some c.col ∧ c.op = .eq := by
    intro j c hc
    obtain ⟨hl, hop⟩ := leading_eqs_some hc
    have hj : j < ix.cols.length := by simpa [lowers] using (List.getElem?_eq_some_iff.1 hl).1
    rw [getElem?_lowers hj, Option.some.injEq] at hl
    obtain ⟨hmem, hon⟩ := cond_some hl
    exact ⟨(htyped c hmem j hon).1, hop⟩
  rw [cmpEqs, cmpCols_eq_zero, eqConsts]
  constructor
  · intro h c hc
    obtain ⟨j, hj⟩ := mem_iff_getElem?.1 hc
    obtain ⟨hcol, hop⟩ := hcol hj
    have hcmp := h j c.col (c.col.read rec) c.raw hcol (by simp [hcol]) (by simp [hj])
    simp [Condition.holds, hop, CompOp.test, hcmp]
  · intro h j col a w hc ha hw
    rw [List.getElem?_map, Option.map_eq_some_iff] at hw
    obtain ⟨c, hj, rfl⟩ := hw
    obtain ⟨hcol, hop⟩ := hcol hj
    obtain rfl : col = c.col := Option.some.inj (hc.symm.trans hcol)
    obtain rfl : c.col.read rec = a := by simpa [hcol] using ha
    simpa [Condition.holds, hop, CompOp.test] using h c (mem_of_getElem? hj)

variable {c : Condition}

theorem cmpCols_next (hcol : ix.cols[(leading (lowers ix.cols conds)).eqs.length]? = some c.col) :
    cmpCols ix.cols (ix.cols.map fun c => c.read rec) (eqConsts ix conds ++ [c.raw]) =
      if cmpEqs ix conds rec ≠ 0 then cmpEqs ix conds rec else compare c.col (c.col.read rec) c.raw := by
  have hlen : (eqConsts ix conds).length = (leading (lowers ix.cols conds)).eqs.length := by simp [eqConsts]
  obtain ⟨hlt, hget⟩ := List.getElem?_eq_some_iff.1 hcol
  rw [cmpCols_append (fits_record ix rec) (hlen ▸ length_eqs_le ix conds), hlen, cmpEqs,
    ← map_drop, drop_eq_getElem_cons hlt, hget]
  by_cases hzero : compare c.col (c.col.read rec) c.raw = 0
  · simp [cmpCols, hzero]
  · simp [cmpCols, hzero]

theorem Plain.behind_begin (h : Plain ix conds) (htyped : Typed ix.cols conds) (mem : Uninit) :
    Behind ix rec (beginOf ix conds mem) ↔ 0 < cmpEqs ix conds rec ∨
      cmpEqs ix conds rec = 0 ∧ ∀ c, (leading (lowers ix.cols conds)).next = some c → c.holds rec := by
  rw [h.begin_eq, Behind, isBehind]
  cases hnext : (leading (lowers ix.cols conds)).next with
  | none =>
    simp only [Option.any_none, Option.toList_none, map_nil, append_nil, cmpEqs, Bool.false_eq_true, if_false,
      decide_eq_true_eq, reduceCtorEq, false_imp_iff, implies_true, and_true]
    omega
  | some c =>
    have hl := leading_next_some hnext
    obtain ⟨hj, -⟩ := List.getElem?_eq_some_iff.1 hl
    rw [getElem?_lowers (by simpa [lowers] using hj), Option.some.injEq] at hl
    obtain ⟨hmem, hon⟩ := cond_some hl
    have hlower := lowerCond_isLower hl
    obtain ⟨-, hne⟩ := leading_next hnext
    simp only [Option.any_some, Option.toList_some, map_cons, map_nil,
      cmpCols_next (htyped c hmem _ hon).1, Option.some.injEq, forall_eq', Condition.holds]
    rcases hop : c.op <;> simp only [hop, CompOp.isLower, CompOp.test, ne_eq, not_true, decide_eq_true_eq,
      reduceCtorEq, decide_true, decide_false, if_true, Bool.false_eq_true, if_false] at hlower hne ⊢ <;>
      split_ifs <;> omega

theorem Plain.behind_end (h : Plain ix conds) (htyped : Typed ix.cols conds) {mem : Uninit} (hmem : mem.Fits ix)
    {e : Bool × List (List UInt8)} (hend : endOf ix conds mem = some e) :
    Behind ix rec e ↔ 0 < cmpEqs ix conds rec ∨
      cmpEqs ix conds rec = 0 ∧ ∃ c, (leading (uppers ix.cols conds)).next = some c ∧ ¬ c.holds rec := by
  rw [h.end_eq hmem, Option.some.injEq] at hend
  subst hend
  rw [Behind, isBehind]
  cases hnext : (leading (uppers ix.cols conds)).next with
  | none =>
    simp [cmpEqs]
  | some c =>
    have hl := leading_next_some hnext
    obtain ⟨hj, -⟩ := List.getElem?_eq_some_iff.1 hl
    rw [getElem?_uppers (by simpa [uppers] using hj), Option.some.injEq] at hl
    obtain ⟨hmem, hon⟩ := cond_some hl
    have hupper := upperCond_isUpper hl
    obtain ⟨-, hne⟩ := leading_next hnext
    have hcol := (htyped c hmem _ hon).1
    rw [← h.eqs] at hcol
    simp only [Option.all_some, Option.toList_some, map_cons, map_nil,
      cmpCols_next hcol, Option.some.injEq, exists_eq_left', Condition.holds]
    rcases hop : c.op <;> simp only [hop, CompOp.isUpper, CompOp.test, ne_eq, not_true, decide_eq_true_eq,
      reduceCtorEq, decide_true, decide_false, if_true, Bool.false_eq_true, if_false] at hupper hne ⊢ <;>
      split_ifs <;> omega

/-! ## Plain conditions are met exactly in the range -/

variable {j : Nat}

/-- A bound of a column: one of the `=`, the one behind them, or tested again. -/
theorem holds_of_leading {n : Nat} {f : Nat → Option Condition}
    (heqs : ∀ c ∈ (leading ((List.range n).map f)).eqs, c.holds rec)
    (hnext : ∀ c, (leading ((List.range n).map f)).next = some c → c.holds rec)
    (htested : (leading ((List.range n).map f)).eqs.length = n ∨ TestedFrom (leading ((List.range n).map f)) f rec)
    (hfirst : (leading ((List.range n).map f)).eqs = [] → j = 0) (hj : j < n) (hc : f j = some c) : c.holds rec := by
  have hget : ((List.range n).map f)[j]? = some (some c) := by simp [hj, hc]
  rcases Nat.lt_trichotomy j (leading ((List.range n).map f)).eqs.length with hlt | rfl | hgt
  · have hd := List.getElem?_eq_getElem hlt
    obtain ⟨hget', -⟩ := leading_eqs_some hd
    rw [hget, Option.some.injEq, Option.some.injEq] at hget'
    rw [hget']
    exact heqs _ (getElem_mem hlt)
  · cases hn : (leading ((List.range n).map f)).next with
    | none => simpa [hget] using leading_none hn (by simpa using hj)
    | some d =>
      have hget' := leading_next_some hn
      rw [hget, Option.some.injEq, Option.some.injEq] at hget'
      exact hget' ▸ hnext d hn
  · rcases htested with hall | hzero | hrest
    · omega
    · have := hfirst (eq_nil_of_length_eq_zero hzero)
      omega
    · exact hrest j hgt c hc

variable {cols : List ColMeta}

theorem on_iff :
    c.on cols j = true ↔ cols.findIdx? (fun d => d.name = c.col.name) = some j := by
  simp [Condition.on]

theorem lt_of_on (h : c.on cols j) : j < cols.length := by
  obtain ⟨hj, -⟩ := List.findIdx?_eq_some_iff_findIdx_eq.1 (on_iff.1 h)
  exact hj

theorem Plain.cmpConds_iff (h : Plain ix conds) (htyped : Typed ix.cols conds) :
    cmpConds conds rec = true ↔ (cmpEqs ix conds rec = 0 ∧
      (∀ c, (leading (lowers ix.cols conds)).next = some c → c.holds rec) ∧
      ∀ c, (leading (uppers ix.cols conds)).next = some c → c.holds rec) ∧ Tested ix conds rec := by
  rw [cmpEqs_eq_zero htyped, cmpConds, all_eq_true]
  constructor
  · intro hall
    have hlower : ∀ {j c}, lowerCond ix.cols conds j = some c → c.holds rec := fun hc => hall _ (cond_some hc).1
    have hupper : ∀ {j c}, upperCond ix.cols conds j = some c → c.holds rec := fun hc => hall _ (cond_some hc).1
    refine ⟨⟨fun c hc => ?_, fun c hc => ?_, fun c hc => ?_⟩, .inr ⟨.inr fun j _ c hc => hlower hc,
      .inr fun j _ c hc => hupper hc⟩, fun c hc _ => hall c hc⟩
    · obtain ⟨j, hj⟩ := mem_iff_getElem?.1 hc
      obtain ⟨j, hj⟩ := mem_lowers (mem_of_getElem? (leading_eqs_some hj).1)
      exact hlower hj
    · obtain ⟨j, hj⟩ := mem_lowers (leading_next hc).1
      exact hlower hj
    · obtain ⟨j, hj⟩ := mem_uppers (leading_next hc).1
      exact hupper hj
  · rintro ⟨⟨heqs, hnextl, hnextu⟩, hbounds, hrest⟩ c hc
    by_cases hne : c.op = .ne
    · exact hrest c hc (.inl hne)
    cases hfind : ix.cols.findIdx? (fun d => d.name = c.col.name) with
    | none => exact hrest c hc (.inr hfind)
    | some j =>
      have hon : c.on ix.cols j := on_iff.2 hfind
      have hj := lt_of_on hon
      by_cases hlow : c.op.isLower
      · exact holds_of_leading heqs hnextl (hbounds.imp_right And.left) (fun hnil => h.first hnil c hc j hon hne) hj
          (h.lower c hc j hon hlow)
      · have hup : c.op.isUpper := by
          cases hop : c.op <;> simp [hop, CompOp.isLower, CompOp.isUpper] at hne hlow ⊢
        rw [h.eqs] at heqs hbounds
        exact holds_of_leading heqs hnextu (hbounds.imp_right And.right)
          (fun hnil => h.first (h.eqs.trans hnil) c hc j hon hne) hj (h.upper c hc j hon hup)

def Consistent (ix : IndexMeta) (conds : List Condition) (live : Rid → Option (List UInt8)) : Prop :=
  ∀ rid rec, live rid = some rec → cmpEqs ix conds rec = 0 →
    ∀ l u, (leading (lowers ix.cols conds)).next = some l → (leading (uppers ix.cols conds)).next = some u →
      l.holds rec ∨ u.holds rec

theorem Plain.exact {live : Rid → Option (List UInt8)} (h : Plain ix conds) (htyped : Typed ix.cols conds)
    (hlive : Consistent ix conds live) : Exact ix conds live where
  isSet mem hmem := by simp [h.end_eq hmem]
  inOrder mem hmem e hend rid rec hrec hbehind := by
    rw [h.behind_begin htyped]
    rcases (h.behind_end htyped hmem hend).1 hbehind with hpos | ⟨hzero, u, hu, hfails⟩
    · exact .inl hpos
    · exact .inr ⟨hzero, fun l hl => (hlive rid rec hrec hzero l u hl hu).resolve_right hfails⟩
  same mem hmem e hend rid rec hrec := by
    rw [h.behind_begin htyped, h.behind_end htyped hmem hend, h.cmpConds_iff htyped, ← and_assoc]
    refine and_congr_left fun _ => ?_
    rcases lt_trichotomy (cmpEqs ix conds rec) 0 with hlt | hzero | hgt
    · simp [hlt.ne, hlt.not_gt]
    · simp [hzero]
    · simp [hgt.ne', hgt]

end Records

/-! ## The two scans -/

/-- The index scan gives what the sequential scan gives exactly when it is right about the records of the table. -/
theorem sameRids_iff {m : TabMeta} {T : Table m} {A : Content m} {i : Fin m.indexes.length} (hT : T.Holds A)
    (hheader : ∀ j, (T.fh.pages 0).slots j = none) (hagree : A.AgreeAt i) (htyped : Typed (m.ix i).cols conds) :
    SameRids T i conds ↔ Exact (m.ix i) conds A.live :=
  ⟨fun h => h.exact hT hheader hagree htyped, fun h => h.sameRids hT hheader hagree htyped⟩

def ixOnAB : IndexMeta := ⟨"t_a_b.idx", [colA, colB], by simp [colA, colB], by decide⟩

def tabOnAB : TabMeta where
  name := "t"
  cols := [colA, colB]
  indexes := [ixOnAB]
  distinct := tabAB.distinct
  layout := tabAB.layout
  ixCols := by simp [ixOnAB]

def insertTwo : List Request :=
  [.stmt (.insert "t" [.int 1, .int 3] fun _ => true), .stmt (.insert "t" [.int 2, .int 3] fun _ => true)]

theorem onAB_agrees {reqs : List Request} (hreqs : ∀ r ∈ reqs, r.Maintained [tabOnAB]) :
    ∃ h s A, Run.run (@clientHandler [tabOnAB] noFloats) (.create [tabOnAB]) reqs = some (h, s) ∧
      (s.db 0).Holds A ∧ A.AgreeAt (0 : Fin 1) := by
  obtain ⟨h, s, hrun, B, hB⟩ := @run_sessionOK [tabOnAB] noFloats (.create [tabOnAB])
    (Session.create_agrees (by decide)) rfl reqs hreqs
  obtain ⟨A, hA, hagree⟩ := hB.agrees 0
  exact ⟨h, s, A, hrun, hA, hagree (0 : Fin 1)⟩

theorem insertTwo_agrees : ∃ h s A, Run.run (@clientHandler [tabOnAB] noFloats) (.create [tabOnAB]) insertTwo = some
    (h, s) ∧
    (s.db 0).Holds A ∧ A.AgreeAt (0 : Fin 1) :=
  onAB_agrees (by simp [insertTwo, Request.Maintained, Stmt.Maintained])

def aOneBUpTo : List Condition := [eqCond colA 1, ⟨colB, .le, bytesOf 5⟩]

/-- The two scans agree on `a = 1 AND b <= 5`. -/
theorem sameRids_upTo :
    ∃ h s, Run.run (@clientHandler [tabOnAB] noFloats) (.create [tabOnAB]) insertTwo = some (h, s) ∧
      SameRids (s.db 0) (0 : Fin 1) aOneBUpTo := by
  have hzero : (Run.run (@clientHandler [tabOnAB] noFloats) (.create [tabOnAB]) insertTwo).any (fun r =>
      ((r.2.db 0).fh.pages 0).numRecords = 0 ∧ 0 < (r.2.db 0).fh.numPages) = true := by
    decide +kernel
  obtain ⟨h, s, A, hrun, hT, hagree⟩ := insertTwo_agrees
  simp only [hrun, Option.any_some, decide_eq_true_eq] at hzero
  have hheader := (hT.heap.counted 0 le_rfl hzero.2).slots_none hzero.1
  have htyped : Typed [colA, colB] aOneBUpTo := by
    simp [Typed, aOneBUpTo, eqCond, Condition.on, colA, colB, List.findIdx?_cons, bytesOf]
  have hplain : Plain ixOnAB aOneBUpTo := by
    constructor <;>
      simp [ixOnAB, aOneBUpTo, eqCond, Condition.on, colA, colB, List.findIdx?_cons, lowerCond, upperCond, lowers,
        uppers,
        leading, CompOp.isLower, CompOp.isUpper, range_succ]
  refine ⟨h, s, hrun, (sameRids_iff hT hheader hagree htyped).2 (hplain.exact htyped ?_)⟩
  intro rid rec _ _ l u hl _
  simp [ixOnAB, aOneBUpTo, eqCond, Condition.on, colA, colB, List.findIdx?_cons, lowerCond, lowers, leading,
    CompOp.isLower, range_succ] at hl

def Condition.toCond (c : Condition) (tabName : String) : Cond :=
  ⟨⟨tabName, c.col.name⟩, c.op, true, ⟨"", ""⟩, ⟨c.col.type, some c.raw⟩⟩

def aOneBAbove : List Condition := [eqCond colA 1, ⟨colB, .gt, bytesOf 2⟩]

theorem getIndexCols_aOneBAbove (p : Optimizer.Planner) (hp : p.indexes "t" = [["a", "b"]]) :
    p.getIndexCols "t" (aOneBAbove.map fun c => c.toCond "t") =
      some (["a", "b"], aOneBAbove.map fun c => c.toCond "t") := by
  have hnil : p.unordered [] = [] := (p.unordered_perm []).eq_nil
  have hchoice : p.chooseIndex "t" (aOneBAbove.map fun c => c.toCond "t") = ["a", "b"] := by
    rw [Optimizer.Planner.chooseIndex, hp]
    decide
  have hset : Optimizer.indexSet (aOneBAbove.map fun c => c.toCond "t") = ["a", "b"] := by decide
  have hrepeat : ["a", "b"].filterMap (Optimizer.repeatOf (aOneBAbove.map fun c => c.toCond "t")) = [] := by decide
  have hfed : (["a", "b"].eraseDups.filter fun col => col ∈ ["a", "b"]).filterMap
      (Optimizer.condOf (aOneBAbove.map fun c => c.toCond "t")) = aOneBAbove.map fun c => c.toCond "t" := by decide
  have hrest : ["a", "b"].filter (fun col => decide (col ∉ ["a", "b"])) = [] := by decide
  have hfedConds : p.fedConds ["a", "b"] (aOneBAbove.map fun c => c.toCond "t") = aOneBAbove.map fun c =>
    c.toCond "t" := by
    rw [Optimizer.Planner.fedConds, hset, hfed, hrepeat, hrest, filterMap_nil, hnil, append_nil,
      append_nil]
  simp only [Optimizer.Planner.getIndexCols, hchoice, hfedConds, hp]
  rfl

set_option maxRecDepth 10000 in
/-- On `a = 1 AND b > 2` the scan goes to the end of the index: it gives the record (2, 3) too. -/
theorem sameRids_above_fails :
    ∃ h s A, Run.run (@clientHandler [tabOnAB] noFloats) (.create [tabOnAB]) insertTwo = some (h, s) ∧
      (s.db 0).Holds A ∧ A.AgreeAt (0 : Fin 1) ∧
      (∀ p : Optimizer.Planner, p.indexes "t" = [["a", "b"]] →
        p.getIndexCols "t" (aOneBAbove.map fun c => c.toCond "t") =
        some (["a", "b"], aOneBAbove.map fun c => c.toCond "t")) ∧
      indexScan (s.db 0) (0 : Fin 1) aOneBAbove ⟨[bytesOf 0, bytesOf 0], [bytesOf 0, bytesOf 0], ⟨0, 0⟩⟩ 5 =
        some [⟨1, 0⟩, ⟨1, 1⟩] ∧
      seqScan (s.db 0).fh aOneBAbove = some [⟨1, 0⟩] ∧ ¬ SameRids (s.db 0) (0 : Fin 1) aOneBAbove := by
  have hscans : (Run.run (@clientHandler [tabOnAB] noFloats) (.create [tabOnAB]) insertTwo).any (fun r =>
      @indexScan tabOnAB (r.2.db 0) (0 : Fin 1) aOneBAbove ⟨[bytesOf 0, bytesOf 0], [bytesOf 0, bytesOf 0], ⟨0, 0⟩⟩ 5 =
        some [⟨1, 0⟩, ⟨1, 1⟩] ∧ seqScan (r.2.db 0).fh aOneBAbove = some [⟨1, 0⟩]) = true := by
    decide +kernel
  obtain ⟨h, s, A, hrun, hT, hagree⟩ := insertTwo_agrees
  simp only [hrun, Option.any_some, decide_eq_true_eq] at hscans
  obtain ⟨hindex, hseq⟩ := hscans
  refine ⟨h, s, A, hrun, hT, hagree, getIndexCols_aOneBAbove, hindex, hseq, fun hsame => ?_⟩
  obtain ⟨enough, out, rids, hout, hseq', -, hperm⟩ := hsame ⟨[bytesOf 0, bytesOf 0], [bytesOf 0, bytesOf 0], ⟨0, 0⟩⟩
    ⟨.cons rfl (.cons rfl .nil), .cons rfl (.cons rfl .nil)⟩
  have hmore := hout (5 + enough) (by omega)
  rw [indexScan_add enough hindex, Option.some.injEq] at hmore
  rw [hseq, Option.some.injEq] at hseq'
  rw [← hmore, ← hseq'] at hperm
  simpa using hperm.length_eq

end Rmdb.Execution
