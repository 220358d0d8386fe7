/-
The overlap test on the gaps of an index.

The bounds of a gap are the constants of conditions on its columns, compared
as bytes with the type of the column. Without `FLOAT` columns that is a linear
order on the bytes of a column, so gaps with a key in common are never taken
to be apart.
-/
import Rmdb.Execution.Locks

namespace Rmdb.Execution

open Option Index
open Lock (Gap ColConds LeftOp RightOp cmpLeft cmpRight apart not_apart)

/-! ## Gaps of conditions -/

def PredicateManager.addAll (cols : List ColMeta) (conds : List Condition) : Bounds :=
  conds.foldl (fun bounds cond => (addPredicate cols bounds cond).getD bounds) (init cols)

def gapOfConds (cols : List ColMeta) (conds : List Condition) : Gap ColValue :=
  gapOf cols (PredicateManager.addAll cols conds)

def Sized (cols : List ColMeta) (conds : List Condition) : Prop :=
  ∀ cond ∈ conds, ∀ j c, cond.on cols j → cols[j]? = some c → cond.raw.length = c.len

def ColConds.Long (n : Nat) (b : ColConds (List UInt8)) : Prop :=
  (∀ x ∈ b.left, x.2.length = n) ∧ ∀ x ∈ b.right, x.2.length = n

section Bounds

variable {cols : List ColMeta} {conds : List Condition} {cond : Condition} {b : ColConds (List UInt8)} {n : Nat}

theorem ColConds.Long.add (h : ColConds.Long n b) (hraw : cond.raw.length = n) :
    ColConds.Long n
      { left := PredicateManager.left cond <|> b.left, right := PredicateManager.right cond <|> b.right } := by
  constructor
  · intro x hx
    cases hl : PredicateManager.left cond with
    | none => exact h.1 x (by simpa [hl] using hx)
    | some y =>
      obtain rfl : y = x := by simpa [hl] using hx
      unfold PredicateManager.left at hl
      split at hl <;> cases hl <;> exact hraw
  · intro x hx
    cases hr : PredicateManager.right cond with
    | none => exact h.2 x (by simpa [hr] using hx)
    | some y =>
      obtain rfl : y = x := by simpa [hr] using hx
      unfold PredicateManager.right at hr
      split at hr <;> cases hr <;> exact hraw

theorem addAll_append : PredicateManager.addAll cols (conds ++ [cond]) =
    (PredicateManager.addPredicate cols (PredicateManager.addAll cols conds) cond).getD
      (PredicateManager.addAll cols conds) := by
  rw [PredicateManager.addAll, List.foldl_append]
  rfl

theorem addAll_long (h : Sized cols conds) {i : Nat} {c : ColMeta} (hc : cols[i]? = some c)
    (hb : (PredicateManager.addAll cols conds)[i]? = some b) : ColConds.Long c.len b := by
  induction conds using List.reverseRecOn generalizing b with
  | nil =>
    simp only [PredicateManager.addAll, List.foldl_nil, PredicateManager.init, List.getElem?_map, hc, map_some,
      some.injEq] at hb
    subst hb
    simp [ColConds.Long]
  | append_singleton conds cond ih =>
    have ih := fun {b} => ih (b := b) fun cond' hcond' => h cond' (List.mem_append_left _ hcond')
    rw [addAll_append, PredicateManager.addPredicate] at hb
    cases hfind : cols.findIdx? fun c => c.name = cond.col.name with
    | none =>
      rw [hfind] at hb
      exact ih hb
    | some j =>
      simp only [hfind, map_some, getD_some, List.getElem?_modify, map_eq_map,
        map_eq_some_iff] at hb
      obtain ⟨b', hb', rfl⟩ := hb
      split
      · next hji =>
        subst hji
        have hon : cond.on cols j := by simp [Condition.on, hfind]
        exact (ih hb').add (h cond (by simp) j c hon hc)
      · exact ih hb'

end Bounds

/-! ## The test on one column -/

section Column

variable {c : KeyCol} {v : List UInt8} {l : Option (LeftOp × List UInt8)} {r : Option (RightOp × List UInt8)}

theorem ixCompare_singleton (a b : List UInt8) : ixCompare [c] a b = ixCompareCol c a b := by
  rw [ixCompare]
  split
  · rfl
  · next h => exact (not_not.1 h).symm

def colKey (hc : c ≠ .float) (h : v.length = c.len) : Key [c] where
  bytes := v
  length_eq := by simp [colTotLen, h]
  ordered := ordered_of_forall_ne v (by simpa using hc)

theorem not_apart_values (hc : c ≠ .float) (hv : v.length = c.len) (hl : ∀ x ∈ l, x.2.length = c.len)
    (hr : ∀ x ∈ r, x.2.length = c.len) (hleft : cmpLeft (⟨c, v⟩ : ColValue) (l.map fun (op, w) => (op, ⟨c, w⟩)) = true)
    (hright : cmpRight (⟨c, v⟩ : ColValue) (r.map fun (op, w) => (op, ⟨c, w⟩)) = true) :
    apart (l.map fun (op, w) => (op, (⟨c, w⟩ : ColValue))) (r.map fun (op, w) => (op, ⟨c, w⟩)) = false := by
  rcases l with _ | ⟨lop, x⟩
  · rfl
  rcases r with _ | ⟨rop, y⟩
  · rfl
  have hcmp : ∀ {a b : List UInt8} (ha : a.length = c.len) (hb : b.length = c.len),
      ixCmp (colKey hc ha) (colKey hc hb) = ixCmp (⟨c, a⟩ : ColValue) ⟨c, b⟩ := fun _ _ => ixCompare_singleton _ _
  have hx := hl _ rfl
  have hy := hr _ rfl
  have hkeys := @not_apart (Key [c]) _ (colKey hc hv) (some (lop, colKey hc hx)) (some (rop, colKey hc hy))
    (by cases lop <;> simpa [cmpLeft, hcmp] using hleft) (by cases rop <;> simpa [cmpRight, hcmp] using hright)
  simpa [apart, hcmp] using hkeys

end Column

/-! ## The test on gaps -/

theorem reaches_of_cols {V : Type} [IxCmp V] : ∀ {g h : Gap V},
    (∀ (i : Nat) c d, g[i]? = some c → h[i]? = some d → apart c.left d.right = false) → g.reaches h = true
  | [], _, _ => rfl
  | _ :: _, [], _ => rfl
  | c :: g, d :: h, hcols => by
    rw [Gap.reaches, hcols 0 c d rfl rfl, reaches_of_cols fun i c' d' hc hd => hcols (i + 1) c' d' hc hd]
    rfl

section Gaps

variable {cols : List ColMeta} {conds conds' : List Condition}

theorem getElem?_gapOfConds {i : Nat} {b : ColConds ColValue} (h : (gapOfConds cols conds)[i]? = some b) :
    ∃ c b₀, cols[i]? = some c ∧ (PredicateManager.addAll cols conds)[i]? = some b₀ ∧
      b = ⟨b₀.left.map fun (op, v) => (op, ⟨c.keyCol, v⟩), b₀.right.map fun (op, v) => (op, ⟨c.keyCol, v⟩)⟩ := by
  rw [gapOfConds, gapOf, List.getElem?_zipWith_eq_some] at h
  obtain ⟨c, b₀, hc, hb₀, rfl⟩ := h
  exact ⟨c, b₀, hc, hb₀, rfl⟩

theorem columns_length : ∀ {cs : List KeyCol} {bs : List UInt8} {i : Nat} {v : ColValue},
    bs.length = colTotLen cs → (columns cs bs)[i]? = some v → cs[i]? = some v.col ∧ v.raw.length = v.col.len
  | [], _, _, _, _, h => by simp [columns] at h
  | c :: cs, bs, 0, v, hlen, h => by
    rw [colTotLen_cons] at hlen
    simp only [columns, List.getElem?_cons_zero, some.injEq] at h
    subst h
    refine ⟨rfl, ?_⟩
    change (bs.take c.len).length = c.len
    rw [List.length_take]
    omega
  | c :: cs, bs, i + 1, v, hlen, h => by
    rw [colTotLen_cons] at hlen
    simp only [columns, List.getElem?_cons_succ] at h ⊢
    exact columns_length (by rw [List.length_drop]; omega) h

theorem reaches_of_key (hcols : ∀ c ∈ cols, c.type ≠ .float) (h : Sized cols conds) (h' : Sized cols conds')
    {bs : List UInt8} (hbs : bs.length = colTotLen (cols.map ColMeta.keyCol))
    (hg : (gapOfConds cols conds).isInGap (columns (cols.map ColMeta.keyCol) bs) = true)
    (hg' : (gapOfConds cols conds').isInGap (columns (cols.map ColMeta.keyCol) bs) = true) :
    (gapOfConds cols conds).reaches (gapOfConds cols conds') = true := by
  refine reaches_of_cols fun i b b' hb hb' => ?_
  obtain ⟨hlen, hin⟩ := Gap.isInGap_iff.1 hg
  obtain ⟨-, hin'⟩ := Gap.isInGap_iff.1 hg'
  have hi : i < (columns (cols.map ColMeta.keyCol) bs).length := hlen ▸ (List.getElem?_eq_some_iff.1 hb).1
  have hv := List.getElem?_eq_getElem hi
  have hleft := (hin i b _ hb hv).1
  have hright := (hin' i b' _ hb' hv).2
  obtain ⟨c, b₀, hc, hb₀, rfl⟩ := getElem?_gapOfConds hb
  obtain ⟨c', b₀', hc', hb₀', rfl⟩ := getElem?_gapOfConds hb'
  obtain rfl : c = c' := some.inj (hc.symm.trans hc')
  obtain ⟨hcol, hraw⟩ := columns_length hbs hv
  rw [List.getElem?_map, hc, map_some, some.injEq] at hcol
  generalize (columns (cols.map ColMeta.keyCol) bs)[i] = v at *
  obtain ⟨vcol, v⟩ := v
  obtain rfl : c.keyCol = vcol := hcol
  have hfloat := ColMeta.keyCol_ne_float (hcols c (List.mem_of_getElem? hc))
  have hlong := addAll_long h hc hb₀
  have hlong' := addAll_long h' hc hb₀'
  rw [← c.keyCol_len] at hlong hlong'
  exact not_apart_values hfloat hraw hlong.1 hlong'.2 hleft hright

/-- Gaps with a key in common coincide, in either direction. -/
theorem isCoincide_of_common_key (hcols : ∀ c ∈ cols, c.type ≠ .float) (h : Sized cols conds) (h' : Sized cols conds') :
    (∀ bs : List UInt8, bs.length = colTotLen (cols.map ColMeta.keyCol) →
      (gapOfConds cols conds).isInGap (columns (cols.map ColMeta.keyCol) bs) = true →
      (gapOfConds cols conds').isInGap (columns (cols.map ColMeta.keyCol) bs) = true →
        (gapOfConds cols conds).isCoincide (gapOfConds cols conds') = true ∧
          (gapOfConds cols conds').isCoincide (gapOfConds cols conds) = true) ∧
      (gapOfConds cols conds).isCoincide (gapOfConds cols conds') =
        (gapOfConds cols conds').isCoincide (gapOfConds cols conds) := by
  have hcomm := Gap.isCoincide_comm (gapOfConds cols conds) (gapOfConds cols conds')
  refine ⟨fun bs hbs hg hg' => ?_, hcomm⟩
  have hcoincide : (gapOfConds cols conds).isCoincide (gapOfConds cols conds') = true := by
    rw [Gap.isCoincide, reaches_of_key hcols h h' hbs hg hg', reaches_of_key hcols h' h hbs hg' hg]
    rfl
  exact ⟨hcoincide, hcomm ▸ hcoincide⟩

/-- `a >= 1 AND b > 2` and `a = 1 AND b <= 3` have the key (1, 3) in common. -/
theorem isCoincide_aOne : (gapOfConds [colA, colB] [⟨colA, .ge, bytesOf 1⟩, ⟨colB, .gt, bytesOf 2⟩]).isCoincide
    (gapOfConds [colA, colB] [eqCond colA 1, ⟨colB, .le, bytesOf 3⟩]) = true := by
  have hsized : ∀ {conds}, (∀ cond ∈ conds, cond.raw.length = 4) → Sized [colA, colB] conds := by
    intro conds h cond hcond j c _ hc
    have hlen : ∀ c ∈ [colA, colB], c.len = 4 := by simp [colA, colB]
    rw [h cond hcond, hlen c (List.mem_of_getElem? hc)]
  exact ((isCoincide_of_common_key (by simp [colA, colB]) (hsized (by simp [bytesOf]))
    (hsized (by simp [eqCond, bytesOf]))).1 (bytesOf 1 ++ bytesOf 3) (by decide) (by decide) (by decide)).1

end Gaps

end Rmdb.Execution
