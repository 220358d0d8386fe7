/-
The keys that an index scan starts and ends with.

A key buffer is filled with the constants of the first columns and the smallest
or largest values for the others. A key compares with it as its first columns do
with the constants: so the positions of a scan are cuts by these comparisons.
-/
import Rmdb.Execution.JoinCond
import Rmdb.Index.Cut

namespace Rmdb.Execution

open List Index

/-! ## Columns and constants -/

def Fits (cols : List ColMeta) (raws : List (List UInt8)) : Prop :=
  List.Forall₂ (fun (c : ColMeta) (w : List UInt8) => w.length = c.len) cols raws

def cmpCols : List ColMeta → List (List UInt8) → List (List UInt8) → Int
  | c :: cols, a :: as, b :: bs => if compare c a b ≠ 0 then compare c a b else cmpCols cols as bs
  | _, _, _ => 0

section Columns

variable {cols : List ColMeta} {as bs : List (List UInt8)}

theorem Fits.length (h : Fits cols as) : as.length = cols.length := (List.Forall₂.length_eq h).symm

theorem Fits.take (h : Fits cols as) (n : Nat) : Fits (cols.take n) (as.take n) := forall₂_take n h

theorem Fits.drop (h : Fits cols as) (n : Nat) : Fits (cols.drop n) (as.drop n) := forall₂_drop n h

theorem Fits.append {cols' : List ColMeta} (h : Fits cols as) (h' : Fits cols' bs) :
    Fits (cols ++ cols') (as ++ bs) := rel_append h h'

theorem fits_map {f : ColMeta → List UInt8} (h : ∀ c ∈ cols, (f c).length = c.len) : Fits cols (cols.map f) := by
  rw [Fits, forall₂_map_right_iff]
  exact forall₂_same.2 h

theorem ixCompare_flatten (hcols : ∀ c ∈ cols, c.type ≠ .float) (ha : Fits cols as) (hb : Fits cols bs) :
    ixCompare (cols.map ColMeta.keyCol) as.flatten bs.flatten = cmpCols cols as bs := by
  induction ha generalizing bs with
  | nil => cases hb; rfl
  | @cons c a cols as hac has ih =>
    cases hb with
    | @cons _ b _ bs hbc hbs =>
      have hfloat := ColMeta.keyCol_ne_float (hcols c mem_cons_self)
      have hlen := c.keyCol_len
      have hfirst : ixCompareCol c.keyCol (a ++ as.flatten) (b ++ bs.flatten) = compare c a b := by
        rw [← ixCompareCol_take _ hfloat, hlen, ← hac, take_left, hac, ← hbc, take_left, compare]
      have hrest := ih (fun d hd => hcols d (mem_cons_of_mem _ hd)) hbs
      simp only [map_cons, flatten_cons, ixCompare, hfirst, cmpCols, hlen]
      rw [← hrest, ← hac, drop_left, hac, ← hbc, drop_left]

variable {ws : List (List UInt8)}

theorem cmpCols_append {rest : List (List UInt8)} (h : Fits cols as) (hws : ws.length ≤ cols.length) :
    cmpCols cols as (ws ++ rest) = if cmpCols cols as ws ≠ 0 then cmpCols cols as ws
      else cmpCols (cols.drop ws.length) (as.drop ws.length) rest := by
  induction ws generalizing cols as with
  | nil => cases h <;> simp [cmpCols]
  | cons w ws ih =>
    cases h with
    | nil => simp at hws
    | @cons c a cols as hac has =>
      by_cases hfirst : compare c a w = 0
      · have hrest := ih has (by simpa using hws)
        simpa [cmpCols, hfirst] using hrest
      · simp [cmpCols, hfirst]

theorem memcmp_zeros : ∀ (n : Nat) (a : List UInt8), 0 ≤ memcmp n a (List.replicate n 0)
  | 0, _ => by simp [memcmp]
  | n + 1, [] => by simp [memcmp]
  | n + 1, x :: a => by
    have := memcmp_zeros n a
    simp only [replicate_succ, memcmp]
    split_ifs with hlt
    · exact absurd hlt (by simp)
    · simp
    · exact this

theorem memcmp_ones : ∀ (n : Nat) (a : List UInt8), memcmp n a (List.replicate n 0xff) ≤ 0
  | 0, _ => by simp [memcmp]
  | n + 1, [] => by simp [memcmp]
  | n + 1, x :: a => by
    have := memcmp_ones n a
    simp only [replicate_succ, memcmp]
    split_ifs with hlt hgt
    · simp
    · rw [UInt8.lt_iff_toNat_lt] at hgt
      have := UInt8.toNat_lt x
      simp at hgt
      omega
    · exact this

variable {a : List UInt8}

theorem readInt_bounds (h : a.length = 4) : -2 ^ 31 ≤ readInt a ∧ readInt a ≤ 2 ^ 31 - 1 := by
  have hlt := leNat_lt (a.take 4)
  rw [length_take, h, Nat.min_self] at hlt
  simp only [readInt]
  split_ifs <;> omega

variable {c : ColMeta}

theorem minRaw_le (hc : c.type ≠ .float) (ha : a.length = c.len) :
    0 ≤ compare c a (minRaw c) := by
  rw [compare, ColMeta.keyCol, minRaw]
  cases ht : c.type with
  | int =>
    have hbounds := readInt_bounds (ha.trans (c.len_eq (by simp [ht])))
    have hmin : readInt (bytesOf 0x80000000) = -2 ^ 31 := by decide
    simp only [ixCompareCol, hmin]
    split_ifs <;> omega
  | float => exact absurd ht hc
  | string => exact memcmp_zeros _ _

theorem le_maxRaw (hc : c.type ≠ .float) (ha : a.length = c.len) :
    compare c a (maxRaw c) ≤ 0 := by
  rw [compare, ColMeta.keyCol, maxRaw]
  cases ht : c.type with
  | int =>
    have hbounds := readInt_bounds (ha.trans (c.len_eq (by simp [ht])))
    have hmax : readInt (bytesOf 0x7fffffff) = 2 ^ 31 - 1 := by decide
    simp only [ixCompareCol, hmax]
    split_ifs <;> omega
  | float => exact absurd ht hc
  | string => exact memcmp_ones _ _

theorem cmpCols_min (hcols : ∀ c ∈ cols, c.type ≠ .float) (ha : Fits cols as) : 0 ≤ cmpCols cols as (cols.map minRaw) := by
  induction ha with
  | nil => simp [cmpCols]
  | @cons c a cols as hac _ ih =>
    have hfirst := minRaw_le (hcols c mem_cons_self) hac
    have hrest := ih fun d hd => hcols d (mem_cons_of_mem _ hd)
    simp only [map_cons, cmpCols]
    split_ifs
    · exact hfirst
    · exact hrest

theorem cmpCols_max (hcols : ∀ c ∈ cols, c.type ≠ .float) (ha : Fits cols as) : cmpCols cols as (cols.map maxRaw) ≤ 0 := by
  induction ha with
  | nil => simp [cmpCols]
  | @cons c a cols as hac _ ih =>
    have hfirst := le_maxRaw (hcols c mem_cons_self) hac
    have hrest := ih fun d hd => hcols d (mem_cons_of_mem _ hd)
    simp only [map_cons, cmpCols]
    split_ifs
    · exact hfirst
    · exact hrest

theorem cmpCols_fill_min (hcols : ∀ c ∈ cols, c.type ≠ .float) (ha : Fits cols as) (hws : ws.length ≤ cols.length) :
    0 ≤ cmpCols cols as (ws ++ (cols.drop ws.length).map minRaw) ↔ 0 ≤ cmpCols cols as ws := by
  have hrest := cmpCols_min (fun c hc => hcols c (mem_of_mem_drop hc)) (ha.drop ws.length)
  rw [cmpCols_append ha hws]
  split_ifs with hne
  · rfl
  · simp only [ne_eq, not_not] at hne
    simp only [hne, le_refl, iff_true]
    exact hrest

theorem cmpCols_fill_max (hcols : ∀ c ∈ cols, c.type ≠ .float) (ha : Fits cols as) (hws : ws.length ≤ cols.length) :
    0 < cmpCols cols as (ws ++ (cols.drop ws.length).map maxRaw) ↔ 0 < cmpCols cols as ws := by
  have hrest := cmpCols_max (fun c hc => hcols c (mem_of_mem_drop hc)) (ha.drop ws.length)
  rw [cmpCols_append ha hws]
  split_ifs with hne
  · rfl
  · simp only [ne_eq, not_not] at hne
    simp only [hne]
    omega

end Columns

/-! ## Key buffers -/

section Buffers

variable {ix : IndexMeta} {raws : List (List UInt8)}

theorem flatMap_pad : ∀ {cols : List ColMeta} {pre raws : List (List UInt8)}, Fits cols raws →
    (((List.range' pre.length cols.length).zip cols).flatMap fun (i, c) =>
      (List.range c.len).map fun j => ((pre ++ raws).getD i []).getD j 0) = raws.flatten
  | [], _, _, .nil => by simp
  | c :: cols, pre, w :: raws, .cons hw hraws => by
    have hrest := @flatMap_pad cols (pre ++ [w]) raws hraws
    have hfirst : ((List.range c.len).map fun j => ((pre ++ w :: raws).getD pre.length []).getD j 0) = w := by
      refine ext_getElem (by simp [hw]) fun j hj hj' => ?_
      simp [hj']
    rw [length_append, length_singleton, append_assoc, singleton_append] at hrest
    rw [length_cons, List.range'_succ, zip_cons_cons, flatMap_cons, flatten_cons]
    simp only at hfirst ⊢
    rw [hfirst, hrest]

theorem keyOf_bytes (h : Fits ix.cols raws) : (keyOf ix raws).bytes = raws.flatten := by
  have := @flatMap_pad ix.cols [] raws h
  rw [length_nil, ← range_eq_range'] at this
  exact this

def valuesOf (ix : IndexMeta) (key : Key ix.keyCols) : List (List UInt8) :=
  (columns ix.keyCols key.bytes).map ColValue.raw

theorem columns_flatten : ∀ {cols : List ColMeta} {bs : List UInt8}, bs.length = colTotLen (cols.map ColMeta.keyCol) →
    Fits cols ((columns (cols.map ColMeta.keyCol) bs).map ColValue.raw) ∧
      ((columns (cols.map ColMeta.keyCol) bs).map ColValue.raw).flatten = bs
  | [], bs, h => ⟨.nil, (eq_nil_of_length_eq_zero h).symm⟩
  | c :: cols, bs, h => by
    rw [map_cons, colTotLen_cons, c.keyCol_len] at h
    obtain ⟨hfits, hflat⟩ := @columns_flatten cols (bs.drop c.len) (by simp; omega)
    simp only [map_cons, columns, flatten_cons, c.keyCol_len]
    exact ⟨.cons (by simp; omega) hfits, by rw [hflat, take_append_drop]⟩

theorem fits_valuesOf (key : Key ix.keyCols) : Fits ix.cols (valuesOf ix key) := (columns_flatten key.length_eq).1

theorem flatten_valuesOf (key : Key ix.keyCols) : (valuesOf ix key).flatten = key.bytes :=
  (columns_flatten key.length_eq).2

theorem ixCmp_keyOf (h : Fits ix.cols raws) (key : Key ix.keyCols) :
    ixCmp key (keyOf ix raws) = cmpCols ix.cols (valuesOf ix key) raws := by
  rw [← ixCompare_flatten ix.noFloat (fits_valuesOf key) h, flatten_valuesOf, ← keyOf_bytes h]
  rfl

variable {fill : ColMeta → List UInt8}

theorem setRemaining_eq (h : Fits ix.cols raws) (n : Nat) :
    setRemaining fill ix n raws = raws.take n ++ (ix.cols.drop n).map fill := by
  have hlen := h.length
  refine ext_getElem (by simp [setRemaining]; omega) fun i hi hi' => ?_
  simp only [setRemaining, getElem_mapIdx]
  simp only [setRemaining, length_mapIdx] at hi
  by_cases hn : n ≤ i
  · rw [if_pos hn, getElem_append_right (by simp; omega)]
    simp only [length_take, getElem_map, getElem_drop]
    congr 2
    omega
  · rw [if_neg hn, getElem_append_left (by simp; omega)]
    simp [getD_eq_getElem?_getD, List.getElem?_eq_getElem (by omega : i < raws.length)]

theorem length_minRaw (c : ColMeta) : (minRaw c).length = c.len := by
  rw [minRaw]
  cases ht : c.type with
  | string => simp
  | _ => rw [c.len_eq (by simp [ht])]; rfl

theorem length_maxRaw (c : ColMeta) : (maxRaw c).length = c.len := by
  rw [maxRaw]
  cases ht : c.type with
  | string => simp
  | _ => rw [c.len_eq (by simp [ht])]; rfl

theorem fits_fill (hfill : ∀ c, (fill c).length = c.len) (h : Fits ix.cols raws) (n : Nat) :
    Fits ix.cols (setRemaining fill ix n raws) ∧
      setRemaining fill ix n raws = raws.take n ++ (ix.cols.drop (raws.take n).length).map fill := by
  have hdrop : ix.cols.drop n = ix.cols.drop (raws.take n).length := by
    rw [length_take, h.length]
    rcases Nat.le_total n ix.cols.length with hle | hle
    · rw [Nat.min_eq_left hle]
    · rw [Nat.min_eq_right hle, drop_of_length_le hle, drop_length]
  have hfits := (h.take n).append (@fits_map (ix.cols.drop n) fill fun c _ => hfill c)
  rw [take_append_drop] at hfits
  rw [setRemaining_eq h]
  exact ⟨hfits, by rw [hdrop]⟩

def isBehind (cols : List ColMeta) (strict : Bool) (consts vals : List (List UInt8)) : Bool :=
  if strict then 0 < cmpCols cols vals consts else 0 ≤ cmpCols cols vals consts

variable {s : IxIndexHandle (Key ix.keyCols) (btreeOrder ix.keyCols)} {L : List (Block (Key ix.keyCols))}
  {Us : List (List (Block (Key ix.keyCols)))}

theorem cut_min (t : Tree s L Us) (h : Fits ix.cols raws) (n : Nat) :
    ∃ iid, s.lowerBound (keyOf ix (setRemaining minRaw ix n raws)) = some iid ∧
      Cut L (fun key => isBehind ix.cols false (raws.take n) (valuesOf ix key)) iid := by
  refine t.cut_lowerBound ix.order fun key => ?_
  obtain ⟨hfits, hfill⟩ := fits_fill length_minRaw h n
  have hlen : (raws.take n).length ≤ ix.cols.length := by simp [h.length]
  rw [← ixCmp_ge_zero, ixCmp_keyOf hfits, hfill, cmpCols_fill_min ix.noFloat (fits_valuesOf key) hlen]
  simp [isBehind]

theorem cut_max (t : Tree s L Us) (h : Fits ix.cols raws) (n : Nat) :
    ∃ iid, s.upperBound (keyOf ix (setRemaining maxRaw ix n raws)) = some iid ∧
      Cut L (fun key => isBehind ix.cols true (raws.take n) (valuesOf ix key)) iid := by
  refine t.cut_upperBound ix.order fun key => ?_
  obtain ⟨hfits, hfill⟩ := fits_fill length_maxRaw h n
  have hlen : (raws.take n).length ≤ ix.cols.length := by simp [h.length]
  rw [← ixCmp_gt_zero, ixCmp_keyOf hfits, hfill, cmpCols_fill_max ix.noFloat (fits_valuesOf key) hlen]
  simp [isBehind]

theorem cut_key (t : Tree s L Us) (h : Fits ix.cols raws) :
    (∃ iid, s.lowerBound (keyOf ix raws) = some iid ∧
      Cut L (fun key => isBehind ix.cols false raws (valuesOf ix key)) iid) ∧
    ∃ iid, s.upperBound (keyOf ix raws) = some iid ∧
      Cut L (fun key => isBehind ix.cols true raws (valuesOf ix key)) iid := by
  refine ⟨t.cut_lowerBound ix.order fun key => ?_, t.cut_upperBound ix.order fun key => ?_⟩
  · rw [← ixCmp_ge_zero, ixCmp_keyOf h]
    simp [isBehind]
  · rw [← ixCmp_gt_zero, ixCmp_keyOf h]
    simp [isBehind]

end Buffers

end Rmdb.Execution
