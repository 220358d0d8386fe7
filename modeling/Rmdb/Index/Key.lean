/-
Index keys and their order: the key columns of an index, the bytes of a key,
and `ix_compare`, which compares two keys column by column.

A NaN is neither less nor greater than any `float`, so `ix_compare` takes it for
equal to all of them, and it takes the two zeros for equal: on bytes at large it
is no order. Without NaNs and negative zeros (`Key`) a key is injectively encoded
as a list of integers (`encode`) on which `ix_compare` is the lexicographic order.
-/
import Mathlib.Tactic

namespace Rmdb.Index

open List

inductive KeyCol
  | int
  | float
  | char (n : Nat)
  deriving DecidableEq, Repr

def KeyCol.len : KeyCol → Nat
  | .int => 4
  | .float => 4
  | .char n => n

def colTotLen (cols : List KeyCol) : Nat := (cols.map KeyCol.len).sum

@[simp] theorem colTotLen_nil : colTotLen [] = 0 := rfl
@[simp] theorem colTotLen_cons (c : KeyCol) (cs : List KeyCol) :
    colTotLen (c :: cs) = c.len + colTotLen cs := by simp [colTotLen]

structure RawKey (cols : List KeyCol) where
  bytes : List UInt8
  length_eq : bytes.length = colTotLen cols
  deriving DecidableEq

def leNat : List UInt8 → Nat
  | [] => 0
  | b :: bs => b.toNat + 256 * leNat bs

def readInt (a : List UInt8) : Int :=
  let n := leNat (a.take 4)
  if n < 2 ^ 31 then n else (n : Int) - 2 ^ 32

/-- A `float` without its rounding: the sign and the other 31 bits, which grow with the number. -/
def readFloat (a : List UInt8) : Int :=
  let n := leNat (a.take 4)
  if n < 2 ^ 31 then n else 2 ^ 31 - (n : Int)

def isNaN (a : List UInt8) : Bool := 0x7f800000 < leNat (a.take 4) % 2 ^ 31

def isNegZero (a : List UInt8) : Bool := leNat (a.take 4) = 2 ^ 31

/-- `memcmp(a, b, n)`, with its results normalised to a sign. -/
def memcmp : Nat → List UInt8 → List UInt8 → Int
  | n + 1, x :: xs, y :: ys => if x < y then -1 else if y < x then 1 else memcmp n xs ys
  | _, _, _ => 0

def ixCompareCol : KeyCol → List UInt8 → List UInt8 → Int
  | .int, a, b => if readInt a < readInt b then -1 else if readInt a > readInt b then 1 else 0
  | .float, a, b =>
    if isNaN a || isNaN b then 0
    else if readFloat a < readFloat b then -1 else if readFloat a > readFloat b then 1 else 0
  | .char n, a, b => memcmp n a b

/-- `ix_compare`: the first column that differs decides. -/
def ixCompare : List KeyCol → List UInt8 → List UInt8 → Int
  | [], _, _ => 0
  | c :: cs, a, b =>
    let res := ixCompareCol c a b
    if res ≠ 0 then res else ixCompare cs (a.drop c.len) (b.drop c.len)

/-! ## The order of the keys -/

/-- No `FLOAT` column has a NaN or a negative zero. -/
def ordered : List KeyCol → List UInt8 → Bool
  | [], _ => true
  | .float :: cs, a => !isNaN a && !isNegZero a && ordered cs (a.drop 4)
  | .int :: cs, a => ordered cs (a.drop 4)
  | .char n :: cs, a => ordered cs (a.drop n)

structure Key (cols : List KeyCol) where
  bytes : List UInt8
  length_eq : bytes.length = colTotLen cols
  ordered : ordered cols bytes = true

def Key.toRawKey {cols : List KeyCol} (k : Key cols) : RawKey cols := ⟨k.bytes, k.length_eq⟩

theorem ordered_of_forall_ne : ∀ {cols : List KeyCol} (a : List UInt8), (∀ c ∈ cols, c ≠ .float) → ordered cols a = true
  | [], _, _ => rfl
  | .float :: _, _, h => absurd rfl (h .float mem_cons_self)
  | .int :: _, a, h => ordered_of_forall_ne (a.drop 4) fun c hc => h c (mem_cons_of_mem _ hc)
  | .char n :: _, a, h => ordered_of_forall_ne (a.drop n) fun c hc => h c (mem_cons_of_mem _ hc)

def encode : List KeyCol → List UInt8 → List Int
  | [], _ => []
  | .int :: cs, a => readInt a :: encode cs (a.drop 4)
  | .float :: cs, a => readFloat a :: encode cs (a.drop 4)
  | .char n :: cs, a => ((a.take n).map fun b => (b.toNat : Int)) ++ encode cs (a.drop n)

theorem leNat_lt (bs : List UInt8) : leNat bs < 256 ^ bs.length := by
  induction bs with
  | nil => simp [leNat]
  | cons b bs ih =>
    have hb : b.toNat < 256 := UInt8.toNat_lt b
    simp only [leNat, length_cons, pow_succ]
    omega

theorem leNat_inj : ∀ {as bs : List UInt8}, as.length = bs.length → leNat as = leNat bs → as = bs
  | [], [], _, _ => rfl
  | [], _ :: _, h, _ => by simp at h
  | _ :: _, [], h, _ => by simp at h
  | a :: as, b :: bs, hl, h => by
    have ha : a.toNat < 256 := UInt8.toNat_lt a
    have hb : b.toNat < 256 := UInt8.toNat_lt b
    simp only [leNat] at h
    have hab : a = b := UInt8.toNat_inj.1 (by omega)
    subst hab
    rw [leNat_inj (by simpa using hl) (by omega : leNat as = leNat bs)]

theorem readInt_inj {a b : List UInt8} (ha : 4 ≤ a.length) (hb : 4 ≤ b.length)
    (h : readInt a = readInt b) : a.take 4 = b.take 4 := by
  have la := leNat_lt (a.take 4)
  have lb := leNat_lt (b.take 4)
  rw [length_take_of_le ha] at la
  rw [length_take_of_le hb] at lb
  refine leNat_inj (by rw [length_take_of_le ha, length_take_of_le hb]) ?_
  simp only [readInt] at h
  split at h <;> split at h <;> omega

/-- Only the two zeros are read as the same number. -/
theorem readFloat_inj {a b : List UInt8} (ha : 4 ≤ a.length) (hb : 4 ≤ b.length) (hna : isNegZero a = false)
    (hnb : isNegZero b = false) (h : readFloat a = readFloat b) : a.take 4 = b.take 4 := by
  refine leNat_inj (by rw [length_take_of_le ha, length_take_of_le hb]) ?_
  simp only [isNegZero, decide_eq_false_iff_not] at hna hnb
  simp only [readFloat] at h
  split at h <;> split at h <;> omega

theorem encode_inj : ∀ (cols : List KeyCol) {a b : List UInt8}, a.length = colTotLen cols →
    b.length = colTotLen cols → ordered cols a = true → ordered cols b = true → encode cols a = encode cols b → a = b
  | [], a, b, ha, hb, _, _, _ => by
    rw [eq_nil_of_length_eq_zero ha, eq_nil_of_length_eq_zero hb]
  | .int :: cs, a, b, ha, hb, hoa, hob, h => by
    simp only [colTotLen_cons, KeyCol.len] at ha hb
    simp only [encode, List.cons.injEq] at h
    rw [← take_append_drop 4 a, ← take_append_drop 4 b,
      readInt_inj (by omega) (by omega) h.1,
      encode_inj cs (by simp; omega) (by simp; omega) hoa hob h.2]
  | .float :: cs, a, b, ha, hb, hoa, hob, h => by
    simp only [colTotLen_cons, KeyCol.len] at ha hb
    simp only [ordered, Bool.and_eq_true, Bool.not_eq_true'] at hoa hob
    simp only [encode, List.cons.injEq] at h
    rw [← take_append_drop 4 a, ← take_append_drop 4 b,
      readFloat_inj (by omega) (by omega) hoa.1.2 hob.1.2 h.1,
      encode_inj cs (by simp; omega) (by simp; omega) hoa.2 hob.2 h.2]
  | .char n :: cs, a, b, ha, hb, hoa, hob, h => by
    simp only [colTotLen_cons, KeyCol.len] at ha hb
    simp only [encode] at h
    obtain ⟨h1, h2⟩ := append_inj h (by simp; omega)
    have h1 : a.take n = b.take n := by
      refine map_injective_iff.2 (fun x y hxy => ?_) h1
      exact UInt8.toNat_inj.1 (by simpa using hxy)
    rw [← take_append_drop n a, ← take_append_drop n b, h1,
      encode_inj cs (by simp; omega) (by simp; omega) hoa hob h2]

theorem uint8_lt_iff (x y : UInt8) : x < y ↔ (x.toNat : Int) < y.toNat := by
  rw [UInt8.lt_iff_toNat_lt]; omega

/-- `memcmp` on a prefix decides the encoded order, or leaves it to the rest. -/
theorem memcmp_encode : ∀ {n : Nat} {a b : List UInt8} {u v : List Int}, n ≤ a.length → n ≤ b.length →
    ((((a.take n).map fun b => (b.toNat : Int)) ++ u < ((b.take n).map fun b => (b.toNat : Int)) ++ v) ↔
      memcmp n a b < 0 ∨ (memcmp n a b = 0 ∧ u < v))
  | 0, a, b, u, v, _, _ => by simp [memcmp]
  | n + 1, [], _, _, _, h, _ => by simp at h
  | n + 1, _ :: _, [], _, _, _, h => by simp at h
  | n + 1, x :: a, y :: b, u, v, ha, hb => by
    have ih := memcmp_encode (n := n) (a := a) (b := b) (u := u) (v := v)
      (by simpa using ha) (by simpa using hb)
    simp only [take_succ_cons, map_cons, cons_append, cons_lt_cons_iff, ih, memcmp]
    by_cases h1 : x < y
    · simp [h1, (uint8_lt_iff x y).1 h1]
    by_cases h2 : y < x
    · have h3 := (uint8_lt_iff y x).1 h2
      simp [h1, h2]
      omega
    · rw [uint8_lt_iff] at h1 h2
      have hxy : (x.toNat : Int) = y.toNat := by omega
      simp [uint8_lt_iff, hxy]

theorem ixCompare_neg_iff : ∀ (cols : List KeyCol) {a b : List UInt8}, a.length = colTotLen cols →
    b.length = colTotLen cols → ordered cols a = true → ordered cols b = true →
    (ixCompare cols a b < 0 ↔ encode cols a < encode cols b)
  | [], a, b, _, _, _, _ => by simp [ixCompare, encode]
  | .int :: cs, a, b, ha, hb, hoa, hob => by
    simp only [colTotLen_cons, KeyCol.len] at ha hb
    have ih := ixCompare_neg_iff cs (a := a.drop 4) (b := b.drop 4) (by simp; omega) (by simp; omega) hoa hob
    simp only [ixCompare, ixCompareCol, encode, cons_lt_cons_iff, KeyCol.len, ← ih]
    split_ifs <;> omega
  | .float :: cs, a, b, ha, hb, hoa, hob => by
    simp only [colTotLen_cons, KeyCol.len] at ha hb
    simp only [ordered, Bool.and_eq_true, Bool.not_eq_true'] at hoa hob
    have ih := ixCompare_neg_iff cs (a := a.drop 4) (b := b.drop 4) (by simp; omega) (by simp; omega) hoa.2 hob.2
    simp only [ixCompare, ixCompareCol, hoa.1.1, hob.1.1, Bool.or_self, Bool.false_eq_true, if_false, encode,
      cons_lt_cons_iff, KeyCol.len, ← ih]
    split_ifs <;> omega
  | .char n :: cs, a, b, ha, hb, hoa, hob => by
    simp only [colTotLen_cons, KeyCol.len] at ha hb
    have ih := ixCompare_neg_iff cs (a := a.drop n) (b := b.drop n) (by simp; omega) (by simp; omega) hoa hob
    rw [encode, encode, memcmp_encode (by omega) (by omega), ← ih]
    simp only [ixCompare, ixCompareCol, KeyCol.len]
    split_ifs <;> omega

theorem memcmp_swap : ∀ (n : Nat) (a b : List UInt8), memcmp n b a = -memcmp n a b
  | 0, a, b => by simp [memcmp]
  | n + 1, [], b => by cases b <;> simp [memcmp]
  | n + 1, _ :: _, [] => by simp [memcmp]
  | n + 1, x :: a, y :: b => by
    simp only [memcmp, memcmp_swap n a b]
    by_cases h1 : x < y
    · have h2 : ¬ y < x := by rw [uint8_lt_iff] at h1 ⊢; omega
      simp [h1, h2]
    · by_cases h2 : y < x <;> simp [h1, h2]

theorem eq_of_memcmp : ∀ {n : Nat} {a b : List UInt8}, a.length = n → b.length = n → memcmp n a b = 0 → a = b
  | 0, [], [], _, _, _ => rfl
  | n + 1, x :: a, y :: b, ha, hb, h => by
    unfold memcmp at h
    split_ifs at h with hxy hyx
    · cases h
    · rw [eq_of_memcmp (by simpa using ha) (by simpa using hb) h,
        UInt8.le_antisymm (UInt8.not_lt.1 hyx) (UInt8.not_lt.1 hxy)]

theorem ixCompareCol_swap (c : KeyCol) (a b : List UInt8) : ixCompareCol c b a = -ixCompareCol c a b := by
  cases c with
  | int => simp only [ixCompareCol]; split_ifs <;> omega
  | float => simp only [ixCompareCol, Bool.or_comm (isNaN b)]; split_ifs <;> omega
  | char n => exact memcmp_swap n a b

theorem eq_of_ixCompareCol {c : KeyCol} (hc : c ≠ .float) {a b : List UInt8} (ha : a.length = c.len)
    (hb : b.length = c.len) (h : ixCompareCol c a b = 0) : a = b := by
  cases c with
  | int =>
    have ha : a.length = 4 := ha
    have hb : b.length = 4 := hb
    have heq : readInt a = readInt b := by
      simp only [ixCompareCol] at h
      split_ifs at h <;> omega
    have hbytes := readInt_inj ha.ge hb.ge heq
    rwa [take_of_length_le ha.le, take_of_length_le hb.le] at hbytes
  | float => exact absurd rfl hc
  | char n => exact eq_of_memcmp ha hb h

theorem ixCompare_swap : ∀ (cols : List KeyCol) (a b : List UInt8), ixCompare cols b a = -ixCompare cols a b
  | [], a, b => by simp [ixCompare]
  | c :: cs, a, b => by
    simp only [ixCompare, ixCompareCol_swap c a b, ixCompare_swap cs (a.drop c.len) (b.drop c.len)]
    split_ifs <;> omega

/-! ## Keys as a linear order -/

class IxCmp (κ : Type) where
  ixCmp : κ → κ → Int

export IxCmp (ixCmp)

class IxOrder (κ : Type) extends LinearOrder κ, IxCmp κ where
  ixCmp_neg : ∀ a b, ixCmp a b < 0 ↔ a < b
  ixCmp_pos : ∀ a b, 0 < ixCmp a b ↔ b < a

section
variable {κ : Type} [IxOrder κ] {a b : κ}

@[simp] theorem ixCmp_lt_zero : ixCmp a b < 0 ↔ a < b := IxOrder.ixCmp_neg a b

@[simp] theorem ixCmp_le_zero : ixCmp a b ≤ 0 ↔ a ≤ b := by
  rw [← not_lt, IxOrder.ixCmp_pos a b, not_lt]

@[simp] theorem ixCmp_gt_zero : 0 < ixCmp a b ↔ b < a := IxOrder.ixCmp_pos a b

@[simp] theorem ixCmp_ge_zero : 0 ≤ ixCmp a b ↔ b ≤ a := by
  rw [← not_lt, IxOrder.ixCmp_neg a b, not_lt]

@[simp] theorem ixCmp_eq_zero : ixCmp a b = 0 ↔ a = b := by
  have h1 := IxOrder.ixCmp_neg a b
  have h2 := IxOrder.ixCmp_pos a b
  constructor
  · intro h
    exact le_antisymm (not_lt.1 fun hlt => by have := h2.2 hlt; omega)
      (not_lt.1 fun hlt => by have := h1.2 hlt; omega)
  · rintro rfl
    have := mt h1.1 (lt_irrefl a)
    have := mt h2.1 (lt_irrefl a)
    omega

end

instance : IxOrder Int where
  ixCmp a b := if a < b then -1 else if a > b then 1 else 0
  ixCmp_neg a b := by split_ifs <;> simp_all
  ixCmp_pos a b := by
    split_ifs <;> simp_all
    omega

theorem Key.encode_injective (cols : List KeyCol) :
    Function.Injective fun k : Key cols => encode cols k.bytes := fun a b h => by
  have hbytes := encode_inj cols a.length_eq b.length_eq a.ordered b.ordered h
  obtain ⟨_, _, _⟩ := a
  obtain ⟨_, _, _⟩ := b
  cases hbytes
  rfl

instance (cols : List KeyCol) : IxCmp (RawKey cols) where
  ixCmp a b := ixCompare cols a.bytes b.bytes

instance (cols : List KeyCol) : IxOrder (Key cols) where
  toLinearOrder := LinearOrder.lift' _ (Key.encode_injective cols)
  ixCmp a b := ixCmp a.toRawKey b.toRawKey
  ixCmp_neg a b := ixCompare_neg_iff cols a.length_eq b.length_eq a.ordered b.ordered
  ixCmp_pos a b := by
    have h := ixCompare_neg_iff cols b.length_eq a.length_eq b.ordered a.ordered
    rw [ixCompare_swap] at h
    exact ⟨fun h' => h.1 (by simp only [ixCmp, Key.toRawKey] at h'; omega), fun h' => by
      have := h.2 h'
      simp only [ixCmp, Key.toRawKey]
      omega⟩

end Rmdb.Index
