/-
The bytes of a page of records.

Behind the page's header come a bitmap with one bit for each slot, the highest
bit of a byte first, and then the slots. A bit is changed without the others of
its byte, and a slot is written without the bitmap and the other slots.
-/
import Rmdb.Record.Heap

namespace Rmdb.Record

open Function

abbrev Bytes := Nat → UInt8

namespace Bytes

def memcpy (data : Bytes) (offset : Nat) (buf : List UInt8) (len : Nat) : Bytes :=
  fun i => if offset ≤ i ∧ i < offset + len then buf.getD (i - offset) 0 else data i

def slice (data : Bytes) (offset len : Nat) : List UInt8 := (List.range len).map fun i => data (offset + i)

theorem slice_congr {data data' : Bytes} {offset len : Nat}
    (h : ∀ i, offset ≤ i → i < offset + len → data' i = data i) :
    data'.slice offset len = data.slice offset len := by
  refine List.map_congr_left fun i hi => ?_
  have := List.mem_range.1 hi
  exact h _ (by omega) (by omega)

theorem slice_memcpy (data : Bytes) (offset : Nat) (buf : List UInt8) :
    (data.memcpy offset buf buf.length).slice offset buf.length = buf := by
  refine List.ext_getElem (by simp [slice]) fun i hi hi' => ?_
  have hin : offset ≤ offset + i ∧ offset + i < offset + buf.length := by omega
  simp only [slice, memcpy, List.getElem_map, List.getElem_range, if_pos hin, Nat.add_sub_cancel_left,
    List.getD_eq_getElem?_getD, List.getElem?_eq_getElem hi', Option.getD_some]

theorem memcpy_of_lt (data : Bytes) {offset len i : Nat} (buf : List UInt8) (h : i < offset ∨ offset + len ≤ i) :
    data.memcpy offset buf len i = data i := if_neg (by omega)

end Bytes

/-! ## The bitmap -/

namespace Bitmap

def getBit (pos : Nat) : UInt8 := 0x80 >>> UInt8.ofNat (pos % bitmapWidth)

def set (bm : Bytes) (pos : Nat) : Bytes :=
  update bm (pos / bitmapWidth) (bm (pos / bitmapWidth) ||| getBit pos)

def reset (bm : Bytes) (pos : Nat) : Bytes :=
  update bm (pos / bitmapWidth) (bm (pos / bitmapWidth) &&& ~~~ getBit pos)

def isSet (bm : Bytes) (pos : Nat) : Bool := bm (pos / bitmapWidth) &&& getBit pos != 0

def firstBit (bit : Bool) (bm : Bytes) (maxN : Nat) : Nat :=
    ((List.range maxN).find? fun i => isSet bm i = bit).getD maxN

variable {bm : Bytes} {p q : Nat}

theorem getBit_facts : ∀ i j : Fin 8, getBit i ≠ 0 ∧
    (i ≠ j → getBit i &&& getBit j = 0 ∧ ~~~ getBit i &&& getBit j = getBit j) := by
  decide

theorem getBit_mod (p : Nat) : getBit (p % bitmapWidth) = getBit p := by
  rw [getBit, getBit, Nat.mod_mod]

theorem getBit_ne_zero (p : Nat) : getBit p ≠ 0 :=
  getBit_mod p ▸ (getBit_facts ⟨p % bitmapWidth, Nat.mod_lt _ (by decide)⟩ 0).1

theorem getBit_of_ne (h : p % bitmapWidth ≠ q % bitmapWidth) :
    getBit p &&& getBit q = 0 ∧ ~~~ getBit p &&& getBit q = getBit q := by
  have := (getBit_facts ⟨p % bitmapWidth, Nat.mod_lt _ (by decide)⟩ ⟨q % bitmapWidth, Nat.mod_lt _ (by decide)⟩).2
    fun heq => h (congrArg Fin.val heq)
  simpa only [getBit_mod] using this

theorem or_and_distrib (a b c : UInt8) : (a ||| b) &&& c = a &&& c ||| b &&& c := by
  apply UInt8.toBitVec_inj.1
  simp only [UInt8.toBitVec_and, UInt8.toBitVec_or, BitVec.and_or_distrib_right]

@[simp] theorem isSet_set_self (bm : Bytes) (p : Nat) : isSet (set bm p) p = true := by
  have hne := getBit_ne_zero p
  simp only [isSet, set, update_self, or_and_distrib, UInt8.and_self, bne_iff_ne, ne_eq, UInt8.or_eq_zero_iff]
  exact fun h => hne h.2

@[simp] theorem isSet_reset_self (bm : Bytes) (p : Nat) : isSet (reset bm p) p = false := by
  simp [isSet, reset, UInt8.and_assoc]

theorem isSet_set_of_ne (h : q ≠ p) : isSet (set bm p) q = isSet bm q := by
  by_cases hbucket : q / bitmapWidth = p / bitmapWidth
  · have hmod : p % bitmapWidth ≠ q % bitmapWidth := fun hmod => h (by
      rw [← Nat.div_add_mod q bitmapWidth, ← Nat.div_add_mod p bitmapWidth, hbucket, hmod])
    simp only [isSet, set, hbucket, update_self, or_and_distrib, (getBit_of_ne hmod).1, UInt8.or_zero]
  · simp only [isSet, set, update_of_ne hbucket]

theorem isSet_reset_of_ne (h : q ≠ p) : isSet (reset bm p) q = isSet bm q := by
  by_cases hbucket : q / bitmapWidth = p / bitmapWidth
  · have hmod : p % bitmapWidth ≠ q % bitmapWidth := fun hmod => h (by
      rw [← Nat.div_add_mod q bitmapWidth, ← Nat.div_add_mod p bitmapWidth, hbucket, hmod])
    simp only [isSet, reset, hbucket, update_self, UInt8.and_assoc, (getBit_of_ne hmod).2]
  · simp only [isSet, reset, update_of_ne hbucket]

theorem isSet_congr {bm' : Bytes} (h : bm' (p / bitmapWidth) = bm (p / bitmapWidth)) : isSet bm' p = isSet bm p := by
  rw [isSet, isSet, h]

end Bitmap

/-! ## Slots -/

/-- `record_size`, `num_records_per_page` and `bitmap_size`, as `create_file` sets them. -/
structure Layout where
  recordSize : Nat
  numRecordsPerPage : Nat
  bitmapSize : Nat

namespace Layout

def make (recordSize : Nat) : Layout :=
  let n := (bitmapWidth * (pageSize - 1 - sizeofFileHdr) + 1) / (1 + recordSize * bitmapWidth)
  ⟨recordSize, n, (n + bitmapWidth - 1) / bitmapWidth⟩

variable (L : Layout)

def slotAt (slotNo : Nat) : Nat := L.bitmapSize + slotNo * L.recordSize

def getSlot (data : Bytes) (slotNo : Nat) : List UInt8 := data.slice (L.slotAt slotNo) L.recordSize

def putSlot (data : Bytes) (slotNo : Nat) (buf : List UInt8) : Bytes :=
  data.memcpy (L.slotAt slotNo) buf L.recordSize

def Covers : Prop := ∀ i < L.numRecordsPerPage, i / bitmapWidth < L.bitmapSize

def sizeofPageHdr : Nat := 12

theorem make_covers (recordSize : Nat) : (make recordSize).Covers := by
  intro i hi
  simp only [make, bitmapWidth] at hi ⊢
  omega

theorem make_fits (recordSize : Nat) :
    sizeofPageHdr + (make recordSize).slotAt (make recordSize).numRecordsPerPage ≤ pageSize := by
  have hdiv := Nat.div_mul_le_self (bitmapWidth * (pageSize - 1 - sizeofFileHdr) + 1) (1 + recordSize * bitmapWidth)
  simp only [slotAt, make, sizeofPageHdr]
  generalize (bitmapWidth * (pageSize - 1 - sizeofFileHdr) + 1) / (1 + recordSize * bitmapWidth) = n at hdiv ⊢
  simp only [bitmapWidth, pageSize, sizeofFileHdr] at hdiv ⊢
  have hexpand : n * (1 + recordSize * 8) = n + 8 * (n * recordSize) := by ring
  omega

variable {L} {data : Bytes} {i j : Nat} {buf : List UInt8}

theorem slotAt_le (h : i < j) : L.slotAt i + L.recordSize ≤ L.slotAt j := by
  have := Nat.mul_le_mul_right L.recordSize (Nat.succ_le_of_lt h)
  simp only [slotAt, Nat.succ_mul] at this ⊢
  omega

theorem getSlot_putSlot_self (hbuf : buf.length = L.recordSize) : L.getSlot (L.putSlot data i buf) i = buf := by
  rw [getSlot, putSlot, ← hbuf]
  exact Bytes.slice_memcpy data _ buf

theorem getSlot_putSlot_of_ne (h : j ≠ i) : L.getSlot (L.putSlot data i buf) j = L.getSlot data j := by
  refine Bytes.slice_congr fun k hk hk' => Bytes.memcpy_of_lt data buf ?_
  rcases Nat.lt_or_gt_of_ne h with h | h
  · have := L.slotAt_le h
    omega
  · have := L.slotAt_le h
    omega

theorem isSet_putSlot (hj : j / bitmapWidth < L.bitmapSize) :
    Bitmap.isSet (L.putSlot data i buf) j = Bitmap.isSet data j := by
  refine Bitmap.isSet_congr (Bytes.memcpy_of_lt data buf (.inl ?_))
  simp only [slotAt]
  omega

theorem getSlot_set (hi : i / bitmapWidth < L.bitmapSize) : L.getSlot (Bitmap.set data i) j = L.getSlot data j := by
  refine Bytes.slice_congr fun k hk _ => update_of_ne ?_ _ _
  simp only [slotAt] at hk
  omega

theorem getSlot_reset (hi : i / bitmapWidth < L.bitmapSize) : L.getSlot (Bitmap.reset data i) j = L.getSlot data j := by
  refine Bytes.slice_congr fun k hk _ => update_of_ne ?_ _ _
  simp only [slotAt] at hk
  omega

end Layout

end Rmdb.Record
