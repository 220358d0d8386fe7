/-
The header of an index file and its bytes.

The types and the lengths of the key columns stand between numbers of four bytes
each, so where a later field lies depends on `col_num_`. `update_tot_len` has
the length of the whole, and the writer and the reader end with a test of it.
-/
import Rmdb.Recovery.LogRecord

namespace Rmdb.Index

open List Option Recovery

structure IxFileHdr where
  totLen : Int := 0
  firstFreePageNo : Int := 0
  numPages : Int := 0
  rootPage : Int := 0
  colNum : Int := 0
  colTypes : List ColType := []
  colLens : List Int := []
  colTotLen : Int := 0
  btreeOrder : Int := 0
  keysSize : Int := 0
  firstLeaf : Int := 0
  lastLeaf : Int := 0
  deriving DecidableEq

def typeNum : ColType → Int
  | .int => 0
  | .float => 1
  | .string => 2

def numType (n : Int) : Option ColType :=
  if n = 0 then some .int else if n = 1 then some .float else if n = 2 then some .string else none

namespace IxFileHdr

def updateTotLen (hdr : IxFileHdr) : IxFileHdr :=
  { hdr with totLen := wrapInt (4 * 4 + 4 * 6 + (4 * hdr.colNum + 4 * hdr.colNum)) }

theorem totLen_updateTotLen (hdr : IxFileHdr) : hdr.updateTotLen.totLen = wrapInt (40 + 8 * hdr.colNum) := by
  show wrapInt _ = _
  congr 1
  omega

/-! ## Writing -/

structure Writer where
  bytes : List UInt8 := []
  offset : Int := 0

def Writer.put (w : Writer) (field : Int) : Option Writer :=
  if 0 ≤ w.offset then some ⟨w.bytes ++ int32 field, wrapInt (w.offset + 4)⟩ else none

/-- The bytes that are written; `none` when the assertion at the end fails. -/
def serialize (hdr : IxFileHdr) : Option (List UInt8) := do
  let w ← Writer.put {} hdr.totLen
  let w ← w.put hdr.firstFreePageNo
  let w ← w.put hdr.numPages
  let w ← w.put hdr.rootPage
  let w ← w.put hdr.colNum
  -- `i < col_num_`
  let w ← ((hdr.colTypes.take hdr.colNum.toNat).map typeNum).foldlM Writer.put w
  let w ← (hdr.colLens.take hdr.colNum.toNat).foldlM Writer.put w
  let w ← w.put hdr.colTotLen
  let w ← w.put hdr.btreeOrder
  let w ← w.put hdr.keysSize
  let w ← w.put hdr.firstLeaf
  let w ← w.put hdr.lastLeaf
  if w.offset = hdr.totLen then some w.bytes else none

/-! ## Reading -/

structure Reader where
  src : List UInt8
  offset : Int := 0

def get : StateT Reader Option Int := fun r =>
  if 0 ≤ r.offset ∧ 4 ≤ r.src.length then some (readInt r.src, ⟨r.src.drop 4, wrapInt (r.offset + 4)⟩) else none

def getAll : Nat → StateT Reader Option (List Int)
  | 0 => pure []
  | n + 1 => do
    let field ← get
    let fields ← getAll n
    pure (field :: fields)

/-- The vectors are filled by `push_back`; `none` when the assertion at the end fails. -/
def deserialize (hdr : IxFileHdr) : StateT Reader Option IxFileHdr := do
  let totLen ← get
  let firstFreePageNo ← get
  let numPages ← get
  let rootPage ← get
  let colNum ← get
  let types ← getAll colNum.toNat
  let colTypes ← StateT.lift (types.mapM numType)
  let colLens ← getAll colNum.toNat
  let colTotLen ← get
  let btreeOrder ← get
  let keysSize ← get
  let firstLeaf ← get
  let lastLeaf ← get
  if (← MonadState.get).offset = totLen then
    pure { totLen, firstFreePageNo, numPages, rootPage, colNum, colTypes := hdr.colTypes ++ colTypes,
           colLens := hdr.colLens ++ colLens, colTotLen, btreeOrder, keysSize, firstLeaf, lastLeaf }
  else failure

/-! ## The round trip -/

def front (hdr : IxFileHdr) : List Int := [hdr.totLen, hdr.firstFreePageNo, hdr.numPages, hdr.rootPage, hdr.colNum]

def back (hdr : IxFileHdr) : List Int := [hdr.colTotLen, hdr.btreeOrder, hdr.keysSize, hdr.firstLeaf, hdr.lastLeaf]

structure Typed (hdr : IxFileHdr) : Prop where
  first : ∀ field ∈ hdr.front, IsInt32 field
  lens : ∀ len ∈ hdr.colLens, IsInt32 len
  last : ∀ field ∈ hdr.back, IsInt32 field
  numTypes : (hdr.colTypes.length : Int) = hdr.colNum
  numLens : (hdr.colLens.length : Int) = hdr.colNum

theorem foldlM_put (fields : List Int) {w : Writer} (h0 : 0 ≤ w.offset) (h : w.offset + 4 * fields.length < 2 ^ 31) :
    fields.foldlM Writer.put w = some ⟨w.bytes ++ fields.flatMap int32, w.offset + 4 * fields.length⟩ := by
  induction fields generalizing w with
  | nil => simp
  | cons field fields ih =>
    rw [length_cons] at h
    have hwrap : wrapInt (w.offset + 4) = w.offset + 4 := wrapInt_of_lt (by omega) (by omega)
    have hput : w.put field = some ⟨w.bytes ++ int32 field, w.offset + 4⟩ := by rw [Writer.put, if_pos h0, hwrap]
    rw [foldlM_cons, hput, bind_eq_bind, bind_some,
      ih (by show 0 ≤ w.offset + 4; omega) (by show w.offset + 4 + _ < _; omega)]
    rw [append_assoc, flatMap_cons, length_cons]
    congr 2
    push_cast
    ring

theorem get_bind {α : Type} {field : Int} (hfield : IsInt32 field) (rest : List UInt8) {offset : Int} (h0 : 0 ≤ offset)
    (h : offset + 4 < 2 ^ 31) (f : Int → StateT Reader Option α) :
    (get >>= f) ⟨int32 field ++ rest, offset⟩ = f field ⟨rest, offset + 4⟩ := by
  have hlen : 4 ≤ (int32 field ++ rest).length := by rw [length_append, length_int32]; omega
  have hwrap : wrapInt (offset + 4) = offset + 4 := wrapInt_of_lt (by omega) (by omega)
  have hget : get ⟨int32 field ++ rest, offset⟩ = some (field, ⟨rest, offset + 4⟩) := by
    rw [get, if_pos ⟨h0, hlen⟩, readInt_int32 hfield, drop_left' (length_int32 field), hwrap]
  show (get _).bind _ = _
  rw [hget]
  rfl

theorem getAll_bind {α : Type} (fields : List Int) (hfields : ∀ field ∈ fields, IsInt32 field) (rest : List UInt8)
    {offset : Int} (h0 : 0 ≤ offset) (h : offset + 4 * fields.length < 2 ^ 31) (f : List Int → StateT Reader Option α) :
    (getAll fields.length >>= f) ⟨fields.flatMap int32 ++ rest, offset⟩ =
      f fields ⟨rest, offset + 4 * fields.length⟩ := by
  induction fields generalizing offset f with
  | nil => simp [getAll]
  | cons field fields ih =>
    rw [forall_mem_cons] at hfields
    rw [length_cons] at h
    have hnext : offset + 4 + 4 * (fields.length : Int) = offset + 4 * (fields.length + 1 : Nat) := by omega
    rw [length_cons, getAll, flatMap_cons, append_assoc, LawfulMonad.bind_assoc, get_bind hfields.1 _ h0 (by omega)]
    simp only [LawfulMonad.bind_assoc, pure_bind]
    rw [ih hfields.2 (by omega) (by omega), hnext]

theorem lift_some_bind {α β : Type} (x : α) (f : α → StateT Reader Option β) (r : Reader) :
    (StateT.lift (some x) >>= f) r = f x r := rfl

theorem mapM_numType (types : List ColType) : (types.map typeNum).mapM numType = some types := by
  induction types with
  | nil => rfl
  | cons type types ih =>
    have htype : numType (typeNum type) = some type := by cases type <;> rfl
    rw [map_cons, mapM_cons, htype, ih]
    rfl

theorem isInt32_typeNum (type : ColType) : IsInt32 (typeNum type) := by
  cases type <;> decide

variable {hdr : IxFileHdr}

def fields (hdr : IxFileHdr) : List Int := hdr.front ++ (hdr.colTypes.map typeNum ++ (hdr.colLens ++ hdr.back))

theorem Typed.length_fields (h : hdr.Typed) : (hdr.fields.length : Int) = 10 + 2 * hdr.colNum := by
  have := h.numTypes
  have := h.numLens
  simp only [fields, front, back, length_append, length_map, length_cons, length_nil]
  omega

theorem Typed.serialize_eq (h : hdr.Typed) (hlen : hdr.totLen = 40 + 8 * hdr.colNum) (hsize : hdr.totLen < 2 ^ 31) :
    hdr.serialize = some (hdr.fields.flatMap int32) := by
  have htypes : hdr.colTypes.take hdr.colNum.toNat = hdr.colTypes := take_of_length_le (by have := h.numTypes; omega)
  have hlens : hdr.colLens.take hdr.colNum.toNat = hdr.colLens := take_of_length_le (by have := h.numLens; omega)
  have hall : hdr.serialize = (hdr.fields.foldlM Writer.put {}).bind fun w =>
      if w.offset = hdr.totLen then some w.bytes else none := by
    simp only [serialize, htypes, hlens, fields, front, back, foldlM_append, foldlM_cons, foldlM_nil, bind_eq_bind,
      bind_assoc, Option.pure_def, bind_some]
  have hfields := h.length_fields
  rw [hall, foldlM_put _ (le_refl 0) (by show 0 + _ < _; omega), bind_some, if_pos (by show 0 + _ = _; omega)]
  rfl

theorem Typed.deserialize_eq (h : hdr.Typed) (hlen : hdr.totLen = 40 + 8 * hdr.colNum) (hsize : hdr.totLen < 2 ^ 31)
    (rest : List UInt8) :
    deserialize {} ⟨hdr.fields.flatMap int32 ++ rest, 0⟩ = some (hdr, ⟨rest, hdr.totLen⟩) := by
  have hnumTypes := h.numTypes
  have hnumLens := h.numLens
  have htypes : hdr.colNum.toNat = (hdr.colTypes.map typeNum).length := by rw [length_map]; omega
  have hlens : hdr.colNum.toNat = hdr.colLens.length := by omega
  have hints : ∀ field ∈ hdr.colTypes.map typeNum, IsInt32 field := by
    intro field hfield
    obtain ⟨type, -, rfl⟩ := mem_map.1 hfield
    exact isInt32_typeNum type
  have hfirst := h.first
  have hlast := h.last
  simp only [front, back, forall_mem_cons] at hfirst hlast
  obtain ⟨hf₁, hf₂, hf₃, hf₄, hf₅, -⟩ := hfirst
  obtain ⟨hl₁, hl₂, hl₃, hl₄, hl₅, -⟩ := hlast
  simp only [fields, front, back, cons_append, nil_append, flatMap_cons, flatMap_append, flatMap_nil, append_assoc]
  rw [deserialize, get_bind hf₁ _ (by omega) (by omega), get_bind hf₂ _ (by omega) (by omega),
    get_bind hf₃ _ (by omega) (by omega), get_bind hf₄ _ (by omega) (by omega), get_bind hf₅ _ (by omega) (by omega)]
  rw [htypes, getAll_bind _ hints _ (by omega) (by rw [length_map]; omega), mapM_numType, lift_some_bind,
    ← htypes, hlens, getAll_bind _ h.lens _ (by omega) (by omega), ← hlens]
  rw [get_bind hl₁ _ (by omega) (by omega), get_bind hl₂ _ (by omega) (by omega),
    get_bind hl₃ _ (by omega) (by omega), get_bind hl₄ _ (by omega) (by omega), get_bind hl₅ _ (by omega) (by omega)]
  have hend : 0 + 4 + 4 + 4 + 4 + 4 + 4 * (hdr.colNum.toNat : Int) + 4 * hdr.colNum.toNat + 4 + 4 + 4 + 4 + 4 =
      hdr.totLen := by omega
  rw [hend]
  show (if hdr.totLen = hdr.totLen then (pure _ : StateT Reader Option IxFileHdr) else failure) _ = _
  rw [if_pos rfl]
  rfl

theorem Typed.updateTotLen (h : hdr.Typed) : hdr.updateTotLen.Typed := by
  refine { h with first := ?_ }
  have hfirst := h.first
  simp only [front, forall_mem_cons] at hfirst ⊢
  exact ⟨⟨Int.le_bmod (by decide), wrapInt_lt _⟩, hfirst.2⟩

/-- A header of less than 2 GiB is read as it was written, whatever stands behind it. -/
theorem hdr_roundtrip (h : hdr.Typed) (hsize : 40 + 8 * hdr.colNum < 2 ^ 31) :
    ∃ bytes, hdr.updateTotLen.serialize = some bytes ∧ (bytes.length : Int) = hdr.updateTotLen.totLen ∧
      ∀ rest, ∃ r, deserialize {} ⟨bytes ++ rest, 0⟩ = some (hdr.updateTotLen, r) := by
  have hnum : 0 ≤ hdr.colNum := by
    have hlen := h.numTypes
    exact hlen ▸ Int.natCast_nonneg _
  have hlen : hdr.updateTotLen.totLen = 40 + 8 * hdr.updateTotLen.colNum := by
    rw [totLen_updateTotLen, wrapInt_of_lt (by omega) (by omega)]
    rfl
  have hlt : hdr.updateTotLen.totLen < 2 ^ 31 := hlen ▸ hsize
  have htyped := h.updateTotLen
  refine ⟨_, htyped.serialize_eq hlen hlt, ?_, fun rest => ⟨_, htyped.deserialize_eq hlen hlt rest⟩⟩
  have hfields := htyped.length_fields
  rw [length_flatMap, map_congr_left fun field _ => length_int32 field, map_const', sum_replicate, smul_eq_mul]
  push_cast
  omega

def intKey (n : Nat) : IxFileHdr :=
  { numPages := 3, rootPage := 2, colNum := n, colTypes := replicate n .int, colLens := replicate n 4,
    colTotLen := 4 * n, firstLeaf := 2, lastLeaf := 2 }

theorem typed_intKey {n : Nat} (hn : n ≤ 2 ^ 28) : (intKey n).Typed where
  first := by
    simp [intKey, front, IsInt32]
    omega
  lens len hlen := by
    rw [(mem_replicate.1 hlen).2]
    decide
  last := by
    simp [intKey, back, IsInt32]
    omega
  numTypes := by simp [intKey]
  numLens := by simp [intKey]

theorem hdr_roundtrip_intKey : ∃ bytes, (intKey 2).updateTotLen.serialize = some bytes ∧
    (bytes.length : Int) = 56 ∧ ∀ rest, ∃ r, deserialize {} ⟨bytes ++ rest, 0⟩ = some ((intKey 2).updateTotLen, r) :=
  hdr_roundtrip (typed_intKey (by decide)) (by decide)

/-- With `2 ^ 28` columns `tot_len_` is negative. -/
theorem tot_len_negative : (intKey (2 ^ 28)).Typed ∧
    ¬ ∃ bytes, (intKey (2 ^ 28)).updateTotLen.serialize = some bytes ∧
      (bytes.length : Int) = (intKey (2 ^ 28)).updateTotLen.totLen := by
  refine ⟨typed_intKey le_rfl, fun ⟨bytes, _, hlen⟩ => ?_⟩
  have hsum : 40 + 8 * (intKey (2 ^ 28)).colNum = 2147483688 := by norm_num [intKey]
  rw [totLen_updateTotLen, hsum] at hlen
  have hneg : wrapInt 2147483688 < 0 := by decide
  omega

end IxFileHdr

end Rmdb.Index
