/-
Log records and their bytes.

Numbers are little-endian. The header has the type, the LSN, the length of the
record, the transaction and the LSN of the record before it of the same
transaction; the data behind it depend on the type. The two values of an
`UPDATE` share one length.
-/
import Rmdb.Defs
import Rmdb.Index.Key

namespace Rmdb.Recovery

open Option List

open Index (leNat leNat_lt readInt)

/-! ## Numbers -/

def leBytes : Nat → Nat → List UInt8
  | 0, _ => []
  | k + 1, n => UInt8.ofNat n :: leBytes k (n / 256)

def int32 (n : Int) : List UInt8 := leBytes 4 (n % 2 ^ 32).toNat

def IsInt32 (n : Int) : Prop := -2 ^ 31 ≤ n ∧ n < 2 ^ 31

instance (n : Int) : Decidable (IsInt32 n) := inferInstanceAs (Decidable (_ ∧ _))

@[simp] theorem length_leBytes (k n : Nat) : (leBytes k n).length = k := by
  induction k generalizing n with
  | zero => rfl
  | succ k ih => rw [leBytes, length_cons, ih]

theorem leNat_leBytes (k n : Nat) : leNat (leBytes k n) = n % 256 ^ k := by
  induction k generalizing n with
  | zero => rw [leBytes, leNat, pow_zero, Nat.mod_one]
  | succ k ih =>
    have hbyte : (UInt8.ofNat n).toNat = n % 256 := by simp
    rw [leBytes, leNat, ih, hbyte, pow_succ', Nat.mod_mul]

@[simp] theorem length_int32 (n : Int) : (int32 n).length = 4 := length_leBytes 4 _

theorem readInt_int32 {n : Int} (h : IsInt32 n) (rest : List UInt8) : readInt (int32 n ++ rest) = n := by
  obtain ⟨hlow, hhigh⟩ := h
  have htake : (int32 n ++ rest).take 4 = int32 n := take_left' (length_int32 n)
  have hval : leNat (int32 n) = (n % 2 ^ 32).toNat := by
    rw [int32, leNat_leBytes, Nat.mod_eq_of_lt]
    have hlt := Int.emod_lt_of_pos n (show (0 : Int) < 2 ^ 32 by norm_num)
    norm_num at hlt ⊢
    omega
  simp only [readInt, htake, hval]
  norm_num at hlow hhigh ⊢
  split <;> omega

/-! ## Records -/

inductive LogBody where
  | begin
  | commit
  | abort
  | insert (value : List UInt8) (rid : Rid) (tableName : List UInt8)
  | delete (value : List UInt8) (rid : Rid) (tableName : List UInt8)
  | update (oldValue updateValue : List UInt8) (rid : Rid) (tableName : List UInt8)
  deriving DecidableEq, Repr

structure LogRecord where
  lsn : Int
  tid : Int
  prevLsn : Int
  body : LogBody
  deriving DecidableEq, Repr

def invalidLsn : Int := -1
def invalidTxnId : Int := -1

def logHeaderSize : Nat := 20
def logBufferSize : Nat := 1024 * pageSize / 4

def LogBody.type : LogBody → Int
  | .update .. => 0
  | .insert .. => 1
  | .delete .. => 2
  | .begin => 3
  | .commit => 4
  | .abort => 5

def placeBytes (rid : Rid) (tableName : List UInt8) : List UInt8 :=
  int32 rid.pageNo ++ (int32 rid.slotNo ++ (leBytes 8 tableName.length ++ tableName))

def LogBody.data : LogBody → List UInt8
  | .begin | .commit | .abort => []
  | .insert value rid tableName | .delete value rid tableName =>
    int32 value.length ++ (value ++ placeBytes rid tableName)
  | .update oldValue updateValue rid tableName =>
    int32 oldValue.length ++ (oldValue ++ (updateValue ++ placeBytes rid tableName))

/-- What the constructors add to `log_tot_len_`. -/
def LogBody.dataLen : LogBody → Nat
  | .begin | .commit | .abort => 0
  | .insert value _ tableName | .delete value _ tableName => 4 + value.length + 8 + (8 + tableName.length)
  | .update oldValue updateValue _ tableName =>
    (4 + oldValue.length + updateValue.length) + 8 + (8 + tableName.length)

def LogRecord.logTotLen (rec : LogRecord) : Nat := logHeaderSize + rec.body.dataLen

def LogRecord.header (rec : LogRecord) : List UInt8 :=
  int32 rec.body.type ++ (int32 rec.lsn ++ (leBytes 4 rec.logTotLen ++ (int32 rec.tid ++ int32 rec.prevLsn)))

def LogRecord.serialize (rec : LogRecord) : List UInt8 := rec.header ++ rec.body.data

@[simp] theorem length_placeBytes (rid : Rid) (tableName : List UInt8) :
    (placeBytes rid tableName).length = 16 + tableName.length := by
  simp only [placeBytes, length_append, length_int32, length_leBytes]
  omega

@[simp] theorem LogBody.length_data (body : LogBody) : body.data.length = body.dataLen := by
  cases body <;> simp only [data, dataLen, length_append, length_int32, length_placeBytes, length_nil] <;>
    omega

@[simp] theorem LogRecord.length_header (rec : LogRecord) : rec.header.length = logHeaderSize := by
  simp [header, logHeaderSize]

@[simp] theorem LogRecord.length_serialize (rec : LogRecord) : rec.serialize.length = rec.logTotLen := by
  simp [serialize, logTotLen]

/-! ## Writing a record into a buffer -/

variable {as bs : List UInt8}

theorem drop_left_add {n m : Nat} (h : as.length = n) : (as ++ bs).drop (n + m) = bs.drop m := by
  rw [← drop_drop, drop_left' h]

/-- `memcpy(dest + offset, src, …)`; `none` when it goes behind the end of `dest`. -/
def memcpy (dest : List UInt8) (offset : Nat) (src : List UInt8) : Option (List UInt8) :=
  if offset + src.length ≤ dest.length then
    some (dest.take offset ++ (src ++ dest.drop (offset + src.length)))
  else none

def copyPlace (dest : List UInt8) (offset : Nat) (rid : Rid) (tableName : List UInt8) : Option (List UInt8) := do
  let dest ← memcpy dest offset (int32 rid.pageNo ++ int32 rid.slotNo)
  let offset := offset + 8
  let dest ← memcpy dest offset (leBytes 8 tableName.length)
  let offset := offset + 8
  memcpy dest offset tableName

def LogBody.copy (body : LogBody) (dest : List UInt8) (offset : Nat) : Option (List UInt8) :=
  match body with
  | .begin | .commit | .abort => some dest
  | .insert value rid tableName | .delete value rid tableName => do
    let dest ← memcpy dest offset (int32 value.length)
    let offset := offset + 4
    let dest ← memcpy dest offset value
    let offset := offset + value.length
    copyPlace dest offset rid tableName
  | .update oldValue updateValue rid tableName => do
    let dest ← memcpy dest offset (int32 oldValue.length)
    let offset := offset + 4
    let dest ← memcpy dest offset oldValue
    let offset := offset + oldValue.length
    let dest ← memcpy dest offset updateValue
    let offset := offset + updateValue.length
    copyPlace dest offset rid tableName

/-- `LogRecord::serialize` of the header and of the class, to `dest + offset`. -/
def LogRecord.serializeTo (rec : LogRecord) (dest : List UInt8) (offset : Nat) : Option (List UInt8) := do
  let dest ← memcpy dest offset (int32 rec.body.type)
  let dest ← memcpy dest (offset + 4) (int32 rec.lsn)
  let dest ← memcpy dest (offset + 8) (leBytes 4 rec.logTotLen)
  let dest ← memcpy dest (offset + 12) (int32 rec.tid)
  let dest ← memcpy dest (offset + 16) (int32 rec.prevLsn)
  rec.body.copy dest (offset + logHeaderSize)

variable {offset next : Nat}

theorem memcpy_bind_memcpy (dest : List UInt8) (as bs : List UInt8) (h : next = offset + as.length) :
    ((memcpy dest offset as).bind fun dest => memcpy dest next bs) = memcpy dest offset (as ++ bs) := by
  subst h
  by_cases hboth : offset + (as ++ bs).length ≤ dest.length
  · rw [length_append] at hboth
    have htake : (dest.take offset).length = offset := length_take_of_le (by omega)
    have hfirst : memcpy dest offset as = some (dest.take offset ++ (as ++ dest.drop (offset + as.length))) :=
      if_pos (by omega)
    have hlen : (dest.take offset ++ (as ++ dest.drop (offset + as.length))).length = dest.length := by
      simp only [length_append, htake, length_drop]
      omega
    have hfront : (dest.take offset ++ as).length = offset + as.length := by
      rw [length_append, htake]
    rw [hfirst, bind_some, memcpy, memcpy, if_pos (by omega), if_pos (by rw [length_append]; omega),
      ← append_assoc (dest.take offset), take_left' hfront, drop_left_add hfront, drop_drop,
      length_append]
    simp only [append_assoc, Nat.add_assoc]
  · rw [memcpy, memcpy, if_neg hboth]
    rw [length_append] at hboth
    split
    · rw [bind_some, memcpy, if_neg]
      simp only [length_append, length_take, length_drop]
      omega
    · rfl

theorem memcpy_bind_memcpy_bind {dest : List UInt8}
    {f : List UInt8 → Option (List UInt8)} (h : next = offset + as.length) :
    ((memcpy dest offset as).bind fun dest => (memcpy dest next bs).bind f) =
      (memcpy dest offset (as ++ bs)).bind f := by
  rw [← memcpy_bind_memcpy dest as bs h, bind_assoc]

theorem copyPlace_eq (dest : List UInt8) (offset : Nat) (rid : Rid) (tableName : List UInt8) :
    copyPlace dest offset rid tableName = memcpy dest offset (placeBytes rid tableName) := by
  simp only [copyPlace, bind_eq_bind]
  rw [memcpy_bind_memcpy_bind (by simp), memcpy_bind_memcpy dest _ _ (by simp [Nat.add_assoc])]
  simp [placeBytes]

theorem memcpy_bind_copy (dest : List UInt8) (as : List UInt8) (body : LogBody) (h : next = offset + as.length) :
    ((memcpy dest offset as).bind fun dest => body.copy dest next) = memcpy dest offset (as ++ body.data) := by
  have hvalue : ∀ (value : List UInt8) (rid : Rid) (tableName : List UInt8),
      ((memcpy dest offset as).bind fun dest => (memcpy dest next (int32 value.length)).bind fun dest =>
        (memcpy dest (next + 4) value).bind fun dest => copyPlace dest (next + 4 + value.length) rid tableName) =
      memcpy dest offset (as ++ (int32 value.length ++ (value ++ placeBytes rid tableName))) := by
    intro value rid tableName
    simp only [copyPlace_eq]
    rw [memcpy_bind_memcpy_bind h, memcpy_bind_memcpy_bind (by simp; omega),
      memcpy_bind_memcpy dest _ _ (by simp; omega)]
    simp only [append_assoc]
  cases body with
  | begin | commit | abort => simp only [LogBody.copy, LogBody.data, append_nil, bind_fun_some]
  | insert value rid tableName => exact hvalue value rid tableName
  | delete value rid tableName => exact hvalue value rid tableName
  | update oldValue updateValue rid tableName =>
    simp only [LogBody.copy, LogBody.data, copyPlace_eq, bind_eq_bind]
    rw [memcpy_bind_memcpy_bind h, memcpy_bind_memcpy_bind (by simp; omega), memcpy_bind_memcpy_bind (by simp; omega),
      memcpy_bind_memcpy dest _ _ (by simp; omega)]
    simp only [append_assoc]

/-- The offsets of the writer are those of the bytes that `serialize` stands for. -/
theorem LogRecord.serializeTo_eq (rec : LogRecord) (dest : List UInt8) (offset : Nat) :
    rec.serializeTo dest offset = memcpy dest offset rec.serialize := by
  simp only [serializeTo, bind_eq_bind]
  rw [memcpy_bind_memcpy_bind (by simp), memcpy_bind_memcpy_bind (by simp), memcpy_bind_memcpy_bind (by simp),
    memcpy_bind_memcpy_bind (by simp), memcpy_bind_copy dest _ _ (by simp [logHeaderSize])]
  simp only [serialize, header, append_assoc]

/-! ## Reading a record -/

def logSize (src : List UInt8) : Nat := leNat ((src.drop 8).take 4)

def readPlace (src : List UInt8) : Rid × List UInt8 :=
  (⟨readInt src, readInt (src.drop 4)⟩, (src.drop 16).take (leNat ((src.drop 8).take 8)))

/-- A value with its length in front, and what comes behind. -/
def readValue (src : List UInt8) : List UInt8 × List UInt8 :=
  ((src.drop 4).take (readInt src).toNat, (src.drop 4).drop (readInt src).toNat)

/-- The data of a record of a type; `none` for a type that `analyze` does not know. -/
def readBody (type : Int) (src : List UInt8) : Option LogBody :=
  if type = 3 then some .begin
  else if type = 4 then some .commit
  else if type = 5 then some .abort
  else if type = 1 then
    let (value, rest) := readValue src
    some (.insert value (readPlace rest).1 (readPlace rest).2)
  else if type = 2 then
    let (value, rest) := readValue src
    some (.delete value (readPlace rest).1 (readPlace rest).2)
  else if type = 0 then
    let (oldValue, rest) := readValue src
    let place := rest.drop oldValue.length
    some (.update oldValue (rest.take oldValue.length) (readPlace place).1 (readPlace place).2)
  else none

def LogRecord.deserialize (src : List UInt8) : Option LogRecord :=
  (readBody (readInt src) (src.drop logHeaderSize)).map fun body =>
    { lsn := readInt (src.drop 4), tid := readInt (src.drop 12), prevLsn := readInt (src.drop 16), body }

/-! ## What is read of what is written -/

def Rid.Valid (rid : Rid) : Prop := IsInt32 rid.pageNo ∧ IsInt32 rid.slotNo

/-- The numbers are of their types; the two values of an update have one length. -/
def LogBody.Valid : LogBody → Prop
  | .begin | .commit | .abort => True
  | .insert _ rid _ | .delete _ rid _ => Rid.Valid rid
  | .update oldValue updateValue rid _ => updateValue.length = oldValue.length ∧ Rid.Valid rid

instance (rid : Rid) : Decidable (Rid.Valid rid) := inferInstanceAs (Decidable (_ ∧ _))

instance : (body : LogBody) → Decidable body.Valid
  | .begin | .commit | .abort => inferInstanceAs (Decidable True)
  | .insert _ rid _ | .delete _ rid _ => inferInstanceAs (Decidable (Rid.Valid rid))
  | .update _ _ _ _ => inferInstanceAs (Decidable (_ ∧ _))

structure LogRecord.Typed (rec : LogRecord) : Prop where
  lsn : IsInt32 rec.lsn
  tid : IsInt32 rec.tid
  prevLsn : IsInt32 rec.prevLsn
  body : rec.body.Valid
  len : rec.logTotLen < 2 ^ 31

structure LogRecord.Valid (rec : LogRecord) : Prop where
  lsn : IsInt32 rec.lsn
  tid : IsInt32 rec.tid
  prevLsn : IsInt32 rec.prevLsn
  body : rec.body.Valid
  fits : rec.logTotLen ≤ logBufferSize

theorem LogRecord.Valid.typed {rec : LogRecord} (h : rec.Valid) : rec.Typed where
  lsn := h.lsn
  tid := h.tid
  prevLsn := h.prevLsn
  body := h.body
  len := lt_of_le_of_lt h.fits (by decide)

theorem drop_int32 (n : Int) (rest : List UInt8) (m : Nat) : (int32 n ++ rest).drop (4 + m) = rest.drop m :=
  drop_left_add (length_int32 n)

theorem readPlace_placeBytes {rid : Rid} (hrid : Rid.Valid rid) {tableName : List UInt8}
    (hlen : tableName.length < 2 ^ 64)
    (rest : List UInt8) : readPlace (placeBytes rid tableName ++ rest) = (rid, tableName) := by
  have hbytes : placeBytes rid tableName ++ rest =
      int32 rid.pageNo ++ (int32 rid.slotNo ++ (leBytes 8 tableName.length ++ (tableName ++ rest))) := by
    simp [placeBytes]
  have h4 : (placeBytes rid tableName ++ rest).drop 4 =
      int32 rid.slotNo ++ (leBytes 8 tableName.length ++ (tableName ++ rest)) := by
    rw [hbytes]
    exact drop_int32 _ _ 0
  have h8 : (placeBytes rid tableName ++ rest).drop 8 = leBytes 8 tableName.length ++ (tableName ++ rest) := by
    rw [show 8 = 4 + 4 from rfl, ← drop_drop, h4]
    exact drop_int32 _ _ 0
  have h16 : (placeBytes rid tableName ++ rest).drop 16 = tableName ++ rest := by
    rw [show 16 = 8 + 8 from rfl, ← drop_drop, h8]
    exact drop_left' (length_leBytes 8 _)
  have hsize : leNat (((placeBytes rid tableName ++ rest).drop 8).take 8) = tableName.length := by
    rw [h8, take_left' (length_leBytes 8 _), leNat_leBytes, Nat.mod_eq_of_lt (by norm_num at hlen ⊢; omega)]
  rw [readPlace, hsize, h16, h4, hbytes, readInt_int32 hrid.1, readInt_int32 hrid.2, take_left]

theorem readValue_append {value : List UInt8} (hlen : value.length < 2 ^ 31) (rest : List UInt8) :
    readValue (int32 value.length ++ (value ++ rest)) = (value, rest) := by
  have hint : IsInt32 value.length := ⟨by norm_num, by exact_mod_cast hlen⟩
  have h4 : (int32 value.length ++ (value ++ rest)).drop 4 = value ++ rest := drop_int32 _ _ 0
  rw [readValue, readInt_int32 hint, h4, Int.toNat_natCast, take_left, drop_left]

theorem readBody_data {body : LogBody} (hvalid : body.Valid) (hlen : body.dataLen < 2 ^ 31) (rest : List UInt8) :
    readBody body.type (body.data ++ rest) = some body := by
  cases body with
  | begin => rfl
  | commit => rfl
  | abort => rfl
  | insert value rid tableName =>
    rw [LogBody.dataLen] at hlen
    have hdata : (LogBody.insert value rid tableName).data ++ rest =
        int32 value.length ++ (value ++ (placeBytes rid tableName ++ rest)) := by simp [LogBody.data]
    simp [readBody, LogBody.type, hdata, readValue_append (show value.length < 2 ^ 31 by omega),
      readPlace_placeBytes hvalid (show tableName.length < 2 ^ 64 by omega)]
  | delete value rid tableName =>
    rw [LogBody.dataLen] at hlen
    have hdata : (LogBody.delete value rid tableName).data ++ rest =
        int32 value.length ++ (value ++ (placeBytes rid tableName ++ rest)) := by simp [LogBody.data]
    simp [readBody, LogBody.type, hdata, readValue_append (show value.length < 2 ^ 31 by omega),
      readPlace_placeBytes hvalid (show tableName.length < 2 ^ 64 by omega)]
  | update oldValue updateValue rid tableName =>
    obtain ⟨hsame, hrid⟩ := hvalid
    rw [LogBody.dataLen] at hlen
    have hdata : (LogBody.update oldValue updateValue rid tableName).data ++ rest =
        int32 oldValue.length ++ (oldValue ++ (updateValue ++ (placeBytes rid tableName ++ rest))) :=
          by simp [LogBody.data]
    have hplace : (updateValue ++ (placeBytes rid tableName ++ rest)).drop oldValue.length = placeBytes rid
      tableName ++ rest :=
      drop_left' hsame
    simp [readBody, LogBody.type, hdata, readValue_append (show oldValue.length < 2 ^ 31 by omega), hplace,
      take_left' hsame, readPlace_placeBytes hrid (show tableName.length < 2 ^ 64 by omega)]

theorem isInt32_type (body : LogBody) : IsInt32 body.type := by
  cases body <;> simp [LogBody.type, IsInt32]

namespace LogRecord

variable {rec : LogRecord}

theorem drop_header (rec : LogRecord) (rest : List UInt8) :
    (rec.serialize ++ rest).drop 4 =
      int32 rec.lsn ++ (leBytes 4 rec.logTotLen ++
        (int32 rec.tid ++ (int32 rec.prevLsn ++ (rec.body.data ++ rest)))) := by
  have hbytes : rec.serialize ++ rest = int32 rec.body.type ++
      (int32 rec.lsn ++ (leBytes 4 rec.logTotLen ++
        (int32 rec.tid ++ (int32 rec.prevLsn ++ (rec.body.data ++ rest))))) := by
    simp [serialize, header]
  rw [hbytes]
  exact drop_int32 _ _ 0

theorem readInt_serialize (rec : LogRecord) (rest : List UInt8) :
    readInt (rec.serialize ++ rest) = rec.body.type := by
  have hbytes : rec.serialize ++ rest = int32 rec.body.type ++ (rec.serialize ++ rest).drop 4 := by
    rw [rec.drop_header]
    simp [serialize, header]
  rw [hbytes, readInt_int32 (isInt32_type _)]

theorem deserialize_serialize (h : rec.Typed) (rest : List UInt8) : deserialize (rec.serialize ++ rest) = some rec := by
  have h4 := rec.drop_header rest
  have h12 : (rec.serialize ++ rest).drop 12 = int32 rec.tid ++ (int32 rec.prevLsn ++ (rec.body.data ++ rest)) := by
    rw [show 12 = 4 + 8 from rfl, ← drop_drop, h4, show 8 = 4 + 4 from rfl, drop_int32,
      drop_left' (length_leBytes 4 _)]
  have h16 : (rec.serialize ++ rest).drop 16 = int32 rec.prevLsn ++ (rec.body.data ++ rest) := by
    rw [show 16 = 12 + 4 from rfl, ← drop_drop, h12]
    exact drop_int32 _ _ 0
  have h20 : (rec.serialize ++ rest).drop logHeaderSize = rec.body.data ++ rest := by
    rw [show logHeaderSize = 16 + 4 from rfl, ← drop_drop, h16]
    exact drop_int32 _ _ 0
  have hlen : rec.body.dataLen < 2 ^ 31 := lt_of_le_of_lt (Nat.le_add_left _ _) h.len
  rw [deserialize, rec.readInt_serialize, h20, readBody_data h.body hlen, h4, h12, h16, readInt_int32 h.lsn,
    readInt_int32 h.tid, readInt_int32 h.prevLsn]
  rfl

theorem logSize_header (h : rec.Typed) (rest : List UInt8) : logSize (rec.header ++ rest) = rec.logTotLen := by
  have hlen := h.len
  have h8 : (rec.header ++ rest).drop 8 = leBytes 4 rec.logTotLen ++
    (int32 rec.tid ++ (int32 rec.prevLsn ++ rest)) := by
    rw [header, append_assoc, show 8 = 4 + 4 from rfl, drop_int32, append_assoc, drop_int32 _ _ 0]
    simp
  rw [logSize, h8, take_left' (length_leBytes 4 _), leNat_leBytes, Nat.mod_eq_of_lt]
  norm_num
  omega

theorem logSize_serialize (h : rec.Typed) (rest : List UInt8) : logSize (rec.serialize ++ rest) = rec.logTotLen := by
  rw [serialize, append_assoc, logSize_header h]

/-- The codec of the log. `serialize` puts `log_tot_len_` bytes into a buffer that
has room for them and leaves the rest as it was; whatever comes behind these
bytes, they are read as the record: its type, its length and all else. -/
theorem serialize_roundTrip (rec : LogRecord) (h : rec.Typed) :
    rec.serialize.length = rec.logTotLen ∧
    (∀ dest offset, offset + rec.logTotLen ≤ dest.length → rec.serializeTo dest offset =
      some (dest.take offset ++ (rec.serialize ++ dest.drop (offset + rec.logTotLen)))) ∧
    ∀ rest, readInt (rec.serialize ++ rest) = rec.body.type ∧ logSize (rec.serialize ++ rest) = rec.logTotLen ∧
      deserialize (rec.serialize ++ rest) = some rec := by
  refine ⟨rec.length_serialize, fun dest offset hroom => ?_, fun rest => ?_⟩
  · rw [rec.serializeTo_eq, memcpy, rec.length_serialize, if_pos hroom]
  · exact ⟨rec.readInt_serialize rest, logSize_serialize h rest, deserialize_serialize h rest⟩

def twoBytes : LogRecord := ⟨5, 7, 4, .update [1, 2] [3, 4] ⟨1, 0⟩ [116, 0, 117]⟩

theorem serialize_roundTrip_twoBytes : twoBytes.serialize.length = 47 ∧
    ∀ rest, deserialize (twoBytes.serialize ++ rest) = some twoBytes := by
  obtain ⟨hlen, _, hread⟩ := serialize_roundTrip twoBytes
    ⟨by decide, by decide, by decide, by decide, by decide⟩
  exact ⟨hlen, fun rest => (hread rest).2.2⟩

end LogRecord

end Rmdb.Recovery
