/-
Columns, indexes and tables as the catalogue has them, and the bytes of a record.

A column is a range of bytes of the record. The ranges of different columns
are disjoint, so writing one column leaves what is read from another: that is
what the maintenance of the indexes rests on.
-/
import Rmdb.Defs
import Rmdb.Index.Handle

namespace Rmdb

open List Index

/-- `float` arithmetic, on the 32 bits of a value. -/
class FloatOps where
  ofInt : UInt32 → UInt32
  add : UInt32 → UInt32 → UInt32

/-! ## Values -/

inductive Value where
  | int (val : UInt32)
  | float (val : UInt32)
  | str (val : List UInt8)

def Value.type : Value → ColType
  | .int _ => .int
  | .float _ => .float
  | .str _ => .string

def bytesOf (v : UInt32) : List UInt8 :=
  [v.toUInt8, (v >>> 8).toUInt8, (v >>> 16).toUInt8, (v >>> 24).toUInt8]

def wordOf (bs : List UInt8) : UInt32 := UInt32.ofNat (leNat (bs.take 4))

def Value.initRaw (len : Nat) : Value → Except RMDBError (List UInt8)
  | .int v => .ok (bytesOf v)
  | .float v => .ok (bytesOf v)
  | .str s => if len < s.length then .error .stringOverflow else .ok (s ++ List.replicate (len - s.length) 0)

/-- `add(a, b, col_type)` of execution_defs.h -/
def add [FloatOps] (a b : List UInt8) : ColType → Except RMDBError (List UInt8)
  | .int => .ok (bytesOf (wordOf a + wordOf b))
  | .float => .ok (bytesOf (FloatOps.add (wordOf a) (wordOf b)))
  | .string => .error (.internalError "Unexpected data type to add！")

/-! ## Columns -/

structure ColMeta where
  name : String
  type : ColType
  len : Nat
  offset : Nat
  /-- Only strings have a length of their own. -/
  len_eq : type ≠ .string → len = 4

namespace ColMeta

abbrev intAt (name : String) (offset : Nat) : ColMeta := ⟨name, .int, 4, offset, fun _ => rfl⟩

def read (c : ColMeta) (rec : List UInt8) : List UInt8 := (List.range c.len).map fun i => rec.getD (c.offset + i) 0

def write (c : ColMeta) (rec raw : List UInt8) : List UInt8 :=
  rec.mapIdx fun i b => if c.offset ≤ i ∧ i < c.offset + c.len then raw.getD (i - c.offset) 0 else b

def keyCol (c : ColMeta) : KeyCol :=
  match c.type with
  | .int => .int
  | .float => .float
  | .string => .char c.len

def rawOf [FloatOps] (c : ColMeta) (v : Value) : Except RMDBError (List UInt8) :=
  match c.type, v with
  | .float, .int v => (Value.float (FloatOps.ofInt v)).initRaw c.len
  | t, v => if t ≠ v.type then .error (.incompatibleType t v.type) else v.initRaw c.len

def Disjoint (c d : ColMeta) : Prop := c.offset + c.len ≤ d.offset ∨ d.offset + d.len ≤ c.offset

@[simp] theorem length_read (c : ColMeta) (rec : List UInt8) : (c.read rec).length = c.len := by simp [read]

theorem keyCol_len (c : ColMeta) : c.keyCol.len = c.len := by
  rw [keyCol]
  split
  case h_1 h => rw [c.len_eq (by simp [h]), KeyCol.len]
  case h_2 h => rw [c.len_eq (by simp [h]), KeyCol.len]
  case h_3 => rfl

theorem keyCol_ne_float {c : ColMeta} (h : c.type ≠ .float) : c.keyCol ≠ .float := by
  rw [keyCol]
  split
  case h_2 hf => exact absurd hf h
  all_goals exact nofun

theorem read_write {c d : ColMeta} (h : c.Disjoint d) (rec raw : List UInt8) : c.read (d.write rec raw) = c.read rec := by
  refine map_congr_left fun i hi => ?_
  have hi := mem_range.1 hi
  have hout : ¬ (d.offset ≤ c.offset + i ∧ c.offset + i < d.offset + d.len) := by
    rcases h with h | h <;> omega
  simp only [write, getD_eq_getElem?_getD, List.getElem?_mapIdx, if_neg hout, Option.map_id']

end ColMeta

/-! ## Indexes -/

/-- `IndexMeta`; indexes over `FLOAT` columns are left out. -/
structure IndexMeta where
  name : String
  cols : List ColMeta
  noFloat : ∀ c ∈ cols, c.type ≠ .float
  /-- `IxManager::create_index` made the index. -/
  created : (createIndex (cols.map ColMeta.keyCol) : Option (IxFile (Key (cols.map ColMeta.keyCol)) _)).isSome

namespace IndexMeta

def keyCols (ix : IndexMeta) : List KeyCol := ix.cols.map ColMeta.keyCol

def colNames (ix : IndexMeta) : List String := ix.cols.map ColMeta.name

def newFile (ix : IndexMeta) : IxFile (Key ix.keyCols) (btreeOrder ix.keyCols) := (createIndex ix.keyCols).get ix.created

theorem createIndex_newFile (ix : IndexMeta) : createIndex ix.keyCols = some ix.newFile := (Option.some_get ix.created).symm

theorem order (ix : IndexMeta) : 2 < btreeOrder ix.keyCols := by
  have h := ix.createIndex_newFile
  rw [createIndex] at h
  split_ifs at h with _ hord
  exact hord

def key (ix : IndexMeta) (rec : List UInt8) : Key ix.keyCols where
  bytes := ix.cols.flatMap fun c => c.read rec
  length_eq := by
    rw [length_flatMap, colTotLen, keyCols, map_map]
    congr 1
    refine map_congr_left fun c _ => ?_
    rw [ColMeta.length_read, Function.comp_apply, ColMeta.keyCol_len]
  ordered := ordered_of_forall_ne _ fun _ hc => by
    obtain ⟨c, hmem, rfl⟩ := mem_map.1 hc
    exact ColMeta.keyCol_ne_float (ix.noFloat c hmem)

theorem key_congr {ix : IndexMeta} {r r' : List UInt8} (h : ∀ c ∈ ix.cols, c.read r' = c.read r) :
    ix.key r' = ix.key r := by
  have hbytes : (ix.key r').bytes = (ix.key r).bytes := flatMap_congr h
  rcases hk : ix.key r with ⟨bs, hbs, hord⟩
  rcases hk' : ix.key r' with ⟨bs', hbs', hord'⟩
  rw [hk, hk'] at hbytes
  cases hbytes
  rfl

end IndexMeta

/-! ## Tables -/

structure TabMeta where
  name : String
  cols : List ColMeta
  indexes : List IndexMeta
  distinct : cols.Pairwise fun c d => c.name ≠ d.name
  layout : cols.Pairwise fun c d => c.offset + c.len ≤ d.offset
  ixCols : ∀ ix ∈ indexes, ∀ c ∈ ix.cols, c ∈ cols

namespace TabMeta

def recordSize (m : TabMeta) : Nat := (m.cols.map ColMeta.len).sum

def getCol (m : TabMeta) (name : String) : Except RMDBError ColMeta :=
  match m.cols.find? fun c => c.name = name with
  | some c => .ok c
  | none => .error (.columnNotFound name)

def getIndexMeta (m : TabMeta) (colNames : List String) : Except RMDBError IndexMeta :=
  match m.indexes.find? fun ix => ix.colNames = colNames with
  | some ix => .ok ix
  | none => .error (.indexNotFound m.name colNames)

def ix (m : TabMeta) (i : Fin m.indexes.length) : IndexMeta := m.indexes.get i

theorem getCol_eq_ok {m : TabMeta} {name : String} {c : ColMeta} (h : m.getCol name = .ok c) :
    c ∈ m.cols ∧ c.name = name := by
  rw [getCol] at h
  cases hfind : m.cols.find? fun c => c.name = name with
  | none => simp [hfind] at h
  | some d =>
    rw [hfind] at h
    cases h
    exact ⟨mem_of_find?_eq_some hfind, by simpa using List.find?_some hfind⟩

theorem disjoint {m : TabMeta} {c d : ColMeta} (hc : c ∈ m.cols) (hd : d ∈ m.cols) (hne : c.name ≠ d.name) :
    c.Disjoint d := by
  have hlayout := pairwise_iff_getElem.1 m.layout
  obtain ⟨i, hi, rfl⟩ := getElem_of_mem hc
  obtain ⟨j, hj, rfl⟩ := getElem_of_mem hd
  rcases lt_trichotomy i j with hij | rfl | hij
  · exact .inl (hlayout i j hi hj hij)
  · exact absurd rfl hne
  · exact .inr (hlayout j i hj hi hij)

theorem mem_cols_of_ix {m : TabMeta} (i : Fin m.indexes.length) {c : ColMeta} (hc : c ∈ (m.ix i).cols) : c ∈ m.cols :=
  m.ixCols _ (get_mem _ _) c hc

end TabMeta

end Rmdb
