/-
`CREATE TABLE`, and where the columns of a table lie in its records.

`SmManager::create_table` adds up the lengths of the columns in an `int`, and
`RmManager::create_file` tests the sum. A length is what the statement says: the
lexer takes `char(-4)`. So the sum may be in range with columns that are outside
of the record.
-/
import Rmdb.System.CreateIndex
import Mathlib.Order.CompletePartialOrder

namespace Rmdb.Catalog

open Exec Record
open DiskManager (createFile openFile closeFile)

def layoutEnd : Int → List ColDef → Int
  | currOffset, [] => currOffset
  | currOffset, colDef :: colDefs => layoutEnd (wrapInt (currOffset + colDef.len)) colDefs

namespace SmManager

def rmCreateFile (fd : Int) (filename : String) (recordSize : Int) : SmExec Unit := do
  if recordSize < 1 ∨ recordSize > maxRecordSize then raise (.rmdb (.invalidRecordSize recordSize))
  onDisk (createFile filename)
  onDisk (openFile fd filename)
  onDisk (closeFile fd)

/-- `fd` and `fd'` are the descriptors of the file, when it is created and when it is opened again. -/
def createTable (fd fd' : Int) (tabName : String) (colDefs : List ColDef) : SmExec Unit := do
  let db ← asks SmManager.db
  let db ← ofRmdb (db.createTable tabName colDefs)
  let recordSize := layoutEnd 0 colDefs
  rmCreateFile fd tabName recordSize
  modify fun sm => { sm with db }
  onDisk (openFile fd' tabName)
  modify fun sm => { sm with fhs := emplace sm.fhs tabName (.createFile recordSize.toNat) }

end SmManager

/-! ## Layouts -/

def ColMeta.bytes (col : ColMeta) : Set Int := Set.Ico col.offset (col.offset + col.len)

/-- The columns have room, lie apart from each other, and make up the record. -/
structure SoundLayout (cols : List ColMeta) (recordSize : Int) : Prop where
  positive : ∀ col ∈ cols, 0 < col.len
  apart : cols.Pairwise fun col col' => Disjoint col.bytes col'.bytes
  inside : ∀ col ∈ cols, 0 ≤ col.offset ∧ col.offset + col.len ≤ recordSize
  covers : ∀ b, 0 ≤ b → b < recordSize → ∃ col ∈ cols, b ∈ col.bytes

section Layout

variable {tabName : String} {off : Int} {colDefs : List ColDef}

variable (tabName) in
theorem layoutEnd_eq (h0 : 0 ≤ off) (hpos : ∀ colDef ∈ colDefs, 0 < colDef.len)
    (hend : ∀ col ∈ colMetas tabName off colDefs, col.offset + col.len ≤ maxRecordSize) :
    layoutEnd off colDefs = off + (colDefs.map ColDef.len).sum := by
  induction colDefs generalizing off with
  | nil => simp [layoutEnd]
  | cons colDef colDefs ih =>
    rw [List.forall_mem_cons] at hpos
    rw [colMetas, List.forall_mem_cons] at hend
    have hlast : off + colDef.len ≤ (512 : Nat) := hend.1
    have hwrap : wrapInt (off + colDef.len) = off + colDef.len := wrapInt_of_lt (by omega) (by omega)
    rw [hwrap] at hend
    rw [layoutEnd, hwrap, ih (by omega) hpos.2 hend.2, List.map_cons, List.sum_cons, add_assoc]

variable (tabName) in
theorem colMetas_layout (h0 : 0 ≤ off) (hpos : ∀ colDef ∈ colDefs, 0 < colDef.len)
    (hsum : off + (colDefs.map ColDef.len).sum ≤ maxRecordSize) :
    (∀ col ∈ colMetas tabName off colDefs, 0 < col.len ∧ off ≤ col.offset ∧
        col.offset + col.len ≤ off + (colDefs.map ColDef.len).sum) ∧
      (colMetas tabName off colDefs).Pairwise (fun col col' => Disjoint col.bytes col'.bytes) ∧
      ∀ b, off ≤ b → b < off + (colDefs.map ColDef.len).sum → ∃ col ∈ colMetas tabName off colDefs, b ∈ col.bytes := by
  induction colDefs generalizing off with
  | nil =>
    refine ⟨nofun, List.Pairwise.nil, fun b hb hb' => ?_⟩
    simp only [List.map_nil, List.sum_nil] at hb'
    omega
  | cons colDef colDefs ih =>
    rw [List.forall_mem_cons] at hpos
    rw [List.map_cons, List.sum_cons, ← add_assoc] at hsum ⊢
    have hrest : 0 ≤ (colDefs.map ColDef.len).sum := by
      refine List.sum_nonneg fun len hlen => ?_
      obtain ⟨colDef', hmem, rfl⟩ := List.mem_map.1 hlen
      exact (hpos.2 _ hmem).le
    have hlimit : off + colDef.len + (colDefs.map ColDef.len).sum ≤ (512 : Nat) := hsum
    have hwrap : wrapInt (off + colDef.len) = off + colDef.len := wrapInt_of_lt (by omega) (by omega)
    obtain ⟨hin, hapart, hcover⟩ := ih (show 0 ≤ off + colDef.len by omega) hpos.2 hsum
    rw [colMetas, hwrap]
    refine ⟨?_, ?_, ?_⟩
    · rw [List.forall_mem_cons]
      refine ⟨⟨hpos.1, le_rfl, ?_⟩, fun col hcol => ?_⟩
      · show off + colDef.len ≤ _
        omega
      · obtain ⟨hlen, hoff, hend⟩ := hin col hcol
        exact ⟨hlen, by omega, hend⟩
    · rw [List.pairwise_cons]
      refine ⟨fun col hcol => Set.disjoint_left.2 fun b hb hb' => ?_, hapart⟩
      have hoff := (hin col hcol).2.1
      have hlast : b < off + colDef.len := hb.2
      have hfirst : col.offset ≤ b := hb'.1
      omega
    · intro b hb hb'
      by_cases hfirst : b < off + colDef.len
      · exact ⟨_, List.mem_cons_self, hb, hfirst⟩
      · obtain ⟨col, hcol, hbyte⟩ := hcover b (by omega) hb'
        exact ⟨col, List.mem_cons_of_mem _ hcol, hbyte⟩

theorem len_colMetas {P : Int → Prop} :
    (∀ col ∈ colMetas tabName off colDefs, P col.len) ↔ ∀ colDef ∈ colDefs, P colDef.len := by
  induction colDefs generalizing off with
  | nil => simp [colMetas]
  | cons colDef colDefs ih => simp [colMetas, ih]

variable (tabName) in
theorem soundLayout_iff (hsize : layoutEnd 0 colDefs ≤ maxRecordSize) :
    SoundLayout (colMetas tabName 0 colDefs) (layoutEnd 0 colDefs) ↔
      (∀ colDef ∈ colDefs, 0 < colDef.len) ∧ (colDefs.map ColDef.len).sum ≤ maxRecordSize := by
  constructor
  · intro h
    have hpos := len_colMetas.1 h.positive
    have hend := layoutEnd_eq tabName le_rfl hpos fun col hcol => (h.inside col hcol).2.trans hsize
    rw [zero_add] at hend
    exact ⟨hpos, hend ▸ hsize⟩
  · intro ⟨hpos, hsum⟩
    obtain ⟨hin, hapart, hcover⟩ := colMetas_layout tabName le_rfl hpos (by rwa [zero_add])
    have hend := layoutEnd_eq tabName le_rfl hpos fun col hcol => (hin col hcol).2.2.trans (by rwa [zero_add])
    rw [hend]
    exact ⟨fun col hcol => (hin col hcol).1, hapart, fun col hcol => (hin col hcol).2, hcover⟩

end Layout

/-! ## `CREATE TABLE` -/

section Create

variable {sm sm' : SmManager} {fd fd' : Int} {tabName : String} {colDefs : List ColDef}

theorem wp_onDisk_db {α : Type} (x : DiskManager.DiskExec α) :
    wp (onDisk x) (fun _ sm' => sm'.db = sm.db) (fun _ _ => True) sm := by
  unfold wp onDisk zoom
  cases x sm.disk with
  | mk r d => cases r <;> simp

theorem wp_rmCreateFile (recordSize : Int) : wp (SmManager.rmCreateFile fd tabName recordSize)
    (fun _ sm' => (1 ≤ recordSize ∧ recordSize ≤ maxRecordSize) ∧ sm'.db = sm.db) (fun _ _ => True) sm := by
  rw [SmManager.rmCreateFile]
  split
  · simp
  · next hsize =>
    rw [wp_bind]
    refine wp_mono (wp_onDisk_db _) (fun _ sm₁ h₁ => ?_) fun _ _ h => h
    rw [wp_bind]
    refine wp_mono (wp_onDisk_db _) (fun _ sm₂ h₂ => ?_) fun _ _ h => h
    exact wp_mono (wp_onDisk_db _) (fun _ _ h₃ => ⟨by omega, h₃.trans (h₂.trans h₁)⟩) fun _ _ h => h

theorem wp_createTable : wp (SmManager.createTable fd fd' tabName colDefs)
    (fun _ sm' => layoutEnd 0 colDefs ≤ maxRecordSize ∧ sm'.db.tabs.lookup tabName = some (.make tabName colDefs))
    (fun _ _ => True) sm := by
  rw [SmManager.createTable, wp_bind, wp_asks, wp_bind, DbMeta.createTable]
  split
  · exact trivial
  · rw [wp_ofRmdb_ok rfl, wp_bind]
    refine wp_mono (wp_rmCreateFile _) (fun _ sm₁ ⟨hsize, _⟩ => ?_) fun _ _ h => h
    rw [wp_bind, wp_modify, wp_bind]
    refine wp_mono (wp_onDisk_db _) (fun _ sm₂ h₂ => ?_) fun _ _ h => h
    rw [wp_modify]
    exact ⟨hsize.2, by rw [h₂, AList.lookup_insert]⟩

/-- A table that was created has a sound layout exactly when its columns all
have a length and these add up to no more than a record may have. -/
theorem createTable_sound_iff (hrun : SmManager.createTable fd fd' tabName colDefs sm = (.ok (), sm')) :
    (∃ tab, sm'.db.tabs.lookup tabName = some tab ∧ SoundLayout tab.cols (layoutEnd 0 colDefs)) ↔
      (∀ colDef ∈ colDefs, 0 < colDef.len) ∧ (colDefs.map ColDef.len).sum ≤ maxRecordSize := by
  have hpost : wp (SmManager.createTable fd fd' tabName colDefs) _ _ sm := wp_createTable
  rw [wp, hrun] at hpost
  obtain ⟨hsize, hlook⟩ := hpost
  rw [hlook, ← soundLayout_iff tabName hsize]
  simp [TabMeta.make]

end Create

def emptySm : SmManager := ⟨⟨"db", ∅⟩, ⟨{"db.meta"}, fun _ => none, fun _ => none⟩, fun _ => none, fun _ => none⟩

theorem createTable_sound_int_char :
    ∃ tab, (SmManager.createTable 3 3 "t" [⟨"a", .int, 4⟩, ⟨"b", .string, 8⟩] emptySm).2.db.tabs.lookup "t" = some tab ∧
      SoundLayout tab.cols 12 :=
  (createTable_sound_iff (show SmManager.createTable 3 3 "t" [⟨"a", .int, 4⟩, ⟨"b", .string, 8⟩] emptySm = (.ok (), _)
    from rfl)).2 ⟨by decide, by decide⟩

/-- `a char(-4), b char(8)` -/
theorem createTable_unsound : ∃ sm' tab,
    SmManager.createTable 3 3 "t" [⟨"a", .string, -4⟩, ⟨"b", .string, 8⟩] emptySm = (.ok (), sm') ∧
      sm'.db.tabs.lookup "t" = some tab ∧ ¬ SoundLayout tab.cols 4 :=
  ⟨_, _, rfl, rfl, fun h => absurd (h.positive _ List.mem_cons_self) (by decide)⟩

end Rmdb.Catalog
