/-
The catalog and its text.

`DbMeta` is written word by word: names, counts and numbers with white space
between them. The maps over the columns and the offsets of the columns in an
index are not written; `operator>>` computes them again, in one `IndexMeta` that
it uses for all indexes of a table.
-/
import Rmdb.Defs
import Rmdb.Lib.Text
import Mathlib.Data.List.AList

namespace Rmdb.Catalog

open List Text

/-! ## The data -/

structure ColMeta where
  tabName : String
  name : String
  type : ColType
  len : Int
  offset : Int
  deriving DecidableEq

/-- `cols` has the columns with their offsets in the index. -/
structure IndexMeta where
  tabName : String := ""
  colTotLen : Int := 0
  colNum : Int := 0
  cols : List (Int × ColMeta) := []
  colsMap : String → Option (Int × ColMeta) := fun _ => none

/-- `index_names_map` is left out: it is a cache, and not written. The order of
the indexes stands for the order in which the unordered map is gone through. -/
structure TabMeta where
  name : String
  cols : List ColMeta
  indexes : AList fun _ : String => IndexMeta
  colsMap : String → Option Nat

structure DbMeta where
  name : String
  tabs : AList fun _ : String => TabMeta

def emplaceIndex (indexes : AList fun _ : String => IndexMeta) (ixName : String) (index : IndexMeta) :
    AList fun _ : String => IndexMeta :=
  if ixName ∈ indexes then indexes else indexes.insert ixName index

/-- The columns of an index with their offsets, from `offset` on. -/
def withOffsets : Int → List ColMeta → List (Int × ColMeta)
  | _, [] => []
  | offset, col :: cols => (offset, col) :: withOffsets (offset + col.len) cols

def indexColsMap (m : String → Option (Int × ColMeta)) (cols : List (Int × ColMeta)) : String →
    Option (Int × ColMeta) :=
  cols.foldl (fun m c => emplace m c.2.name c) m

/-- The constructor of `IndexMeta`. -/
def IndexMeta.make (tabName : String) (colTotLen colNum : Int) (cols : List ColMeta) : IndexMeta where
  tabName := tabName
  colTotLen := colTotLen
  colNum := colNum
  cols := withOffsets 0 cols
  colsMap := indexColsMap (fun _ => none) (withOffsets 0 cols)

def tabColsMap (cols : List ColMeta) : String → Option Nat :=
  cols.zipIdx.foldl (fun m c => emplace m c.1.name c.2) fun _ => none

/-! ## The text -/

def typeNum : ColType → Int
  | .int => 0
  | .float => 1
  | .string => 2

def ColMeta.write (col : ColMeta) : List Char :=
  col.tabName.toList ++ ' ' :: (col.name.toList ++ ' ' :: (intText (typeNum col.type) ++ ' ' ::
    (intText col.len ++ ' ' :: intText col.offset)))

def IndexMeta.write (index : IndexMeta) : List Char :=
  index.tabName.toList ++ ' ' :: (intText index.colTotLen ++ ' ' :: (intText index.colNum ++
    index.cols.flatMap fun c => '\n' :: c.2.write))

def TabMeta.write (tab : TabMeta) : List Char :=
  tab.name.toList ++ '\n' :: (natText tab.cols.length ++ '\n' :: (tab.cols.flatMap (fun col => col.write ++ ['\n']) ++
    (natText tab.indexes.entries.length ++ '\n' ::
      tab.indexes.entries.flatMap fun e => e.1.toList ++ '\n' :: (e.2.write ++ ['\n']))))

def DbMeta.write (db : DbMeta) : List Char :=
  db.name.toList ++ '\n' :: (natText db.tabs.entries.length ++ '\n' ::
    db.tabs.entries.flatMap fun e => e.2.write ++ ['\n'])

/-- `is >> enum_val`; a number that is not of an enumerator counts as a failure. -/
def colType : IStream ColType := do
  let n ← int
  if n = 0 then return .int
  else if n = 1 then return .float
  else if n = 2 then return .string
  else failure

def ColMeta.read : IStream ColMeta := do
  let tabName ← word
  let name ← word
  let type ← colType
  let len ← int
  let offset ← int
  return { tabName, name, type, len, offset }

def IndexMeta.readCols : Nat → Int → List (Int × ColMeta) → IStream (List (Int × ColMeta))
  | 0, _, cols => return cols
  | n + 1, offset, cols => do
    let col ← ColMeta.read
    readCols n (offset + col.len) (cols ++ [(offset, col)])

/-- The columns are put behind those that the variable has. -/
def IndexMeta.read (index : IndexMeta) : IStream IndexMeta := do
  let tabName ← word
  let colTotLen ← int
  let colNum ← int
  let cols ← readCols colNum.toNat 0 index.cols
  return { tabName, colTotLen, colNum, cols, colsMap := indexColsMap index.colsMap cols }

def TabMeta.readCols : Nat → List ColMeta → IStream (List ColMeta)
  | 0, cols => return cols
  | n + 1, cols => do
    let col ← ColMeta.read
    readCols n (cols ++ [col])

/-- `n` indexes, read into one variable. What `std::move` leaves in it is
`moved`; then `cols` and `cols_map` are cleared. -/
def TabMeta.readIndexes (moved : IndexMeta → IndexMeta) : Nat → IndexMeta → (AList fun _ : String => IndexMeta) →
    IStream (AList fun _ : String => IndexMeta)
  | 0, _, indexes => return indexes
  | n + 1, index, indexes => do
    let indexName ← word
    let index ← index.read
    readIndexes moved n { moved index with cols := [], colsMap := fun _ => none } (emplaceIndex indexes indexName index)

def TabMeta.read (moved : IndexMeta → IndexMeta) : IStream TabMeta := do
  let name ← word
  let n ← size
  let cols ← readCols n []
  let n ← size
  let indexes ← readIndexes moved n {} ∅
  return { name, cols, indexes, colsMap := tabColsMap cols }

def DbMeta.readTabs (moved : IndexMeta → IndexMeta) : Nat → (AList fun _ : String => TabMeta) →
    IStream (AList fun _ : String => TabMeta)
  | 0, tabs => return tabs
  | n + 1, tabs => do
    let tab ← TabMeta.read moved
    readTabs moved n (tabs.insert tab.name tab)

/-- Into an empty `DbMeta`. -/
def DbMeta.read (moved : IndexMeta → IndexMeta) : IStream DbMeta := do
  let name ← word
  let n ← size
  let tabs ← readTabs moved n ∅
  return { name, tabs }

/-! ## What is read of what is written -/

def ColMeta.Named (col : ColMeta) : Prop := IsName col.tabName ∧ IsName col.name

theorem isSpace_blank : isSpace ' ' := by decide

theorem isSpace_newline : isSpace '\n' := by decide

theorem words_lines {α : Type} (f : α → List Char) (xs : List α) (rest : List Char) :
    words (xs.flatMap (fun x => f x ++ ['\n']) ++ rest) = xs.flatMap (fun x => words (f x)) ++ words rest := by
  induction xs with
  | nil => rfl
  | cons x xs ih =>
    rw [flatMap_cons, flatMap_cons, append_assoc, append_assoc, singleton_append,
      words_append isSpace_newline, ih, append_assoc]

theorem words_newlines {α : Type} (as : List Char) (f : α → List Char) (xs : List α) :
    words (as ++ xs.flatMap fun x => '\n' :: f x) = words as ++ xs.flatMap fun x => words (f x) := by
  induction xs generalizing as with
  | nil => simp
  | cons x xs ih =>
    rw [flatMap_cons, flatMap_cons, cons_append, words_append isSpace_newline, ih]

theorem reads_colType (t : ColType) : Reads colType [intText (typeNum t)] t := by
  have hnum : Reads (if typeNum t = 0 then return .int else if typeNum t = 1 then return .float
      else if typeNum t = 2 then return .string else failure : IStream ColType) [] t := by
    cases t <;> exact .pure _
  exact (reads_int (typeNum t)).bind hnum

variable {col : ColMeta} {cols : List ColMeta} {index : IndexMeta} {tab : TabMeta} {tabName : String}

theorem ColMeta.words_write (h : col.Named) : words col.write = [col.tabName.toList] ++
      ([col.name.toList] ++ ([intText (typeNum col.type)] ++ ([intText col.len] ++ ([intText col.offset] ++ [])))) := by
  rw [write, words_append isSpace_blank, words_append isSpace_blank, words_append isSpace_blank,
    words_append isSpace_blank,
    words_name h.1, words_name h.2, words_intText, words_intText, words_intText, append_nil]

theorem ColMeta.reads (h : col.Named) : Reads ColMeta.read (words col.write) col := by
  rw [words_write h, read]
  exact (reads_word h.1).bind
    ((reads_word h.2).bind ((reads_colType _).bind ((reads_int _).bind ((reads_int _).bind (.pure _)))))

theorem TabMeta.reads_cols (h : ∀ col ∈ cols, col.Named) (before : List ColMeta) :
    Reads (TabMeta.readCols cols.length before) (cols.flatMap fun col => words col.write) (before ++ cols) := by
  induction cols generalizing before with
  | nil =>
    rw [append_nil]
    exact .pure before
  | cons col cols ih =>
    obtain ⟨hcol, hcols⟩ := forall_mem_cons.1 h
    rw [flatMap_cons, length_cons, readCols]
    have hrest := ih hcols (before ++ [col])
    rw [append_assoc, singleton_append] at hrest
    exact (ColMeta.reads hcol).bind hrest

theorem IndexMeta.reads_cols (h : ∀ col ∈ cols, col.Named) (offset : Int) (before : List (Int × ColMeta)) :
    Reads (IndexMeta.readCols cols.length offset before) (cols.flatMap fun col => words col.write)
      (before ++ withOffsets offset cols) := by
  induction cols generalizing offset before with
  | nil =>
    rw [withOffsets, append_nil]
    exact .pure before
  | cons col cols ih =>
    obtain ⟨hcol, hcols⟩ := forall_mem_cons.1 h
    rw [flatMap_cons, length_cons, readCols, withOffsets]
    have hrest := ih hcols (offset + col.len) (before ++ [(offset, col)])
    rw [append_assoc, singleton_append] at hrest
    exact (ColMeta.reads hcol).bind hrest

structure IndexMeta.Made (index : IndexMeta) (cols : List ColMeta) : Prop where
  eq : index = make index.tabName index.colTotLen cols.length cols
  tabName : IsName index.tabName
  cols : ∀ col ∈ cols, col.Named

theorem flatMap_withOffsets {β : Type} (f : ColMeta → List β) (offset : Int) (cols : List ColMeta) :
    (withOffsets offset cols).flatMap (fun c => f c.2) = cols.flatMap f := by
  induction cols generalizing offset with
  | nil => rfl
  | cons col cols ih => rw [withOffsets, flatMap_cons, flatMap_cons, ih]

theorem IndexMeta.Made.words_write (h : index.Made cols) : words index.write = [index.tabName.toList] ++
      ([intText index.colTotLen] ++ ([intText cols.length] ++ (cols.flatMap (fun col => words col.write) ++ []))) := by
  have hcols : index.cols = withOffsets 0 cols := by rw [h.eq]; rfl
  have hnum : index.colNum = cols.length := by rw [h.eq]; rfl
  rw [write, words_append isSpace_blank, words_append isSpace_blank, words_newlines, words_name h.tabName,
    words_intText,
    words_intText, hcols, hnum, flatMap_withOffsets fun col => words col.write, append_nil]

theorem IndexMeta.Made.reads (h : index.Made cols) {before : IndexMeta}
    (hcols : before.cols = []) (hmap : before.colsMap = fun _ => none) :
    Reads before.read (words index.write) index := by
  rw [h.words_write, read]
  refine (reads_word h.tabName).bind
    ((reads_int _).bind ((reads_int _).bind ((reads_cols h.cols 0 before.cols).bind ?_)))
  rw [hcols, hmap]
  have hpure := Reads.pure index
  nth_rewrite 1 [h.eq] at hpure
  exact hpure

/-! ### Maps -/

section

variable {α β : Type}

def insertAll (m : AList fun _ : String => α) (es : List (Σ _ : String, α)) : AList fun _ : String => α :=
  es.foldl (fun m e => m.insert e.1 e.2) m

def Fresh (m : AList fun _ : String => α) (es : List (Σ _ : String, α)) : Prop := es.NodupKeys ∧ ∀ e ∈ es, e.1 ∉ m

variable {es : List (Σ _ : String, α)}

theorem Fresh.cons {m : AList fun _ : String => α} {e : Σ _ : String, α} (h : Fresh m (e :: es))
    (v : α) : Fresh (m.insert e.1 v) es := by
  obtain ⟨hnodup, hnew⟩ := h
  rw [nodupKeys_cons] at hnodup
  refine ⟨hnodup.2, fun e' he' hmem => ?_⟩
  rcases (AList.mem_insert m).1 hmem with heq | hmem
  · exact hnodup.1 (heq ▸ mem_keys_of_mem he')
  · exact hnew e' (by simp [he']) hmem

theorem lookup_insertAll {m : AList fun _ : String => α} (h : Fresh m es) (k : String) :
    (insertAll m es).lookup k = (es.dlookup k).or (m.lookup k) := by
  induction es generalizing m with
  | nil => rfl
  | cons e es ih =>
    obtain ⟨k', v⟩ := e
    change (insertAll (m.insert k' v) es).lookup k = _
    rw [ih (h.cons v)]
    by_cases hk : k = k'
    · subst hk
      have hnone : es.dlookup k = none := dlookup_eq_none.2 (nodupKeys_cons.1 h.1).1
      rw [hnone, AList.lookup_insert, dlookup_cons_eq]
      rfl
    · rw [AList.lookup_insert_ne hk, dlookup_cons_ne _ _ hk]

theorem lookup_insertAll_empty (m : AList fun _ : String => α) (f : α → β) (k : String) :
    (insertAll ∅ (m.entries.map fun e => (⟨e.1, f e.2⟩ : Σ _ : String, β))).lookup k = (m.lookup k).map f := by
  have hkeys : (m.entries.map fun e => (⟨e.1, f e.2⟩ : Σ _ : String, β)).keys = m.entries.keys := by
    rw [List.keys, List.keys, map_map]
    rfl
  have hfresh : Fresh ∅ (m.entries.map fun e => (⟨e.1, f e.2⟩ : Σ _ : String, β)) :=
    ⟨by rw [List.NodupKeys, hkeys]; exact m.nodupKeys, fun e _ => AList.notMem_empty e.1⟩
  rw [lookup_insertAll hfresh, AList.lookup_empty, Option.or_none, AList.lookup]
  generalize m.entries = es
  induction es with
  | nil => rfl
  | cons e es ih =>
    obtain ⟨k', v⟩ := e
    rw [map_cons]
    by_cases hk : k = k'
    · subst hk
      rw [dlookup_cons_eq, dlookup_cons_eq]
      rfl
    · rw [dlookup_cons_ne _ _ hk, dlookup_cons_ne _ _ hk, ih]

end

/-! ### Tables and databases -/

/-- The columns and the indexes are as the constructors make them, with the names of the lexer. -/
structure TabMeta.Made (tab : TabMeta) : Prop where
  name : IsName tab.name
  cols : ∀ col ∈ tab.cols, col.Named
  colsMap : tab.colsMap = tabColsMap tab.cols
  indexes : ∀ e ∈ tab.indexes.entries, IsName e.1 ∧ ∃ cols, e.2.Made cols

structure DbMeta.Made (db : DbMeta) : Prop where
  name : IsName db.name
  tabs : ∀ e ∈ db.tabs.entries, e.2.name = e.1 ∧ e.2.Made

/-- The table with its indexes put together again. -/
def TabMeta.rebuilt (tab : TabMeta) : TabMeta := { tab with indexes := insertAll ∅ tab.indexes.entries }

def DbMeta.rebuilt (db : DbMeta) : DbMeta :=
  { db with tabs := insertAll ∅ (db.tabs.entries.map fun e => ⟨e.1, e.2.rebuilt⟩) }

theorem TabMeta.reads_indexes (moved : IndexMeta → IndexMeta) {es : List (Σ _ : String, IndexMeta)}
    (hes : ∀ e ∈ es, IsName e.1 ∧ ∃ cols, e.2.Made cols) (hcols : index.cols = [])
    (hmap : index.colsMap = fun _ => none) {m : AList fun _ : String => IndexMeta} (hfresh : Fresh m es) :
    Reads (readIndexes moved es.length index m) (es.flatMap fun e => [e.1.toList] ++ words e.2.write)
      (insertAll m es) := by
  induction es generalizing index m with
  | nil => exact .pure m
  | cons e es ih =>
    obtain ⟨⟨hname, cols, hmade⟩, hrest⟩ := forall_mem_cons.1 hes
    have hnew : e.1 ∉ m := hfresh.2 e (by simp)
    rw [flatMap_cons, length_cons, readIndexes, append_assoc]
    refine (reads_word hname).bind ((hmade.reads hcols hmap).bind ?_)
    rw [emplaceIndex, if_neg hnew]
    exact ih hrest rfl rfl (hfresh.cons e.2)

theorem fresh_entries {α : Type} (m : AList fun _ : String => α) : Fresh ∅ m.entries :=
  ⟨m.nodupKeys, fun e _ => AList.notMem_empty e.1⟩

theorem TabMeta.Made.words_write (h : tab.Made) : words tab.write =
    [tab.name.toList] ++ ([natText tab.cols.length] ++ (tab.cols.flatMap (fun col => words col.write) ++
      ([natText tab.indexes.entries.length] ++
        ((tab.indexes.entries.flatMap fun e => [e.1.toList] ++ words e.2.write) ++ [])))) := by
  have hindexes : words (tab.indexes.entries.flatMap fun e => e.1.toList ++ '\n' :: (e.2.write ++ ['\n'])) =
      tab.indexes.entries.flatMap fun e => [e.1.toList] ++ words e.2.write := by
    have hlines := words_lines (fun e : Σ _ : String, IndexMeta => e.1.toList ++ '\n' :: e.2.write)
      tab.indexes.entries []
    simp only [append_assoc, cons_append, append_nil, words_nil] at hlines
    rw [hlines]
    refine flatMap_congr fun e he => ?_
    rw [words_append isSpace_newline, words_name (h.indexes e he).1]
  rw [write, words_append isSpace_newline, words_append isSpace_newline, words_lines, words_append isSpace_newline,
    hindexes,
    words_name h.name, words_natText, words_natText, append_nil]

theorem TabMeta.Made.reads (h : tab.Made) (moved : IndexMeta → IndexMeta) :
    Reads (TabMeta.read moved) (words tab.write) tab.rebuilt := by
  rw [h.words_write, TabMeta.read]
  refine (reads_word h.name).bind ((reads_size _).bind ((reads_cols h.cols []).bind ((reads_size _).bind
    ((reads_indexes moved h.indexes rfl rfl (fresh_entries _)).bind ?_))))
  rw [nil_append, ← h.colsMap]
  exact .pure _

theorem DbMeta.reads_tabs (moved : IndexMeta → IndexMeta) {es : List (Σ _ : String, TabMeta)}
    (hes : ∀ e ∈ es, e.2.name = e.1 ∧ e.2.Made) (m : AList fun _ : String => TabMeta) :
    Reads (readTabs moved es.length m) (es.flatMap fun e => words e.2.write)
      (insertAll m (es.map fun e => ⟨e.1, e.2.rebuilt⟩)) := by
  induction es generalizing m with
  | nil => exact .pure m
  | cons e es ih =>
    obtain ⟨⟨hname, hmade⟩, hrest⟩ := forall_mem_cons.1 hes
    rw [flatMap_cons, length_cons, readTabs]
    refine (hmade.reads moved).bind ?_
    have hkey : e.2.rebuilt.name = e.1 := hname
    rw [hkey]
    exact ih hrest _

theorem DbMeta.Made.reads {db : DbMeta} (h : db.Made) (moved : IndexMeta → IndexMeta) :
    Reads (DbMeta.read moved) (words db.write) db.rebuilt := by
  have hwords : words db.write = [db.name.toList] ++ ([natText db.tabs.entries.length] ++
      (db.tabs.entries.flatMap (fun e => words e.2.write) ++ [])) := by
    have hlines := words_lines (fun e : Σ _ : String, TabMeta => e.2.write) db.tabs.entries []
    rw [append_nil, words_nil, append_nil] at hlines
    rw [write, words_append isSpace_newline, words_append isSpace_newline, hlines, words_name h.name, words_natText,
      append_nil]
  rw [hwords, DbMeta.read]
  exact (reads_word h.name).bind ((reads_size _).bind ((reads_tabs moved h.tabs ∅).bind (.pure _)))

/-! ## The same catalog -/

/-- The same table: the order in which the indexes come does not count. -/
structure TabMeta.Same (tab tab' : TabMeta) : Prop where
  name : tab.name = tab'.name
  cols : tab.cols = tab'.cols
  colsMap : tab.colsMap = tab'.colsMap
  indexes : ∀ k, tab.indexes.lookup k = tab'.indexes.lookup k

structure DbMeta.Same (db db' : DbMeta) : Prop where
  name : db.name = db'.name
  tabs : ∀ k, Option.Rel TabMeta.Same (db.tabs.lookup k) (db'.tabs.lookup k)

theorem TabMeta.Same.refl (tab : TabMeta) : tab.Same tab := ⟨rfl, rfl, rfl, fun _ => rfl⟩

theorem DbMeta.Same.refl (db : DbMeta) : db.Same db := by
  refine ⟨rfl, fun k => ?_⟩
  cases db.tabs.lookup k with
  | none => exact .none
  | some tab => exact .some (.refl tab)

theorem TabMeta.same_rebuilt (tab : TabMeta) : tab.rebuilt.Same tab where
  name := rfl
  cols := rfl
  colsMap := rfl
  indexes k := by
    rw [rebuilt, lookup_insertAll (fresh_entries _), AList.lookup_empty, Option.or_none]
    rfl

theorem DbMeta.same_rebuilt (db : DbMeta) : db.rebuilt.Same db where
  name := rfl
  tabs k := by
    rw [rebuilt, lookup_insertAll_empty]
    cases db.tabs.lookup k with
    | none => exact .none
    | some tab => exact .some tab.same_rebuilt

/-! ## The statements that change the catalog -/

structure ColDef where
  name : String
  type : ColType
  len : Int

/-- The columns of a new table, from `currOffset` on. -/
def colMetas (tabName : String) : Int → List ColDef → List ColMeta
  | _, [] => []
  | currOffset, colDef :: colDefs =>
    { tabName, name := colDef.name, type := colDef.type, len := colDef.len, offset := currOffset } ::
      colMetas tabName (wrapInt (currOffset + colDef.len)) colDefs

def TabMeta.make (tabName : String) (colDefs : List ColDef) : TabMeta where
  name := tabName
  cols := colMetas tabName 0 colDefs
  indexes := ∅
  colsMap := tabColsMap (colMetas tabName 0 colDefs)

/-- `cols_map` has positions of columns only. -/
def TabMeta.getCol (tab : TabMeta) (colName : String) : Except RMDBError ColMeta :=
  match (tab.colsMap colName).bind fun i => tab.cols[i]? with
  | none => .error (.columnNotFound colName)
  | some col => .ok col

def getIndexName (filename : String) (indexCols : List String) : String :=
  indexCols.foldl (fun s col => s ++ "_" ++ col) filename ++ ".idx"

namespace DbMeta

def getTable (db : DbMeta) (tabName : String) : Except RMDBError TabMeta :=
  match db.tabs.lookup tabName with
  | none => .error (.tableNotFound tabName)
  | some tab => .ok tab

def createTable (db : DbMeta) (tabName : String) (colDefs : List ColDef) : Except RMDBError DbMeta :=
  if tabName ∈ db.tabs then .error (.tableExists tabName)
  else .ok { db with tabs := db.tabs.insert tabName (.make tabName colDefs) }

def dropTable (db : DbMeta) (tabName : String) : Except RMDBError DbMeta :=
  if tabName ∈ db.tabs then .ok { db with tabs := db.tabs.erase tabName } else .error (.tableNotFound tabName)

def addIndex (db : DbMeta) (tabName : String) (tab : TabMeta) (colNames : List String) (cols : List ColMeta) : DbMeta :=
  let index := IndexMeta.make tabName (cols.map ColMeta.len).sum colNames.length cols
  let tab := { tab with indexes := emplaceIndex tab.indexes (getIndexName tabName colNames) index }
  { db with tabs := db.tabs.insert tabName tab }

def createIndex (db : DbMeta) (tabName : String) (colNames : List String) : Except RMDBError DbMeta := do
  let tab ← db.getTable tabName
  let cols ← colNames.mapM tab.getCol
  return db.addIndex tabName tab colNames cols

def dropIndex (db : DbMeta) (tabName : String) (colNames : List String) : Except RMDBError DbMeta := do
  let tab ← db.getTable tabName
  let tab := { tab with indexes := tab.indexes.erase (getIndexName tabName colNames) }
  return { db with tabs := db.tabs.insert tabName tab }

end DbMeta

inductive Ddl where
  | createTable (tabName : String) (colDefs : List ColDef)
  | dropTable (tabName : String)
  | createIndex (tabName : String) (colNames : List String)
  | dropIndex (tabName : String) (colNames : List String)

def Ddl.Named : Ddl → Prop
  | .createTable tabName colDefs => IsName tabName ∧ ∀ colDef ∈ colDefs, IsName colDef.name
  | .dropTable tabName => IsName tabName
  | .createIndex tabName colNames | .dropIndex tabName colNames => IsName tabName ∧ ∀ colName ∈ colNames, IsName colName

instance : (op : Ddl) → Decidable op.Named
  | .createTable _ _ => inferInstanceAs (Decidable (_ ∧ _))
  | .dropTable _ => inferInstanceAs (Decidable (IsName _))
  | .createIndex _ _ => inferInstanceAs (Decidable (_ ∧ _))
  | .dropIndex _ _ => inferInstanceAs (Decidable (_ ∧ _))

def DbMeta.ddl (db : DbMeta) : Ddl → Except RMDBError DbMeta
  | .createTable tabName colDefs => db.createTable tabName colDefs
  | .dropTable tabName => db.dropTable tabName
  | .createIndex tabName colNames => db.createIndex tabName colNames
  | .dropIndex tabName colNames => db.dropIndex tabName colNames

/-- A statement, and whether all it does outside the catalog goes through: the
files, the records, the keys. An exception leaves the catalog as it is. -/
def DbMeta.step (db : DbMeta) (op : Ddl × Bool) : DbMeta :=
  match op.2, db.ddl op.1 with
  | true, .ok db' => db'
  | _, _ => db

def DbMeta.run (db : DbMeta) (ops : List (Ddl × Bool)) : DbMeta := ops.foldl DbMeta.step db

/-! ### What they keep -/

theorem isName_append {s t : String} (hs : IsName s) (ht : ∀ c ∈ t.toList, isSpace c = false) : IsName (s ++ t) := by
  refine ⟨fun h => hs.1 ?_, fun c hc => ?_⟩
  · rw [String.toList_append, append_eq_nil_iff] at h
    exact h.1
  · rw [String.toList_append, mem_append] at hc
    exact hc.elim (hs.2 c) (ht c)

theorem isName_getIndexName {colNames : List String} (htab : IsName tabName)
    (hcols : ∀ colName ∈ colNames, IsName colName) : IsName (getIndexName tabName colNames) := by
  have hend : IsName ".idx" := by decide
  refine isName_append ?_ hend.2
  induction colNames generalizing tabName with
  | nil => exact htab
  | cons colName colNames ih =>
    obtain ⟨hcol, hrest⟩ := forall_mem_cons.1 hcols
    have hsep : IsName "_" := by decide
    exact ih (isName_append (isName_append htab hsep.2) hcol.2) hrest

variable {colDefs : List ColDef}

theorem named_colMetas (htab : IsName tabName)
    (hdefs : ∀ colDef ∈ colDefs, IsName colDef.name) (offset : Int) : ∀ col ∈ colMetas tabName offset colDefs,
    col.Named := by
  induction colDefs generalizing offset with
  | nil => simp [colMetas]
  | cons colDef colDefs ih =>
    obtain ⟨hdef, hrest⟩ := forall_mem_cons.1 hdefs
    exact forall_mem_cons.2 ⟨⟨htab, hdef⟩, ih hrest _⟩

theorem TabMeta.made_make (htab : IsName tabName)
    (hdefs : ∀ colDef ∈ colDefs, IsName colDef.name) : (TabMeta.make tabName colDefs).Made where
  name := htab
  cols := named_colMetas htab hdefs 0
  colsMap := rfl
  indexes _ he := absurd he not_mem_nil

theorem TabMeta.mem_of_getCol {colName : String} (h : tab.getCol colName = .ok col) : col ∈ tab.cols := by
  unfold getCol at h
  split at h
  · cases h
  · next c hc =>
    obtain ⟨i, -, hi⟩ := Option.bind_eq_some_iff.1 hc
    cases h
    exact mem_of_getElem? hi

theorem TabMeta.mem_of_getCols {colNames : List String}
    (h : colNames.mapM tab.getCol = .ok cols) : cols.length = colNames.length ∧ ∀ col ∈ cols, col ∈ tab.cols := by
  induction colNames generalizing cols with
  | nil =>
    cases h
    simp
  | cons colName colNames ih =>
    rw [mapM_cons] at h
    cases hcol : tab.getCol colName with
    | error e => rw [hcol] at h; cases h
    | ok col =>
      cases hcols : colNames.mapM tab.getCol with
      | error e => rw [hcol, hcols] at h; cases h
      | ok rest =>
        rw [hcol, hcols] at h
        cases h
        obtain ⟨hlen, hmem⟩ := ih hcols
        exact ⟨by simp [hlen], forall_mem_cons.2 ⟨mem_of_getCol hcol, hmem⟩⟩

theorem TabMeta.Made.setIndexes (h : tab.Made) {indexes : AList fun _ : String => IndexMeta}
    (hindexes : ∀ e ∈ indexes.entries, IsName e.1 ∧ ∃ cols, e.2.Made cols) :
    TabMeta.Made { tab with indexes := indexes } :=
  ⟨h.name, h.cols, h.colsMap, hindexes⟩

section

variable {α : Type} {P : String → α → Prop} {m : AList fun _ : String => α} {k : String} {v : α}

theorem forall_insert (h : ∀ e ∈ m.entries, P e.1 e.2) (hv : P k v) : ∀ e ∈ (m.insert k v).entries, P e.1 e.2 := by
  intro e he
  have hlookup : (m.insert k v).lookup e.1 = some e.2 := AList.mem_lookup_iff.2 he
  by_cases hk : e.1 = k
  · rw [hk, AList.lookup_insert, Option.some.injEq] at hlookup
    rwa [hk, ← hlookup]
  · rw [AList.lookup_insert_ne hk] at hlookup
    exact h e (AList.mem_lookup_iff.1 hlookup)

theorem forall_erase (h : ∀ e ∈ m.entries, P e.1 e.2) : ∀ e ∈ (m.erase k).entries, P e.1 e.2 := by
  intro e he
  have hlookup : (m.erase k).lookup e.1 = some e.2 := AList.mem_lookup_iff.2 he
  by_cases hk : e.1 = k
  · rw [hk, AList.lookup_erase] at hlookup
    cases hlookup
  · rw [AList.lookup_erase_ne hk] at hlookup
    exact h e (AList.mem_lookup_iff.1 hlookup)

end

namespace DbMeta.Made

variable {db db' : DbMeta} {tabName : String} {tab : TabMeta}

theorem insertTable (h : db.Made) (htab : tab.name = tabName ∧ tab.Made) :
    DbMeta.Made { db with tabs := db.tabs.insert tabName tab } :=
  ⟨h.name, forall_insert (P := fun k (tab : TabMeta) => tab.name = k ∧ tab.Made) h.tabs htab⟩

theorem getTable (h : db.Made) (htab : db.getTable tabName = .ok tab) : tab.name = tabName ∧ tab.Made := by
  unfold DbMeta.getTable at htab
  split at htab
  · cases htab
  · next t ht =>
    cases htab
    exact h.tabs ⟨tabName, tab⟩ (AList.mem_lookup_iff.1 ht)

theorem createTable (h : db.Made) {colDefs : List ColDef} (htab : IsName tabName)
    (hdefs : ∀ colDef ∈ colDefs, IsName colDef.name) (hrun : db.createTable tabName colDefs = .ok db') : db'.Made := by
  unfold DbMeta.createTable at hrun
  split at hrun
  · cases hrun
  · cases hrun
    exact h.insertTable ⟨rfl, TabMeta.made_make htab hdefs⟩

theorem dropTable (h : db.Made) (hrun : db.dropTable tabName = .ok db') : db'.Made := by
  unfold DbMeta.dropTable at hrun
  split at hrun
  · cases hrun
    exact ⟨h.name, forall_erase (P := fun k (tab : TabMeta) => tab.name = k ∧ tab.Made) h.tabs⟩
  · cases hrun

variable {colNames : List String}

theorem addIndex (h : db.Made) (htab : tab.name = tabName ∧ tab.Made)
    (hnames : ∀ colName ∈ colNames, IsName colName) {cols : List ColMeta} (hcols : colNames.mapM tab.getCol = .ok cols) :
    (db.addIndex tabName tab colNames cols).Made := by
  obtain ⟨rfl, hmade⟩ := htab
  obtain ⟨hlen, hmem⟩ := TabMeta.mem_of_getCols hcols
  refine h.insertTable ⟨rfl, hmade.setIndexes ?_⟩
  unfold emplaceIndex
  split
  · exact hmade.indexes
  · refine forall_insert (P := fun k (index : IndexMeta) => IsName k ∧ ∃ cols, index.Made cols) hmade.indexes
      ⟨isName_getIndexName hmade.name hnames, cols, ?_, hmade.name, fun col hcol => hmade.cols col (hmem col hcol)⟩
    rw [← hlen]
    rfl

theorem createIndex (h : db.Made) (hnames : ∀ colName ∈ colNames, IsName colName)
    (hrun : db.createIndex tabName colNames = .ok db') : db'.Made := by
  unfold DbMeta.createIndex at hrun
  cases htab : db.getTable tabName with
  | error e => rw [htab] at hrun; cases hrun
  | ok tab =>
    rw [htab] at hrun
    change (colNames.mapM tab.getCol >>= fun cols => pure (db.addIndex tabName tab colNames cols)) = _ at hrun
    cases hcols : colNames.mapM tab.getCol with
    | error e => rw [hcols] at hrun; cases hrun
    | ok cols =>
      rw [hcols] at hrun
      cases hrun
      exact h.addIndex (h.getTable htab) hnames hcols

theorem dropIndex (h : db.Made) (hrun : db.dropIndex tabName colNames = .ok db') : db'.Made := by
  unfold DbMeta.dropIndex at hrun
  cases htab : db.getTable tabName with
  | error e => rw [htab] at hrun; cases hrun
  | ok tab =>
    rw [htab] at hrun
    cases hrun
    obtain ⟨hname, hmade⟩ := h.getTable htab
    exact h.insertTable ⟨hname, hmade.setIndexes
      (forall_erase (P := fun k (index : IndexMeta) => IsName k ∧ ∃ cols, index.Made cols) hmade.indexes)⟩

theorem ddl (h : db.Made) {op : Ddl} (hop : op.Named) (hrun : db.ddl op = .ok db') : db'.Made := by
  cases op with
  | createTable tabName colDefs => exact h.createTable hop.1 hop.2 hrun
  | dropTable tabName => exact h.dropTable hrun
  | createIndex tabName colNames => exact h.createIndex hop.2 hrun
  | dropIndex tabName colNames => exact h.dropIndex hrun

theorem step (h : db.Made) {op : Ddl × Bool} (hop : op.1.Named) : (db.step op).Made := by
  unfold DbMeta.step
  split
  · next hrun => exact h.ddl hop hrun
  · exact h

theorem run (h : db.Made) {ops : List (Ddl × Bool)} (hops : ∀ op ∈ ops, op.1.Named) : (db.run ops).Made := by
  induction ops generalizing db with
  | nil => exact h
  | cons op ops ih =>
    obtain ⟨hop, hrest⟩ := forall_mem_cons.1 hops
    exact ih (h.step hop) hrest

end DbMeta.Made

/-! ## Writing and reading -/

theorem TabMeta.Made.of_same {tab' : TabMeta} (h : tab.Made) (hsame : tab'.Same tab) : tab'.Made := by
  refine ⟨hsame.name ▸ h.name, hsame.cols ▸ h.cols, ?_, fun e he => ?_⟩
  · rw [hsame.colsMap, hsame.cols, h.colsMap]
  · have hlookup : tab'.indexes.lookup e.1 = some e.2 := AList.mem_lookup_iff.2 he
    rw [hsame.indexes] at hlookup
    exact h.indexes e (AList.mem_lookup_iff.1 hlookup)

theorem DbMeta.Made.of_same {db db' : DbMeta} (h : db.Made) (hsame : db'.Same db) : db'.Made := by
  refine ⟨hsame.name ▸ h.name, fun e he => ?_⟩
  have hlookup : db'.tabs.lookup e.1 = some e.2 := AList.mem_lookup_iff.2 he
  have hrel := hsame.tabs e.1
  rw [hlookup] at hrel
  cases htab : db.tabs.lookup e.1 with
  | none =>
    rw [htab] at hrel
    cases hrel
  | some tab =>
    rw [htab] at hrel
    cases hrel with
    | some htabs =>
      obtain ⟨hname, hmade⟩ := h.tabs ⟨e.1, tab⟩ (AList.mem_lookup_iff.1 htab)
      exact ⟨htabs.name.trans hname, hmade.of_same htabs⟩

/-- The catalog survives a restart. `db` is a catalog that the statements lead
to, with its tables and indexes in any order; `moved` is what `std::move` leaves
in the variable that the indexes are read into. -/
theorem run_read_write (name : String) (hname : IsName name) (ops : List (Ddl × Bool)) (hops : ∀ op ∈ ops, op.1.Named)
    (db : DbMeta) (hdb : db.Same (DbMeta.run ⟨name, ∅⟩ ops)) (moved : IndexMeta → IndexMeta) :
    ∃ db' rest, (DbMeta.read moved).run db.write = some (db', rest) ∧ db'.Same db := by
  have hempty : DbMeta.Made ⟨name, ∅⟩ := ⟨hname, fun _ he => absurd he not_mem_nil⟩
  have hmade : db.Made := (hempty.run hops).of_same hdb
  obtain ⟨rest, hrun⟩ := (hmade.reads moved).exists_run rfl
  exact ⟨db.rebuilt, rest, hrun, db.same_rebuilt⟩

def twoIndexes : List (Ddl × Bool) :=
  [(.createTable "t" [⟨"a", .int, 4⟩, ⟨"b", .string, 8⟩], true), (.createIndex "t" ["b", "a"], true),
    (.createIndex "t" ["a"], true)]

theorem run_read_write_twoIndexes : ((DbMeta.run ⟨"db", ∅⟩ twoIndexes).tabs.lookup "t").map
    (fun tab => tab.indexes.keys) =
      some ["t_a.idx", "t_b_a.idx"] ∧
    ∃ db' rest, (DbMeta.read id).run (DbMeta.run ⟨"db", ∅⟩ twoIndexes).write = some (db', rest) ∧
      db'.Same (DbMeta.run ⟨"db", ∅⟩ twoIndexes) :=
  ⟨by decide, run_read_write "db" (by decide) twoIndexes (by decide) _ (.refl _) id⟩

end Rmdb.Catalog
