/-
`CREATE INDEX`, with the files it makes.

`SmManager::create_index` has `IxManager` create the file of the index, opens
it, and puts the key of every record into it. When a key is there twice, it
closes the file and deletes it again, but when `IxManager` finds the key too
long, the file is there already and open, and stays so.
-/
import Rmdb.Execution.SeqScan
import Rmdb.System.Catalog

namespace Rmdb.Catalog

open Exec Index Record
open Execution (Fault rmScan tableRids)

/-! ## Files -/

/-- The files on disk, and the open-file tables of `DiskManager`. -/
structure DiskManager where
  files : Finset String
  path2fd : String → Option Int
  fd2path : Int → Option String

structure OpenIndex where
  fd : Int
  cols : List KeyCol
  ih : IxIndexHandle (Key cols) (btreeOrder cols)

/-- `SmManager`, with what `RmManager` and `IxManager` work on. -/
structure SmManager where
  db : DbMeta
  disk : DiskManager
  fhs : String → Option RmFileHandle
  ihs : String → Option OpenIndex

abbrev SmExec := Exec Fault SmManager

namespace DiskManager

abbrev DiskExec := Exec Fault DiskManager

/-! The calls of the operating system go through. -/

def createFile (path : String) : DiskExec Unit := do
  if (← asks fun d => decide (path ∈ d.files)) then raise (.rmdb (.fileExists path))
  modify fun d => { d with files := insert path d.files }

/-- `fd` is the descriptor that `open` gives. -/
def openFile (fd : Int) (path : String) : DiskExec Unit := do
  if (← asks fun d => decide (path ∉ d.files)) then raise (.rmdb (.fileNotFound path))
  if (← asks fun d => (d.path2fd path).isSome) then raise (.rmdb (.fileNotClosed path))
  modify fun d =>
    { d with path2fd := Function.update d.path2fd path (some fd), fd2path := Function.update d.fd2path fd (some path) }

def closeFile (fd : Int) : DiskExec Unit := do
  match ← asks fun d => d.fd2path fd with
  | none => raise (.rmdb (.fileNotOpen fd))
  | some path =>
    modify fun d =>
      { d with path2fd := Function.update d.path2fd path none, fd2path := Function.update d.fd2path fd none }

def destroyFile (path : String) : DiskExec Unit := do
  if (← asks fun d => decide (path ∉ d.files)) then raise (.rmdb (.fileNotFound path))
  if (← asks fun d => (d.path2fd path).isSome) then raise (.rmdb (.fileNotClosed path))
  modify fun d => { d with files := d.files.erase path }

end DiskManager

open DiskManager

def ofRmdb {α : Type} (x : Except RMDBError α) : SmExec α := ofExcept (x.mapError .rmdb)

def onDisk {α : Type} (x : DiskExec α) : SmExec α := zoom SmManager.disk (fun d sm => { sm with disk := d }) x

/-! ## Keys -/

def keyCol (col : ColMeta) : KeyCol :=
  match col.type with
  | .int => .int
  | .float => .float
  | .string => .char col.len.toNat

def readCol (col : ColMeta) (rec : List UInt8) : List UInt8 :=
  (List.range col.len.toNat).map fun i => rec.getD (col.offset.toNat + i) 0

def keyBytes (cols : List ColMeta) (rec : List UInt8) : List UInt8 := cols.flatMap fun col => readCol col rec

/-- The key of a record, if the tree has a place for it. -/
def keyOf (cols : List ColMeta) (rec : List UInt8) : Option (Key (cols.map keyCol)) :=
  if hlen : (keyBytes cols rec).length = colTotLen (cols.map keyCol) then
    if hord : ordered (cols.map keyCol) (keyBytes cols rec) = true then some ⟨keyBytes cols rec, hlen, hord⟩ else none
  else none

/-! ## `CREATE INDEX` -/

namespace SmManager

/-- `IxManager::create_index`. It gives the file that is written. -/
def ixCreateIndex (fd : Int) (ixName : String) (cols : List ColMeta) :
    SmExec (IxFile (Key (cols.map keyCol)) (btreeOrder (cols.map keyCol))) := do
  onDisk (createFile ixName)
  onDisk (openFile fd ixName)
  if colTotLen (cols.map keyCol) > maxColLen then raise (.rmdb (.invalidColLength (colTotLen (cols.map keyCol))))
  match Index.createIndex (cols.map keyCol) with
  | none => raise .crash
  | some file =>
    onDisk (closeFile fd)
    return file

def insertKeys (fd : Int) (ixName : String) (colNames : List String) (cols : List ColMeta) (fh : RmFileHandle) :
    List Rid → IxIndexHandle (Key (cols.map keyCol)) (btreeOrder (cols.map keyCol)) →
      SmExec (IxIndexHandle (Key (cols.map keyCol)) (btreeOrder (cols.map keyCol)))
  | [], ih => return ih
  | rid :: rids, ih => do
    let rec ← ofRmdb (fh.getRecord rid)
    match (keyOf cols rec).bind fun key => ih.insertEntry key rid with
    | none => raise .crash
    | some (pageNo, ih) =>
      if pageNo = noPage then
        onDisk (closeFile fd)
        onDisk (destroyFile ixName)
        raise (.rmdb (.nonUniqueIndex colNames))
      insertKeys fd ixName colNames cols fh rids ih

def buildIndex (fd : Int) (tabName ixName : String) (tab : TabMeta) (colNames : List String) (cols : List ColMeta)
    (file : IxFile (Key (cols.map keyCol)) (btreeOrder (cols.map keyCol))) : SmExec Unit := do
  onDisk (openFile fd ixName)
  match ← asks fun sm => (sm.fhs tabName).bind fun fh => (rmScan fh).map fun rids => (fh, rids) with
  | none => raise .crash
  | some (fh, rids) =>
    let ih ← insertKeys fd ixName colNames cols fh rids (openIndex file)
    modify fun sm =>
      { sm with db := sm.db.addIndex tabName tab colNames cols, ihs :=
        Function.update sm.ihs ixName (some ⟨fd, _, ih⟩) }

/-- `fd` and `fd'` are the descriptors of the file, when it is created and when it is opened again. -/
def createIndex (fd fd' : Int) (tabName : String) (colNames : List String) : SmExec Unit := do
  let ixName := getIndexName tabName colNames
  if (← asks fun sm => decide (ixName ∈ sm.disk.files)) then raise (.rmdb (.indexExists tabName colNames))
  let db ← asks SmManager.db
  let tab ← ofRmdb (db.getTable tabName)
  let cols ← ofRmdb (colNames.mapM tab.getCol)
  let file ← ixCreateIndex fd ixName cols
  buildIndex fd' tabName ixName tab colNames cols file

end SmManager

/-! ## What the calls do -/

namespace DiskManager

variable {Q : Unit → DiskManager → Prop} {E : Fault → DiskManager → Prop} {d : DiskManager} {path : String} {fd : Int}

def withFile (d : DiskManager) (path : String) : DiskManager := { d with files := insert path d.files }

def withOpen (d : DiskManager) (fd : Int) (path : String) : DiskManager :=
  { d with path2fd := Function.update d.path2fd path (some fd), fd2path := Function.update d.fd2path fd (some path) }

theorem wp_createFile (h : path ∉ d.files) : wp (createFile path) Q E d ↔ Q () (d.withFile path) := by
  simp [createFile, h, withFile]

theorem wp_openFile (h : path ∈ d.files) (hclosed : d.path2fd path = none) :
    wp (openFile fd path) Q E d ↔ Q () (d.withOpen fd path) := by
  simp [openFile, h, hclosed, withOpen]

theorem wp_openFile_open (h : path ∈ d.files) (hopen : d.path2fd path ≠ none) :
    wp (openFile fd path) Q E d ↔ E (.rmdb (.fileNotClosed path)) d := by
  simp [openFile, h, Option.isSome_iff_ne_none.2 hopen]

theorem wp_closeFile (hclosed : d.path2fd path = none) (hfd : d.fd2path fd = none) :
    wp (closeFile fd) Q E (d.withOpen fd path) ↔ Q () d := by
  simp [closeFile, withOpen, ← hclosed, ← hfd]

theorem wp_destroyFile (h : path ∉ d.files) (hclosed : d.path2fd path = none) :
    wp (destroyFile path) Q E (d.withFile path) ↔ Q () d := by
  simp [destroyFile, withFile, hclosed, Finset.erase_insert h]

end DiskManager

theorem wp_ofRmdb_ok {α : Type} {x : Except RMDBError α} {a : α} (hx : x = .ok a) {Q : α → SmManager → Prop}
    {E : Fault → SmManager → Prop} {sm : SmManager} : wp (ofRmdb x) Q E sm ↔ Q a sm := by
  subst hx
  rfl

/-! ## The keys of the records -/

section

variable {cols : List ColMeta} {fh : RmFileHandle}

def keyAt (cols : List ColMeta) (fh : RmFileHandle) (rid : Rid) : Option (Key (cols.map keyCol)) :=
  (fh.live rid).bind (keyOf cols)

def mapOf (cols : List ColMeta) (fh : RmFileHandle) (rids : List Rid) (key : Key (cols.map keyCol)) : Option Rid :=
  rids.find? fun rid => keyAt cols fh rid = some key

def Distinct (cols : List ColMeta) (fh : RmFileHandle) (rids : List Rid) : Prop :=
  rids.Pairwise fun rid rid' => keyAt cols fh rid ≠ keyAt cols fh rid'

variable {rids : List Rid} {key : Key (cols.map keyCol)} {rid : Rid}

theorem mapOf_eq_none : mapOf cols fh rids key = none ↔ ∀ rid ∈ rids, keyAt cols fh rid ≠ some key := by
  simp [mapOf]

theorem mapOf_append (hkey : keyAt cols fh rid = some key) (hnew : mapOf cols fh rids key = none) :
    mapOf cols fh (rids ++ [rid]) = Function.update (mapOf cols fh rids) key (some rid) := by
  funext k
  rw [mapOf, List.find?_append, List.find?_singleton, hkey]
  by_cases hk : k = key
  · subst hk
    rw [Function.update_self, show rids.find? _ = none from hnew]
    simp
  · have hne : ¬ key = k := fun h => hk h.symm
    rw [Function.update_of_ne hk]
    simp [mapOf, hne]

theorem distinct_append (hkey : keyAt cols fh rid = some key) :
    Distinct cols fh (rids ++ [rid]) ↔ Distinct cols fh rids ∧ mapOf cols fh rids key = none := by
  rw [Distinct, List.pairwise_append, mapOf_eq_none, Distinct]
  simp [hkey]

variable {fd : Int} {ixName : String} {colNames : List String} {sm : SmManager} {d : DiskManager}

/-- The loop ends with all keys in the tree, or at the first one that is there
already, and then the file is gone again. -/
theorem SmManager.insertKeys_spec (hord : 2 < btreeOrder (cols.map keyCol)) (hfile : ixName ∉ d.files)
    (hclosed : d.path2fd ixName = none) (hfd : d.fd2path fd = none)
    (hdisk : sm.disk = (d.withFile ixName).withOpen fd ixName) :
    ∀ {pre : List Rid} {ih : IxIndexHandle (Key (cols.map keyCol)) (btreeOrder (cols.map keyCol))},
      (∀ rid ∈ rids, ∃ key, keyAt cols fh rid = some key) → Represents ih (mapOf cols fh pre) → Distinct cols fh pre →
      wp (insertKeys fd ixName colNames cols fh rids ih)
        (fun ih' sm' => sm' = sm ∧ Distinct cols fh (pre ++ rids) ∧ Represents ih' (mapOf cols fh (pre ++ rids)))
        (fun f sm' => f = .rmdb (.nonUniqueIndex colNames) ∧ sm' = { sm with disk := d } ∧
          ¬ Distinct cols fh (pre ++ rids))
        sm := by
  induction rids with
  | nil =>
    intro pre ih _ hih hpre
    rw [List.append_nil]
    exact ⟨rfl, hpre, hih⟩
  | cons rid rids ihr =>
    intro pre ih hkeys hih hpre
    obtain ⟨⟨key, hkey⟩, hrest⟩ := List.forall_mem_cons.1 hkeys
    obtain ⟨rec, hlive, hrec⟩ := Option.bind_eq_some_iff.1 hkey
    rw [insertKeys, wp_bind, wp_ofRmdb_ok (RmFileHandle.getRecord_eq hlive), hrec, Option.bind_some]
    by_cases hnew : mapOf cols fh pre key = none
    · obtain ⟨page, ih', hrun, hpage, hih', -⟩ := hih.insertEntry_new hord hnew rid
      rw [hrun]
      rw [← mapOf_append hkey hnew] at hih'
      have hnext := ihr hrest hih' ((distinct_append hkey).2 ⟨hpre, hnew⟩)
      rw [List.append_assoc, List.singleton_append] at hnext
      simpa [hpage] using hnext
    · rw [hih.insertEntry_old hord hnew rid]
      have hdup : ¬ Distinct cols fh (pre ++ rid :: rids) := by
        intro hdist
        rw [← List.singleton_append, ← List.append_assoc] at hdist
        exact hnew ((distinct_append hkey).1 (List.pairwise_append.1 hdist).1).2
      simp [onDisk, wp_zoom, hdisk, wp_closeFile (d := d.withFile ixName) hclosed hfd, wp_destroyFile hfile hclosed,
        hdup]

/-! ### Records with the same key -/

def ColMeta.Sized (col : ColMeta) : Prop := 0 ≤ col.len ∧ (col.type ≠ .string → col.len = 4)

def Duplicate (cols : List ColMeta) (fh : RmFileHandle) : Prop :=
  ∃ rid rid' rec rec', rid ≠ rid' ∧ fh.live rid = some rec ∧ fh.live rid' = some rec' ∧
    keyBytes cols rec = keyBytes cols rec'

theorem ColMeta.Sized.len_keyCol {col : ColMeta} (h : col.Sized) : (keyCol col).len = col.len.toNat := by
  have hlen := h.2
  unfold keyCol
  split <;> simp_all [KeyCol.len]

theorem length_keyBytes (hsized : ∀ col ∈ cols, col.Sized) (rec : List UInt8) :
    (keyBytes cols rec).length = colTotLen (cols.map keyCol) := by
  rw [keyBytes, List.length_flatMap, colTotLen, List.map_map]
  congr 1
  refine List.map_congr_left fun col hcol => ?_
  rw [readCol, List.length_map, List.length_range, Function.comp_apply, (hsized col hcol).len_keyCol]

/-- The tree has a place for the key of each record. -/
def Orderly (cols : List ColMeta) (fh : RmFileHandle) : Prop :=
  (∀ col ∈ cols, col.Sized) ∧ ∀ rid rec, fh.live rid = some rec → ordered (cols.map keyCol) (keyBytes cols rec) = true

theorem Orderly.keyAt (h : Orderly cols fh) {rec : List UInt8} (hlive : fh.live rid = some rec) :
    ∃ key, keyAt cols fh rid = some key ∧ key.bytes = keyBytes cols rec := by
  have hlen := length_keyBytes h.1 rec
  have hord := h.2 rid rec hlive
  refine ⟨⟨keyBytes cols rec, hlen, hord⟩, ?_, rfl⟩
  rw [Catalog.keyAt, hlive, Option.bind_some, keyOf, dif_pos hlen, dif_pos hord]

theorem eq_of_bytes {kcols : List KeyCol} {key key' : Key kcols} (h : key.bytes = key'.bytes) : key = key' := by
  cases key
  cases key'
  cases h
  rfl

theorem distinct_tableRids (h : Orderly cols fh) (hok : fh.HeapOK) (hheader : ∀ i, (fh.pages 0).slots i = none) :
    Distinct cols fh (tableRids fh) ↔ ¬ Duplicate cols fh := by
  constructor
  · intro hdist ⟨rid, rid', rec, rec', hne, hlive, hlive', hbytes⟩
    obtain ⟨key, hkey, hk⟩ := h.keyAt hlive
    obtain ⟨key', hkey', hk'⟩ := h.keyAt hlive'
    have : Std.Symm fun rid rid' => keyAt cols fh rid ≠ keyAt cols fh rid' := ⟨fun _ _ hab => hab.symm⟩
    refine List.Pairwise.forall hdist ?_ ?_ hne ?_
    · rw [Execution.mem_tableRids hok hheader, hlive]
      rfl
    · rw [Execution.mem_tableRids hok hheader, hlive']
      rfl
    · rw [hkey, hkey', eq_of_bytes (hk.trans (hbytes.trans hk'.symm))]
  · intro hdup
    refine Execution.nodup_tableRids.pairwise_of_forall_ne fun rid hrid rid' hrid' hne heq => hdup ?_
    rw [Execution.mem_tableRids hok hheader, Option.isSome_iff_exists] at hrid hrid'
    obtain ⟨rec, hlive⟩ := hrid
    obtain ⟨rec', hlive'⟩ := hrid'
    obtain ⟨key, hkey, hk⟩ := h.keyAt hlive
    obtain ⟨key', hkey', hk'⟩ := h.keyAt hlive'
    rw [hkey, hkey', Option.some.injEq] at heq
    exact ⟨rid, rid', rec, rec', hne, hlive, hlive', by rw [← hk, ← hk', heq]⟩

/-! ## All or nothing -/

def Indexed (cols : List ColMeta) (fh : RmFileHandle) (ixName : String) (sm : SmManager) : Prop :=
  ∃ fd ih mp, sm.ihs ixName = some ⟨fd, cols.map keyCol, ih⟩ ∧ Represents ih mp ∧
    ∀ key rid, mp key = some rid ↔ ∃ rec, fh.live rid = some rec ∧ key.bytes = keyBytes cols rec

/-- Catalog, files, open-file tables and `ihs_` are the same. -/
def Untouched (sm sm' : SmManager) : Prop := sm'.db = sm.db ∧ sm'.disk = sm.disk ∧ sm'.ihs = sm.ihs

/-- All or nothing, for the columns `cols` of the table in `fh`. -/
def AllOrNothing (fd fd' : Int) (tabName : String) (colNames : List String) (cols : List ColMeta) (fh : RmFileHandle)
    (sm : SmManager) : Prop :=
  wp (SmManager.createIndex fd fd' tabName colNames)
    (fun _ sm' => ¬ Duplicate cols fh ∧ Indexed cols fh (getIndexName tabName colNames) sm')
    (fun f sm' => ∃ e, f = .rmdb e ∧ (Duplicate cols fh → e = .nonUniqueIndex colNames) ∧ Untouched sm sm') sm

/-- A file of the index's name is only in the way of an index that could be
made; if there is none, it is not open and the key is not too long. -/
def Creatable (sm : SmManager) (ixName : String) (cols : List ColMeta) (fh : RmFileHandle) : Prop :=
  if ixName ∈ sm.disk.files then ¬ Duplicate cols fh
  else sm.disk.path2fd ixName = none ∧ colTotLen (cols.map keyCol) ≤ maxColLen

theorem mem_mapOf_tableRids (h : Orderly cols fh) (hok : fh.HeapOK) (hheader : ∀ i, (fh.pages 0).slots i = none)
    (hdup : ¬ Duplicate cols fh) (key : Key (cols.map keyCol)) (rid : Rid) :
    mapOf cols fh (tableRids fh) key = some rid ↔ ∃ rec, fh.live rid = some rec ∧ key.bytes = keyBytes cols rec := by
  have hat : ∀ {rid}, keyAt cols fh rid = some key ↔ ∃ rec, fh.live rid = some rec ∧ key.bytes = keyBytes cols rec := by
    intro rid
    constructor
    · intro hkey
      obtain ⟨rec, hlive, -⟩ := Option.bind_eq_some_iff.1 hkey
      obtain ⟨key', hkey', hk⟩ := h.keyAt hlive
      rw [hkey, Option.some.injEq] at hkey'
      exact ⟨rec, hlive, hkey' ▸ hk⟩
    · intro ⟨rec, hlive, hbytes⟩
      obtain ⟨key', hkey', hk⟩ := h.keyAt hlive
      rw [hkey', eq_of_bytes (hk.trans hbytes.symm)]
  constructor
  · intro hfind
    exact hat.1 (by simpa using List.find?_some hfind)
  · intro ⟨rec, hlive, hbytes⟩
    cases hfind : mapOf cols fh (tableRids fh) key with
    | none =>
      refine absurd (hat.2 ⟨rec, hlive, hbytes⟩) (mapOf_eq_none.1 hfind rid ?_)
      rw [Execution.mem_tableRids hok hheader, hlive]
      rfl
    | some rid' =>
      obtain ⟨rec', hlive', hbytes'⟩ := hat.1 (by simpa using List.find?_some hfind)
      by_contra hne
      refine hdup ⟨rid', rid, rec', rec, fun heq => hne (congrArg some heq), hlive', hlive, ?_⟩
      rw [← hbytes, ← hbytes']

section

variable {tabName : String} {tab : TabMeta} {fd' : Int}

variable {E : Fault → SmManager → Prop}

theorem wp_onDisk {α : Type} {x : DiskExec α} {Q : α → SmManager → Prop} :
    wp (onDisk x) Q E sm ↔ wp x (fun a d => Q a { sm with disk := d }) (fun f d => E f { sm with disk := d }) sm.disk :=
  wp_zoom _ _ _

/-- A key that is not too long leaves room for more than two entries on a page. -/
theorem exists_createIndex {κ : Type} {kcols : List KeyCol} (hlen : colTotLen kcols ≤ maxColLen) :
    ∃ file : IxFile κ (btreeOrder kcols), Index.createIndex kcols = some file := by
  have hord : btreeOrder kcols > 2 := by
    have hdiv : (pageSize - sizeofPageHdr) / 520 ≤ (pageSize - sizeofPageHdr) / (colTotLen kcols + sizeofRid) :=
      Nat.div_le_div_left (by simp only [sizeofRid, maxColLen] at *; omega) (by simp [sizeofRid])
    have h520 : (pageSize - sizeofPageHdr) / 520 = 7 := by decide
    rw [btreeOrder]
    omega
  rw [Index.createIndex, if_neg (by omega), if_pos hord]
  exact ⟨_, rfl⟩

variable {file : IxFile (Key (cols.map keyCol)) (btreeOrder (cols.map keyCol))}

theorem SmManager.wp_ixCreateIndex (hfile : ixName ∉ sm.disk.files) (hclosed : sm.disk.path2fd ixName = none)
    (hfd : sm.disk.fd2path fd = none) (hlen : colTotLen (cols.map keyCol) ≤ maxColLen)
    (hcreated : Index.createIndex (cols.map keyCol) = some file)
    {Q : IxFile (Key (cols.map keyCol)) (btreeOrder (cols.map keyCol)) → SmManager → Prop}
    :
    wp (ixCreateIndex fd ixName cols) Q E sm ↔ Q file { sm with disk := sm.disk.withFile ixName } := by
  have hin : ixName ∈ (sm.disk.withFile ixName).files := Finset.mem_insert_self _ _
  have hclose : ∀ {Q : Unit → DiskManager → Prop} {E},
    wp (closeFile fd) Q E ((sm.disk.withFile ixName).withOpen fd ixName) ↔
      Q () (sm.disk.withFile ixName) := wp_closeFile hclosed hfd
  have hopen : ∀ {Q : Unit → DiskManager → Prop} {E}, wp (openFile fd ixName) Q E (sm.disk.withFile ixName) ↔
      Q () ((sm.disk.withFile ixName).withOpen fd ixName) := wp_openFile hin hclosed
  rw [ixCreateIndex, wp_bind, wp_onDisk, wp_createFile hfile, wp_bind, wp_onDisk, hopen, if_neg (by omega), hcreated]
  simp [wp_onDisk, hclose]

theorem SmManager.wp_ixCreateIndex_fail (hfile : ixName ∉ sm.disk.files)
    (hfail : ¬ (sm.disk.path2fd ixName = none ∧ colTotLen (cols.map keyCol) ≤ maxColLen))
    {Q : IxFile (Key (cols.map keyCol)) (btreeOrder (cols.map keyCol)) → SmManager → Prop}
    (hwp : wp (ixCreateIndex fd ixName cols) Q E sm) :
    ∃ f sm', E f sm' ∧ ixName ∈ sm'.disk.files := by
  have hin : ixName ∈ (sm.disk.withFile ixName).files := Finset.mem_insert_self _ _
  rw [ixCreateIndex, wp_bind, wp_onDisk, wp_createFile hfile, wp_bind, wp_onDisk] at hwp
  by_cases hclosed : sm.disk.path2fd ixName = none
  · have hlong : colTotLen (cols.map keyCol) > maxColLen := Nat.lt_of_not_le fun hle => hfail ⟨hclosed, hle⟩
    have hopen : ∀ {Q : Unit → DiskManager → Prop} {E}, wp (openFile fd ixName) Q E (sm.disk.withFile ixName) ↔
        Q () ((sm.disk.withFile ixName).withOpen fd ixName) := wp_openFile hin hclosed
    rw [hopen, if_pos hlong] at hwp
    exact ⟨_, _, hwp, hin⟩
  · have hopen : ∀ {Q : Unit → DiskManager → Prop} {E}, wp (openFile fd ixName) Q E (sm.disk.withFile ixName) ↔
        E (.rmdb (.fileNotClosed ixName)) (sm.disk.withFile ixName) := wp_openFile_open hin hclosed
    rw [hopen] at hwp
    exact ⟨_, _, hwp, hin⟩

theorem SmManager.wp_createIndex (htab : sm.db.getTable tabName = .ok tab) (hcols : colNames.mapM tab.getCol = .ok cols)
    (hfile : getIndexName tabName colNames ∉ sm.disk.files) {Q : Unit → SmManager → Prop} :
    wp (createIndex fd fd' tabName colNames) Q E sm ↔
      wp (ixCreateIndex fd (getIndexName tabName colNames) cols)
        (fun file => wp (buildIndex fd' tabName (getIndexName tabName colNames) tab colNames cols file) Q E) E sm := by
  simp only [createIndex, wp_bind, wp_asks, decide_eq_true_eq, if_neg hfile, wp_ofRmdb_ok htab, wp_ofRmdb_ok hcols]

theorem SmManager.wp_buildIndex (hkeys : Orderly cols fh) (hok : fh.HeapOK) (hheader : ∀ i, (fh.pages 0).slots i = none)
    (hfh : sm.fhs tabName = some fh) (hfile : ixName ∉ sm.disk.files) (hclosed : sm.disk.path2fd ixName = none)
    (hfd : sm.disk.fd2path fd = none) (hcreated : Index.createIndex (cols.map keyCol) = some file) :
    wp (buildIndex fd tabName ixName tab colNames cols file)
      (fun _ sm' => ¬ Duplicate cols fh ∧ Indexed cols fh ixName sm')
      (fun f sm' => ∃ e, f = .rmdb e ∧ (Duplicate cols fh → e = .nonUniqueIndex colNames) ∧ Untouched sm sm')
      { sm with disk := sm.disk.withFile ixName } := by
  have hin : ixName ∈ (sm.disk.withFile ixName).files := Finset.mem_insert_self _ _
  have hopen : ∀ {Q : Unit → DiskManager → Prop} {E}, wp (openFile fd ixName) Q E (sm.disk.withFile ixName) ↔
      Q () ((sm.disk.withFile ixName).withOpen fd ixName) := wp_openFile hin hclosed
  have hlive : ∀ rid ∈ tableRids fh, ∃ key, keyAt cols fh rid = some key := by
    intro rid hrid
    rw [Execution.mem_tableRids hok hheader, Option.isSome_iff_exists] at hrid
    obtain ⟨rec, hrec⟩ := hrid
    obtain ⟨key, hkey, -⟩ := hkeys.keyAt hrec
    exact ⟨key, hkey⟩
  have hnil : Represents (openIndex file) (mapOf cols fh []) := represents_createIndex hcreated
  rw [buildIndex, wp_bind, wp_onDisk, hopen, wp_bind, wp_asks]
  simp only [hfh, Execution.rmScan_eq hok, Option.bind_some, Option.map_some, wp_bind, wp_modify]
  refine wp_mono (insertKeys_spec (createIndex_eq hcreated).1 hfile hclosed hfd rfl hlive hnil List.Pairwise.nil) ?_ ?_
  · intro ih sm' hkeyed
    obtain ⟨-, hdist, hih⟩ := hkeyed
    rw [List.nil_append] at hdist hih
    have hdup := (distinct_tableRids hkeys hok hheader).1 hdist
    exact ⟨hdup, fd, ih, _, Function.update_self .., hih, mem_mapOf_tableRids hkeys hok hheader hdup⟩
  · intro f sm' hfail
    obtain ⟨hf, hsm', -⟩ := hfail
    exact ⟨_, hf, fun _ => rfl, by rw [hsm']; exact ⟨rfl, rfl, rfl⟩⟩

def oneTable (tab : TabMeta) (fh : RmFileHandle) : SmManager where
  db := ⟨"db", (∅ : AList _).insert "t" tab⟩
  disk :=
    { files := {"db.meta", "t"}
      path2fd := fun path => if path = "t" then some 3 else none
      fd2path := fun fd => if fd = 3 then some "t" else none }
  fhs tabName := if tabName = "t" then some fh else none
  ihs _ := none

def twins : RmFileHandle :=
  match (RmFileHandle.createFile 4).insertRecord [1, 0, 0, 0] with
  | .ok (_, fh) =>
    match fh.insertRecord [1, 0, 0, 0] with
    | .ok (_, fh) => fh
    | .error _ => fh
  | .error _ => .createFile 4

def colT : ColMeta := ⟨"t", "a", .int, 4, 0⟩

def longCol : ColMeta := ⟨"t", "c", .string, 300, 0⟩

end

end

/-! ## The names of indexes -/

def indexWords (tabName : String) (colNames : List String) : List (List Char) :=
  (tabName :: colNames).flatMap fun name => name.toList.splitOn '_'

theorem splitOn_foldl (s : String) (colNames : List String) :
    (colNames.foldl (fun s col => s ++ "_" ++ col) s).toList.splitOn '_' = indexWords s colNames := by
  induction colNames generalizing s with
  | nil => simp [indexWords]
  | cons col colNames ih =>
    have hsplit : (s ++ "_" ++ col).toList.splitOn '_' = s.toList.splitOn '_' ++ col.toList.splitOn '_' := by
      rw [String.toList_append, String.toList_append, List.append_assoc]
      exact List.splitOn_append_cons_self ..
    rw [List.foldl_cons, ih, indexWords, List.flatMap_cons, hsplit, List.append_assoc]
    rfl

/-- Two indexes have different names exactly when the words of their tables and
columns, one after the other, are not the same. -/
theorem getIndexName_ne_iff (tabName tabName' : String) (colNames colNames' : List String)
    (_ : (tabName, colNames) ≠ (tabName', colNames')) :
    getIndexName tabName colNames ≠ getIndexName tabName' colNames' ↔
      indexWords tabName colNames ≠ indexWords tabName' colNames' := by
  rw [not_iff_not, ← splitOn_foldl, ← splitOn_foldl, getIndexName, getIndexName, ← String.toList_inj]
  rw [String.toList_append, String.toList_append, List.append_left_inj]
  refine ⟨fun h => by rw [h], fun h => ?_⟩
  have hjoined := congrArg (List.intercalate ['_']) h
  rwa [List.intercalate_splitOn, List.intercalate_splitOn] at hjoined

theorem getIndexName_ne_ab_ba : getIndexName "t" ["a", "b"] ≠ getIndexName "t" ["b", "a"] :=
  (getIndexName_ne_iff "t" "t" ["a", "b"] ["b", "a"] (by decide)).2 (by decide)

/-- The index of `a_b` on `c` has the name of an index of `a` on `b` and `c`:
with the one there, the other cannot be created. -/
theorem index_names_collide :
    getIndexName "a" ["b", "c"] = getIndexName "a_b" ["c"] ∧ getIndexName "a" ["b_c"] = getIndexName "a" ["b", "c"] ∧
    ∀ (fd fd' : Int) (sm : SmManager), getIndexName "a_b" ["c"] ∈ sm.disk.files →
      wp (SmManager.createIndex fd fd' "a" ["b", "c"]) (fun _ _ => False)
        (fun e sm' => e = .rmdb (.indexExists "a" ["b", "c"]) ∧ sm' = sm) sm := by
  have hname : getIndexName "a" ["b", "c"] = getIndexName "a_b" ["c"] := by decide
  refine ⟨hname, by decide, fun fd fd' sm h => ?_⟩
  rw [← hname] at h
  simp [SmManager.createIndex, h]

end Rmdb.Catalog
