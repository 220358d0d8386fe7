/-
Runs of a session: indexes agree with their tables, and `abort` restores.

What carries both is `SessionOK`: every table has contents on which the
indexes agree, and the write set leads back, record by record, to the
database as it was when the transaction began.
-/
import Rmdb.Execution.Content
import Rmdb.Execution.Statement
import Rmdb.Lib.Run

namespace Rmdb.Execution

open Function List Index Record Exec

variable {S : Schema}

/-- The heap file and the trees are intact, and each index has exactly the keys of the records. -/
def Table.Agrees {m : TabMeta} (T : Table m) : Prop := ∃ A, T.Holds A ∧ A.Agree

def Db.Agrees (D : Db S) : Prop := ∀ t, (D t).Agrees

def Db.Alike (D G : Db S) : Prop := ∀ t, Execution.Alike (D t) (G t)

theorem Alike.agrees {m : TabMeta} {T G : Table m} (h : Alike T G) (hT : T.Agrees) : G.Agrees := by
  obtain ⟨A, hA, hagree⟩ := hT
  exact ⟨A, h.holds hA, hagree⟩

/-- Taking the write record back leads from a database like `D'` to one like `D`. -/
def UndoesDb (w : WriteRecord) (D' D : Db S) : Prop :=
  ∀ s : Session S, D'.Alike s.db → wp (rollback w) (fun _ s' => D.Alike s'.db) (fun _ _ => False) s

inductive Leads (B : Db S) : List WriteRecord → Db S → Prop
  | nil : Leads B [] B
  | cons {w : WriteRecord} {ws : List WriteRecord} {D D' : Db S} : Leads B ws D → UndoesDb w D' D → Leads B (w :: ws) D'

theorem Leads.rollback {B D : Db S} {ws : List WriteRecord} (h : Leads B ws D) :
    ∀ s : Session S, D.Alike s.db → wp (ws.forM rollback) (fun _ s' => B.Alike s'.db) (fun _ _ => False) s := by
  induction h with
  | nil => exact fun s hs => hs
  | cons _ hw ih =>
    intro s hs
    change wp (Execution.rollback _ >>= fun _ => List.forM _ _) _ _ s
    rw [wp_bind]
    exact wp_mono (hw s hs) (fun _ s' hs' => ih s' hs') fun _ _ h => h

structure SessionOK (B : Db S) (s : Session S) : Prop where
  start : B.Agrees
  agrees : s.db.Agrees
  leads : Leads B s.writeSet s.db

/-! ## One row of one table -/

section Rows

variable {α : Type} {t : Fin S.length} {B : Db S} {s : Session S} {E : Fault → Session S → Prop}

variable {Q : α → Session S → Prop}

theorem wp_ofExcept_rmdb {x : Except RMDBError α} (hok : ∀ a, x = .ok a → Q a s)
    (herr : ∀ e, E (.rmdb e) s) : wp (ofExcept x) Q E s := by
  cases x with
  | error e => exact herr e
  | ok a => exact hok a rfl

variable {x : TabExec (S.get t) α}

theorem wp_onTable :
    wp (onTable t x) Q E s ↔
      wp x (fun a T => Q a { s with db := update s.db t T })
        (fun e T => E e { s with db := update s.db t T }) (s.db t) := wp_zoom _ _ _

theorem Db.update_self (D : Db S) (t : Fin S.length) : update D t (D t) = D := update_eq_self t D

variable {w : WriteRecord} {T' : Table (S.get t)}

theorem Undoes.db {D : Db S} (hget : S.getTable w.tabName = .ok t)
    (h : Undoes w.undo T' (D t)) : UndoesDb w (update D t T') D := by
  intro s hs
  rw [rollback, wp_bind, hget]
  have hT' : Alike T' (s.db t) := by
    have := hs t
    rwa [update_self] at this
  refine wp_onTable.2 (wp_mono (h (s.db t) hT') (fun _ T hT u => ?_) fun _ _ h => h)
  by_cases hu : u = t
  · subst hu
    simpa using hT
  · have := hs u
    rw [update_of_ne hu] at this
    simpa [hu] using this

theorem SessionOK.append (h : SessionOK B s)
    (hget : S.getTable w.tabName = .ok t) (hT' : T'.Agrees) (hundo : Undoes w.undo T' (s.db t)) :
    SessionOK B { s with db := update s.db t T', writeSet := w :: s.writeSet } := by
  refine ⟨h.start, fun u => ?_, .cons h.leads (hundo.db hget)⟩
  by_cases hu : u = t
  · subst hu
    simpa using hT'
  · simpa [hu] using h.agrees u

/-- A statement returns or raises an `RMDBError`, and in both cases the session is in order. -/
def Keeps (B : Db S) (x : SesExec S Unit) : Prop :=
  ∀ s, SessionOK B s → wp x (fun _ s' => SessionOK B s' ∧ s'.txnMode = s.txnMode)
    (fun e s' => (∃ err, e = .rmdb err) ∧ SessionOK B s' ∧ s'.txnMode = s.txnMode) s

theorem Keeps.forM {f : Rid → SesExec S Unit} (hf : ∀ rid, Keeps B (f rid)) (rids : List Rid) : Keeps B (rids.forM f) := by
  intro s hs
  refine wp_mono (wp_forM (I := fun _ s' => SessionOK B s' ∧ s'.txnMode = s.txnMode) ⟨hs, rfl⟩ fun _ rid _ s' _ hs' => ?_)
    (fun _ _ h => h) fun _ _ h => h
  refine wp_mono (hf rid s' hs'.1) (fun _ s'' h => ⟨h.1, h.2.trans hs'.2⟩) fun _ s'' h => ⟨h.1, h.2.1, h.2.2.trans hs'.2⟩

/-- What a row operation has to do for its statement to keep the session in order. -/
theorem Keeps.row {w : α → WriteRecord}
    (hx : ∀ T : Table (S.get t), T.Agrees → wp x (fun a T' => S.getTable (w a).tabName = .ok t ∧ T'.Agrees ∧ Undoes (w a).undo T' T)
      (fun e T' => T' = T ∧ ∃ err, e = .rmdb err) T) :
    Keeps B (onTable t x >>= fun a => appendWriteRecord (w a)) := by
  intro s hs
  rw [wp_bind, wp_onTable]
  refine wp_mono (hx (s.db t) (hs.agrees t)) (fun a T' h => ⟨hs.append h.1 h.2.1 h.2.2, rfl⟩) ?_
  intro e T' ⟨hT', herr⟩
  subst hT'
  rw [Db.update_self]
  exact ⟨herr, hs, rfl⟩

theorem Keeps.ofExcept {x : Except RMDBError α} {f : α → SesExec S Unit} (hf : ∀ a, x = .ok a → Keeps B (f a)) :
    Keeps B (Execution.ofExcept x >>= f) := by
  intro s hs
  rw [wp_bind]
  exact wp_ofExcept_rmdb (fun a ha => hf a ha s hs) fun e => ⟨⟨e, rfl⟩, hs, rfl⟩

end Rows

/-! ## Statements -/

/-- The portal leaves the indexes alone only where an index scan finds none of its columns set. -/
theorem isSetIndexKey_false {m : TabMeta} {scan : ScanBy} {clauses : List SetClause}
    (h : isSetIndexKey m scan clauses = .ok false) :
    ∃ scanned ∈ m.indexes, scan = .index scanned.colNames ∧ ∀ set ∈ clauses, set.col.name ∉ scanned.colNames := by
  cases scan with
  | seq => simp [isSetIndexKey] at h
  | index colNames =>
    rw [isSetIndexKey, TabMeta.getIndexMeta] at h
    cases hfind : m.indexes.find? fun ix => ix.colNames = colNames with
    | none => simp [hfind, Except.map] at h
    | some ix =>
      have hname : ix.colNames = colNames := by simpa using List.find?_some hfind
      exact ⟨ix, mem_of_find?_eq_some hfind, by rw [hname], by simpa [hfind, Except.map] using h⟩

section Statements

variable [FloatOps] {B : Db S}

theorem insertStmt_keeps (tabName : String) (values : List Value) (safe : String → Bool) :
    Keeps B (insertStmt tabName values safe) := by
  refine .ofExcept fun t ht => ?_
  split_ifs with hlen
  · exact fun s hs => ⟨⟨_, rfl⟩, hs, rfl⟩
  · refine .ofExcept fun rec _ => .row fun T hT => ?_
    obtain ⟨A, hA, hagree⟩ := hT
    refine wp_mono (insertNext_spec hA safe) (fun rid T' h => ?_) fun _ _ h => h
    exact ⟨ht, ⟨_, h.2.2.1, hagree.insert h.1 h.2.1⟩, h.2.2.2⟩

omit [FloatOps] in
theorem deleteStmt_keeps (tabName : String) (rids : Rids) : Keeps B (deleteStmt tabName rids) := by
  refine .ofExcept fun t ht => .forM (fun rid => .row fun T hT => ?_) _
  obtain ⟨A, hA, hagree⟩ := hT
  refine wp_mono (deleteNext_spec hA rid) (fun rec T' h => ?_) fun _ _ h => ⟨h.1, h.2.2⟩
  exact ⟨ht, ⟨_, h.2.1, hagree.delete h.1⟩, h.2.2 hagree⟩

/-- The analysed clauses are about columns of the table, those that are named. -/
theorem analyzeSets_spec {m : TabMeta} : ∀ {sets : List SetExpr} {clauses : List SetClause},
    analyzeSets m sets = .ok clauses →
      (∀ set ∈ clauses, set.col ∈ m.cols) ∧ clauses.map (fun set => set.col.name) = sets.map SetExpr.colName
  | [], clauses, h => by
    rw [analyzeSets, mapM_nil] at h
    cases h
    simp
  | e :: sets, clauses, h => by
    rw [analyzeSets, mapM_cons, bind_eq_ok] at h
    obtain ⟨set, hset, h⟩ := h
    obtain ⟨rest, hrest, h⟩ := bind_eq_ok.1 h
    cases h
    obtain ⟨col, hcol, hset⟩ := bind_eq_ok.1 hset
    obtain ⟨raw, -, hset⟩ := bind_eq_ok.1 hset
    cases hset
    obtain ⟨hmem, hname⟩ := TabMeta.getCol_eq_ok hcol
    obtain ⟨ih, ihnames⟩ := analyzeSets_spec hrest
    refine ⟨fun set hset => ?_, by simp [hname, ihnames]⟩
    rcases mem_cons.1 hset with rfl | hset
    · exact hmem
    · exact ih set hset

theorem read_setAll {c : ColMeta} : ∀ {sets : List SetClause} {rec updated : List UInt8},
    setAll sets rec = .ok updated → (∀ set ∈ sets, c.Disjoint set.col) → c.read updated = c.read rec
  | [], _, _, h, _ => by
    cases h
    rfl
  | clause :: sets, rec, updated, h, hdisj => by
    rw [setAll, foldlM_cons, bind_eq_ok] at h
    obtain ⟨rec', hset, h⟩ := h
    rw [read_setAll h fun set' hset' => hdisj set' (by simp [hset'])]
    have hd := hdisj clause (by simp)
    rw [SetClause.apply] at hset
    split_ifs at hset with hincr
    · cases hadd : add (clause.col.read rec) clause.raw clause.col.type with
      | error e => simp [hadd, Except.map] at hset
      | ok v =>
        rw [hadd] at hset
        cases hset
        exact ColMeta.read_write hd rec v
    · cases hset
      exact ColMeta.read_write hd rec clause.raw

/-- An `UPDATE` through an index sets a column of that index, or none of any index. -/
def Stmt.Maintained (S : Schema) : Stmt → Prop
  | .update tabName sets (.index colNames) _ =>
    ∀ t, S.getTable tabName = .ok t → ∀ scanned ∈ (S.get t).indexes, scanned.colNames = colNames →
      (∀ set ∈ sets, set.colName ∉ scanned.colNames) →
      ∀ ix ∈ (S.get t).indexes, ∀ set ∈ sets, set.colName ∉ ix.colNames
  | _ => True

theorem key_setAll {m : TabMeta} {clauses : List SetClause} (hcols : ∀ set ∈ clauses, set.col ∈ m.cols)
    (hkeys : ∀ ix ∈ m.indexes, ∀ set ∈ clauses, set.col.name ∉ ix.colNames) {old updated : List UInt8}
    (h : setAll clauses old = .ok updated) (i : Fin m.indexes.length) : (m.ix i).key updated = (m.ix i).key old := by
  refine IndexMeta.key_congr fun c hc => read_setAll h fun set hset => ?_
  refine TabMeta.disjoint (TabMeta.mem_cols_of_ix i hc) (hcols set hset) fun hname => ?_
  refine hkeys (m.ix i) (get_mem _ _) set hset ?_
  rw [← hname]
  exact mem_map_of_mem hc

theorem updateStmt_keeps {tabName : String} {sets : List SetExpr} {scan : ScanBy} {rids : Rids}
    (hm : (Stmt.update tabName sets scan rids).Maintained S) : Keeps B (updateStmt tabName sets scan rids) := by
  refine .ofExcept fun t ht => .ofExcept fun clauses hclauses => .ofExcept fun isSet hisSet => ?_
  obtain ⟨hcols, hnames⟩ := analyzeSets_spec hclauses
  have hnames : ∀ names : List String, (∀ set ∈ clauses, set.col.name ∉ names) ↔ ∀ set ∈ sets, set.colName ∉ names := by
    intro names
    rw [← forall_mem_map (f := fun set : SetClause => set.col.name) (P := (· ∉ names)), hnames,
      forall_mem_map]
  refine .forM (fun rid => .row (w := fun r : List UInt8 × List UInt8 => .update tabName rid r.1 r.2 isSet) fun T hT => ?_) _
  obtain ⟨A, hA, hagree⟩ := hT
  refine wp_mono (updateNext_spec hA clauses isSet rid) (fun r T' h => ?_) fun _ _ h => ⟨h.1, h.2.2⟩
  refine ⟨ht, ⟨_, h.2.2.2.1, hagree.update h.1 h.2.2.1 fun hfalse => ?_⟩, h.2.2.2.2 hagree⟩
  subst hfalse
  obtain ⟨scanned, hscanned, rfl, hout⟩ := isSetIndexKey_false hisSet
  refine key_setAll hcols (fun ix hix => ?_) h.2.1
  exact (hnames _).2 (hm t ht scanned hscanned rfl ((hnames _).1 hout) ix hix)

theorem Stmt.run_keeps {st : Stmt} (hm : st.Maintained S) : Keeps B (st.run : SesExec S Unit) := by
  cases st with
  | insert tabName values safe => exact insertStmt_keeps tabName values safe
  | delete tabName rids => exact deleteStmt_keeps tabName rids
  | update tabName sets scan rids => exact updateStmt_keeps hm

end Statements

/-! ## Requests -/

section Requests

variable [FloatOps] {B : Db S} {s : Session S}

def Request.Maintained (S : Schema) : Request → Prop
  | .stmt st => st.Maintained S
  | _ => True

omit [FloatOps] in
theorem Db.Agrees.endTxn (h : s.db.Agrees) : SessionOK s.db s.endTxn := ⟨h, h, .nil⟩

omit [FloatOps] in
theorem SessionOK.autoCommit (h : SessionOK B s) : ∃ B', SessionOK B' s.autoCommit := by
  rw [Session.autoCommit]
  split_ifs with hmode
  · exact ⟨s.db, h.agrees.endTxn⟩
  · exact ⟨B, h⟩

omit [FloatOps] in
theorem Db.Agrees.alike {D : Db S} (h : D.Agrees) : D.Alike D := fun t => by
  obtain ⟨A, hA, -⟩ := h t
  exact hA.alike

omit [FloatOps] in
theorem abort_spec (h : SessionOK B s) :
    wp abort (fun _ s' => B.Alike s'.db ∧ s'.writeSet = [] ∧ s'.txnMode = false) (fun _ _ => False) s := by
  rw [abort, wp_bind, wp_asks, wp_bind]
  exact wp_mono (h.leads.rollback s h.agrees.alike) (fun _ s' hs' => ⟨hs', rfl, rfl⟩) fun _ _ h => h

theorem clientHandler_of_wp {r : Request} {P : Session S → Prop}
    (h : wp r.run (fun _ s' => P s') (fun e s' => (∃ err, e = .rmdb err) ∧ P s') s) :
    ∃ e s', clientHandler s r = some (e, s'.autoCommit) ∧ P s' := by
  rw [wp] at h
  rw [clientHandler]
  rcases hrun : (r.run : SesExec S Unit) s with ⟨res, s'⟩
  rw [hrun] at h
  cases res with
  | ok _ => exact ⟨none, s', rfl, h⟩
  | error e =>
    obtain ⟨⟨err, rfl⟩, hP⟩ := h
    exact ⟨some err, s', rfl, hP⟩

theorem SessionOK.clientHandler (h : SessionOK B s) {r : Request} (hr : r.Maintained S) :
    ∃ e s', Execution.clientHandler s r = some (e, s') ∧ ∃ B', SessionOK B' s' := by
  have hrun : wp (r.run : SesExec S Unit) (fun _ s' => ∃ B', SessionOK B' s')
      (fun e s' => (∃ err, e = .rmdb err) ∧ ∃ B', SessionOK B' s') s := by
    cases r with
    | begin => exact ⟨B, h.start, h.agrees, h.leads⟩
    | stmt st => exact wp_mono (Stmt.run_keeps hr s h) (fun _ _ h => ⟨B, h.1⟩) fun _ _ h => ⟨h.1, B, h.2.1⟩
    | commit => exact ⟨s.db, h.agrees.endTxn⟩
    | abort =>
      refine wp_mono (abort_spec h) (fun _ s' hs' => ?_) fun _ _ h => h.elim
      have hagrees : s'.db.Agrees := fun t => (hs'.1 t).agrees (h.start t)
      exact ⟨s'.db, hagrees, hagrees, hs'.2.1 ▸ .nil⟩
  obtain ⟨e, s', hs', B', hB'⟩ := clientHandler_of_wp hrun
  exact ⟨e, s'.autoCommit, hs', hB'.autoCommit⟩

theorem run_sessionOK (hdb : s.db.Agrees) (hws : s.writeSet = []) {reqs : List Request} (hreqs : ∀ r ∈ reqs, r.Maintained S) :
    ∃ h s', Run.run Execution.clientHandler s reqs = some (h, s') ∧ ∃ B, SessionOK B s' := by
  have hinit : SessionOK s.db s := ⟨hdb, hdb, hws ▸ .nil⟩
  obtain ⟨h, s', hrun, hB, -⟩ := Run.run_total (R := fun _ s => ∃ B, SessionOK B s) (C := fun _ r => r.Maintained S)
    ⟨s.db, hinit⟩ (fun _ _ _ ⟨_, hB⟩ hr => hB.clientHandler hr) reqs (.of_mem hreqs s)
  exact ⟨h, s', hrun, hB⟩

/-- Every index stays consistent with its table, through any requests in which
each `UPDATE` through an index sets a column of that index or none of any. -/
theorem run_agrees (s : Session S) (hdb : s.db.Agrees) (hws : s.writeSet = []) (reqs : List Request)
    (hreqs : ∀ r ∈ reqs, r.Maintained S) :
    ∃ h s', Run.run clientHandler s reqs = some (h, s') ∧ s'.db.Agrees := by
  obtain ⟨h, s', hrun, B, hB⟩ := run_sessionOK hdb hws hreqs
  exact ⟨h, s', hrun, hB.agrees⟩

end Requests

theorem Session.create_agrees (hS : ∀ m ∈ S, m.recordSize ≤ maxRecordSize) : (Session.create S).db.Agrees := fun t =>
  ⟨_, Table.create_holds (hS _ (get_mem _ _)), fun _ _ _ => by simp⟩

/-- Arithmetic for tables without `FLOAT` columns. -/
@[reducible] def noFloats : FloatOps := ⟨fun _ => 0, fun _ _ => 0⟩

def colA : ColMeta := .intAt "a" 0
def colB : ColMeta := .intAt "b" 4
def ixA : IndexMeta := ⟨"t_a.idx", [colA], by simp [colA], by decide⟩
def ixB : IndexMeta := ⟨"t_b.idx", [colB], by simp [colB], by decide⟩

def tabAB : TabMeta where
  name := "t"
  cols := [colA, colB]
  indexes := [ixA, ixB]
  distinct := by simp [colA, colB]
  layout := by simp [colA, colB]
  ixCols := by simp [ixA, ixB]

/-- `INSERT` of (1, 2), then `UPDATE t SET b = 3 WHERE a = 1`. -/
def updateB (scan : ScanBy) : List Request :=
  [.stmt (.insert "t" [.int 1, .int 2] fun _ => true),
    .stmt (.update "t" [⟨"b", .int 3, false⟩] scan ⟨[⟨1, 0⟩], by simp⟩)]

theorem run_agrees_updateB :
    ∃ h s', Run.run (@clientHandler [tabAB] noFloats) (.create [tabAB]) (updateB .seq) = some (h, s') ∧ s'.db.Agrees :=
  @run_agrees [tabAB] noFloats _ (Session.create_agrees (by decide)) rfl _
    (by simp [updateB, Request.Maintained, Stmt.Maintained])

set_option maxRecDepth 10000 in
/-- Through the index on `a` the update leaves the index on `b` as it was: it
has the key 2 still, and not the record's key 3. -/
theorem updateB_stale :
    (Session.create [tabAB]).db.Agrees ∧ ∃ h s',
      Run.run (@clientHandler [tabAB] noFloats) (.create [tabAB]) (updateB (.index ["a"])) = some (h, s') ∧
        ¬ s'.db.Agrees := by
  refine ⟨Session.create_agrees (by decide), ?_⟩
  have hrun : (Run.run (@clientHandler [tabAB] noFloats) (.create [tabAB]) (updateB (.index ["a"]))).any (fun r =>
      (r.2.db 0).fh.live ⟨1, 0⟩ = some [1, 0, 0, 0, 3, 0, 0, 0] ∧
      ((r.2.db 0).ihs ⟨1, by decide⟩).getValue (ixB.key [1, 0, 0, 0, 3, 0, 0, 0]) = some none) = true := by decide +kernel
  obtain ⟨⟨h, s'⟩, hs', hcheck⟩ := Option.any_eq_true _ _ |>.1 hrun
  obtain ⟨hlive, hget⟩ := of_decide_eq_true hcheck
  refine ⟨h, s', hs', fun hagrees => ?_⟩
  obtain ⟨A, hA, hagree⟩ := hagrees 0
  have hkey := hagree.key (hA.live ▸ hlive) ⟨1, by decide⟩
  have hval := (hA.map ⟨1, by decide⟩).getValue ixB.order (ixB.key [1, 0, 0, 0, 3, 0, 0, 0])
  rw [hget] at hval
  exact absurd (hval.trans (congrArg some hkey)) (by simp)

/-! ## Rollback -/

section Rollback

variable [FloatOps] {B : Db S}

omit [FloatOps] in
/-- With one index at most, a scan of it that finds no column set finds none of any index set. -/
theorem Stmt.maintained_of_le_one (hS : ∀ m ∈ S, m.indexes.length ≤ 1) (st : Stmt) : st.Maintained S := by
  cases st with
  | insert => trivial
  | delete => trivial
  | update tabName sets scan rids =>
    cases scan with
    | seq => trivial
    | index colNames =>
      intro t _ scanned hscanned _ hout ix hix
      have hone := hS (S.get t) (get_mem _ _)
      obtain ⟨i, hi, rfl⟩ := getElem_of_mem hscanned
      obtain ⟨j, hj, rfl⟩ := getElem_of_mem hix
      obtain rfl : i = j := by omega
      exact hout

theorem runFrom_stmts {stmts : List Stmt} (hm : ∀ st ∈ stmts, st.Maintained S) :
    ∀ (h : List (Request × Option RMDBError)) (s : Session S), SessionOK B s → s.txnMode = true →
      ∃ h' s', Run.runFrom clientHandler h s (stmts.map .stmt) = some (h', s') ∧ SessionOK B s' := by
  induction stmts with
  | nil => exact fun h s hs _ => ⟨h, s, rfl, hs⟩
  | cons st stmts ih =>
    intro h s hs hmode
    obtain ⟨e, s', hrun, hs', hmode'⟩ := clientHandler_of_wp (r := .stmt st)
      (P := fun s' => SessionOK B s' ∧ s'.txnMode = s.txnMode) (Stmt.run_keeps (hm st (by simp)) s hs)
    have hauto : s'.autoCommit = s' := by rw [Session.autoCommit, if_neg (by simp [hmode', hmode])]
    rw [map_cons, Run.runFrom, hrun, hauto]
    exact ih (fun st hst => hm st (by simp [hst])) _ s' hs' (hmode'.trans hmode)

end Rollback

def tabA : TabMeta where
  name := "t"
  cols := [colA, colB]
  indexes := [ixA]
  distinct := by simp [colA, colB]
  layout := by simp [colA, colB]
  ixCols := by simp [ixA]

end Rmdb.Execution
