/-
What the semantic analysis does to the catalog.

`check_column` reads the tables with `tabs_[table]`, and that makes an entry for a
table that is not there. `SELECT` looks for its tables first, also in a subquery,
and `UPDATE` gets its table with `get_table`; `DELETE` does neither. Of a `Query`
the model has the columns and their aggregates.
-/
import Rmdb.Lib.Exec
import Rmdb.System.Catalog
import Rmdb.Optimizer.Planner

namespace Rmdb.Catalog

open Exec List
open Execution (TabCol)
open Optimizer (AggType)

/-! ## Statements -/

/-- `BoundExpr`, without the alias. -/
structure SelItem where
  type : AggType
  col : TabCol

/-- The right side is a value or a column. -/
structure HavingExpr where
  lhs : SelItem
  rhs : Value ⊕ TabCol

mutual

inductive SelectStmt where
  | mk (tabs : List String) (selectList : List SelItem) (conds : BinaryExprs) (groupBys : List TabCol)
    (havings : List HavingExpr) (order : Option TabCol)

/-- Conditions of a `WHERE`; of the operator only whether it is `IN` matters. -/
inductive BinaryExprs where
  | nil
  | cons (lhs : TabCol) (isIn : Bool) (rhs : Expr) (rest : BinaryExprs)

inductive Expr where
  | val (val : Value)
  | col (col : TabCol)
  | select (stmt : SelectStmt)
  | list (vals : List Value)

end

def SelectStmt.selectList : SelectStmt → List SelItem
  | .mk _ selectList _ _ _ _ => selectList

inductive DmlStmt where
  | select (stmt : SelectStmt)
  | insert (vals : List Value)
  | update (tabName : String) (sets : List (String × Value)) (conds : BinaryExprs)
  | delete (tabName : String) (conds : BinaryExprs)

structure Query where
  cols : List TabCol
  aggTypes : List AggType

inductive CondRhs where
  | val (val : Value)
  | col (col : TabCol)
  | subQuery (query : Query)
  | list (vals : List Value)

structure Condition where
  aggType : AggType
  lhsCol : TabCol
  rhs : CondRhs

/-! ## `Analyze` -/

abbrev AnalyzeExec := Exec RMDBError DbMeta

def look {α : Type} (f : DbMeta → Except RMDBError α) : AnalyzeExec α := fun db => (f db, db)

def tabAt (table : String) : AnalyzeExec TabMeta := fun db =>
  match db.tabs.lookup table with
  | some tab => (.ok tab, db)
  | none => (.ok ⟨"", [], ∅, fun _ => none⟩, { db with tabs := db.tabs.insert table ⟨"", [], ∅, fun _ => none⟩ })

/-- The loop of `check_column` without a table name; `tabName` is what it found before. -/
def inferTable (colName : String) : List String → String → AnalyzeExec String
  | [], tabName => if tabName = "" then raise (.columnNotFound colName) else pure tabName
  | table :: tables, tabName => do
    let tab ← tabAt table
    if (tab.colsMap colName).isNone then inferTable colName tables tabName
    else if tabName ≠ "" then raise (.ambiguousColumn colName)
    else inferTable colName tables table

def findColumn (target : TabCol) : List String → AnalyzeExec TabCol
  | [] => raise (.columnNotFound target.colName)
  | table :: tables => do
    let tab ← tabAt table
    if (tab.colsMap target.colName).isSome ∧ table = target.tabName then pure target else findColumn target tables

def checkColumn (tables : List String) (target : TabCol) : AnalyzeExec TabCol :=
  if target.tabName = "" then do
    let tabName ← inferTable target.colName tables ""
    pure { target with tabName }
  else findColumn target tables

def colOf (col : TabCol) : AnalyzeExec ColMeta := look fun db => do (← db.getTable col.tabName).getCol col.colName

def initRaw (len : Int) : Value → AnalyzeExec Unit
  | .str s => if len < s.length then raise .stringOverflow else pure ()
  | _ => pure ()

/-- The type of the right side, where an `INT` may become a `FLOAT`. -/
def promoted (lhsType type : ColType) : ColType := if lhsType = .float ∧ type = .int then .float else type

def requireType (lhsType rhsType : ColType) : AnalyzeExec Unit :=
  if lhsType ≠ rhsType then raise (.incompatibleType lhsType rhsType) else pure ()

def checkRhs (tables : List String) : CondRhs → AnalyzeExec CondRhs
  | .col col => CondRhs.col <$> checkColumn tables col
  | rhs => pure rhs

/-- `check_clause` behind the columns: the values and the types. -/
def checkTypes (aggType : AggType) (lhsCol : ColMeta) (rhs : CondRhs) : AnalyzeExec Unit :=
  let lhsType := if aggType = .count then .int else lhsCol.type
  match rhs with
  | .val val => do
    initRaw lhsCol.len val
    requireType lhsType (if aggType = .count then val.type else promoted lhsType val.type)
  | .list vals => vals.forM fun val => do
    requireType lhsType (promoted lhsType val.type)
    initRaw lhsCol.len val
  | .subQuery query =>
    if query.aggTypes.head? = some .count then requireType lhsType (promoted lhsType .int)
    else do
      let rhsCol ← colOf (query.cols.headD ⟨"", ""⟩)
      requireType lhsType (promoted lhsType rhsCol.type)
  | .col col => do
    let rhsCol ← colOf col
    requireType lhsType rhsCol.type

def checkCond (tables : List String) (cond : Condition) : AnalyzeExec Unit :=
  if cond.aggType = .count ∧ cond.lhsCol = ⟨"", ""⟩ then
    match cond.rhs with
    | .val val => requireType .int val.type
    | _ => pure ()
  else do
    let lhs ← checkColumn tables cond.lhsCol
    let rhs ← checkRhs tables cond.rhs
    let lhsCol ← colOf lhs
    checkTypes cond.aggType lhsCol rhs

def checkClause (conds : List Condition) (tables : List String) : AnalyzeExec Unit := conds.forM (checkCond tables)

def getHavingClause (exprs : List HavingExpr) : AnalyzeExec (List Condition) := exprs.mapM' fun expr =>
  if expr.lhs.type = .col then raise (.internalError "Having 语句左侧必须是聚合函数！")
  else match expr.rhs with
    | .inl val => pure ⟨expr.lhs.type, expr.lhs.col, .val val⟩
    | .inr _ => raise (.internalError "Having 语句右侧应该为数值！")

def selectCols (tabs : List String) : List SelItem → AnalyzeExec (List TabCol)
  | [] => flatten <$> tabs.mapM' fun table => do
    let tab ← tabAt table
    pure (tab.cols.map fun col => ⟨col.tabName, col.name⟩)
  | items => items.mapM' fun item =>
    if item.type = .count ∧ item.col = ⟨"", ""⟩ then pure item.col else checkColumn tabs item.col

/-- The tests on the aggregates, with and without `GROUP BY`. -/
def checkGroups (query : Query) (groupBys : List TabCol) (havings : List HavingExpr) : Except RMDBError Unit :=
  if groupBys = [] then
    if havings.isEmpty = false then .error (.internalError "没有 GROUP BY 子句但是有 HAVING 子句！")
    else if AggType.col ∈ query.aggTypes ∧ ∃ type ∈ query.aggTypes, type ≠ .col then
      .error (.internalError "没有 GROUP BY 子句且有聚合函数，但包含非聚合值！")
    else .ok ()
  else if ∃ item ∈ query.cols.zip query.aggTypes, item.2 = .col ∧ item.1 ∉ groupBys then
    .error (.internalError "SELECT 列表中不能出现没有在 GROUP BY 子句中的非聚集列！")
  else .ok ()

def DbMeta.checkTables (db : DbMeta) : List String → Except RMDBError Unit
  | [] => .ok ()
  | table :: tables => if table ∈ db.tabs then db.checkTables tables else .error (.tableNotFound table)

mutual

def analyzeSelect : SelectStmt → AnalyzeExec Query
  | .mk tabs selectList exprs groupBys havings order => do
    look fun db => db.checkTables tabs
    when (selectList.isEmpty && !(groupBys.isEmpty && havings.isEmpty))
      (raise (.internalError "select * 不能包含聚合和分组子句！"))
    let query : Query := ⟨← selectCols tabs selectList, selectList.map SelItem.type⟩
    let conds ← getClause exprs
    let groupBys ← groupBys.mapM' (checkColumn tabs)
    look fun _ => checkGroups query groupBys havings
    let havings ← getHavingClause havings
    order.forM fun col => do let _ ← checkColumn tabs col
    checkClause conds tabs
    checkClause havings tabs
    pure query

def getClause : BinaryExprs → AnalyzeExec (List Condition)
  | .nil => pure []
  | .cons lhs isIn rhs rest => do
    let rhs ← getRhs isIn rhs
    let conds ← getClause rest
    pure (⟨.col, lhs, rhs⟩ :: conds)

def getRhs (isIn : Bool) : Expr → AnalyzeExec CondRhs
  | .val val => pure (.val val)
  | .col col => pure (.col col)
  | .select stmt =>
    if stmt.selectList.length ≠ 1 then raise (.internalError "Operand should contain 1 column!")
    else CondRhs.subQuery <$> analyzeSelect stmt
  | .list vals =>
    if isIn = false ∧ vals.length > 1 then raise (.internalError "Operand should contain 1 column!")
    else pure (.list vals)

end

def doAnalyze : DmlStmt → AnalyzeExec Unit
  | .select stmt => do let _ ← analyzeSelect stmt
  | .insert _ => pure ()
  | .update tabName sets exprs => do
    let tab ← look fun db => db.getTable tabName
    sets.forM fun set => do
      let col ← look fun _ => tab.getCol set.1
      requireType col.type (promoted col.type set.2.type)
      initRaw col.len set.2
    let conds ← getClause exprs
    checkClause conds [tabName]
  | .delete tabName exprs => do
    let conds ← getClause exprs
    checkClause conds [tabName]

/-! ## The catalog after the analysis -/

/-- The program leaves this catalog as it is, whether it returns or not. -/
def Keeps {α : Type} (x : AnalyzeExec α) (db : DbMeta) : Prop := (x db).2 = db

namespace Keeps

variable {α β : Type} {x y : AnalyzeExec α} {db : DbMeta} {tables : List String}

theorem look (f : DbMeta → Except RMDBError α) : Keeps (look f) db := rfl

theorem bind {f : α → AnalyzeExec β} (hx : Keeps x db) (hf : ∀ a, Keeps (f a) db) : Keeps (x >>= f) db := by
  rw [Keeps] at hx ⊢
  rw [bind_apply]
  rcases hr : x db with ⟨⟨⟩, db'⟩
  · rwa [hr] at hx
  · rw [hr] at hx
    obtain rfl : db' = db := hx
    exact hf _

theorem map (f : α → β) (hx : Keeps x db) : Keeps (f <$> x) db := bind hx fun _ => rfl

theorem ite {c : Prop} [Decidable c] (hx : Keeps x db) (hy : Keeps y db) : Keeps (if c then x else y) db := by
  split
  · exact hx
  · exact hy

theorem mapM {f : α → AnalyzeExec β} {l : List α} (h : ∀ a ∈ l, Keeps (f a) db) : Keeps (l.mapM' f) db := by
  induction l with
  | nil => rfl
  | cons a l ih =>
    rw [forall_mem_cons] at h
    exact h.1.bind fun _ => (ih h.2).bind fun _ => rfl

theorem forM {f : α → AnalyzeExec Unit} {l : List α} (h : ∀ a ∈ l, Keeps (f a) db) : Keeps (l.forM f) db := by
  induction l with
  | nil => rfl
  | cons a l ih =>
    rw [forall_mem_cons] at h
    exact h.1.bind fun _ => ih h.2

theorem look_bind {f : DbMeta → Except RMDBError α} {g : α → AnalyzeExec β}
    (hg : ∀ a, f db = .ok a → Keeps (g a) db) : Keeps (Catalog.look f >>= g) db := by
  rw [Keeps, bind_apply, Catalog.look]
  cases hf : f db with
  | error e => rfl
  | ok a => exact hg a hf

theorem initRaw (len : Int) (val : Value) : Keeps (initRaw len val) db := by
  cases val with
  | str s => exact ite rfl rfl
  | _ => rfl

theorem requireType (lhsType rhsType : ColType) : Keeps (requireType lhsType rhsType) db := ite rfl rfl

theorem checkTypes (aggType : AggType) (lhsCol : ColMeta) (rhs : CondRhs) :
    Keeps (checkTypes aggType lhsCol rhs) db := by
  cases rhs with
  | val val => exact (initRaw _ _).bind fun _ => requireType _ _
  | list vals => exact forM fun _ _ => (requireType _ _).bind fun _ => initRaw _ _
  | subQuery query => exact ite (requireType _ _) ((look _).bind fun _ => requireType _ _)
  | col col => exact (look _).bind fun _ => requireType _ _

theorem getHavingClause (exprs : List HavingExpr) : Keeps (getHavingClause exprs) db := by
  refine mapM fun expr _ => ite rfl ?_
  cases expr.rhs <;> rfl

/-! Where the tables are in the catalog, nothing is added to it. -/

variable (h : ∀ table ∈ tables, table ∈ db.tabs)

include h

theorem tabAt {table : String} (ht : table ∈ tables) : Keeps (tabAt table) db := by
  obtain ⟨tab, htab⟩ := Option.isSome_iff_exists.1 (AList.lookup_isSome.2 (h table ht))
  rw [Keeps, Catalog.tabAt, htab]

theorem checkColumn (target : TabCol) : Keeps (checkColumn tables target) db := by
  have hinfer : ∀ tables' ⊆ tables, ∀ tabName, Keeps (inferTable target.colName tables' tabName) db := by
    intro tables' hsub
    induction tables' with
    | nil => exact fun tabName => ite rfl rfl
    | cons table tables' ih =>
      rw [cons_subset] at hsub
      exact fun tabName => (tabAt h hsub.1).bind fun tab => ite (ih hsub.2 tabName) (ite rfl (ih hsub.2 table))
  have hfind : ∀ tables' ⊆ tables, Keeps (findColumn target tables') db := by
    intro tables' hsub
    induction tables' with
    | nil => rfl
    | cons table tables' ih =>
      rw [cons_subset] at hsub
      exact (tabAt h hsub.1).bind fun tab => ite rfl (ih hsub.2)
  exact ite ((hinfer _ (Subset.refl _) "").bind fun _ => rfl) (hfind _ (Subset.refl _))

theorem checkClause (conds : List Condition) : Keeps (checkClause conds tables) db := by
  refine forM fun cond _ => ?_
  refine ite ?_ ((checkColumn h _).bind fun lhs => Keeps.bind ?_ fun rhs => (look _).bind fun _ => checkTypes _ _ _)
  · cases cond.rhs with
    | val val => exact requireType _ _
    | _ => rfl
  · cases cond.rhs with
    | col col => exact map _ (checkColumn h col)
    | _ => rfl

theorem selectCols (items : List SelItem) : Keeps (selectCols tables items) db := by
  cases items with
  | nil => exact map _ (mapM fun table ht => (tabAt h ht).bind fun _ => rfl)
  | cons item items => exact mapM fun item _ => ite rfl (checkColumn h _)

end Keeps

theorem mem_of_checkTables {db : DbMeta} {tables : List String} (h : db.checkTables tables = .ok ()) :
    ∀ table ∈ tables, table ∈ db.tabs := by
  induction tables with
  | nil => exact nofun
  | cons table tables ih =>
    rw [DbMeta.checkTables] at h
    split at h
    · next ht => exact forall_mem_cons.2 ⟨ht, ih h⟩
    · cases h

mutual

theorem keeps_analyzeSelect (db : DbMeta) : (stmt : SelectStmt) → Keeps (analyzeSelect stmt) db
  | .mk tabs selectList exprs groupBys havings order => by
    refine Keeps.look_bind fun _ htabs => ?_
    have h := mem_of_checkTables htabs
    refine Keeps.bind (.ite rfl rfl) fun _ => ?_
    refine (Keeps.selectCols h _).bind fun _ => (keeps_getClause db exprs).bind fun _ => ?_
    refine (Keeps.mapM fun col _ => Keeps.checkColumn h col).bind fun _ => (Keeps.look _).bind fun _ => ?_
    refine (Keeps.getHavingClause _).bind fun _ => Keeps.bind ?_ fun _ =>
      (Keeps.checkClause h _).bind fun _ => (Keeps.checkClause h _).bind fun _ => rfl
    cases order with
    | none => rfl
    | some col => exact (Keeps.checkColumn h col).bind fun _ => rfl

theorem keeps_getClause (db : DbMeta) : (exprs : BinaryExprs) → Keeps (getClause exprs) db
  | .nil => rfl
  | .cons _ isIn rhs rest => (keeps_getRhs db isIn rhs).bind fun _ => (keeps_getClause db rest).bind fun _ => rfl

theorem keeps_getRhs (db : DbMeta) (isIn : Bool) : (rhs : Expr) → Keeps (getRhs isIn rhs) db
  | .val _ | .col _ => rfl
  | .select stmt => .ite rfl (.map _ (keeps_analyzeSelect db stmt))
  | .list _ => .ite rfl rfl

end

/-- The catalog with an entry of `operator[]`. -/
def DbMeta.withEntry (db : DbMeta) (table : String) : DbMeta :=
  { db with tabs := db.tabs.insert table ⟨"", [], ∅, fun _ => none⟩ }

/-- It is as if the entry had been there. -/
theorem checkClause_missing {db : DbMeta} {table : String} (h : table ∉ db.tabs) {cond : Condition}
    (hcond : cond.aggType = .col) (conds : List Condition) :
    checkClause (cond :: conds) [table] db = checkClause (cond :: conds) [table] (db.withEntry table) := by
  have htab : tabAt table db = tabAt table (db.withEntry table) := by
    rw [tabAt, tabAt, AList.lookup_eq_none.2 h, DbMeta.withEntry, AList.lookup_insert]
  have hcol : checkColumn [table] cond.lhsCol db = checkColumn [table] cond.lhsCol (db.withEntry table) := by
    rw [checkColumn]
    split
    · rw [bind_apply, bind_apply, inferTable, bind_apply, bind_apply, htab]
    · rw [findColumn, bind_apply, bind_apply, htab]
  have hturn : checkCond [table] cond db = checkCond [table] cond (db.withEntry table) := by
    rw [checkCond, if_neg (by simp [hcond]), bind_apply, bind_apply, hcol]
  show (checkCond [table] cond >>= fun _ => checkClause conds [table]) db = _
  rw [bind_apply, hturn]
  rfl

theorem getClause_cons {db db' : DbMeta} {lhs : TabCol} {isIn : Bool} {rhs : Expr} {rest : BinaryExprs}
    {conds : List Condition} (h : getClause (.cons lhs isIn rhs rest) db = (.ok conds, db')) :
    ∃ cond conds', conds = cond :: conds' ∧ cond.aggType = .col := by
  rw [getClause, bind_apply] at h
  split at h
  · rw [bind_apply] at h
    split at h
    · cases h
      exact ⟨_, _, rfl, rfl⟩
    · cases h
  · cases h

/-- A `DELETE` from a table that there is not, with conditions whose subqueries have no error. -/
def AddsEntry (db : DbMeta) : DmlStmt → Prop
  | .delete tabName exprs => tabName ∉ db.tabs ∧ exprs ≠ .nil ∧ ∃ conds, (getClause exprs db).1 = .ok conds
  | _ => False

theorem delete_keeps_iff (db : DbMeta) (tabName : String) (exprs : BinaryExprs) :
    Keeps (doAnalyze (.delete tabName exprs)) db ↔ ¬ AddsEntry db (.delete tabName exprs) := by
  have hget : (getClause exprs db).2 = db := keeps_getClause db exprs
  rw [Keeps, doAnalyze, bind_apply]
  rcases hr : getClause exprs db with ⟨_ | conds, db'⟩
  · refine iff_of_true (by rw [hr] at hget; exact hget) fun h => ?_
    obtain ⟨-, -, conds, hok⟩ := h
    rw [hr] at hok
    cases hok
  obtain rfl : db' = db := by rw [hr] at hget; exact hget
  show Keeps (checkClause conds [tabName]) db' ↔ _
  by_cases ht : tabName ∈ db'.tabs
  · exact iff_of_true (Keeps.checkClause (by simpa using ht) conds) fun h => h.1 ht
  cases exprs with
  | nil =>
    cases hr
    exact iff_of_true rfl fun h => h.2.1 rfl
  | cons lhs isIn rhs rest =>
    obtain ⟨cond, conds, rfl, hagg⟩ := getClause_cons hr
    refine iff_of_false (fun hsame => ?_) (not_not.2 ⟨ht, nofun, _, by rw [hr]⟩)
    have hkeeps : (checkClause (cond :: conds) [tabName] (db'.withEntry tabName)).2 = _ :=
      Keeps.checkClause (by simp [DbMeta.withEntry]) _
    rw [Keeps, checkClause_missing ht hagg, hkeeps] at hsame
    have hin : tabName ∈ (db'.withEntry tabName).tabs := (AList.mem_insert _).2 (.inl rfl)
    exact ht (hsame ▸ hin)

theorem update_keeps (db : DbMeta) (tabName : String) (sets : List (String × Value)) (exprs : BinaryExprs) :
    Keeps (doAnalyze (.update tabName sets exprs)) db := by
  refine Keeps.look_bind fun tab htab => ?_
  have hmem : ∀ table ∈ [tabName], table ∈ db.tabs := by
    intro table ht
    rw [mem_singleton.1 ht, ← AList.lookup_isSome]
    rw [DbMeta.getTable] at htab
    split at htab
    · cases htab
    · next hlook => simp [hlook]
  refine Keeps.bind (Keeps.forM fun set _ => ?_) fun _ =>
    (keeps_getClause db exprs).bind fun _ => Keeps.checkClause hmem _
  exact (Keeps.look _).bind fun _ => (Keeps.requireType _ _).bind fun _ => Keeps.initRaw _ _

/-- The analysis leaves the catalog as it is but for such a `DELETE`. -/
theorem doAnalyze_keeps_iff (db : DbMeta) (stmt : DmlStmt) : (doAnalyze stmt db).2 = db ↔ ¬ AddsEntry db stmt := by
  cases stmt with
  | select stmt => exact iff_of_true ((keeps_analyzeSelect db stmt).bind fun _ => rfl) id
  | insert vals => exact iff_of_true rfl id
  | update tabName sets exprs => exact iff_of_true (update_keeps db tabName sets exprs) id
  | delete tabName exprs => exact delete_keeps_iff db tabName exprs

/-- `delete from t where a = 1` in a database without tables: the error is the right one,
but then there is a table `t` without a name and columns. -/
theorem delete_adds_table : ∃ db, doAnalyze (.delete "t" (.cons ⟨"", "a"⟩ false (.val (.int 1)) .nil)) ⟨"db", ∅⟩ =
    (.error (.columnNotFound "a"), db) ∧ db.tabs.keys = ["t"] ∧ ∃ tab, db.getTable "t" = .ok tab ∧ tab.name = "" :=
  ⟨_, rfl, rfl, _, rfl, rfl⟩

end Rmdb.Catalog
