/-
What a failed statement leaves behind.

An `UPDATE` changes row after row, and an error at one row does not take back
what was done before: `client_handler` reports the error and, outside of an
explicit transaction, commits.
-/
import Rmdb.Transaction.Rollback

namespace Rmdb.Execution

open Option List Index Record Exec

variable {S : Schema}

def Db.Valid (D : Db S) : Prop := ∀ t, ∃ A, (D t).Holds A

def Db.Same (D D' : Db S) : Prop := ∀ t, ∃ A, (D t).Holds A ∧ (D' t).Holds A

section Rows

variable [FloatOps] {m : TabMeta} {A₀ A : Content m} {clauses : List SetClause} {isSet : Bool} {pre : List Rid}

/-- The clauses leave the record as it is, and where the indexes are maintained its entries are there. -/
def Unchanged (A : Content m) (clauses : List SetClause) (isSet : Bool) (rid : Rid) : Prop :=
  ∃ old, A.live rid = some old ∧ setAll clauses old = .ok old ∧
    (isSet = true → ∀ i, A.map i ((m.ix i).key old) = some rid)

inductive Updated (A₀ : Content m) (clauses : List SetClause) (isSet : Bool) : List Rid → Content m → Prop
  | nil : Updated A₀ clauses isSet [] A₀
  | snoc {pre : List Rid} {A : Content m} {rid : Rid} {old updated : List UInt8} : Updated A₀ clauses isSet pre A →
      A.live rid = some old → setAll clauses old = .ok updated → (isSet = true → A.Free rid updated) →
      Updated A₀ clauses isSet (pre ++ [rid]) (A.update rid old updated isSet)

theorem Updated.live (h : Updated A₀ clauses isSet pre A) (hnd : pre.Nodup) :
    (∀ rid ∉ pre, A.live rid = A₀.live rid) ∧
      ∀ rid ∈ pre, ∃ old updated, A₀.live rid = some old ∧ setAll clauses old = .ok updated ∧ A.live rid = some updated := by
  induction h with
  | nil => simp
  | @snoc pre A rid old updated _ hold hset _ ih =>
    rw [nodup_append] at hnd
    obtain ⟨ihout, ihin⟩ := ih hnd.1
    have hnot : rid ∉ pre := fun hmem => hnd.2.2 rid hmem rid (by simp) rfl
    refine ⟨fun r hr => ?_, fun r hr => ?_⟩
    · simp only [mem_append, mem_singleton, not_or] at hr
      rw [← ihout r hr.1]
      simp [Content.update, hr.2]
    · rcases mem_append.1 hr with hr | hr
      · obtain ⟨old', updated', h1, h2, h3⟩ := ihin r hr
        have hne : r ≠ rid := fun hrid => hnot (hrid ▸ hr)
        exact ⟨old', updated', h1, h2, by simpa [Content.update, hne] using h3⟩
      · rw [mem_singleton.1 hr]
        exact ⟨old, updated, by rw [← ihout rid hnot, hold], hset, by simp [Content.update]⟩

omit [FloatOps] in
theorem Content.update_same {rid : Rid} {old : List UInt8} (hlive : A.live rid = some old) :
    A.update rid old old isSet =
      { A with map := fun i => if isSet then Function.update (A.map i) ((m.ix i).key old) (some rid) else A.map i } := by
  rw [Content.update, ← hlive, Function.update_eq_self]
  congr 1
  funext i
  cases isSet with
  | false => rfl
  | true => rw [if_pos rfl, if_pos rfl, addEntry_of_none (Function.update_self ..), Function.update_idem]

/-- Where the records are left as they are, entries are added and none is lost. -/
theorem Updated.entries (h : Updated A₀ clauses isSet pre A) (hnd : pre.Nodup)
    (hsame : ∀ rid ∈ pre, ∀ old, A₀.live rid = some old → setAll clauses old = .ok old) :
    (∀ i k rid, A₀.map i k = some rid → A.map i k = some rid) ∧
      (isSet = true → ∀ rid ∈ pre, ∀ old, A₀.live rid = some old → ∀ i, A.map i ((m.ix i).key old) = some rid) := by
  induction h with
  | nil => simp
  | @snoc pre A rid old updated hpre hold hset hfree ih =>
    have hnd' := nodup_append.1 hnd
    obtain ⟨ihkeep, ihadd⟩ := ih hnd'.1 fun r hr => hsame r (by simp [hr])
    have hlive : A₀.live rid = some old := by
      rw [← (hpre.live hnd'.1).1 rid fun hmem => hnd'.2.2 rid hmem rid (by simp) rfl, hold]
    obtain rfl : updated = old := by
      have := hsame rid (by simp) old hlive
      rw [hset, Except.ok.injEq] at this
      exact this
    -- one more step of the loop, from `A`
    have hstep : ∀ i k r, A.map i k = some r → (A.update rid updated updated isSet).map i k = some r := by
      intro i k r hk
      rw [Content.update_same hold]
      cases isSet with
      | false => exact hk
      | true =>
        by_cases hkey : k = (m.ix i).key updated
        · subst hkey
          rcases hfree rfl i with hnone | hsome
          · rw [hnone] at hk
            cases hk
          · rw [hsome, some.injEq] at hk
            simp [hk]
        · simpa [hkey] using hk
    refine ⟨fun i k r hk => hstep i k r (ihkeep i k r hk), fun hset' r hr old' hold' i => ?_⟩
    rcases mem_append.1 hr with hr | hr
    · exact hstep i _ r (ihadd hset' r hr old' hold' i)
    · rw [mem_singleton.1 hr] at hold' ⊢
      rw [hlive, some.injEq] at hold'
      rw [Content.update_same hold, ← hold']
      simp [hset']

/-- The contents are as before exactly when each of the rows was left unchanged. -/
theorem Updated.eq_iff (h : Updated A₀ clauses isSet pre A) (hnd : pre.Nodup) :
    A = A₀ ↔ ∀ rid ∈ pre, Unchanged A₀ clauses isSet rid := by
  constructor
  · intro heq
    subst heq
    obtain ⟨-, hlive⟩ := h.live hnd
    have hsame : ∀ rid ∈ pre, ∀ old, A.live rid = some old → setAll clauses old = .ok old := by
      intro rid hrid old hold
      obtain ⟨old', updated, hold', hset, hupdated⟩ := hlive rid hrid
      rw [hold, some.injEq] at hold' hupdated
      subst hold' hupdated
      exact hset
    intro rid hrid
    obtain ⟨old, _, hold, -⟩ := hlive rid hrid
    exact ⟨old, hold, hsame rid hrid old hold, fun hset => (h.entries hnd hsame).2 hset rid hrid old hold⟩
  · intro hall
    induction h with
    | nil => rfl
    | @snoc pre A rid old updated _ hold hset _ ih =>
      obtain rfl := ih (nodup_append.1 hnd).1 fun r hr => hall r (by simp [hr])
      obtain ⟨old', hold', hset', hentries⟩ := hall rid (by simp)
      rw [hold, some.injEq] at hold'
      subst hold'
      rw [hset, Except.ok.injEq] at hset'
      subst hset'
      rw [Content.update_same hold]
      cases isSet with
      | false => rfl
      | true =>
        have hmap : ∀ i, Function.update (A.map i) ((m.ix i).key updated) (some rid) = A.map i := fun i => by
          rw [← hentries rfl i, Function.update_eq_self]
        simp only [if_true, hmap]

end Rows

/-! ## Statements -/

/-- The rows that come before the one at which the statement fails are left
unchanged: read off the database as it is before the statement. -/
def Stmt.Harmless [FloatOps] (D : Db S) : Stmt → Prop
  | .insert _ _ _ => True
  | .delete tabName rids => ∀ t, S.getTable tabName = .ok t → ∀ A, (D t).Holds A →
    ∃ rid post, rids.val = rid :: post ∧ A.live rid = none
  | .update tabName sets scan rids => ∀ t clauses isSet, S.getTable tabName = .ok t →
    analyzeSets (S.get t) sets = .ok clauses → isSetIndexKey (S.get t) scan clauses = .ok isSet →
    ∀ A, (D t).Holds A → ∃ pre rid post, rids.val = pre ++ rid :: post ∧
      (∀ r ∈ pre, Unchanged A clauses isSet r) ∧ Refused A clauses isSet rid

/-- A statement that fails leaves the database alone exactly when it is harmless. -/
def FailsSo (x : SesExec S Unit) (s : Session S) (P : Prop) : Prop :=
  wp x (fun _ _ => True) (fun _ s' => s.db.Same s'.db ↔ P) s

section Statements

variable {s : Session S} {t : Fin S.length}

theorem Db.Valid.same (h : s.db.Valid) : s.db.Same s.db := fun t => by
  obtain ⟨A, hA⟩ := h t
  exact ⟨A, hA, hA⟩

theorem Db.Valid.same_update_iff (h : s.db.Valid) {T : Table (S.get t)} {A₀ A : Content (S.get t)}
    (hA₀ : (s.db t).Holds A₀) (hA : T.Holds A) : s.db.Same (Function.update s.db t T) ↔ A = A₀ := by
  constructor
  · intro hsame
    obtain ⟨B, hB, hB'⟩ := hsame t
    rw [Function.update_self] at hB'
    exact (hA.unique hB').trans (hB.unique hA₀)
  · intro heq u
    by_cases hu : u = t
    · subst hu
      exact ⟨A₀, hA₀, by simpa [heq] using hA⟩
    · obtain ⟨B, hB⟩ := h u
      exact ⟨B, hB, by simpa [hu] using hB⟩

theorem FailsSo.ofExcept {α : Type} (h : s.db.Valid) {x : Except RMDBError α} {f : α → SesExec S Unit} {P : α → Prop}
    (hf : ∀ a, x = .ok a → FailsSo (f a) s (P a)) :
    FailsSo (Execution.ofExcept x >>= f) s (∀ a, x = .ok a → P a) := by
  rw [FailsSo, wp_bind]
  cases hx : x with
  | error e => exact ⟨fun _ a ha => by simp at ha, fun _ => h.same⟩
  | ok a =>
    have hP : P a ↔ ∀ a', Except.ok a = (Except.ok a' : Except RMDBError α) → P a' :=
      ⟨fun hP a' ha' => by cases ha'; exact hP, fun hP => hP a rfl⟩
    change wp (f a) _ _ s
    rw [← hP]
    exact hf a hx

/-- An error of the one row of an `INSERT` comes before it is made. -/
theorem insertStmt_fails [FloatOps] (h : s.db.Valid) (tabName : String) (values : List Value) (safe : String → Bool) :
    wp (insertStmt tabName values safe) (fun _ _ => True) (fun _ s' => s.db.Same s'.db) s := by
  rw [insertStmt, wp_bind]
  refine wp_ofExcept_rmdb (fun t _ => ?_) fun _ => h.same
  split_ifs with hlen
  · exact h.same
  · rw [wp_bind]
    refine wp_ofExcept_rmdb (fun rec _ => ?_) fun _ => h.same
    obtain ⟨A, hA⟩ := h t
    rw [wp_bind, wp_onTable]
    refine wp_mono (insertNext_spec hA safe) (fun _ _ _ => trivial) fun e T' hT' => ?_
    rw [hT'.1, Db.update_self]
    exact h.same

/-- The rows of a statement on one table: `R pre A` holds of the contents after the rows `pre`. -/
theorem wp_rows {α : Type} {x : Rid → TabExec (S.get t) α} {w : Rid → α → WriteRecord}
    {R : List Rid → Content (S.get t) → Prop} {F : Fault → Content (S.get t) → Rid → Prop} {A₀ : Content (S.get t)}
    (hA₀ : (s.db t).Holds A₀) (h0 : R [] A₀) (hx : ∀ pre rid A T, R pre A → T.Holds A →
      wp (x rid) (fun _ T' => ∃ A', T'.Holds A' ∧ R (pre ++ [rid]) A') (fun e T' => T' = T ∧ F e A rid) T)
    (rids : List Rid) :
    wp (rids.forM fun rid => onTable t (x rid) >>= fun a => appendWriteRecord (w rid a))
      (fun _ s' => ∃ A T, R rids A ∧ T.Holds A ∧ s'.db = Function.update s.db t T)
      (fun e s' => ∃ pre rid post A T, rids = pre ++ rid :: post ∧ R pre A ∧ F e A rid ∧ T.Holds A ∧
        s'.db = Function.update s.db t T) s := by
  refine wp_forM (I := fun pre (s' : Session S) => ∃ A T, R pre A ∧ T.Holds A ∧ s'.db = Function.update s.db t T)
    ⟨A₀, s.db t, h0, hA₀, (Db.update_self _ t).symm⟩ fun pre rid post s' hrids hI => ?_
  obtain ⟨A, T, hR, hT, hdb⟩ := hI
  have hs' : s'.db t = T := by rw [hdb, Function.update_self]
  rw [wp_bind, wp_onTable, hs']
  refine wp_mono (hx pre rid A T hR hT) (fun a T' ⟨A', hT', hR'⟩ => ?_) fun e T' ⟨hT', hF⟩ => ?_
  · exact ⟨A', T', hR', hT', by simp [hdb]⟩
  · exact ⟨pre, rid, post, A, T, hrids, hR, hF, hT, by simp [hdb, hT']⟩

theorem deleteStmt_fails [FloatOps] (h : s.db.Valid) (tabName : String) (rids : Rids) :
    FailsSo (deleteStmt tabName rids) s ((Stmt.delete tabName rids).Harmless s.db) := by
  refine .ofExcept h fun t _ => ?_
  obtain ⟨A₀, hA₀⟩ := h t
  refine wp_mono (wp_rows (x := deleteNext) (w := fun rid rec => .delete tabName rid rec) (F := fun _ A rid => A.live rid = none)
    (R := fun pre A => (pre = [] → A = A₀) ∧ (∀ r ∈ pre, A₀.live r ≠ none) ∧
      ∀ r, A.live r = if r ∈ pre then none else A₀.live r) hA₀ ⟨fun _ => rfl, by simp, by simp⟩
    (fun pre rid A T hR hT => ?_) rids.val) (fun _ _ _ => trivial) ?_
  · refine wp_mono (deleteNext_spec hT rid) (fun rec T' hnext => ?_) fun _ _ h => ⟨h.1, h.2.1⟩
    obtain ⟨hrec, hT', -⟩ := hnext
    refine ⟨_, hT', by simp, ?_, ?_⟩
    · intro r hr
      rcases mem_append.1 hr with hr | hr
      · exact hR.2.1 r hr
      · rw [mem_singleton.1 hr]
        rw [hR.2.2] at hrec
        split_ifs at hrec
        simp [hrec]
    · intro r
      by_cases hr : r = rid
      · subst hr
        simp [Content.delete]
      · simp [Content.delete, hr, hR.2.2 r]
  · intro _ s' hfail
    obtain ⟨pre, rid, post, A, T, hrids, hR, hF, hT, hdb⟩ := hfail
    rw [hdb, h.same_update_iff hA₀ hT]
    constructor
    · intro heq B hB
      rw [← hA₀.unique hB]
      cases pre with
      | nil => exact ⟨rid, post, hrids, heq ▸ hF⟩
      | cons r pre =>
        refine absurd ?_ (hR.2.1 r (by simp))
        rw [← heq, hR.2.2 r]
        simp
    · intro hharm
      obtain ⟨first, rest, hfirst, hdead⟩ := hharm A₀ hA₀
      cases pre with
      | nil => exact hR.1 rfl
      | cons r pre =>
        rw [hrids, cons_append, List.cons.injEq] at hfirst
        exact absurd (hfirst.1 ▸ hdead) (hR.2.1 r (by simp))

theorem Updated.not_refused [FloatOps] {m : TabMeta} {A₀ A : Content m} {clauses : List SetClause} {isSet : Bool} {l : List Rid}
    (h : Updated A₀ clauses isSet l A) : ∀ {pre : List Rid} {rid : Rid} {post : List Rid}, l = pre ++ rid :: post →
      l.Nodup → (∀ r ∈ pre, Unchanged A₀ clauses isSet r) → ¬ Refused A₀ clauses isSet rid := by
  induction h with
  | nil => intro pre rid post hl; simp at hl
  | @snoc l A rid' old updated hupd hold hset hfree ih =>
    intro pre rid post hl hnd hpre hrefused
    rcases eq_nil_or_concat post with rfl | ⟨post', last, rfl⟩
    · -- the last row that was updated
      obtain ⟨rfl, hrid⟩ := append_inj' hl rfl
      obtain rfl := singleton_injective hrid
      obtain rfl := (hupd.eq_iff (nodup_append.1 hnd).1).2 hpre
      obtain ⟨hset', hnot⟩ := hrefused old updated hold hset
      exact hnot (hfree hset')
    · rw [concat_eq_append, ← cons_append, ← append_assoc] at hl
      obtain ⟨hl, -⟩ := append_inj' hl rfl
      exact ih hl (nodup_append.1 hnd).1 hpre hrefused

theorem updateStmt_fails [FloatOps] (h : s.db.Valid) (tabName : String) (sets : List SetExpr) (scan : ScanBy) (rids : Rids) :
    FailsSo (updateStmt tabName sets scan rids) s ((Stmt.update tabName sets scan rids).Harmless s.db) := by
  suffices hfails : FailsSo (updateStmt tabName sets scan rids) s
      (∀ t, S.getTable tabName = .ok t → ∀ clauses, analyzeSets (S.get t) sets = .ok clauses →
        ∀ isSet, isSetIndexKey (S.get t) scan clauses = .ok isSet → ∀ A, (s.db t).Holds A →
          ∃ pre rid post, rids.val = pre ++ rid :: post ∧ (∀ r ∈ pre, Unchanged A clauses isSet r) ∧
            Refused A clauses isSet rid) by
    refine wp_mono hfails (fun _ _ h => h) fun _ s' h => h.trans ?_
    exact ⟨fun h t clauses isSet ht hc hi => h t ht clauses hc isSet hi,
      fun h t ht clauses hc isSet hi => h t clauses isSet ht hc hi⟩
  refine .ofExcept h fun t _ => .ofExcept h fun clauses _ => .ofExcept h fun isSet _ => ?_
  obtain ⟨A₀, hA₀⟩ := h t
  refine wp_mono (wp_rows (x := updateNext clauses isSet)
    (w := fun rid (r : List UInt8 × List UInt8) => .update tabName rid r.1 r.2 isSet) (F := fun _ A rid => Refused A clauses isSet rid)
    (R := fun pre A => Updated A₀ clauses isSet pre A) hA₀ .nil (fun pre rid A T hR hT => ?_) rids.val)
    (fun _ _ _ => trivial) ?_
  · refine wp_mono (updateNext_spec hT clauses isSet rid) (fun r T' h => ?_) fun _ _ h => ⟨h.1, h.2.1⟩
    exact ⟨_, h.2.2.2.1, .snoc hR h.1 h.2.1 h.2.2.1⟩
  · intro _ s' ⟨pre, rid, post, A, T, hrids, hR, hF, hT, hdb⟩
    have hnd := rids.property
    rw [hrids] at hnd
    have hndpre := (nodup_append.1 hnd).1
    rw [hdb, h.same_update_iff hA₀ hT, hR.eq_iff hndpre]
    constructor
    · intro hpre B hB
      obtain rfl := (hR.eq_iff hndpre).2 hpre
      rw [← hA₀.unique hB]
      exact ⟨pre, rid, post, hrids, hpre, hF⟩
    · intro hharm
      obtain ⟨pre', rid', post', hrids', hpre', hrefused⟩ := hharm A₀ hA₀
      rw [hrids] at hrids'
      -- were `rid'` among the rows done, it would have been refused
      rcases append_eq_append_iff.1 hrids' with ⟨as, hpre, -⟩ | ⟨as, hpre, hrest⟩
      · exact fun r hr => hpre' r (by simp [hpre, hr])
      · cases as with
        | nil => exact fun r hr => hpre' r (by simpa [hpre] using hr)
        | cons a as =>
          rw [cons_append, List.cons.injEq] at hrest
          exact absurd hrefused (hR.not_refused (hrest.1 ▸ hpre) hndpre hpre')

end Statements

theorem Db.Agrees.valid {D : Db S} (h : D.Agrees) : D.Valid := fun t => by
  obtain ⟨A, hA, -⟩ := h t
  exact ⟨A, hA⟩

def twoRows : List Request :=
  [.stmt (.insert "t" [.int 1, .int 2] fun _ => true), .stmt (.insert "t" [.int 2, .int 2] fun _ => true)]

def updateBoth : Stmt := .update "t" [⟨"a", .int 3, false⟩] .seq ⟨[⟨1, 0⟩, ⟨1, 1⟩], by decide⟩

def afterBoth (s : Session [tabA]) : Option (Option RMDBError × Option (List UInt8)) :=
  (@clientHandler [tabA] noFloats s (.stmt updateBoth)).map fun r => (r.1, (r.2.db 0).fh.live ⟨1, 0⟩)

end Rmdb.Execution
