/-
The contents of a table, and what the row operations do to them.

`Content` is a table as far as a user can tell: the records by their rids and
the entries of each index. `Agree` says that an index has exactly the keys of the
records. `Undoes x T' T` is what rollback rests on: `x` leads from any table like
`T'` to one like `T`; alike are tables with the same contents whose heap files
differ by empty pages at most.
-/
import Rmdb.Execution.Row

namespace Rmdb

open Option Index

/-! ## The map of an index -/

section

variable {κ : Type} {order : Nat} [IxOrder κ] {s : IxIndexHandle κ order} {mp : κ → Option Rid}

/-- `insert_entry` leaves a key alone that is there already. -/
def addEntry (mp : κ → Option Rid) (key : κ) (rid : Rid) : κ → Option Rid :=
  if mp key = none then Function.update mp key (some rid) else mp

theorem addEntry_of_none {key : κ} (h : mp key = none) (rid : Rid) :
    addEntry mp key rid = Function.update mp key (some rid) := if_pos h

theorem Index.Represents.insertEntry (h : Represents s mp) (hord : 2 < order) (key : κ) (rid : Rid) :
    ∃ page s', s.insertEntry key rid = some (page, s') ∧ Represents s' (addEntry mp key rid) := by
  by_cases hkey : mp key = none
  · obtain ⟨page, s', hrun, -, hs', -⟩ := h.insertEntry_new hord hkey rid
    exact ⟨page, s', hrun, by rwa [addEntry_of_none hkey]⟩
  · exact ⟨noPage, s, h.insertEntry_old hord hkey rid, by rwa [addEntry, if_neg hkey]⟩

theorem Index.Represents.deleteEntry (h : Represents s mp) (hord : 2 < order) (key : κ) :
    ∃ found s', s.deleteEntry key = some (found, s') ∧ Represents s' (Function.update mp key none) := by
  by_cases hkey : mp key = none
  · exact ⟨false, s, h.deleteEntry_new hord hkey, by rwa [← hkey, Function.update_eq_self]⟩
  · obtain ⟨s', hrun, hs'⟩ := h.deleteEntry_old hord hkey
    exact ⟨true, s', hrun, hs'⟩

end

namespace Execution

open Record Exec

variable {m : TabMeta}

structure Content (m : TabMeta) where
  live : Rid → Option (List UInt8)
  map : (i : Fin m.indexes.length) → Key (m.ix i).keyCols → Option Rid

structure Table.Carries (T : Table m) (A : Content m) : Prop where
  live : T.fh.live = A.live
  map : ∀ i, Represents (T.ihs i) (A.map i)

structure Table.Holds (T : Table m) (A : Content m) : Prop where
  heap : T.fh.HeapOK
  live : T.fh.live = A.live
  map : ∀ i, Represents (T.ihs i) (A.map i)

theorem Table.Holds.carries {T : Table m} {A : Content m} (h : T.Holds A) : T.Carries A := ⟨h.live, h.map⟩

theorem Table.Holds.unique {T : Table m} {A A' : Content m} (h : T.Holds A) (h' : T.Holds A') : A = A' := by
  have hlive : A.live = A'.live := h.live.symm.trans h'.live
  have hmap : A.map = A'.map := funext fun i => (h.map i).unique (h'.map i) (m.ix i).order
  cases A
  cases A'
  simp only at hlive hmap
  rw [hlive, hmap]

theorem Table.create_holds (h : m.recordSize ≤ maxRecordSize) :
    (Table.create m).Holds ⟨fun _ => none, fun _ _ => none⟩ where
  heap := .createFile h
  live := funext fun rid => RmFileHandle.live_createFile _ rid
  map i := represents_createIndex (m.ix i).createIndex_newFile

/-! ## Calls -/

section Calls

variable {α : Type} {Q : α → Table m → Prop} {E : Fault → Table m → Prop} {T : Table m}

theorem wp_onFile {f : RmFileHandle → Except RMDBError (α × RmFileHandle)} {a : α} {fh : RmFileHandle}
    (h : f T.fh = .ok (a, fh)) : wp (onFile f) Q E T ↔ Q a { T with fh := fh } := by
  simp only [wp, onFile, h]

def Only (i : Fin m.indexes.length) (T T' : Table m) : Prop := T'.fh = T.fh ∧ ∀ j ≠ i, T'.ihs j = T.ihs j

variable {i : Fin m.indexes.length} {mp : Key (m.ix i).keyCols → Option Rid}

theorem wp_isUnique (h : Represents (T.ihs i) mp)
    {Q : Bool × Option Rid → Table m → Prop} (key : Key (m.ix i).keyCols) :
    wp (isUnique i key) Q E T ↔ Q ((mp key).isNone, mp key) T := by
  simp only [wp, isUnique, onIndex, h.isUnique (m.ix i).order key, map_some, Function.update_eq_self]

theorem wp_insertEntry (h : Represents (T.ihs i) mp) (key : Key (m.ix i).keyCols) (rid : Rid) :
    wp (insertEntry i key rid) (fun _ T' => Only i T T' ∧ Represents (T'.ihs i) (addEntry mp key rid)) E T := by
  obtain ⟨page, s', hrun, hs'⟩ := h.insertEntry (m.ix i).order key rid
  simp only [wp, insertEntry, onIndex, hrun, map_some]
  exact ⟨⟨rfl, fun j hj => by simp [hj]⟩, by simpa using hs'⟩

theorem wp_deleteEntry (h : Represents (T.ihs i) mp) (key : Key (m.ix i).keyCols) :
    wp (deleteEntry i key) (fun _ T' => Only i T T' ∧ Represents (T'.ihs i) (Function.update mp key none)) E T := by
  obtain ⟨found, s', hrun, hs'⟩ := h.deleteEntry (m.ix i).order key
  simp only [wp, deleteEntry, onIndex, hrun, map_some]
  exact ⟨⟨rfl, fun j hj => by simp [hj]⟩, by simpa using hs'⟩

theorem wp_replaceEntry (h : Represents (T.ihs i) mp) (old new : Key (m.ix i).keyCols) (rid : Rid) :
    wp (do deleteEntry i old; insertEntry i new rid)
      (fun _ T' => Only i T T' ∧ Represents (T'.ihs i) (addEntry (Function.update mp old none) new rid)) E T := by
  rw [wp_bind]
  refine wp_mono (wp_deleteEntry h old) (fun _ T₁ h₁ => ?_) fun _ _ h => h
  refine wp_mono (wp_insertEntry h₁.2 new rid) (fun _ T₂ h₂ => ?_) fun _ _ h => h
  exact ⟨⟨h₂.1.1.trans h₁.1.1, fun j hj => (h₂.1.2 j hj).trans (h₁.1.2 j hj)⟩, h₂.2⟩

theorem wp_forIndexes {f : Fin m.indexes.length → TabExec m Unit}
    {P : (i : Fin m.indexes.length) → IxIndexHandle (Key (m.ix i).keyCols) (btreeOrder (m.ix i).keyCols) → Prop}
    (hf : ∀ i T', T'.ihs i = T.ihs i → wp (f i) (fun _ T'' => Only i T' T'' ∧ P i (T''.ihs i)) E T') :
    wp (forIndexes f) (fun _ T' => T'.fh = T.fh ∧ ∀ i, P i (T'.ihs i)) E T := by
  have hloop := wp_forM (s := T) (E := E) (f := f) (l := List.finRange m.indexes.length)
    (I := fun pre T' => T'.fh = T.fh ∧ ∀ i, if i ∈ pre then P i (T'.ihs i) else T'.ihs i = T.ihs i)
    ⟨rfl, by simp⟩ fun pre i post T' hl hI => ?_
  · refine wp_mono hloop (fun _ T' h => ⟨h.1, fun i => ?_⟩) fun _ _ h => h
    simpa using h.2 i
  · have hnot : i ∉ pre := by
      have hnd := List.nodup_finRange m.indexes.length
      rw [hl] at hnd
      exact fun hmem => List.disjoint_of_nodup_append hnd hmem (by simp)
    have hsame := hI.2 i
    rw [if_neg hnot] at hsame
    refine wp_mono (hf i T' hsame) (fun _ T'' h => ⟨h.1.1.trans hI.1, fun j => ?_⟩) fun _ _ h => h
    by_cases hj : j = i
    · subst hj
      simpa using h.2
    · rw [h.1.2 j hj]
      simpa [hj] using hI.2 j

section Loops

variable {mp : (i : Fin m.indexes.length) → Key (m.ix i).keyCols → Option Rid}

theorem wp_insertEntries (h : ∀ i, Represents (T.ihs i) (mp i)) (key : (i : Fin m.indexes.length) → Key (m.ix i).keyCols)
    (rid : Rid) :
    wp (forIndexes fun i => insertEntry i (key i) rid)
      (fun _ T' => T'.fh = T.fh ∧ ∀ i, Represents (T'.ihs i) (addEntry (mp i) (key i) rid)) E T :=
  wp_forIndexes (P := fun i ih => Represents ih (addEntry (mp i) (key i) rid)) fun i T' hT' =>
    wp_insertEntry (by rw [hT']; exact h i) (key i) rid

theorem wp_deleteEntries (h : ∀ i, Represents (T.ihs i) (mp i)) (key : (i : Fin m.indexes.length) → Key (m.ix i).keyCols) :
    wp (forIndexes fun i => deleteEntry i (key i))
      (fun _ T' => T'.fh = T.fh ∧ ∀ i, Represents (T'.ihs i) (Function.update (mp i) (key i) none)) E T :=
  wp_forIndexes (P := fun i ih => Represents ih (Function.update (mp i) (key i) none)) fun i T' hT' =>
    wp_deleteEntry (by rw [hT']; exact h i) (key i)

theorem wp_replaceEntries (h : ∀ i, Represents (T.ihs i) (mp i))
    (old new : (i : Fin m.indexes.length) → Key (m.ix i).keyCols) (rid : Rid) :
    wp (forIndexes fun i => do deleteEntry i (old i); insertEntry i (new i) rid)
      (fun _ T' => T'.fh = T.fh ∧
        ∀ i, Represents (T'.ihs i) (addEntry (Function.update (mp i) (old i) none) (new i) rid)) E T :=
  wp_forIndexes (P := fun i ih => Represents ih (addEntry (Function.update (mp i) (old i) none) (new i) rid))
    fun i T' hT' => wp_replaceEntry (by rw [hT']; exact h i) (old i) (new i) rid

end Loops

theorem wp_forIndexes_check {f : Fin m.indexes.length → TabExec m Unit} {P : Fin m.indexes.length → Prop}
    (hf : ∀ i, wp (f i) (fun _ T' => T' = T ∧ P i) E T) :
    wp (forIndexes f) (fun _ T' => T' = T ∧ ∀ i, P i) E T := by
  have hloop := wp_forM (s := T) (E := E) (f := f) (l := List.finRange m.indexes.length)
    (I := fun pre T' => T' = T ∧ ∀ i ∈ pre, P i) ⟨rfl, by simp⟩ fun pre i post T' _ hI => ?_
  · exact wp_mono hloop (fun _ T' h => ⟨h.1, fun i => h.2 i (List.mem_finRange i)⟩) fun _ _ h => h
  · obtain ⟨rfl, hpre⟩ := hI
    refine wp_mono (hf i) (fun _ T'' h => ⟨h.1, fun j hj => ?_⟩) fun _ _ h => h
    rcases List.mem_append.1 hj with hj | hj
    · exact hpre j hj
    · rw [List.mem_singleton.1 hj]
      exact h.2

theorem wp_getRecord {A : Content m} (h : T.Carries A) {rid : Rid} {Q : List UInt8 → Table m → Prop}
    (hsome : ∀ rec, A.live rid = some rec → Q rec T) (hnone : A.live rid = none → ∀ err, E (.rmdb err) T) :
    wp (getRecord rid) Q E T := by
  rw [← h.live] at hsome hnone
  cases hget : T.fh.getRecord rid with
  | ok rec =>
    rw [getRecord, wp_onFile (a := rec) (by rw [hget]; rfl)]
    exact hsome rec (RmFileHandle.live_of_getRecord hget)
  | error err =>
    have hlive : T.fh.live rid = none := by
      cases hlive : T.fh.live rid with
      | none => rfl
      | some rec => simp [RmFileHandle.getRecord_eq hlive] at hget
    simp only [wp, getRecord, onFile, hget, Except.map]
    exact hnone hlive err

end Calls

/-! ## What the row operations do to the contents -/

namespace Content

variable {A : Content m} {rid : Rid} {rec old updated : List UInt8}

def insert (A : Content m) (rid : Rid) (rec : List UInt8) : Content m where
  live := Function.update A.live rid (some rec)
  map i := Function.update (A.map i) ((m.ix i).key rec) (some rid)

def delete (A : Content m) (rid : Rid) (rec : List UInt8) : Content m where
  live := Function.update A.live rid none
  map i := Function.update (A.map i) ((m.ix i).key rec) none

def update (A : Content m) (rid : Rid) (old updated : List UInt8) (isSetIndexKey : Bool) : Content m where
  live := Function.update A.live rid (some updated)
  map i :=
    if isSetIndexKey then addEntry (Function.update (A.map i) ((m.ix i).key old) none) ((m.ix i).key updated) rid
    else A.map i

/-- Every index contains exactly the keys of the records, each with its rid. -/
def Agree (A : Content m) : Prop :=
  ∀ i k rid, A.map i k = some rid ↔ ∃ rec, A.live rid = some rec ∧ (m.ix i).key rec = k

/-- No other record has the key of `updated`, in any index. -/
def Free (A : Content m) (rid : Rid) (updated : List UInt8) : Prop :=
  ∀ i, A.map i ((m.ix i).key updated) = none ∨ A.map i ((m.ix i).key updated) = some rid

theorem Agree.key (h : A.Agree) (hlive : A.live rid = some rec) (i : Fin m.indexes.length) :
    A.map i ((m.ix i).key rec) = some rid := (h i _ rid).2 ⟨rec, hlive, rfl⟩

theorem Agree.insert (h : A.Agree) (hlive : A.live rid = none) (hfree : ∀ i, A.map i ((m.ix i).key rec) = none) :
    (A.insert rid rec).Agree := by
  intro i k rid'
  have hold := h i k rid'
  simp only [Content.insert]
  by_cases hk : k = (m.ix i).key rec
  · subst hk
    rw [hfree i] at hold
    by_cases hrid : rid' = rid
    · subst hrid
      simp
    · simpa [hrid, Ne.symm hrid] using hold
  · by_cases hrid : rid' = rid
    · subst hrid
      simpa [hk, hlive, Ne.symm hk] using hold
    · simpa [hk, hrid] using hold

theorem Agree.delete (h : A.Agree) (hlive : A.live rid = some rec) : (A.delete rid rec).Agree := by
  intro i k rid'
  have hold := h i k rid'
  have hkey := h.key hlive i
  simp only [Content.delete]
  by_cases hk : k = (m.ix i).key rec
  · subst hk
    rw [hkey] at hold
    by_cases hrid : rid' = rid
    · subst hrid
      simp
    · simpa [hrid, Ne.symm hrid] using hold
  · by_cases hrid : rid' = rid
    · subst hrid
      simpa [hk, hlive, Ne.symm hk] using hold
    · simpa [hk, hrid] using hold

theorem Agree.update_eq (h : A.Agree) (hlive : A.live rid = some old) (hfree : A.Free rid updated) :
    A.update rid old updated true = (A.delete rid old).insert rid updated ∧
      ∀ i, (A.delete rid old).map i ((m.ix i).key updated) = none := by
  have hnone : ∀ i, (A.delete rid old).map i ((m.ix i).key updated) = none := by
    intro i
    simp only [Content.delete]
    rcases hfree i with hnone | hsome
    · by_cases hk : (m.ix i).key updated = (m.ix i).key old
      · simp [hk]
      · simp [hk, hnone]
    · -- the record itself has the key: it is the old one
      obtain ⟨rec, hrec, hk⟩ := (h i _ rid).1 hsome
      rw [hlive, some.injEq] at hrec
      rw [← hk, hrec, Function.update_self]
  refine ⟨?_, hnone⟩
  have hmap : ∀ i, addEntry ((A.delete rid old).map i) ((m.ix i).key updated) rid = _ :=
    fun i => addEntry_of_none (hnone i) rid
  simp only [update, if_true, Content.insert, Content.delete, Function.update_idem] at hmap ⊢
  simp only [hmap]

theorem insert_delete (hlive : A.live rid = none) (hfree : ∀ i, A.map i ((m.ix i).key rec) = none) :
    (A.insert rid rec).delete rid rec = A := by
  simp only [Content.delete, Content.insert, Function.update_idem]
  rw [← hlive, Function.update_eq_self]
  have hmap : ∀ i, Function.update (A.map i) ((m.ix i).key rec) none = A.map i := fun i => by
    rw [← hfree i, Function.update_eq_self]
  simp only [hmap]

theorem Agree.delete_insert (h : A.Agree) (hlive : A.live rid = some rec) : (A.delete rid rec).insert rid rec = A := by
  simp only [Content.delete, Content.insert, Function.update_idem]
  have hmap : ∀ i, Function.update (A.map i) ((m.ix i).key rec) (some rid) = A.map i := fun i => by
    rw [← h.key hlive i, Function.update_eq_self]
  simp only [hmap]
  rw [← hlive, Function.update_eq_self]

/-- The keys of the record stay what they were, so the indexes may be left alone. -/
theorem Agree.update_false (h : A.Agree) (hlive : A.live rid = some old)
    (hkeys : ∀ i, (m.ix i).key updated = (m.ix i).key old) : (A.update rid old updated false).Agree := by
  intro i k rid'
  have hold := h i k rid'
  by_cases hrid : rid' = rid
  · subst hrid
    simpa [update, hlive, hkeys i] using hold
  · simpa [update, hrid] using hold

theorem Agree.update (h : A.Agree) (hlive : A.live rid = some old) {isSetIndexKey : Bool}
    (hfree : isSetIndexKey = true → A.Free rid updated)
    (hkeys : isSetIndexKey = false → ∀ i, (m.ix i).key updated = (m.ix i).key old) :
    (A.update rid old updated isSetIndexKey).Agree := by
  cases isSetIndexKey with
  | false => exact h.update_false hlive (hkeys rfl)
  | true =>
    obtain ⟨heq, hnone⟩ := h.update_eq hlive (hfree rfl)
    rw [heq]
    exact (h.delete hlive).insert (by simp [Content.delete]) hnone

theorem Agree.update_update (h : A.Agree) (hlive : A.live rid = some old) {isSetIndexKey : Bool}
    (hfree : isSetIndexKey = true → A.Free rid updated) :
    (A.update rid old updated isSetIndexKey).update rid updated old isSetIndexKey = A := by
  cases isSetIndexKey with
  | false =>
    simp only [Content.update, Function.update_idem]
    rw [← hlive, Function.update_eq_self]
    simp
  | true =>
    obtain ⟨heq, hnone⟩ := h.update_eq hlive (hfree rfl)
    have hdead : (A.delete rid old).live rid = none := by simp [Content.delete]
    have hA := h.delete_insert hlive
    have h' := (h.delete hlive).insert hdead hnone
    have hback : ((A.delete rid old).insert rid updated).Free rid old := by
      intro i
      by_cases hk : (m.ix i).key old = (m.ix i).key updated
      · exact .inr (by simp [Content.insert, hk])
      · exact .inl (by simp [Content.insert, Content.delete, hk])
    rw [heq, (h'.update_eq (by simp [Content.insert]) hback).1, insert_delete hdead hnone, hA]

end Content

/-! ## The row operations -/

section Rows

variable {T T' : Table m} {A : Content m} {rid : Rid} {rec old updated : List UInt8}

/-- The same contents, and heap files that differ by empty pages at most. -/
def Alike (T G : Table m) : Prop := T.fh.Ext G.fh ∧ ∃ A, T.Holds A ∧ G.Holds A

theorem Table.Holds.alike (h : T.Holds A) : Alike T T := ⟨h.heap.ext_refl, A, h, h⟩

theorem Alike.holds {G : Table m} (hG : Alike T G) (h : T.Holds A) : G.Holds A := by
  obtain ⟨-, B, hT, hB⟩ := hG
  rwa [h.unique hT]

/-- From a table like `T'` the program leads to one like `T`. -/
def Undoes (x : TabExec m Unit) (T' T : Table m) : Prop :=
  ∀ G, Alike T' G → wp x (fun _ G' => Alike T G') (fun _ _ => False) G

/-- What a rollback does: the heap file goes back to one like `T`'s, then the indexes change to `A`'s. -/
theorem Alike.of_rollback {G : Table m} (h : T.Holds A) (ext : T.fh.Ext G.fh) (hmap : ∀ i, Represents (G.ihs i) (A.map i)) :
    Alike T G :=
  ⟨ext, A, h, ext.ok h.heap, ext.live_eq.trans h.live, hmap⟩

theorem insertNext_spec (h : T.Holds A) (safe : String → Bool) :
    wp (insertNext safe rec)
      (fun rid T' => A.live rid = none ∧ (∀ i, A.map i ((m.ix i).key rec) = none) ∧ T'.Holds (A.insert rid rec) ∧
        Undoes (rollbackInsert rid rec) T' T)
      (fun e T' => T' = T ∧ ∃ err, e = .rmdb err) T := by
  rw [insertNext, wp_bind]
  refine wp_mono (wp_forIndexes_check (P := fun i => A.map i ((m.ix i).key rec) = none) fun i => ?_) ?_ fun _ _ h => h
  · rw [wp_bind, wp_isUnique (h.map i)]
    simp only
    split_ifs with hc
    · exact ⟨rfl, _, rfl⟩
    · exact ⟨rfl, by simpa using fun hne => hc (.inr hne)⟩
  · rintro - T₁ ⟨rfl, hfree⟩
    obtain ⟨rid, fh, hins, hok, hdead, hlive, hundo⟩ := h.heap.insertRecord rec
    rw [h.live] at hdead hlive
    rw [wp_bind, insertRecord, wp_onFile hins, wp_bind]
    refine wp_mono (wp_insertEntries (T := { T₁ with fh := fh }) h.map _ rid) ?_ fun _ _ h => h
    intro _ T' ⟨(hfh : T'.fh = fh), hmap⟩
    have hT'A : T'.Holds (A.insert rid rec) := by
      refine ⟨hfh ▸ hok, hfh ▸ hlive, fun i => ?_⟩
      have := hmap i
      rwa [addEntry_of_none (hfree i)] at this
    refine ⟨hdead, hfree, hT'A, fun G hG => ?_⟩
    obtain ⟨g, hdel, hext⟩ := hundo G.fh (hfh ▸ hG.1)
    rw [rollbackInsert, wp_bind, deleteRecord, wp_onFile (a := ()) (by rw [hdel]; rfl)]
    refine wp_mono (wp_deleteEntries (T := { G with fh := g }) (hG.holds hT'A).map _) ?_ fun _ _ h => h
    intro _ G' hG'
    refine .of_rollback h (hG'.1 ▸ hext) fun i => ?_
    have hback := congrArg (fun B => Content.map B i) (Content.insert_delete hdead hfree)
    exact hback ▸ hG'.2 i

theorem deleteNext_spec (h : T.Holds A) (rid : Rid) :
    wp (deleteNext rid)
      (fun rec T' => A.live rid = some rec ∧ T'.Holds (A.delete rid rec) ∧
        (A.Agree → Undoes (rollbackDelete rid rec) T' T))
      (fun e T' => T' = T ∧ A.live rid = none ∧ ∃ err, e = .rmdb err) T := by
  rw [deleteNext, wp_bind]
  refine wp_getRecord h.carries (fun rec hrec => ?_) fun hnone err => ⟨rfl, hnone, err, rfl⟩
  rw [wp_bind]
  refine wp_mono (wp_deleteEntries h.map _) ?_ fun _ _ h => h
  intro _ T₁ hT₁
  obtain ⟨fh, hdel, hok, hlive, hundo⟩ := h.heap.deleteRecord (h.live ▸ hrec)
  rw [h.live] at hlive
  rw [wp_bind, deleteRecord, wp_onFile (a := ()) (by rw [hT₁.1, hdel]; rfl)]
  have hT'A : ({ T₁ with fh := fh } : Table m).Holds (A.delete rid rec) := ⟨hok, hlive, hT₁.2⟩
  refine ⟨hrec, hT'A, fun hA G hG => ?_⟩
  obtain ⟨g, hins, hext⟩ := hundo G.fh hG.1
  rw [rollbackDelete, wp_bind, insertRecordAt, wp_onFile (a := ()) (by rw [hins]; rfl)]
  refine wp_mono (wp_insertEntries (T := { G with fh := g }) (hG.holds hT'A).map _ rid) ?_ fun _ _ h => h
  intro _ G' hG'
  refine .of_rollback h (hG'.1 ▸ hext) fun i => ?_
  have hback := congrArg (fun B => Content.map B i) (hA.delete_insert hrec)
  have hmap := hG'.2 i
  rw [addEntry_of_none (by simp [Content.delete])] at hmap
  exact hback ▸ hmap

/-- Why an update of a row raises an error: there is no such record, a clause
cannot be applied, or another record has one of its new keys. -/
def Refused [FloatOps] (A : Content m) (sets : List SetClause) (isSetIndexKey : Bool) (rid : Rid) : Prop :=
  ∀ old updated, A.live rid = some old → setAll sets old = .ok updated → isSetIndexKey = true ∧ ¬ A.Free rid updated

theorem checkUnique_spec (h : T.Carries A) {E : Fault → Table m → Prop}
    (hE : ¬ A.Free rid updated → ∀ err, E (.rmdb err) T) :
    wp (checkUnique rid updated) (fun _ T' => T' = T ∧ A.Free rid updated) E T := by
  refine wp_forIndexes_check fun i => ?_
  rw [wp_bind, wp_isUnique (h.map i)]
  simp only
  split_ifs with hc
  · refine hE (fun hfree => ?_) _
    rcases hfree i with hnone | hsome
    · simp [hnone] at hc
    · simp [hsome] at hc
  · refine ⟨rfl, ?_⟩
    cases hmap : A.map i ((m.ix i).key updated) with
    | none => exact .inl rfl
    | some found => exact .inr (by simpa [hmap] using hc)

theorem maintain_spec (h : T.Carries A) (isSetIndexKey : Bool) {E : Fault → Table m → Prop}
    (hE : isSetIndexKey = true → ¬ A.Free rid updated → ∀ err, E (.rmdb err) T) :
    wp (Exec.when isSetIndexKey do
        checkUnique rid updated
        forIndexes fun i => do
          deleteEntry i ((m.ix i).key old)
          insertEntry i ((m.ix i).key updated) rid)
      (fun _ T' => T'.fh = T.fh ∧ (∀ i, Represents (T'.ihs i) ((A.update rid old updated isSetIndexKey).map i)) ∧
        (isSetIndexKey = true → A.Free rid updated)) E T := by
  refine wp_when (fun hc => ?_) fun hc => ?_
  · rw [wp_bind]
    refine wp_mono (checkUnique_spec h (hE hc)) ?_ fun _ _ h => h
    rintro - T₁ ⟨rfl, hfree⟩
    refine wp_mono (wp_replaceEntries h.map _ _ rid) (fun _ T' hT' => ⟨hT'.1, fun i => ?_, fun _ => hfree⟩) fun _ _ h => h
    simpa only [Content.update, hc, if_true] using hT'.2 i
  · exact ⟨rfl, fun i => by simpa [Content.update, hc] using h.map i, fun hc' => by simp [hc] at hc'⟩

theorem updateNext_spec [FloatOps] (h : T.Holds A) (sets : List SetClause) (isSetIndexKey : Bool) (rid : Rid) :
    wp (updateNext sets isSetIndexKey rid)
      (fun r T' => A.live rid = some r.1 ∧ setAll sets r.1 = .ok r.2 ∧ (isSetIndexKey = true → A.Free rid r.2) ∧
        T'.Holds (A.update rid r.1 r.2 isSetIndexKey) ∧
        (A.Agree → Undoes (rollbackUpdate rid r.1 r.2 isSetIndexKey) T' T))
      (fun e T' => T' = T ∧ Refused A sets isSetIndexKey rid ∧ ∃ err, e = .rmdb err) T := by
  rw [updateNext, wp_bind]
  refine wp_getRecord h.carries (fun old hold => ?_) fun hnone err => ⟨rfl, fun old _ hold => by simp [hnone] at hold, err, rfl⟩
  rw [wp_bind]
  refine wp_ofExcept (fun updated hset => ?_) fun e hset => ?_
  · have hset : setAll sets old = .ok updated := by
      cases hs : setAll sets old with
      | ok r => simpa [hs, Except.mapError] using hset
      | error err => simp [hs, Except.mapError] at hset
    rw [wp_bind]
    refine wp_mono (maintain_spec h.carries isSetIndexKey fun hset' hfree err => ?_) ?_ fun _ _ h => h
    · refine ⟨rfl, fun old' updated' hold' hset'' => ?_, err, rfl⟩
      rw [hold, some.injEq] at hold'
      subst hold'
      rw [hset, Except.ok.injEq] at hset''
      subst hset''
      exact ⟨hset', hfree⟩
    · intro _ T₁ ⟨hfh, hmap, hfree⟩
      obtain ⟨fh, hupd, hok, hlive, hundo⟩ := h.heap.updateRecord (h.live ▸ hold) updated
      rw [h.live] at hlive
      rw [wp_bind, updateRecord, wp_onFile (a := ()) (by rw [hfh, hupd]; rfl)]
      have hT'A : ({ T₁ with fh := fh } : Table m).Holds (A.update rid old updated isSetIndexKey) := ⟨hok, hlive, hmap⟩
      refine ⟨hold, hset, hfree, hT'A, fun hA G hG => ?_⟩
      obtain ⟨g, hback, hext⟩ := hundo G.fh hG.1
      rw [rollbackUpdate, wp_bind, updateRecord, wp_onFile (a := ()) (by rw [hback]; rfl)]
      have hmap' := fun i => congrArg (fun B => Content.map B i) (hA.update_update hold hfree)
      have hG' := (hG.holds hT'A).map
      refine wp_when (fun hc => ?_) fun hc => ?_
      · refine wp_mono (wp_replaceEntries (T := { G with fh := g }) hG' _ _ rid) (fun _ G' hG' => ?_) fun _ _ h => h
        refine .of_rollback h (hG'.1 ▸ hext) fun i => hmap' i ▸ ?_
        simpa only [Content.update, hc, if_true] using hG'.2 i
      · refine .of_rollback h hext fun i => hmap' i ▸ ?_
        simpa [Content.update, hc] using hG' i
  · refine ⟨rfl, fun old' updated' hold' hset' => ?_, ?_⟩
    · rw [hold, some.injEq] at hold'
      subst hold'
      simp [hset', Except.mapError] at hset
    · cases hs : setAll sets old with
      | ok r => simp [hs, Except.mapError] at hset
      | error err => exact ⟨err, by simpa [hs, Except.mapError] using hset.symm⟩

end Rows

end Execution

end Rmdb
