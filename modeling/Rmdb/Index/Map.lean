/-
An index is a map from keys to record ids.

`Represents s m` says that the pages of `s` form a tree whose leaves hold
exactly the entries of `m`; each operation then does to `m` what its name says.
-/
import Rmdb.Index.Remove
import Rmdb.Lib.Run

namespace Rmdb.Index

open Option Function List IxIndexHandle

/-! ## The operations on the map -/

section Represents

variable {κ : Type} {order : Nat} [IxOrder κ] {s : IxIndexHandle κ order} {m : κ → Option Rid}

def Represents (s : IxIndexHandle κ order) (m : κ → Option Rid) : Prop :=
  ∃ L Us, Tree s L Us ∧ ∀ x r, (x, r) ∈ flat L ↔ m x = some r

theorem Represents.getValue (h : Represents s m) (hord : 2 < order) (x : κ) : s.getValue x = some (m x) := by
  obtain ⟨L, Us, t, hm⟩ := h
  obtain ⟨v, hv, hmem⟩ := t.getValue_eq hord x
  rw [hv, some.injEq]
  exact Option.ext fun r => (hmem r).trans (hm x r)

theorem Represents.unique {m' : κ → Option Rid} (h : Represents s m) (h' : Represents s m') (hord : 2 < order) :
    m = m' := by
  funext x
  exact some.inj ((h.getValue hord x).symm.trans (h'.getValue hord x))

theorem isUnique_eq (s : IxIndexHandle κ order) (x : κ) :
    s.isUnique x = (s.getValue x).map fun v => (v.isNone, v) := by
  simp only [isUnique, IxIndexHandle.getValue, bind_eq_bind]
  cases s.findLeafPage x with
  | none => rfl
  | some leaf =>
    simp only [bind_some]
    cases s.fetchNode leaf with
    | none => rfl
    | some n =>
      simp only [bind_some, IxNode.leafLookup, map_some]
      cases n.entries[n.lowerBound x]? with
      | none => rfl
      | some e => by_cases he : ixCmp x e.1 = 0 <;> simp [he]

theorem Represents.isUnique (h : Represents s m) (hord : 2 < order) (x : κ) :
    s.isUnique x = some ((m x).isNone, m x) := by
  rw [isUnique_eq, h.getValue hord x, map_some]

variable {v : Rid} {x : κ}

theorem Tree.findLeafPage_of_mem {L : List (Block κ)} {Us : List (List (Block κ))} (t : Tree s L Us) (hord : 2 < order)
    {p : Int} {es : List (κ × Rid)} (hp : (p, es) ∈ L) (hx : (x, v) ∈ es) :
    s.findLeafPage x = some p := by
  obtain ⟨L₁, b, L₂, rfl, hfind, hloc, h₁⟩ := t.findLeafPage_eq hord x
  have hmem : ∀ L' : List (Block κ), (p, es) ∈ L' → (x, v) ∈ flat L' := fun L' h => mem_flatMap.2 ⟨_, h, hx⟩
  rcases mem_append.1 hp with h | h
  · exact absurd (h₁ _ (hmem _ h)) (lt_irrefl _)
  · rcases mem_cons.1 h with h | h
    · rw [hfind, ← h]
    · exact absurd (hloc.right _ (hmem _ h)) (lt_irrefl _)

theorem Represents.insertEntry_old (h : Represents s m) (hord : 2 < order) (hx : m x ≠ none) (v : Rid) :
    s.insertEntry x v = some (noPage, s) := by
  obtain ⟨L, Us, t, hm⟩ := h
  obtain ⟨r, hr⟩ := ne_none_iff_exists'.1 hx
  exact t.insertEntry_old hord v ((hm x r).2 hr)

variable {A B : List (κ × Rid)}

theorem mem_insert_iff (hm : ∀ y r, (y, r) ∈ A ++ B ↔ m y = some r)
    (hx : m x = none) (y : κ) (r : Rid) : (y, r) ∈ A ++ (x, v) :: B ↔ update m x (some v) y = some r := by
  have hmem : (y, r) ∈ A ++ (x, v) :: B ↔ (y = x ∧ r = v) ∨ (y, r) ∈ A ++ B := by
    simp only [mem_append, mem_cons, Prod.mk.injEq]
    tauto
  rw [hmem, hm]
  by_cases hyx : y = x
  · subst hyx
    simp [hx, eq_comm]
  · simp [hyx]

theorem mem_erase_iff (hs : IxNode.Sorted (A ++ (x, v) :: B))
    (hm : ∀ y r, (y, r) ∈ A ++ (x, v) :: B ↔ m y = some r) (y : κ) (r : Rid) :
    (y, r) ∈ A ++ B ↔ update m x none y = some r := by
  rw [IxNode.Sorted, pairwise_append, pairwise_cons] at hs
  by_cases hyx : y = x
  · subst hyx
    have hout : (y, r) ∉ A ++ B := fun h => by
      rcases mem_append.1 h with h | h
      · exact lt_irrefl _ (hs.2.2 _ h (y, v) (by simp))
      · exact lt_irrefl y (hs.2.1.1 (y, r) h)
    simp [hout]
  · have hmem : (y, r) ∈ A ++ B ↔ (y, r) ∈ A ++ (x, v) :: B := by
      simp only [mem_append, mem_cons, Prod.mk.injEq, hyx, false_and, false_or]
    rw [hmem, hm]
    simp [hyx]

theorem Represents.insertEntry_new (h : Represents s m) (hord : 2 < order) (hx : m x = none) (v : Rid) :
    ∃ page s', s.insertEntry x v = some (page, s') ∧ page ≠ noPage ∧ Represents s' (update m x (some v)) ∧
      s'.findLeafPage x = some page ∧ ∃ n, s'.pages page = some n ∧ n.isLeaf = true ∧ (x, v) ∈ n.entries := by
  obtain ⟨L, Us, t, hm⟩ := h
  obtain ⟨page, s', L', Us', A, B, es, hrun, t', hflat, hflat', hpage, hes⟩ :=
    t.insertEntry_new hord v fun r hr => by simp [(hm x r).1 hr] at hx
  have hrange := t'.range page (mem_append_left _ (mem_pagesOf hpage))
  obtain ⟨n, hn, hnl, hne⟩ := t'.holds _ hpage
  refine ⟨page, s', hrun, ?_, ⟨L', Us', t', ?_⟩, t'.findLeafPage_of_mem hord hpage hes, n, hn, hnl, hne ▸ hes⟩
  · simp only [initRootPage] at hrange
    simp only [noPage]
    omega
  · rw [hflat']
    rw [hflat] at hm
    exact mem_insert_iff hm hx

theorem Represents.deleteEntry_old (h : Represents s m) (hord : 2 < order) (hx : m x ≠ none) :
    ∃ s', s.deleteEntry x = some (true, s') ∧ Represents s' (update m x none) := by
  obtain ⟨L, Us, t, hm⟩ := h
  obtain ⟨r, hr⟩ := ne_none_iff_exists'.1 hx
  obtain ⟨s', L', Us', A, B, hrun, t', hflat, hflat'⟩ := t.deleteEntry_old hord ((hm x r).2 hr)
  refine ⟨s', hrun, L', Us', t', ?_⟩
  have hs := t.sorted
  rw [hflat']
  rw [hflat] at hs hm
  exact mem_erase_iff hs hm

theorem Represents.deleteEntry_new (h : Represents s m) (hord : 2 < order) (hx : m x = none) :
    s.deleteEntry x = some (false, s) := by
  obtain ⟨L, Us, t, hm⟩ := h
  exact t.deleteEntry_new hord fun r hr => by simp [(hm x r).1 hr] at hx

end Represents

/-! ## A new index -/

variable {cols : List KeyCol} {f : IxFile (Key cols) (btreeOrder cols)}

theorem createIndex_eq (hf : createIndex cols = some f) :
    2 < btreeOrder cols ∧ Tree (openIndex f) [(initRootPage, [])] [] := by
  rw [createIndex] at hf
  split_ifs at hf with hlen hord
  refine ⟨hord, ?_⟩
  obtain rfl := some.inj hf
  constructor
  · constructor
    · simp [Holds, openIndex, initRootPage, leafHeaderPage]
    · simp [Up, openIndex, ParentIs, initRootPage, leafHeaderPage]
    · trivial
    · simp [IxNode.Sorted]
    · simp [Chained, Seg, openIndex, nextOf, prevOf, initRootPage, leafHeaderPage]
    · simp [openIndex]
    · simp [openIndex]
    · simp
    · simp [openIndex, initRootPage, initNumPages]
  · simp
  · simp

theorem represents_createIndex (hf : createIndex cols = some f) : Represents (openIndex f) fun _ => none :=
  ⟨_, _, (createIndex_eq hf).2, by simp⟩

/-! ## Runs -/

section Calls

variable {κ : Type} {order : Nat}

inductive Call (κ : Type) where
  | insertEntry (key : κ) (rid : Rid)
  | deleteEntry (key : κ)

inductive Reply where
  | page (pageNo : Int)
  | found (found : Bool)

def call [DecidableEq κ] [IxCmp κ] (s : IxIndexHandle κ order) : Call κ → Option (Reply × IxIndexHandle κ order)
  | .insertEntry key rid => (s.insertEntry key rid).map fun (pageNo, s) => (.page pageNo, s)
  | .deleteEntry key => (s.deleteEntry key).map fun (found, s) => (.found found, s)

/-- The record id of the last successful insert of a key that no successful
delete followed; the trace has the last call first. -/
def lastInsert [DecidableEq κ] : List (Call κ × Reply) → κ → Option Rid
  | [], _ => none
  | (.insertEntry key rid, .page pageNo) :: h, x =>
    if key = x ∧ pageNo ≠ noPage then some rid else lastInsert h x
  | (.deleteEntry key, .found true) :: h, x => if key = x then none else lastInsert h x
  | _ :: h, x => lastInsert h x

variable [IxOrder κ]

theorem lastInsert_insert (h : List (Call κ × Reply)) (x : κ) (rid : Rid) {pageNo : Int} (hp : pageNo ≠ noPage) :
    lastInsert ((.insertEntry x rid, .page pageNo) :: h) = update (lastInsert h) x (some rid) := by
  funext y
  by_cases hyx : y = x
  · subst hyx
    simp [lastInsert, hp]
  · simp [lastInsert, hyx, Ne.symm hyx]

theorem lastInsert_delete (h : List (Call κ × Reply)) (x : κ) :
    lastInsert ((.deleteEntry x, .found true) :: h) = update (lastInsert h) x none := by
  funext y
  by_cases hyx : y = x
  · subst hyx
    simp [lastInsert]
  · simp [lastInsert, hyx, Ne.symm hyx]

theorem Represents.call {s : IxIndexHandle κ order} {h : List (Call κ × Reply)} (hs : Represents s (lastInsert h))
    (hord : 2 < order) (c : Call κ) :
    ∃ r s', Index.call s c = some (r, s') ∧ Represents s' (lastInsert ((c, r) :: h)) := by
  cases c with
  | insertEntry x rid =>
    by_cases hx : lastInsert h x = none
    · obtain ⟨page, s', hrun, hpage, hs', -⟩ := hs.insertEntry_new hord hx rid
      refine ⟨.page page, s', by simp [Index.call, hrun], ?_⟩
      rw [lastInsert_insert h x rid hpage]
      exact hs'
    · refine ⟨.page noPage, s, by simp [Index.call, hs.insertEntry_old hord hx rid], ?_⟩
      have hsame : lastInsert ((.insertEntry x rid, .page noPage) :: h) = lastInsert h := by
        funext y
        simp [lastInsert]
      rw [hsame]
      exact hs
  | deleteEntry x =>
    by_cases hx : lastInsert h x = none
    · exact ⟨.found false, s, by simp [Index.call, hs.deleteEntry_new hord hx], hs⟩
    · obtain ⟨s', hrun, hs'⟩ := hs.deleteEntry_old hord hx
      refine ⟨.found true, s', by simp [Index.call, hrun], ?_⟩
      rw [lastInsert_delete]
      exact hs'

end Calls

/-- A new index is open, and calls were made on it: none of them failed, and
the index is the map that its trace describes. -/
theorem run_represents (cols : List KeyCol) (f : IxFile (Key cols) (btreeOrder cols)) (hf : createIndex cols = some f)
    (calls : List (Call (Key cols))) :
    ∃ h s, Run.run call (openIndex f) calls = some (h, s) ∧ Represents s (lastInsert h) ∧
      h.map Prod.fst = calls.reverse := by
  refine Run.run_total (C := fun _ _ => True) ?_ (fun h s c hs _ => ?_) calls (.of_forall (by simp) _ _)
  · exact represents_createIndex hf
  · exact Represents.call hs (createIndex_eq hf).1 c

/-- Through any sequence of `insert_entry` and `delete_entry` a new index is
the map of the last successful inserts: `get_value` reads it, `insert_entry`
refuses exactly the keys in it and else returns the leaf that has the key now,
`delete_entry` tells whether the key was in it. -/
theorem index_refines_map (cols : List KeyCol) (f : IxFile (Key cols) (btreeOrder cols))
    (hf : createIndex cols = some f) (calls : List (Call (Key cols))) :
    ∃ h s, Run.run call (openIndex f) calls = some (h, s) ∧ h.map Prod.fst = calls.reverse ∧
      (∀ key, s.getValue key = some (lastInsert h key)) ∧
      (∀ key rid, lastInsert h key ≠ none → s.insertEntry key rid = some (noPage, s)) ∧
      (∀ key rid, lastInsert h key = none → ∃ page s', s.insertEntry key rid = some (page, s') ∧ page ≠ noPage ∧
        s'.findLeafPage key = some page ∧
        ∃ n, s'.pages page = some n ∧ n.isLeaf = true ∧ (key, rid) ∈ n.entries) ∧
      ∀ key, ∃ s', s.deleteEntry key = some ((lastInsert h key).isSome, s') := by
  obtain ⟨h, s, hrun, hs, hcalls⟩ := run_represents cols f hf calls
  obtain ⟨hord, -⟩ := createIndex_eq hf
  refine ⟨h, s, hrun, hcalls, hs.getValue hord, fun key rid hx => hs.insertEntry_old hord hx rid, fun key rid hx => ?_,
    fun key => ?_⟩
  · obtain ⟨page, s', hins, hpage, -, hfind, hleaf⟩ := hs.insertEntry_new hord hx rid
    exact ⟨page, s', hins, hpage, hfind, hleaf⟩
  · cases hx : lastInsert h key with
    | none => exact ⟨s, hs.deleteEntry_new hord hx⟩
    | some r =>
      obtain ⟨s', hdel, -⟩ := hs.deleteEntry_old hord (x := key) (by simp [hx])
      exact ⟨s', hdel⟩

/-- An index on an `INT` column: a key is inserted, inserted again and deleted. -/
theorem index_refines_map_int :
    ∃ f : IxFile (Key [.int]) _, createIndex [.int] = some f ∧ ∃ h s,
      Run.run call (openIndex f) [.insertEntry ⟨[7, 0, 0, 0], rfl, rfl⟩ ⟨1, 0⟩, .insertEntry ⟨[7, 0, 0, 0], rfl, rfl⟩ ⟨1, 1⟩,
        .deleteEntry ⟨[7, 0, 0, 0], rfl, rfl⟩] = some (h, s) ∧ ∀ key, s.getValue key = some (lastInsert h key) := by
  obtain ⟨h, s, hrun, -, hget, -⟩ := index_refines_map [.int] _ rfl [.insertEntry ⟨[7, 0, 0, 0], rfl, rfl⟩ ⟨1, 0⟩,
    .insertEntry ⟨[7, 0, 0, 0], rfl, rfl⟩ ⟨1, 1⟩, .deleteEntry ⟨[7, 0, 0, 0], rfl, rfl⟩]
  exact ⟨_, rfl, h, s, hrun, hget⟩

end Rmdb.Index
