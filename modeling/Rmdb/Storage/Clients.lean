/-
The clients of a buffer pool and what they see: a memory of pages.

The ledger is kept from calls and replies alone. It has the pins the clients
hold, the modifications they have not yet reported with `is_dirty`, and the
last content of every page. `Allowed` is what clients keep to.
-/
import Rmdb.Storage.BufferPool

namespace Rmdb.BufferPool

structure Pin (C : Type) (n : Nat) where
  client : C
  page : PageId
  frame : Fin (n + 1)
  deriving DecidableEq

inductive Call (n : Nat) (D : Type) where
  | newPage (id : PageId)
  | fetchPage (id : PageId)
  | unpinPage (id : PageId) (isDirty : Bool)
  | flushPage (id : PageId)
  | flushAllPages (fd : Int)
  | deleteAllPages (fd : Int)
  /-- Not a call: the client changes the page in the frame it was given. -/
  | write (id : PageId) (frame : Fin (n + 1)) (data : D)

inductive Reply (n : Nat) where
  | page (frame : Option (Fin (n + 1)))
  | result (b : Bool)
  | done
  | raised (e : RMDBError)
  deriving DecidableEq

/-- What clients know. `flushed` has the files with no modification since they were flushed. -/
structure Ledger (C : Type) (n : Nat) (D : Type) where
  pins : List (Pin C n)
  unsaved : List (C × PageId)
  flushed : List Int
  content : PageId → Option D

section

variable {C D : Type} [DecidableEq C] {n : Nat}

namespace Ledger

def make (disk : Disk D) : Ledger C n D := ⟨[], [], [], disk.at⟩

def modified (L : Ledger C n D) (c : C) (id : PageId) (data : D) : Ledger C n D :=
  { L with
    unsaved := (c, id) :: L.unsaved
    flushed := L.flushed.filter (· ≠ id.fd)
    content := Function.update L.content id (some data) }

def pinned (L : Ledger C n D) (c : C) (id : PageId) (f : Fin (n + 1)) : Ledger C n D :=
  { L with pins := ⟨c, id, f⟩ :: L.pins }

def unpinned (L : Ledger C n D) (c : C) (id : PageId) (isDirty : Bool) : Ledger C n D :=
  { L with
    pins := L.pins.eraseP fun p => p.client = c ∧ p.page = id
    unsaved := if isDirty then L.unsaved.filter (· ≠ (c, id)) else L.unsaved }

def record (blank : D) (L : Ledger C n D) (c : C) : Call n D → Reply n → Ledger C n D
  | .newPage id, .page (some f) => (L.modified c id blank).pinned c id f
  | .fetchPage id, .page (some f) => L.pinned c id f
  | .unpinPage id isDirty, .result true => L.unpinned c id isDirty
  | .flushAllPages fd, .done => { L with flushed := fd :: L.flushed }
  | .write id _ data, .done => L.modified c id data
  | _, _ => L

def held (L : Ledger C n D) (c : C) (id : PageId) : Nat := L.pins.countP fun p => p.client = c ∧ p.page = id

/-- What a client may do. It modifies a page in a frame it holds a pin on. It
gives up pins it holds, and has reported what it modified when it gives up the
last one. It fetches pages that exist. A file is dropped when it has been
flushed and no page of it is pinned. -/
def Allowed (L : Ledger C n D) (c : C) : Call n D → Prop
  | .newPage _ => True
  | .fetchPage id => L.content id ≠ none
  | .unpinPage id isDirty =>
    (0 < L.held c id ∧ (isDirty = true ∨ (c, id) ∉ L.unsaved ∨ 2 ≤ L.held c id)) ∨ ∀ p ∈ L.pins, p.page ≠ id
  | .flushPage _ => True
  | .flushAllPages _ => True
  | .deleteAllPages fd => fd ∈ L.flushed ∧ ∀ p ∈ L.pins, p.page.fd ≠ fd
  | .write id f _ => ⟨c, id, f⟩ ∈ L.pins

end Ledger

structure World (C : Type) (n : Nat) (D : Type) where
  pool : BufferPoolInstance n D
  ledger : Ledger C n D

open BufferPoolInstance in
def Call.exec (blank : D) (ord : PageTableOrder n) : Call n D → Exec RMDBError (BufferPoolInstance n D) (Reply n)
  | .newPage id => do return .page (← BufferPoolInstance.newPage blank id)
  | .fetchPage id => do return .page (← BufferPoolInstance.fetchPage id)
  | .unpinPage id isDirty => do return .result (← BufferPoolInstance.unpinPage id isDirty)
  | .flushPage id => do return .result (← BufferPoolInstance.flushPage id)
  | .flushAllPages fd => do
    BufferPoolInstance.flushAllPages ord fd
    return .done
  | .deleteAllPages fd => do
    BufferPoolInstance.deleteAllPages blank ord fd
    return .done
  | .write _ f data => do
    .modify (onPage f fun page => { page with data })
    return .done

def step (blank : D) (ord : PageTableOrder n) (w : World C n D) (a : C × Call n D) : Option (Reply n × World C n D) :=
  match a.2.exec blank ord w.pool with
  | (.ok r, pool) => some (r, ⟨pool, w.ledger.record blank a.1 a.2 r⟩)
  | (.error e, pool) => some (.raised e, ⟨pool, w.ledger⟩)

def World.make (blank : D) (disk : Disk D) (unset : Fin (n + 1) → Int) : World C n D :=
  ⟨.make blank disk unset, .make disk⟩

end

end Rmdb.BufferPool
