/-
An open index (`IxIndexHandle`) and its operations, page by page.

The state is the file header the operations change, the page counter of the
disk manager for this file, and the pages. The buffer pool is transparent here.
Latches and pins change nothing when the calls run one at a time, and are left
out with `isSafe`, which only decides when they are released.

The loops and recursions over the pages take fuel, the number of pages handed out
so far. `none` is an exception, a failed `assert`, a page that does not exist, or
fuel that ran out.
-/
import Rmdb.Index.Node

namespace Rmdb.Index

def leafHeaderPage : Int := 1

def initRootPage : Int := 2

def initNumPages : Int := 3

def maxColLen : Nat := 512

structure Created (κ : Type) where
  page : Int
  rootPage : Int
  pages : Int → Option (IxNode κ)

/-- `IxIndexHandle` with the fields of `IxFileHdr` that change. `order` is
`btree_order_`. `created` is a history of the `create_node` calls; no
operation reads it. -/
structure IxIndexHandle (κ : Type) (order : Nat) where
  numPages : Int
  rootPage : Int
  firstLeaf : Int
  lastLeaf : Int
  /-- `fd2pageno_[fd]` of the disk manager. -/
  fd2pageno : Int
  pages : Int → Option (IxNode κ)
  created : List (Created κ)

def maxSize (order : Nat) : Nat := order + 1

def minSize (order : Nat) : Nat := maxSize order / 2

def IxNode.isFull {κ : Type} (order : Nat) (n : IxNode κ) : Bool := n.getSize == maxSize order

namespace IxIndexHandle
variable {κ : Type} {order : Nat}

/-! ## Pages -/

def fetchNode (s : IxIndexHandle κ order) (p : Int) : Option (IxNode κ) := s.pages p

def putNode (s : IxIndexHandle κ order) (p : Int) (n : IxNode κ) : IxIndexHandle κ order :=
  { s with pages := Function.update s.pages p (some n) }

def onNode (s : IxIndexHandle κ order) (p : Int) (f : IxNode κ → Option (IxNode κ)) :
    Option (IxIndexHandle κ order) := do
  let n ← s.fetchNode p
  let n ← f n
  some (s.putNode p n)

def modifyNode (s : IxIndexHandle κ order) (p : Int) (f : IxNode κ → IxNode κ) :
    Option (IxIndexHandle κ order) := s.onNode p fun n => some (f n)

def fuel (s : IxIndexHandle κ order) : Nat := s.fd2pageno.toNat

/-- `create_node`: the page number comes from `DiskManager::allocate_page`, the
page is zeroed. -/
def createNode (s : IxIndexHandle κ order) : Int × IxIndexHandle κ order :=
  (s.fd2pageno,
    { s with
      numPages := s.numPages + 1
      fd2pageno := s.fd2pageno + 1
      pages := Function.update s.pages s.fd2pageno
        (some { parent := 0, isLeaf := false, prevLeaf := 0, nextLeaf := 0, entries := [] })
      created := ⟨s.fd2pageno, s.rootPage, s.pages⟩ :: s.created })

def releaseNodeHandle (s : IxIndexHandle κ order) : IxIndexHandle κ order :=
  { s with numPages := s.numPages - 1 }

/-! ## Keeping pointers -/

def maintainChild (s : IxIndexHandle κ order) (node : Int) (childIdx : Nat) :
    Option (IxIndexHandle κ order) := do
  let n ← s.fetchNode node
  if n.isLeaf then some s
  else do
    let child ← n.valueAt childIdx
    s.modifyNode child fun c => { c with parent := node }

/-- `for (pos = from; pos < to; ++pos) maintain_child(node, pos)` -/
def maintainChildren (s : IxIndexHandle κ order) (node : Int) (from_ to_ : Nat) :
    Option (IxIndexHandle κ order) :=
  (List.range' from_ (to_ - from_)).foldlM (fun s i => s.maintainChild node i) s

/-- Copy the first key of a node into its parent, and so on upwards, until a
parent has it already. -/
def maintainParent [DecidableEq κ] : Nat → IxIndexHandle κ order → Int → Option (IxIndexHandle κ order)
  | 0, _, _ => none
  | fuel + 1, s, curr => do
    let c ← s.fetchNode curr
    if c.isRootPage then some s
    else do
      let parent ← s.fetchNode c.parent
      let rank ← parent.findChild curr
      let parentKey ← parent.getKey rank
      let childFirstKey ← c.getKey 0
      if parentKey = childFirstKey then some s
      else do
        let s ← s.onNode c.parent fun n => n.setKey rank childFirstKey
        maintainParent fuel s c.parent

def eraseLeaf (s : IxIndexHandle κ order) (leaf : Int) : Option (IxIndexHandle κ order) := do
  let l ← s.fetchNode leaf
  if !l.isLeaf then none
  else do
    let s ← s.modifyNode l.prevLeaf fun n => { n with nextLeaf := l.nextLeaf }
    s.modifyNode l.nextLeaf fun n => { n with prevLeaf := l.prevLeaf }

/-! ## Splitting -/

/-- The links of a new leaf to the right of `node`. The leaf after it may be
the leaf header, whose `prev_leaf` is kept too. -/
def linkLeaf (s : IxIndexHandle κ order) (node new : Int) : Option (IxIndexHandle κ order) := do
  let n ← s.fetchNode node
  let s ← s.modifyNode new fun m => { m with prevLeaf := node, nextLeaf := n.nextLeaf }
  let s ← s.modifyNode node fun m => { m with nextLeaf := new }
  s.modifyNode n.nextLeaf fun m => { m with prevLeaf := new }

def split (s : IxIndexHandle κ order) (node : Int) : Option (Int × IxIndexHandle κ order) := do
  let (new, s) := s.createNode
  let splitPoint := minSize order
  let n ← s.fetchNode node
  let s ← if n.isLeaf then s.linkLeaf node new else some s
  let s ← s.modifyNode new fun m => { m with entries := [], isLeaf := n.isLeaf, parent := n.parent }
  let s ← s.onNode new fun m => m.insertPairs 0 (n.entries.drop splitPoint)
  let s ← s.modifyNode node fun m => { m with entries := m.entries.take splitPoint }
  let m ← s.fetchNode new
  let s ← if m.isLeaf then some s else s.maintainChildren new 0 m.getSize
  some (new, s)

/-- After `old` was split off `new`: put `new` into the parent behind `old`,
splitting the parent in turn when that fills it. A root that was split gets
a new root above it. -/
def insertIntoParent : Nat → IxIndexHandle κ order → Int → κ → Int → Option (IxIndexHandle κ order)
  | 0, _, _, _, _ => none
  | fuel + 1, s, old, key, new => do
    let o ← s.fetchNode old
    if o.isRootPage then do
      let (root, s) := s.createNode
      let s ← s.modifyNode root fun m =>
        { m with parent := noPage, isLeaf := false, prevLeaf := noPage, nextLeaf := noPage, entries := [] }
      let oldKey ← o.getKey 0
      let s ← s.onNode root fun m => m.insertPair 0 (oldKey, ⟨old, -1⟩)
      let s ← s.onNode root fun m => m.insertPair 1 (key, ⟨new, -1⟩)
      let s ← s.modifyNode old fun m => { m with parent := root }
      let s ← s.modifyNode new fun m => { m with parent := root }
      some { s with rootPage := root }
    else do
      let parent ← s.fetchNode o.parent
      let pos ← parent.findChild old
      let s ← s.onNode o.parent fun n => n.insertPair (pos + 1) (key, ⟨new, -1⟩)
      let parent ← s.fetchNode o.parent
      if parent.isFull order then do
        let (sibling, s) ← s.split o.parent
        let sib ← s.fetchNode sibling
        let sibKey ← sib.getKey 0
        insertIntoParent fuel s o.parent sibKey sibling
      else some s

/-! ## Merging -/

/-- The root after one of its entries was removed: an empty leaf is the root
at its initial page again, an internal root with one child gives way to it. -/
def adjustRoot (s : IxIndexHandle κ order) (oldRoot : Int) : Option (Bool × IxIndexHandle κ order) := do
  let n ← s.fetchNode oldRoot
  if n.isLeaf && n.getSize == 0 then some (false, { s with rootPage := initRootPage })
  else if !n.isLeaf && n.getSize == 1 then do
    let (child, n) ← n.removeAndReturnOnlyChild
    let s := { s.putNode oldRoot n with rootPage := child }
    let s ← s.modifyNode child fun c => { c with parent := noPage }
    some (true, s.releaseNodeHandle)
  else some (false, s)

/-- Move one entry from the neighbour into `node`: the neighbour is on the
right when `index` is `0`, else on the left. -/
def redistribute (s : IxIndexHandle κ order) (neighbor node parent : Int) (index : Nat) :
    Option (IxIndexHandle κ order) := do
  let b ← s.fetchNode neighbor
  if index = 0 then do
    let e ← b.entries[0]?
    let s ← s.onNode node fun n => n.insertPair n.getSize e
    let s ← s.onNode neighbor fun n => n.erasePair 0
    let b ← s.fetchNode neighbor
    let key ← b.getKey 0
    let s ← s.onNode parent fun n => n.setKey (index + 1) key
    let n ← s.fetchNode node
    s.maintainChild node (n.getSize - 1)
  else do
    let e ← b.entries[b.getSize - 1]?
    let s ← s.onNode node fun n => n.insertPair 0 e
    let s ← s.onNode neighbor fun n => n.erasePair (n.getSize - 1)
    let n ← s.fetchNode node
    let key ← n.getKey 0
    let s ← s.onNode parent fun n => n.setKey index key
    s.maintainChild node 0

/-- Append the right node of the two to the left one and take it out of the
parent; `again` is the call of `coalesce_or_redistribute` on the parent. -/
def coalesce (again : IxIndexHandle κ order → Int → Option (Bool × IxIndexHandle κ order))
    (s : IxIndexHandle κ order) (neighbor node parent : Int) (index : Nat) :
    Option (Bool × IxIndexHandle κ order) := do
  -- when `node` is the first child it is the left one: swap
  let left := if index = 0 then node else neighbor
  let right := if index = 0 then neighbor else node
  let index := if index = 0 then index + 1 else index
  let l ← s.fetchNode left
  let r ← s.fetchNode right
  let prevSize := l.getSize
  let s ← s.onNode left fun n => n.insertPairs prevSize r.entries
  let s ← if !r.isLeaf then s.maintainChildren left prevSize (prevSize + r.getSize)
    else do
      let s ← s.eraseLeaf right
      some (if right = s.lastLeaf then { s with lastLeaf := left } else s)
  let s := s.releaseNodeHandle
  let s ← s.onNode parent fun n => n.erasePair index
  again s parent

/-- Restore the minimal size of `node`, from the neighbour (the left one when
there is one) or by merging with it. -/
def coalesceOrRedistribute :
    Nat → IxIndexHandle κ order → Int → Option (Bool × IxIndexHandle κ order)
  | 0, _, _ => none
  | fuel + 1, s, node => do
    let n ← s.fetchNode node
    if n.isRootPage then s.adjustRoot node
    else if n.getSize ≥ minSize order then some (false, s)
    else do
      let parent ← s.fetchNode n.parent
      let index ← parent.findChild node
      let neighbor ← parent.valueAt (if index = 0 then 1 else index - 1)
      let b ← s.fetchNode neighbor
      if n.getSize + b.getSize ≥ 2 * minSize order then do
        let s ← s.redistribute neighbor node n.parent index
        some (false, s)
      else do
        let (_, s) ← s.coalesce (coalesceOrRedistribute fuel) neighbor node n.parent index
        some (true, s)

/-! ## Searching and changing the tree -/

variable [IxCmp κ]

def findLeafFrom (s : IxIndexHandle κ order) (key : κ) : Nat → Int → Option Int
  | 0, _ => none
  | fuel + 1, node => do
    let n ← s.fetchNode node
    if n.isLeaf then some node
    else do
      let child ← n.internalLookup key
      findLeafFrom s key fuel child

def findLeafPage (s : IxIndexHandle κ order) (key : κ) : Option Int :=
  s.findLeafFrom key s.fuel s.rootPage

def getValue (s : IxIndexHandle κ order) (key : κ) : Option (Option Rid) := do
  let leaf ← s.findLeafPage key
  let n ← s.fetchNode leaf
  some (n.leafLookup key)

def isUnique (s : IxIndexHandle κ order) (key : κ) : Option (Bool × Option Rid) := do
  let leaf ← s.findLeafPage key
  let n ← s.fetchNode leaf
  match n.entries[n.lowerBound key]? with
  | none => some (true, none)
  | some (k, rid) => if ixCmp key k ≠ 0 then some (true, none) else some (false, some rid)

/-- Returns the page of the leaf that holds the new entry, or `IX_NO_PAGE` when
the key was there already. -/
def insertEntry [DecidableEq κ] (s : IxIndexHandle κ order) (key : κ) (value : Rid) :
    Option (Int × IxIndexHandle κ order) := do
  let leaf ← s.findLeafPage key
  let n ← s.fetchNode leaf
  let oldSize := n.getSize
  let (n, newSize, pos) ← n.insert key value
  if newSize = oldSize then some (noPage, s)
  else do
    let s := s.putNode leaf n
    -- only a new first key shows in the parents
    let s ← if pos = 0 then maintainParent s.fuel s leaf else some s
    let n ← s.fetchNode leaf
    if n.isFull order then do
      let (sibling, s) ← s.split leaf
      let s := if leaf = s.lastLeaf then { s with lastLeaf := sibling } else s
      let sib ← s.fetchNode sibling
      let sibKey ← sib.getKey 0
      let s ← insertIntoParent s.fuel s leaf sibKey sibling
      let sib ← s.fetchNode sibling
      let found ← sib.getKey (sib.lowerBound key)
      some (if ixCmp found key = 0 then sibling else leaf, s)
    else some (leaf, s)

def deleteEntry [DecidableEq κ] (s : IxIndexHandle κ order) (key : κ) : Option (Bool × IxIndexHandle κ order) := do
  let leaf ← s.findLeafPage key
  let n ← s.fetchNode leaf
  let oldSize := n.getSize
  let (n, newSize, pos) ← n.remove key
  if newSize = oldSize then some (false, s)
  else do
    let s := s.putNode leaf n
    let s ← if pos = 0 then maintainParent s.fuel s leaf else some s
    let (_, s) ← coalesceOrRedistribute s.fuel s leaf
    some (true, s)

end IxIndexHandle

/-! ## Creating, closing and opening -/

structure IxFile (κ : Type) (order : Nat) where
  numPages : Int
  rootPage : Int
  firstLeaf : Int
  lastLeaf : Int
  pages : Int → Option (IxNode κ)

/-- `sizeof(IxPageHdr)` and `sizeof(Rid)` -/
def sizeofPageHdr : Nat := 24
def sizeofRid : Nat := 8

def btreeOrder (cols : List KeyCol) : Nat :=
  (pageSize - sizeofPageHdr) / (colTotLen cols + sizeofRid) - 1

/-- `IxManager::create_index`: the header, the leaf header page and an empty
leaf as root. -/
def createIndex {κ : Type} (cols : List KeyCol) : Option (IxFile κ (btreeOrder cols)) :=
  if colTotLen cols > maxColLen then none
  else if btreeOrder cols > 2 then
    some
      { numPages := initNumPages
        rootPage := initRootPage
        firstLeaf := initRootPage
        lastLeaf := initRootPage
        pages := fun p =>
          if p = leafHeaderPage then
            some { parent := noPage, isLeaf := true, prevLeaf := initRootPage, nextLeaf := initRootPage, entries := [] }
          else if p = initRootPage then
            some { parent := noPage, isLeaf := true, prevLeaf := leafHeaderPage, nextLeaf := leafHeaderPage, entries := [] }
          else none }
  else none

def closeIndex {κ : Type} {order : Nat} (s : IxIndexHandle κ order) : IxFile κ order :=
  { numPages := s.numPages, rootPage := s.rootPage, firstLeaf := s.firstLeaf, lastLeaf := s.lastLeaf,
    pages := s.pages }

def openIndex {κ : Type} {order : Nat} (f : IxFile κ order) : IxIndexHandle κ order :=
  { numPages := f.numPages, rootPage := f.rootPage, firstLeaf := f.firstLeaf, lastLeaf := f.lastLeaf,
    fd2pageno := f.numPages, pages := f.pages, created := [] }

end Rmdb.Index
