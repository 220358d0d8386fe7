/-
What every component shares: record identifiers, the constants of the page
file, `int` arithmetic, and the errors that are raised.
-/
import Mathlib.Tactic

namespace Rmdb

structure Rid where
  pageNo : Int
  slotNo : Int
  deriving DecidableEq, Repr

def pageSize : Nat := 4096

/-- `INVALID_PAGE_ID`, which is also `IX_NO_PAGE` and `RM_NO_PAGE`. -/
def noPage : Int := -1

inductive ColType where
  | int
  | float
  | string
  deriving DecidableEq, Repr

/-- The exceptions of class `RMDBError` that the modelled code raises. -/
inductive RMDBError where
  | pageNotExist (pageNo : Int)
  | recordNotFound (rid : Rid)
  | tableNotFound (tabName : String)
  | columnNotFound (colName : String)
  | ambiguousColumn (colName : String)
  | indexNotFound (tabName : String) (colNames : List String)
  | invalidValueCount
  | incompatibleType (lhs rhs : ColType)
  | stringOverflow
  | nonUniqueIndex (colNames : List String)
  | tableExists (tabName : String)
  | indexExists (tabName : String) (colNames : List String)
  | invalidColLength (len : Int)
  | invalidRecordSize (recordSize : Int)
  | fileExists (path : String)
  | fileNotFound (path : String)
  | fileNotClosed (path : String)
  | fileNotOpen (fd : Int)
  | internalError (msg : String)
  deriving DecidableEq, Repr

/-- The value of an `int` after arithmetic. -/
def wrapInt (x : Int) : Int := Int.bmod x (2 ^ 32)

theorem wrapInt_of_lt {x : Int} (h0 : -2 ^ 31 ≤ x) (h1 : x < 2 ^ 31) : wrapInt x = x := by
  unfold wrapInt
  rw [Int.bmod_eq_iff (by decide)]
  constructor
  · omega
  · constructor
    · omega
    · exact ⟨0, by omega⟩

theorem wrapInt_lt (x : Int) : wrapInt x < 2 ^ 31 := Int.bmod_lt (by decide)

/-- `map.emplace(k, v)` leaves a value that is there. -/
def emplace {κ α : Type} [DecidableEq κ] (m : κ → Option α) (k : κ) (v : α) : κ → Option α :=
  if (m k).isSome then m else Function.update m k (some v)

end Rmdb
