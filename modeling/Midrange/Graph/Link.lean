import Std.Data.TreeMap
import Midrange.Instruction.Mnemonic

namespace Midrange

/-- A place where code is entered: its address, and the routine that control is in there. -/
structure Entry where
  start : Int
  routine : String
  deriving DecidableEq, Repr

namespace Entry

instance : Ord Entry where
  compare left right :=
    (compare left.start right.start).then (compare left.routine right.routine)

instance : Std.TransOrd Entry :=
  inferInstanceAs (Std.TransCmp (compareLex (compareOn start) (compareOn routine)))

instance : Std.LawfulEqOrd Entry where
  eq_of_compare {left right} hcompare := by
    obtain ⟨hstart, hroutine⟩ := Ordering.then_eq_eq.mp hcompare
    cases left
    cases right
    rw [Entry.mk.injEq]
    exact ⟨Std.compare_eq_iff_eq.mp hstart, Std.compare_eq_iff_eq.mp hroutine⟩

end Entry

/-- The two routines that a link joins. -/
structure Ends where
  source : String
  target : String
  deriving DecidableEq, Repr

namespace Ends

instance : Ord Ends where
  compare left right :=
    (compare left.source right.source).then (compare left.target right.target)

instance : Std.TransOrd Ends :=
  inferInstanceAs (Std.TransCmp (compareLex (compareOn source) (compareOn target)))

instance : Std.LawfulEqOrd Ends where
  eq_of_compare {left right} hcompare := by
    obtain ⟨hsource, htarget⟩ := Ordering.then_eq_eq.mp hcompare
    cases left
    cases right
    rw [Ends.mk.injEq]
    exact ⟨Std.compare_eq_iff_eq.mp hsource, Std.compare_eq_iff_eq.mp htarget⟩

def reverse (ends : Ends) : Ends :=
  ⟨ends.target, ends.source⟩

end Ends

/-- A call or a goto between two routines. -/
structure Link where
  source : String
  target : String
  kind : BranchKind
  deriving DecidableEq, Repr

def Link.ends (link : Link) : Ends :=
  ⟨link.source, link.target⟩

end Midrange
