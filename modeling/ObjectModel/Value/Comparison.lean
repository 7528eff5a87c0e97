import ObjectModel.Value.Fixed
import ObjectModel.Value.View

/-!
The order of dynamic values. Null comes first; numbers go by what they are worth; instances whose
class has a comparison function ask it; all other values of one kind go by where they are.
-/

set_option autoImplicit false

namespace ObjectModel

/-- How two values compare, if they do. -/
inductive Verdict
  | less
  | equal
  | greater
  | invalid
  deriving DecidableEq, Repr, Inhabited

namespace Verdict

/-- The number by which a comparison function says that two values do not compare. -/
def invalidCode : Int32 := (0xAABBCCDD : UInt32).toInt32

/-- A verdict as the answer of a comparison function. -/
def toCode : Verdict → Int32
  | less => -1
  | equal => 0
  | greater => 1
  | invalid => invalidCode

/-- The verdict in the answer of a comparison function, of which the sign counts. -/
def ofCode (n : Int32) : Verdict :=
  if n = invalidCode then invalid
  else if n < 0 then less
  else if n = 0 then equal
  else greater

def ofOrdering : Ordering → Verdict
  | .lt => less
  | .eq => equal
  | .gt => greater

def ordering? : Verdict → Option Ordering
  | less => some .lt
  | equal => some .eq
  | greater => some .gt
  | invalid => none

end Verdict

/-- A comparison with the ground on which it was decided. -/
inductive Comparison
  /-- By what the values are. -/
  | byContent (v : Verdict)
  /-- By where they are. -/
  | byAddress (o : Ordering)
  deriving DecidableEq, Repr, Inhabited

namespace Comparison

def verdict : Comparison → Verdict
  | byContent v => v
  | byAddress o => .ofOrdering o

end Comparison

namespace World

/-- The value that counts in a comparison: a view counts as the value that it shows. -/
def unwrapped (w : World) (m : Memory) (v : Addr) : Addr :=
  if w.registry.kind? (m.typeOf v) = some .virtual ∧ View.wrapped m v ≠ 0 then View.wrapped m v else v

/-- The comparison function of a value's class, if the class has one that is bound. -/
def comparator? (w : World) (m : Memory) (v : Addr) : Option Comparator :=
  match w.registry.classLayout (m.typeOf v) with
  | .error _ => none
  | .ok c => do
    let function ← c.compareFunction
    let code ← w.functions.code? function
    w.comparators.lookup code

def numberIn? (w : World) (m : Memory) (v : Addr) : Option Number :=
  match Box.content w m v with
  | .ok (s, _) => Number.ofSlot? s
  | .error _ => none

/-- Compares two values that are no views and not one and the same. -/
def compareDistinct (w : World) (m : Memory) (a b : Addr) : Comparison :=
  match w.registry.kind? (m.typeOf a), w.registry.kind? (m.typeOf b) with
  | some k, some l =>
    if k.isNumeric ∧ l.isNumeric then
      match w.numberIn? m a, w.numberIn? m b with
      | some x, some y => .byContent (((x.compare? y).map .ofOrdering).getD .invalid)
      | _, _ => .byContent .invalid
    else if k.isNumeric ∨ l.isNumeric ∨ k ≠ l then
      .byContent .invalid
    else
      match if k = .object then w.comparator? m a else none with
      | some f => .byContent (.ofCode (f m a b))
      | none =>
        if k.isSelfDescribing then .byAddress (compare a b)
        else .byAddress (compare (Box.pointer m a) (Box.pointer m b))
  | _, _ => .byContent .invalid

/-- Compares two dynamic values, of which each may be null. -/
def compareValues (w : World) (m : Memory) (a b : Addr) : Comparison :=
  if a = 0 ∧ b = 0 then .byContent .equal
  else if a = 0 then .byContent .less
  else if b = 0 then .byContent .greater
  else
    let a := w.unwrapped m a
    let b := w.unwrapped m b
    if a = b then .byContent .equal else w.compareDistinct m a b

end World

end ObjectModel
