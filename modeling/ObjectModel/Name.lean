/-!
Names of members are known at run time by a 32-bit hash. It is taken over the UTF-16 code units of
the name, so characters outside the basic plane count as two. A table leads from a hash back to the
name.
-/

set_option autoImplicit false

namespace ObjectModel

abbrev NameHash := Int32

namespace Name

/-- The UTF-16 code units of a character: one in the basic plane, else a high and a low surrogate. -/
def charUnits (c : Char) : List UInt16 :=
  let n := c.toNat
  if n < 0x10000 then
    [UInt16.ofNat n]
  else
    let m := n - 0x10000
    [UInt16.ofNat (0xD800 + m / 0x400), UInt16.ofNat (0xDC00 + m % 0x400)]

def units (s : String) : List UInt16 := s.toList.flatMap charUnits

/-- One step of the hash: the sum so far moves up one digit in base 223, in wrapping 32-bit arithmetic. -/
def hashStep (h : Int32) (unit : UInt16) : Int32 := 223 * h + unit.toUInt32.toInt32

/-- The hash of a sequence of code units: the last sum's remainder by `0x1FFFFF7B`, with the sum's sign. -/
def hashUnits (us : List UInt16) : NameHash := us.foldl hashStep 0 % 0x1FFFFF7B

def hash (s : String) : NameHash := hashUnits (units s)

end Name

/-! The table that leads from a hash back to a name. The first name recorded for a hash stays. -/

/-- The recorded names, the latest first; no two have one hash. -/
structure NameTable where
  entries : List (NameHash × String) := []
  deriving Repr, Inhabited

namespace NameTable

def name? (table : NameTable) (h : NameHash) : Option String := table.entries.lookup h

def contains (table : NameTable) (h : NameHash) : Bool := (table.name? h).isSome

def size (table : NameTable) : Nat := table.entries.length

def isEmpty (table : NameTable) : Bool := table.entries.isEmpty

/-- Records a name, unless its hash already has one. -/
def record (table : NameTable) (name : String) : NameTable :=
  if table.contains (Name.hash name) then table
  else ⟨(Name.hash name, name) :: table.entries⟩

def recordAll (table : NameTable) (names : List String) : NameTable := names.foldl record table

/-- The hash of a name, which is recorded on the way if `keep` is set. -/
def hash (table : NameTable) (name : String) (keep : Bool) : NameHash × NameTable :=
  (Name.hash name, if keep then table.record name else table)

/-- The text that stands for a hash in messages: its name, or the number after `#`. -/
def display (table : NameTable) (h : NameHash) : String :=
  match table.name? h with
  | some name => name
  | none => "#" ++ toString h.toInt

end NameTable

end ObjectModel
