/-!
The kinds of types and the room that a value of each kind takes: its size, its alignment, and the
padding that brings an offset to that alignment.
-/

set_option autoImplicit false

namespace ObjectModel

/-- A kind says how a value of a type is stored and which operations it takes part in. -/
inductive Kind
  | void
  | i8
  | i16
  | i32
  | f32
  | f64
  | bool
  | bytes
  | dynamic
  | function
  | object
  | array
  | type
  | ref
  | virtual
  | dynobj
  | abstract
  | enum
  | null
  deriving DecidableEq, Repr, Inhabited

namespace Kind

def all : List Kind :=
  [void, i8, i16, i32, f32, f64, bool, bytes, dynamic, function, object, array, type, ref, virtual,
    dynobj, abstract, enum, null]

def tag : Kind → Nat
  | void => 0
  | i8 => 1
  | i16 => 2
  | i32 => 3
  | f32 => 4
  | f64 => 5
  | bool => 6
  | bytes => 7
  | dynamic => 8
  | function => 9
  | object => 10
  | array => 11
  | type => 12
  | ref => 13
  | virtual => 14
  | dynobj => 15
  | abstract => 16
  | enum => 17
  | null => 18

/-- The kind with a given tag, if there is one. -/
def ofTag? (n : Nat) : Option Kind := all[n]?

theorem ofTag?_tag (k : Kind) : ofTag? k.tag = some k := by
  cases k <;> rfl

def name : Kind → String
  | void => "void"
  | i8 => "i8"
  | i16 => "i16"
  | i32 => "i32"
  | f32 => "f32"
  | f64 => "f64"
  | bool => "bool"
  | bytes => "bytes"
  | dynamic => "dynamic"
  | function => "function"
  | object => "object"
  | array => "array"
  | type => "type"
  | ref => "ref"
  | virtual => "virtual"
  | dynobj => "dynobj"
  | abstract => "abstract"
  | enum => "enum"
  | null => "null"

def wordSize : Nat := 8

/-- The bytes that a value of the kind takes where it is stored. -/
def size : Kind → Nat
  | void => 0
  | i8 | bool => 1
  | i16 => 2
  | i32 | f32 => 4
  | f64 => 8
  | _ => wordSize

/-- Offsets of values of the kind are multiples of this. A value without bytes may lie anywhere. -/
def align (k : Kind) : Nat := max 1 k.size

/-- The kinds whose values are numbers, truth values among them. -/
def isNumeric : Kind → Bool
  | i8 | i16 | i32 | f32 | f64 | bool => true
  | _ => false

def isInteger : Kind → Bool
  | i8 | i16 | i32 | bool => true
  | _ => false

/-- The kinds whose values are addresses: all but numbers and `void`. -/
def isPointer (k : Kind) : Bool := k != void && !k.isNumeric

/-- The kinds whose addresses lead to a value that starts with its own type. -/
def isSelfDescribing : Kind → Bool
  | dynamic | function | object | array | virtual | dynobj | enum | null => true
  | _ => false

/-- The least multiple of the alignment that is not below `offset`. -/
def alignUp (k : Kind) (offset : Nat) : Nat := (offset + (k.align - 1)) / k.align * k.align

/-- The bytes between a 64-bit offset and the next one that suits the kind, from the low bits of the offset. -/
def padSize (k : Kind) (offset : UInt64) : UInt64 :=
  let align := UInt64.ofNat k.align
  let low := offset &&& (align - 1)
  if low = 0 then 0 else align - low

/-- A 64-bit offset moved up to one that suits the kind; past the last word it starts again at zero. -/
def pad (k : Kind) (offset : UInt64) : UInt64 := offset + k.padSize offset

theorem align_pos (k : Kind) : 0 < k.align := by
  cases k <;> decide

theorem le_alignUp (k : Kind) (offset : Nat) : offset ≤ k.alignUp offset := by
  have hpos := k.align_pos
  have hdiv := Nat.div_add_mod (offset + (k.align - 1)) k.align
  have hmod := Nat.mod_lt (offset + (k.align - 1)) hpos
  rw [Nat.mul_comm] at hdiv
  unfold alignUp
  omega

end Kind

end ObjectModel
