import ObjectModel.Kind

/-!
Slots: values as they lie unboxed in memory, each as a number of so many bytes; the numbers among
them, and how one kind of number becomes another; and how slots are written in messages.
-/

set_option autoImplicit false

namespace ObjectModel

/-- An address; `0` is null. -/
abbrev Addr := UInt64

/-- An unboxed value. Floating-point numbers are kept as their IEEE bits. -/
inductive Slot
  | void
  | i8 (n : Int8)
  | i16 (n : Int16)
  | i32 (n : Int32)
  | f32 (bits : UInt32)
  | f64 (bits : UInt64)
  | bool (b : Bool)
  | pointer (a : Addr)
  deriving DecidableEq, Repr, Inhabited

namespace Slot

/-- Can a slot hold a value of the kind? -/
def fits : Slot → Kind → Bool
  | void, k => k == .void
  | i8 _, k => k == .i8
  | i16 _, k => k == .i16
  | i32 _, k => k == .i32
  | f32 _, k => k == .f32
  | f64 _, k => k == .f64
  | bool _, k => k == .bool
  | pointer _, k => k.isPointer

def width : Slot → Nat
  | void => 0
  | i8 _ | bool _ => 1
  | i16 _ => 2
  | i32 _ | f32 _ => 4
  | f64 _ | pointer _ => 8

/-- A slot's content as a number; negative numbers are in two's complement. -/
def word : Slot → Nat
  | void => 0
  | i8 n => n.toUInt8.toNat
  | i16 n => n.toUInt16.toNat
  | i32 n => n.toUInt32.toNat
  | f32 bits => bits.toNat
  | f64 bits => bits.toNat
  | bool b => if b then 1 else 0
  | pointer a => a.toNat

/-- The slot of a kind with a given content. A truth value is true unless its byte is zero. -/
def ofWord : Kind → Nat → Slot
  | .void, _ => void
  | .i8, w => i8 (UInt8.ofNat w).toInt8
  | .i16, w => i16 (UInt16.ofNat w).toInt16
  | .i32, w => i32 (UInt32.ofNat w).toInt32
  | .f32, w => f32 (UInt32.ofNat w)
  | .f64, w => f64 (UInt64.ofNat w)
  | .bool, w => bool (w != 0)
  | _, w => pointer (UInt64.ofNat w)

theorem width_of_fits {s : Slot} {k : Kind} (h : s.fits k = true) : s.width = k.size := by
  cases s <;> cases k <;> simp [fits, Kind.isPointer, Kind.isNumeric] at h <;> rfl

theorem ofWord_word {s : Slot} {k : Kind} (h : s.fits k = true) : ofWord k s.word = s := by
  cases s with
  | bool b => cases k <;> simp [fits] at h; cases b <;> rfl
  | _ => cases k <;> simp [fits, Kind.isPointer, Kind.isNumeric] at h <;> simp [ofWord, word]

def null : Slot := pointer 0

end Slot

/-! Numbers of any numeric kind, and how one kind becomes another. Whole numbers all count as 32-bit ones. -/

inductive Number
  | int (n : Int32)
  | f32 (bits : UInt32)
  | f64 (bits : UInt64)
  deriving DecidableEq, Repr, Inhabited

namespace Number

/-- The number in a slot; truth values count as one and zero. -/
def ofSlot? : Slot → Option Number
  | .i8 n => some (int n.toInt32)
  | .i16 n => some (int n.toInt32)
  | .i32 n => some (int n)
  | .bool b => some (int (if b then 1 else 0))
  | .f32 bits => some (f32 bits)
  | .f64 bits => some (f64 bits)
  | .void | .pointer _ => none

/-- The whole part, or the nearest 32-bit number if it is too large; NaN counts as zero. -/
def toInt32 : Number → Int32
  | int n => n
  | f32 bits => (Float32.ofBits bits).toInt32
  | f64 bits => (Float.ofBits bits).toInt32

def toF32 : Number → UInt32
  | int n => n.toFloat32.toBits
  | f32 bits => bits
  | f64 bits => (Float.ofBits bits).toFloat32.toBits

def toF64 : Number → UInt64
  | int n => n.toFloat.toBits
  | f32 bits => (Float32.ofBits bits).toFloat.toBits
  | f64 bits => bits

/-- A number is true unless it is zero of either sign. -/
def isTrue : Number → Bool
  | int n => n != 0
  | f32 bits => bits &&& 0x7FFFFFFF != 0
  | f64 bits => bits &&& 0x7FFFFFFFFFFFFFFF != 0

/-- The slot of a numeric kind; narrow kinds take the low bits of the 32-bit number. -/
def toSlot? (n : Number) : Kind → Option Slot
  | .i8 => some (.i8 n.toInt32.toInt8)
  | .i16 => some (.i16 n.toInt32.toInt16)
  | .i32 => some (.i32 n.toInt32)
  | .bool => some (.bool n.isTrue)
  | .f32 => some (.f32 n.toF32)
  | .f64 => some (.f64 n.toF64)
  | _ => none

/-- The order of two numbers: as whole numbers if both are, else as double-precision ones. NaN has none. -/
def compare? : Number → Number → Option Ordering
  | int x, int y => some (compare x y)
  | x, y =>
    let x := Float.ofBits x.toF64
    let y := Float.ofBits y.toF64
    if x < y then some .lt
    else if x == y then some .eq
    else if y < x then some .gt
    else none

end Number

/-! The shortest decimal that reads back as a given binary floating-point number. The number is `m * 2 ^ q`;
the reals that round to it form an interval, whose ends belong to it if `m` is even. The coarsest
decimal grid with a point in the interval gives the digits. -/

/-- The number `digits * 10 ^ exponent`. -/
structure Decimal where
  digits : Nat
  exponent : Int
  deriving DecidableEq, Repr, Inhabited

/-- A positive binary number `m * 2 ^ q`. Below a power of two the numbers lie twice as close. -/
structure Binary where
  m : Nat
  q : Int
  closeBelow : Bool
  deriving DecidableEq, Repr, Inhabited

namespace Binary

/-- The number with a biased exponent and a fraction of so many bits; `bias` belongs to the last bit. -/
def ofFields (fractionBits : Nat) (bias : Int) (exponent fraction : Nat) : Binary :=
  { m := if exponent = 0 then fraction else fraction + Nat.pow 2 fractionBits
    q := (max exponent 1 : Nat) - bias
    closeBelow := fraction = 0 && 1 < exponent }

def ofF64 (bits : UInt64) : Binary :=
  ofFields 52 1075 ((bits >>> 52) &&& 0x7FF).toNat (bits &&& 0xFFFFFFFFFFFFF).toNat

def ofF32 (bits : UInt32) : Binary :=
  ofFields 23 150 ((bits >>> 23) &&& 0xFF).toNat (bits &&& 0x7FFFFF).toNat

/-- The multiple of `10 ^ s` that is nearest to the number, of those that round to it; of two equally
near ones the greater. -/
def onGrid? (b : Binary) (s : Int) : Option Nat :=
  let num := Nat.pow 2 (b.q - 2).toNat * Nat.pow 10 (-s).toNat
  let den := Nat.pow 2 (2 - b.q).toNat * Nat.pow 10 s.toNat
  let value := 4 * b.m * num
  let low := (4 * b.m - if b.closeBelow then 1 else 2) * num
  let high := (4 * b.m + 2) * num
  let inside (c : Nat) : Bool :=
    if b.m % 2 = 0 then low ≤ c * den && c * den ≤ high else low < c * den && c * den < high
  let down := value / den
  match inside down, inside (down + 1) with
  | true, true => if 2 * value < (2 * down + 1) * den then some down else some (down + 1)
  | true, false => some down
  | false, true => some (down + 1)
  | false, false => none

/-- Tries ever finer grids from `10 ^ s` on. -/
def shortestFrom (b : Binary) : (fuel : Nat) → (s : Int) → Decimal
  | 0, s => ⟨0, s⟩
  | fuel + 1, s =>
    match b.onGrid? s with
    | some c => ⟨c, s⟩
    | none => b.shortestFrom fuel (s - 1)

/-- The shortest decimal that reads back as the number. It has at most 17 digits, and the first grid
tried is at most a few steps too coarse. -/
def shortest (b : Binary) : Decimal :=
  b.shortestFrom 24 (((Nat.log2 b.m : Int) + q b) * 30103 / 100000 + 2)

end Binary

/-! How slots are written in messages. Floating-point numbers have the fewest digits that read back, at
least one of them after the point, and an exponent if they are below `10 ^ -4` or from `10 ^ 16` on. -/

namespace Decimal

/-- The digits without the zeros at their end, and the power of ten before the first digit. -/
def normalDigits (d : Decimal) : List Char × Int :=
  let ds := (toString d.digits).toList
  (((ds.reverse.dropWhile (· == '0')).reverse), d.exponent + ds.length)

/-- A positive decimal in positional notation. -/
def positional (ds : List Char) (point : Int) : List Char :=
  if point ≤ 0 then
    ['0', '.'] ++ List.replicate (-point).toNat '0' ++ ds
  else
    let n := point.toNat
    if ds.length ≤ n then
      ds ++ List.replicate (n - ds.length) '0' ++ ['.', '0']
    else
      ds.take n ++ '.' :: ds.drop n

/-- A positive decimal with an exponent. -/
def scientific (ds : List Char) (point : Int) : List Char :=
  let mantissa := match ds with
    | d :: e :: rest => d :: '.' :: e :: rest
    | ds => ds
  mantissa ++ 'e' :: (toString (point - 1)).toList

def text (d : Decimal) : String :=
  let (ds, point) := d.normalDigits
  String.ofList (if -3 ≤ point && point ≤ 16 then positional ds point else scientific ds point)

end Decimal

namespace Slot

/-- The text of a floating-point number: its sign, and its class or the decimal of its absolute value. -/
def floatText (negative nan infinite zero : Bool) (value : Binary) : String :=
  if nan then "NaN"
  else (if negative then "-" else "") ++
    if infinite then "inf" else if zero then "0.0" else value.shortest.text

def f64Text (bits : UInt64) : String :=
  let magnitude := bits &&& 0x7FFFFFFFFFFFFFFF
  floatText (bits != magnitude) (0x7FF0000000000000 < magnitude) (magnitude == 0x7FF0000000000000)
    (magnitude == 0) (.ofF64 bits)

def f32Text (bits : UInt32) : String :=
  let magnitude := bits &&& 0x7FFFFFFF
  floatText (bits != magnitude) (0x7F800000 < magnitude) (magnitude == 0x7F800000) (magnitude == 0)
    (.ofF32 bits)

def text : Slot → String
  | void => "Void"
  | i8 n => "I8(" ++ toString n.toInt ++ ")"
  | i16 n => "I16(" ++ toString n.toInt ++ ")"
  | i32 n => "I32(" ++ toString n.toInt ++ ")"
  | f32 bits => "F32(" ++ f32Text bits ++ ")"
  | f64 bits => "F64(" ++ f64Text bits ++ ")"
  | bool b => "Bool(" ++ (if b then "true" else "false") ++ ")"
  | pointer a => if a = 0 then "Ptr(0x0)" else "Ptr(*)"

end Slot

end ObjectModel
