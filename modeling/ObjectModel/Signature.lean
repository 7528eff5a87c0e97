import ObjectModel.Registry

/-!
The shape of a call as native functions announce it: a closed set of argument shapes, in which all
values without a shape of their own pass as dynamic ones. Signatures have a text, are read from it, and
are taken from function types.
-/

set_option autoImplicit false

namespace ObjectModel

mutual

inductive Shape
  | void
  | i8
  | i16
  | i32
  | f32
  | f64
  | bool
  | bytes
  | dynamic
  | object
  | array
  | type
  | ref (target : Shape)
  | null (target : Shape)
  | function (call : Signature)
  deriving DecidableEq, Repr

/-- The shape of a call: its arguments one after the other, then its result. -/
inductive Signature
  | returns (result : Shape)
  | takes (arg : Shape) (rest : Signature)
  deriving DecidableEq, Repr

end

instance : Inhabited Shape := ⟨.void⟩
instance : Inhabited Signature := ⟨.returns .void⟩

namespace Signature

def args : Signature → List Shape
  | returns _ => []
  | takes a rest => a :: rest.args

def result : Signature → Shape
  | returns r => r
  | takes _ rest => rest.result

def arity (s : Signature) : Nat := s.args.length

/-- The call with given arguments and result. -/
def ofArgs (args : List Shape) (result : Shape) : Signature := args.foldr takes (returns result)

theorem ofArgs_args_result : (s : Signature) → ofArgs s.args s.result = s
  | returns _ => rfl
  | takes a rest => congrArg (takes a) (ofArgs_args_result rest)

theorem args_ofArgs (args : List Shape) (result : Shape) : (ofArgs args result).args = args := by
  induction args with
  | nil => rfl
  | cons a rest ih => exact congrArg (a :: ·) ih

theorem result_ofArgs (args : List Shape) (result : Shape) : (ofArgs args result).result = result := by
  induction args with
  | nil => rfl
  | cons a rest ih => exact ih

end Signature

/-! The text of a signature: a letter for each shape, `P` before the arguments of a call and `_` before
its result. -/

mutual

def Shape.letters : Shape → List Char
  | .void => ['v']
  | .i8 => ['c']
  | .i16 => ['s']
  | .i32 => ['i']
  | .f32 => ['f']
  | .f64 => ['d']
  | .bool => ['b']
  | .bytes => ['B']
  | .dynamic => ['X']
  | .object => ['O']
  | .array => ['A']
  | .type => ['T']
  | .ref s => 'R' :: s.letters
  | .null s => 'N' :: s.letters
  | .function call => 'P' :: call.body

/-- The letters of a call after its `P`. -/
def Signature.body : Signature → List Char
  | .returns r => '_' :: r.letters
  | .takes a rest => a.letters ++ rest.body

end

def Signature.letters (s : Signature) : List Char := 'P' :: s.body

def Shape.text (s : Shape) : String := String.ofList s.letters

def Signature.text (s : Signature) : String := String.ofList s.letters

/-! Reading a signature byte by byte. What is still open is kept on a stack, so that each byte is looked
at once and a fault is found at the first byte that no signature continues with. -/

/-- Why a text is no signature. -/
inductive SignatureError
  /-- At this position stands a byte that fits no continuation; it is shown as the character with its number. -/
  | invalidCode (code : UInt8) (pos : Nat)
  | unexpectedEnd
  /-- The signature ends at this position, and the text goes on. -/
  | trailing (pos : Nat)
  deriving DecidableEq, Repr, Inhabited

def SignatureError.message : SignatureError → String
  | invalidCode code pos =>
    "Invalid signature code '" ++ String.singleton (Char.ofNat code.toNat) ++ "' at " ++ toString pos
  | unexpectedEnd => "Unexpected end of signature"
  | trailing pos => "Trailing characters in signature at " ++ toString pos

namespace Signature

/-- What a byte starts where a shape is expected. -/
inductive Start
  | whole (s : Shape)
  | ref
  | null
  | function
  deriving DecidableEq, Repr

def start? (b : UInt8) : Option Start :=
  match Char.ofNat b.toNat with
  | 'v' => some (.whole .void)
  | 'c' => some (.whole .i8)
  | 's' => some (.whole .i16)
  | 'i' => some (.whole .i32)
  | 'f' => some (.whole .f32)
  | 'd' => some (.whole .f64)
  | 'b' => some (.whole .bool)
  | 'B' => some (.whole .bytes)
  | 'X' => some (.whole .dynamic)
  | 'O' => some (.whole .object)
  | 'A' => some (.whole .array)
  | 'T' => some (.whole .type)
  | 'R' => some .ref
  | 'N' => some .null
  | 'P' => some .function
  | _ => none

/-- Something that is open and waits for a shape. -/
inductive Frame
  | ref
  | null
  /-- An argument of a call, or the mark before its result; the arguments so far, the latest first. -/
  | args (before : List Shape)
  /-- The result of a call with these arguments, the latest first. -/
  | result (before : List Shape)
  deriving DecidableEq, Repr

/-- How far the reading has come. -/
inductive Progress
  | start
  /-- These frames are open, the innermost first. -/
  | inside (frames : List Frame)
  | complete (s : Signature)
  deriving DecidableEq, Repr

/-- A shape is complete: it closes the frames that only waited for it. A shape that closes all
frames is the signature itself, a call. -/
def close (s : Shape) : List Frame → Progress
  | .ref :: frames => close (.ref s) frames
  | .null :: frames => close (.null s) frames
  | .args before :: frames => .inside (.args (s :: before) :: frames)
  | [.result before] => .complete (ofArgs before.reverse s)
  | .result before :: frames => close (.function (ofArgs before.reverse s)) frames
  | [] => .inside []

/-- Reads a byte at position `pos` where a shape is expected. -/
def expectShape (pos : Nat) (b : UInt8) (frames : List Frame) : Except SignatureError Progress :=
  match start? b with
  | some (.whole s) => .ok (close s frames)
  | some .ref => .ok (.inside (.ref :: frames))
  | some .null => .ok (.inside (.null :: frames))
  | some .function => .ok (.inside (.args [] :: frames))
  | none => .error (.invalidCode b pos)

def callByte : UInt8 := 80

def resultByte : UInt8 := 95

/-- Reads a byte at position `pos`. -/
def step (pos : Nat) (b : UInt8) : Progress → Except SignatureError Progress
  | .start => if b = callByte then .ok (.inside [.args []]) else .error (.invalidCode b pos)
  | .inside (.args before :: frames) =>
    if b = resultByte then .ok (.inside (.result before :: frames))
    else expectShape pos b (.args before :: frames)
  | .inside frames => expectShape pos b frames
  | .complete _ => .error (.trailing pos)

def read : (pos : Nat) → Progress → List UInt8 → Except SignatureError Signature
  | _, .complete s, [] => .ok s
  | _, _, [] => .error .unexpectedEnd
  | pos, p, b :: rest =>
    match step pos b p with
    | .ok p => read (pos + 1) p rest
    | .error e => .error e

/-- The signature that a text spells. -/
def parse (text : String) : Except SignatureError Signature := read 0 .start text.toUTF8.data.toList

end Signature

/-! The signature of a function type. Types without a shape of their own pass as dynamic. -/

namespace Registry

/-- The shape of a type, found within `depth` nested types. -/
def shapeAt (r : Registry) : (depth : Nat) → TypeId → Except TypeError Shape
  | 0, t => .error (.endlessSignature t)
  | depth + 1, t => do
    match ← r.get t with
    | .void => return .void
    | .i8 => return .i8
    | .i16 => return .i16
    | .i32 => return .i32
    | .f32 => return .f32
    | .f64 => return .f64
    | .bool => return .bool
    | .bytes => return .bytes
    | .dynamic | .virtual _ | .dynobj | .abstract _ | .enum _ _ => return .dynamic
    | .object _ => return .object
    | .array _ => return .array
    | .type => return .type
    | .ref t => return .ref (← r.shapeAt depth t)
    | .null t => return .null (← r.shapeAt depth t)
    | .function args ret =>
      let args ← args.mapM (r.shapeAt depth)
      return .function (.ofArgs args (← r.shapeAt depth ret))

/-- The shape of a type. Nested types all differ in a finite shape, so their number bounds the depth. -/
def shapeOf (r : Registry) (t : TypeId) : Except TypeError Shape := r.shapeAt (r.size + 1) t

def signatureOf (r : Registry) (t : TypeId) : Except TypeError Signature := do
  let (args, ret) ← r.function t
  let args ← args.mapM r.shapeOf
  return .ofArgs args (← r.shapeOf ret)

end Registry

end ObjectModel
