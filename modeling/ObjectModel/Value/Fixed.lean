import ObjectModel.Value.Action

/-!
Values whose places are settled when they are made: boxes, raw bytes, instances of classes, arrays,
enum values and closures.
-/

set_option autoImplicit false

namespace ObjectModel

/-! Boxes: values that hold one number or one address to something that does not carry its own type.
Values that carry their type are dynamic values as they are and need no box. -/

namespace Box

def payloadOffset : Nat := 8

def size : Nat := 16

/-- The content of a box, if its type has the kind `k`. -/
def payload (m : Memory) (v : Addr) (k : Kind) : Slot := m.read (v.toNat + payloadOffset) k

def pointer (m : Memory) (v : Addr) : Addr := m.word (v.toNat + payloadOffset)

/-- What a dynamic value holds, and its type. A value that carries its type stands for itself. -/
def content (w : World) (m : Memory) (v : Addr) : Reading (Slot × TypeId) := do
  let t := m.typeOf v
  let k ← w.kind t
  return (if k.isSelfDescribing then .pointer v else payload m v k, t)

end Box

namespace Action

def newBox (t : TypeId) : Action Addr := do
  let k ← ask fun w _ => w.kind t
  newValue Box.size (.ofBool k.isPointer) t

/-- A slot of a type as a dynamic value. Nothing and null are null; an address of a value that carries
its type is that value; all else goes into a new box. -/
def toDynamic (s : Slot) (t : TypeId) : Action Addr := do
  let k ← ask fun w _ => w.kind t
  if s.fits k then
    match s with
    | .void => return 0
    | .pointer a =>
      if a = 0 ∨ k.isSelfDescribing then
        return a
      else
        fill
    | _ => fill
  else
    fail (.invalidCast t .dynamic)
where
  /-- A new box with the slot in it. -/
  fill : Action Addr := do
    let v ← newBox t
    change (·.write (v.toNat + Box.payloadOffset) s)
    return v

/-- Boxes a number as a value of the given type. -/
def boxNumber (s : Slot) (t : TypeId) : Action Addr := do
  let v ← toDynamic s t
  if v = 0 then fail .nullAccess else return v

end Action

/-! Raw bytes: blocks without a type of their own. -/

namespace Action

def newBytes (size : UInt64) : Action Addr := allocateRaw size .noPointers

def copyBytes (bytes : List UInt8) : Action Addr := do
  let a ← allocate bytes.length .noPointers
  change (·.setBytes a.toNat bytes)
  return a

end Action

/-! Instances of classes: the type, then the fields where the class layout puts them. -/

namespace Action

/-- A new instance of a class, all fields zero. -/
def newInstance (t : TypeId) : Action Addr := do
  let layout ← ask fun w _ => .ofLayout (w.registry.classLayout t)
  newValue layout.size (.ofBool layout.hasPointer) t

end Action

/-! Arrays: element type and length, then the elements one after the other. -/

namespace ArrayValue

-- Places in the header, behind the type word.
def elementOffset : Nat := 8

def lengthOffset : Nat := 16

def dataOffset : Nat := 24

/-- The greatest length that the header holds. -/
def maxLength : Nat := 0x7FFFFFFF

/-- The element type and the length of an array. -/
def parts (w : World) (m : Memory) (v : Addr) : Reading (TypeId × Nat) := do
  let k ← w.kindOf m v
  if k = .array then
    return (⟨(m.word (v.toNat + elementOffset)).toUInt32⟩,
      m.count (v.toNat + lengthOffset))
  else
    throw (.invalidCast (m.typeOf v) .array)

/-- The address of an element of an array, and its kind. -/
def element (w : World) (m : Memory) (v : Addr) (i : Nat) : Reading (Nat × Kind) := do
  let (t, _) ← parts w m v
  let k ← w.kind t
  return (v.toNat + dataOffset + i * k.size, k)

def get (w : World) (m : Memory) (v : Addr) (i : Nat) : Reading Slot := do
  let (a, k) ← element w m v i
  return m.read a k

end ArrayValue

namespace Action

def newArray (element : TypeId) (length : Nat) : Action Addr := do
  let k ← ask fun w _ => w.kind element
  if ArrayValue.maxLength < length then
    fail (.arrayTooLarge length)
  else
    let v ← newValue (ArrayValue.dataOffset + length * k.size) (.ofBool k.isPointer) .array
    change fun m =>
      (m.setWord (v.toNat + ArrayValue.elementOffset) element.raw.toUInt64).setCount
        (v.toNat + ArrayValue.lengthOffset) length
    return v

def setElement (v : Addr) (i : Nat) (s : Slot) : Action Unit := do
  let (a, _) ← ask fun w m => ArrayValue.element w m v i
  change (·.write a s)

end Action

/-! Enum values: the number of the construct, then its parameters where the construct's layout puts them. -/

namespace Variant

def constructOffset : Nat := 8

def construct (w : World) (t : TypeId) (index : Nat) : Reading ConstructLayout := do
  let layout ← Reading.ofLayout (w.registry.variantLayout t)
  match layout.construct? index with
  | some c => return c
  | none => throw (.unknownConstruct index)

def active (w : World) (m : Memory) (v : Addr) : Reading Nat := do
  match ← w.kindOf m v with
  | .enum => return m.count (v.toNat + constructOffset)
  | k => throw (.type (.wrongKind .enum k))

/-- A parameter of a value, which must be of the requested construct. -/
def param (w : World) (m : Memory) (v : Addr) (index : Nat) (position : UInt64) : Reading Slot := do
  let active ← active w m v
  let layout ← Reading.ofLayout (w.registry.variantLayout (m.typeOf v))
  if active ≠ index then
    throw (.wrongConstruct active index)
  match layout.construct? active with
  | none => throw (.unknownConstruct active)
  | some c =>
    match c.params.get? position.toNat with
    | none => throw (.invalidArity c.arity (position + 1).toNat)
    | some p => return m.read (v.toNat + p.offset) (← w.kind p.item)

/-- Are the arguments slots of the kinds of the parameters, of which the first is at `position`? -/
def checkArguments (w : World) (position : Nat) : List TypeId → List Slot → Reading Unit
  | t :: ts, s :: ss => do
    if s.fits (← w.kind t) then
      checkArguments w (position + 1) ts ss
    else
      throw (.argumentMismatch position t (.slot s))
  | _, _ => return ()

def fill (v : Addr) (m : Memory) (args : List (Slot × Nat)) : Memory :=
  args.foldl (fun m (s, offset) => m.write (v.toNat + offset) s) m

end Variant

namespace Action

/-- A new value of a construct, all parameters zero. -/
def newVariant (t : TypeId) (index : Nat) : Action Addr := do
  let c ← ask fun w _ => Variant.construct w t index
  let v ← newValue c.size (.ofBool c.hasPointer) t
  change (·.setCount (v.toNat + Variant.constructOffset) index)
  return v

/-- A new value of a construct with given parameters. -/
def makeVariant (t : TypeId) (index : Nat) (args : List Slot) : Action Addr := do
  let c ← ask fun w _ => Variant.construct w t index
  if args.length ≠ c.arity then
    fail (.invalidArity c.arity args.length)
  else
    ask fun w _ => Variant.checkArguments w 0 c.params.values args
    let v ← newVariant t index
    change fun m => Variant.fill v m (args.zip c.params.offsets)
    return v

end Action

/-! Closures: a code address, perhaps with a receiver. The type of a closure is the type of the call that
is left to make, so that binding a receiver takes the first argument away. -/

namespace Closure

-- Places in a closure, behind the type word.
def codeOffset : Nat := 8

/-- Where it says whether a receiver is bound. -/
def boundOffset : Nat := 16

def receiverOffset : Nat := 24

def size : Nat := 32

/-- The arguments and the result of the call that is left to make. -/
def signature (w : World) (m : Memory) (v : Addr) : Reading (List TypeId × TypeId) :=
  .ofType (w.registry.function (m.typeOf v))

def code (m : Memory) (v : Addr) : UInt64 := m.word (v.toNat + codeOffset)

/-- The receiver of a closure; null if none is bound. -/
def receiver (m : Memory) (v : Addr) : Addr :=
  if m.half (v.toNat + boundOffset) = 0 then 0 else m.word (v.toNat + receiverOffset)

/-- May a value of type `actual` be passed where `param` is declared? -/
def accepts (w : World) (param actual : TypeId) : Reading Bool :=
  if w.registry.sameType param actual then
    return true
  else do
    let k ← w.kind param
    let l ← w.kind actual
    match k, l with
    | .dynamic, l => return l.isPointer
    | .object, .object => return w.registry.isSubclass actual param
    | .virtual, .object | .virtual, .dynobj | .virtual, .virtual => return true
    | _, _ => return false

/-- Are the argument types accepted, of which the first is at `position`? -/
def checkArguments (w : World) (position : Nat) : (params args : List TypeId) → Reading Unit
  | p :: ps, a :: as => do
    if ← accepts w p a then
      checkArguments w (position + 1) ps as
    else
      throw (.argumentMismatch position p (.type a))
  | _, _ => return ()

/-- Is a call with these argument types that expects this result one for the closure? A caller that
expects nothing or a dynamic value takes any result. -/
def checkCall (w : World) (m : Memory) (v : Addr) (args : List TypeId) (ret : TypeId) : Reading Unit := do
  let (params, result) ← signature w m v
  if params.length ≠ args.length then
    throw (.invalidArity params.length args.length)
  checkArguments w 0 params args
  let k ← w.kind ret
  if k = .void ∨ k = .dynamic then
    return ()
  if ← accepts w ret result then
    return ()
  throw (.returnMismatch ret result)

/-- The type of a closure over a function type with a receiver of type `t`. -/
def boundType (w : World) (function t : TypeId) : Reading TypeId := do
  match ← Reading.ofType (w.registry.function function) with
  | ([], _) => throw (.invalidArity 1 0)
  | (first :: _, _) =>
    if ← accepts w first t then
      match w.registry.closureType? function with
      | some c => return c
      | none => throw (.invalidCast function function)
    else
      throw (.argumentMismatch 0 first (.type t))

end Closure

namespace Action

def newClosure (function : TypeId) (code : UInt64) : Action Addr := do
  let _ ← ask fun w _ => .ofType (w.registry.function function)
  let v ← newValue Closure.size .pointers function
  change (·.setWord (v.toNat + Closure.codeOffset) code)
  return v

/-- A new closure with a receiver, which the function must accept as its first argument. -/
def bindClosure (function : TypeId) (code : UInt64) (receiver : Addr) : Action Addr := do
  let t ← ask fun w m => Closure.boundType w function (m.typeOf receiver)
  let v ← newValue Closure.size .pointers t
  change fun m =>
    ((m.setWord (v.toNat + Closure.codeOffset) code).setHalf (v.toNat + Closure.boundOffset) 1).setWord
      (v.toNat + Closure.receiverOffset) receiver
  return v

/-- A new closure over a function of the module, bound to a receiver. -/
def bindMethod (function : Nat) (type : TypeId) (receiver : Addr) : Action Addr := do
  match (← world).functions.code? function with
  | some code => bindClosure type code receiver
  | none => fail .nullAccess

end Action

end ObjectModel
