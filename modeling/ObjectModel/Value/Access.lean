import ObjectModel.Value.Fixed
import ObjectModel.Value.View

/-!
Slots of one type as slots of another, and reading and writing members by the hash of their name, on
instances, open objects and views alike.
-/

set_option autoImplicit false

namespace ObjectModel

/-! Coercions: a slot of one type as a slot of another. Numbers become numbers of any kind; dynamic and
nullable values give up the number in them, and null counts as zero; numbers go into boxes. An address
passes if the types are the same, up to a super class or down to the class that the value really has,
to anything dynamic, and to a virtual type by way of a view. -/

namespace Coercion

/-- The number in a slot of type `source`, on the way to the type `target`. -/
def number (w : World) (m : Memory) (s : Slot) (source target : TypeId) : Reading Number := do
  let k ← w.kind source
  match Number.ofSlot? s, s with
  | some n, _ => if k.isNumeric then return n else throw (.invalidCast source target)
  | none, .pointer a =>
    if k = .dynamic ∨ k = .null then
      if a = 0 then
        return .int 0
      else
        let (content, t) ← Box.content w m a
        match Number.ofSlot? content with
        | some n => return n
        | none => throw (.invalidCast t target)
    else
      throw (.invalidCast source target)
  | none, _ => throw (.invalidCast source target)

/-- A slot as a whole number of the kind of `target`, widened to 32 bits. -/
def toInt32 (w : World) (m : Memory) (s : Slot) (source target : TypeId) : Reading Int32 := do
  let n ← number w m s source target
  match n.toSlot? (← w.kind target) with
  | some (.i8 x) => return x.toInt32
  | some (.i16 x) => return x.toInt32
  | some (.i32 x) => return x
  | some (.bool b) => return if b then 1 else 0
  | _ => throw (.invalidCast source target)

def toF32 (w : World) (m : Memory) (s : Slot) (source : TypeId) : Reading UInt32 :=
  (number w m s source .f32).map Number.toF32

def toF64 (w : World) (m : Memory) (s : Slot) (source : TypeId) : Reading UInt64 :=
  (number w m s source .f64).map Number.toF64

/-- What an address of type `source` really leads to, and of what type it is. A box gives up the
address in it. -/
def actual (w : World) (m : Memory) (a : Addr) (source : TypeId) (k : Kind) : Reading (Addr × TypeId) :=
  if k.isSelfDescribing then do
    let t := m.typeOf a
    let l ← w.kind t
    return (if l.isPointer && !l.isSelfDescribing then Box.pointer m a else a, t)
  else
    return (a, source)

end Coercion

namespace Action

/-- A number of type `source` in a box of the nullable type `target`. -/
def boxAs (s : Slot) (source target : TypeId) : Action Addr := do
  match ← ask fun w _ => .ofType (w.registry.get target) with
  | .null inner =>
    let k? := (← world).registry.kind? inner
    match (do (← Number.ofSlot? s).toSlot? (← k?) : Option Slot) with
    | some s => toDynamic s inner
    | none => fail (.invalidCast source target)
  | _ => fail (.invalidCast source target)

/-- An address that leads to something of type `actual` as an address of type `target`. A class takes
its subclasses, a virtual type whatever has members, a nullable type numbers, an array type any array,
and any other type its like. -/
def castActual (a : Addr) (actual target : TypeId) (targetKind : Kind) : Action Addr := do
  let r := (← world).registry
  let k ← ask fun w _ => w.kind actual
  let pass (ok : Bool) : Action Addr := if ok then return a else fail (.invalidCast actual target)
  match targetKind with
  | .object => pass (k = .object && r.isSubclass actual target)
  | .virtual =>
    if k = .object ∨ k = .dynobj ∨ k = .virtual then toView target a
    else fail (.invalidCast actual target)
  | .null =>
    if k.isNumeric then
      let (content, _) ← ask fun w m => Box.content w m a
      boxAs content actual target
    else
      pass (r.sameType actual target)
  | .array => pass (k = .array)
  | _ => pass (r.sameType actual target)

/-- A slot of type `source` as an address of type `target`. -/
def castPointer (s : Slot) (source target : TypeId) : Action Addr := do
  let sourceKind ← ask fun w _ => w.kind source
  let targetKind ← ask fun w _ => w.kind target
  match s with
  | .void => return 0
  | .pointer a =>
    if a = 0 ∨ (← world).registry.sameType source target then
      return a
    else if targetKind = .dynamic then
      if sourceKind.isSelfDescribing then return a else toDynamic s source
    else
      let (raw, actual) ← ask fun w m => Coercion.actual w m a source sourceKind
      castActual raw actual target targetKind
  | _ =>
    match targetKind with
    | .dynamic => toDynamic s source
    | .null => boxAs s source target
    | _ => fail (.invalidCast source target)

/-- A slot of type `source` as a slot of type `target`. -/
def convert (s : Slot) (source target : TypeId) : Action Slot := do
  let k ← ask fun w _ => w.kind target
  if k = .void then
    return .void
  else if k.isNumeric then
    let n ← ask fun w m => Coercion.number w m s source target
    match n.toSlot? k with
    | some s => return s
    | none => fail (.invalidCast source target)
  else
    return .pointer (← castPointer s source target)

/-- A slot of type `source`, which it must suit, as a slot of type `target`. -/
def cast (s : Slot) (source target : TypeId) : Action Slot := do
  let k ← ask fun w _ => w.kind source
  if s.fits k then convert s source target else fail (.invalidCast source target)

end Action

/-! Reading and writing members by the hash of their name, on instances, open objects and views alike. -/

/-- Where a hash leads in a value. -/
inductive Target
  /-- To a stored field at an address. -/
  | stored (address : Nat) (type : TypeId)
  /-- To a method, bound to a receiver when it is read. -/
  | method (function : Nat) (type : TypeId) (receiver : Addr)
  /-- To the same name in another value. -/
  | forward (v : Addr)
  deriving DecidableEq, Repr, Inhabited

namespace Access

/-- The storage to which the offsets of a view's paths refer. -/
def viewStorage (w : World) (m : Memory) (v : Addr) : Reading Addr := do
  let u := View.wrapped m v
  if u = 0 then
    return View.storage m v
  else
    match ← w.kindOf m u with
    | .object => return u
    | .dynobj => return OpenObject.storage m u
    | .virtual => return View.storage m u
    | _ => throw (.invalidCast (m.typeOf u) (m.typeOf v))

/-- Where a hash leads in a view: along the field's path, and to the value shown if the view has no
such field. -/
def inView (w : World) (m : Memory) (v : Addr) (h : NameHash) : Reading Target := do
  let layout ← Reading.ofLayout (w.registry.viewLayout (m.typeOf v))
  let u := View.wrapped m v
  match layout.position? h with
  | none => if u = 0 then throw (.fieldNotFound h) else return .forward u
  | some i =>
    match View.path m v i with
    | .indirect => if u = 0 then throw .nullAccess else return .forward u
    | .direct offset =>
      let base ← viewStorage w m v
      match layout.fields.get? i with
      | some p => return .stored (base.toNat + offset) p.item.type
      | none => throw (.fieldNotFound h)
    | .method slot =>
      if u = 0 then
        throw .nullAccess
      let c ← Reading.ofLayout (w.registry.classLayout (m.typeOf u))
      match c.methods.get? slot with
      | some d => return .method d.function d.type u
      | none => throw (.fieldNotFound h)

def locate (w : World) (m : Memory) (v : Addr) (h : NameHash) : Reading Target := do
  let t := m.typeOf v
  match ← w.kind t with
  | .object =>
    let c ← Reading.ofLayout (w.registry.classLayout t)
    match c.resolve? h with
    | some (.field _ offset t) => return .stored (v.toNat + offset) t
    | some (.method _ function t) => return .method function t v
    | none => throw (.fieldNotFound h)
  | .dynobj =>
    match OpenObject.find? (OpenObject.table m v) h with
    | some f => return .stored ((OpenObject.storage m v).toNat + f.offset) f.type
    | none => throw (.fieldNotFound h)
  | .virtual => inView w m v h
  | _ => throw (.fieldNotFound h)

end Access

namespace Action

/-- Reads a member as a slot of type `t`, found within `bound` values that show each other. -/
def getFrom (h : NameHash) (t : TypeId) : (bound : Nat) → (v : Addr) → Action Slot
  | bound, v => do
    match ← ask fun w m => Access.locate w m v h with
    | .stored a type =>
      let _ ← ask fun w _ => w.kind t
      let k ← ask fun w _ => w.kind type
      convert (← look (·.read a k)) type t
    | .method function type receiver =>
      if (← ask fun w _ => w.kind t).isPointer then
        let c ← bindMethod function type receiver
        return .pointer (← castPointer (.pointer c) (← look (·.typeOf c)) t)
      else
        fail (.invalidCast type t)
    | .forward u =>
      match bound with
      | 0 => fail .endlessViews
      | bound + 1 => getFrom h t bound u

/-- Reads a member of a value as a slot of type `t`. -/
def get (v : Addr) (h : NameHash) (t : TypeId) : Action Slot := do
  getFrom h t (← chainBound) v

/-- Writes a member from a slot of type `t`, found within `bound` values that show each other. -/
def setFrom (h : NameHash) (t : TypeId) (s : Slot) : (bound : Nat) → (v : Addr) → Action Unit
  | bound, v => do
    if (← ask fun w m => w.kindOf m v) = .dynobj then
      setOpenField v h t s
    else
      match ← ask fun w m => Access.locate w m v h with
      | .stored a type =>
        let s ← convert s t type
        change (·.write a s)
      | .method _ type _ => fail (.invalidCast t type)
      | .forward u =>
        match bound with
        | 0 => fail .endlessViews
        | bound + 1 => setFrom h t s bound u

/-- Writes a member of a value from a slot of type `t`, which it must suit. -/
def set (v : Addr) (h : NameHash) (t : TypeId) (s : Slot) : Action Unit := do
  if s.fits (← ask fun w _ => w.kind t) then
    setFrom h t s (← chainBound) v
  else
    fail (.invalidCast t t)

/-- Reads a member as a whole number of type `t`, widened to 32 bits. -/
def getInt32 (v : Addr) (h : NameHash) (t : TypeId) : Action Int32 := do
  match ← get v h t with
  | .i8 n => return n.toInt32
  | .i16 n => return n.toInt32
  | .i32 n => return n
  | .bool b => return if b then 1 else 0
  | _ => fail (.invalidCast t .i32)

def getF32 (v : Addr) (h : NameHash) : Action UInt32 := do
  match ← get v h .f32 with
  | .f32 bits => return bits
  | _ => fail (.invalidCast .f32 .f32)

def getF64 (v : Addr) (h : NameHash) : Action UInt64 := do
  match ← get v h .f64 with
  | .f64 bits => return bits
  | _ => fail (.invalidCast .f64 .f64)

def getPointer (v : Addr) (h : NameHash) (t : TypeId) : Action Addr := do
  if (← ask fun w _ => w.kind t).isPointer then
    match ← get v h t with
    | .pointer a => return a
    | _ => fail (.invalidCast t t)
  else
    fail (.invalidCast t .dynamic)

/-- Writes a member from a whole number, narrowed to the type `t`. -/
def setInt32 (v : Addr) (h : NameHash) (t : TypeId) (n : Int32) : Action Unit := do
  let k ← ask fun w _ => w.kind t
  match if k.isInteger then (Number.int n).toSlot? k else none with
  | some s => set v h t s
  | none => fail (.invalidCast .i32 t)

def setF32 (v : Addr) (h : NameHash) (bits : UInt32) : Action Unit := set v h .f32 (.f32 bits)

def setF64 (v : Addr) (h : NameHash) (bits : UInt64) : Action Unit := set v h .f64 (.f64 bits)

def setPointer (v : Addr) (h : NameHash) (t : TypeId) (a : Addr) : Action Unit := set v h t (.pointer a)

end Action

end ObjectModel
