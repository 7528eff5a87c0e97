import ObjectModel.Layout
import ObjectModel.Memory
import ObjectModel.Signature

/-!
Operations on values. What they read only is the world around the heap: types, names, functions and
the comparison functions behind code addresses. All they can change is the heap, and it stays as it
has become when they fail.
-/

set_option autoImplicit false

namespace ObjectModel

/-! What can go wrong with values. Errors name types by id; their texts need the registry and the names. -/

/-- What was given for a parameter. -/
inductive Given
  | type (t : TypeId)
  | slot (s : Slot)
  deriving DecidableEq, Repr, Inhabited

/-- A fault of an operation on values. -/
inductive ValueError
  | fieldNotFound (h : NameHash)
  | invalidCast (source target : TypeId)
  /-- Something was asked of nothing. -/
  | nullAccess
  | invalidArity (expected got : Nat)
  /-- The parameter at this position takes no such argument. -/
  | argumentMismatch (index : Nat) (expected : TypeId) (got : Given)
  | returnMismatch (expected got : TypeId)
  | arrayTooLarge (length : Nat)
  | incompatibleVirtual (field : String)
  /-- A parameter was asked of a construct other than the value's. -/
  | wrongConstruct (active requested : Nat)
  | unknownConstruct (index : Nat)
  /-- A native function was announced with another signature. -/
  | nativeSignature (lib name : String) (expected found : Signature)
  | nativeNotFound (lib name : String)
  /-- Views lead from one to the next without end. -/
  | endlessViews
  | type (e : TypeError)
  | layout (e : LayoutError)
  | signature (e : SignatureError)
  deriving DecidableEq, Repr, Inhabited

namespace ValueError

def givenText (r : Registry) : Given → String
  | .type t => r.typeName t
  | .slot s => s.text

def message (r : Registry) (names : NameTable) : ValueError → String
  | fieldNotFound h => "Field not found: " ++ names.display h
  | invalidCast source target => "Can't cast " ++ r.typeName source ++ " to " ++ r.typeName target
  | nullAccess => "Null access"
  | invalidArity expected got =>
    "Invalid arity: expected " ++ toString expected ++ ", got " ++ toString got
  | argumentMismatch index expected got =>
    "Argument " ++ toString index ++ ": expected " ++ r.typeName expected ++ ", got " ++ givenText r got
  | returnMismatch expected got =>
    "Return type mismatch: expected " ++ r.typeName expected ++ ", got " ++ r.typeName got
  | arrayTooLarge length => "Invalid array length " ++ toString length
  | incompatibleVirtual field => "Can't convert to virtual: missing field '" ++ field ++ "'"
  | wrongConstruct active requested =>
    "Enum construct " ++ toString active ++ " is active, not " ++ toString requested
  | unknownConstruct index => "Invalid enum construct " ++ toString index
  | nativeSignature lib name expected found =>
    "Native " ++ lib ++ "@" ++ name ++ " has signature " ++ found.text ++ ", expected " ++ expected.text
  | nativeNotFound lib name => "Native " ++ lib ++ "@" ++ name ++ " not found"
  | endlessViews => "Views lead to each other without end"
  | type e => e.message
  | layout e => e.message
  | signature e => e.message

end ValueError

/-- How an operation fails: with an error that the program may handle, or for good. -/
inductive Fault
  | error (e : ValueError)
  | fatal (e : HeapError)
  deriving DecidableEq, Repr, Inhabited

/-! The functions of a module by index: where their code is and what type they have. -/

/-- The code address and the type of a function. -/
structure FunctionEntry where
  code : UInt64
  type : TypeId
  deriving DecidableEq, Repr, Inhabited

/-- The bound indices, the latest binding first, and the number of slots. -/
structure FunctionTable where
  bindings : List (Nat × FunctionEntry) := []
  size : Nat := 0
  deriving DecidableEq, Repr, Inhabited

namespace FunctionTable

/-- Binds an index, in place of what it was bound to; the table grows to hold it. -/
def define (table : FunctionTable) (i : Nat) (code : UInt64) (type : TypeId) : FunctionTable :=
  { bindings := (i, ⟨code, type⟩) :: table.bindings
    size := max table.size (i + 1) }

def get? (table : FunctionTable) (i : Nat) : Option FunctionEntry := table.bindings.lookup i

def code? (table : FunctionTable) (i : Nat) : Option UInt64 := (table.get? i).map FunctionEntry.code

def isEmpty (table : FunctionTable) : Bool := table.size == 0

end FunctionTable

/-! Operations: actions, which may change the heap, and readings, which only ask. -/

/-- What a comparison function answers for two instances: a number whose sign counts. -/
abbrev Comparator := Memory → Addr → Addr → Int32

/-- What operations on values look up. -/
structure World where
  registry : Registry
  names : NameTable := {}
  functions : FunctionTable := {}
  comparators : List (UInt64 × Comparator) := []

/-- A question about values in memory. -/
abbrev Reading (α : Type) := Except ValueError α

namespace Reading

def ofType {α : Type} (x : Except TypeError α) : Reading α := x.mapError .type

def ofLayout {α : Type} (x : Except LayoutError α) : Reading α := x.mapError .layout

end Reading

/-- An operation: with a world and a heap it ends well or badly, and leaves a heap. -/
def Action (α : Type) := World → Heap → Except Fault α × Heap

namespace Action

variable {α β : Type}

protected def pure (a : α) : Action α := fun _ h => (.ok a, h)

protected def bind (x : Action α) (f : α → Action β) : Action β := fun w h =>
  match x w h with
  | (.ok a, h) => f a w h
  | (.error e, h) => (.error e, h)

instance : Monad Action where
  pure := Action.pure
  bind := Action.bind

theorem bind_ok {x : Action α} {f : α → Action β} {w : World} {h h' : Heap} {a : α}
    (hx : x w h = (.ok a, h')) : (x >>= f) w h = f a w h' := by
  show Action.bind x f w h = f a w h'
  rw [Action.bind, hx]

theorem bind_error {x : Action α} {f : α → Action β} {w : World} {h h' : Heap} {e : Fault}
    (hx : x w h = (.error e, h')) : (x >>= f) w h = (.error e, h') := by
  show Action.bind x f w h = (.error e, h')
  rw [Action.bind, hx]

def fail (e : ValueError) : Action α := fun _ h => (.error (.error e), h)

def world : Action World := fun w h => (.ok w, h)

/-- Asks a question about the memory as it is now. -/
def ask (question : World → Memory → Reading α) : Action α := fun w h =>
  match question w h.memory with
  | .ok a => (.ok a, h)
  | .error e => (.error (.error e), h)

theorem ask_ok {q : World → Memory → Reading α} {w : World} {h : Heap} {a : α}
    (hq : q w h.memory = .ok a) : ask q w h = (.ok a, h) := by
  rw [ask, hq]

theorem ask_error {q : World → Memory → Reading α} {w : World} {h : Heap} {e : ValueError}
    (hq : q w h.memory = .error e) : ask q w h = (.error (.error e), h) := by
  rw [ask, hq]

def look (view : Memory → α) : Action α := fun _ h => (.ok (view h.memory), h)

def change (f : Memory → Memory) : Action Unit := fun _ h => (.ok (), { h with memory := f h.memory })

/-- More steps than any chain of values in the heap has. -/
def chainBound : Action Nat := fun _ h => (.ok (h.blocks.size + 1), h)

/-- Takes a block from the heap, of a size that may wrap around in 64 bits. -/
def allocateRaw (size : UInt64) (kind : BlockKind) : Action Addr := fun _ h =>
  match h.allocate size kind with
  | .ok (a, h) => (.ok a, h)
  | .error e => (.error (.fatal e), h)

/-- Takes a block from the heap. What is larger than any block is refused. -/
def allocate (size : Nat) (kind : BlockKind) : Action Addr :=
  if Heap.maxBlockSize < size then fun _ h => (.error (.fatal (.invalidSize size)), h)
  else allocateRaw (UInt64.ofNat size) kind

end Action

/-! Every value starts with its type, in a machine word of its own. What follows depends on the kind of
the type. -/

namespace Memory

/-- The type in the first word of a value. -/
def typeOf (m : Memory) (v : Addr) : TypeId := ⟨(m.word v.toNat).toUInt32⟩

/-- The 32-bit number at an address as a count. -/
def count (m : Memory) (a : Nat) : Nat := (m.half a).toInt32.toInt64.toUInt64.toNat

def setCount (m : Memory) (a n : Nat) : Memory := m.setHalf a (UInt32.ofNat n)

def setType (m : Memory) (v : Addr) (t : TypeId) : Memory := m.setWord v.toNat t.raw.toUInt64

end Memory

namespace World

def kind (w : World) (t : TypeId) : Reading Kind := .ofType (w.registry.kind t)

def kindOf (w : World) (m : Memory) (v : Addr) : Reading Kind := w.kind (m.typeOf v)

end World

namespace Action

def newValue (size : Nat) (kind : BlockKind) (t : TypeId) : Action Addr := do
  let v ← allocate size kind
  change (·.setType v t)
  return v

end Action

/-- The kind of a block for values of which some, or none, hold addresses. -/
def BlockKind.ofBool (holdsPointers : Bool) : BlockKind := if holdsPointers then .pointers else .noPointers

end ObjectModel
