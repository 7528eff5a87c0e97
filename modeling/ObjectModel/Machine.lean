import ObjectModel.Value.Access
import ObjectModel.Value.Comparison

/-!
A machine that runs one module: a registry with the names found in it, a heap, and the tables of
functions and native functions.
-/

set_option autoImplicit false

namespace ObjectModel

/-! Native functions by library and name. They announce the signature of their calls, and whoever asks
for one says which function type is expected. -/

/-- A native function: its signature and its code address. -/
structure NativeEntry where
  signature : Signature
  code : UInt64
  deriving DecidableEq, Repr, Inhabited

/-- The registered native functions, each library and name once. -/
structure NativeTable where
  entries : List ((String × String) × NativeEntry) := []
  deriving DecidableEq, Repr, Inhabited

namespace NativeTable

def size (table : NativeTable) : Nat := table.entries.length

def isEmpty (table : NativeTable) : Bool := table.entries.isEmpty

def get? (table : NativeTable) (lib name : String) : Option NativeEntry :=
  table.entries.lookup (lib, name)

/-- Registers a function in place of what was registered under its library and name. -/
def register (table : NativeTable) (lib name signature : String) (code : UInt64) :
    Except SignatureError NativeTable :=
  match Signature.parse signature with
  | .error e => .error e
  | .ok s => .ok ⟨((lib, name), ⟨s, code⟩) :: table.entries.filter (·.1 != (lib, name))⟩

/-- The code address of a function, whose signature must be that of the function type `t`. -/
def resolve (table : NativeTable) (r : Registry) (lib name : String) (t : TypeId) :
    Except ValueError UInt64 :=
  match r.signatureOf t with
  | .error e => .error (.type e)
  | .ok expected =>
    match table.get? lib name with
    | none => .error (.nativeNotFound lib name)
    | some entry =>
      if entry.signature = expected then .ok entry.code
      else .error (.nativeSignature lib name expected entry.signature)

end NativeTable

/-! Machines. -/

/-- How a machine is set up. -/
structure Options where
  /-- The most bytes that blocks may take. -/
  maxHeapBytes : Option UInt64 := none
  /-- Are names recorded when they are hashed? -/
  cacheFieldNames : Bool := true
  names : Option NameTable := none
  deriving Repr, Inhabited

structure Machine where
  world : World
  heap : Heap
  natives : NativeTable := {}
  options : Options := {}

/-- The member names that a type declares: those of fields, which may have none in classes, and methods. -/
def Descriptor.memberNames : Descriptor → List String
  | .object c => (c.fields.map Field.name).filter (· != "") ++ c.methods.map Method.name
  | .virtual fields => fields.map Field.name
  | _ => []

namespace Machine

/-- A machine with an empty heap. If names are recorded, all member names of the registry are. -/
def start (r : Registry) (options : Options) (comparators : List (UInt64 × Comparator) := []) : Machine :=
  let names := options.names.getD {}
  let names :=
    if options.cacheFieldNames then names.recordAll (r.types.toList.flatMap Descriptor.memberNames) else names
  { world := { registry := r, names, comparators }
    heap := { limit := options.maxHeapBytes }
    options }

/-- The hash of a name, which is recorded if names are. -/
def hash (machine : Machine) (name : String) : NameHash × Machine :=
  let (h, names) := machine.world.names.hash name machine.options.cacheFieldNames
  (h, { machine with world := { machine.world with names } })

def defineFunction (machine : Machine) (i : Nat) (code : UInt64) (t : TypeId) : Machine :=
  { machine with world := { machine.world with functions := machine.world.functions.define i code t } }

def registerNative (machine : Machine) (lib name signature : String) (code : UInt64) :
    Except ValueError Machine :=
  match machine.natives.register lib name signature code with
  | .ok natives => .ok { machine with natives }
  | .error e => .error (.signature e)

def resolveNative (machine : Machine) (lib name : String) (t : TypeId) : Except ValueError UInt64 :=
  machine.natives.resolve machine.world.registry lib name t

def run {α : Type} (machine : Machine) (action : Action α) : Except Fault α × Machine :=
  let (result, heap) := action machine.world machine.heap
  (result, { machine with heap })

/-- Answers a question about the machine's values. -/
def ask {α : Type} (machine : Machine) (question : World → Memory → Reading α) : Reading α :=
  question machine.world machine.heap.memory

end Machine

end ObjectModel
