import ObjectModel.Kind
import ObjectModel.Name

/-!
Types and what they are made of. Types are known by their place in the registry, and descriptors name
other types by id only, so that types may refer to each other in any order and in circles.
-/

set_option autoImplicit false

namespace ObjectModel

/-! The first places of a registry always hold the same types. -/

/-- A type's place in the registry. -/
structure TypeId where
  raw : UInt32
  deriving DecidableEq, Repr, Inhabited

namespace TypeId

def index (t : TypeId) : Nat := t.raw.toNat

def ofIndex (i : Nat) : TypeId := ⟨UInt32.ofNat i⟩

def text (t : TypeId) : String := "TypeId(" ++ toString t.raw.toNat ++ ")"

def void : TypeId := ⟨0⟩
def i8 : TypeId := ⟨1⟩
def i16 : TypeId := ⟨2⟩
def i32 : TypeId := ⟨3⟩
def f32 : TypeId := ⟨4⟩
def f64 : TypeId := ⟨5⟩
def bool : TypeId := ⟨6⟩
def bytes : TypeId := ⟨7⟩
/-- The type of values of any type. -/
def dynamic : TypeId := ⟨8⟩
/-- The type of arrays of dynamic values. -/
def array : TypeId := ⟨9⟩
def type : TypeId := ⟨10⟩
/-- The type of open objects. -/
def dynobj : TypeId := ⟨11⟩

end TypeId

/-! Descriptors. -/

/-- A named place for a value, in a class or in a virtual type. -/
structure Field where
  name : String
  type : TypeId
  deriving DecidableEq, Repr, Inhabited

def Field.hash (f : Field) : NameHash := Name.hash f.name

/-- A method as a class declares it: its function's index and its function type, receiver first. -/
structure Method where
  name : String
  function : Nat
  type : TypeId
  deriving DecidableEq, Repr, Inhabited

def Method.hash (m : Method) : NameHash := Name.hash m.name

/-- One alternative of an enum with the types of its parameters. -/
structure Construct where
  name : String
  params : List TypeId
  deriving DecidableEq, Repr, Inhabited

/-- A class: a name, possibly a class that it extends, and what it declares itself. -/
structure Class where
  name : String
  super : Option TypeId := none
  fields : List Field := []
  methods : List Method := []
  deriving DecidableEq, Repr, Inhabited

/-- A type with the payload of its kind. -/
inductive Descriptor
  | void
  | i8
  | i16
  | i32
  | f32
  | f64
  | bool
  | bytes
  | dynamic
  | function (args : List TypeId) (ret : TypeId)
  | object (c : Class)
  | array (element : TypeId)
  | type
  | ref (target : TypeId)
  | virtual (fields : List Field)
  | dynobj
  | abstract (name : String)
  | enum (name : String) (constructs : List Construct)
  | null (target : TypeId)
  deriving DecidableEq, Repr, Inhabited

namespace Descriptor

def kind : Descriptor → Kind
  | void => .void
  | i8 => .i8
  | i16 => .i16
  | i32 => .i32
  | f32 => .f32
  | f64 => .f64
  | bool => .bool
  | bytes => .bytes
  | dynamic => .dynamic
  | function _ _ => .function
  | object _ => .object
  | array _ => .array
  | type => .type
  | ref _ => .ref
  | virtual _ => .virtual
  | dynobj => .dynobj
  | abstract _ => .abstract
  | enum _ _ => .enum
  | null _ => .null

/-- Every id that a descriptor mentions, in the order in which they are checked. -/
def references : Descriptor → List TypeId
  | function args ret => args ++ [ret]
  | object c => c.super.toList ++ c.fields.map Field.type ++ c.methods.map Method.type
  | array t | ref t | null t => [t]
  | virtual fields => fields.map Field.type
  | enum _ constructs => constructs.flatMap Construct.params
  | _ => []

/-- The types that every registry starts with, at the ids `0` to `11`. -/
def builtins : List Descriptor :=
  [void, i8, i16, i32, f32, f64, bool, bytes, dynamic, array TypeId.dynamic, type, dynobj]

end Descriptor

end ObjectModel
