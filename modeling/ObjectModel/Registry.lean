import ObjectModel.Descriptor

/-!
A registry holds descriptors by id, and answers what kind a type is of, what it is made of and whether
it is the same as another one. It is filled through a builder, which checks the whole set of types at
once.
-/

set_option autoImplicit false

namespace ObjectModel

/-! What can be wrong with a set of types or with a request for one. -/

/-- A fault of the registry or of a request to it. -/
inductive TypeError
  | unknownType (t : TypeId)
  /-- The id was set aside, and nothing was put there. -/
  | undefined (t : TypeId)
  | alreadyDefined (t : TypeId)
  /-- Following the super classes of this class never ends. -/
  | cyclicInheritance (name : String)
  | invalidSuper (name : String) (found : Kind)
  | wrongKind (expected found : Kind)
  /-- The type contains itself with no class in between, so that it has no finite signature. -/
  | endlessSignature (t : TypeId)
  deriving DecidableEq, Repr, Inhabited

def TypeError.message : TypeError → String
  | unknownType t => "Unknown type: " ++ t.text
  | undefined t => "Type " ++ t.text ++ " was reserved but never defined"
  | alreadyDefined t => "Type " ++ t.text ++ " is already defined"
  | cyclicInheritance name => "Cyclic inheritance through class '" ++ name ++ "'"
  | invalidSuper name found =>
    "Super type of '" ++ name ++ "' is not an object type (found " ++ found.name ++ ")"
  | wrongKind expected found => "Expected " ++ expected.name ++ " type, found " ++ found.name
  | endlessSignature t => "The signature of " ++ t.text ++ " never ends"

/-! Requests. -/

structure Registry where
  types : Array Descriptor
  deriving Repr, Inhabited

namespace Registry

def size (r : Registry) : Nat := r.types.size

def get? (r : Registry) (t : TypeId) : Option Descriptor := r.types[t.index]?

def contains (r : Registry) (t : TypeId) : Bool := t.index < r.types.size

/-- The descriptor of a type that must be registered. -/
def get (r : Registry) (t : TypeId) : Except TypeError Descriptor :=
  match r.get? t with
  | some d => .ok d
  | none => .error (.unknownType t)

def kind? (r : Registry) (t : TypeId) : Option Kind := (r.get? t).map Descriptor.kind

def kind (r : Registry) (t : TypeId) : Except TypeError Kind :=
  match r.kind? t with
  | some k => .ok k
  | none => .error (.unknownType t)

def function (r : Registry) (t : TypeId) : Except TypeError (List TypeId × TypeId) :=
  match r.get? t with
  | some (.function args ret) => .ok (args, ret)
  | some d => .error (.wrongKind .function d.kind)
  | none => .error (.unknownType t)

def class? (r : Registry) (t : TypeId) : Option Class :=
  match r.get? t with
  | some (.object c) => some c
  | _ => none

def classOf (r : Registry) (t : TypeId) : Except TypeError Class :=
  match r.get? t with
  | some (.object c) => .ok c
  | some d => .error (.wrongKind .object d.kind)
  | none => .error (.unknownType t)

def super? (r : Registry) (t : TypeId) : Option TypeId := (r.class? t).bind Class.super

def virtual (r : Registry) (t : TypeId) : Except TypeError (List Field) :=
  match r.get? t with
  | some (.virtual fields) => .ok fields
  | some d => .error (.wrongKind .virtual d.kind)
  | none => .error (.unknownType t)

def enum (r : Registry) (t : TypeId) : Except TypeError (String × List Construct) :=
  match r.get? t with
  | some (.enum name constructs) => .ok (name, constructs)
  | some d => .error (.wrongKind .enum d.kind)
  | none => .error (.unknownType t)

/-- The room that a value of a type takes. -/
def sizeOf (r : Registry) (t : TypeId) : Except TypeError Nat := (r.kind t).map Kind.size

/-- A 64-bit offset moved up to one that suits a type. -/
def pad (r : Registry) (offset : UInt64) (t : TypeId) : Except TypeError UInt64 :=
  (r.kind t).map (·.pad offset)

/-- The function type that is left when the first argument of a function type is given:
the first type in the registry with the remaining arguments and the same result. -/
def closureType? (r : Registry) (t : TypeId) : Option TypeId :=
  match r.get? t with
  | some (.function (_ :: args) ret) => (r.types.findIdx? (· == .function args ret)).map TypeId.ofIndex
  | _ => none

end Registry

/-! The names of types in messages. Classes, enums and abstract types go by their own names, the others
are spelt out, down to the fourth level. -/

namespace Registry

/-- The levels of a type that its name spells out. -/
def typeNameDepth : Nat := 4

/-- The name of a type, of which `depth` more levels are spelt out. -/
def typeNameAt (r : Registry) : (depth : Nat) → TypeId → String
  | depth, t =>
    match r.get? t with
    | none => "<unknown " ++ toString t.raw.toNat ++ ">"
    | some d =>
      match depth with
      | 0 => "..."
      | depth + 1 =>
        match d with
        | .object c => c.name
        | .enum name _ => name
        | .abstract name => name
        | .function args ret =>
          "(" ++ String.intercalate ", " (args.map (r.typeNameAt depth)) ++ ") -> " ++
            r.typeNameAt depth ret
        | .virtual fields =>
          "virtual<" ++ String.intercalate ", "
            (fields.map fun f => f.name ++ ":" ++ r.typeNameAt depth f.type) ++ ">"
        | .array t => "array<" ++ r.typeNameAt depth t ++ ">"
        | .ref t => "ref<" ++ r.typeNameAt depth t ++ ">"
        | .null t => "null<" ++ r.typeNameAt depth t ++ ">"
        | d => d.kind.name

def typeName (r : Registry) (t : TypeId) : String := r.typeNameAt typeNameDepth t

end Registry

/-! Equality of types by structure. Two types are the same if they look alike and so do, all the way
down, the types that they mention at the same places. Types may mention each other in circles, so a
pair under comparison counts as the same until something speaks against it. -/

/-- What a descriptor shows of itself without the types that it mentions. Fields of virtual types show
their hashes only, and the kinds that carry nothing but types show just their kind. -/
inductive Face
  | plain (k : Kind)
  | function (arity : Nat)
  | object (name : String) (hasSuper : Bool) (fields : List String) (methods : List (String × Nat))
  | virtual (fields : List NameHash)
  | abstract (name : String)
  | enum (name : String) (constructs : List (String × Nat))
  deriving DecidableEq, Repr

namespace Descriptor

/-- The face of a descriptor. The methods of a class count with name and function but not with
their types. -/
def face : Descriptor → Face
  | function args _ => .function args.length
  | object c => .object c.name c.super.isSome (c.fields.map Field.name)
      (c.methods.map fun m => (m.name, m.function))
  | virtual fields => .virtual (fields.map Field.hash)
  | abstract name => .abstract name
  | enum name constructs => .enum name (constructs.map fun c => (c.name, c.params.length))
  | d => .plain d.kind

/-- The types behind the face, in order: those that have to be the same too. -/
def parts : Descriptor → List TypeId
  | function args ret => args ++ [ret]
  | object c => c.super.toList ++ c.fields.map Field.type
  | virtual fields => fields.map Field.type
  | enum _ constructs => constructs.flatMap Construct.params
  | array t | ref t | null t => [t]
  | _ => []

end Descriptor

namespace Registry

abbrev Pair := TypeId × TypeId

/-- The pairs that must be the same if a pair is; none if the two differ on their face or one of
them is unknown. -/
def below? (r : Registry) (p : Pair) : Option (List Pair) :=
  match r.get? p.1, r.get? p.2 with
  | some a, some b => if a.face = b.face then some (a.parts.zip b.parts) else none
  | _, _ => none

/-- Why a comparison stops early: two types differ, or a pair is still open and no depth is left. -/
inductive Stop
  | different
  | tooDeep
  deriving DecidableEq, Repr

/-- Compares a pair and all that it leads to, at most `depth` pairs below each other, and gives the
pairs that are assumed afterwards. A pair is assumed from the moment when it is taken up, for all the
comparisons that follow. -/
def compareFrom (r : Registry) : (depth : Nat) → (assumed : List Pair) → (p : Pair) →
    Except Stop (List Pair)
  | depth, assumed, p =>
    if p.1 = p.2 ∨ p ∈ assumed then .ok assumed
    else match r.below? p, depth with
      | none, _ => .error .different
      | some _, 0 => .error .tooDeep
      | some below, depth + 1 =>
        below.foldlM (fun assumed q => r.compareFrom depth assumed q) (p :: assumed)

/-- Are two types the same by structure? Each comparison below another one assumes one more pair of
registered types, so that with the number of such pairs as its depth no comparison is too deep. -/
def sameType (r : Registry) (a b : TypeId) : Bool :=
  (r.compareFrom (r.size * r.size) [] (a, b)).isOk

/-- Goes up from `sub` for at most `steps` super classes until a type that is the same as `sup`. -/
def subclassFrom (r : Registry) (sup : TypeId) : (steps : Nat) → (sub : TypeId) → Bool
  | 0, sub => r.sameType sub sup
  | steps + 1, sub =>
    r.sameType sub sup ||
      match r.super? sub with
      | some up => r.subclassFrom sup steps up
      | none => false

/-- Is a type the same as `sup`, or a class with an ancestor that is? -/
def isSubclass (r : Registry) (sub sup : TypeId) : Bool := r.subclassFrom sup r.size sub

/-- May a method of type `child` stand in the slot of one of type `base`? The receivers may differ;
the other arguments are the same, and the result is the same or a subclass. -/
def overrides (r : Registry) (base child : TypeId) : Bool :=
  match r.function base, r.function child with
  | .ok (bargs, bret), .ok (cargs, cret) =>
    bargs.length == cargs.length &&
      ((bargs.zip cargs).drop 1).all (fun p => r.sameType p.1 p.2) &&
      (r.sameType bret cret || (r.kind? cret == some .object && r.isSubclass cret bret))
  | _, _ => false

end Registry

/-! A registry is filled through a builder, which may set ids aside for types that refer to each other.
`build` checks the whole set at once: every id set aside is defined, every id that is mentioned
exists, what a class extends is a class, and no class extends itself in the end. It then adds the
function types that are left when leading arguments are given. -/

/-- The ids handed out so far, each with its descriptor or still without one. -/
structure Builder where
  slots : Array (Option Descriptor)
  deriving Repr, Inhabited

namespace Builder

def new : Builder := ⟨(Descriptor.builtins.map some).toArray⟩

def add (b : Builder) (d : Descriptor) : TypeId × Builder :=
  (.ofIndex b.slots.size, ⟨b.slots.push (some d)⟩)

def reserve (b : Builder) : TypeId × Builder :=
  (.ofIndex b.slots.size, ⟨b.slots.push none⟩)

/-- Gives an id that was set aside its descriptor. -/
def define (b : Builder) (t : TypeId) (d : Descriptor) : Except TypeError Builder :=
  match b.slots[t.index]? with
  | some none => .ok ⟨b.slots.setIfInBounds t.index (some d)⟩
  | some (some _) => .error (.alreadyDefined t)
  | none => .error (.unknownType t)

/-- The descriptors of a list of slots whose first id is `start`, if none is missing. -/
def definedFrom (start : Nat) : List (Option Descriptor) → Except TypeError (List Descriptor)
  | [] => .ok []
  | some d :: rest => (definedFrom (start + 1) rest).map (d :: ·)
  | none :: _ => .error (.undefined (.ofIndex start))

def danglingReference? (ds : List Descriptor) : Option TypeId :=
  (ds.flatMap Descriptor.references).find? (ds.length ≤ ·.index)

/-- Follows the super classes from `current`, a class on the way up from the one named `start`, for
at most `steps` steps. -/
def checkAncestors (types : Array Descriptor) (start : String) :
    (steps : Nat) → (current : Class) → Except TypeError Unit
  | steps, current =>
    match current.super with
    | none => .ok ()
    | some up =>
      match types[up.index]? with
      | none => .error (.unknownType up)
      | some (.object parent) =>
        match steps with
        | 0 => .error (.cyclicInheritance start)
        | steps + 1 => checkAncestors types start steps parent
      | some d => .error (.invalidSuper current.name d.kind)

def checkInheritance (types : Array Descriptor) : List Descriptor → Except TypeError Unit
  | [] => .ok ()
  | .object c :: rest => do
    checkAncestors types c.name types.size c
    checkInheritance types rest
  | _ :: rest => checkInheritance types rest

/-- What is left of a function type when its first argument is given. -/
def applied? : Descriptor → Option Descriptor
  | .function (_ :: args) ret => some (.function args ret)
  | _ => none

/-- Appends a descriptor unless it is there; the second part collects what was appended, the latest first. -/
def appendNew (state : Array Descriptor × List Descriptor) (d : Descriptor) :
    Array Descriptor × List Descriptor :=
  if state.1.contains d then state else (state.1.push d, d :: state.2)

/-- Appends what is left of the function types in `wave`, then the same for those just appended. The
types of a wave have at most `arity` arguments, and each wave has one argument less. -/
def appendApplied : (arity : Nat) → (wave : List Descriptor) → (types : Array Descriptor) → Array Descriptor
  | 0, _, types => types
  | arity + 1, wave, types =>
    let (types, fresh) := (wave.filterMap applied?).foldl appendNew (types, [])
    appendApplied arity fresh.reverse types

def maxArity (ds : List Descriptor) : Nat :=
  ds.foldl (fun n d => match d with
    | .function args _ => max n args.length
    | _ => n) 0

/-- Checks all that was registered and closes it under giving first arguments. -/
def build (b : Builder) : Except TypeError Registry := do
  let ds ← definedFrom 0 b.slots.toList
  match danglingReference? ds with
  | some t => throw (.unknownType t)
  | none =>
    checkInheritance ds.toArray ds
    return ⟨appendApplied (maxArity ds) ds ds.toArray⟩

end Builder

end ObjectModel
