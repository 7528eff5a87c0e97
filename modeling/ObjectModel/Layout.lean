import ObjectModel.Registry

/-!
Where values of a type have their parts. Fields of classes, fields of virtual types and parameters of
enum constructs are all placed one after the other; classes have their methods in slots; and an index
leads from the hash of a name to the member.
-/

set_option autoImplicit false

namespace ObjectModel

/-! Why a class, a virtual type or an enum has no layout. -/

/-- A fault of a layout. The class is the one whose declaration is at fault. -/
inductive LayoutError
  /-- The request or a mentioned type is at fault. -/
  | type (e : TypeError)
  | duplicateField (owner field : String)
  /-- A name stands for a field and for a method. -/
  | memberConflict (owner member : String)
  | duplicateMethod (owner method : String)
  | incompatibleOverride (owner method : String)
  | notAFunction (owner method : String)
  deriving DecidableEq, Repr, Inhabited

def LayoutError.message : LayoutError → String
  | type e => e.message
  | duplicateField owner field => "Duplicate field '" ++ field ++ "' in '" ++ owner ++ "'"
  | memberConflict owner member =>
    "Member '" ++ member ++ "' in '" ++ owner ++ "' is both a field and a method"
  | duplicateMethod owner method => "Duplicate method '" ++ method ++ "' in '" ++ owner ++ "'"
  | incompatibleOverride owner method =>
    "Method '" ++ method ++ "' in '" ++ owner ++ "' overrides an incompatible signature"
  | notAFunction owner method =>
    "Method '" ++ method ++ "' in '" ++ owner ++ "' does not have a function type"

def LayoutError.ofType {α : Type} (x : Except TypeError α) : Except LayoutError α :=
  x.mapError .type

/-! Values laid out one after the other, each at the first offset that suits its kind. Fields of
classes, fields of virtual types and parameters of enum constructs are all placed so. -/

structure Placed (α : Type) where
  item : α
  offset : Nat
  deriving DecidableEq, Repr, Inhabited

/-- Placed things in the order of their offsets, and where the last one ends. -/
structure Region (α : Type) where
  items : List (Placed α)
  stop : Nat
  deriving DecidableEq, Repr, Inhabited

namespace Region

variable {α : Type}

def empty (start : Nat) : Region α := ⟨[], start⟩

/-- Places one more value, which has the kind `k`. -/
def push (region : Region α) (k : Kind) (item : α) : Region α :=
  let offset := k.alignUp region.stop
  ⟨region.items ++ [⟨item, offset⟩], offset + k.size⟩

def length (region : Region α) : Nat := region.items.length

def get? (region : Region α) (i : Nat) : Option (Placed α) := region.items[i]?

def offsets (region : Region α) : List Nat := region.items.map Placed.offset

def values (region : Region α) : List α := region.items.map Placed.item

end Region

/-! An index of members by the hash of their name. Entries are sorted by hash and then by name, and
entries that agree in both keep the order in which they were given. -/

/-- Where a member is found: among the fields or among the method slots. An entry has 32 bits with sign for
both, so that the counts are those of a class with fewer than 2^31 members of each sort; every class that can
be built is one, which is why neither count has a bound. -/
inductive Place
  | field (index : Nat)
  | method (slot : Nat)
  deriving DecidableEq, Repr, Inhabited

namespace Place

/-- A place as one number: a field counts from `0` up, a method slot from `-1` down. -/
def toInt : Place → Int
  | field i => i
  | method s => -(s : Int) - 1

/-- The place that a number stands for. -/
def ofInt : Int → Place
  | .ofNat i => field i
  | .negSucc s => method s

theorem ofInt_toInt (p : Place) : ofInt p.toInt = p := by
  cases p with
  | field i => rfl
  | method s =>
    have : -(s : Int) - 1 = Int.negSucc s := by omega
    simp only [toInt, this, ofInt]

def field? : Place → Option Nat
  | field i => some i
  | method _ => none

def method? : Place → Option Nat
  | field _ => none
  | method s => some s

end Place

structure Entry where
  hash : NameHash
  name : String
  type : TypeId
  place : Place
  deriving DecidableEq, Repr, Inhabited

namespace Entry

/-- Does an entry come before another one of a different hash or name? -/
def precedes (a b : Entry) : Bool := a.hash < b.hash || (a.hash == b.hash && a.name < b.name)

end Entry

/-- Entries sorted by hash and name. -/
structure MemberIndex where
  entries : Array Entry
  deriving DecidableEq, Repr, Inhabited

namespace MemberIndex

/-- Puts an entry in front of the first one that it does not come after. -/
def insertSorted (e : Entry) : List Entry → List Entry
  | [] => [e]
  | x :: rest => if x.precedes e then x :: insertSorted e rest else e :: x :: rest

def ofList (entries : List Entry) : MemberIndex := ⟨(entries.foldr insertSorted []).toArray⟩

def size (index : MemberIndex) : Nat := index.entries.size

/-- The first position from `lo` on, among `len`, whose entry has a hash not below `h`, by halving the
range; the entries below `h` come first. -/
def lowerBound (entries : Array Entry) (h : NameHash) : (fuel lo len : Nat) → Nat
  | 0, lo, _ => lo
  | fuel + 1, lo, len =>
    if len = 0 then lo
    else
      let half := len / 2
      match entries[lo + half]? with
      | none => lo
      | some e =>
        if e.hash < h then lowerBound entries h fuel (lo + half + 1) (len - half - 1)
        else lowerBound entries h fuel lo half

def start (index : MemberIndex) (h : NameHash) : Nat :=
  lowerBound index.entries h index.size 0 index.size

/-- The entry found by a hash: of those that share it the one with the smallest name. -/
def find? (index : MemberIndex) (h : NameHash) : Option Entry :=
  index.entries[index.start h]?.filter (·.hash == h)

/-- The first entry of a hash, found by looking at all in turn. -/
def findLinear? (index : MemberIndex) (h : NameHash) : Option Entry :=
  index.entries.toList.find? (·.hash == h)

/-- The entry of a name, found by its hash and confirmed by the name. -/
def findNamed? (index : MemberIndex) (name : String) : Option Entry :=
  let h := Name.hash name
  ((index.entries.toList.drop (index.start h)).takeWhile (·.hash == h)).find? (·.name == name)

end MemberIndex

/-! The methods of a class by slot. A slot keeps its number in every class that inherits it. -/

/-- A method in its slot: the function that runs, its type, and its type once a receiver is bound. -/
structure MethodEntry where
  name : String
  function : Nat
  type : TypeId
  closureType : Option TypeId
  deriving DecidableEq, Repr, Inhabited

def MethodEntry.hash (m : MethodEntry) : NameHash := Name.hash m.name

structure MethodTable where
  entries : List MethodEntry := []
  deriving DecidableEq, Repr, Inhabited

namespace MethodTable

def size (table : MethodTable) : Nat := table.entries.length

def get? (table : MethodTable) (slot : Nat) : Option MethodEntry := table.entries[slot]?

def slotOf? (table : MethodTable) (name : String) : Option Nat :=
  table.entries.findIdx? (·.name == name)

/-- Gives a method the next free slot. -/
def add (table : MethodTable) (m : MethodEntry) : MethodTable := ⟨table.entries ++ [m]⟩

/-- Puts a method in a slot that is in use. -/
def replace? (table : MethodTable) (slot : Nat) (m : MethodEntry) : Option MethodTable :=
  if slot < table.size then some ⟨table.entries.set slot m⟩ else none

end MethodTable

/-! The layout of a class: the fields of the whole chain of super classes, the oldest class first, and
the merged method table. -/

/-- Fields and methods of a class together with all that it inherits. -/
structure Members where
  fields : Region Field
  methods : MethodTable
  deriving DecidableEq, Repr, Inhabited

/-- What a member is when it is found in a layout. -/
inductive Member
  /-- A stored field: its position among all fields, its offset from the start of the instance, its type. -/
  | field (index offset : Nat) (type : TypeId)
  /-- A method slot: the function in it and its type, receiver first. -/
  | method (slot function : Nat) (type : TypeId)
  deriving DecidableEq, Repr, Inhabited

structure ClassLayout where
  type : TypeId
  name : String
  parent : Option TypeId
  members : Members
  index : MemberIndex
  /-- The function that compares two instances. -/
  compareFunction : Option Nat
  /-- Does a field hold an address? -/
  hasPointer : Bool
  deriving DecidableEq, Repr, Inhabited

namespace Members

/-- Instances start with their type; the first field of a class without super class comes right after. -/
def empty : Members := ⟨.empty Kind.wordSize, {}⟩

def hasField (m : Members) (name : String) : Bool := m.fields.values.any (·.name == name)

def hasMethod (m : Members) (name : String) : Bool := (m.methods.slotOf? name).isSome

/-- Adds a field that a class declares. Fields without name never clash. -/
def addField (r : Registry) (owner : String) (m : Members) (f : Field) : Except LayoutError Members :=
  if f.name ≠ "" ∧ m.hasField f.name then
    .error (.duplicateField owner f.name)
  else if f.name ≠ "" ∧ m.hasMethod f.name then
    .error (.memberConflict owner f.name)
  else
    match r.kind f.type with
    | .ok k => .ok { m with fields := m.fields.push k f }
    | .error e => .error (.type e)

/-- Adds a method that a class declares: in the slot that it overrides, else in the next free one. -/
def addMethod (r : Registry) (owner : String) (m : Members) (d : Method) : Except LayoutError Members :=
  if m.hasField d.name then
    .error (.memberConflict owner d.name)
  else
    match r.function d.type with
    | .error _ => .error (.notAFunction owner d.name)
    | .ok _ =>
      let entry : MethodEntry := ⟨d.name, d.function, d.type, r.closureType? d.type⟩
      match m.methods.slotOf? d.name with
      | none => .ok { m with methods := m.methods.add entry }
      | some slot =>
        match m.methods.get? slot with
        | none => .ok m
        | some inherited =>
          if r.overrides inherited.type d.type then
            .ok { m with methods := (m.methods.replace? slot entry).getD m.methods }
          else
            .error (.incompatibleOverride owner d.name)

/-- Adds the methods that a class declares; `earlier` are the names of those before. -/
def addMethods (r : Registry) (owner : String) (earlier : List String) (m : Members) :
    List Method → Except LayoutError Members
  | [] => .ok m
  | d :: rest =>
    if d.name ∈ earlier then .error (.duplicateMethod owner d.name)
    else
      match m.addMethod r owner d with
      | .ok m => m.addMethods r owner (d.name :: earlier) rest
      | .error e => .error e

/-- Adds what a class declares: fields first, then methods. -/
def extend (r : Registry) (m : Members) (c : Class) : Except LayoutError Members := do
  let m ← c.fields.foldlM (addField r c.name) m
  m.addMethods r c.name [] c.methods

/-- The entries of the fields that have a name. -/
def fieldEntries (m : Members) : List Entry :=
  (m.fields.values.zipIdx.filter (·.1.name != "")).map fun (f, i) => ⟨f.hash, f.name, f.type, .field i⟩

def methodEntries (m : Members) : List Entry :=
  m.methods.entries.zipIdx.map fun (d, slot) => ⟨d.hash, d.name, d.type, .method slot⟩

def toIndex (m : Members) : MemberIndex := .ofList (m.fieldEntries ++ m.methodEntries)

/-- The method of this name compares two instances. -/
def compareName : String := "__compare"

end Members

namespace ClassLayout

def size (c : ClassLayout) : Nat := c.members.fields.stop

/-- All fields with their offsets, the oldest class first. -/
def fields (c : ClassLayout) : List (Placed Field) := c.members.fields.items

def methods (c : ClassLayout) : MethodTable := c.members.methods

/-- What an entry of the index leads to. -/
def member? (c : ClassLayout) (e : Entry) : Option Member :=
  match e.place with
  | .field i => (c.members.fields.get? i).map fun p => .field i p.offset p.item.type
  | .method slot => (c.methods.get? slot).map fun d => .method slot d.function d.type

def resolve? (c : ClassLayout) (h : NameHash) : Option Member := (c.index.find? h).bind c.member?

def resolveNamed? (c : ClassLayout) (name : String) : Option Member :=
  (c.index.findNamed? name).bind c.member?

end ClassLayout

namespace Registry

/-- A class and its super classes, nearest first, found within `steps` steps up. -/
def lineageFrom (r : Registry) : (steps : Nat) → TypeId → Except TypeError (List Class)
  | steps, t =>
    match r.classOf t with
    | .error e => .error e
    | .ok c =>
      match c.super with
      | none => .ok [c]
      | some up =>
        match steps with
        | 0 => .error (.cyclicInheritance c.name)
        | steps + 1 => (r.lineageFrom steps up).map (c :: ·)

def lineage (r : Registry) (t : TypeId) : Except TypeError (List Class) := r.lineageFrom r.size t

def membersOf (r : Registry) : List Class → Except LayoutError Members
  | [] => .ok .empty
  | c :: ancestors => do
    let inherited ← r.membersOf ancestors
    inherited.extend r c

def classLayout (r : Registry) (t : TypeId) : Except LayoutError ClassLayout := do
  let c ← LayoutError.ofType (r.classOf t)
  let chain ← LayoutError.ofType (r.lineage t)
  let m ← r.membersOf chain
  return {
    type := t
    name := c.name
    parent := c.super
    members := m
    index := m.toIndex
    compareFunction := ((m.methods.slotOf? Members.compareName).bind m.methods.get?).map MethodEntry.function
    hasPointer := m.fields.values.any fun f => (r.kind? f.type).any Kind.isPointer }

end Registry

/-! The layout of a virtual type: where its fields lie when a virtual value stores them itself. -/

structure ViewLayout where
  type : TypeId
  fields : Region Field
  index : MemberIndex
  deriving DecidableEq, Repr, Inhabited

namespace ViewLayout

def dataSize (v : ViewLayout) : Nat := v.fields.stop

def fieldCount (v : ViewLayout) : Nat := v.fields.length

def position? (v : ViewLayout) (h : NameHash) : Option Nat := (v.index.find? h).bind (·.place.field?)

end ViewLayout

namespace Registry

/-- Adds a field of a virtual type; a second field of one name is refused. -/
def addViewField (r : Registry) (owner : TypeId) (fields : Region Field) (f : Field) :
    Except LayoutError (Region Field) :=
  if fields.values.any (·.name == f.name) then
    .error (.duplicateField (r.typeName owner) f.name)
  else
    match r.kind f.type with
    | .ok k => .ok (fields.push k f)
    | .error e => .error (.type e)

def viewLayout (r : Registry) (t : TypeId) : Except LayoutError ViewLayout := do
  let declared ← LayoutError.ofType (r.virtual t)
  let fields ← declared.foldlM (r.addViewField t) (.empty 0)
  let entries := declared.zipIdx.map fun (f, i) => ⟨f.hash, f.name, f.type, .field i⟩
  return ⟨t, fields, .ofList entries⟩

end Registry

/-! The layouts of an enum's constructs. A value starts with its type and the number of its construct;
the parameters follow. -/

structure ConstructLayout where
  name : String
  params : Region TypeId
  /-- Does a parameter hold an address? -/
  hasPointer : Bool
  deriving DecidableEq, Repr, Inhabited

namespace ConstructLayout

def size (c : ConstructLayout) : Nat := c.params.stop

def arity (c : ConstructLayout) : Nat := c.params.length

end ConstructLayout

/-- The layouts of all constructs of an enum, in order. -/
structure VariantLayout where
  type : TypeId
  name : String
  constructs : List ConstructLayout
  deriving DecidableEq, Repr, Inhabited

namespace VariantLayout

/-- The bytes before the first parameter. -/
def headerSize : Nat := 16

def construct? (v : VariantLayout) (i : Nat) : Option ConstructLayout := v.constructs[i]?

end VariantLayout

namespace Registry

def addParam (r : Registry) (params : Region TypeId) (t : TypeId) : Except LayoutError (Region TypeId) :=
  match r.kind t with
  | .ok k => .ok (params.push k t)
  | .error e => .error (.type e)

def constructLayout (r : Registry) (c : Construct) : Except LayoutError ConstructLayout := do
  let params ← c.params.foldlM r.addParam (.empty VariantLayout.headerSize)
  return ⟨c.name, params, c.params.any fun t => (r.kind? t).any Kind.isPointer⟩

def variantLayout (r : Registry) (t : TypeId) : Except LayoutError VariantLayout := do
  let (name, constructs) ← LayoutError.ofType (r.enum t)
  return ⟨t, name, ← constructs.mapM r.constructLayout⟩

end Registry

end ObjectModel
