import ObjectModel.Value.Action

/-!
Values whose fields are found anew: open objects, which get their fields one by one, and views, which
show another value through the fields of a virtual type.
-/

set_option autoImplicit false

namespace ObjectModel

/-! Open objects: values that get their fields one by one. A table sorted by hash says for every field
what type it has now and where in the storage it lies. -/

/-- A field of an open object: its hash, the type of what is stored, and its offset in the storage. -/
structure OpenField where
  hash : NameHash
  type : TypeId
  offset : Nat
  deriving DecidableEq, Repr, Inhabited

namespace OpenObject

-- Places in the header, behind the type word.
def tableOffset : Nat := 8

def storageOffset : Nat := 16

def countOffset : Nat := 24

def storageSizeOffset : Nat := 28

/-- Where the first view of the object lies. -/
def viewsOffset : Nat := 32

def size : Nat := 40

def entrySize : Nat := 12

def tableAddress (m : Memory) (v : Addr) : Addr := m.word (v.toNat + tableOffset)

def storage (m : Memory) (v : Addr) : Addr := m.word (v.toNat + storageOffset)

/-- The bytes in use in the storage. -/
def storageSize (m : Memory) (v : Addr) : Nat := m.count (v.toNat + storageSizeOffset)

def readEntry (m : Memory) (a : Nat) : OpenField :=
  { hash := (m.half a).toInt32
    type := ⟨m.half (a + 4)⟩
    offset := (m.half (a + 8)).toNat }

def writeEntry (m : Memory) (a : Nat) (f : OpenField) : Memory :=
  ((m.setHalf a f.hash.toUInt32).setHalf (a + 4) f.type.raw).setHalf (a + 8) (UInt32.ofNat f.offset)

def readEntries (m : Memory) (a : Nat) : (count : Nat) → List OpenField
  | 0 => []
  | count + 1 => readEntry m a :: readEntries m (a + entrySize) count

def writeEntries (m : Memory) (a : Nat) : List OpenField → Memory
  | [] => m
  | f :: rest => writeEntries (writeEntry m a f) (a + entrySize) rest

/-- The fields of an open object. -/
def table (m : Memory) (v : Addr) : List OpenField :=
  readEntries m (tableAddress m v).toNat (m.count (v.toNat + countOffset))

/-- The number of fields of smaller hash, and so the position of a hash in a sorted table. -/
def position (fields : List OpenField) (h : NameHash) : Nat :=
  (fields.takeWhile (·.hash < h)).length

/-- The field of a hash in a sorted table. -/
def find? (fields : List OpenField) (h : NameHash) : Option OpenField :=
  fields[position fields h]?.filter (·.hash == h)

/-- The fields of a value, which must be an open object. -/
def fields (w : World) (m : Memory) (v : Addr) : Reading (List OpenField) := do
  if (← w.kindOf m v) = .dynobj then
    return table m v
  else
    throw (.invalidCast (m.typeOf v) .dynobj)

end OpenObject

namespace Action

def newOpenObject : Action Addr := newValue OpenObject.size .pointers .dynobj

/-- Moves the storage of an open object to a new block of a given size. -/
def growStorage (v : Addr) (size : Nat) : Action Unit := do
  let a ← allocate size .pointers
  change fun m =>
    let m := m.copy (OpenObject.storage m v).toNat a.toNat (OpenObject.storageSize m v)
    (m.setWord (v.toNat + OpenObject.storageOffset) a).setCount
      (v.toNat + OpenObject.storageSizeOffset) size

/-- Adds a field to an open object, at the end of its storage. -/
def addField (v : Addr) (h : NameHash) (t : TypeId) : Action OpenField := do
  let k ← ask fun w _ => w.kind t
  let offset ← look fun m => k.alignUp (OpenObject.storageSize m v)
  let old ← look (OpenObject.table · v)
  let a ← allocate ((old.length + 1) * OpenObject.entrySize) .noPointers
  let field : OpenField := ⟨h, t, offset⟩
  let position := OpenObject.position old h
  change fun m => OpenObject.writeEntries m a.toNat (old.take position ++ field :: old.drop position)
  growStorage v (offset + k.size)
  change fun m =>
    (m.setWord (v.toNat + OpenObject.tableOffset) a).setCount (v.toNat + OpenObject.countOffset)
      (old.length + 1)
  return field

/-- Gives the field at a position of the table another type: where it lies, if what it has fits, else
at the end of the storage. -/
def retypeField (v : Addr) (position : Nat) (old : OpenField) (t : TypeId) : Action OpenField := do
  let k ← ask fun w _ => w.kind t
  let oldKind ← ask fun w _ => w.kind old.type
  let field ←
    if k.size ≤ oldKind.size ∧ k.alignUp old.offset = old.offset then do
      change fun m => m.clear ((OpenObject.storage m v).toNat + old.offset) oldKind.size
      pure { old with type := t }
    else do
      let offset ← look fun m => k.alignUp (OpenObject.storageSize m v)
      growStorage v (offset + k.size)
      pure { old with type := t, offset }
  change fun m =>
    OpenObject.writeEntry m ((OpenObject.tableAddress m v).toNat + position * OpenObject.entrySize) field
  return field

end Action

/-! Views: values of virtual types. A view shows another value through the fields of its type and copies
nothing: each field has a path to the storage or to a method of that value, or is looked up there by
name each time. A virtual value may also stand alone and store its fields itself. The views of an
open object, and those of a virtual value that stands alone, form a chain, so that the same type gives
the same view again and all of them can be brought up to date. -/

/-- How a view reaches one of its fields in the value that it shows. -/
inductive Path
  /-- At this offset in the storage. -/
  | direct (offset : Nat)
  /-- In this method slot. -/
  | method (slot : Nat)
  /-- By looking the name up in the value. -/
  | indirect
  deriving DecidableEq, Repr, Inhabited

namespace Path

/-- The word for a path that goes by name. -/
def indirectWord : UInt64 := 0x8000000000000000

/-- Only slots below this number can be told from the word for a path that goes by name. -/
def slotBound : Nat := 0x7FFFFFFFFFFFFFFF

/-- A path as a machine word: offsets count from zero up, slots from the last word down. -/
def toWord : Path → UInt64
  | direct offset => UInt64.ofNat offset
  | method slot => UInt64.ofNat (UInt64.size - 1 - slot)
  | indirect => indirectWord

/-- The path that a machine word stands for. -/
def ofWord (w : UInt64) : Path :=
  if w = indirectWord then indirect
  else if w < indirectWord then direct w.toNat
  else method (UInt64.size - 1 - w.toNat)

end Path

namespace View

-- Places in the header, behind the type word.
def wrappedOffset : Nat := 8

def nextOffset : Nat := 16

def pathsOffset : Nat := 24

def storageOffset : Nat := 32

def size : Nat := 40

/-- The value that a view shows; null if it stands alone. -/
def wrapped (m : Memory) (v : Addr) : Addr := m.word (v.toNat + wrappedOffset)

def next (m : Memory) (v : Addr) : Addr := m.word (v.toNat + nextOffset)

def storage (m : Memory) (v : Addr) : Addr := m.word (v.toNat + storageOffset)

def path (m : Memory) (v : Addr) (i : Nat) : Path :=
  .ofWord (m.word ((m.word (v.toNat + pathsOffset)).toNat + i * Kind.wordSize))

def writePaths (m : Memory) (a : Nat) : List Path → Memory
  | [] => m
  | p :: rest => writePaths (m.setWord a p.toWord) (a + Kind.wordSize) rest

/-- The path to a stored field: direct if it has the declared type. -/
def storedPath (r : Registry) (declared : TypeId) (offset : Nat) (stored : TypeId) : Path :=
  if r.sameType stored declared then .direct offset else .indirect

/-- The path to a member of an instance. A method is reached by its slot if it has the declared type
once its receiver is bound, and if the slot has room in a path. -/
def instancePath? (r : Registry) (c : ClassLayout) (f : Field) : Option Path :=
  match c.resolve? f.hash with
  | none => none
  | some (.field _ offset t) => some (storedPath r f.type offset t)
  | some (.method slot _ t) =>
    some (if (r.closureType? t).any (r.sameType · f.type) ∧ slot < Path.slotBound then .method slot
      else .indirect)

def openPath? (r : Registry) (fields : List OpenField) (f : Field) : Option Path :=
  (OpenObject.find? fields f.hash).map fun o => storedPath r f.type o.offset o.type

def standalonePath? (r : Registry) (source : ViewLayout) (f : Field) : Option Path := do
  let i ← source.position? f.hash
  let p ← source.fields.get? i
  return storedPath r f.type p.offset p.item.type

/-- The paths of all fields, each of which must be there. -/
def require (path? : Field → Option Path) : List Field → Reading (List Path)
  | [] => .ok []
  | f :: rest =>
    match path? f with
    | none => .error (.incompatibleVirtual f.name)
    | some p => (require path? rest).map (p :: ·)

def paths (w : World) (m : Memory) (layout : ViewLayout) (v : Addr) : Reading (List Path) := do
  let t := m.typeOf v
  match ← w.kind t with
  | .object =>
    let c ← Reading.ofLayout (w.registry.classLayout t)
    require (instancePath? w.registry c) layout.fields.values
  | .dynobj => require (openPath? w.registry (OpenObject.table m v)) layout.fields.values
  | .virtual =>
    let source ← Reading.ofLayout (w.registry.viewLayout t)
    require (standalonePath? w.registry source) layout.fields.values
  | _ => throw (.invalidCast t layout.type)

/-- The first view in a chain, of at most `bound` views, whose type is the same as `t`. -/
def findInChain (r : Registry) (m : Memory) (t : TypeId) : (bound : Nat) → (head : Addr) → Reading (Option Addr)
  | bound, head =>
    if head = 0 then .ok none
    else if r.sameType (m.typeOf head) t then .ok (some head)
    else
      match bound with
      | 0 => .error .endlessViews
      | bound + 1 => findInChain r m t bound (next m head)

/-- The value that a virtual value shows. -/
def value (w : World) (m : Memory) (v : Addr) : Reading Addr := do
  if (← w.kindOf m v) = .virtual then
    return wrapped m v
  else
    throw (.invalidCast (m.typeOf v) .dynamic)

/-- The paths of a virtual value as they are now. -/
def currentPaths (w : World) (m : Memory) (v : Addr) : Reading (List Path) := do
  let layout ← Reading.ofLayout (w.registry.viewLayout (m.typeOf v))
  return (List.range layout.fieldCount).map (path m v)

/-- The code address of the method that a hash finds in the instance that a view shows. -/
def method? (w : World) (m : Memory) (v : Addr) (h : NameHash) : Reading (Option UInt64) := do
  let u ← value w m v
  if u = 0 then
    return none
  else if (← w.kindOf m u) = .object then
    let c ← Reading.ofLayout (w.registry.classLayout (m.typeOf u))
    match c.resolve? h with
    | some (.method _ function _) => return w.functions.code? function
    | _ => return none
  else
    return none

end View

namespace Action

/-- A new virtual value that stands alone, all fields zero. -/
def newStandalone (t : TypeId) : Action Addr := do
  let layout ← ask fun w _ => .ofLayout (w.registry.viewLayout t)
  let dataOffset := View.size + layout.fieldCount * Kind.wordSize
  let v ← newValue (dataOffset + layout.dataSize) .pointers t
  change fun m =>
    View.writePaths
      ((m.setWord (v.toNat + View.pathsOffset) (UInt64.ofNat (v.toNat + View.size))).setWord
        (v.toNat + View.storageOffset) (UInt64.ofNat (v.toNat + dataOffset)))
      (v.toNat + View.size) (layout.fields.offsets.map .direct)
  return v

def newView (t : TypeId) (value : Addr) : Action Addr := do
  let layout ← ask fun w _ => .ofLayout (w.registry.viewLayout t)
  let paths ← ask fun w m => View.paths w m layout value
  let v ← newValue (View.size + paths.length * Kind.wordSize) .pointers t
  change fun m =>
    View.writePaths
      ((m.setWord (v.toNat + View.wrappedOffset) value).setWord
        (v.toNat + View.pathsOffset) (UInt64.ofNat (v.toNat + View.size)))
      (v.toNat + View.size) paths
  return v

/-- The view of a type in the chain of a value, whose head lies at an address; a new one goes first. -/
def chainedView (t : TypeId) (value : Addr) (headAddress : Nat) : Action Addr := do
  let bound ← chainBound
  let head ← look (·.word headAddress)
  match ← ask fun w m => View.findInChain w.registry m t bound head with
  | some v => return v
  | none =>
    let v ← newView t value
    change fun m => (m.setWord (v.toNat + View.nextOffset) head).setWord headAddress v
    return v

/-- A view of a value, found within `bound` values that show each other. -/
def toViewFrom (t : TypeId) : (bound : Nat) → (v : Addr) → Action Addr
  | bound, v => do
    let source ← look (·.typeOf v)
    match ← ask fun w _ => w.kind source with
    | .virtual =>
      if (← world).registry.sameType source t then
        return v
      else
        let inner ← look (View.wrapped · v)
        if inner = 0 then
          chainedView t v (v.toNat + View.nextOffset)
        else
          match bound with
          | 0 => fail .endlessViews
          | bound + 1 => toViewFrom t bound inner
    | .dynobj => chainedView t v (v.toNat + OpenObject.viewsOffset)
    | .object => newView t v
    | _ => fail (.invalidCast source t)

def toView (t : TypeId) (v : Addr) : Action Addr := do
  toViewFrom t (← chainBound) v

/-- Brings the views of an open object up to date, from `head` on. -/
def refreshFrom (value : Addr) : (bound : Nat) → (head : Addr) → Action Unit
  | bound, head =>
    if head = 0 then
      return ()
    else do
      let layout ← ask fun w m => .ofLayout (w.registry.viewLayout (m.typeOf head))
      let paths ← ask fun w m => View.paths w m layout value
      change fun m => View.writePaths m (m.word (head.toNat + View.pathsOffset)).toNat paths
      match bound with
      | 0 => fail .endlessViews
      | bound + 1 => do
        let next ← look (View.next · head)
        refreshFrom value bound next

def refreshViews (v : Addr) : Action Unit := do
  let bound ← chainBound
  let head ← look (·.word (v.toNat + OpenObject.viewsOffset))
  refreshFrom v bound head

/-- Writes a field of an open object. A new field is added, and one of another type is retyped. -/
def setOpenField (v : Addr) (h : NameHash) (t : TypeId) (s : Slot) : Action Unit := do
  let table ← look (OpenObject.table · v)
  match OpenObject.find? table h with
  | some f =>
    if (← world).registry.sameType f.type t then
      store f
    else
      store (← retypeField v (OpenObject.position table h) f t)
      refreshViews v
  | none =>
    store (← addField v h t)
    refreshViews v
where
  store (f : OpenField) : Action Unit :=
    change fun m => m.write ((OpenObject.storage m v).toNat + f.offset) s

end Action

end ObjectModel
