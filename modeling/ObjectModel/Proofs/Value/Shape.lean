import ObjectModel.Proofs.Layout.Placement
import ObjectModel.Proofs.Memory.Blocks
import ObjectModel.Proofs.Value.Typing

/-!
How values lie in a heap. Every value has a header in its own block; the table and the storage of an
open object are blocks of their own. What the fields of instances, of open objects and of virtual
values that stand alone hold is of the type that is declared or recorded for them. Views lead to
values that are no views, and the views of an open object, as those of a virtual value that stands
alone, are chained.
-/

set_option autoImplicit false
set_option relaxedAutoImplicit false

namespace ObjectModel

def World.ofTypes (r : Registry) : World := { registry := r }

theorem World.kind_eq_ok {w : World} {t : TypeId} {k : Kind} :
    w.kind t = .ok k ↔ w.registry.kind? t = some k :=
  Outcome.mapError_eq_ok.trans Registry.kind_eq_ok

/-- The bytes at the start of a value that its fields leave alone. -/
def headerSize (r : Registry) (m : Memory) (v : Addr) : Nat :=
  match r.get? (m.typeOf v) with
  | some (.object _) | some (.enum _ _) => Kind.wordSize
  | some (.array _) => ArrayValue.dataOffset
  | some (.function _ _) => Closure.size
  | some (.virtual fields) => View.size + fields.length * Kind.wordSize
  | some .dynobj => OpenObject.size
  | _ => Box.size

/-- Where in a header there are addresses, by the kind of the type; a box may hold one as its content. -/
def Kind.addressOffsets : Kind → List Nat
  | function => [Closure.receiverOffset]
  | virtual => [View.wrappedOffset, View.nextOffset, View.pathsOffset, View.storageOffset]
  | dynobj => [OpenObject.tableOffset, OpenObject.storageOffset, OpenObject.viewsOffset]
  | bytes | type | ref | abstract => [Box.payloadOffset]
  | _ => []

/-- The block of a value has room for addresses: in the header, in a field, or in its elements. Values of
enums differ in this, and do not change. -/
inductive NeedsPointers (r : Registry) (m : Memory) (v : Addr) : Prop
  | header {k : Kind} : r.kindAt m v = some k → k.addressOffsets ≠ [] → NeedsPointers r m v
  | fields {c : ClassLayout} : r.classLayout (m.typeOf v) = .ok c → c.hasPointer = true →
    NeedsPointers r m v
  | elements {t : TypeId} {n : Nat} {k : Kind} : ArrayValue.parts (.ofTypes r) m v = .ok (t, n) →
    r.kind? t = some k → k.isPointer = true → NeedsPointers r m v

/-- A field of a type lies at an offset in a block: in an instance, in a virtual value that stands
alone behind its paths, or in the storage of an open object. -/
inductive Holds (r : Registry) (values : Set Addr) (m : Memory) : Addr → Nat → TypeId → Prop
  | instance {v : Addr} {c : ClassLayout} {p : Placed Field} :
    v ∈ values → r.classLayout (m.typeOf v) = .ok c → p ∈ c.fields →
      Holds r values m v p.offset p.item.type
  | standalone {v : Addr} {l : ViewLayout} {p : Placed Field} :
    v ∈ values → r.viewLayout (m.typeOf v) = .ok l → View.wrapped m v = 0 → p ∈ l.fields.items →
      Holds r values m v (View.size + l.fieldCount * Kind.wordSize + p.offset) p.item.type
  | openField {v : Addr} {f : OpenField} :
    v ∈ values → r.kindAt m v = some .dynobj → f ∈ OpenObject.table m v →
      Holds r values m (OpenObject.storage m v) f.offset f.type

/-- The table or the storage of an open object, once it has them. -/
def IsPart (m : Memory) (v a : Addr) : Prop :=
  a ≠ 0 ∧ (a = OpenObject.tableAddress m v ∨ a = OpenObject.storage m v)

def OpenField.Apart (r : Registry) (f g : OpenField) : Prop :=
  ∀ k l, r.kind? f.type = some k → r.kind? g.type = some l →
    f.offset + k.size ≤ g.offset ∨ g.offset + l.size ≤ f.offset

/-- An open object at an address: its table is sorted and lies in a block that is no value, as does its
storage, in which the fields are aligned and apart. The table is so short that its length has room in
the header. -/
structure OpenAt (r : Registry) (h : Heap) (values : Set Addr) (v : Addr) : Prop where
  table_out : OpenObject.tableAddress h.memory v ∉ values
  storage_out : OpenObject.storage h.memory v ∉ values
  table_room : (OpenObject.table h.memory v = [] ∧ OpenObject.tableAddress h.memory v = 0) ∨
    h.Owns (OpenObject.tableAddress h.memory v)
      ((OpenObject.table h.memory v).length * OpenObject.entrySize)
  storage_room : OpenObject.storage h.memory v = 0 ∨ h.Owns (OpenObject.storage h.memory v) 0
  storage_pointed : OpenObject.storage h.memory v ≠ 0 → h.PointersAt (OpenObject.storage h.memory v)
  parted : OpenObject.tableAddress h.memory v = OpenObject.storage h.memory v →
    OpenObject.tableAddress h.memory v = 0
  few : 6 * (OpenObject.table h.memory v).length ^ 2 ≤ h.next
  sorted : (OpenObject.table h.memory v).Pairwise (·.hash < ·.hash)
  placed : ∀ f ∈ OpenObject.table h.memory v, ∃ k, r.kind? f.type = some k ∧ k.align ∣ f.offset ∧
    f.offset + k.size ≤ OpenObject.storageSize h.memory v ∧
      h.Owns (OpenObject.storage h.memory v) (f.offset + k.size)
  apart : (OpenObject.table h.memory v).Pairwise (OpenField.Apart r)

/-- A value that views show: an instance, an open object, or a virtual value that stands alone. -/
def IsRoot (r : Registry) (m : Memory) (u : Addr) : Prop :=
  r.kindAt m u = some .object ∨ r.kindAt m u = some .dynobj ∨
    (r.kindAt m u = some .virtual ∧ View.wrapped m u = 0)

/-- The root that a value shows, or that it is itself. -/
structure RootOf (r : Registry) (m : Memory) (u v : Addr) : Prop where
  ne_zero : u ≠ 0
  root : IsRoot r m u
  reached : v = u ∨ (r.kindAt m v = some .virtual ∧ View.wrapped m v = u)

def IsChained (r : Registry) (m : Memory) (u : Addr) : Prop :=
  r.kindAt m u = some .dynobj ∨ (r.kindAt m u = some .virtual ∧ View.wrapped m u = 0)

/-- A virtual value at an address. One that stands alone has its fields behind its paths, which are
direct; any other one shows a root of another type, in which every field of its type is found. -/
structure ViewAt (r : Registry) (h : Heap) (values : Set Addr) (v : Addr) (l : ViewLayout) : Prop where
  paths_at : (h.memory.word (v.toNat + View.pathsOffset)).toNat = v.toNat + View.size
  standalone : View.wrapped h.memory v = 0 →
    (View.storage h.memory v).toNat = v.toNat + (View.size + l.fieldCount * Kind.wordSize) ∧
      h.Owns v (View.size + l.fieldCount * Kind.wordSize + l.dataSize) ∧
        ∀ i p, l.fields.items[i]? = some p → View.path h.memory v i = .direct p.offset
  shown : View.wrapped h.memory v ≠ 0 →
    View.wrapped h.memory v ∈ values ∧ IsRoot r h.memory (View.wrapped h.memory v) ∧
      ∃ paths, View.paths (.ofTypes r) h.memory l (View.wrapped h.memory v) = .ok paths
  differs : View.wrapped h.memory v ≠ 0 →
    r.sameType (h.memory.typeOf v) (h.memory.typeOf (View.wrapped h.memory v)) = false

def Linked (m : Memory) : Addr → List Addr → Prop
  | a, [] => a = 0
  | a, w :: rest => a = w ∧ w ≠ 0 ∧ Linked m (View.next m w) rest

def chainHead (r : Registry) (m : Memory) (u : Addr) : Nat :=
  u.toNat + if r.kindAt m u = some .dynobj then OpenObject.viewsOffset else View.nextOffset

/-- The views of a value, all of them and each once, of types that differ. -/
structure ChainAt (r : Registry) (m : Memory) (values : Set Addr) (u : Addr) (chain : List Addr) :
    Prop where
  linked : Linked m (m.word (chainHead r m u)) chain
  nodup : chain.Nodup
  mem : ∀ w, w ∈ chain ↔ w ∈ values ∧ r.kindAt m w = some .virtual ∧ View.wrapped m w = u
  differ : chain.Pairwise fun w x => r.sameType (m.typeOf w) (m.typeOf x) = false

/-- A heap in which all values are in order, but for the chains of views and for the paths of the views
in `stale`. -/
structure Arranged (r : Registry) (stale : Set Addr) (h : Heap) (values : Set Addr) : Prop where
  blocks : h.WellFormed
  kinds : ∀ v ∈ values, ∃ k, r.kindAt h.memory v = some k ∧ k.describesValue = true
  owned : ∀ v ∈ values, h.Owns v (headerSize r h.memory v)
  instances : ∀ v ∈ values, r.kindAt h.memory v = some .object →
    ∃ c, r.classLayout (h.memory.typeOf v) = .ok c ∧ h.Owns v c.size
  arrays : ∀ v ∈ values, ∀ t n, ArrayValue.parts (.ofTypes r) h.memory v = .ok (t, n) →
    ∃ k, r.kind? t = some k ∧ h.Owns v (ArrayValue.dataOffset + n * k.size)
  pointed : ∀ v ∈ values, NeedsPointers r h.memory v → h.PointersAt v
  opens : ∀ v ∈ values, r.kindAt h.memory v = some .dynobj → OpenAt r h values v
  parts : ∀ u ∈ values, ∀ v ∈ values, r.kindAt h.memory u = some .dynobj →
    r.kindAt h.memory v = some .dynobj → ∀ a, IsPart h.memory u a → IsPart h.memory v a → u = v
  views : ∀ v ∈ values, r.kindAt h.memory v = some .virtual →
    ∃ l, r.viewLayout (h.memory.typeOf v) = .ok l ∧ ViewAt r h values v l
  exact : ∀ v ∈ values, v ∉ stale → ∀ l, r.viewLayout (h.memory.typeOf v) = .ok l →
    View.wrapped h.memory v ≠ 0 → View.paths (.ofTypes r) h.memory l (View.wrapped h.memory v) =
      .ok ((List.range l.fieldCount).map (View.path h.memory v))

/-- A heap in which the values and the chains of views are in order, whatever the fields hold. -/
structure Ordered (r : Registry) (stale : Set Addr) (h : Heap) (values : Set Addr) : Prop where
  arranged : Arranged r stale h values
  chains : ∀ u ∈ values, IsChained r h.memory u → ∃ chain, ChainAt r h.memory values u chain

/-- A heap in order in which what the fields hold is of their types. -/
structure Sound (r : Registry) (held : Addr → TypeId → Prop) (stale : Set Addr) (h : Heap)
    (values : Set Addr) : Prop extends Ordered r stale h values where
  content : ∀ b o t k, Holds r values h.memory b o t → r.kind? t = some k →
    WellTyped r held values h.memory t (h.memory.read (b.toNat + o) k)

end ObjectModel
