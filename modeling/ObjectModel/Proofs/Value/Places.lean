import ObjectModel.Proofs.Layout.Faults
import ObjectModel.Proofs.Value.Casts

/-!
Where the values of a type lie, and that an access to one of them leaves the others alone. The fields of
a class come behind those of its super class, the fields of a virtual type at the start of its data, and
the parameters of a construct behind its number: each at the least offset that suits its kind.
-/

set_option autoImplicit false
set_option relaxedAutoImplicit false

namespace ObjectModel

namespace Region

variable {α : Type} {r : Registry} {typeOf : α → TypeId} {first stop : Nat} {places : List (Placed α)}

/-- Places between `first` and `stop` that have nothing to do with each other. Each is aligned, and no two
overlap. A slot in one of them, such as a conversion to its type gives, leaves all bytes alone that are
not its own, and what is read there depends on these bytes only. -/
structure Separate (r : Registry) (typeOf : α → TypeId) (first : Nat) (places : List (Placed α))
    (stop : Nat) : Prop where
  first_le : first ≤ stop
  aligned : ∀ p ∈ places, ∃ k, r.kind? (typeOf p.item) = some k ∧ k.align ∣ p.offset ∧
    first ≤ p.offset ∧ p.offset + k.size ≤ stop
  disjoint : ∀ (i j : Nat) p q k l, i ≠ j → places[i]? = some p → places[j]? = some q →
    r.kind? (typeOf p.item) = some k → r.kind? (typeOf q.item) = some l →
      p.offset + k.size ≤ q.offset ∨ q.offset + l.size ≤ p.offset
  written : ∀ (i : Nat) p k s (m : Memory) base, places[i]? = some p →
    r.kind? (typeOf p.item) = some k → s.fits k = true →
      (m.write (base + p.offset) s).read (base + p.offset) k = s ∧
      (∀ a, a < base + first ∨ base + stop ≤ a → (m.write (base + p.offset) s).byte a = m.byte a) ∧
      ∀ (j : Nat) q l, i ≠ j → places[j]? = some q → r.kind? (typeOf q.item) = some l →
        ∀ a, base + q.offset ≤ a → a < base + q.offset + l.size →
          (m.write (base + p.offset) s).byte a = m.byte a
  read : ∀ p ∈ places, ∀ k (m n : Memory) base, r.kind? (typeOf p.item) = some k →
    (∀ a, base + p.offset ≤ a → a < base + p.offset + k.size → n.byte a = m.byte a) →
      n.read (base + p.offset) k = m.read (base + p.offset) k
  converted : ∀ p ∈ places, ∀ k (w : World) (h h' : Heap) s s' source, w.registry = r →
    r.kind? (typeOf p.item) = some k →
      Action.convert s source (typeOf p.item) w h = (.ok s', h') → s'.fits k = true

private theorem Packed.disjoint {region : Region α} {kindOf : α → Option Kind}
    (h : Packed kindOf first region) {i j : Nat} {p q : Placed α} {k l : Kind} (hij : i ≠ j)
    (hp : region.items[i]? = some p) (hq : region.items[j]? = some q) (hk : kindOf p.item = some k)
    (hl : kindOf q.item = some l) : p.offset + k.size ≤ q.offset ∨ q.offset + l.size ≤ p.offset := by
  obtain ⟨hi, rfl⟩ := List.getElem?_eq_some_iff.1 hp
  obtain ⟨hj, rfl⟩ := List.getElem?_eq_some_iff.1 hq
  have happart := List.pairwise_iff_getElem.1 h.apart
  rcases Nat.lt_or_gt_of_ne hij with hlt | hlt
  · exact Or.inl (happart i j hi hj hlt k hk)
  · exact Or.inr (happart j i hj hi hlt l hl)

theorem Packed.separate {region : Region α} (h : Packed (fun x => r.kind? (typeOf x)) first region) :
    Separate r typeOf first region.items region.stop := by
  refine ⟨h.start_le, ?_, ?_, ?_, ?_, ?_⟩
  · intro p hp
    obtain ⟨k, hk, hlow, hhigh, halign⟩ := h.placed p hp
    exact ⟨k, hk, halign, hlow, hhigh⟩
  · intro i j p q k l hij hp hq hk hl
    exact h.disjoint hij hp hq hk hl
  · intro i p k s m base hp hk hfits
    have hwidth := Slot.width_of_fits hfits
    obtain ⟨k', hk', hlow, hhigh, -⟩ := h.placed p (List.mem_of_getElem? hp)
    obtain rfl : k = k' := Option.some.inj (hk.symm.trans hk')
    have hchange := Memory.changesOnly_write m (base + p.offset) s
    refine ⟨m.read_write_same _ hfits, ?_, ?_⟩
    · intro a ha
      apply hchange
      omega
    · intro j q l hij hq hl a ha ha'
      have := h.disjoint hij hp hq hk hl
      apply hchange
      omega
  · intro p _ k m n base _ hsame
    exact Memory.SameOn.read hsame
  · intro p _ k w h h' s s' source hw hk hrun
    subst hw
    exact (Action.convert_fits hk).of_ok hrun

end Region

namespace Registry

variable {r : Registry} {t : TypeId}

/-- Classes, virtual types and the constructs of enums lay out what they declare in its order, each value
at the least offset that suits it: a class behind the type word or behind its super class, a virtual type
from the start, a construct behind the number of the construct. So no place overlaps another one, nor
what comes before the first. -/
theorem Built.places (h : r.Built) :
    (∀ t x, r.classLayout t = .ok x → ∃ c inherited own start,
      r.get? t = some (.object c) ∧ x.fields = inherited ++ own ∧ own.map Placed.item = c.fields ∧
      ((c.super = none ∧ inherited = [] ∧ start = 8) ∨
        ∃ up y, c.super = some up ∧ r.classLayout up = .ok y ∧ inherited = y.fields ∧ start = y.size) ∧
      Region.LaidOut r.fieldKind? start own x.size ∧
      Region.Separate r Field.type 8 x.fields x.size) ∧
    (∀ t v, r.viewLayout t = .ok v →
      r.get? t = some (.virtual (v.fields.items.map Placed.item)) ∧
      Region.LaidOut r.fieldKind? 0 v.fields.items v.dataSize ∧
      Region.Separate r Field.type 0 v.fields.items v.dataSize) ∧
    ∀ t name ds, r.get? t = some (.enum name ds) → ∃ v, r.variantLayout t = .ok v ∧
      v.constructs.length = ds.length ∧ ∀ i d, ds[i]? = some d → ∃ c, v.construct? i = some c ∧
        c.params.items.map Placed.item = d.params ∧
        Region.LaidOut r.kind? 16 c.params.items c.size ∧
        Region.Separate r id 16 c.params.items c.size := by
  refine ⟨?_, ?_, ?_⟩
  · intro t x hx
    obtain ⟨c, inherited, hc, hextend, hsuper⟩ := classLayout_extends hx
    obtain ⟨own, hown, hitems, hlaid⟩ := laidOut_extend hextend
    refine ⟨c, inherited.fields.items, own, inherited.fields.stop, hc, hown, hitems, ?_, hlaid,
      (classLayout_packed hx).separate⟩
    rcases hsuper with ⟨hnone, rfl⟩ | ⟨up, y, hsome, hy, rfl⟩
    · exact Or.inl ⟨hnone, rfl, rfl⟩
    · exact Or.inr ⟨up, y, hsome, hy, rfl, rfl⟩
  · intro t v hv
    obtain ⟨hget, -, hlaid, -⟩ := viewLayout_ok hv
    exact ⟨hget, hlaid, hlaid.packed.separate⟩
  · intro t name ds ht
    obtain ⟨v, hv⟩ := h.variantLayout ht
    obtain ⟨ds', hget, hall⟩ := variantLayout_ok hv
    obtain rfl : ds = ds' := (Descriptor.enum.inj (Option.some.inj (ht.symm.trans hget))).2
    refine ⟨v, hv, hall.length_eq.symm, ?_⟩
    intro i d hd
    obtain ⟨hi, rfl⟩ := List.getElem?_eq_some_iff.1 hd
    have hlt : i < v.constructs.length := hall.length_eq ▸ hi
    obtain ⟨-, hvalues, hlaid⟩ := constructLayout_ok (hall.get hi hlt)
    exact ⟨_, List.getElem?_eq_getElem hlt, hvalues, hlaid, hlaid.packed.separate⟩

/-- A class and a subclass whose fields need padding, a virtual type, and an enum. -/
def paddedTypes : Registry :=
  ⟨(Descriptor.builtins ++
    ([.object ⟨"Base", none, [⟨"flag", .bool⟩, ⟨"total", .f64⟩], []⟩,
      .object ⟨"Derived", some (.ofIndex 12), [⟨"low", .i16⟩, ⟨"nothing", .void⟩, ⟨"high", .i32⟩], []⟩,
      .virtual [⟨"flag", .bool⟩, ⟨"any", .dynamic⟩],
      .enum "Either" [⟨"left", [.i8, .f64]⟩, ⟨"right", []⟩]] : List Descriptor)).toArray⟩

theorem paddedTypes_built : paddedTypes.Built :=
  .of_adds (paddedTypes.types.toList.drop Descriptor.builtins.length) (by decide +kernel)
    (by decide +kernel)

/-- The fields of the subclass come behind the 24 bytes of its super class, and the parameters of the
first construct behind 16 bytes. -/
theorem paddedTypes_places :
    ∃ x own v c, paddedTypes.classLayout (.ofIndex 13) = .ok x ∧ x.size = 32 ∧
      own.map (fun p => p.item.name) = ["low", "nothing", "high"] ∧
      Region.LaidOut paddedTypes.fieldKind? 24 own x.size ∧
      Region.Separate paddedTypes Field.type 8 x.fields x.size ∧
      paddedTypes.variantLayout (.ofIndex 15) = .ok v ∧ v.construct? 0 = some c ∧
      c.params.items.map Placed.item = [.i8, .f64] ∧
      Region.LaidOut paddedTypes.kind? 16 c.params.items c.size := by
  obtain ⟨hclasses, -, henums⟩ := paddedTypes_built.places
  have hsizes : (paddedTypes.classLayout (.ofIndex 13)).map ClassLayout.size = .ok 32 ∧
      (paddedTypes.classLayout (.ofIndex 12)).map ClassLayout.size = .ok 24 := by
    decide +kernel
  obtain ⟨x, hx, hsize⟩ := Outcome.map_eq_ok.1 hsizes.1
  obtain ⟨base, hbase, hstart⟩ := Outcome.map_eq_ok.1 hsizes.2
  obtain ⟨c, inherited, own, start, hc, -, hitems, hsuper, hlaid, hseparate⟩ := hclasses _ x hx
  obtain rfl : _ = c := Descriptor.object.inj (Option.some.inj hc)
  rcases hsuper with ⟨hnone, -⟩ | ⟨up, y, hsome, hy, -, rfl⟩
  · cases hnone
  obtain rfl : _ = up := Option.some.inj hsome
  obtain rfl : base = y := Except.ok.inj (hbase.symm.trans hy)
  rw [hstart] at hlaid
  obtain ⟨v, hv, -, hconstructs⟩ := henums (.ofIndex 15) _ _ rfl
  obtain ⟨d, hd, hparams, hlaid', -⟩ := hconstructs 0 _ rfl
  refine ⟨x, own, v, d, hx, hsize, ?_, hlaid, hseparate, hv, hd, hparams, hlaid'⟩
  have hnames := congrArg (List.map Field.name) hitems
  rwa [List.map_map] at hnames

end Registry

end ObjectModel
