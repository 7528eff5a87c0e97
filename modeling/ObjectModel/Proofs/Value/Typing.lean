import ObjectModel.Proofs.Memory.Frame
import ObjectModel.Proofs.Registry.Built
import ObjectModel.Value.Fixed
import ObjectModel.Value.View

/-!
What it means for a slot to be of a type in a heap. An address of a type whose values start with their
own type leads to a value, and that type word fits; a raw address is held at its type, or is the
content of a box of the type. A slot stays of its type as the heap goes on: values are only added, and
neither type words nor the addresses in boxes change. Nor does what a view shows.
-/

set_option autoImplicit false
set_option relaxedAutoImplicit false

namespace ObjectModel

namespace Kind

/-- The kinds of addresses that lead to something without a type word. -/
def isRaw (k : Kind) : Bool := k.isPointer && !k.isSelfDescribing

theorem isPointer_of_isRaw {k : Kind} (hk : k.isRaw = true) : k.isPointer = true :=
  (Bool.and_eq_true_iff.1 hk).1

theorem isPointer_of_isSelfDescribing {k : Kind} (hk : k.isSelfDescribing = true) :
    k.isPointer = true := by
  cases k <;> first | rfl | cases hk

/-- The kinds of type words: those of boxes, and those of values that describe themselves. A value has
neither a dynamic nor a nullable type of its own. -/
def describesValue (k : Kind) : Bool := k != void && k != dynamic && k != null

end Kind

namespace Slot

theorem fits_ofWord (k : Kind) (w : Nat) : (ofWord k w).fits k = true := by
  cases k <;> rfl

theorem ofWord_zero_pointer {k : Kind} {a : Addr} (h : ofWord k 0 = .pointer a) : a = 0 := by
  cases k <;> simp [ofWord] at h <;> exact h.symm

end Slot

namespace Registry

/-- The kind of the type word at an address. -/
def kindAt (r : Registry) (m : Memory) (v : Addr) : Option Kind := r.kind? (m.typeOf v)

end Registry

/-- An address, not null, leads to something of the type `t`, which has the given kind. The values are
those that start at an address of `values`; `held` says at which types raw addresses are held. -/
def LeadsTo (r : Registry) (held : Addr → TypeId → Prop) (values : Set Addr) (m : Memory) (t : TypeId)
    (a : Addr) : Kind → Prop
  | .dynamic => a ∈ values ∧ ∃ k, r.kindAt m a = some k ∧ k.describesValue = true
  | .object => a ∈ values ∧ r.isSubclass (m.typeOf a) t = true
  | .virtual | .enum | .function | .dynobj => a ∈ values ∧ r.sameType (m.typeOf a) t = true
  | .array => a ∈ values ∧ r.kindAt m a = some .array
  | .null => a ∈ values ∧ ∃ u k, r.get? t = some (.null u) ∧ r.kindAt m a = some k ∧
      k.isNumeric = true ∧ r.sameType (m.typeOf a) u = true
  | .bytes | .type | .ref | .abstract => (∃ u, held a u ∧ r.sameType u t = true) ∨
      ∃ b ∈ values, r.sameType (m.typeOf b) t = true ∧ Box.pointer m b = a
  | _ => False

/-- A slot is of a type: it fits the kind of the type, and its address, unless it is null, leads to
something of the type. -/
def WellTyped (r : Registry) (held : Addr → TypeId → Prop) (values : Set Addr) (m : Memory) (t : TypeId)
    (s : Slot) : Prop :=
  ∃ k, r.kind? t = some k ∧ s.fits k = true ∧
    ∀ a, s = .pointer a → a ≠ 0 → LeadsTo r held values m t a k

/-- The heap goes on: there may be more values, and those that there were keep their type words, the
raw addresses in them and what they show. -/
structure GoesOn (r : Registry) (values : Set Addr) (m : Memory) (values' : Set Addr) (m' : Memory) :
    Prop where
  subset : values ⊆ values'
  type : ∀ v ∈ values, m'.typeOf v = m.typeOf v
  pointer : ∀ v ∈ values, ∀ k, r.kindAt m v = some k → k.isRaw = true →
    Box.pointer m' v = Box.pointer m v
  wrapped : ∀ v ∈ values, r.kindAt m v = some .virtual → View.wrapped m' v = View.wrapped m v

variable {r : Registry} {held : Addr → TypeId → Prop} {values values' values'' : Set Addr}
  {m m' m'' : Memory} {t u : TypeId} {a : Addr} {s : Slot} {k : Kind}

namespace GoesOn

theorem refl (r : Registry) (values : Set Addr) (m : Memory) : GoesOn r values m values m :=
  ⟨Set.Subset.rfl, fun _ _ => rfl, fun _ _ _ _ _ => rfl, fun _ _ _ => rfl⟩

theorem kindAt (h : GoesOn r values m values' m') {v : Addr} (hv : v ∈ values) :
    r.kindAt m' v = r.kindAt m v := by
  rw [Registry.kindAt, Registry.kindAt, h.type v hv]

theorem trans (h : GoesOn r values m values' m') (h' : GoesOn r values' m' values'' m'') :
    GoesOn r values m values'' m'' := by
  refine ⟨h.subset.trans h'.subset, ?_, ?_, ?_⟩
  · intro v hv
    exact (h'.type v (h.subset hv)).trans (h.type v hv)
  · intro v hv k hk hraw
    have hk' : r.kindAt m' v = some k := (h.kindAt hv).trans hk
    exact (h'.pointer v (h.subset hv) k hk' hraw).trans (h.pointer v hv k hk hraw)
  · intro v hv hk
    exact (h'.wrapped v (h.subset hv) ((h.kindAt hv).trans hk)).trans (h.wrapped v hv hk)

end GoesOn

theorem kindAt_ne {v : Addr} {l : Kind} (hk : r.kindAt m v = some k) (hne : k ≠ l) :
    r.kindAt m v ≠ some l :=
  fun heq => hne (Option.some.inj (hk.symm.trans heq))

theorem kindAt_of_typeOf {v : Addr} (htype : m.typeOf v = t) (hk : r.kind? t = some k) :
    r.kindAt m v = some k := by
  rw [Registry.kindAt, htype, hk]

private theorem kindAt_of_sameType {b : Addr} (h : r.sameType (m.typeOf b) t = true)
    (ht : r.kind? t = some k) : r.kindAt m b = some k := by
  rw [Registry.kindAt, Registry.kind?_eq_of_sameType h, ht]

private theorem LeadsTo.goesOn (h : GoesOn r values m values' m') (ht : r.kind? t = some k)
    (ha : LeadsTo r held values m t a k) : LeadsTo r held values' m' t a k := by
  have hraw : k.isRaw = true →
      ((∃ u, held a u ∧ r.sameType u t = true) ∨
        ∃ b ∈ values, r.sameType (m.typeOf b) t = true ∧ Box.pointer m b = a) →
      (∃ u, held a u ∧ r.sameType u t = true) ∨
        ∃ b ∈ values', r.sameType (m'.typeOf b) t = true ∧ Box.pointer m' b = a := by
    rintro hraw (hheld | ⟨b, hb, hsame, hpointer⟩)
    · exact Or.inl hheld
    · refine Or.inr ⟨b, h.subset hb, ?_, ?_⟩
      · rw [h.type b hb]
        exact hsame
      · rw [h.pointer b hb k (kindAt_of_sameType hsame ht) hraw]
        exact hpointer
  -- Only what is said of raw addresses depends on more than type words.
  cases k <;> simp only [LeadsTo] at ha ⊢
  case dynamic =>
    obtain ⟨hv, k, hk, hvalue⟩ := ha
    exact ⟨h.subset hv, k, (h.kindAt hv).trans hk, hvalue⟩
  case object =>
    rw [h.type a ha.1]
    exact ⟨h.subset ha.1, ha.2⟩
  case array =>
    obtain ⟨hv, hk⟩ := ha
    exact ⟨h.subset hv, (h.kindAt hv).trans hk⟩
  case null =>
    obtain ⟨hv, u, k, hu, hk, hnumeric, hsame⟩ := ha
    rw [h.type a hv]
    exact ⟨h.subset hv, u, k, hu, (h.kindAt hv).trans hk, hnumeric, hsame⟩
  case virtual | enum | function | dynobj =>
    rw [h.type a ha.1]
    exact ⟨h.subset ha.1, ha.2⟩
  case bytes | type | ref | abstract => exact hraw rfl ha

theorem LeadsTo.of_sameType (h : r.sameType t u = true) (ha : LeadsTo r held values m t a k) :
    LeadsTo r held values m u a k := by
  cases k <;> simp only [LeadsTo] at ha ⊢
  case dynamic | array => exact ha
  case object => exact ⟨ha.1, Registry.isSubclass_of_sameType ha.2 h⟩
  case null =>
    obtain ⟨hv, inner, k, hinner, hk, hnumeric, hsame⟩ := ha
    obtain ⟨inner', hinner', hsame'⟩ := Registry.get?_null_of_sameType h hinner
    exact ⟨hv, inner', k, hinner', hk, hnumeric, Registry.sameType_trans hsame hsame'⟩
  case virtual | enum | function | dynobj => exact ⟨ha.1, Registry.sameType_trans ha.2 h⟩
  case bytes | type | ref | abstract =>
    rcases ha with ⟨v, hheld, hsame⟩ | ⟨b, hb, hsame, hpointer⟩
    · exact Or.inl ⟨v, hheld, Registry.sameType_trans hsame h⟩
    · exact Or.inr ⟨b, hb, Registry.sameType_trans hsame h, hpointer⟩

namespace WellTyped

theorem goesOn (hs : WellTyped r held values m t s) (h : GoesOn r values m values' m') :
    WellTyped r held values' m' t s := by
  obtain ⟨k, hk, hfits, hleads⟩ := hs
  exact ⟨k, hk, hfits, fun a ha hne => (hleads a ha hne).goesOn h hk⟩

theorem of_sameType (hs : WellTyped r held values m t s) (h : r.sameType t u = true) :
    WellTyped r held values m u s := by
  obtain ⟨k, hk, hfits, hleads⟩ := hs
  refine ⟨k, ?_, hfits, fun a ha hne => (hleads a ha hne).of_sameType h⟩
  rw [← Registry.kind?_eq_of_sameType h, hk]

theorem zero (hk : r.kind? t = some k) : WellTyped r held values m t (.ofWord k 0) :=
  ⟨k, hk, Slot.fits_ofWord k 0, fun _ ha hne => absurd (Slot.ofWord_zero_pointer ha) hne⟩

theorem of_not_pointer (hk : r.kind? t = some k) (hfits : s.fits k = true)
    (hs : ∀ a, s ≠ .pointer a) : WellTyped r held values m t s :=
  ⟨k, hk, hfits, fun a ha => absurd ha (hs a)⟩

theorem of_leadsTo (hk : r.kind? t = some k) (hpointer : k.isPointer = true)
    (ha : LeadsTo r held values m t a k) : WellTyped r held values m t (.pointer a) := by
  refine ⟨k, hk, hpointer, ?_⟩
  rintro a' h -
  obtain rfl := Slot.pointer.inj h
  exact ha

theorem null (hk : r.kind? t = some k) (hpointer : k.isPointer = true) :
    WellTyped r held values m t (.pointer 0) :=
  ⟨k, hk, hpointer, fun _ ha hne => absurd (Slot.pointer.inj ha).symm hne⟩

theorem fits (h : WellTyped r held values m t s) (hk : r.kind? t = some k) : s.fits k = true := by
  obtain ⟨k', hk', hfits, -⟩ := h
  obtain rfl := Option.some.inj (hk.symm.trans hk')
  exact hfits

theorem leadsTo (hs : WellTyped r held values m t (.pointer a)) (hk : r.kind? t = some k)
    (hne : a ≠ 0) : LeadsTo r held values m t a k := by
  obtain ⟨k', hk', -, hleads⟩ := hs
  obtain rfl := Option.some.inj (hk.symm.trans hk')
  exact hleads a rfl hne

end WellTyped

namespace LeadsTo

/-- What is of a type whose values describe themselves is a value, and its type word says so. -/
theorem mem_values (ha : LeadsTo r held values m t a k) (hk : k.isSelfDescribing = true) :
    a ∈ values := by
  cases k <;> first | exact absurd hk (by decide) | exact ha.1

end LeadsTo

end ObjectModel
