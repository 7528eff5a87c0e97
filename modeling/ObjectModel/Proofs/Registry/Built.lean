import ObjectModel.Proofs.Registry.Bisimulation

/-!
What holds of every registry that a builder gives: the first ids hold the built-in types. Ids are
32-bit numbers, so a registry counts as built only while there is one for each of its types.
-/

set_option autoImplicit false
set_option relaxedAutoImplicit false

namespace ObjectModel

theorem TypeId.index_ofIndex {i : Nat} (h : i < UInt32.size) : (ofIndex i).index = i := by
  rw [ofIndex, index, UInt32.toNat_ofNat', Nat.mod_eq_of_lt h]

namespace Builder

variable {b : Builder}

/-- The builders that come from a new one by adding types, setting ids aside and defining them. -/
inductive Made : Builder → Prop
  | new : Made .new
  | add {b : Builder} (d : Descriptor) : Made b → Made (b.add d).2
  | reserve {b : Builder} : Made b → Made b.reserve.2
  | define {b b' : Builder} {t : TypeId} {d : Descriptor} : Made b → b.define t d = .ok b' → Made b'

theorem Made.addAll (h : Made b) (ds : List Descriptor) :
    Made (ds.foldl (fun b d => (b.add d).2) b) := by
  induction ds generalizing b with
  | nil => exact h
  | cons d ds ih => exact ih (h.add d)

/-- Slots that start with the built-in types. -/
private def StartsBuiltin (slots : List (Option Descriptor)) : Prop :=
  Descriptor.builtins.map some <+: slots

private theorem StartsBuiltin.set {slots : List (Option Descriptor)} {i : Nat} {d : Option Descriptor}
    (h : StartsBuiltin slots) (hi : slots[i]? = some none) : StartsBuiltin (slots.set i d) := by
  obtain ⟨rest, rfl⟩ := h
  have hle : (Descriptor.builtins.map some).length ≤ i := by
    by_contra hlt
    rw [List.getElem?_append_left (by omega), List.getElem?_map] at hi
    cases hd : Descriptor.builtins[i]? <;> simp [hd] at hi
  rw [List.set_append_right _ _ hle]
  exact List.prefix_append _ _

private theorem Made.startsBuiltin (h : Made b) : StartsBuiltin b.slots.toList := by
  induction h with
  | new => exact List.prefix_rfl
  | add d _ ih =>
    simp only [Builder.add, Array.toList_push]
    exact ih.trans (List.prefix_append _ _)
  | reserve _ ih =>
    simp only [Builder.reserve, Array.toList_push]
    exact ih.trans (List.prefix_append _ _)
  | @define b b' t d _ hdefine ih =>
    unfold Builder.define at hdefine
    cases hslot : b.slots[t.index]? with
    | none => simp [hslot] at hdefine
    | some slot =>
      cases slot with
      | some old => simp [hslot] at hdefine
      | none =>
        simp only [hslot] at hdefine
        cases hdefine
        rw [Array.toList_setIfInBounds]
        exact ih.set (by rw [Array.getElem?_toList, hslot])

theorem definedFrom_ok {slots : List (Option Descriptor)} {ds : List Descriptor} {start : Nat}
    (h : definedFrom start slots = .ok ds) : slots = ds.map some := by
  induction slots generalizing start ds with
  | nil =>
    cases h
    rfl
  | cons slot rest ih =>
    cases slot with
    | none => cases h
    | some d =>
      rw [definedFrom] at h
      cases hrest : definedFrom (start + 1) rest with
      | error e => simp [hrest, Except.map] at h
      | ok ds' =>
        simp only [hrest, Except.map] at h
        cases h
        rw [List.map_cons, ih hrest]

private theorem types_appendNew (state : Array Descriptor × List Descriptor) (d : Descriptor) :
    state.1.toList <+: (appendNew state d).1.toList := by
  unfold appendNew
  split
  · exact List.prefix_rfl
  · rw [Array.toList_push]
    exact List.prefix_append _ _

theorem types_foldl_appendNew (ds : List Descriptor) (state : Array Descriptor × List Descriptor) :
    state.1.toList <+: (ds.foldl appendNew state).1.toList := by
  induction ds generalizing state with
  | nil => exact List.prefix_rfl
  | cons d ds ih => exact (types_appendNew state d).trans (ih _)

theorem types_appendApplied (arity : Nat) (wave : List Descriptor) (types : Array Descriptor) :
    types.toList <+: (appendApplied arity wave types).toList := by
  induction arity generalizing wave types with
  | zero => exact List.prefix_rfl
  | succ arity ih =>
    rw [appendApplied]
    exact (types_foldl_appendNew _ (types, [])).trans (ih _ _)

theorem getElem?_appendApplied {ds : List Descriptor} {i : Nat} {d : Descriptor} (arity : Nat)
    (h : ds[i]? = some d) : (appendApplied arity ds ds.toArray)[i]? = some d := by
  obtain ⟨hi, rfl⟩ := List.getElem?_eq_some_iff.1 h
  rw [← Array.getElem?_toList]
  exact List.prefix_iff_getElem?.1 (types_appendApplied arity ds ds.toArray) i hi

private theorem forall_appendNew {P : Descriptor → Prop} {ds : List Descriptor}
    (state : Array Descriptor × List Descriptor) (hds : ∀ d ∈ ds, P d) (htypes : ∀ d ∈ state.1, P d)
    (hfresh : ∀ d ∈ state.2, P d) :
    (∀ d ∈ (ds.foldl appendNew state).1, P d) ∧ ∀ d ∈ (ds.foldl appendNew state).2, P d := by
  induction ds generalizing state with
  | nil => exact ⟨htypes, hfresh⟩
  | cons d ds ih =>
    have hd : P d := hds d List.mem_cons_self
    have hrest : ∀ e ∈ ds, P e := fun e he => hds e (List.mem_cons_of_mem d he)
    rw [List.foldl_cons]
    unfold appendNew
    split
    · exact ih state hrest htypes hfresh
    · apply ih _ hrest
      · intro e he
        rcases Array.mem_push.1 he with he | rfl
        · exact htypes e he
        · exact hd
      · intro e he
        rcases List.mem_cons.1 he with rfl | he
        · exact hd
        · exact hfresh e he

theorem forall_appendApplied {P : Descriptor → Prop} {arity : Nat} {wave : List Descriptor}
    {types : Array Descriptor} (happlied : ∀ d e, applied? d = some e → P d → P e)
    (hwave : ∀ d ∈ wave, P d) (htypes : ∀ d ∈ types, P d) :
    ∀ d ∈ appendApplied arity wave types, P d := by
  induction arity generalizing wave types with
  | zero => exact htypes
  | succ arity ih =>
    have hnext : ∀ e ∈ wave.filterMap applied?, P e := by
      intro e he
      obtain ⟨d, hd, hde⟩ := List.mem_filterMap.1 he
      exact happlied d e hde (hwave d hd)
    obtain ⟨htypes', hfresh⟩ := forall_appendNew (types, []) hnext htypes (by simp)
    rw [appendApplied]
    apply ih
    · intro d hd
      exact hfresh d (List.mem_reverse.1 hd)
    · exact htypes'

theorem definedFrom_map (start : Nat) (ds : List Descriptor) :
    definedFrom start (ds.map some) = .ok ds := by
  induction ds generalizing start with
  | nil => rfl
  | cons d ds ih => simp [definedFrom, ih, Except.map]

/-- What is built, and when: no id is left undefined, no reference dangles, and the super classes pass
their check. -/
theorem build_eq_ok {r : Registry} : b.build = .ok r ↔
    ∃ ds, b.slots.toList = ds.map some ∧ danglingReference? ds = none ∧
      checkInheritance ds.toArray ds = .ok () ∧ r = ⟨appendApplied (maxArity ds) ds ds.toArray⟩ := by
  constructor
  · intro h
    unfold build at h
    cases hds : definedFrom 0 b.slots.toList with
    | error e => simp [hds, bind, Except.bind] at h
    | ok ds =>
      simp only [hds, bind, Except.bind] at h
      cases hdangling : danglingReference? ds with
      | some t => simp [hdangling, throw, throwThe, MonadExceptOf.throw] at h
      | none =>
        simp only [hdangling] at h
        cases hinherit : checkInheritance ds.toArray ds with
        | error e => simp [hinherit] at h
        | ok u =>
          simp only [hinherit] at h
          cases h
          exact ⟨ds, definedFrom_ok hds, hdangling, hinherit, rfl⟩
  · rintro ⟨ds, hslots, hdangling, hinherit, rfl⟩
    have hds : definedFrom 0 b.slots.toList = .ok ds := by rw [hslots, definedFrom_map]
    unfold build
    simp only [hds, hdangling, hinherit, bind, Except.bind]
    rfl

theorem danglingReference?_eq_none {ds : List Descriptor} :
    danglingReference? ds = none ↔ ∀ d ∈ ds, ∀ u ∈ d.references, u.index < ds.length := by
  simp [danglingReference?, List.find?_eq_none]

theorem build_ok {r : Registry} (h : b.build = .ok r) :
    ∃ ds, b.slots.toList = ds.map some ∧ danglingReference? ds = none ∧
      r.types = appendApplied (maxArity ds) ds ds.toArray := by
  obtain ⟨ds, hslots, hdangling, -, rfl⟩ := build_eq_ok.1 h
  exact ⟨ds, hslots, hdangling, rfl⟩

/-- Every type that a built registry mentions was defined, and so were the types of all that is left of
function types. -/
theorem references_of_build {r : Registry} (h : b.build = .ok r) :
    ∀ d ∈ r.types, ∀ u ∈ d.references, u.index < r.types.size := by
  obtain ⟨ds, -, hdangling, htypes⟩ := build_ok h
  have hgrown : ds.length ≤ r.types.size := by
    rw [htypes]
    exact (types_appendApplied (maxArity ds) ds ds.toArray).length_le
  have hdefined := danglingReference?_eq_none.1 hdangling
  have hall : ∀ d ∈ r.types, ∀ u ∈ d.references, u.index < ds.length := by
    rw [htypes]
    apply forall_appendApplied (P := fun d => ∀ u ∈ d.references, u.index < ds.length)
    · intro d e hde hd u hu
      unfold applied? at hde
      split at hde
      · cases hde
        apply hd u
        simp only [Descriptor.references, List.cons_append, List.mem_cons]
        exact Or.inr hu
      · cases hde
    · exact hdefined
    · intro d hd
      exact hdefined d (List.mem_toArray.1 hd)
  intro d hd u hu
  exact lt_of_lt_of_le (hall d hd u hu) hgrown

end Builder

namespace Registry

variable {r : Registry} {t u : TypeId}

/-- A registry that a builder gives, with an id for each of its types. -/
structure Built (r : Registry) : Prop where
  built : ∃ b, Builder.Made b ∧ b.build = .ok r
  ids : r.size ≤ UInt32.size

/-- A registry counts as built if adding its types to a new builder gives it. -/
theorem Built.of_adds (ds : List Descriptor)
    (h : (ds.foldl (fun b d => (b.add d).2) Builder.new).build.map Registry.types = .ok r.types)
    (hids : r.size ≤ UInt32.size) : r.Built := by
  cases hbuild : (ds.foldl (fun b d => (b.add d).2) Builder.new).build with
  | error e =>
    rw [hbuild] at h
    cases h
  | ok r' =>
    rw [hbuild] at h
    obtain rfl : r' = r := congrArg Registry.mk (Except.ok.inj h)
    exact ⟨⟨_, Builder.Made.new.addAll ds, hbuild⟩, hids⟩

private theorem Built.builtins (h : r.Built) : Descriptor.builtins <+: r.types.toList := by
  obtain ⟨b, hmade, hbuild⟩ := h.built
  obtain ⟨ds, hslots, -, htypes⟩ := Builder.build_ok hbuild
  have hds : ds <+: r.types.toList := by
    rw [htypes]
    exact Builder.types_appendApplied _ ds ds.toArray
  have hstart := hmade.startsBuiltin
  rw [hslots] at hstart
  obtain ⟨rest, hrest⟩ := hstart
  obtain ⟨ds₁, ds₂, rfl, hds₁, -⟩ := List.map_eq_append_iff.1 hrest.symm
  obtain rfl : ds₁ = Descriptor.builtins :=
    List.map_injective_iff.2 (Option.some_injective _) hds₁
  exact (List.prefix_append _ _).trans hds

theorem Built.get?_builtin (h : r.Built) {d : Descriptor} (ht : Descriptor.builtins[t.index]? = some d) :
    r.get? t = some d := by
  obtain ⟨rest, hrest⟩ := h.builtins
  unfold get?
  rw [← Array.getElem?_toList, ← hrest]
  rwa [List.getElem?_append_left (List.getElem?_eq_some_iff.1 ht).1]

theorem Built.kind?_reference (h : r.Built) {d : Descriptor} (hd : r.get? t = some d)
    (hu : u ∈ d.references) : ∃ k, r.kind? u = some k := by
  obtain ⟨b, -, hbuild⟩ := h.built
  have hlt := Builder.references_of_build hbuild d (Array.mem_of_getElem? hd) u hu
  refine ⟨r.types[u.index].kind, ?_⟩
  rw [kind?, get?, Array.getElem?_eq_getElem hlt]
  rfl

theorem Built.kind?_array (h : r.Built) : r.kind? .array = some .array := by
  rw [kind?, h.get?_builtin (t := .array) (d := .array .dynamic) rfl]
  rfl

theorem Built.kind?_dynobj (h : r.Built) : r.kind? .dynobj = some .dynobj := by
  rw [kind?, h.get?_builtin (t := .dynobj) (d := .dynobj) rfl]
  rfl

theorem Built.kind?_closureType (h : r.Built) (hu : r.closureType? t = some u) :
    r.kind? u = some .function := by
  unfold closureType? at hu
  split at hu
  · obtain ⟨i, hi, rfl⟩ := Option.map_eq_some_iff.1 hu
    obtain ⟨hlt, hfun, -⟩ := Array.findIdx?_eq_some_iff_getElem.1 hi
    have hids : i < UInt32.size := lt_of_lt_of_le hlt h.ids
    rw [kind?, get?, TypeId.index_ofIndex hids, Array.getElem?_eq_getElem hlt, beq_iff_eq.1 hfun]
    rfl
  · cases hu

theorem kind?_of_function {f : List TypeId × TypeId} (h : r.function t = .ok f) :
    r.kind? t = some .function := by
  unfold function at h
  split at h
  · rename_i hget
    rw [kind?, hget]
    rfl
  · cases h
  · cases h

theorem get?_of_class? {c : Class} (h : r.class? t = some c) : r.get? t = some (.object c) := by
  unfold class? at h
  split at h
  · rename_i c' hget
    obtain rfl := Option.some.inj h
    exact hget
  · cases h

/-! Kinds and subclasses do not tell types apart that are the same. -/

theorem isSubclass_of_same (h : r.sameType t u = true) : r.isSubclass t u = true := by
  unfold isSubclass
  cases r.size with
  | zero => exact h
  | succ n => rw [subclassFrom, h, Bool.true_or]

theorem isSubclass_of_sameType {s : TypeId} (hs : r.isSubclass s t = true)
    (h : r.sameType t u = true) : r.isSubclass s u = true := by
  unfold isSubclass at hs ⊢
  generalize r.size = steps at hs
  induction steps generalizing s with
  | zero => exact sameType_trans hs h
  | succ steps ih =>
    rw [subclassFrom, Bool.or_eq_true] at hs ⊢
    rcases hs with hs | hs
    · exact Or.inl (sameType_trans hs h)
    · refine Or.inr ?_
      cases hsuper : r.super? s with
      | none => simp [hsuper] at hs
      | some up =>
        rw [hsuper] at hs
        exact ih hs

theorem kind?_of_isSubclass {s : TypeId} (hs : r.isSubclass s t = true)
    (ht : r.kind? t = some .object) : r.kind? s = some .object := by
  unfold isSubclass at hs
  cases hsize : r.size with
  | zero =>
    rw [hsize] at hs
    rwa [kind?_eq_of_sameType hs]
  | succ steps =>
    rw [hsize, subclassFrom, Bool.or_eq_true] at hs
    rcases hs with hs | hs
    · rwa [kind?_eq_of_sameType hs]
    · cases hsuper : r.super? s with
      | none => simp [hsuper] at hs
      | some up =>
        obtain ⟨c, hc, -⟩ := Option.bind_eq_some_iff.1 hsuper
        rw [kind?, get?_of_class? hc]
        rfl

theorem get?_null_of_sameType {inner : TypeId} (h : r.sameType t u = true)
    (ht : r.get? t = some (.null inner)) :
    ∃ inner', r.get? u = some (.null inner') ∧ r.sameType inner inner' = true := by
  obtain ⟨d, hd, halike⟩ := alike_of_sameType h ht
  cases d with
  | null inner' => exact ⟨inner', hd, halike⟩
  | _ => exact absurd halike.kind_eq (by simp [Descriptor.kind])

end Registry

end ObjectModel
