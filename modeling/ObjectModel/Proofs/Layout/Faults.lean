import Mathlib.Data.List.Duplicate
import ObjectModel.Proofs.Layout.Admission
import ObjectModel.Proofs.Layout.Placement

/-!
What can be wrong with a layout. In a built registry each mentioned type is there and no chain of super
classes is endless, so that only what a class or a virtual type declares can be at fault; an enum has a
layout in any case.
-/

set_option autoImplicit false
set_option relaxedAutoImplicit false

namespace ObjectModel

/-- A fault of one of the fields or methods that a class declares. -/
inductive LayoutError.Blames (c : Class) : LayoutError → Prop
  | duplicateField {f : Field} (hf : f ∈ c.fields) : Blames c (.duplicateField c.name f.name)
  | fieldConflict {f : Field} (hf : f ∈ c.fields) : Blames c (.memberConflict c.name f.name)
  | methodConflict {d : Method} (hd : d ∈ c.methods) : Blames c (.memberConflict c.name d.name)
  | duplicateMethod {d : Method} (hd : d ∈ c.methods) : Blames c (.duplicateMethod c.name d.name)
  | notAFunction {d : Method} (hd : d ∈ c.methods) : Blames c (.notAFunction c.name d.name)
  | incompatibleOverride {d : Method} (hd : d ∈ c.methods) :
    Blames c (.incompatibleOverride c.name d.name)

namespace Outcome

variable {ε α β : Type}

theorem bind_eq_error {x : Except ε α} {f : α → Except ε β} {e : ε} :
    x >>= f = .error e ↔ x = .error e ∨ ∃ a, x = .ok a ∧ f a = .error e := by
  cases x <;> simp [bind, Except.bind]

theorem foldlM_eq_error {P : ε → Prop} {step : β → α → Except ε β} {xs : List α} {b : β} {e : ε}
    (hstep : ∀ x ∈ xs, ∀ b e, step b x = .error e → P e) (h : xs.foldlM step b = .error e) : P e := by
  induction xs generalizing b with
  | nil => cases h
  | cons x xs ih =>
    rw [List.foldlM_cons] at h
    rcases bind_eq_error.1 h with hx | ⟨b', -, hrest⟩
    · exact hstep x List.mem_cons_self b e hx
    · exact ih (fun y hy => hstep y (List.mem_cons_of_mem x hy)) hrest

end Outcome

namespace Members

variable {r : Registry} {m : Members} {c : Class} {e : LayoutError}

private theorem addField_blames {f : Field} (hf : f ∈ c.fields) (hkind : ∃ k, r.kind? f.type = some k)
    (h : addField r c.name m f = .error e) : e.Blames c := by
  obtain ⟨k, hk⟩ := hkind
  rw [addField, Registry.kind_eq_ok.2 hk] at h
  split_ifs at h
  · cases h
    exact .duplicateField hf
  · cases h
    exact .fieldConflict hf

private theorem addMethod_blames {d : Method} (hd : d ∈ c.methods)
    (h : m.addMethod r c.name d = .error e) : e.Blames c := by
  unfold addMethod at h
  split at h
  · cases h
    exact .methodConflict hd
  · split at h
    · cases h
      exact .notAFunction hd
    · split at h
      · cases h
      · split at h
        · cases h
        · split at h
          · cases h
          · cases h
            exact .incompatibleOverride hd

private theorem addMethods_blames {ds : List Method} {earlier : List String}
    (hds : ∀ d ∈ ds, d ∈ c.methods) (h : m.addMethods r c.name earlier ds = .error e) : e.Blames c := by
  induction ds generalizing m earlier with
  | nil => cases h
  | cons d ds ih =>
    obtain ⟨hd, hds⟩ := List.forall_mem_cons.1 hds
    rw [addMethods] at h
    split at h
    · cases h
      exact .duplicateMethod hd
    · cases hadded : m.addMethod r c.name d with
      | error e' =>
        rw [hadded] at h
        cases h
        exact addMethod_blames hd hadded
      | ok m' =>
        rw [hadded] at h
        exact ih hds h

theorem extend_blames (hkinds : ∀ f ∈ c.fields, ∃ k, r.kind? f.type = some k)
    (h : m.extend r c = .error e) : e.Blames c := by
  rcases Outcome.bind_eq_error.1 h with hfields | ⟨m', -, hmethods⟩
  · exact Outcome.foldlM_eq_error (fun f hf _ _ => addField_blames hf (hkinds f hf)) hfields
  · exact addMethods_blames (fun _ hd => hd) hmethods

end Members

namespace Registry

variable {r : Registry} {t : TypeId}

/-! ### Classes -/

private theorem membersOf_blames {cs : List Class} {e : LayoutError}
    (hkinds : ∀ c ∈ cs, ∀ f ∈ c.fields, ∃ k, r.kind? f.type = some k) (h : r.membersOf cs = .error e) :
    ∃ c ∈ cs, e.Blames c := by
  induction cs with
  | nil => cases h
  | cons c cs ih =>
    obtain ⟨hc, hcs⟩ := List.forall_mem_cons.1 hkinds
    rcases Outcome.bind_eq_error.1 h with habove | ⟨inherited, -, hown⟩
    · obtain ⟨c', hc', hblames⟩ := ih hcs habove
      exact ⟨c', List.mem_cons_of_mem c hc', hblames⟩
    · exact ⟨c, List.mem_cons_self, Members.extend_blames hc hown⟩

theorem Built.kind?_of_lineage (hb : r.Built) {chain : List Class} (hchain : r.lineage t = .ok chain) :
    ∀ c ∈ chain, ∀ f ∈ c.fields, ∃ k, r.kind? f.type = some k := by
  intro c hc f hf
  obtain ⟨n, hn⟩ := List.mem_iff_getElem?.1 hc
  rw [getElem?_lineageFrom hchain] at hn
  obtain ⟨u, -, hu⟩ := Option.bind_eq_some_iff.1 hn
  refine hb.kind?_reference (get?_of_class? hu) ?_
  exact List.mem_append_left _ (List.mem_append_right _ (List.mem_map_of_mem hf))

/-- A class of a built registry has a layout, or a class of its chain declares something wrong. -/
theorem Built.classLayout_ok_or_blames (hb : r.Built) {chain : List Class} (hchain : r.lineage t = .ok chain) :
    (∃ x, r.classLayout t = .ok x) ∨ ∃ c ∈ chain, ∃ e, e.Blames c ∧ r.classLayout t = .error e := by
  obtain ⟨c, hc, -⟩ := lineageFrom_ok hchain
  have hkinds := hb.kind?_of_lineage hchain
  cases hm : r.membersOf chain with
  | ok m =>
    obtain ⟨x, hx, -⟩ := classLayout_of_membersOf hc hchain hm
    exact Or.inl ⟨x, hx⟩
  | error e =>
    obtain ⟨c', hc', hblames⟩ := membersOf_blames hkinds hm
    refine Or.inr ⟨c', hc', e, hblames, ?_⟩
    rw [classLayout, classOf_eq_ok.2 hc, hchain]
    simp only [LayoutError.ofType, Except.mapError, bind, Except.bind, hm]

/-! ### Virtual types -/

private theorem addViewFields (t : TypeId) {fs : List Field} (region : Region Field)
    (hkinds : ∀ f ∈ fs, ∃ k, r.kind? f.type = some k) (hnodup : (region.values.map Field.name).Nodup) :
    (((region.values ++ fs).map Field.name).Nodup ∧
        ∃ region', fs.foldlM (r.addViewField t) region = .ok region') ∨
      ∃ name, List.Duplicate name ((region.values ++ fs).map Field.name) ∧
        fs.foldlM (r.addViewField t) region = .error (.duplicateField (r.typeName t) name) := by
  induction fs generalizing region with
  | nil => exact Or.inl ⟨by rwa [List.append_nil], region, rfl⟩
  | cons f fs ih =>
    obtain ⟨⟨k, hk⟩, hkinds⟩ := List.forall_mem_cons.1 hkinds
    rw [List.foldlM_cons]
    by_cases hold : f.name ∈ region.values.map Field.name
    · have hfound : region.values.any (·.name == f.name) = true := by
        obtain ⟨g, hg, hname⟩ := List.mem_map.1 hold
        exact List.any_eq_true.2 ⟨g, hg, beq_iff_eq.2 hname⟩
      refine Or.inr ⟨f.name, ?_, by rw [addViewField, if_pos hfound]; rfl⟩
      rw [List.map_append, List.map_cons, List.duplicate_iff_two_le_count, List.count_append,
        List.count_cons_self]
      have := List.count_pos_iff.2 hold
      omega
    · have hnone : ¬region.values.any (·.name == f.name) = true := by
        rw [List.any_eq_true]
        rintro ⟨g, hg, hname⟩
        exact hold (List.mem_map.2 ⟨g, hg, beq_iff_eq.1 hname⟩)
      have hadd : r.addViewField t region f = .ok (region.push k f) := by
        rw [addViewField, if_neg hnone, kind_eq_ok.2 hk]
      have hvalues : (region.push k f).values = region.values ++ [f] := by simp [Region.push, Region.values]
      have hnodup' : ((region.push k f).values.map Field.name).Nodup := by
        rw [hvalues, List.map_append, List.map_singleton]
        exact List.concat_eq_append ▸ hnodup.concat hold
      have hrest := ih (region.push k f) hkinds hnodup'
      rw [hvalues, List.append_assoc, List.singleton_append] at hrest
      rw [hadd]
      exact hrest

/-- A virtual type of a built registry has a layout unless a name comes twice among its fields. -/
theorem Built.viewLayout_ok_or_duplicate (hb : r.Built) {fs : List Field} (ht : r.get? t = some (.virtual fs)) :
    ((fs.map Field.name).Nodup ∧ ∃ v, r.viewLayout t = .ok v) ∨
      ∃ name, List.Duplicate name (fs.map Field.name) ∧
        r.viewLayout t = .error (.duplicateField (r.typeName t) name) := by
  have hkinds : ∀ f ∈ fs, ∃ k, r.kind? f.type = some k :=
    fun f hf => hb.kind?_reference ht (List.mem_map_of_mem hf)
  have hvirtual : r.virtual t = .ok fs := by rw [virtual, ht]
  rw [viewLayout, hvirtual]
  rcases addViewFields t (.empty 0) hkinds .nil with
    ⟨hnodup, fields, hfields⟩ | ⟨name, hname, herror⟩
  · refine Or.inl ⟨hnodup, ?_⟩
    simp only [LayoutError.ofType, Except.mapError, bind, Except.bind, hfields]
    exact ⟨_, rfl⟩
  · refine Or.inr ⟨name, hname, ?_⟩
    simp only [LayoutError.ofType, Except.mapError, bind, Except.bind, herror]

/-! ### Enums -/

private theorem addParams_of_kinds {us : List TypeId} (h : ∀ u ∈ us, ∃ k, r.kind? u = some k)
    (params : Region TypeId) : ∃ params', us.foldlM r.addParam params = .ok params' := by
  induction us generalizing params with
  | nil => exact ⟨params, rfl⟩
  | cons u us ih =>
    obtain ⟨k, hk⟩ := h u List.mem_cons_self
    have hadd : r.addParam params u = .ok (params.push k u) := by
      rw [addParam, kind_eq_ok.2 hk]
    rw [List.foldlM_cons, hadd]
    exact ih (fun u hu => h u (List.mem_cons_of_mem _ hu)) _

private theorem constructLayout_of_kinds {d : Construct} (h : ∀ u ∈ d.params, ∃ k, r.kind? u = some k) :
    ∃ c, r.constructLayout d = .ok c := by
  obtain ⟨params, hok⟩ := addParams_of_kinds h (.empty VariantLayout.headerSize)
  rw [constructLayout, hok]
  exact ⟨_, rfl⟩

theorem Built.constructLayout (h : r.Built) {name : String} {ds : List Construct} {d : Construct}
    (ht : r.get? t = some (.enum name ds)) (hd : d ∈ ds) : ∃ c, r.constructLayout d = .ok c :=
  constructLayout_of_kinds fun _ hu => h.kind?_reference ht (List.mem_flatMap.2 ⟨d, hd, hu⟩)

theorem Built.variantLayout (h : r.Built) {name : String} {ds : List Construct}
    (ht : r.get? t = some (.enum name ds)) : ∃ v, r.variantLayout t = .ok v := by
  obtain ⟨cs, hcs⟩ := Outcome.exists_mapM.2 fun d hd => h.constructLayout ht hd
  rw [Registry.variantLayout, Registry.enum, ht]
  simp only [LayoutError.ofType, Except.mapError, bind, Except.bind, hcs]
  exact ⟨_, rfl⟩

/-! ### Requests -/

section Kinds

variable {d : Descriptor} (ht : r.get? t = some d)

include ht

theorem classOf_of_kind_ne (hkind : d.kind ≠ .object) :
    r.classOf t = .error (.wrongKind .object d.kind) := by
  unfold classOf
  rw [ht]
  cases d with
  | object c => exact absurd rfl hkind
  | _ => rfl

theorem virtual_of_kind_ne (hkind : d.kind ≠ .virtual) :
    r.virtual t = .error (.wrongKind .virtual d.kind) := by
  unfold virtual
  rw [ht]
  cases d with
  | virtual fs => exact absurd rfl hkind
  | _ => rfl

theorem enum_of_kind_ne (hkind : d.kind ≠ .enum) : r.enum t = .error (.wrongKind .enum d.kind) := by
  unfold enum
  rw [ht]
  cases d with
  | enum name ds => exact absurd rfl hkind
  | _ => rfl

end Kinds

private theorem Built.request_refused (hb : r.Built) {d : Descriptor} {e : TypeError}
    (ht : r.get? t = some d) :
    (r.classLayout t = .error (.type e) → d.kind ≠ .object ∧ e = .wrongKind .object d.kind) ∧
      (r.viewLayout t = .error (.type e) → d.kind ≠ .virtual ∧ e = .wrongKind .virtual d.kind) ∧
      (r.variantLayout t = .error (.type e) → d.kind ≠ .enum ∧ e = .wrongKind .enum d.kind) := by
  refine ⟨?_, ?_, ?_⟩
  · intro h
    have hkind : d.kind ≠ .object := by
      intro hkind
      obtain ⟨c, rfl⟩ : ∃ c, d = .object c := by cases d <;> first | exact ⟨_, rfl⟩ | cases hkind
      obtain ⟨chain, hchain⟩ := hb.exists_lineage ht
      rcases hb.classLayout_ok_or_blames hchain with ⟨x, hx⟩ | ⟨c', -, e', hblames, herror⟩
      · cases h.symm.trans hx
      · cases h.symm.trans herror
        cases hblames
    have hwrong : r.classLayout t = .error (.type (.wrongKind .object d.kind)) := by
      rw [classLayout, classOf_of_kind_ne ht hkind]
      rfl
    cases h.symm.trans hwrong
    exact ⟨hkind, rfl⟩
  · intro h
    have hkind : d.kind ≠ .virtual := by
      intro hkind
      obtain ⟨fs, rfl⟩ : ∃ fs, d = .virtual fs := by cases d <;> first | exact ⟨_, rfl⟩ | cases hkind
      rcases hb.viewLayout_ok_or_duplicate ht with ⟨-, v, hv⟩ | ⟨name, -, herror⟩
      · cases h.symm.trans hv
      · cases h.symm.trans herror
    have hwrong : r.viewLayout t = .error (.type (.wrongKind .virtual d.kind)) := by
      rw [viewLayout, virtual_of_kind_ne ht hkind]
      rfl
    cases h.symm.trans hwrong
    exact ⟨hkind, rfl⟩
  · intro h
    have hkind : d.kind ≠ .enum := by
      intro hkind
      obtain ⟨name, ds, rfl⟩ : ∃ name ds, d = .enum name ds := by
        cases d <;> first | exact ⟨_, _, rfl⟩ | cases hkind
      obtain ⟨v, hv⟩ := hb.variantLayout ht
      cases h.symm.trans hv
    have hwrong : r.variantLayout t = .error (.type (.wrongKind .enum d.kind)) := by
      rw [Registry.variantLayout, enum_of_kind_ne ht hkind]
      rfl
    cases h.symm.trans hwrong
    exact ⟨hkind, rfl⟩

/-- In a built registry no layout of a registered type meets an unknown type or an endless chain: a request
is refused only if the type is of another kind. The chain of super classes of a class ends, and the class
has a layout unless a class of the chain declares a field or a method that clashes, is no function or
overrides what it cannot replace. A virtual type has a layout exactly if no name comes twice among its
fields, and an enum has one in any case. -/
theorem Built.layout_faults (hb : r.Built) :
    (∀ t d e, r.get? t = some d →
      (r.classLayout t = .error (.type e) → d.kind ≠ .object ∧ e = .wrongKind .object d.kind) ∧
      (r.viewLayout t = .error (.type e) → d.kind ≠ .virtual ∧ e = .wrongKind .virtual d.kind) ∧
      (r.variantLayout t = .error (.type e) → d.kind ≠ .enum ∧ e = .wrongKind .enum d.kind)) ∧
    (∀ t c, r.get? t = some (.object c) → r.ancestor? (r.size + 1) t = none ∧
      ∃ chain, r.lineage t = .ok chain ∧ (∀ n : Nat, chain[n]? = (r.ancestor? n t).bind r.class?) ∧
        ((∃ x, r.classLayout t = .ok x) ∨ ∃ c ∈ chain, ∃ e, e.Blames c ∧ r.classLayout t = .error e)) ∧
    (∀ t fs, r.get? t = some (.virtual fs) →
      ((∃ v, r.viewLayout t = .ok v) ↔ (fs.map Field.name).Nodup) ∧
      ∀ e, r.viewLayout t = .error e → ∃ name, List.Duplicate name (fs.map Field.name) ∧
        e = .duplicateField (r.typeName t) name) ∧
    ∀ t name ds, r.get? t = some (.enum name ds) → ∃ v, r.variantLayout t = .ok v := by
  refine ⟨fun t d e ht => hb.request_refused ht, ?_, ?_, fun t name ds ht => hb.variantLayout ht⟩
  · intro t c hc
    obtain ⟨chain, hchain⟩ := hb.exists_lineage hc
    exact ⟨hb.ancestor?_eq_none t, chain, hchain, getElem?_lineageFrom hchain,
      hb.classLayout_ok_or_blames hchain⟩
  · intro t fs ht
    rcases hb.viewLayout_ok_or_duplicate ht with ⟨hnodup, v, hv⟩ | ⟨name, hname, herror⟩
    · refine ⟨iff_of_true ⟨v, hv⟩ hnodup, ?_⟩
      intro e he
      cases hv.symm.trans he
    · refine ⟨iff_of_false ?_ (List.exists_duplicate_iff_not_nodup.1 ⟨name, hname⟩), ?_⟩
      · rintro ⟨v, hv⟩
        cases herror.symm.trans hv
      · intro e he
        cases herror.symm.trans he
        exact ⟨name, hname, rfl⟩

/-- A class with two fields of one name and a subclass of it, a virtual type with two such fields, one that
refers to itself, and an enum of the subclass. -/
def faultyTypes : Registry :=
  ⟨(Descriptor.builtins ++
    ([.object ⟨"Pair", none, [⟨"left", .i32⟩, ⟨"left", .i32⟩], []⟩,
      .object ⟨"Triple", some (.ofIndex 12), [⟨"right", .ofIndex 13⟩], []⟩,
      .virtual [⟨"size", .i32⟩, ⟨"next", .dynamic⟩, ⟨"size", .f64⟩],
      .virtual [⟨"size", .i32⟩, ⟨"next", .ofIndex 15⟩],
      .enum "Choice" [⟨"None", []⟩, ⟨"Some", [.bool, .ofIndex 13]⟩]] : List Descriptor)).toArray⟩

theorem faultyTypes_built : faultyTypes.Built :=
  .of_adds (faultyTypes.types.toList.drop Descriptor.builtins.length) (by decide +kernel)
    (by decide +kernel)

/-- The subclass has no layout, as the class that it extends is at fault. -/
theorem faultyTypes_faults :
    faultyTypes.classLayout (.ofIndex 13) = .error (.duplicateField "Pair" "left") ∧
    (∃ chain, faultyTypes.lineage (.ofIndex 13) = .ok chain ∧ chain.map Class.name = ["Triple", "Pair"]) ∧
    (¬∃ v, faultyTypes.viewLayout (.ofIndex 14) = .ok v) ∧
    (∃ v, faultyTypes.viewLayout (.ofIndex 15) = .ok v) ∧
    ∃ v, faultyTypes.variantLayout (.ofIndex 16) = .ok v := by
  obtain ⟨-, hclass, hview, henum⟩ := faultyTypes_built.layout_faults
  have hfault : faultyTypes.classLayout (.ofIndex 13) = .error (.duplicateField "Pair" "left") := by
    decide +kernel
  have hnames : (faultyTypes.lineage (.ofIndex 13)).map (·.map Class.name) = .ok ["Triple", "Pair"] := by
    decide +kernel
  refine ⟨hfault, ?_, ?_, ?_, henum (.ofIndex 16) _ _ rfl⟩
  · obtain ⟨-, chain, hchain, -, -⟩ := hclass (.ofIndex 13) _ rfl
    rw [hchain] at hnames
    exact ⟨chain, hchain, Except.ok.inj hnames⟩
  · rw [(hview (.ofIndex 14) _ rfl).1]
    decide
  · rw [(hview (.ofIndex 15) _ rfl).1]
    decide

end Registry

end ObjectModel
