import ObjectModel.Proofs.Layout.Overriding
import ObjectModel.Proofs.Layout.Resolution

/-!
Which classes have a layout. What a class declares is added to what it inherits one member after the other;
all goes well exactly if no name clashes, methods are functions, and overriding ones can stand in for those
whose slots they take.
-/

set_option autoImplicit false
set_option relaxedAutoImplicit false

namespace ObjectModel

namespace Members

/-- A name that stands for no field and no method. -/
def Free (m : Members) (name : String) : Prop :=
  (∀ f ∈ m.fields.values, f.name ≠ name) ∧ ∀ e ∈ m.methods.entries, e.name ≠ name

/-- A method may be added: its name stands for no field, its type is a function type, and it can stand in
for the method that has its name. -/
structure Admits (r : Registry) (m : Members) (d : Method) : Prop where
  apart : ∀ f ∈ m.fields.values, f.name ≠ d.name
  function : ∃ args ret, r.get? d.type = some (.function args ret)
  replaces : ∀ e ∈ m.methods.entries, e.name = d.name → r.Replaces e.type d.type

/-- The names of the fields that have one. -/
def namesOf (fs : List Field) : List String := (fs.filter (·.name != "")).map Field.name

/-- What stands in the slot of an inherited method once the methods `ds` are added. -/
def overridden (r : Registry) (ds : List Method) (e : MethodEntry) : MethodEntry :=
  ((ds.find? (·.name == e.name)).map (entryOf r)).getD e

variable {r : Registry} {owner : String} {m n : Members} {f : Field} {fs : List Field} {d : Method}
  {ds : List Method} {e : MethodEntry} {name : String} {earlier : List String} {slot : Nat}

/-! ### Fields -/

private theorem exists_addField (hkind : ∃ k, r.kind? f.type = some k) :
    (∃ n, addField r owner m f = .ok n) ↔ (f.name ≠ "" → m.Free f.name) := by
  have hfield : m.hasField f.name = false ↔ ∀ g ∈ m.fields.values, g.name ≠ f.name := by simp [hasField]
  have hmethod : m.hasMethod f.name = false ↔ ∀ e ∈ m.methods.entries, e.name ≠ f.name := by
    simp [hasMethod, MethodTable.slotOf?_eq_none]
  unfold Free
  rw [← hfield, ← hmethod]
  constructor
  · rintro ⟨n, h⟩
    exact addField_checked h
  · intro hfree
    obtain ⟨k, hk⟩ := hkind
    have hnoField : ¬(f.name ≠ "" ∧ m.hasField f.name = true) :=
      fun h => Bool.false_ne_true ((hfree h.1).1.symm.trans h.2)
    have hnoMethod : ¬(f.name ≠ "" ∧ m.hasMethod f.name = true) :=
      fun h => Bool.false_ne_true ((hfree h.1).2.symm.trans h.2)
    rw [addField, if_neg hnoField, if_neg hnoMethod, Registry.kind_eq_ok.2 hk]
    exact ⟨_, rfl⟩

private theorem nodup_namesOf_cons :
    (namesOf (f :: fs)).Nodup ↔ (namesOf fs).Nodup ∧ ∀ g ∈ fs, g.name ≠ "" → f.name ≠ g.name := by
  by_cases hname : f.name = ""
  · have hsame : namesOf (f :: fs) = namesOf fs := by simp [namesOf, hname]
    rw [hsame, hname]
    exact (and_iff_left fun g _ hg => hg.symm).symm
  · have hcons : namesOf (f :: fs) = f.name :: namesOf fs := by simp [namesOf, hname]
    have hmem : f.name ∉ namesOf fs ↔ ∀ g ∈ fs, g.name ≠ "" → f.name ≠ g.name := by
      simp only [namesOf, List.mem_map, List.mem_filter, bne_iff_ne, not_exists, not_and, and_imp,
        ne_comm (a := f.name), ne_eq]
    rw [hcons, List.nodup_cons, hmem, and_comm]

private theorem exists_addFields (hkinds : ∀ f ∈ fs, ∃ k, r.kind? f.type = some k) :
    (∃ n, fs.foldlM (addField r owner) m = .ok n) ↔
      (namesOf fs).Nodup ∧ ∀ f ∈ fs, f.name ≠ "" → m.Free f.name := by
  induction fs generalizing m with
  | nil => exact iff_of_true ⟨m, rfl⟩ ⟨.nil, List.forall_mem_nil _⟩
  | cons f fs ih =>
    obtain ⟨hkind, hkinds⟩ := List.forall_mem_cons.1 hkinds
    have hstep {m' : Members} (hf : addField r owner m f = .ok m') (name : String) :
        m'.Free name ↔ m.Free name ∧ f.name ≠ name := by
      obtain ⟨hvalues, hmethods⟩ := addField_grows hf
      unfold Free
      rw [hvalues, hmethods, List.forall_mem_append, List.forall_mem_singleton, and_right_comm]
    have hlater {m' : Members} (hf : addField r owner m f = .ok m') :
        (∃ n, fs.foldlM (addField r owner) m' = .ok n) ↔
          (namesOf (f :: fs)).Nodup ∧ ∀ g ∈ fs, g.name ≠ "" → m.Free g.name := by
      simp only [ih hkinds, hstep hf, nodup_namesOf_cons, imp_and, forall_and]
      rw [and_assoc, and_comm (a := ∀ g ∈ fs, g.name ≠ "" → m.Free g.name)]
    simp only [List.foldlM_cons, Outcome.bind_eq_ok, List.forall_mem_cons]
    constructor
    · rintro ⟨n, m', hf, hrest⟩
      obtain ⟨hnodup, hall⟩ := (hlater hf).1 ⟨n, hrest⟩
      exact ⟨hnodup, (exists_addField hkind).1 ⟨m', hf⟩, hall⟩
    · rintro ⟨hnodup, hfirst, hall⟩
      obtain ⟨m', hf⟩ := (exists_addField hkind).2 hfirst
      obtain ⟨n, hrest⟩ := (hlater hf).2 ⟨hnodup, hall⟩
      exact ⟨n, m', hf, hrest⟩

/-! ### Methods -/

private theorem Collects.exists_addMethod (hm : Collects r fs ds m) :
    (∃ n, m.addMethod r owner d = .ok n) ↔ m.Admits r d := by
  have hfield : m.hasField d.name = false ↔ ∀ f ∈ m.fields.values, f.name ≠ d.name := by simp [hasField]
  constructor
  · rintro ⟨n, h⟩
    obtain ⟨hnoField, hfunction, hoverrides⟩ := addMethod_checked h
    refine ⟨hfield.1 hnoField, hfunction, ?_⟩
    intro e he hname
    obtain ⟨slot, hslot⟩ := List.mem_iff_getElem?.1 he
    have hfound := (MethodTable.slotOf?_eq_some hm.nodup_table).2 ⟨e, hslot, hname⟩
    exact Registry.overrides_iff.1 (hoverrides slot e hfound hslot)
  · rintro ⟨hapart, ⟨args, ret, hfunction⟩, hreplaces⟩
    have hnoField : ¬m.hasField d.name = true := by
      rw [hfield.2 hapart]
      exact Bool.false_ne_true
    rw [Members.addMethod, if_neg hnoField, Registry.function_eq_ok.2 hfunction]
    cases hfound : m.methods.slotOf? d.name with
    | none => exact ⟨_, rfl⟩
    | some slot =>
      obtain ⟨e, hslot, hname⟩ := (MethodTable.slotOf?_eq_some hm.nodup_table).1 hfound
      have hoverrides := Registry.overrides_iff.2 (hreplaces e (List.mem_of_getElem? hslot) hname)
      simp only [MethodTable.get?, hslot, if_pos hoverrides]
      exact ⟨_, rfl⟩

private theorem Collects.mem_addMethod_iff (hm : Collects r fs ds m) (h : m.addMethod r owner d = .ok n)
    (hname : e.name ≠ d.name) : e ∈ n.methods.entries ↔ e ∈ m.methods.entries := by
  constructor
  · intro he
    rcases mem_addMethod hm.nodup_table h he with rfl | ⟨he, -⟩
    · exact absurd rfl hname
    · exact he
  · intro he
    rcases addMethod_ok h with ⟨-, rfl⟩ | ⟨slot, hslot, -, rfl⟩
    · exact List.mem_append_left _ he
    · obtain ⟨j, hj⟩ := List.mem_iff_getElem?.1 he
      have hother : slot ≠ j := by
        rintro rfl
        obtain ⟨e', he', hname'⟩ := (MethodTable.slotOf?_eq_some hm.nodup_table).1 hslot
        obtain rfl := Option.some.inj (hj.symm.trans he')
        exact hname hname'
      exact List.mem_of_getElem? ((List.getElem?_set_ne hother).trans hj)

private theorem Collects.admits_addMethod_iff (hm : Collects r fs ds m) (h : m.addMethod r owner d = .ok n)
    {d' : Method} (hname : d'.name ≠ d.name) : n.Admits r d' ↔ m.Admits r d' := by
  have hfields : n.fields = m.fields := by rcases addMethod_ok h with ⟨-, rfl⟩ | ⟨_, -, -, rfl⟩ <;> rfl
  have hsame {e : MethodEntry} (he : e.name = d'.name) : e ∈ n.methods.entries ↔ e ∈ m.methods.entries :=
    hm.mem_addMethod_iff h (he ▸ hname)
  constructor
  · rintro ⟨hapart, hfunction, hreplaces⟩
    exact ⟨hfields ▸ hapart, hfunction, fun e he hd => hreplaces e ((hsame hd).2 he) hd⟩
  · rintro ⟨hapart, hfunction, hreplaces⟩
    exact ⟨hfields ▸ hapart, hfunction, fun e he hd => hreplaces e ((hsame hd).1 he) hd⟩

private theorem Collects.exists_addMethods {es : List Method} (hm : Collects r fs es m) :
    (∃ n, m.addMethods r owner earlier ds = .ok n) ↔
      (ds.map Method.name).Nodup ∧ ∀ d ∈ ds, d.name ∉ earlier ∧ m.Admits r d := by
  induction ds generalizing m es earlier with
  | nil => exact iff_of_true ⟨m, rfl⟩ ⟨.nil, List.forall_mem_nil _⟩
  | cons d ds ih =>
    simp only [addMethods_cons_iff, List.map_cons, List.nodup_cons, List.forall_mem_cons]
    constructor
    · rintro ⟨n, hearlier, m', hd, hrest⟩
      obtain ⟨hnodup, hall⟩ := (ih (hm.addMethod hd)).1 ⟨n, hrest⟩
      have hapart : ∀ d' ∈ ds, d'.name ≠ d.name := fun d' hd' => List.ne_of_not_mem_cons (hall d' hd').1
      refine ⟨⟨?_, hnodup⟩, ⟨hearlier, hm.exists_addMethod.1 ⟨m', hd⟩⟩, ?_⟩
      · intro hmem
        obtain ⟨d', hd', hname⟩ := List.mem_map.1 hmem
        exact hapart d' hd' hname
      · intro d' hd'
        exact ⟨List.not_mem_of_not_mem_cons (hall d' hd').1,
          (hm.admits_addMethod_iff hd (hapart d' hd')).1 (hall d' hd').2⟩
    · rintro ⟨⟨hnew, hnodup⟩, ⟨hearlier, hadmits⟩, hall⟩
      obtain ⟨m', hd⟩ := hm.exists_addMethod.2 hadmits
      have hapart : ∀ d' ∈ ds, d'.name ≠ d.name :=
        fun d' hd' hname => hnew (hname ▸ List.mem_map_of_mem hd')
      have hall' : ∀ d' ∈ ds, d'.name ∉ d.name :: earlier ∧ m'.Admits r d' := by
        intro d' hd'
        exact ⟨List.not_mem_cons_of_ne_of_not_mem (hapart d' hd') (hall d' hd').1,
          (hm.admits_addMethod_iff hd (hapart d' hd')).2 (hall d' hd').2⟩
      obtain ⟨n, hrest⟩ := (ih (hm.addMethod hd)).2 ⟨hnodup, hall'⟩
      exact ⟨n, hearlier, m', hd, hrest⟩

/-! ### The table -/

private theorem overridden_cons_of_ne (hname : e.name ≠ d.name) :
    overridden r (d :: ds) e = overridden r ds e := by
  rw [overridden, List.find?_cons_of_neg (by simpa using hname.symm), overridden]

private theorem overridden_cons_of_eq (hname : e.name = d.name) :
    overridden r (d :: ds) e = entryOf r d := by
  rw [overridden, List.find?_cons_of_pos (by simpa using hname.symm)]
  rfl

private theorem overridden_of_notMem (hnew : e.name ∉ ds.map Method.name) : overridden r ds e = e := by
  have hnone : ds.find? (·.name == e.name) = none := by
    rw [List.find?_eq_none]
    intro d hd hname
    exact hnew (List.mem_map.2 ⟨d, hd, beq_iff_eq.1 hname⟩)
  rw [overridden, hnone]
  rfl

private theorem Collects.entries_addMethods {es : List Method} (hm : Collects r fs es m)
    (h : m.addMethods r owner earlier ds = .ok n) :
    n.methods.entries = m.methods.entries.map (overridden r ds) ++
      (ds.filter fun d => d.name ∉ m.methods.entries.map MethodEntry.name).map (entryOf r) := by
  have hnodup : (ds.map Method.name).Nodup := (hm.exists_addMethods.1 ⟨n, h⟩).1
  induction ds generalizing m es earlier with
  | nil =>
    cases h
    have hsame : overridden r [] = id := funext fun e => overridden_of_notMem List.not_mem_nil
    simp [hsame]
  | cons d ds ih =>
    obtain ⟨-, m', hd, hrest⟩ := addMethods_cons_iff.1 h
    obtain ⟨hnew, hnodup⟩ := List.nodup_cons.1 hnodup
    have hself : overridden r ds (entryOf r d) = entryOf r d := overridden_of_notMem hnew
    rw [ih (hm.addMethod hd) hrest hnodup]
    rcases addMethod_ok hd with ⟨hnone, rfl⟩ | ⟨slot, hslot, hlt, rfl⟩
    · have hfresh := MethodTable.slotOf?_eq_none.1 hnone
      have hkept : m.methods.entries.map (overridden r ds) =
          m.methods.entries.map (overridden r (d :: ds)) := by
        refine List.map_congr_left fun e he => (overridden_cons_of_ne ?_).symm
        exact fun hname => hfresh (hname ▸ List.mem_map_of_mem he)
      have hothers : ds.filter (fun d' => d'.name ∉ (m.methods.entries ++ [entryOf r d]).map MethodEntry.name) =
          ds.filter fun d' => d'.name ∉ m.methods.entries.map MethodEntry.name := by
        refine List.filter_congr fun d' hd' => ?_
        have hapart : d'.name ≠ d.name := fun hname => hnew (hname ▸ List.mem_map_of_mem hd')
        simp [entryOf, hapart]
      simp only [MethodTable.add, List.map_append, List.map_singleton, hself] at hothers ⊢
      rw [hothers, hkept, List.filter_cons_of_pos (by simpa using hfresh), List.map_cons, List.append_assoc]
      rfl
    · have hmem : d.name ∈ m.methods.entries.map MethodEntry.name :=
        List.mem_of_getElem? (MethodTable.name_of_slotOf? hslot)
      have hset : (m.methods.entries.set slot (entryOf r d)).map (overridden r ds) =
          m.methods.entries.map (overridden r (d :: ds)) := by
        refine List.ext_getElem? fun j => ?_
        rw [List.getElem?_map, List.getElem?_map]
        by_cases hsame : slot = j
        · subst hsame
          obtain ⟨e, he, hname⟩ := (MethodTable.slotOf?_eq_some hm.nodup_table).1 hslot
          rw [List.getElem?_set_self hlt, he, Option.map_some, Option.map_some, hself,
            overridden_cons_of_eq hname]
        · rw [List.getElem?_set_ne hsame]
          refine Option.map_congr fun e he => (overridden_cons_of_ne ?_).symm
          exact MethodTable.name_ne_of_slot hm.nodup_table hslot hsame (Option.mem_def.1 he)
      rw [MethodTable.names_set (d := entryOf r d) hslot, hset, List.filter_cons_of_neg (by simpa using hmem)]

/-! ### What a class adds -/

theorem Collects.function_of_name (hm : Collects r fs ds m) (name : String) :
    ((m.methods.slotOf? name).bind m.methods.get?).map MethodEntry.function =
      (ds.reverse.find? (·.name == name)).map Method.function := by
  cases hslot : m.methods.slotOf? name with
  | none =>
    have hnew := MethodTable.slotOf?_eq_none.1 hslot
    rw [hm.slots, List.mem_eraseDups] at hnew
    have hnone : ds.reverse.find? (·.name == name) = none := by
      rw [List.find?_eq_none]
      intro d hd hname
      exact hnew (List.mem_map.2 ⟨d, List.mem_reverse.1 hd, beq_iff_eq.1 hname⟩)
    rw [hnone, Option.bind_none, Option.map_none, Option.map_none]
  | some slot =>
    obtain ⟨e, he, rfl⟩ := (MethodTable.slotOf?_eq_some hm.nodup_table).1 hslot
    obtain ⟨d, hd, rfl⟩ := hm.last e (List.mem_of_getElem? he)
    rw [hd, Option.bind_some, MethodTable.get?, he]
    rfl

end Members

/-- What a class inherits: the members of its super class, if it has one. -/
inductive Class.Inherits (r : Registry) (c : Class) : Members → Prop
  | nothing (h : c.super = none) : c.Inherits r .empty
  | members {up : TypeId} {y : ClassLayout} (h : c.super = some up) (hy : r.classLayout up = .ok y) :
    c.Inherits r y.members

/-- A class may be laid out behind the members that it inherits. -/
structure Class.Admissible (r : Registry) (inherited : Members) (c : Class) : Prop where
  fieldsOnce : (Members.namesOf c.fields).Nodup
  fieldsNew : ∀ f ∈ c.fields, f.name ≠ "" → inherited.Free f.name
  methodsOnce : (c.methods.map Method.name).Nodup
  methodsApart : ∀ d ∈ c.methods, ∀ f ∈ inherited.fields.values ++ c.fields, f.name ≠ d.name
  functions : ∀ d ∈ c.methods, ∃ args ret, r.get? d.type = some (.function args ret)
  overriding : ∀ d ∈ c.methods, ∀ e ∈ inherited.methods.entries, e.name = d.name → r.Replaces e.type d.type

namespace Members

variable {r : Registry} {owner : String} {m n : Members} {fs : List Field} {ds : List Method} {c : Class}

/-- A class can add its members to those that it inherits exactly if it is admissible. -/
theorem Collects.exists_extend (hm : Collects r fs ds m)
    (hkinds : ∀ f ∈ c.fields, ∃ k, r.kind? f.type = some k) :
    (∃ n, m.extend r c = .ok n) ↔ c.Admissible r m := by
  unfold Members.extend
  simp only [Outcome.bind_eq_ok]
  constructor
  · rintro ⟨n, m', hfields, hmethods⟩
    obtain ⟨hvalues, hsame⟩ := addFields_grows hfields
    obtain ⟨hfieldsOnce, hfieldsNew⟩ := (exists_addFields hkinds).1 ⟨m', hfields⟩
    obtain ⟨hmethodsOnce, hall⟩ := (hm.addFields hfields).exists_addMethods.1 ⟨n, hmethods⟩
    refine ⟨hfieldsOnce, hfieldsNew, hmethodsOnce, ?_, fun d hd => (hall d hd).2.function, ?_⟩
    · intro d hd
      rw [← hvalues]
      exact (hall d hd).2.apart
    · intro d hd
      rw [← hsame]
      exact (hall d hd).2.replaces
  · rintro ⟨hfieldsOnce, hfieldsNew, hmethodsOnce, hapart, hfunctions, hoverriding⟩
    obtain ⟨m', hfields⟩ := (exists_addFields hkinds).2 ⟨hfieldsOnce, hfieldsNew⟩
    obtain ⟨hvalues, hsame⟩ := addFields_grows hfields
    have hall : ∀ d ∈ c.methods, d.name ∉ [] ∧ m'.Admits r d := by
      intro d hd
      exact ⟨List.not_mem_nil, hvalues ▸ hapart d hd, hfunctions d hd, hsame ▸ hoverriding d hd⟩
    obtain ⟨n, hmethods⟩ := (hm.addFields hfields).exists_addMethods.2 ⟨hmethodsOnce, hall⟩
    exact ⟨n, m', hfields, hmethods⟩

theorem Collects.entries_extend (hm : Collects r fs ds m) (h : m.extend r c = .ok n) :
    n.methods.entries = m.methods.entries.map (overridden r c.methods) ++
      (c.methods.filter fun d => d.name ∉ m.methods.entries.map MethodEntry.name).map (entryOf r) := by
  obtain ⟨m', hfields, hmethods⟩ := extend_ok h
  rw [(hm.addFields hfields).entries_addMethods hmethods, (addFields_grows hfields).2]

end Members

namespace Registry

variable {r : Registry} {t : TypeId} {c : Class} {m : Members}

private theorem lineageFrom_of_climbs {ds : List Descriptor} {n : Nat}
    (hds : ∀ {i : Nat} {d : Descriptor}, ds[i]? = some d → r.types[i]? = some d)
    (h : Builder.Climbs ds n c) (hc : r.get? t = some (.object c)) : ∃ cs, r.lineageFrom n t = .ok cs := by
  induction h generalizing t with
  | @top n c hnone =>
    rw [lineageFrom, classOf_eq_ok.2 hc]
    simp only [hnone]
    exact ⟨_, rfl⟩
  | @up n c parent up hup hparent _ ih =>
    obtain ⟨cs, hcs⟩ := ih (hds hparent)
    rw [lineageFrom, classOf_eq_ok.2 hc]
    simp only [hup, hcs]
    exact ⟨_, rfl⟩

private theorem lineageFrom_le {steps steps' : Nat} {cs : List Class} (h : r.lineageFrom steps t = .ok cs)
    (hle : steps ≤ steps') : r.lineageFrom steps' t = .ok cs := by
  induction hle with
  | refl => exact h
  | step _ ih => exact lineageFrom_succ ih

/-- In a built registry the chain of super classes comes to an end. -/
theorem Built.exists_lineage (hb : r.Built) (hc : r.get? t = some (.object c)) :
    ∃ cs, r.lineage t = .ok cs := by
  obtain ⟨b, -, hbuild⟩ := hb.built
  obtain ⟨ds, -, -, hinherit, rfl⟩ := Builder.build_eq_ok.1 hbuild
  have hmem := Builder.object_mem_of_appendApplied _ (Array.mem_of_getElem? hc)
  have hclimbs := Builder.checkInheritance_eq_ok.1 hinherit c hmem
  obtain ⟨cs, hcs⟩ := lineageFrom_of_climbs (Builder.getElem?_appendApplied _) hclimbs hc
  exact ⟨cs, lineageFrom_le hcs (Builder.types_appendApplied (Builder.maxArity ds) ds ds.toArray).length_le⟩

private theorem Built.lineage_of_inherits (hb : r.Built) (hc : r.get? t = some (.object c))
    (hm : c.Inherits r m) : ∃ rest, r.lineage t = .ok (c :: rest) ∧ r.membersOf rest = .ok m := by
  obtain ⟨cs, hcs⟩ := hb.exists_lineage hc
  obtain ⟨c', hc', hchain⟩ := lineageFrom_ok hcs
  obtain rfl := Descriptor.object.inj (Option.some.inj (hc.symm.trans hc'))
  rcases hchain with ⟨hnone, rfl⟩ | ⟨up, steps, rest, hup, hsteps, hrest, rfl⟩
  · cases hm with
    | nothing => exact ⟨[], hcs, rfl⟩
    | members hup => exact absurd (hup.symm.trans hnone) (Option.some_ne_none _)
  · cases hm with
    | nothing hnone => exact absurd (hup.symm.trans hnone) (Option.some_ne_none _)
    | members hup' hy =>
      obtain rfl := Option.some.inj (hup.symm.trans hup')
      obtain ⟨above, habove, hm, -⟩ := classLayout_ok hy
      rw [lineage, hsteps] at habove
      obtain rfl := Except.ok.inj ((lineageFrom_succ hrest).symm.trans habove)
      exact ⟨rest, hcs, hm⟩

/-- A class has a layout exactly if the names of its own fields come once and are new, its methods come
once, are no fields, are functions, and can stand in for those that they override. In the layout no name
comes twice; a method that overrides another one has its slot, others have the next ones in the order of
their declaration; and instances are compared by the nearest `__compare` of the chain. -/
theorem Built.classLayout_iff_admissible (hb : r.Built) (hc : r.get? t = some (.object c))
    (hm : c.Inherits r m) :
    ((∃ x, r.classLayout t = .ok x) ↔ c.Admissible r m) ∧
      ∀ x, r.classLayout t = .ok x → ∃ chain,
        (∀ n : Nat, chain[n]? = (r.ancestor? n t).bind r.class?) ∧
        x.members.fields.values = declaredFields chain ∧
        x.methods.entries.map MethodEntry.name = ((declaredMethods chain).map Method.name).eraseDups ∧
        (Members.namesOf x.members.fields.values ++ x.methods.entries.map MethodEntry.name).Nodup ∧
        x.methods.entries = m.methods.entries.map (Members.overridden r c.methods) ++
          (c.methods.filter fun d => d.name ∉ m.methods.entries.map MethodEntry.name).map
            (Members.entryOf r) ∧
        x.compareFunction = ((declaredMethods chain).reverse.find? (·.name == Members.compareName)).map
          Method.function := by
  obtain ⟨rest, hcs, hrest⟩ := hb.lineage_of_inherits hc hm
  have hcollects := Members.collects_membersOf hrest
  have hkinds : ∀ f ∈ c.fields, ∃ k, r.kind? f.type = some k := by
    intro f hf
    refine hb.kind?_reference hc ?_
    exact List.mem_append_left _ (List.mem_append_right _ (List.mem_map_of_mem hf))
  have hextend {x : ClassLayout} (hx : r.classLayout t = .ok x) :
      r.membersOf (c :: rest) = .ok x.members ∧ m.extend r c = .ok x.members := by
    obtain ⟨cs, hcs', hmembers, -⟩ := classLayout_ok hx
    obtain rfl := Except.ok.inj (hcs.symm.trans hcs')
    obtain ⟨m', hm', hx⟩ := membersOf_cons_ok hmembers
    obtain rfl := Except.ok.inj (hrest.symm.trans hm')
    exact ⟨hmembers, hx⟩
  refine ⟨?_, ?_⟩
  · rw [← hcollects.exists_extend hkinds]
    constructor
    · rintro ⟨x, hx⟩
      exact ⟨x.members, (hextend hx).2⟩
    · rintro ⟨n, hn⟩
      have hall : r.membersOf (c :: rest) = .ok n := Outcome.bind_eq_ok.2 ⟨m, hrest, hn⟩
      obtain ⟨x, hx, -⟩ := classLayout_of_membersOf hc hcs hall
      exact ⟨x, hx⟩
  · intro x hx
    obtain ⟨hmembers, hadded⟩ := hextend hx
    obtain ⟨-, -, -, -, hcompare, -⟩ := classLayout_ok hx
    have hx' := Members.collects_membersOf hmembers
    exact ⟨c :: rest, getElem?_lineageFrom hcs, hx'.fields, hx'.slots, hx'.nodup,
      hcollects.entries_extend hadded, hcompare.trans (hx'.function_of_name _)⟩

/-- A class that compares its instances, one that adds a method and compares in its own way, and one whose
method has the name of a field. -/
def comparedTypes : Registry :=
  ⟨(Descriptor.builtins ++
    ([.function [.ofIndex 14, .ofIndex 14] .i32, .function [.ofIndex 15, .ofIndex 14] .i32,
      .object ⟨"Base", none, [⟨"size", .i32⟩], [⟨"__compare", 4, .ofIndex 12⟩]⟩,
      .object ⟨"Derived", some (.ofIndex 14), [⟨"next", .ofIndex 15⟩],
        [⟨"show", 6, .ofIndex 13⟩, ⟨"__compare", 5, .ofIndex 13⟩]⟩,
      .object ⟨"Clash", some (.ofIndex 14), [], [⟨"size", 7, .ofIndex 13⟩]⟩,
      .function [.ofIndex 14] .i32, .function [] .i32] : List Descriptor)).toArray⟩

theorem comparedTypes_built : comparedTypes.Built :=
  .of_adds (comparedTypes.types.toList.drop Descriptor.builtins.length) (by decide +kernel)
    (by decide +kernel)

/-- The override has the first slot and compares the instances, the method that is new has the second; the
class whose method has the name of an inherited field may not be laid out. -/
theorem comparedTypes_admits :
    ∃ c c' m x, comparedTypes.get? (.ofIndex 15) = some (.object c) ∧
      comparedTypes.get? (.ofIndex 16) = some (.object c') ∧ c.Inherits comparedTypes m ∧
      c'.Inherits comparedTypes m ∧ c.Admissible comparedTypes m ∧ ¬c'.Admissible comparedTypes m ∧
      comparedTypes.classLayout (.ofIndex 15) = .ok x ∧ x.compareFunction = some 5 ∧
      x.methods.entries.map MethodEntry.function = [5, 6] := by
  have hparent : (comparedTypes.classLayout (.ofIndex 14)).map (fun _ => ()) = .ok () := by decide +kernel
  obtain ⟨y, hy, -⟩ := Outcome.map_eq_ok.1 hparent
  have hchild : (comparedTypes.classLayout (.ofIndex 15)).map (fun x =>
      (x.compareFunction, x.methods.entries.map MethodEntry.function)) = .ok (some 5, [5, 6]) := by
    decide +kernel
  obtain ⟨x, hx, hfound⟩ := Outcome.map_eq_ok.1 hchild
  have hclash : comparedTypes.classLayout (.ofIndex 16) = .error (.memberConflict "Clash" "size") := by
    decide +kernel
  have hc : comparedTypes.get? (.ofIndex 15) = some (.object ⟨"Derived", some (.ofIndex 14),
      [⟨"next", .ofIndex 15⟩], [⟨"show", 6, .ofIndex 13⟩, ⟨"__compare", 5, .ofIndex 13⟩]⟩) := rfl
  have hc' : comparedTypes.get? (.ofIndex 16) = some (.object ⟨"Clash", some (.ofIndex 14), [],
      [⟨"size", 7, .ofIndex 13⟩]⟩) := rfl
  have hinherits {c : Class} (h : c.super = some (.ofIndex 14)) : c.Inherits comparedTypes y.members :=
    .members h hy
  refine ⟨_, _, y.members, x, hc, hc', hinherits rfl, hinherits rfl, ?_, ?_, hx,
    congrArg Prod.fst hfound, congrArg Prod.snd hfound⟩
  · exact (comparedTypes_built.classLayout_iff_admissible hc (hinherits rfl)).1.1 ⟨x, hx⟩
  · intro hadmissible
    obtain ⟨x', hx'⟩ := (comparedTypes_built.classLayout_iff_admissible hc' (hinherits rfl)).1.2 hadmissible
    exact absurd (hclash.symm.trans hx') (fun h => nomatch h)

end Registry

end ObjectModel
