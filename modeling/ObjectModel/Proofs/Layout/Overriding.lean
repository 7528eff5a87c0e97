import ObjectModel.Proofs.Layout.Members
import ObjectModel.Proofs.Registry.Subclasses

/-!
Overriding holds along the whole chain of super classes. The layout of a class is checked against the one
that it extends only, but that a method may stand for another one is a transitive relation, and slots keep
their numbers; so the methods of any ancestor can be called through the slots of the class.
-/

set_option autoImplicit false
set_option relaxedAutoImplicit false

namespace ObjectModel

namespace Registry

variable {r : Registry} {base mid child : TypeId}

/-- A function of type `child` takes the arguments that one of type `base` takes, the receiver apart, and
gives back what that one gives back or an instance of a subclass. -/
def Replaces (r : Registry) (base child : TypeId) : Prop :=
  ∃ bargs bret cargs cret, r.get? base = some (.function bargs bret) ∧
    r.get? child = some (.function cargs cret) ∧ bargs.length = cargs.length ∧
    (∀ (i : Nat) x y, 0 < i → bargs[i]? = some x → cargs[i]? = some y → r.sameType x y = true) ∧
    (r.sameType bret cret = true ∨ r.kind? cret = some .object ∧ r.isSubclass cret bret = true)

private theorem all_drop_one_zip {P : TypeId → TypeId → Bool} {xs ys : List TypeId} :
    ((xs.zip ys).drop 1).all (fun p => P p.1 p.2) = true ↔
      ∀ (i : Nat) x y, 0 < i → xs[i]? = some x → ys[i]? = some y → P x y = true := by
  rw [List.all_eq_true]
  constructor
  · intro h i x y hi hx hy
    refine h (x, y) (List.mem_of_getElem? (i := i - 1) ?_)
    rw [List.getElem?_drop, show 1 + (i - 1) = i by omega, List.getElem?_zip_eq_some]
    exact ⟨hx, hy⟩
  · intro h p hp
    obtain ⟨i, hi⟩ := List.mem_iff_getElem?.1 hp
    rw [List.getElem?_drop, List.getElem?_zip_eq_some] at hi
    exact h (1 + i) p.1 p.2 (by omega) hi.1 hi.2

/-- The check of an override accepts what may stand in for the method. -/
theorem overrides_iff : r.overrides base child = true ↔ r.Replaces base child := by
  unfold overrides
  constructor
  · intro h
    cases hbase : r.function base with
    | error e => simp [hbase] at h
    | ok b =>
      cases hchild : r.function child with
      | error e => simp [hbase, hchild] at h
      | ok c =>
        simp only [hbase, hchild, Bool.and_eq_true, Bool.or_eq_true, beq_iff_eq, all_drop_one_zip] at h
        obtain ⟨⟨hlength, hargs⟩, hret⟩ := h
        exact ⟨b.1, b.2, c.1, c.2, function_eq_ok.1 hbase, function_eq_ok.1 hchild, hlength, hargs, hret⟩
  · rintro ⟨bargs, bret, cargs, cret, hbase, hchild, hlength, hargs, hret⟩
    simp only [function_eq_ok.2 hbase, function_eq_ok.2 hchild, Bool.and_eq_true, Bool.or_eq_true,
      beq_iff_eq, all_drop_one_zip]
    exact ⟨⟨hlength, hargs⟩, hret⟩

theorem replaces_refl {args : List TypeId} {ret : TypeId} (h : r.get? base = some (.function args ret)) :
    r.Replaces base base := by
  refine ⟨args, ret, args, ret, h, h, rfl, ?_, Or.inl (sameType_refl r ret)⟩
  intro i x y _ hx hy
  obtain rfl : x = y := Option.some.inj (hx.symm.trans hy)
  exact sameType_refl r x

private theorem Built.result_trans (hb : r.Built) {b m c : TypeId}
    (hbm : r.sameType b m = true ∨ r.kind? m = some .object ∧ r.isSubclass m b = true)
    (hmc : r.sameType m c = true ∨ r.kind? c = some .object ∧ r.isSubclass c m = true) :
    r.sameType b c = true ∨ r.kind? c = some .object ∧ r.isSubclass c b = true := by
  rcases hbm with hbm | ⟨hm, hmb⟩
  · rcases hmc with hmc | ⟨hc, hcm⟩
    · exact Or.inl (sameType_trans hbm hmc)
    · exact Or.inr ⟨hc, isSubclass_of_sameType hcm (sameType_symm hbm)⟩
  · rcases hmc with hmc | ⟨hc, hcm⟩
    · have hcm := isSubclass_of_same (sameType_symm hmc)
      exact Or.inr ⟨kind?_eq_of_sameType hmc ▸ hm, hb.isSubclass_trans hcm hmb⟩
    · exact Or.inr ⟨hc, hb.isSubclass_trans hcm hmb⟩

theorem Built.replaces_trans (hb : r.Built) (h : r.Replaces base mid) (h' : r.Replaces mid child) :
    r.Replaces base child := by
  obtain ⟨bargs, bret, margs, mret, hbase, hmid, hlength, hargs, hret⟩ := h
  obtain ⟨margs', mret', cargs, cret, hmid', hchild, hlength', hargs', hret'⟩ := h'
  obtain ⟨rfl, rfl⟩ := Descriptor.function.inj (Option.some.inj (hmid.symm.trans hmid'))
  refine ⟨bargs, bret, cargs, cret, hbase, hchild, hlength.trans hlength', ?_, hb.result_trans hret hret'⟩
  intro i x z hi hx hz
  have hlt : i < margs.length := by
    rw [← hlength]
    exact (List.getElem?_eq_some_iff.1 hx).1
  have hy := List.getElem?_eq_getElem hlt
  exact sameType_trans (hargs i x _ hi hx hy) (hargs' i _ z hi hy hz)

end Registry

namespace Members

variable {r : Registry} {owner : String} {m n l : Members}

/-- Members whose slots hold methods of the names of `m` that may stand for these. -/
def Refines (r : Registry) (m n : Members) : Prop :=
  ∀ slot d, m.methods.get? slot = some d →
    ∃ e, n.methods.get? slot = some e ∧ e.name = d.name ∧ r.Replaces d.type e.type

/-- Members whose methods are of function types. -/
def Callable (r : Registry) (m : Members) : Prop :=
  ∀ d ∈ m.methods.entries, ∃ args ret, r.get? d.type = some (.function args ret)

private theorem Refines.refl (h : Callable r m) : Refines r m m := by
  intro slot d hd
  obtain ⟨args, ret, hfunction⟩ := h d (List.mem_of_getElem? hd)
  exact ⟨d, hd, rfl, Registry.replaces_refl hfunction⟩

private theorem Refines.trans (hb : r.Built) (h : Refines r m n) (h' : Refines r n l) : Refines r m l := by
  intro slot d hd
  obtain ⟨e, he, hname, hreplaces⟩ := h slot d hd
  obtain ⟨f, hf, hname', hreplaces'⟩ := h' slot e he
  exact ⟨f, hf, hname'.trans hname, hb.replaces_trans hreplaces hreplaces'⟩

private theorem callable_addMethod {d : Method} (hm : Callable r m) (h : m.addMethod r owner d = .ok n) :
    Callable r n := by
  obtain ⟨-, hfunction, -⟩ := addMethod_checked h
  rcases addMethod_ok h with ⟨-, rfl⟩ | ⟨slot, -, -, rfl⟩
  · intro e he
    rcases List.mem_append.1 he with he | he
    · exact hm e he
    · obtain rfl := List.mem_singleton.1 he
      exact hfunction
  · intro e he
    rcases List.mem_or_eq_of_mem_set he with he | rfl
    · exact hm e he
    · exact hfunction

private theorem refines_addMethod {d : Method} (hm : Callable r m) (h : m.addMethod r owner d = .ok n) :
    Refines r m n := by
  obtain ⟨-, -, hoverrides⟩ := addMethod_checked h
  rcases addMethod_ok h with ⟨-, rfl⟩ | ⟨slot, hslot, hlt, rfl⟩
  · -- A new slot leaves the others as they are.
    intro slot e he
    obtain ⟨f, hf, hrest⟩ := Refines.refl hm slot e he
    have hslot := (List.getElem?_eq_some_iff.1 hf).1
    exact ⟨f, (List.getElem?_append_left hslot).trans hf, hrest⟩
  · intro slot' e he
    by_cases hsame : slot = slot'
    · subst hsame
      obtain ⟨_, hname, -⟩ := List.findIdx?_eq_some_iff_getElem.1 hslot
      have hget : m.methods.entries[slot] = e := (List.getElem?_eq_some_iff.1 he).2
      have hreplaces := Registry.overrides_iff.1 (hoverrides slot e hslot he)
      rw [hget] at hname
      exact ⟨entryOf r d, List.getElem?_set_self hlt, (beq_iff_eq.1 hname).symm, hreplaces⟩
    · obtain ⟨f, hf, hrest⟩ := Refines.refl hm slot' e he
      exact ⟨f, (List.getElem?_set_ne hsame).trans hf, hrest⟩

theorem refines_extend (hb : r.Built) {c : Class} (hm : Callable r m) (h : m.extend r c = .ok n) :
    Callable r n ∧ Refines r m n := by
  obtain ⟨m', hfields, hmethods⟩ := extend_ok h
  have hsame := (addFields_grows hfields).2
  have hm' : Callable r m' := by
    unfold Callable
    rwa [hsame]
  have hstart : Refines r m m' := by
    unfold Refines
    rw [hsame]
    exact Refines.refl hm
  refine addMethods_ok (motive := fun x => Callable r x ∧ Refines r m x) ?_ ⟨hm', hstart⟩ hmethods
  intro x d y _ hx hd
  exact ⟨callable_addMethod hx.1 hd, hx.2.trans hb (refines_addMethod hx.1 hd)⟩

end Members

namespace Registry

variable {r : Registry} {t a : TypeId} {n : Nat} {x y : ClassLayout}

private theorem Built.callable_classLayout (hb : r.Built) (hx : r.classLayout t = .ok x) :
    Members.Callable r x.members := by
  obtain ⟨cs, -, hm, -⟩ := classLayout_ok hx
  refine membersOf_ok (motive := fun _ m => Members.Callable r m) ?_ ?_ hm
  · intro d hd
    cases hd
  · intro c cs m n hinherited hextend
    exact (Members.refines_extend hb hinherited hextend).1

private theorem Built.refines_ancestor (hb : r.Built) (hx : r.classLayout t = .ok x)
    (ha : r.ancestor? n t = some a) :
    ∃ y, r.classLayout a = .ok y ∧ Members.Refines r y.members x.members := by
  induction n generalizing t x with
  | zero =>
    obtain rfl : t = a := Option.some.inj ha
    exact ⟨x, hx, .refl (hb.callable_classLayout hx)⟩
  | succ n ih =>
    obtain ⟨up, hup, habove⟩ := Option.bind_eq_some_iff.1 ha
    obtain ⟨c, inherited, hc, hextend, hsuper⟩ := classLayout_extends hx
    have hup : c.super = some up := by simpa [super?, class?, hc] using hup
    rcases hsuper with ⟨hnone, -⟩ | ⟨up', y, hup', hy, rfl⟩
    · simp [hnone] at hup
    · obtain rfl : up = up' := Option.some.inj (hup.symm.trans hup')
      obtain ⟨z, hz, hrefines⟩ := ih hy habove
      have hstep := (Members.refines_extend hb (hb.callable_classLayout hy) hextend).2
      exact ⟨z, hz, hrefines.trans hb hstep⟩

/-- A class can stand in for each of its ancestors: the ancestor has a layout, too, and each of its slots
holds in the class a method of the same name. This one takes as many arguments, the same ones behind the
receiver, and gives back the same or an instance of a subclass. -/
theorem Built.methods_of_ancestor (hb : r.Built) (hx : r.classLayout t = .ok x)
    (ha : r.ancestor? n t = some a) :
    ∃ y, r.classLayout a = .ok y ∧ y.methods.size ≤ x.methods.size ∧
      ∀ slot, slot < y.methods.size → ∃ d e, y.methods.get? slot = some d ∧
        x.methods.get? slot = some e ∧ e.name = d.name ∧ r.Replaces d.type e.type := by
  obtain ⟨y, hy, hrefines⟩ := hb.refines_ancestor hx ha
  have hslots : ∀ slot, slot < y.methods.size → ∃ d e, y.methods.get? slot = some d ∧
      x.methods.get? slot = some e ∧ e.name = d.name ∧ r.Replaces d.type e.type := by
    intro slot hslot
    have hd : y.methods.get? slot = some y.methods.entries[slot] := List.getElem?_eq_getElem hslot
    obtain ⟨e, he, hrest⟩ := hrefines slot _ hd
    exact ⟨_, e, hd, he, hrest⟩
  refine ⟨y, hy, ?_, hslots⟩
  by_contra hfewer
  obtain ⟨_, e, -, he, -⟩ := hslots x.methods.size (by omega)
  exact absurd (List.getElem?_eq_some_iff.1 he).1 (Nat.lt_irrefl _)

/-- Two generations apart `copy` has its slot still, and gives back the grandchild where an instance of the
first class is expected. The check has compared each of the two with the generation in between only. -/
theorem familyTypes_copies :
    ∃ x y d e, familyTypes.classLayout (.ofIndex 23) = .ok x ∧
      familyTypes.classLayout (.ofIndex 21) = .ok y ∧ y.methods.get? 0 = some d ∧
      x.methods.get? 0 = some e ∧ e.name = "copy" ∧ d.type = .ofIndex 12 ∧ e.type = .ofIndex 14 ∧
      familyTypes.Replaces d.type e.type := by
  have hleaf : (familyTypes.classLayout (.ofIndex 23)).map (fun x => x.methods.get? 0) =
      .ok (some ⟨"copy", 2, .ofIndex 14, some (.ofIndex 17)⟩) := by
    decide +kernel
  obtain ⟨x, hx, hxslot⟩ := Outcome.map_eq_ok.1 hleaf
  have hbase : (familyTypes.classLayout (.ofIndex 21)).map (fun y => y.methods.get? 0) =
      .ok (some ⟨"copy", 0, .ofIndex 12, some (.ofIndex 15)⟩) := by
    decide +kernel
  obtain ⟨y, hy, hyslot⟩ := Outcome.map_eq_ok.1 hbase
  have habove : familyTypes.ancestor? 2 (.ofIndex 23) = some (.ofIndex 21) := by decide +kernel
  obtain ⟨y', hy', -, hslots⟩ := familyTypes_built.methods_of_ancestor hx habove
  obtain rfl : y = y' := Except.ok.inj (hy.symm.trans hy')
  obtain ⟨d, e, hd, he, -, hreplaces⟩ := hslots 0 (List.getElem?_eq_some_iff.1 hyslot).1
  obtain rfl := Option.some.inj (hyslot.symm.trans hd)
  obtain rfl := Option.some.inj (hxslot.symm.trans he)
  exact ⟨x, y, _, _, hx, hy, hd, he, rfl, rfl, rfl, hreplaces⟩

end Registry

end ObjectModel
