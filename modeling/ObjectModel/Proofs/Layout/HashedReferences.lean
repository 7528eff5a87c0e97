import ObjectModel.Proofs.Layout.Inheritance
import ObjectModel.Proofs.Layout.Resolution

/-!
A hash that was looked up in the layout of a class, used with a class that extends it. The members are
still there, but the names that the subclass adds take part in the choice among all names of one hash:
the hash leads to the inherited member unless one of them comes first.
-/

set_option autoImplicit false
set_option relaxedAutoImplicit false

namespace ObjectModel

namespace Class

/-- The names of the members that a class declares itself. -/
def ownNames (c : Class) : List String :=
  (c.fields.map Field.name).filter (· != "") ++ c.methods.map Method.name

/-- A class declares another name of the same hash that comes before an inherited one. -/
def Hides (c : Class) (name : String) : Prop :=
  ∃ own ∈ c.ownNames, Name.hash own = Name.hash name ∧ own < name

instance (c : Class) (name : String) : Decidable (c.Hides name) :=
  inferInstanceAs (Decidable (∃ own ∈ c.ownNames, _))

/-- The hash of an inherited name leads to what the first of the names before it stands for that have this
hash and that the class declares itself. -/
def Redirects (c : Class) (x : ClassLayout) (name : String) : Prop :=
  ∃ first ∈ c.ownNames, Name.hash first = Name.hash name ∧ first < name ∧
    (∀ own ∈ c.ownNames, Name.hash own = Name.hash name → first ≤ own) ∧
    ∃ member, x.resolveNamed? first = some member ∧ x.resolve? (Name.hash name) = some member

theorem mem_ownNames {c : Class} {name : String} : name ∈ c.ownNames ↔
    (∃ f ∈ c.fields, f.name ≠ "" ∧ f.name = name) ∨ ∃ d ∈ c.methods, d.name = name := by
  simp only [ownNames, List.mem_append, List.mem_filter, List.mem_map, bne_iff_ne]
  refine or_congr_left ⟨?_, ?_⟩
  · rintro ⟨⟨f, hf, rfl⟩, hnamed⟩
    exact ⟨f, hf, hnamed, rfl⟩
  · rintro ⟨f, hf, hnamed, rfl⟩
    exact ⟨⟨f, hf, rfl⟩, hnamed⟩

end Class

section

variable {r : Registry} {c : Class} {older : List Class} {x y : ClassLayout} {name : String}
  {member : Member}

theorem declaredFields_cons (c : Class) (older : List Class) :
    declaredFields (c :: older) = declaredFields older ++ c.fields := by
  simp [declaredFields]

theorem declaredMethods_cons (c : Class) (older : List Class) :
    declaredMethods (c :: older) = declaredMethods older ++ c.methods := by
  simp [declaredMethods]

namespace Members

theorem Inherits.getElem?_fields {m n : Members} (h : Inherits m n) {i : Nat} {p : Placed Field}
    (hp : m.fields.items[i]? = some p) : n.fields.items[i]? = some p := by
  obtain ⟨own, hown, -⟩ := h.fields
  rw [hown, List.getElem?_append_left (List.getElem?_eq_some_iff.1 hp).1, hp]

end Members

namespace StandsFor

theorem name_of_field {chain : List Class} {i offset : Nat} {type : TypeId}
    (h : StandsFor chain x name (.field i offset type)) :
    ∃ p, x.fields[i]? = some p ∧ p.item.name = name := by
  cases h with
  | field hdeclared hplaced hname hnamed => exact ⟨_, hplaced, hname⟩

theorem name_of_method {chain : List Class} {slot function : Nat} {type : TypeId}
    (hx : ClassLayout.Collected r chain x) (h : StandsFor chain x name (.method slot function type)) :
    ∃ d, x.methods.get? slot = some d ∧ d.name = name ∧ d.function = function ∧ d.type = type := by
  cases h with
  | method hslot hlast =>
    rw [← hx.members.slots, List.getElem?_map, Option.map_eq_some_iff] at hslot
    obtain ⟨d, hd, hname⟩ := hslot
    obtain ⟨m, hm, rfl⟩ := hx.members.last d (List.mem_of_getElem? hd)
    rw [hname, hlast] at hm
    obtain rfl := Option.some.inj hm
    exact ⟨_, hd, hname, rfl, rfl⟩

theorem field_of_super (hinherits : Members.Inherits y.members x.members) {i offset : Nat} {type : TypeId}
    (h : StandsFor older y name (.field i offset type)) :
    StandsFor (c :: older) x name (.field i offset type) := by
  cases h with
  | field hdeclared hplaced hname hnamed =>
    refine .field ?_ (hinherits.getElem?_fields hplaced) hname hnamed
    rw [declaredFields_cons, List.getElem?_append_left (List.getElem?_eq_some_iff.1 hdeclared).1, hdeclared]

theorem method_of_super {slot function : Nat} {type : TypeId}
    (h : StandsFor older y name (.method slot function type)) :
    ∃ function' type', StandsFor (c :: older) x name (.method slot function' type') := by
  cases h with
  | @method slot d hslot hlast =>
    have hslot' : ((declaredMethods (c :: older)).map Method.name).eraseDups[slot]? = some name := by
      rw [declaredMethods_cons, List.map_append, List.eraseDups_append,
        List.getElem?_append_left (List.getElem?_eq_some_iff.1 hslot).1, hslot]
    cases hfind : (declaredMethods (c :: older)).reverse.find? (·.name == name) with
    | none =>
      have hd : d ∈ (declaredMethods (c :: older)).reverse := by
        rw [declaredMethods_cons, List.reverse_append]
        exact List.mem_append_right _ (List.mem_of_find?_eq_some hlast)
      exact absurd (List.find?_some hlast) (by simpa using List.find?_eq_none.1 hfind d hd)
    | some d' => exact ⟨_, _, .method hslot' hfind⟩

end StandsFor

namespace ClassLayout

theorem Collected.exists_standsFor_cons (hx : Collected r (c :: older) x) (hy : Collected r older y) :
    (∃ member, StandsFor (c :: older) x name member) ↔
      name ∈ c.ownNames ∨ ∃ member, StandsFor older y name member := by
  rw [hx.exists_standsFor_iff, hy.exists_standsFor_iff, Class.mem_ownNames, declaredFields_cons,
    declaredMethods_cons]
  simp only [List.mem_append, or_and_right, exists_or]
  rw [or_or_or_comm, or_comm]

/-- A hash leads to the member of an inherited name, if this is the first of the names that are inherited,
unless the class hides it. -/
theorem Collected.resolve?_of_not_hides (hx : Collected r (c :: older) x) (hy : Collected r older y)
    (hleast : ∀ other member', Name.hash other = Name.hash name → StandsFor older y other member' →
      name ≤ other)
    (hstands : StandsFor (c :: older) x name member) (h : ¬c.Hides name) :
    x.resolve? (Name.hash name) = some member := by
  refine hx.resolve?_eq_some.2 ⟨name, rfl, hstands, ?_⟩
  intro other member' hother hstands'
  rcases (hx.exists_standsFor_cons hy).1 ⟨member', hstands'⟩ with hown | ⟨member'', hinherited⟩
  · exact not_lt.1 fun hlt => h ⟨other, hown, hother, hlt⟩
  · exact hleast other member'' hother hinherited

/-- If the class hides a name, the hash leads to the member of the first of the names that hide it. -/
theorem Collected.redirects_of_hides (hx : Collected r (c :: older) x) (hy : Collected r older y)
    (hleast : ∀ other member', Name.hash other = Name.hash name → StandsFor older y other member' →
      name ≤ other)
    (h : c.Hides name) : c.Redirects x name := by
  obtain ⟨own, hown, hhash, hlt⟩ := h
  obtain ⟨member', hstands'⟩ := (hx.exists_standsFor_cons hy).2 (Or.inl hown)
  cases hresolve : x.resolve? (Name.hash name) with
  | none => exact absurd hhash (hx.resolve?_eq_none.1 hresolve own member' hstands')
  | some member =>
    obtain ⟨first, hfirst, hstands, hsmallest⟩ := hx.resolve?_eq_some.1 hresolve
    have hbefore : first < name := (hsmallest own member' hhash hstands').trans_lt hlt
    rcases (hx.exists_standsFor_cons hy).1 ⟨member, hstands⟩ with hfirstOwn | ⟨member'', hinherited⟩
    · refine ⟨first, hfirstOwn, hfirst, hbefore, fun other hother hsame => ?_, member,
        hx.resolveNamed?_eq_some.2 hstands, hresolve⟩
      obtain ⟨m, hm⟩ := (hx.exists_standsFor_cons hy).2 (Or.inl hother)
      exact hsmallest other m hsame hm
    · exact absurd hbefore (not_lt.2 (hleast first member'' hfirst hinherited))

theorem Collected.standsFor_of_redirects (hx : Collected r (c :: older) x) (h : c.Redirects x name)
    (hresolve : x.resolve? (Name.hash name) = some member) :
    ∃ first < name, StandsFor (c :: older) x first member := by
  obtain ⟨first, -, -, hlt, -, member', hfirst, hmember⟩ := h
  obtain rfl := Option.some.inj (hmember.symm.trans hresolve)
  exact ⟨first, hlt, hx.resolveNamed?_eq_some.1 hfirst⟩

end ClassLayout

namespace Registry

variable {t up : TypeId} {hash : NameHash}

private theorem classLayout_collected (hc : r.class? t = some c) (hsuper : c.super = some up)
    (hx : r.classLayout t = .ok x) (hy : r.classLayout up = .ok y) :
    ∃ older, ClassLayout.Collected r (c :: older) x ∧ ClassLayout.Collected r older y ∧
      Members.Inherits y.members x.members := by
  obtain ⟨chain, hchain, hxm, hxi, -⟩ := classLayout_ok hx
  obtain ⟨older, holder, hym, hyi, -⟩ := classLayout_ok hy
  obtain rfl : chain = c :: older := by
    apply List.ext_getElem?
    intro n
    rw [getElem?_lineageFrom hchain]
    cases n with
    | zero => simp [hc]
    | succ n => simp [super?, hc, hsuper, getElem?_lineageFrom holder]
  refine ⟨older, ⟨hxi, Members.collects_membersOf hxm⟩, ⟨hyi, Members.collects_membersOf hym⟩, ?_⟩
  obtain ⟨inherited, holder', hextend⟩ := membersOf_cons_ok hxm
  obtain rfl := Except.ok.inj (hym.symm.trans holder')
  exact Members.extend_inherits hextend

/-- A hash that leads to a field of the super class leads to the same field of the class, and one that leads
to a method slot leads to what the class has in this slot, unless the class declares a name of the same hash
that comes before the name of the member. If it does, the hash leads to the member of the first such name. -/
theorem classLayout_resolves_inherited (hc : r.class? t = some c) (hsuper : c.super = some up)
    (hx : r.classLayout t = .ok x) (hy : r.classLayout up = .ok y) :
    (∀ i offset type, y.resolve? hash = some (.field i offset type) →
        ∃ p, y.fields[i]? = some p ∧ Name.hash p.item.name = hash ∧
          (x.resolve? hash = some (.field i offset type) ↔ ¬c.Hides p.item.name) ∧
          (c.Hides p.item.name → c.Redirects x p.item.name)) ∧
      ∀ slot function type, y.resolve? hash = some (.method slot function type) →
        ∃ d, y.methods.get? slot = some d ∧ Name.hash d.name = hash ∧
          (¬c.Hides d.name → ∃ d', x.methods.get? slot = some d' ∧ d'.name = d.name ∧
            x.resolve? hash = some (.method slot d'.function d'.type)) ∧
          (c.Hides d.name → c.Redirects x d.name ∧
            ∀ function' type', x.resolve? hash ≠ some (.method slot function' type')) := by
  obtain ⟨older, hcx, hcy, hinherits⟩ := classLayout_collected hc hsuper hx hy
  refine ⟨?_, ?_⟩
  · intro i offset type hresolve
    obtain ⟨name, rfl, hstands, hleast⟩ := hcy.resolve?_eq_some.1 hresolve
    obtain ⟨p, hp, rfl⟩ := hstands.name_of_field
    refine ⟨p, hp, rfl, ⟨?_, ?_⟩, hcx.redirects_of_hides hcy hleast⟩
    · intro hsame hhides
      have hredirects := hcx.redirects_of_hides hcy hleast hhides
      obtain ⟨first, hlt, hfirst⟩ := hcx.standsFor_of_redirects hredirects hsame
      obtain ⟨q, hq, rfl⟩ := hfirst.name_of_field
      obtain rfl := Option.some.inj (hq.symm.trans (hinherits.getElem?_fields hp))
      exact lt_irrefl _ hlt
    · exact hcx.resolve?_of_not_hides hcy hleast (hstands.field_of_super hinherits)
  · intro slot function type hresolve
    obtain ⟨name, rfl, hstands, hleast⟩ := hcy.resolve?_eq_some.1 hresolve
    obtain ⟨d, hd, rfl, -⟩ := hstands.name_of_method hcy
    obtain ⟨function', type', hstands'⟩ := hstands.method_of_super (c := c) (x := x)
    obtain ⟨d', hd', hname, rfl, rfl⟩ := hstands'.name_of_method hcx
    refine ⟨d, hd, rfl, ?_, ?_⟩
    · intro hnot
      exact ⟨d', hd', hname, hcx.resolve?_of_not_hides hcy hleast hstands' hnot⟩
    · intro hhides
      have hredirects := hcx.redirects_of_hides hcy hleast hhides
      refine ⟨hredirects, fun function' type' hsame => ?_⟩
      obtain ⟨first, hlt, hfirst⟩ := hcx.standsFor_of_redirects hredirects hsame
      obtain ⟨e, he, rfl, -⟩ := hfirst.name_of_method hcx
      obtain rfl := Option.some.inj (he.symm.trans hd')
      exact lt_irrefl _ (hname ▸ hlt)

/-- The name of the added field hides that of the inherited one; the method is found in its slot, with the
function that overrides it. -/
theorem clashingTypes_inherited :
    ∃ c x y, clashingTypes.class? (.ofIndex 15) = some c ∧ c.super = some (.ofIndex 14) ∧
      clashingTypes.classLayout (.ofIndex 15) = .ok x ∧ clashingTypes.classLayout (.ofIndex 14) = .ok y ∧
      c.Hides "ba" ∧ y.resolve? 21951 = some (.field 1 12 .i32) ∧
      x.resolve? 21951 ≠ some (.field 1 12 .i32) ∧
      ¬c.Hides "compare" ∧ y.resolve? (-479652074) = some (.method 0 4 (.ofIndex 12)) ∧
      ∃ d, x.methods.get? 0 = some d ∧ d.name = "compare" ∧
        x.resolve? (-479652074) = some (.method 0 d.function d.type) := by
  have hclass : (clashingTypes.class? (.ofIndex 15)).map (fun c =>
      (c.super, decide (c.Hides "ba"), decide (c.Hides "compare"))) =
        some (some (.ofIndex 14), true, false) := by
    decide +kernel
  have hsub : (clashingTypes.classLayout (.ofIndex 15)).isOk = true := by decide +kernel
  have hall : (clashingTypes.classLayout (.ofIndex 14)).map (fun y =>
      (y.resolve? 21951, (y.fields[1]?).map (·.item.name), y.resolve? (-479652074),
        (y.methods.get? 0).map MethodEntry.name)) =
        .ok (some (.field 1 12 .i32), some "ba", some (.method 0 4 (.ofIndex 12)), some "compare") := by
    decide +kernel
  obtain ⟨c, hc, hclass⟩ := Option.map_eq_some_iff.1 hclass
  obtain ⟨hsuper, hhides, hshows⟩ := by simpa using hclass
  obtain ⟨y, hy, hfound⟩ := Outcome.map_eq_ok.1 hall
  obtain ⟨hfield, ⟨p, hp, hpname⟩, hmethod, d, hd, hdname⟩ := by simpa using hfound
  cases hx : clashingTypes.classLayout (.ofIndex 15) with
  | error e =>
    rw [hx] at hsub
    cases hsub
  | ok x =>
    obtain ⟨q, hq, -, hiff, -⟩ := (classLayout_resolves_inherited hc hsuper hx hy).1 _ _ _ hfield
    obtain ⟨m, hm, -, hkept, -⟩ := (classLayout_resolves_inherited hc hsuper hx hy).2 _ _ _ hmethod
    obtain rfl := Option.some.inj (hq.symm.trans hp)
    obtain rfl := Option.some.inj (hm.symm.trans hd)
    rw [hpname] at hiff
    rw [hdname] at hkept
    exact ⟨c, x, y, hc, hsuper, rfl, hy, hhides, hfield, fun h => hiff.1 h hhides, hshows, hmethod,
      hkept hshows⟩

/-- A hash that leads to a field of the super class, and in the subclass to the field that this adds. -/
theorem clashingTypes_redirected :
    ∃ x y, clashingTypes.super? (.ofIndex 15) = some (.ofIndex 14) ∧
      clashingTypes.classLayout (.ofIndex 15) = .ok x ∧ clashingTypes.classLayout (.ofIndex 14) = .ok y ∧
      y.resolve? 21951 = some (.field 1 12 .i32) ∧ x.resolve? 21951 = some (.field 2 16 .f64) := by
  have hsuper : (clashingTypes.classLayout (.ofIndex 14)).map (·.resolve? 21951) =
      .ok (some (.field 1 12 .i32)) := by
    decide +kernel
  have hsub : (clashingTypes.classLayout (.ofIndex 15)).map (·.resolve? 21951) =
      .ok (some (.field 2 16 .f64)) := by
    decide +kernel
  obtain ⟨y, hy, hfield⟩ := Outcome.map_eq_ok.1 hsuper
  obtain ⟨x, hx, hother⟩ := Outcome.map_eq_ok.1 hsub
  exact ⟨x, y, by decide +kernel, hx, hy, hfield, hother⟩

end Registry

end

end ObjectModel
