import Mathlib.Data.List.Forall2
import ObjectModel.Layout

/-!
What a step of the class layout has done when it succeeds: a field goes to the end of the region, a
method replaces the one of its name or goes to the end of the table.
-/

set_option autoImplicit false
set_option relaxedAutoImplicit false

namespace ObjectModel

namespace Outcome

variable {ε ε' α β : Type}

theorem bind_eq_ok {x : Except ε α} {f : α → Except ε β} {b : β} :
    x >>= f = .ok b ↔ ∃ a, x = .ok a ∧ f a = .ok b := by
  cases x with
  | error e =>
    constructor
    · intro h
      cases h
    · rintro ⟨a, h, -⟩
      cases h
  | ok a =>
    constructor
    · intro h
      exact ⟨a, rfl, h⟩
    · rintro ⟨a', h, hf⟩
      cases h
      exact hf

theorem mapError_eq_ok {x : Except ε α} {f : ε → ε'} {a : α} : x.mapError f = .ok a ↔ x = .ok a := by
  cases x <;> simp [Except.mapError]

theorem map_eq_ok {x : Except ε α} {f : α → β} {b : β} :
    x.map f = .ok b ↔ ∃ a, x = .ok a ∧ f a = b := by
  cases x <;> simp [Except.map]

theorem pure_eq_ok {a b : α} : (pure a : Except ε α) = .ok b ↔ a = b := by
  constructor
  · intro h
    cases h
    rfl
  · rintro rfl
    rfl

theorem mapM_eq_ok {f : α → Except ε β} {xs : List α} {ys : List β} :
    xs.mapM f = .ok ys ↔ List.Forall₂ (fun x y => f x = .ok y) xs ys := by
  induction xs generalizing ys with
  | nil => rw [List.mapM_nil, pure_eq_ok, List.forall₂_nil_left_iff, eq_comm]
  | cons x xs ih =>
    simp only [List.mapM_cons, bind_eq_ok, pure_eq_ok, ih]
    constructor
    · rintro ⟨y, hy, rest, hrest, rfl⟩
      exact .cons hy hrest
    · rintro (_ | ⟨hy, hrest⟩)
      exact ⟨_, hy, _, hrest, rfl⟩

theorem exists_mapM {f : α → Except ε β} {xs : List α} :
    (∃ ys, xs.mapM f = .ok ys) ↔ ∀ x ∈ xs, ∃ y, f x = .ok y := by
  simp only [mapM_eq_ok]
  constructor
  · rintro ⟨ys, hall⟩
    induction hall with
    | nil => exact List.forall_mem_nil _
    | cons hy _ ih => exact List.forall_mem_cons.2 ⟨⟨_, hy⟩, ih⟩
  · intro hall
    induction xs with
    | nil => exact ⟨[], .nil⟩
    | cons x xs ih =>
      obtain ⟨⟨y, hy⟩, hrest⟩ := List.forall_mem_cons.1 hall
      obtain ⟨ys, hys⟩ := ih hrest
      exact ⟨y :: ys, .cons hy hys⟩

end Outcome

namespace Registry

variable {r : Registry} {t : TypeId}

theorem get_eq_ok {d : Descriptor} : r.get t = .ok d ↔ r.get? t = some d := by
  unfold get
  cases r.get? t <;> simp

theorem kind_eq_ok {k : Kind} : r.kind t = .ok k ↔ r.kind? t = some k := by
  unfold kind
  cases r.kind? t <;> simp

theorem function_eq_ok {args : List TypeId} {ret : TypeId} :
    r.function t = .ok (args, ret) ↔ r.get? t = some (.function args ret) := by
  unfold function
  cases r.get? t with
  | none => simp
  | some d => cases d <;> simp

theorem classOf_eq_ok {c : Class} : r.classOf t = .ok c ↔ r.get? t = some (.object c) := by
  unfold classOf
  constructor
  · intro h
    split at h
    · cases h
      assumption
    · cases h
    · cases h
  · intro h
    simp [h]

end Registry

namespace Members

variable {r : Registry} {owner : String} {m n : Members}

theorem addField_ok {f : Field} (h : addField r owner m f = .ok n) :
    ∃ k, r.kind? f.type = some k ∧ n = { m with fields := m.fields.push k f } := by
  unfold addField at h
  split_ifs at h
  cases hk : r.kind f.type with
  | error e =>
    rw [hk] at h
    cases h
  | ok k =>
    rw [hk] at h
    cases h
    exact ⟨k, Registry.kind_eq_ok.1 hk, rfl⟩

theorem addField_grows {f : Field} (h : addField r owner m f = .ok n) :
    n.fields.values = m.fields.values ++ [f] ∧ n.methods = m.methods := by
  obtain ⟨k, -, rfl⟩ := addField_ok h
  simp [Region.push, Region.values]

theorem addFields_grows {fs : List Field} (h : fs.foldlM (addField r owner) m = .ok n) :
    n.fields.values = m.fields.values ++ fs ∧ n.methods = m.methods := by
  induction fs generalizing m with
  | nil =>
    cases h
    exact ⟨(List.append_nil _).symm, rfl⟩
  | cons f fs ih =>
    rw [List.foldlM_cons] at h
    obtain ⟨m', hf, hrest⟩ := Outcome.bind_eq_ok.1 h
    obtain ⟨hvalues, hmethods⟩ := addField_grows hf
    obtain ⟨hvalues', hmethods'⟩ := ih hrest
    exact ⟨by rw [hvalues', hvalues, List.append_assoc, List.singleton_append], hmethods'.trans hmethods⟩

theorem addField_checked {f : Field} (h : addField r owner m f = .ok n) (hname : f.name ≠ "") :
    m.hasField f.name = false ∧ m.hasMethod f.name = false := by
  unfold addField at h
  split_ifs at h with hfield hmethod
  simp only [hname, ne_eq, not_false_eq_true, true_and, Bool.not_eq_true] at hfield hmethod
  exact ⟨hfield, hmethod⟩

/-- The entry of the method table for a declared method. -/
def entryOf (r : Registry) (d : Method) : MethodEntry := ⟨d.name, d.function, d.type, r.closureType? d.type⟩

theorem addMethod_ok {d : Method} (h : m.addMethod r owner d = .ok n) :
    (m.methods.slotOf? d.name = none ∧ n = { m with methods := m.methods.add (entryOf r d) }) ∨
      ∃ slot, m.methods.slotOf? d.name = some slot ∧ slot < m.methods.size ∧
        n = { m with methods := ⟨m.methods.entries.set slot (entryOf r d)⟩ } := by
  unfold addMethod at h
  split_ifs at h
  cases hfun : r.function d.type with
  | error e =>
    rw [hfun] at h
    cases h
  | ok sig =>
    rw [hfun] at h
    cases hslot : m.methods.slotOf? d.name with
    | none =>
      simp only [hslot] at h
      cases h
      exact Or.inl ⟨rfl, rfl⟩
    | some slot =>
      obtain ⟨hlt, -⟩ := List.findIdx?_eq_some_iff_getElem.1 hslot
      simp only [hslot, MethodTable.get?, List.getElem?_eq_getElem hlt] at h
      split_ifs at h
      cases h
      refine Or.inr ⟨slot, rfl, hlt, ?_⟩
      simp [MethodTable.replace?, MethodTable.size, hlt, entryOf]

theorem addMethod_checked {d : Method} (h : m.addMethod r owner d = .ok n) :
    m.hasField d.name = false ∧ (∃ args ret, r.get? d.type = some (.function args ret)) ∧
      ∀ slot inherited, m.methods.slotOf? d.name = some slot → m.methods.get? slot = some inherited →
        r.overrides inherited.type d.type = true := by
  unfold addMethod at h
  split_ifs at h with hfield
  refine ⟨by simpa using hfield, ?_, ?_⟩
  · cases hfun : r.function d.type with
    | error e => simp [hfun] at h
    | ok sig => exact ⟨sig.1, sig.2, Registry.function_eq_ok.1 hfun⟩
  · intro slot inherited hslot hget
    cases hfun : r.function d.type with
    | error e => simp [hfun] at h
    | ok sig =>
      simp only [hfun, hslot, hget] at h
      split_ifs at h with hoverrides
      exact hoverrides

theorem addMethods_cons_iff {d : Method} {ds : List Method} {earlier : List String} :
    m.addMethods r owner earlier (d :: ds) = .ok n ↔ d.name ∉ earlier ∧
      ∃ m', m.addMethod r owner d = .ok m' ∧ m'.addMethods r owner (d.name :: earlier) ds = .ok n := by
  rw [addMethods]
  by_cases hearlier : d.name ∈ earlier
  · rw [if_pos hearlier]
    exact iff_of_false (fun h => by cases h) fun h => h.1 hearlier
  · rw [if_neg hearlier, and_iff_right hearlier]
    cases m.addMethod r owner d <;> simp

theorem addMethods_ok {motive : Members → Prop} {ds : List Method} {earlier : List String}
    (hstep : ∀ m d n, d ∈ ds → motive m → m.addMethod r owner d = .ok n → motive n)
    (hm : motive m) (h : m.addMethods r owner earlier ds = .ok n) : motive n := by
  induction ds generalizing m earlier with
  | nil =>
    cases h
    exact hm
  | cons d rest ih =>
    obtain ⟨-, m', hd, hrest⟩ := addMethods_cons_iff.1 h
    exact ih (fun m d n hmem => hstep m d n (List.mem_cons_of_mem _ hmem))
      (hstep m d m' List.mem_cons_self hm hd) hrest

theorem extend_ok {c : Class} (h : m.extend r c = .ok n) :
    ∃ m', c.fields.foldlM (addField r c.name) m = .ok m' ∧
      m'.addMethods r c.name [] c.methods = .ok n :=
  Outcome.bind_eq_ok.1 h

end Members

namespace Registry

variable {r : Registry} {t : TypeId}

theorem lineageFrom_ok {steps : Nat} {cs : List Class} (h : r.lineageFrom steps t = .ok cs) :
    ∃ c, r.get? t = some (.object c) ∧
      ((c.super = none ∧ cs = [c]) ∨
        ∃ up steps' rest, c.super = some up ∧ steps = steps' + 1 ∧
          r.lineageFrom steps' up = .ok rest ∧ cs = c :: rest) := by
  unfold lineageFrom at h
  cases hc : r.classOf t with
  | error e =>
    rw [hc] at h
    cases h
  | ok c =>
    simp only [hc] at h
    refine ⟨c, classOf_eq_ok.1 hc, ?_⟩
    cases hsuper : c.super with
    | none =>
      simp only [hsuper] at h
      cases h
      exact Or.inl ⟨rfl, rfl⟩
    | some up =>
      simp only [hsuper] at h
      cases steps with
      | zero => cases h
      | succ steps =>
        obtain ⟨rest, hrest, rfl⟩ := Outcome.map_eq_ok.1 h
        exact Or.inr ⟨up, steps, rest, rfl, rfl, hrest, rfl⟩

theorem membersOf_cons_ok {c : Class} {cs : List Class} {m : Members}
    (h : r.membersOf (c :: cs) = .ok m) :
    ∃ inherited, r.membersOf cs = .ok inherited ∧ inherited.extend r c = .ok m :=
  Outcome.bind_eq_ok.1 h

/-- What holds without classes and is kept when a class adds its own members holds along every chain. -/
theorem membersOf_ok {motive : List Class → Members → Prop} {cs : List Class} {m : Members}
    (hempty : motive [] .empty)
    (hstep : ∀ c cs m n, motive cs m → m.extend r c = .ok n → motive (c :: cs) n)
    (h : r.membersOf cs = .ok m) : motive cs m := by
  induction cs generalizing m with
  | nil =>
    cases h
    exact hempty
  | cons c cs ih =>
    obtain ⟨inherited, hcs, hextend⟩ := membersOf_cons_ok h
    exact hstep c cs inherited m (ih hcs) hextend

/-- A class layout holds the members of the chain of super classes and what follows from them. -/
theorem classLayout_ok {x : ClassLayout} (h : r.classLayout t = .ok x) :
    ∃ cs, r.lineage t = .ok cs ∧ r.membersOf cs = .ok x.members ∧ x.index = x.members.toIndex ∧
      x.compareFunction = ((x.methods.slotOf? Members.compareName).bind x.methods.get?).map
        MethodEntry.function ∧
      x.hasPointer = x.members.fields.values.any fun f => (r.kind? f.type).any Kind.isPointer := by
  unfold classLayout at h
  obtain ⟨c, -, h⟩ := Outcome.bind_eq_ok.1 h
  obtain ⟨cs, hcs, h⟩ := Outcome.bind_eq_ok.1 h
  obtain ⟨m, hm, h⟩ := Outcome.bind_eq_ok.1 h
  obtain rfl := Outcome.pure_eq_ok.1 h
  exact ⟨cs, Outcome.mapError_eq_ok.1 hcs, hm, rfl, rfl, rfl⟩

theorem lineageFrom_succ {steps : Nat} {cs : List Class} (h : r.lineageFrom steps t = .ok cs) :
    r.lineageFrom (steps + 1) t = .ok cs := by
  induction steps generalizing t cs with
  | zero =>
    obtain ⟨c, hc, ⟨hnone, rfl⟩ | ⟨_, _, _, _, hsteps, -⟩⟩ := lineageFrom_ok h
    · simp [lineageFrom, classOf_eq_ok.2 hc, hnone]
    · cases hsteps
  | succ steps ih =>
    obtain ⟨c, hc, ⟨hnone, rfl⟩ | ⟨up, _, rest, hsome, hsteps, hrest, rfl⟩⟩ := lineageFrom_ok h
    · simp [lineageFrom, classOf_eq_ok.2 hc, hnone]
    · cases hsteps
      rw [lineageFrom, classOf_eq_ok.2 hc]
      simp only [hsome, ih hrest, Except.map]

theorem classLayout_of_membersOf {c : Class} {cs : List Class} {m : Members}
    (hc : r.get? t = some (.object c)) (hcs : r.lineage t = .ok cs) (hm : r.membersOf cs = .ok m) :
    ∃ x, r.classLayout t = .ok x ∧ x.members = m := by
  rw [classLayout, classOf_eq_ok.2 hc, hcs]
  simp only [LayoutError.ofType, Except.mapError, bind, Except.bind, hm]
  exact ⟨_, rfl, rfl⟩

theorem classLayout_extends {x : ClassLayout} (h : r.classLayout t = .ok x) :
    ∃ c inherited, r.get? t = some (.object c) ∧ inherited.extend r c = .ok x.members ∧
      ((c.super = none ∧ inherited = .empty) ∨
        ∃ up y, c.super = some up ∧ r.classLayout up = .ok y ∧ inherited = y.members) := by
  obtain ⟨cs, hcs, hm, -⟩ := classLayout_ok h
  obtain ⟨c, hc, ⟨hnone, rfl⟩ | ⟨up, steps, rest, hsome, hsteps, hrest, rfl⟩⟩ := lineageFrom_ok hcs
  · obtain ⟨inherited, hempty, hextend⟩ := membersOf_cons_ok hm
    cases hempty
    exact ⟨c, .empty, hc, hextend, Or.inl ⟨hnone, rfl⟩⟩
  · obtain ⟨inherited, hinherited, hextend⟩ := membersOf_cons_ok hm
    obtain ⟨d, hd, -⟩ := lineageFrom_ok hrest
    have hlineage : r.lineage up = .ok rest := by
      rw [lineage, hsteps]
      exact lineageFrom_succ hrest
    obtain ⟨y, hy, rfl⟩ := classLayout_of_membersOf hd hlineage hinherited
    exact ⟨c, y.members, hc, hextend, Or.inr ⟨up, y, hsome, hy, rfl⟩⟩

end Registry

end ObjectModel
