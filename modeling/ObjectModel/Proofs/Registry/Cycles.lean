import ObjectModel.Proofs.Registry.Ancestors

/-!
Which class the check of super classes names. It goes up from one class after the other, in the order of
their ids, and names the first one from which the way up never ends. Such a way leads into a cycle, but the
class where it starts need not be on it.
-/

set_option autoImplicit false
set_option relaxedAutoImplicit false

namespace ObjectModel

namespace Builder

/-- The way up from index `i` leads into a cycle. -/
def Circles (ds : List Descriptor) (i : Nat) : Prop :=
  ∃ j, Relation.ReflTransGen (Extends ds) i j ∧ Relation.TransGen (Extends ds) j j

/-- The way up from index `i` comes to a class that extends nothing. -/
def Ends (ds : List Descriptor) (i : Nat) : Prop :=
  ∃ j c, Relation.ReflTransGen (Extends ds) i j ∧ ds[j]? = some (.object c) ∧ c.super = none

variable {ds types : List Descriptor} {c : Class} {e : TypeError} {name start : String} {i j n : Nat}

private theorem Extends.eq_index {up : TypeId} (h : Extends ds i j) (hc : ds[i]? = some (.object c))
    (hup : c.super = some up) : up.index = j := by
  obtain ⟨c', up', hc', hup', rfl⟩ := h
  obtain rfl := Descriptor.object.inj (Option.some.inj (hc.symm.trans hc'))
  rw [Option.some.inj (hup.symm.trans hup')]

theorem Circles.up (h : Circles ds i) : ∃ c up parent, ds[i]? = some (.object c) ∧ c.super = some up ∧
    ds[up.index]? = some (.object parent) ∧ Circles ds up.index := by
  have hnext {i : Nat} (h : Circles ds i) : ∃ k, Extends ds i k ∧ Circles ds k := by
    obtain ⟨j, hreach, hcycle⟩ := h
    rcases hreach.cases_head with rfl | ⟨k, hik, hkj⟩
    · obtain ⟨k, hik, hback⟩ := Relation.TransGen.head'_iff.1 hcycle
      exact ⟨k, hik, i, hback, hcycle⟩
    · exact ⟨k, hik, j, hkj, hcycle⟩
  obtain ⟨k, ⟨c, up, hc, hup, rfl⟩, hk⟩ := hnext h
  obtain ⟨-, ⟨parent, -, hparent, -, -⟩, -⟩ := hnext hk
  exact ⟨c, up, parent, hc, hup, hparent, hk⟩

theorem Circles.not_ends (h : Circles ds i) : ¬Ends ds i := by
  rintro ⟨j, c, hreach, hc, hnone⟩
  induction hreach using Relation.ReflTransGen.head_induction_on with
  | refl =>
    obtain ⟨c', up, -, hc', hup, -, -⟩ := h.up
    obtain rfl := Descriptor.object.inj (Option.some.inj (hc.symm.trans hc'))
    exact absurd (hup.symm.trans hnone) (Option.some_ne_none _)
  | head hstep _ ih =>
    obtain ⟨c', up, -, hc', hup, -, hon⟩ := h.up
    exact ih (hstep.eq_index hc' hup ▸ hon)

/-! ### One class -/

private theorem checkAncestors_up {up : TypeId} {parent : Class} (hup : c.super = some up)
    (hparent : ds[up.index]? = some (.object parent)) :
    checkAncestors ds.toArray start n c =
      match n with
      | 0 => .error (.cyclicInheritance start)
      | n + 1 => checkAncestors ds.toArray start n parent := by
  have hup' : ds.toArray[up.index]? = some (.object parent) := by rwa [List.getElem?_toArray]
  rw [checkAncestors]
  cases n <;> simp only [hup, hup']

theorem checkAncestors_of_circles (h : Circles ds i) (hc : ds[i]? = some (.object c)) :
    checkAncestors ds.toArray start n c = .error (.cyclicInheritance start) := by
  induction n generalizing i c with
  | zero =>
    obtain ⟨c', up, parent, hc', hup, hparent, -⟩ := h.up
    obtain rfl := Descriptor.object.inj (Option.some.inj (hc.symm.trans hc'))
    exact checkAncestors_up hup hparent
  | succ n ih =>
    obtain ⟨c', up, parent, hc', hup, hparent, hon⟩ := h.up
    obtain rfl := Descriptor.object.inj (Option.some.inj (hc.symm.trans hc'))
    exact (checkAncestors_up hup hparent).trans (ih hon hparent)

private theorem checkAncestors_of_ends (start : String) (n : Nat) (h : Ends ds i)
    (hc : ds[i]? = some (.object c)) :
    checkAncestors ds.toArray start n c = .ok () ∨
      checkAncestors ds.toArray start n c = .error (.cyclicInheritance start) := by
  obtain ⟨j, top, hreach, htop, hnone⟩ := h
  induction hreach using Relation.ReflTransGen.head_induction_on generalizing n c with
  | refl =>
    obtain rfl := Descriptor.object.inj (Option.some.inj (hc.symm.trans htop))
    exact Or.inl ((checkAncestors_eq_ok start).2 (.top hnone))
  | @head i k hstep hrest ih =>
    obtain ⟨c', up, hc', hup, rfl⟩ := hstep
    obtain rfl := Descriptor.object.inj (Option.some.inj (hc.symm.trans hc'))
    obtain ⟨parent, hparent⟩ : ∃ parent, ds[up.index]? = some (.object parent) := by
      rcases hrest.cases_head with heq | ⟨_, ⟨parent, -, hparent, -, -⟩, -⟩
      · exact ⟨top, heq ▸ htop⟩
      · exact ⟨parent, hparent⟩
    rw [checkAncestors_up hup hparent]
    cases n with
    | zero => exact Or.inr rfl
    | succ n => exact ih n hparent

private theorem up_of_cyclic (h : checkAncestors ds.toArray start n c = .error (.cyclicInheritance name)) :
    ∃ up parent, c.super = some up ∧ ds[up.index]? = some (.object parent) := by
  rw [checkAncestors] at h
  split at h
  · cases h
  · rename_i up hup
    split at h
    · cases h
    · rename_i parent hparent
      exact ⟨up, parent, hup, by rwa [List.getElem?_toArray] at hparent⟩
    · cases h

private theorem start_of_cyclic (h : checkAncestors ds.toArray start n c = .error (.cyclicInheritance name)) :
    start = name := by
  induction n generalizing c with
  | zero =>
    obtain ⟨up, parent, hup, hparent⟩ := up_of_cyclic h
    rw [checkAncestors_up hup hparent] at h
    cases h
    rfl
  | succ n ih =>
    obtain ⟨up, parent, hup, hparent⟩ := up_of_cyclic h
    rw [checkAncestors_up hup hparent] at h
    exact ih h

private theorem circles_of_passed (passed : Finset Nat) (hpassed : passed ⊆ Finset.range ds.length)
    (hbelow : ∀ j ∈ passed, Relation.TransGen (Extends ds) j i) (hc : ds[i]? = some (.object c))
    (h : checkAncestors ds.toArray start (ds.length - passed.card) c = .error (.cyclicInheritance name)) :
    Circles ds i := by
  induction hleft : ds.length - passed.card generalizing i c passed with
  | zero =>
    by_cases hi : i ∈ passed
    · exact ⟨i, .refl, hbelow i hi⟩
    · obtain ⟨-, -, hlt⟩ := card_insert_passed hpassed hi (List.getElem?_eq_some_iff.1 hc).1
      omega
  | succ n ih =>
    by_cases hi : i ∈ passed
    · exact ⟨i, .refl, hbelow i hi⟩
    · obtain ⟨hsubset, hcard, -⟩ := card_insert_passed hpassed hi (List.getElem?_eq_some_iff.1 hc).1
      obtain ⟨up, parent, hup, hparent⟩ := up_of_cyclic h
      have hstep : Extends ds i up.index := ⟨c, up, hc, hup, rfl⟩
      have hbelow' : ∀ j ∈ insert i passed, Relation.TransGen (Extends ds) j up.index := by
        intro j hj
        rcases Finset.mem_insert.1 hj with rfl | hj
        · exact .single hstep
        · exact (hbelow j hj).tail hstep
      have hleft' : ds.length - (insert i passed).card = n := by omega
      rw [hleft, checkAncestors_up hup hparent] at h
      obtain ⟨j, hreach, hcycle⟩ := ih (insert i passed) hsubset hbelow' hparent (hleft' ▸ h) hleft'
      exact ⟨j, .head hstep hreach, hcycle⟩

/-- The check of one class: it names the class from which it goes up, and does so exactly if the way leads
into a cycle. -/
theorem checkAncestors_eq_cyclic (hc : ds[i]? = some (.object c)) :
    checkAncestors ds.toArray start ds.length c = .error (.cyclicInheritance name) ↔
      start = name ∧ Circles ds i := by
  constructor
  · intro h
    exact ⟨start_of_cyclic h, circles_of_passed ∅ (Finset.empty_subset _) (by simp) hc h⟩
  · rintro ⟨rfl, hcircles⟩
    exact checkAncestors_of_circles hcircles hc

private theorem Climbs.ends (h : Climbs ds n c) (hc : ds[i]? = some (.object c)) : Ends ds i := by
  induction h generalizing i with
  | top hnone => exact ⟨i, _, .refl, hc, hnone⟩
  | up hup hparent _ ih =>
    obtain ⟨j, top, hreach, htop⟩ := ih hparent
    exact ⟨j, top, .head ⟨_, _, hc, hup, rfl⟩ hreach, htop⟩

theorem climbs_iff_ends (hc : ds[i]? = some (.object c)) : Climbs ds ds.length c ↔ Ends ds i := by
  refine ⟨fun h => h.ends hc, ?_⟩
  intro h
  rcases checkAncestors_of_ends c.name ds.length h hc with hok | hcyclic
  · exact (checkAncestors_eq_ok c.name).1 hok
  · exact absurd h ((checkAncestors_eq_cyclic hc).1 hcyclic).2.not_ends

/-! ### All classes -/

theorem checkInheritance_eq_error : checkInheritance types.toArray ds = .error e ↔
    ∃ (i : Nat) (c : Class), ds[i]? = some (.object c) ∧
      checkAncestors types.toArray c.name types.length c = .error e ∧
      ∀ j < i, ∀ c', ds[j]? = some (.object c') → Climbs types types.length c' := by
  induction ds with
  | nil => simp [checkInheritance]
  | cons d ds ih =>
    have hcons : checkInheritance types.toArray (d :: ds) = .error e ↔
        (∃ c, d = .object c ∧ checkAncestors types.toArray c.name types.length c = .error e) ∨
        (∀ c, d = .object c → Climbs types types.length c) ∧ checkInheritance types.toArray ds = .error e := by
      cases d with
      | object c =>
        simp only [checkInheritance, List.size_toArray, Descriptor.object.injEq, exists_eq_left',
          forall_eq', ← checkAncestors_eq_ok c.name]
        cases checkAncestors types.toArray c.name types.length c <;> simp [bind, Except.bind]
      | _ => simp [checkInheritance]
    rw [hcons, ih]
    constructor
    · rintro (⟨c, rfl, hfault⟩ | ⟨hd, i, c, hc, hfault, hbefore⟩)
      · exact ⟨0, c, rfl, hfault, fun j hj => absurd hj (Nat.not_lt_zero j)⟩
      · refine ⟨i + 1, c, hc, hfault, ?_⟩
        intro j hj c' hc'
        cases j with
        | zero => exact hd c' (Option.some.inj hc')
        | succ j => exact hbefore j (Nat.lt_of_succ_lt_succ hj) c' hc'
    · rintro ⟨i, c, hc, hfault, hbefore⟩
      cases i with
      | zero => exact Or.inl ⟨c, Option.some.inj hc, hfault⟩
      | succ i =>
        refine Or.inr ⟨?_, i, c, hc, hfault, ?_⟩
        · rintro c' rfl
          exact hbefore 0 (Nat.zero_lt_succ i) c' rfl
        · exact fun j hj => hbefore (j + 1) (Nat.succ_lt_succ hj)

private theorem undefined_of_definedFrom {slots : List (Option Descriptor)} {first : Nat}
    (h : definedFrom first slots = .error e) : ∃ t, e = .undefined t := by
  induction slots generalizing first with
  | nil => cases h
  | cons slot rest ih =>
    cases slot with
    | none =>
      cases h
      exact ⟨_, rfl⟩
    | some d =>
      rw [definedFrom] at h
      cases hrest : definedFrom (first + 1) rest with
      | error e' =>
        rw [hrest] at h
        cases h
        exact ih hrest
      | ok ds =>
        rw [hrest] at h
        cases h

private theorem build_of_slots {b : Builder} (hslots : b.slots.toList = ds.map some)
    (hdangling : danglingReference? ds = none) :
    b.build = (checkInheritance ds.toArray ds).map fun _ =>
      ⟨appendApplied (maxArity ds) ds ds.toArray⟩ := by
  unfold build
  simp only [hslots, definedFrom_map, hdangling, bind, Except.bind]
  cases checkInheritance ds.toArray ds <;> rfl

/-- A builder whose ids are all defined, and that mentions no other ones, fails with a cycle exactly if the
way up from some class never ends. The error names the first such class in the order of the ids: its way
leads into a cycle, which need not lead back to it. -/
theorem build_eq_cyclic {b : Builder} : b.build = .error (.cyclicInheritance name) ↔
    ∃ ds, b.slots.toList = ds.map some ∧ (∀ d ∈ ds, ∀ u ∈ d.references, u.index < ds.length) ∧
      ∃ (i : Nat) (c : Class), ds[i]? = some (.object c) ∧ c.name = name ∧ Circles ds i ∧
        ∀ j < i, ∀ c', ds[j]? = some (.object c') → Ends ds j := by
  have hcheck (ds : List Descriptor) : checkInheritance ds.toArray ds = .error (.cyclicInheritance name) ↔
      ∃ (i : Nat) (c : Class), ds[i]? = some (.object c) ∧ c.name = name ∧ Circles ds i ∧
        ∀ j < i, ∀ c', ds[j]? = some (.object c') → Ends ds j := by
    rw [checkInheritance_eq_error]
    refine exists_congr fun i => exists_congr fun c => and_congr_right fun hc => ?_
    rw [checkAncestors_eq_cyclic hc, and_assoc]
    refine and_congr_right' (and_congr_right' (forall₄_congr fun j _ c' hc' => climbs_iff_ends hc'))
  simp only [← hcheck, ← danglingReference?_eq_none]
  constructor
  · intro h
    cases hds : definedFrom 0 b.slots.toList with
    | error e =>
      obtain ⟨t, rfl⟩ := undefined_of_definedFrom hds
      simp [build, hds, bind, Except.bind] at h
    | ok ds =>
      cases hdangling : danglingReference? ds with
      | some t => simp [build, hds, hdangling, bind, Except.bind, throw, throwThe, MonadExceptOf.throw] at h
      | none =>
        rw [build_of_slots (definedFrom_ok hds) hdangling] at h
        refine ⟨ds, definedFrom_ok hds, hdangling, ?_⟩
        cases hinherit : checkInheritance ds.toArray ds with
        | ok _ =>
          rw [hinherit] at h
          cases h
        | error e =>
          rw [hinherit] at h
          cases h
          rfl
  · rintro ⟨ds, hslots, hdangling, hinherit⟩
    rw [build_of_slots hslots hdangling, hinherit]
    rfl

/-- A class that extends a later one, which extends itself. -/
def strayClasses : List Descriptor :=
  [.object ⟨"A", some (.ofIndex 13), [], []⟩, .object ⟨"B", some (.ofIndex 13), [], []⟩]

/-- The error need not name a class that is its own ancestor: here it names the one outside the cycle. -/
theorem strayClasses_outside_cycle : ¬∀ (b : Builder) (ds : List Descriptor) (name : String), b.Made →
    b.slots.toList = ds.map some → b.build = .error (.cyclicInheritance name) →
      ∃ (i : Nat) (c : Class), ds[i]? = some (.object c) ∧ c.name = name ∧
        Relation.TransGen (Extends ds) i i := by
  intro h
  have hcheck : checkInheritance (Descriptor.builtins ++ strayClasses).toArray
      (Descriptor.builtins ++ strayClasses) = .error (.cyclicInheritance "A") := by
    decide +kernel
  have hfault : (strayClasses.foldl (fun b d => (b.add d).2) Builder.new).build =
      .error (.cyclicInheritance "A") := by
    have hslots : (strayClasses.foldl (fun b d => (b.add d).2) Builder.new).slots.toList =
        (Descriptor.builtins ++ strayClasses).map some := rfl
    rw [build_of_slots hslots (by decide +kernel), hcheck]
    rfl
  obtain ⟨i, c, hc, hname, hcycle⟩ := h _ (Descriptor.builtins ++ strayClasses) "A"
    (Made.new.addAll strayClasses) rfl hfault
  have hall {k : Nat} {c : Class} (hk : (Descriptor.builtins ++ strayClasses)[k]? = some (.object c)) :
      c.super = some (.ofIndex 13) := by
    have hmem := List.mem_of_getElem? hk
    simp only [Descriptor.builtins, strayClasses, List.cons_append, List.nil_append, List.mem_cons,
      reduceCtorEq, Descriptor.object.injEq, false_or, List.not_mem_nil, or_false] at hmem
    rcases hmem with rfl | rfl <;> rfl
  obtain ⟨k, -, hk⟩ := Relation.TransGen.tail'_iff.1 hcycle
  obtain ⟨c', up, hc', hup, rfl⟩ := hk
  obtain rfl := Option.some.inj (hup.symm.trans (hall hc'))
  obtain rfl : Class.mk "B" (some (.ofIndex 13)) [] [] = c :=
    Descriptor.object.inj (Option.some.inj ((show _ = some _ from rfl).symm.trans hc))
  exact absurd hname (by decide)

end Builder

end ObjectModel
