import ObjectModel.Proofs.Registry.Built
import Mathlib.Logic.Relation
import Mathlib.Data.Finset.Card

/-!
The check of super classes counts steps. It lets exactly those sets of types pass in which classes
extend classes and no class is its own ancestor: on the way up from a class no index comes twice, so
there are fewer steps than types.
-/

set_option autoImplicit false
set_option relaxedAutoImplicit false

namespace ObjectModel

namespace Builder

variable {ds : List Descriptor} {c : Class} {i n : Nat}

/-- The super classes from `c` on come to an end within `n` steps. -/
inductive Climbs (ds : List Descriptor) : Nat → Class → Prop
  | top {n : Nat} {c : Class} (h : c.super = none) : Climbs ds n c
  | up {n : Nat} {c parent : Class} {up : TypeId} (h : c.super = some up)
      (hparent : ds[up.index]? = some (.object parent)) (hclimbs : Climbs ds n parent) :
      Climbs ds (n + 1) c

/-- The class at index `i` names the type at index `j` as its super class. -/
def Extends (ds : List Descriptor) (i j : Nat) : Prop :=
  ∃ c up, ds[i]? = some (.object c) ∧ c.super = some up ∧ up.index = j

/-- What a class names as its super class is a class. -/
def ClassesAbove (ds : List Descriptor) : Prop :=
  ∀ (i : Nat) (c : Class) (up : TypeId), ds[i]? = some (.object c) → c.super = some up →
    ∃ parent, ds[up.index]? = some (.object parent)

theorem Climbs.parent {up : TypeId} (h : Climbs ds n c) (hup : c.super = some up) :
    ∃ parent, ds[up.index]? = some (.object parent) := by
  cases h with
  | top hnone =>
    rw [hnone] at hup
    cases hup
  | up hup' hparent _ =>
    obtain rfl := Option.some.inj (hup.symm.trans hup')
    exact ⟨_, hparent⟩

theorem checkAncestors_eq_ok (start : String) :
    checkAncestors ds.toArray start n c = .ok () ↔ Climbs ds n c := by
  constructor
  · intro h
    induction n generalizing c with
    | zero =>
      unfold checkAncestors at h
      split at h
      · exact .top ‹_›
      · split at h <;> cases h
    | succ n ih =>
      unfold checkAncestors at h
      split at h
      · exact .top ‹_›
      · split at h
        case h_2 hup _ parent hparent =>
          rw [List.getElem?_toArray] at hparent
          exact .up hup hparent (ih h)
        all_goals cases h
  · intro h
    induction h with
    | top h =>
      unfold checkAncestors
      rw [h]
    | up h hparent _ ih =>
      unfold checkAncestors
      rw [h]
      simp only [List.getElem?_toArray, hparent]
      exact ih

theorem checkInheritance_eq_ok {types : List Descriptor} :
    checkInheritance types.toArray ds = .ok () ↔
      ∀ c, .object c ∈ ds → Climbs types types.length c := by
  induction ds with
  | nil => simp [checkInheritance]
  | cons d ds ih =>
    cases d with
    | object c => 
      have hhead : checkInheritance types.toArray (.object c :: ds) = .ok () ↔
          Climbs types types.length c ∧ checkInheritance types.toArray ds = .ok () := by
        rw [← checkAncestors_eq_ok c.name]
        simp only [checkInheritance, List.size_toArray]
        cases checkAncestors types.toArray c.name types.length c <;> simp [bind, Except.bind]
      rw [hhead, ih]
      simp only [List.mem_cons, Descriptor.object.injEq, forall_eq_or_imp]
    | _ => simpa [checkInheritance] using ih

theorem Climbs.not_ancestor (h : Climbs ds n c) (hc : ds[i]? = some (.object c)) :
    ¬Relation.TransGen (Extends ds) i i := by
  intro hcycle
  induction h generalizing i with
  | top hnone =>
    obtain ⟨j, ⟨c', up, hc', hup, -⟩, -⟩ := Relation.TransGen.head'_iff.1 hcycle
    obtain rfl := Descriptor.object.inj (Option.some.inj (hc.symm.trans hc'))
    exact absurd hup (by simp [hnone])
  | up hup hparent _ ih =>
    obtain ⟨j, hextends, hback⟩ := Relation.TransGen.head'_iff.1 hcycle
    obtain ⟨c', up', hc', hup', hj⟩ := hextends
    obtain rfl := Descriptor.object.inj (Option.some.inj (hc.symm.trans hc'))
    obtain rfl := Option.some.inj (hup.symm.trans hup')
    subst hj
    exact ih hparent (.tail' hback ⟨_, _, hc, hup, rfl⟩)

theorem card_insert_passed {passed : Finset Nat} (hpassed : passed ⊆ Finset.range n)
    (hnew : i ∉ passed) (hi : i < n) :
    insert i passed ⊆ Finset.range n ∧ (insert i passed).card = passed.card + 1 ∧ passed.card < n := by
  have hsubset : insert i passed ⊆ Finset.range n :=
    Finset.insert_subset (Finset.mem_range.2 hi) hpassed
  have hcard := Finset.card_insert_of_notMem hnew
  have hle : (insert i passed).card ≤ n := by simpa using Finset.card_le_card hsubset
  exact ⟨hsubset, hcard, by omega⟩

theorem climbs_of_passed (hclasses : ClassesAbove ds) (hacyclic : ∀ i, ¬Relation.TransGen (Extends ds) i i)
    (passed : Finset Nat) (hpassed : passed ⊆ Finset.range ds.length)
    (hbelow : ∀ j ∈ passed, Relation.TransGen (Extends ds) j i) (hc : ds[i]? = some (.object c)) :
    Climbs ds (ds.length - passed.card) c := by
  induction hleft : ds.length - passed.card generalizing i c passed with
  | zero =>
    have hnew : i ∉ passed := fun hi => hacyclic i (hbelow i hi)
    obtain ⟨-, -, hlt⟩ := card_insert_passed hpassed hnew (List.getElem?_eq_some_iff.1 hc).1
    omega
  | succ n ih =>
    cases hsuper : c.super with
    | none => exact .top hsuper
    | some up =>
      have hnew : i ∉ passed := fun hi => hacyclic i (hbelow i hi)
      obtain ⟨hsubset, hcard, -⟩ := card_insert_passed hpassed hnew (List.getElem?_eq_some_iff.1 hc).1
      obtain ⟨parent, hparent⟩ := hclasses i c up hc hsuper
      have hextends : Extends ds i up.index := ⟨c, up, hc, hsuper, rfl⟩
      have hbelow' : ∀ j ∈ insert i passed, Relation.TransGen (Extends ds) j up.index := by
        intro j hj
        rcases Finset.mem_insert.1 hj with rfl | hj
        · exact .single hextends
        · exact (hbelow j hj).tail hextends
      exact .up hsuper hparent (ih (insert i passed) hsubset hbelow' hparent (by omega))

/-- A set of types passes the check of super classes if and only if classes extend classes and no class
is its own ancestor. -/
theorem checkInheritance_iff_acyclic :
    checkInheritance ds.toArray ds = .ok () ↔
      ClassesAbove ds ∧ ∀ i, ¬Relation.TransGen (Extends ds) i i := by
  rw [checkInheritance_eq_ok]
  constructor
  · intro h
    have hclimbs : ∀ {i : Nat} {c : Class}, ds[i]? = some (.object c) → Climbs ds ds.length c :=
      fun hc => h _ (List.mem_of_getElem? hc)
    refine ⟨fun i c up hc hup => (hclimbs hc).parent hup, ?_⟩
    intro i hcycle
    obtain ⟨j, ⟨c, up, hc, -, -⟩, -⟩ := Relation.TransGen.head'_iff.1 hcycle
    exact (hclimbs hc).not_ancestor hc hcycle
  · rintro ⟨hclasses, hacyclic⟩ c hc
    obtain ⟨i, hi⟩ := List.mem_iff_getElem?.1 hc
    exact climbs_of_passed hclasses hacyclic ∅ (Finset.empty_subset _) (by simp) hi

theorem object_mem_of_appendApplied (arity : Nat)
    (h : .object c ∈ appendApplied arity ds ds.toArray) : .object c ∈ ds := by
  let P (d : Descriptor) : Prop := ∀ c, d = .object c → .object c ∈ ds
  have happlied : ∀ d e, applied? d = some e → P d → P e := by
    rintro d _ happlied - c rfl
    unfold applied? at happlied
    split at happlied <;> cases happlied
  have hds : ∀ d ∈ ds, P d := by
    rintro d hd c rfl
    exact hd
  exact forall_appendApplied happlied hds (fun d hd => hds d (List.mem_toArray.1 hd)) _ h c rfl

end Builder

namespace Registry

/-- The type that is reached from `t` in a number of steps from a class to its super class. -/
def ancestor? (r : Registry) : (steps : Nat) → TypeId → Option TypeId
  | 0, t => some t
  | steps + 1, t => (r.super? t).bind (r.ancestor? steps)

@[simp] theorem ancestor?_zero (r : Registry) (t : TypeId) : r.ancestor? 0 t = some t := rfl

@[simp] theorem ancestor?_succ (r : Registry) (n : Nat) (t : TypeId) :
    r.ancestor? (n + 1) t = (r.super? t).bind (r.ancestor? n) := rfl

variable {r : Registry} {ds : List Descriptor}

private theorem ancestor?_of_climbs {n : Nat} {c : Class} {t : TypeId}
    (hds : ∀ {i : Nat} {d : Descriptor}, ds[i]? = some d → r.types[i]? = some d)
    (h : Builder.Climbs ds n c) (ht : r.class? t = some c) : r.ancestor? (n + 1) t = none := by
  induction h generalizing t with
  | top hnone => simp [ancestor?, super?, ht, hnone]
  | @up n c parent up hup hparent _ ih =>
    have hclass : r.class? up = some parent := by
      rw [class?, get?, hds hparent]
    rw [ancestor?, super?, ht, Option.bind_some, hup, Option.bind_some]
    exact ih hclass

/-- In a registry that was built no chain of super classes is longer than the number of types that were
given to the builder. -/
theorem ancestor?_of_build {b : Builder} (h : b.build = .ok r) (t : TypeId) :
    r.ancestor? (b.slots.size + 1) t = none := by
  obtain ⟨ds, hslots, -, hinherit, rfl⟩ := Builder.build_eq_ok.1 h
  have hsize : b.slots.size = ds.length := by
    rw [← Array.length_toList, hslots, List.length_map]
  rw [hsize]
  cases hclass : Registry.class? ⟨Builder.appendApplied (Builder.maxArity ds) ds ds.toArray⟩ t with
  | none => simp [ancestor?, super?, hclass]
  | some c =>
    have hmem : .object c ∈ Builder.appendApplied (Builder.maxArity ds) ds ds.toArray :=
      Array.mem_of_getElem? (get?_of_class? hclass)
    have hclimbs : Builder.Climbs ds ds.length c :=
      Builder.checkInheritance_eq_ok.1 hinherit c (Builder.object_mem_of_appendApplied _ hmem)
    exact ancestor?_of_climbs (Builder.getElem?_appendApplied _) hclimbs hclass

end Registry

end ObjectModel
