import ObjectModel.Proofs.Registry.Ancestors

/-!
Subclassing is an order of types up to structural equality. A type is a subclass of another one if a type
on its way up is the same as that one. Types that are the same go up alike, step by step, so the rest of
one way can be followed from the other; and as every way up ends, no type is the same as one above it.
-/

set_option autoImplicit false
set_option relaxedAutoImplicit false

namespace ObjectModel

namespace Registry

variable {r : Registry} {a b c t u sub sup : TypeId} {m n : Nat}

/-! Ways up. -/

theorem ancestor?_add (r : Registry) (m n : Nat) (t : TypeId) :
    r.ancestor? (m + n) t = (r.ancestor? m t).bind (r.ancestor? n) := by
  induction m generalizing t with
  | zero => simp
  | succ m ih =>
    rw [Nat.succ_add]
    cases hsuper : r.super? t with
    | none => simp [hsuper]
    | some up => simpa [hsuper] using ih up

theorem isSome_ancestor?_of_le (hmn : m ≤ n) (hn : (r.ancestor? n t).isSome = true) :
    (r.ancestor? m t).isSome = true := by
  obtain ⟨k, rfl⟩ := Nat.exists_eq_add_of_le hmn
  rw [ancestor?_add] at hn
  exact Option.isSome_of_isSome_bind hn

theorem Built.ancestor?_eq_none (hb : r.Built) (t : TypeId) : r.ancestor? (r.size + 1) t = none := by
  obtain ⟨b, -, hbuild⟩ := hb.built
  have hslots : b.slots.size ≤ r.size := by
    obtain ⟨ds, hds, -, htypes⟩ := Builder.build_ok hbuild
    have hle := (Builder.types_appendApplied (Builder.maxArity ds) ds ds.toArray).length_le
    rw [size, htypes, ← Array.length_toList, hds]
    simpa using hle
  have hnone := ancestor?_of_build hbuild t
  rw [← Option.not_isSome_iff_eq_none] at hnone ⊢
  exact fun hsome => hnone (isSome_ancestor?_of_le (by omega) hsome)

theorem exists_top_of_ancestor?_eq_none (hn : r.ancestor? (n + 1) t = none) :
    ∃ k top, k ≤ n ∧ r.ancestor? k t = some top ∧ r.super? top = none := by
  induction n generalizing t with
  | zero => exact ⟨0, t, le_rfl, rfl, Option.eq_none_iff_forall_ne_some.2 (by simpa using hn)⟩
  | succ n ih =>
    cases hsuper : r.super? t with
    | none => exact ⟨0, t, Nat.zero_le _, rfl, hsuper⟩
    | some up =>
      rw [ancestor?_succ, hsuper, Option.bind_some] at hn
      obtain ⟨k, top, hk, htop, hend⟩ := ih hn
      exact ⟨k + 1, top, by omega, by rw [ancestor?_succ, hsuper, Option.bind_some, htop], hend⟩

theorem super?_of_sameType (h : r.sameType t u = true) :
    Option.Rel (fun x y => r.sameType x y = true) (r.super? t) (r.super? u) := by
  cases ht : r.get? t with
  | some d =>
    obtain ⟨e, hu, halike⟩ := alike_of_sameType h ht
    cases d with
    | object c =>
      cases e with
      | object c' => simpa [super?, class?, ht, hu] using halike.2.1
      | _ => exact absurd halike.kind_eq (by simp [Descriptor.kind])
    | _ =>
      cases e with
      | object c' => exact absurd halike.kind_eq (by simp [Descriptor.kind])
      | _ => simp [super?, class?, ht, hu]
  | none =>
    have hkind := kind?_eq_of_sameType h
    have hu : r.get? u = none := by simpa [kind?, ht] using hkind.symm
    simp [super?, class?, ht, hu]

theorem ancestor?_of_sameType (h : r.sameType t u = true) (n : Nat) :
    Option.Rel (fun x y => r.sameType x y = true) (r.ancestor? n t) (r.ancestor? n u) := by
  induction n generalizing t u with
  | zero => simpa using h
  | succ n ih =>
    have hsuper := super?_of_sameType h
    rw [ancestor?_succ, ancestor?_succ]
    generalize r.super? t = x at hsuper ⊢
    generalize r.super? u = y at hsuper ⊢
    cases hsuper with
    | none => exact .none
    | some hup => exact ih hup

theorem exists_ancestor?_of_sameType (h : r.sameType t u = true) (ha : r.ancestor? n u = some a) :
    ∃ b, r.ancestor? n t = some b ∧ r.sameType b a = true := by
  have hrel := ancestor?_of_sameType h n
  rw [ha] at hrel
  generalize r.ancestor? n t = x at hrel ⊢
  cases hrel with
  | some hsame => exact ⟨_, rfl, hsame⟩

/-- No type is the same as one that lies above it: there would be a way up without end. -/
theorem Built.not_sameType_above (hb : r.Built) (hu : r.ancestor? (n + 1) t = some u) :
    r.sameType t u = false := by
  rw [Bool.eq_false_iff]
  intro hsame
  have hall : ∀ k, (r.ancestor? k t).isSome = true := by
    intro k
    induction k with
    | zero => rfl
    | succ k ih =>
      -- As far as `t` goes up, so does `u`, and thus `t` at least one step further.
      obtain ⟨a, ha⟩ := Option.isSome_iff_exists.1 ih
      obtain ⟨b, hbk, -⟩ := exists_ancestor?_of_sameType (sameType_symm hsame) ha
      have hlong : (r.ancestor? (n + 1 + k) t).isSome = true := by
        rw [ancestor?_add, hu, Option.bind_some, hbk, Option.isSome_some]
      exact isSome_ancestor?_of_le (by omega) hlong
  have hend := hall (r.size + 1)
  rw [hb.ancestor?_eq_none] at hend
  exact absurd hend Bool.false_ne_true

/-! The walk. -/

theorem subclassFrom_succ {steps : Nat} : r.subclassFrom sup (steps + 1) sub = true ↔
    r.sameType sub sup = true ∨
      ∃ up, r.super? sub = some up ∧ r.subclassFrom sup steps up = true := by
  rw [subclassFrom, Bool.or_eq_true]
  cases r.super? sub with
  | none => simp
  | some up => simp

theorem subclassFrom_iff {steps : Nat} : r.subclassFrom sup steps sub = true ↔
    ∃ n u, n ≤ steps ∧ r.ancestor? n sub = some u ∧ r.sameType u sup = true := by
  induction steps generalizing sub with
  | zero => simp [subclassFrom]
  | succ steps ih =>
    rw [subclassFrom_succ]
    constructor
    · rintro (hsame | ⟨up, hsuper, hup⟩)
      · exact ⟨0, sub, Nat.zero_le _, rfl, hsame⟩
      · obtain ⟨n, u, hn, hu, hsame⟩ := ih.1 hup
        exact ⟨n + 1, u, by omega, by simpa [hsuper] using hu, hsame⟩
    · rintro ⟨n, u, hn, hu, hsame⟩
      cases n with
      | zero =>
        obtain rfl : sub = u := Option.some.inj hu
        exact Or.inl hsame
      | succ n =>
        obtain ⟨up, hsuper, hup⟩ := Option.bind_eq_some_iff.1 hu
        exact Or.inr ⟨up, hsuper, ih.2 ⟨n, u, by omega, hup, hsame⟩⟩

/-- Any number of steps from the number of types on leads to the same answer. -/
theorem Built.subclassFrom_iff (hb : r.Built) {steps : Nat} (hsteps : r.size ≤ steps) :
    r.subclassFrom sup steps sub = true ↔
      ∃ n u, r.ancestor? n sub = some u ∧ r.sameType u sup = true := by
  rw [Registry.subclassFrom_iff]
  constructor
  · rintro ⟨n, u, -, hu, hsame⟩
    exact ⟨n, u, hu, hsame⟩
  · rintro ⟨n, u, hu, hsame⟩
    refine ⟨n, u, ?_, hu, hsame⟩
    by_contra hlong
    have hsome : (r.ancestor? (r.size + 1) sub).isSome = true :=
      isSome_ancestor?_of_le (n := n) (by omega) (by rw [hu, Option.isSome_some])
    rw [hb.ancestor?_eq_none] at hsome
    exact absurd hsome Bool.false_ne_true

/-- Where the answer is no, the walk has gone all the way up: it is never for want of a step. -/
theorem Built.top_of_subclassFrom (hb : r.Built) {steps : Nat} (hsteps : r.size ≤ steps)
    (hno : r.subclassFrom sup steps sub = false) :
    ∃ n top, n ≤ steps ∧ r.ancestor? n sub = some top ∧ r.super? top = none ∧
      ∀ m u, r.ancestor? m sub = some u → r.sameType u sup = false := by
  obtain ⟨n, top, hn, htop, hend⟩ := exists_top_of_ancestor?_eq_none (hb.ancestor?_eq_none sub)
  refine ⟨n, top, hn.trans hsteps, htop, hend, fun m u hu => ?_⟩
  rw [Bool.eq_false_iff]
  intro hsame
  rw [(hb.subclassFrom_iff hsteps).2 ⟨m, u, hu, hsame⟩] at hno
  cases hno

theorem Built.isSubclass_iff (hb : r.Built) : r.isSubclass sub sup = true ↔
    ∃ n u, r.ancestor? n sub = some u ∧ r.sameType u sup = true :=
  hb.subclassFrom_iff le_rfl

theorem Built.isSubclass_trans (hb : r.Built) (hab : r.isSubclass a b = true)
    (hbc : r.isSubclass b c = true) : r.isSubclass a c = true := by
  obtain ⟨m, u, hu, hub⟩ := hb.isSubclass_iff.1 hab
  obtain ⟨n, v, hv, hvc⟩ := hb.isSubclass_iff.1 hbc
  -- From `u` on the way of `b` is followed.
  obtain ⟨x, hx, hxv⟩ := exists_ancestor?_of_sameType hub hv
  refine hb.isSubclass_iff.2 ⟨m + n, x, ?_, sameType_trans hxv hvc⟩
  rw [ancestor?_add, hu, Option.bind_some, hx]

theorem Built.isSubclass_antisymm (hb : r.Built) (hab : r.isSubclass a b = true)
    (hba : r.isSubclass b a = true) : r.sameType a b = true := by
  obtain ⟨m, u, hu, hub⟩ := hb.isSubclass_iff.1 hab
  obtain ⟨n, v, hv, hva⟩ := hb.isSubclass_iff.1 hba
  cases m with
  | zero =>
    obtain rfl : a = u := Option.some.inj hu
    exact hub
  | succ m =>
    -- Otherwise `a` would be the same as what lies `m + 1 + n` steps above it.
    obtain ⟨x, hx, hxv⟩ := exists_ancestor?_of_sameType hub hv
    have habove : r.ancestor? (m + n + 1) a = some x := by
      rw [show m + n + 1 = m + 1 + n by omega, ancestor?_add, hu, Option.bind_some, hx]
    have hsame : r.sameType a x = true := sameType_symm (sameType_trans hxv hva)
    rw [hb.not_sameType_above habove] at hsame
    exact absurd hsame Bool.false_ne_true

theorem Built.isSubclass_congr (hb : r.Built) (hab : r.sameType a b = true)
    (htu : r.sameType t u = true) : r.isSubclass a t = r.isSubclass b u := by
  rw [Bool.eq_iff_iff]
  constructor
  · intro h
    have hba := isSubclass_of_same (sameType_symm hab)
    exact hb.isSubclass_trans hba (isSubclass_of_sameType h htu)
  · intro h
    have hab' := isSubclass_of_same hab
    exact hb.isSubclass_trans hab' (isSubclass_of_sameType h (sameType_symm htu))

/-- In a built registry every walk up to look for a super class ends, more steps do not change its answer,
and it answers no only from a type without super class. Subclassing is reflexive and transitive, it holds
both ways only between types that are the same, and it does not tell such types apart. -/
theorem Built.isSubclass_partialOrder (hb : r.Built) :
    (∀ t, r.ancestor? (r.size + 1) t = none) ∧
    (∀ a b steps, r.size ≤ steps → r.subclassFrom b steps a = r.isSubclass a b) ∧
    (∀ a b steps, r.size ≤ steps → r.subclassFrom b steps a = false →
      ∃ n top, n ≤ steps ∧ r.ancestor? n a = some top ∧ r.super? top = none ∧
        ∀ m u, r.ancestor? m a = some u → r.sameType u b = false) ∧
    (∀ a b, r.isSubclass a b = true ↔ ∃ n u, r.ancestor? n a = some u ∧ r.sameType u b = true) ∧
    (∀ a, r.isSubclass a a = true) ∧
    (∀ a b c, r.isSubclass a b = true → r.isSubclass b c = true → r.isSubclass a c = true) ∧
    (∀ a b, r.isSubclass a b = true → r.isSubclass b a = true → r.sameType a b = true) ∧
    ∀ a b t u, r.sameType a b = true → r.sameType t u = true → r.isSubclass a t = r.isSubclass b u := by
  refine ⟨hb.ancestor?_eq_none, ?_, fun a b steps => hb.top_of_subclassFrom,
    fun a b => hb.isSubclass_iff, ?_, ?_, ?_, ?_⟩
  · intro a b steps hsteps
    rw [Bool.eq_iff_iff, hb.subclassFrom_iff hsteps, hb.isSubclass_iff]
  · exact fun a => isSubclass_of_same (sameType_refl r a)
  · exact fun a b c => hb.isSubclass_trans
  · exact fun a b => hb.isSubclass_antisymm
  · exact fun a b t u => hb.isSubclass_congr

/-- Three generations of classes whose `copy` gives back the class itself, and a twin of the second one. -/
def familyTypes : Registry :=
  ⟨(Descriptor.builtins ++
    ([.function [.ofIndex 21, .i32] (.ofIndex 21), .function [.ofIndex 22, .i32] (.ofIndex 22),
      .function [.ofIndex 23, .i32] (.ofIndex 23), .function [.i32] (.ofIndex 21),
      .function [.i32] (.ofIndex 22), .function [.i32] (.ofIndex 23), .function [] (.ofIndex 21),
      .function [] (.ofIndex 22), .function [] (.ofIndex 23),
      .object ⟨"Base", none, [⟨"size", .i32⟩], [⟨"copy", 0, .ofIndex 12⟩]⟩,
      .object ⟨"Middle", some (.ofIndex 21), [⟨"next", .ofIndex 22⟩], [⟨"copy", 1, .ofIndex 13⟩]⟩,
      .object ⟨"Leaf", some (.ofIndex 22), [], [⟨"drop", 3, .ofIndex 17⟩, ⟨"copy", 2, .ofIndex 14⟩]⟩,
      .object ⟨"Middle", some (.ofIndex 21), [⟨"next", .ofIndex 24⟩], [⟨"copy", 1, .ofIndex 13⟩]⟩] :
      List Descriptor)).toArray⟩

theorem familyTypes_built : familyTypes.Built :=
  .of_adds (familyTypes.types.toList.drop Descriptor.builtins.length) (by decide +kernel)
    (by decide +kernel)

/-- The third generation is a subclass of the twin, and by way of it of the first one; from there no way
leads back. -/
theorem familyTypes_ordered :
    familyTypes.isSubclass (.ofIndex 23) (.ofIndex 24) = true ∧
    familyTypes.isSubclass (.ofIndex 23) (.ofIndex 21) = true ∧
    familyTypes.subclassFrom (.ofIndex 22) 1000 (.ofIndex 24) = true ∧
    familyTypes.isSubclass (.ofIndex 21) (.ofIndex 23) = false := by
  obtain ⟨-, hsteps, -, -, -, htrans, hantisymm, hcongr⟩ := familyTypes_built.isSubclass_partialOrder
  have htwins : familyTypes.sameType (.ofIndex 24) (.ofIndex 22) = true := by decide +kernel
  have hleaf : familyTypes.isSubclass (.ofIndex 23) (.ofIndex 24) = true := by decide +kernel
  have htwin : familyTypes.isSubclass (.ofIndex 24) (.ofIndex 21) = true := by decide +kernel
  have hbase := htrans _ _ _ hleaf htwin
  refine ⟨hleaf, hbase, ?_, ?_⟩
  · rw [hsteps _ _ 1000 (by decide), hcongr _ _ _ _ htwins (sameType_refl _ _)]
    exact isSubclass_of_same (sameType_refl _ _)
  · rw [Bool.eq_false_iff]
    intro hback
    have hsame := hantisymm _ _ hbase hback
    have hdiffer : familyTypes.sameType (.ofIndex 23) (.ofIndex 21) = false := by decide +kernel
    exact absurd (hsame.symm.trans hdiffer) (by decide)

end Registry

end ObjectModel
