import ObjectModel.Proofs.Value.Transparency

/-!
Which receivers a closure binds. The type word of a receiver is taken for the type of an argument, which
it is not for boxes and for values that would have to be shown by a view first. So a receiver that is
bound may be passed as it is, unless the parameter is a number, a raw address or a virtual type that is
not its own.
-/

set_option autoImplicit false
set_option relaxedAutoImplicit false

namespace ObjectModel

variable {r : Registry} {held : Addr → TypeId → Prop} {values : Set Addr} {h h' : Heap} {m : Memory}
  {w : World} {t u : TypeId} {c receiver : Addr} {k : Kind}

/-- A value may be passed as it is for a parameter of a type: the values of this type start with their own
types, and it is one of them. -/
def PassesAs (r : Registry) (values : Set Addr) (m : Memory) (t : TypeId) (a : Addr) : Prop :=
  ∃ k, r.kind? t = some k ∧ k.isSelfDescribing = true ∧ LeadsTo r (fun _ _ => False) values m t a k

theorem Kind.isSelfDescribing_iff (h : k ≠ .void) :
    k.isSelfDescribing = true ↔ k.isNumeric = false ∧ k.isRaw = false := by
  cases k <;> first | exact absurd rfl h | decide

theorem Closure.accepts_ok (h : Closure.accepts w t u = .ok true) :
    w.registry.sameType t u = true ∨ ∃ k l, w.registry.kind? t = some k ∧ w.registry.kind? u = some l ∧
      (k = .dynamic ∨ (k = .object ∧ w.registry.isSubclass u t = true) ∨
        (k = .virtual ∧ (l = .object ∨ l = .dynobj ∨ l = .virtual))) := by
  unfold Closure.accepts at h
  split at h
  · exact Or.inl ‹_›
  · obtain ⟨k, hk, h⟩ := Outcome.bind_eq_ok.1 h
    obtain ⟨l, hl, h⟩ := Outcome.bind_eq_ok.1 h
    refine Or.inr ⟨k, l, World.kind_eq_ok.1 hk, World.kind_eq_ok.1 hl, ?_⟩
    split at h
    case h_1 => exact Or.inl rfl
    case h_2 => exact Or.inr (Or.inl ⟨rfl, Except.ok.inj h⟩)
    case h_3 => exact Or.inr (Or.inr ⟨rfl, Or.inl rfl⟩)
    case h_4 => exact Or.inr (Or.inr ⟨rfl, Or.inr (Or.inl rfl)⟩)
    case h_5 => exact Or.inr (Or.inr ⟨rfl, Or.inr (Or.inr rfl)⟩)
    case h_6 => cases h

/-- What is known of a value whose type word passes for a parameter of type `t`. -/
structure Accepted (r : Registry) (values : Set Addr) (m : Memory) (t : TypeId) (k : Kind) (a : Addr) :
    Prop where
  passes : PassesAs r values m t a ↔ k.isNumeric = false ∧ k.isRaw = false ∧
    (k = .virtual → r.sameType (m.typeOf a) t = true)
  boxed : k.isNumeric = true ∨ k.isRaw = true → r.sameType (m.typeOf a) t = true
  viewed : k = .virtual → ∃ l, r.kindAt m a = some l ∧ (l = .object ∨ l = .dynobj ∨ l = .virtual)

private theorem passesAs_iff (hk : r.kind? t = some k) (hvoid : k ≠ .void) :
    PassesAs r values m t receiver ↔
      (k.isNumeric = false ∧ k.isRaw = false) ∧ LeadsTo r (fun _ _ => False) values m t receiver k := by
  rw [← Kind.isSelfDescribing_iff hvoid]
  constructor
  · rintro ⟨k', hk', hself, hleads⟩
    obtain rfl := Option.some.inj (hk.symm.trans hk')
    exact ⟨hself, hleads⟩
  · rintro ⟨hself, hleads⟩
    exact ⟨k, hk, hself, hleads⟩

private theorem leadsTo_of_sameType (hv : receiver ∈ values) (hk : r.kindAt m receiver = some k)
    (hvalue : k.describesValue = true) (hself : k.isSelfDescribing = true)
    (hsame : r.sameType (m.typeOf receiver) t = true) :
    LeadsTo r (fun _ _ => False) values m t receiver k := by
  cases k <;> first
    | exact absurd hself Bool.false_ne_true
    | exact absurd hvalue Bool.false_ne_true
    | exact ⟨hv, hsame⟩
    | exact ⟨hv, hk⟩
    | exact ⟨hv, Registry.isSubclass_of_same hsame⟩

theorem accepted_of_accepts (hs : Arranged r ∅ h values) (hw : w.registry = r) (hv : receiver ∈ values)
    (haccepts : Closure.accepts w t (h.memory.typeOf receiver) = .ok true) :
    ∃ k, r.kind? t = some k ∧ Accepted r values h.memory t k receiver := by
  subst hw
  obtain ⟨l, hl, hvalue⟩ := hs.kinds receiver hv
  rcases Closure.accepts_ok haccepts with hsame | ⟨k, l', hk, hl', hkinds⟩
  · have hsame' := Registry.sameType_symm hsame
    have hvoid : l ≠ .void := by
      rintro rfl
      cases hvalue
    have ht : w.registry.kind? t = some l := by
      rw [Registry.kind?_eq_of_sameType hsame]
      exact hl
    refine ⟨l, ht, ⟨?_, fun _ => hsame', ?_⟩⟩
    · rw [passesAs_iff ht hvoid]
      constructor
      · rintro ⟨⟨hnumeric, hraw⟩, -⟩
        exact ⟨hnumeric, hraw, fun _ => hsame'⟩
      · rintro ⟨hnumeric, hraw, -⟩
        have hself := (Kind.isSelfDescribing_iff hvoid).2 ⟨hnumeric, hraw⟩
        exact ⟨⟨hnumeric, hraw⟩, leadsTo_of_sameType hv hl hvalue hself hsame'⟩
    · intro hvirtual
      exact ⟨l, hl, Or.inr (Or.inr hvirtual)⟩
  · obtain rfl : l = l' := Option.some.inj (hl.symm.trans hl')
    refine ⟨k, hk, ?_⟩
    rcases hkinds with rfl | ⟨rfl, hsub⟩ | ⟨rfl, hroot⟩
    · have hleads : LeadsTo w.registry (fun _ _ => False) values h.memory t receiver .dynamic :=
        ⟨hv, l, hl, hvalue⟩
      refine ⟨?_, fun hraw => absurd hraw (by decide), fun hvirtual => nomatch hvirtual⟩
      rw [passesAs_iff hk (by decide)]
      exact ⟨fun _ => ⟨rfl, rfl, fun hvirtual => nomatch hvirtual⟩, fun _ => ⟨⟨rfl, rfl⟩, hleads⟩⟩
    · have hleads : LeadsTo w.registry (fun _ _ => False) values h.memory t receiver .object := ⟨hv, hsub⟩
      refine ⟨?_, fun hraw => absurd hraw (by decide), fun hvirtual => nomatch hvirtual⟩
      rw [passesAs_iff hk (by decide)]
      exact ⟨fun _ => ⟨rfl, rfl, fun hvirtual => nomatch hvirtual⟩, fun _ => ⟨⟨rfl, rfl⟩, hleads⟩⟩
    · refine ⟨?_, fun hraw => absurd hraw (by decide), fun _ => ⟨l, hl, hroot⟩⟩
      rw [passesAs_iff hk (by decide)]
      constructor
      · rintro ⟨-, -, hsame⟩
        exact ⟨rfl, rfl, fun _ => hsame⟩
      · rintro ⟨-, -, hsame⟩
        exact ⟨⟨rfl, rfl⟩, hv, hsame rfl⟩

theorem Action.bindClosure_ok {f : TypeId} {code : UInt64}
    (h : Action.bindClosure f code receiver w h = (.ok c, h')) :
    Closure.receiver h'.memory c = receiver := by
  unfold Action.bindClosure at h
  obtain ⟨t, h₀, -, h⟩ := Action.bind_eq_ok.1 h
  obtain ⟨v, h₁, -, h⟩ := Action.bind_eq_ok.1 h
  obtain ⟨⟨⟩, h₂, hchange, h⟩ := Action.bind_eq_ok.1 h
  obtain ⟨rfl, rfl⟩ : v = c ∧ h₂ = h' := by
    cases h
    exact ⟨rfl, rfl⟩
  cases hchange
  set m := (h₁.memory.setWord (v.toNat + Closure.codeOffset) code).setHalf (v.toNat + Closure.boundOffset) 1
  have hsame : Memory.SameOn m (m.setWord (v.toNat + Closure.receiverOffset) receiver)
      (v.toNat + Closure.boundOffset) 4 :=
    (Memory.changesOnly_setWord m _ receiver).sameOn
      (Or.inl (by simp only [Closure.boundOffset, Closure.receiverOffset]; omega))
  have hbound : (m.setWord (v.toNat + Closure.receiverOffset) receiver).half
      (v.toNat + Closure.boundOffset) = 1 := by
    rw [hsame.half, Memory.half_setHalf_same]
  rw [Closure.receiver, hbound, if_neg (by decide), Memory.word_setWord_same]

/-- In every heap that a program can have, a closure that is made with a receiver holds it, and the type word
of the receiver passes for the first parameter of the function. The receiver itself may be passed there, but
for a parameter that is a number or a raw address, for which it is a box, and for one of a virtual type that
is not its own, for which it would need a view. -/
theorem Reachable.bound_receiver {f : TypeId} {code : UInt64} (hb : r.Built) (hr : Reachable r held h values)
    (hw : w.registry = r) (hv : receiver ∈ values)
    (hbind : Action.bindClosure f code receiver w h = (.ok c, h')) :
    Closure.receiver h'.memory c = receiver ∧ ∃ first args ret k,
      r.function f = .ok (first :: args, ret) ∧ r.kind? first = some k ∧
        Accepted r values h.memory first k receiver := by
  refine ⟨Action.bindClosure_ok hbind, ?_⟩
  unfold Action.bindClosure at hbind
  obtain ⟨t, h₀, hask, -⟩ := Action.bind_eq_ok.1 hbind
  obtain ⟨⟨first, args, ret, hf, haccepts⟩, -⟩ := Action.boundType_ok (Action.ask_eq_ok.1 hask).1
  obtain ⟨k, hk, haccepted⟩ := accepted_of_accepts (hr.sound hb).arranged hw hv haccepts
  exact ⟨first, args, ret, k, hw ▸ hf, hk, haccepted⟩

/-! A function that takes a number, one that takes a virtual value, and what both leave to call. -/

def Registry.receiverTypes : Registry :=
  ⟨(Descriptor.builtins ++
    ([.virtual [⟨"x", .i32⟩], .function [.i32] .void, .function [.ofIndex 12] .void,
      .function [] .void] : List Descriptor)).toArray⟩

theorem Registry.receiverTypes_built : Registry.receiverTypes.Built :=
  .of_adds (Registry.receiverTypes.types.toList.drop Descriptor.builtins.length) (by decide +kernel)
    (by decide +kernel)

/-- A box is bound where a number is expected, though no value may be passed for a number. -/
theorem boxed_number_bound : ∃ h values c h',
    Reachable .receiverTypes (fun _ _ => False) h values ∧ 0x10010 ∈ values ∧
    Registry.receiverTypes.function (.ofIndex 13) = .ok ([.i32], .void) ∧
    Action.bindClosure (.ofIndex 13) 1 0x10010 (.ofTypes .receiverTypes) h = (.ok c, h') ∧
    ¬PassesAs .receiverTypes values h.memory .i32 0x10010 := by
  let w : World := .ofTypes .receiverTypes
  let h := (Action.boxNumber (.i32 5) .i32 w {}).2
  have hbox : Action.boxNumber (.i32 5) .i32 w {} = (.ok 0x10010, h) := Action.eq_of_fst (by decide +kernel)
  have hbind := Action.eq_of_fst (x := Action.bindClosure (.ofIndex 13) 1 0x10010) (w := w) (h := h)
    (a := 0x10030) (by decide +kernel)
  have hb : w.registry.Built := Registry.receiverTypes_built
  have hstart : Reachable .receiverTypes (fun _ _ => False) {} ∅ := .start none
  obtain ⟨values, -, hr, hv, -⟩ := hstart.after_keeps rfl (.boxNumber (k := .i32) rfl rfl rfl)
    (Action.boxNumber_keeps (hstart.sound hb) (k := .i32) rfl rfl rfl) hbox
  refine ⟨h, values, _, _, hr, hv, by decide +kernel, hbind, ?_⟩
  rintro ⟨k, hk, hself, -⟩
  obtain rfl : Kind.i32 = k := Option.some.inj hk
  cases hself

/-- An open object is bound where a virtual value is expected, without a view that would show it as one. -/
theorem openObject_bound : ∃ h values c h',
    Reachable .receiverTypes (fun _ _ => False) h values ∧ 0x10010 ∈ values ∧
    Action.bindClosure (.ofIndex 14) 1 0x10010 (.ofTypes .receiverTypes) h = (.ok c, h') ∧
    Closure.receiver h'.memory c = 0x10010 ∧
    ¬PassesAs .receiverTypes values h.memory (.ofIndex 12) 0x10010 := by
  let w : World := .ofTypes .receiverTypes
  let h := (Action.newOpenObject w {}).2
  have hnew : Action.newOpenObject w {} = (.ok 0x10010, h) := Action.eq_of_fst (by decide +kernel)
  have hbind := Action.eq_of_fst (x := Action.bindClosure (.ofIndex 14) 1 0x10010) (w := w) (h := h)
    (a := 0x10050) (by decide +kernel)
  have hb : w.registry.Built := Registry.receiverTypes_built
  have hstart : Reachable .receiverTypes (fun _ _ => False) {} ∅ := .start none
  obtain ⟨values, -, hr, hv, -⟩ := hstart.after_keeps rfl .newOpenObject
    (Action.newOpenObject_keeps hb (hstart.sound hb)) hnew
  obtain ⟨hreceiver, first, args, ret, k, hf, hk, haccepted⟩ := hr.bound_receiver hb rfl hv hbind
  have hfunction : Registry.receiverTypes.function (.ofIndex 14) = .ok ([.ofIndex 12], .void) := by
    decide +kernel
  obtain ⟨hargs, -⟩ := Prod.mk.inj (Except.ok.inj (hf.symm.trans hfunction))
  obtain ⟨rfl, -⟩ := List.cons.inj hargs
  have hvirtual : Registry.receiverTypes.kind? (.ofIndex 12) = some .virtual := by decide +kernel
  obtain rfl := Option.some.inj (hk.symm.trans hvirtual)
  refine ⟨h, values, _, _, hr, hv, hbind, hreceiver, ?_⟩
  intro hpasses
  obtain ⟨-, -, hsame⟩ := haccepted.passes.1 hpasses
  have hdiffer : Registry.receiverTypes.sameType (h.memory.typeOf 0x10010) (.ofIndex 12) = false := by
    decide +kernel
  exact Bool.false_ne_true (hdiffer.symm.trans (hsame rfl))

end ObjectModel
