import ObjectModel.Proofs.Value.Paths
import ObjectModel.Proofs.Value.Triple

/-!
Operations that make one value. Each takes a block, writes to it, and gives a value of the type that was
asked for; all that there was stays as it was.
-/

set_option autoImplicit false
set_option relaxedAutoImplicit false

namespace ObjectModel

namespace Kind

/-- The kinds of values whose content nothing but themselves depends on: boxes, closures, enum values. -/
def isPlain (k : Kind) : Bool :=
  k.describesValue && k != object && k != array && k != virtual && k != dynobj

def isBoxed (k : Kind) : Bool := k.isNumeric || k.isRaw

theorem isPlain_of_isBoxed {k : Kind} (hk : k.isBoxed = true) : k.isPlain = true := by
  cases k <;> first | rfl | exact absurd hk Bool.false_ne_true

theorem isPointer_of_addressOffsets {k : Kind} (hk : k.addressOffsets ≠ []) : k.isPointer = true := by
  cases k <;> first | rfl | exact absurd rfl hk

end Kind

variable {r : Registry} {held : Addr → TypeId → Prop} {values : Set Addr} {h h' : Heap} {v : Addr}
  {n : Nat} {t : TypeId} {k : Kind} {m : Memory}

theorem headerSize_of_boxed (hk : r.kindAt m v = some k) (hbox : k.isBoxed = true) :
    headerSize r m v = Box.size := by
  rw [headerSize_eq hk (by rintro rfl; cases hbox)]
  cases k <;> first | rfl | cases hbox

theorem kind_of_holds {b : Addr} {o : Nat} {t : TypeId} (hb : Holds r {v} m b o t) :
    r.kindAt m v = some .object ∨ r.kindAt m v = some .virtual ∨ r.kindAt m v = some .dynobj := by
  cases hb with
  | «instance» hv hc hp =>
    obtain rfl := Set.mem_singleton_iff.1 hv
    exact Or.inl (Registry.kind?_of_classLayout hc)
  | standalone hv hl hwrapped hp =>
    obtain rfl := Set.mem_singleton_iff.1 hv
    exact Or.inr (Or.inl (Registry.kind?_of_viewLayout hl))
  | openField hv hk hf =>
    obtain rfl := Set.mem_singleton_iff.1 hv
    exact Or.inr (Or.inr hk)

/-- A new value in a block that a sound heap gains. -/
theorem Kept.join (hs : Sound r held ∅ h values) (hg : Gained h h' v n)
    (hv : Newcomer r held h' values v)
    (halone : r.kindAt h'.memory v = some .virtual →
      View.wrapped h'.memory v = 0 ∨ r.kindAt h'.memory (View.wrapped h'.memory v) = some .object)
    (hhead : IsChained r h'.memory v → h'.memory.word (chainHead r h'.memory v) = 0) :
    Kept r held h values h' (insert v values) :=
  .of_gained hs hg ((hs.grow hg.wellFormed hg.blocks hg.next hg.same).insert hv halone hhead)

theorem Kept.join_kind (hs : Sound r held ∅ h values) (hg : Gained h h' v n)
    (hk : r.kindAt h'.memory v = some k) (hdescribes : k.describesValue = true)
    (hsize : headerSize r h'.memory v ≤ n)
    (hinstance : k = .object → ∃ c, r.classLayout (h'.memory.typeOf v) = .ok c ∧ h'.Owns v c.size)
    (harray : k = .array → ∀ t length, ArrayValue.parts (.ofTypes r) h'.memory v = .ok (t, length) →
      ∃ l, r.kind? t = some l ∧ h'.Owns v (ArrayValue.dataOffset + length * l.size))
    (hpointed : NeedsPointers r h'.memory v → h'.PointersAt v)
    (hopen : k = .dynobj → OpenAt r h' (insert v values) v ∧ ∀ a, ¬IsPart h'.memory v a)
    (hview : k = .virtual → View.wrapped h'.memory v = 0 ∧
      ∃ l, r.viewLayout (h'.memory.typeOf v) = .ok l ∧ ViewAt r h' (insert v values) v l)
    (hhead : k = .dynobj ∨ k = .virtual → h'.memory.word (chainHead r h'.memory v) = 0)
    (hzero : ∀ b o t l, Holds r {v} h'.memory b o t → r.kind? t = some l →
      h'.memory.read (b.toNat + o) l = .ofWord l 0) : Kept r held h values h' (insert v values) := by
  have hkind : ∀ l, r.kindAt h'.memory v = some l → k = l :=
    fun l hl => Option.some.inj (hk.symm.trans hl)
  refine .join hs hg ⟨hg.new hs.arranged, fun u hu hku => hg.free hs.arranged hu hku,
    ⟨k, hk, hdescribes⟩, hg.owned.mono hsize, fun hl => hinstance (hkind _ hl), ?_, hpointed,
    fun hl => hopen (hkind _ hl), ?_, ?_⟩ ?_ ?_
  · intro t length hparts
    exact harray (hkind _ (parts_ok hparts).1) t length hparts
  · intro hl
    obtain ⟨hwrapped, l, hlayout, hat⟩ := hview (hkind _ hl)
    exact ⟨l, hlayout, hat, absurd hwrapped⟩
  · intro b o t l hb hl
    rw [hzero b o t l hb hl]
    exact .zero hl
  · exact fun hl => Or.inl (hview (hkind _ hl)).1
  · rintro (hl | ⟨hl, -⟩)
    · exact hhead (Or.inl (hkind _ hl))
    · exact hhead (Or.inr (hkind _ hl))

theorem Kept.join_plain (hs : Sound r held ∅ h values) (hg : Gained h h' v n)
    (hk : r.kindAt h'.memory v = some k) (hplain : k.isPlain = true)
    (hsize : headerSize r h'.memory v ≤ n) (hpointed : k.addressOffsets ≠ [] → h'.PointersAt v) :
    Kept r held h values h' (insert v values) := by
  have hno : ∀ l : Kind, l.isPlain = false → k ≠ l := by
    rintro l hl rfl
    rw [hplain] at hl
    cases hl
  have hdescribes : k.describesValue = true := by
    cases k <;> first | rfl | exact absurd hplain Bool.false_ne_true
  refine .join_kind hs hg hk hdescribes hsize (fun hl => absurd hl (hno _ rfl))
    (fun hl => absurd hl (hno _ rfl)) ?_ (fun hl => absurd hl (hno _ rfl))
    (fun hl => absurd hl (hno _ rfl)) ?_ ?_
  · rintro (⟨hl, hsome⟩ | ⟨hc, -⟩ | ⟨hparts, -, -⟩)
    · exact hpointed (Option.some.inj (hk.symm.trans hl) ▸ hsome)
    · exact absurd (Registry.kind?_of_classLayout hc) (kindAt_ne hk (hno _ rfl))
    · exact absurd (parts_ok hparts).1 (kindAt_ne hk (hno _ rfl))
  · rintro (hl | hl)
    · exact absurd hl (hno _ rfl)
    · exact absurd hl (hno _ rfl)
  · intro b o t l hb _
    rcases kind_of_holds hb with hl | hl | hl
    · exact absurd hl (kindAt_ne hk (hno _ rfl))
    · exact absurd hl (kindAt_ne hk (hno _ rfl))
    · exact absurd hl (kindAt_ne hk (hno _ rfl))

theorem Variant.construct_ok {w : World} {i : Nat} {c : ConstructLayout} (h : construct w t i = .ok c) :
    w.registry.kind? t = some .enum ∧
      Region.Packed w.registry.kind? VariantLayout.headerSize c.params := by
  unfold construct at h
  obtain ⟨layout, hlayout, h⟩ := Outcome.bind_eq_ok.1 h
  split at h
  · rename_i c' hc
    obtain rfl := Outcome.pure_eq_ok.1 h
    exact Registry.variantLayout_packed (Outcome.mapError_eq_ok.1 hlayout) hc
  · cases h

theorem Variant.offset_of_construct {w : World} {i : Nat} {c : ConstructLayout} (hc : construct w t i = .ok c)
    (args : List Slot) : ∀ a ∈ args.zip c.params.offsets, VariantLayout.headerSize ≤ a.2 := by
  intro a ha
  obtain ⟨p, hp, heq⟩ := List.mem_map.1 (List.of_mem_zip ha).2
  obtain ⟨-, -, hlow, -⟩ := (construct_ok hc).2.placed p hp
  exact heq ▸ hlow

theorem Variant.sameOn_fill (m : Memory) (v : Addr) {start : Nat} {args : List (Slot × Nat)}
    (hargs : ∀ a ∈ args, start ≤ a.2) : Memory.SameOn m (fill v m args) 0 (v.toNat + start) := by
  unfold fill
  induction args generalizing m with
  | nil => exact .refl m _ _
  | cons a rest ih =>
    have ha := hargs a List.mem_cons_self
    rw [List.foldl_cons]
    have hwrite := Memory.changesOnly_write m (v.toNat + a.2) a.1
    refine Memory.SameOn.trans (hwrite.sameOn (Or.inl (by omega))) ?_
    exact ih (m.write (v.toNat + a.2) a.1) fun b hb => hargs b (List.mem_cons_of_mem a hb)

theorem Closure.changesOnly_bound (m : Memory) (v : Addr) (code : UInt64) (receiver : Addr) :
    Memory.ChangesOnly m (((m.setWord (v.toNat + codeOffset) code).setHalf
      (v.toNat + boundOffset) 1).setWord (v.toNat + receiverOffset) receiver) (v.toNat + 8) 24 := by
  have hcode := Memory.changesOnly_setWord m (v.toNat + 8) code
  have hbound := Memory.changesOnly_setHalf (m.setWord (v.toNat + 8) code) (v.toNat + 16) 1
  have hreceiver := Memory.changesOnly_setWord
    ((m.setWord (v.toNat + 8) code).setHalf (v.toNat + 16) 1) (v.toNat + 24) receiver
  exact ((hcode.mono le_rfl (by omega)).trans (hbound.mono (by omega) (by omega))).trans
    (hreceiver.mono (by omega) (by omega))

namespace Action

variable {w : World}

/-- A result is a value, of the given type. -/
def IsNew (t : TypeId) (v : Addr) (h : Heap) (values : Set Addr) : Prop :=
  v ∈ values ∧ h.memory.typeOf v = t

theorem newBox_ends (hwf : h.WellFormed) (t : TypeId) :
    (newBox t).Ends w h
      (fun v h' => Gained h h' v Box.size ∧ h'.memory.typeOf v = t ∧
        ∀ k, w.registry.kind? t = some k → k.addressOffsets ≠ [] → h'.PointersAt v) (· = h) := by
  unfold newBox
  refine Ends.ask_bind rfl fun k hk => (newValue_ends hwf _ _ _).imp ?_ fun _ => False.elim
  rintro v h' ⟨hg, htype, -, hpointed⟩
  refine ⟨hg, htype, fun l hl hsome => hpointed ?_⟩
  obtain rfl := Option.some.inj ((World.kind_eq_ok.1 hk).symm.trans hl)
  rw [Kind.isPointer_of_addressOffsets hsome]
  rfl

theorem newBox_keeps (hs : Sound w.registry held ∅ h values) (hk : w.registry.kind? t = some k)
    (hbox : k.isBoxed = true) : Keeps held (newBox t) w h values (IsNew t) := by
  refine (newBox_ends hs.arranged.blocks t).imp ?_ ?_
  · rintro v h' ⟨hg, htype, hpointed⟩
    have hkind := kindAt_of_typeOf htype hk
    exact ⟨_, .join_plain hs hg hkind (Kind.isPlain_of_isBoxed hbox) (headerSize_of_boxed hkind hbox).le
      (hpointed k hk), Set.mem_insert v values, htype⟩
  · rintro h' rfl
    exact ⟨values, .refl hs⟩

private theorem fill_keeps (hs : Sound w.registry held ∅ h values) (hk : w.registry.kind? t = some k)
    (hbox : k.isBoxed = true) (s : Slot) : Keeps held (toDynamic.fill s t) w h values (IsNew t) := by
  unfold toDynamic.fill
  refine (newBox_ends hs.arranged.blocks t).bind ?_ ?_
  · rintro h' rfl
    exact ⟨values, .refl hs⟩
  · rintro v h' ⟨hg, htype, hpointed⟩
    refine Ends.change_bind (Ends.pure ?_)
    have hchange := Memory.changesOnly_write h'.memory (v.toNat + Box.payloadOffset) s
    have hg' := hg.change (Nat.le_add_right _ _) hchange
    have htype' : (h'.memory.write (v.toNat + Box.payloadOffset) s).typeOf v = t :=
      (hchange.sameOn (Or.inl le_rfl)).typeOf.trans htype
    have hkind := kindAt_of_typeOf htype' hk
    exact ⟨_, .join_plain hs hg' hkind (Kind.isPlain_of_isBoxed hbox) (headerSize_of_boxed hkind hbox).le
      fun hsome => (hpointed k hk hsome).withMemory, Set.mem_insert v values, htype'⟩

theorem toDynamic_keeps (hs : Sound w.registry held ∅ h values) (hk : w.registry.kind? t = some k)
    {s : Slot} (hslot : WellTyped w.registry held values h.memory t s) :
    Keeps held (toDynamic s t) w h values fun v h' values' =>
      v = 0 ∨ (v ∈ values' ∧ (k.isBoxed = true → h'.memory.typeOf v = t)) := by
  have hfits : s.fits k = true := hslot.fits hk
  unfold toDynamic
  refine Keeps.ask_bind hs fun k' hk' => ?_
  obtain rfl := Option.some.inj (hk.symm.trans (World.kind_eq_ok.1 hk'))
  rw [if_pos hfits]
  have hfill : k.isBoxed = true → Keeps held (toDynamic.fill s t) w h values fun v h' values' =>
      v = 0 ∨ (v ∈ values' ∧ (k.isBoxed = true → h'.memory.typeOf v = t)) := by
    intro hbox
    refine (fill_keeps hs hk hbox s).imp fun v h' values' _ hv => Or.inr ⟨hv.1, fun _ => hv.2⟩
  cases s with
  | void => exact Keeps.pure hs (Or.inl rfl)
  | pointer a =>
    by_cases ha : a = 0 ∨ k.isSelfDescribing = true
    · simp only [if_pos ha]
      refine Keeps.pure hs ?_
      by_cases hzero : a = 0
      · exact Or.inl hzero
      · have hself := ha.resolve_left hzero
        refine Or.inr ⟨(hslot.leadsTo hk hzero).mem_values hself, fun hbox => ?_⟩
        cases k <;> first | exact absurd hself Bool.false_ne_true | exact absurd hbox Bool.false_ne_true
    · simp only [if_neg ha]
      refine hfill ?_
      rw [not_or] at ha
      cases k <;> first | rfl | exact absurd rfl ha.2 | exact absurd hfits Bool.false_ne_true
  | _ => exact hfill (by cases k <;> first | rfl | exact absurd hfits Bool.false_ne_true)

theorem boxNumber_keeps (hs : Sound w.registry held ∅ h values) (hk : w.registry.kind? t = some k)
    {s : Slot} (hfits : s.fits k = true) (hnumeric : k.isNumeric = true) :
    Keeps held (boxNumber s t) w h values (IsNew t) := by
  have hslot : WellTyped w.registry held values h.memory t s := by
    refine .of_not_pointer hk hfits ?_
    rintro a rfl
    cases k <;> first | exact absurd hfits Bool.false_ne_true | exact absurd hnumeric Bool.false_ne_true
  have hbox : k.isBoxed = true := by
    rw [Kind.isBoxed, hnumeric, Bool.true_or]
  unfold boxNumber
  refine (toDynamic_keeps hs hk hslot).bind fun v h' values' hkept hv => ?_
  by_cases hzero : v = 0
  · rw [if_pos hzero]
    exact Keeps.fail hkept.sound
  · rw [if_neg hzero]
    obtain ⟨hv, htype⟩ := hv.resolve_left hzero
    exact Keeps.pure hkept.sound ⟨hv, htype hbox⟩

theorem newClosure_keeps (hs : Sound w.registry held ∅ h values) (code : UInt64) :
    Keeps held (newClosure t code) w h values fun v h' values' =>
      v ∈ values' ∧ w.registry.kindAt h'.memory v = some .function := by
  unfold newClosure
  refine Keeps.ask_bind hs fun f hf => ?_
  have hk : w.registry.kind? t = some .function :=
    Registry.kind?_of_function (Outcome.mapError_eq_ok.1 hf)
  refine (newValue_ends hs.arranged.blocks _ _ _).bind (fun _ => False.elim) ?_
  rintro v h' ⟨hg, htype, -, hpointed⟩
  refine Ends.change_bind (Ends.pure ?_)
  have hchange := Memory.changesOnly_setWord h'.memory (v.toNat + Closure.codeOffset) code
  have hg' := hg.change (Nat.le_add_right _ _) hchange
  have hkind := kindAt_of_typeOf ((hchange.sameOn (Or.inl le_rfl)).typeOf.trans htype) hk
  exact ⟨_, .join_plain hs hg' hkind rfl (headerSize_eq hkind (by decide)).le fun _ =>
    (hpointed rfl).withMemory,
    Set.mem_insert v values, hkind⟩

theorem boundType_ok {f c : TypeId} (h : Closure.boundType w f t = .ok c) :
    (∃ first args ret, w.registry.function f = .ok (first :: args, ret) ∧
      Closure.accepts w first t = .ok true) ∧ w.registry.closureType? f = some c := by
  unfold Closure.boundType at h
  obtain ⟨⟨args, ret⟩, hf, h⟩ := Outcome.bind_eq_ok.1 h
  cases args with
  | nil => cases h
  | cons first args =>
    obtain ⟨accepted, haccepted, h⟩ := Outcome.bind_eq_ok.1 h
    cases accepted with
    | false => cases h
    | true =>
      refine ⟨⟨first, args, ret, Outcome.mapError_eq_ok.1 hf, haccepted⟩, ?_⟩
      rw [if_pos rfl] at h
      split at h
      · rename_i c' hc
        obtain rfl := Outcome.pure_eq_ok.1 h
        exact hc
      · cases h

theorem bindClosure_keeps (hb : w.registry.Built) (hs : Sound w.registry held ∅ h values)
    (code : UInt64) (receiver : Addr) :
    Keeps held (bindClosure t code receiver) w h values fun v h' values' =>
      v ∈ values' ∧ w.registry.kindAt h'.memory v = some .function := by
  unfold bindClosure
  refine Keeps.ask_bind hs fun c hc => ?_
  have hk := hb.kind?_closureType (boundType_ok hc).2
  refine (newValue_ends hs.arranged.blocks _ _ _).bind (fun _ => False.elim) ?_
  rintro v h' ⟨hg, htype, -, hpointed⟩
  refine Ends.change_bind (Ends.pure ?_)
  have hchange := Closure.changesOnly_bound h'.memory v code receiver
  have hg' := hg.change (Nat.le_add_right _ _) hchange
  have hkind := kindAt_of_typeOf ((hchange.sameOn (Or.inl le_rfl)).typeOf.trans htype) hk
  exact ⟨_, .join_plain hs hg' hkind rfl (headerSize_eq hkind (by decide)).le fun _ =>
    (hpointed rfl).withMemory,
    Set.mem_insert v values, hkind⟩

theorem bindMethod_keeps (hb : w.registry.Built) (hs : Sound w.registry held ∅ h values)
    (function : Nat) (receiver : Addr) :
    Keeps held (bindMethod function t receiver) w h values fun v h' values' =>
      v ∈ values' ∧ w.registry.kindAt h'.memory v = some .function := by
  unfold bindMethod
  refine Keeps.world_bind ?_
  cases w.functions.code? function with
  | some code => exact bindClosure_keeps hb hs code receiver
  | none => exact Keeps.fail hs

theorem newVariant_ends (hwf : h.WellFormed) (t : TypeId) (i : Nat) :
    (newVariant t i).Ends w h
      (fun v h' => ∃ c, Variant.construct w t i = .ok c ∧ Gained h h' v c.size ∧
        h'.memory.typeOf v = t ∧
          (i < 2 ^ 31 → h'.memory.count (v.toNat + Variant.constructOffset) = i)) (· = h) := by
  unfold newVariant
  refine Ends.ask_bind rfl fun c hc => ?_
  refine (newValue_ends hwf _ _ _).bind (fun _ => False.elim) ?_
  rintro v h' ⟨hg, htype, -⟩
  refine Ends.change_bind (Ends.pure ⟨c, hc, ?_⟩)
  have hchange := Memory.changesOnly_setCount h'.memory (v.toNat + Variant.constructOffset) i
  exact ⟨hg.change (Nat.le_add_right _ _) hchange,
    (hchange.sameOn (Or.inl le_rfl)).typeOf.trans htype,
    fun hlow => (Memory.count_setCount h'.memory _ (by omega)).2 hlow⟩

private theorem join_variant (hs : Sound w.registry held ∅ h values) {i : Nat} {c : ConstructLayout}
    (hc : Variant.construct w t i = .ok c) (hg : Gained h h' v c.size)
    (htype : h'.memory.typeOf v = t) : Kept w.registry held h values h' (insert v values) := by
  obtain ⟨hk, hpacked⟩ := Variant.construct_ok hc
  have hkind := kindAt_of_typeOf htype hk
  refine .join_plain hs hg hkind rfl ?_ (absurd rfl)
  have hstart : 16 ≤ c.size := hpacked.start_le
  have hsize : headerSize w.registry h'.memory v = 8 := headerSize_eq hkind (by decide)
  omega

theorem newVariant_keeps (hs : Sound w.registry held ∅ h values) (i : Nat) :
    Keeps held (newVariant t i) w h values (IsNew t) := by
  refine (newVariant_ends hs.arranged.blocks t i).imp ?_ ?_
  · rintro v h' ⟨c, hc, hg, htype, -⟩
    exact ⟨_, join_variant hs hc hg htype, Set.mem_insert v values, htype⟩
  · rintro h' rfl
    exact ⟨values, .refl hs⟩

theorem makeVariant_ends (hwf : h.WellFormed) (t : TypeId) (i : Nat) (args : List Slot) :
    (makeVariant t i args).Ends w h
      (fun v h' => ∃ c h₁, Variant.construct w t i = .ok c ∧ args.length = c.arity ∧
        Variant.checkArguments w 0 c.params.values args = .ok () ∧ Gained h h₁ v c.size ∧
          h₁.memory.typeOf v = t ∧
            (i < 2 ^ 31 → h₁.memory.count (v.toNat + Variant.constructOffset) = i) ∧
              h' = { h₁ with memory := Variant.fill v h₁.memory (args.zip c.params.offsets) }) (· = h) := by
  unfold makeVariant
  refine Ends.ask_bind rfl fun c hc => ?_
  by_cases harity : args.length ≠ c.arity
  · rw [if_pos harity]
    exact Ends.fail rfl
  rw [if_neg harity]
  refine Ends.ask_bind rfl fun _ hcheck => (newVariant_ends hwf t i).bind (fun _ => id) ?_
  rintro v h' ⟨c', hc', hg, htype, hcount⟩
  obtain rfl : c' = c := Except.ok.inj (hc'.symm.trans hc)
  exact Ends.change_bind (Ends.pure ⟨c', h', hc, not_not.1 harity, hcheck, hg, htype, hcount, rfl⟩)

theorem makeVariant_keeps (hs : Sound w.registry held ∅ h values) (i : Nat) (args : List Slot) :
    Keeps held (makeVariant t i args) w h values (IsNew t) := by
  refine (makeVariant_ends hs.arranged.blocks t i args).imp ?_ ?_
  · rintro v _ ⟨c, h', hc, -, -, hg, htype, -, rfl⟩
    have hsame := Variant.sameOn_fill h'.memory v (Variant.offset_of_construct hc args)
    have hg' := hg.withMemory (hsame.mono le_rfl (by omega))
    have hheader : VariantLayout.headerSize = 16 := rfl
    have htype' := (hsame.mono (b := v.toNat) (Nat.zero_le _) (by omega)).typeOf.trans htype
    exact ⟨_, join_variant hs hc hg' htype', Set.mem_insert v values, htype'⟩
  · rintro h' rfl
    exact ⟨values, .refl hs⟩

end Action

end ObjectModel
