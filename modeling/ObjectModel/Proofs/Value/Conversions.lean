import ObjectModel.Proofs.Value.Casts
import ObjectModel.Value.Comparison

/-!
What a conversion does to the heap. It takes new blocks for boxes and for views, and of the bytes that there
were it changes none, but for the word in which the views of a value start if it makes a view of this value.
A conversion that is refused leaves the heap as it is. An operation that makes a value takes one block and
changes no byte that there was.
-/

set_option autoImplicit false
set_option relaxedAutoImplicit false

namespace ObjectModel

variable {r : Registry} {held : Addr → TypeId → Prop} {values : Set Addr} {h h' : Heap} {m : Memory}
  {w : World} {touched : Set Nat} {u v a : Addr} {n : Nat} {s : Slot} {source target t : TypeId} {k : Kind}

/-- A heap with more blocks, in which all bytes below the first of them are as they were, but for those
in `touched`. -/
structure GrownBut (touched : Set Nat) (h h' : Heap) : Prop where
  wellFormed : h'.WellFormed
  blocks : h.Extends h'
  next : h.next ≤ h'.next
  same : ∀ x < h.next, x ∉ touched → h'.memory.byte x = h.memory.byte x

theorem GrownBut.refl (touched : Set Nat) (hwf : h.WellFormed) : GrownBut touched h h :=
  ⟨hwf, .refl h, le_rfl, fun _ _ _ => rfl⟩

theorem GrownBut.mono {touched' : Set Nat} (hg : GrownBut touched h h') (hsub : touched ⊆ touched') :
    GrownBut touched' h h' :=
  ⟨hg.wellFormed, hg.blocks, hg.next, fun x hx hout => hg.same x hx fun hin => hout (hsub hin)⟩

theorem GrownBut.withMemory (hg : GrownBut touched h h')
    (hm : ∀ x < h.next, x ∉ touched → m.byte x = h'.memory.byte x) :
    GrownBut touched h { h' with memory := m } :=
  ⟨hg.wellFormed.withMemory, hg.blocks, hg.next, fun x hx hout => (hm x hx hout).trans (hg.same x hx hout)⟩

theorem Gained.grownBut (touched : Set Nat) (hg : Gained h h' v n) : GrownBut touched h h' :=
  ⟨hg.wellFormed, hg.blocks, hg.next, fun x hx _ => hg.same x (Nat.zero_le x) (by omega)⟩

/-- The bytes of the word in which the chain of the views of a value starts. -/
def chainWord (r : Registry) (m : Memory) (u : Addr) : Set Nat :=
  {x | IsChained r m u ∧ chainHead r m u ≤ x ∧ x < chainHead r m u + 8}

/-- The bytes that a conversion may change: of a value as one of a virtual type, where the views start of
this value, or of the value that it shows. -/
def wrappedWord (w : World) (values : Set Addr) (m : Memory) (s : Slot) (target : TypeId) : Set Nat :=
  {x | ∃ a ∈ values, s = .pointer a ∧ w.registry.kind? target = some .virtual ∧
    x ∈ chainWord w.registry m (w.unwrapped m a)}

/-- A slot suits a type, and its address, unless it is null, is that of a value if the values of the type
start with their own types. Of which type the value really is, is left open. -/
def Suits (r : Registry) (values : Set Addr) (t : TypeId) (s : Slot) : Prop :=
  ∃ k, r.kind? t = some k ∧ s.fits k = true ∧
    ∀ a, s = .pointer a → a ≠ 0 → k.isSelfDescribing = true → a ∈ values

theorem WellTyped.suits (hs : WellTyped r held values m t s) : Suits r values t s := by
  obtain ⟨k, hk, hfits, hleads⟩ := hs
  exact ⟨k, hk, hfits, fun a ha hne hself => (hleads a ha hne).mem_values hself⟩

theorem World.unwrapped_of_root (hroot : IsRoot w.registry m v) : w.unwrapped m v = v := by
  unfold unwrapped
  rw [if_neg]
  rintro ⟨hk, hne⟩
  exact hne (hroot.wrapped hk)

theorem World.unwrapped_of_shown (hk : w.registry.kindAt m v = some .virtual)
    (hne : View.wrapped m v ≠ 0) : w.unwrapped m v = View.wrapped m v := by
  unfold unwrapped
  exact if_pos ⟨hk, hne⟩

theorem Arranged.unwrapped_mem {stale : Set Addr} (hs : Arranged w.registry stale h values)
    (hv : v ∈ values) : w.unwrapped h.memory v ∈ values := by
  unfold World.unwrapped
  split_ifs with hshown
  · obtain ⟨l, -, hat⟩ := hs.views v hv hshown.1
    exact (hat.shown hshown.2).1
  · exact hv

namespace Action

theorem fill_ends (hwf : h.WellFormed) (s : Slot) (t : TypeId) :
    (toDynamic.fill s t).Ends w h (fun v h' => Gained h h' v Box.size) (· = h) := by
  unfold toDynamic.fill
  refine (newBox_ends hwf t).bind (fun _ => id) ?_
  rintro v h' ⟨hg, -⟩
  have hchange := Memory.changesOnly_write h'.memory (v.toNat + Box.payloadOffset) s
  exact Ends.change_bind (Ends.pure (hg.change (Nat.le_add_right _ _) hchange))

theorem fill_grows (hwf : h.WellFormed) (touched : Set Nat) (s : Slot) (t : TypeId) :
    (toDynamic.fill s t).Ends w h (fun _ => GrownBut touched h) (· = h) :=
  (fill_ends hwf s t).imp (fun _ _ hg => hg.grownBut touched) fun _ => id

theorem toDynamic_grows (hwf : h.WellFormed) (touched : Set Nat) (s : Slot) (t : TypeId) :
    (toDynamic s t).Ends w h (fun _ => GrownBut touched h) (· = h) := by
  have hrefl := GrownBut.refl touched hwf
  unfold toDynamic
  refine Ends.ask_bind rfl fun k _ => ?_
  by_cases hfits : s.fits k = true
  · rw [if_pos hfits]
    cases s with
    | void => exact Ends.pure hrefl
    | pointer a =>
      by_cases hpass : a = 0 ∨ k.isSelfDescribing = true
      · simp only [if_pos hpass]
        exact Ends.pure hrefl
      · simp only [if_neg hpass]
        exact fill_grows hwf touched _ t
    | _ => exact fill_grows hwf touched _ t
  · rw [if_neg hfits]
    exact Ends.fail rfl

theorem boxAs_grows (hwf : h.WellFormed) (touched : Set Nat) (s : Slot) (source target : TypeId) :
    (boxAs s source target).Ends w h (fun _ => GrownBut touched h) (· = h) := by
  unfold boxAs
  refine Ends.ask_bind rfl fun d _ => ?_
  cases d with
  | null inner =>
    refine Ends.world_bind ?_
    dsimp only
    split
    · exact toDynamic_grows hwf touched _ inner
    · exact Ends.fail rfl
  | _ => exact Ends.fail rfl

theorem chainedView_grows (hs : Sound w.registry held ∅ h values) (hu : u ∈ values)
    (hchained : IsChained w.registry h.memory u) {head : Nat}
    (hhead : head = chainHead w.registry h.memory u) :
    (chainedView t u head).Ends w h (fun _ => GrownBut (chainWord w.registry h.memory u) h) (· = h) := by
  have hroot : IsRoot w.registry h.memory u := Or.inr hchained
  unfold chainedView
  refine Ends.chainBound_bind (Ends.look_bind (Ends.ask_bind rfl fun found _ => ?_))
  cases found with
  | some v => exact Ends.pure (.refl _ hs.arranged.blocks)
  | none =>
    refine (newView_ends hs hu hroot).bind (fun _ => id) ?_
    rintro v h' ⟨l, hg, -⟩
    refine Ends.change_bind (Ends.pure ?_)
    have hnext := Memory.changesOnly_setWord h'.memory (v.toNat + View.nextOffset) (h.memory.word head)
    have hgained := (hg.change (Nat.le_add_right _ _) hnext).grownBut (chainWord w.registry h.memory u)
    have hlast := Memory.changesOnly_setWord
      (h'.memory.setWord (v.toNat + View.nextOffset) (h.memory.word head)) head v
    refine hgained.withMemory fun x _ hout => hlast x ?_
    by_contra hin
    exact hout ⟨hchained, by omega, by omega⟩

private theorem toViewFrom_grows_step {bound : Nat} (hs : Sound w.registry held ∅ h values) (hv : v ∈ values)
    (hinner : ∀ bound', bound = bound' + 1 → ∀ u ∈ values, (toViewFrom t bound' u).Ends w h
      (fun _ => GrownBut (chainWord w.registry h.memory (w.unwrapped h.memory u)) h) (· = h)) :
    (toViewFrom t bound v).Ends w h
      (fun _ => GrownBut (chainWord w.registry h.memory (w.unwrapped h.memory v)) h) (· = h) := by
  have hrefl := fun touched => GrownBut.refl touched hs.arranged.blocks
  rw [toViewFrom.eq_def]
  refine Ends.look_bind (Ends.ask_bind rfl fun k hk => ?_)
  have hkind : w.registry.kindAt h.memory v = some k := World.kind_eq_ok.1 hk
  cases k with
  | object =>
    refine (newView_ends hs hv (Or.inl hkind)).imp ?_ fun _ => id
    rintro x h' ⟨l, hg, -⟩
    exact hg.grownBut _
  | dynobj =>
    have hchained : IsChained w.registry h.memory v := Or.inl hkind
    rw [World.unwrapped_of_root (Or.inr hchained)]
    refine chainedView_grows hs hv hchained ?_
    rw [chainHead, if_pos hkind]
  | virtual =>
    refine Ends.world_bind ?_
    by_cases hsame : w.registry.sameType (h.memory.typeOf v) t = true
    · rw [if_pos hsame]
      exact Ends.pure (hrefl _)
    · rw [if_neg hsame]
      refine Ends.look_bind ?_
      by_cases hzero : View.wrapped h.memory v = 0
      · have hchained : IsChained w.registry h.memory v := Or.inr ⟨hkind, hzero⟩
        rw [if_pos hzero, World.unwrapped_of_root (Or.inr hchained)]
        refine chainedView_grows hs hv hchained ?_
        rw [chainHead, if_neg (kindAt_ne hkind (by decide))]
      · rw [if_neg hzero, World.unwrapped_of_shown hkind hzero]
        cases bound with
        | zero => exact Ends.fail rfl
        | succ bound =>
          obtain ⟨l, -, hview⟩ := hs.arranged.views v hv hkind
          obtain ⟨hu, hroot, -⟩ := hview.shown hzero
          have hshown := hinner bound rfl _ hu
          rwa [World.unwrapped_of_root hroot] at hshown
  | _ => exact Ends.fail rfl

theorem toViewFrom_grows (bound : Nat) (hs : Sound w.registry held ∅ h values) (hv : v ∈ values) :
    (toViewFrom t bound v).Ends w h
      (fun _ => GrownBut (chainWord w.registry h.memory (w.unwrapped h.memory v)) h) (· = h) := by
  induction bound using Nat.strongRecOn generalizing v with
  | ind bound ih => exact toViewFrom_grows_step hs hv fun below hbelow u hu => ih below (by omega) hu

theorem toView_grows (hs : Sound w.registry held ∅ h values) (hv : v ∈ values) :
    (toView t v).Ends w h
      (fun _ => GrownBut (chainWord w.registry h.memory (w.unwrapped h.memory v)) h) (· = h) :=
  Ends.chainBound_bind (toViewFrom_grows _ hs hv)

theorem mem_of_actual {raw : Addr} {actual : TypeId} (hslot : Suits w.registry values source (.pointer a))
    (hne : a ≠ 0) (hk : w.registry.kind? source = some k)
    (hactual : Coercion.actual w m a source k = .ok (raw, actual)) {l : Kind}
    (hl : w.registry.kind? actual = some l) (hmembers : l = .object ∨ l = .dynobj ∨ l = .virtual) :
    raw = a ∧ a ∈ values := by
  obtain ⟨k', hk', -, hmem⟩ := hslot
  obtain rfl : k = k' := Option.some.inj (hk.symm.trans hk')
  unfold Coercion.actual at hactual
  by_cases hself : k.isSelfDescribing = true
  · rw [if_pos hself] at hactual
    obtain ⟨l', hl', hactual⟩ := Outcome.bind_eq_ok.1 hactual
    obtain ⟨haddress, rfl⟩ := Prod.mk.inj (Outcome.pure_eq_ok.1 hactual)
    obtain rfl : l' = l := Option.some.inj ((World.kind_eq_ok.1 hl').symm.trans hl)
    refine ⟨?_, hmem a rfl hne hself⟩
    rcases hmembers with rfl | rfl | rfl <;> exact haddress.symm
  · rw [if_neg hself] at hactual
    obtain ⟨rfl, rfl⟩ := Prod.mk.inj (Outcome.pure_eq_ok.1 hactual)
    obtain rfl : k = l := Option.some.inj (hk.symm.trans hl)
    rcases hmembers with rfl | rfl | rfl <;> exact absurd rfl hself

private theorem castActual_grows {actual : TypeId} (hs : Sound w.registry held ∅ h values)
    (hview : ∀ l, w.registry.kind? actual = some l → l = .object ∨ l = .dynobj ∨ l = .virtual →
      k = .virtual → a ∈ values ∧ chainWord w.registry h.memory (w.unwrapped h.memory a) ⊆ touched) :
    (castActual a actual target k).Ends w h (fun _ => GrownBut touched h) (· = h) := by
  have hwf := hs.arranged.blocks
  unfold castActual
  refine Ends.world_bind (Ends.ask_bind rfl fun l hl => ?_)
  dsimp only
  cases k with
  | virtual =>
    by_cases hmembers : l = .object ∨ l = .dynobj ∨ l = .virtual
    · rw [if_pos hmembers]
      obtain ⟨ha, hsub⟩ := hview l (World.kind_eq_ok.1 hl) hmembers rfl
      exact (toView_grows hs ha).imp (fun _ h' hg => hg.mono hsub) fun _ => id
    · rw [if_neg hmembers]
      exact Ends.fail rfl
  | null =>
    by_cases hnumeric : l.isNumeric = true
    · rw [if_pos hnumeric]
      exact Ends.ask_bind rfl fun content _ => boxAs_grows hwf touched _ _ _
    · rw [if_neg hnumeric]
      exact Ends.guard (fun _ => .refl touched hwf) rfl
  | _ => exact Ends.guard (fun _ => .refl touched hwf) rfl

theorem castPointer_grows (hs : Sound w.registry held ∅ h values)
    (hslot : Suits w.registry values source s) :
    (castPointer s source target).Ends w h
      (fun _ => GrownBut (wrappedWord w values h.memory s target) h) (· = h) := by
  have hwf := hs.arranged.blocks
  have hrefl := GrownBut.refl (wrappedWord w values h.memory s target) hwf
  unfold castPointer
  refine Ends.ask_bind rfl fun k hk => Ends.ask_bind rfl fun l hl => ?_
  have hsource : w.registry.kind? source = some k := World.kind_eq_ok.1 hk
  have htarget : w.registry.kind? target = some l := World.kind_eq_ok.1 hl
  cases s with
  | void => exact Ends.pure hrefl
  | pointer a =>
    refine Ends.world_bind ?_
    by_cases hpass : a = 0 ∨ w.registry.sameType source target = true
    · rw [if_pos hpass]
      exact Ends.pure hrefl
    rw [if_neg hpass]
    by_cases hdynamic : l = .dynamic
    · rw [if_pos hdynamic]
      by_cases hself : k.isSelfDescribing = true
      · rw [if_pos hself]
        exact Ends.pure hrefl
      · rw [if_neg hself]
        exact toDynamic_grows hwf _ _ source
    rw [if_neg hdynamic]
    refine Ends.ask_bind rfl fun revealed hrevealed => ?_
    obtain ⟨raw, actual⟩ := revealed
    have hne : a ≠ 0 := fun hzero => hpass (Or.inl hzero)
    refine castActual_grows hs ?_
    rintro l' hl' hmembers rfl
    obtain ⟨rfl, ha⟩ := mem_of_actual hslot hne hsource hrevealed hl' hmembers
    exact ⟨ha, fun x hx => ⟨_, ha, rfl, htarget, hx⟩⟩
  | _ =>
    cases l with
    | dynamic => exact toDynamic_grows hwf _ _ source
    | null => exact boxAs_grows hwf _ _ source target
    | _ => exact Ends.fail rfl

/-- A conversion changes none of the bytes that there were, but for the word in which the views start of
the value that it makes a view of. -/
theorem convert_grows (hs : Sound w.registry held ∅ h values) (hslot : Suits w.registry values source s) :
    (convert s source target).Ends w h
      (fun _ => GrownBut (wrappedWord w values h.memory s target) h) (· = h) := by
  have hrefl := GrownBut.refl (wrappedWord w values h.memory s target) hs.arranged.blocks
  unfold convert
  refine Ends.ask_bind rfl fun k _ => ?_
  by_cases hvoid : k = .void
  · rw [if_pos hvoid]
    exact Ends.pure hrefl
  rw [if_neg hvoid]
  by_cases hnumeric : k.isNumeric = true
  · rw [if_pos hnumeric]
    refine Ends.ask_bind rfl fun n _ => ?_
    split
    · exact Ends.pure hrefl
    · exact Ends.fail rfl
  · rw [if_neg hnumeric]
    exact (castPointer_grows hs hslot).bind (fun _ => id) fun _ _ hg => Ends.pure hg

theorem cast_grows (hs : Sound w.registry held ∅ h values) (hslot : Suits w.registry values source s) :
    (cast s source target).Ends w h
      (fun _ => GrownBut (wrappedWord w values h.memory s target) h) (· = h) := by
  unfold cast
  refine Ends.ask_bind rfl fun k _ => ?_
  by_cases hfits : s.fits k = true
  · rw [if_pos hfits]
    exact convert_grows hs hslot
  · rw [if_neg hfits]
    exact Ends.fail rfl

/-! Operations that make a value take a block and write to it alone. -/

section Making

variable {size : Nat} {kind : BlockKind} (hwf : h.WellFormed)

include hwf

theorem newValue_grows (t : TypeId) :
    (newValue size kind t).Ends w h (fun _ => GrownBut ∅ h) (· = h) :=
  (newValue_ends hwf size kind t).imp (fun _ _ hv => hv.1.grownBut ∅) fun _ => False.elim

theorem newValue_change_grows {write : Addr → Memory → Memory}
    (hwrite : ∀ v m, Memory.SameOn m (write v m) 0 v.toNat) :
    (do
      let v ← newValue size kind t
      Action.change (write v)
      return v : Action Addr).Ends w h (fun _ => GrownBut ∅ h) (· = h) := by
  refine (newValue_ends hwf size kind t).bind (fun _ => False.elim) ?_
  rintro v h' ⟨hg, -⟩
  exact Ends.change_bind (Ends.pure ((hg.withMemory (hwrite v h'.memory)).grownBut ∅))

theorem newBox_grows (t : TypeId) : (newBox t).Ends w h (fun _ => GrownBut ∅ h) (· = h) :=
  Ends.ask_bind rfl fun _ _ => newValue_grows hwf t

theorem newInstance_grows (t : TypeId) : (newInstance t).Ends w h (fun _ => GrownBut ∅ h) (· = h) :=
  Ends.ask_bind rfl fun _ _ => newValue_grows hwf t

theorem newArray_grows (element : TypeId) (length : Nat) :
    (newArray element length).Ends w h (fun _ => GrownBut ∅ h) (· = h) := by
  refine Ends.ask_bind rfl fun k _ => ?_
  split
  · exact Ends.fail rfl
  · refine newValue_change_grows hwf fun v m => ?_
    exact ((Memory.SameOn.refl m 0 v.toNat).below (Memory.changesOnly_setWord _ _ _)
      (Nat.le_add_right _ _)).below (Memory.changesOnly_setCount _ _ _) (Nat.le_add_right _ _)

theorem newStandalone_grows (t : TypeId) :
    (newStandalone t).Ends w h (fun _ => GrownBut ∅ h) (· = h) := by
  refine Ends.ask_bind rfl fun l _ => newValue_change_grows hwf fun v m => ?_
  exact (((Memory.SameOn.refl m 0 v.toNat).below (Memory.changesOnly_setWord _ _ _)
    (Nat.le_add_right _ _)).below (Memory.changesOnly_setWord _ _ _) (Nat.le_add_right _ _)).below
      (View.changesOnly_writePaths _ _ _) (Nat.le_add_right _ _)

theorem newVariant_grows (t : TypeId) (index : Nat) :
    (newVariant t index).Ends w h (fun _ => GrownBut ∅ h) (· = h) := by
  refine Ends.ask_bind rfl fun c _ => newValue_change_grows hwf fun v m => ?_
  exact (Memory.SameOn.refl m 0 v.toNat).below (Memory.changesOnly_setCount _ _ _) (Nat.le_add_right _ _)

theorem newClosure_grows (function : TypeId) (code : UInt64) :
    (newClosure function code).Ends w h (fun _ => GrownBut ∅ h) (· = h) := by
  refine Ends.ask_bind rfl fun _ _ => newValue_change_grows hwf fun v m => ?_
  exact (Memory.SameOn.refl m 0 v.toNat).below (Memory.changesOnly_setWord _ _ _) (Nat.le_add_right _ _)

theorem bindClosure_grows (function : TypeId) (code : UInt64) (receiver : Addr) :
    (bindClosure function code receiver).Ends w h (fun _ => GrownBut ∅ h) (· = h) := by
  refine Ends.ask_bind rfl fun c _ => newValue_change_grows hwf fun v m => ?_
  exact (Memory.SameOn.refl m 0 v.toNat).below (Closure.changesOnly_bound _ _ _ _) (Nat.le_add_right _ _)

theorem makeVariant_grows (t : TypeId) (index : Nat) (args : List Slot) :
    (makeVariant t index args).Ends w h (fun _ => GrownBut ∅ h) (· = h) := by
  refine (makeVariant_ends hwf t index args).imp ?_ fun _ => id
  rintro v _ ⟨c, h', -, -, -, hg, -, -, rfl⟩
  have hfill : Memory.SameOn h'.memory (Variant.fill v h'.memory (args.zip c.params.offsets)) 0 v.toNat :=
    Variant.sameOn_fill h'.memory v fun _ _ => Nat.zero_le _
  exact (hg.withMemory hfill).grownBut ∅

end Making

end Action

end ObjectModel
