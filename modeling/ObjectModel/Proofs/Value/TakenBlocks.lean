import ObjectModel.Proofs.Value.Receivers

/-!
Operations that take one block from the heap. Whether there is one for them is all that they leave open: if the
heap grants the block they end well, with what is promised, and if it refuses it the program ends with them.
-/

set_option autoImplicit false
set_option relaxedAutoImplicit false

namespace ObjectModel

namespace Action

variable {α β : Type} {w : World} {h h' : Heap} {size : Nat} {kind : BlockKind} {t bound function : TypeId}
  {k : Kind} {s : Slot} {code : UInt64} {receiver : Addr}

/-- An operation that takes one block of a size and kind from the heap. -/
structure TakesBlock (x : Action α) (size : Nat) (kind : BlockKind) (w : World) (h : Heap)
    (post : α → Heap → Prop) : Prop where
  granted : ∀ v h₁, h.allocate (.ofNat size) kind = .ok (v, h₁) → ∃ a h', x w h = (.ok a, h') ∧ post a h'
  refused : ∀ e, h.allocate (.ofNat size) kind = .error e → x w h = (.error (.fatal e), h)

namespace TakesBlock

variable {x y : Action α} {f : α → Action β} {post good : α → Heap → Prop} {next : β → Heap → Prop}
  {bad : Heap → Prop}

theorem congr (hy : y.TakesBlock size kind w h post) (hxy : x w h = y w h) :
    x.TakesBlock size kind w h post :=
  ⟨hxy ▸ hy.granted, hxy ▸ hy.refused⟩

theorem bind (hx : x.TakesBlock size kind w h post)
    (hf : ∀ a h', post a h' → ∃ b h'', f a w h' = (.ok b, h'') ∧ next b h'') :
    (x >>= f).TakesBlock size kind w h next := by
  refine ⟨fun v h₁ hgranted => ?_, fun e hrefused => bind_error (hx.refused e hrefused)⟩
  obtain ⟨a, h', hrun, hpost⟩ := hx.granted v h₁ hgranted
  obtain ⟨b, h'', hrun', hnext⟩ := hf a h' hpost
  exact ⟨b, h'', (bind_ok hrun).trans hrun', hnext⟩

theorem and_ends (hx : x.TakesBlock size kind w h post) (hends : x.Ends w h good bad) :
    x.TakesBlock size kind w h fun a h' => post a h' ∧ good a h' := by
  refine ⟨fun v h₁ hgranted => ?_, hx.refused⟩
  obtain ⟨a, h', hrun, hpost⟩ := hx.granted v h₁ hgranted
  exact ⟨a, h', hrun, hpost, hends.of_ok hrun⟩

theorem imp (hx : x.TakesBlock size kind w h post) (hpost : ∀ a h', post a h' → good a h') :
    x.TakesBlock size kind w h good := by
  refine ⟨fun v h₁ hgranted => ?_, hx.refused⟩
  obtain ⟨a, h', hrun, ha⟩ := hx.granted v h₁ hgranted
  exact ⟨a, h', hrun, hpost a h' ha⟩

end TakesBlock

theorem allocate_takesBlock (hsize : size ≤ Heap.maxBlockSize) :
    (allocate size kind).TakesBlock size kind w h fun v _ => v ≠ 0 := by
  have hraw : allocate size kind = allocateRaw (.ofNat size) kind := if_neg (Nat.not_lt.2 hsize)
  constructor
  · intro v h₁ hgranted
    have hg := Heap.allocate_eq_ok hgranted
    refine ⟨v, h₁, ?_, ?_⟩
    · rw [hraw, allocateRaw, hgranted]
    · rintro rfl
      exact absurd hg.toNat_address (by simp)
  · intro e hrefused
    rw [hraw, allocateRaw, hrefused]

theorem newValue_takesBlock (hsize : size ≤ Heap.maxBlockSize) :
    (newValue size kind t).TakesBlock size kind w h fun v h' => v ≠ 0 ∧ h'.memory.typeOf v = t :=
  (allocate_takesBlock hsize).bind fun v _ hv => ⟨v, _, rfl, hv, Memory.typeOf_setType_same _ _ _⟩

theorem fill_takesBlock (hk : w.registry.kind? t = some k) (hfits : s.fits k = true) :
    (toDynamic.fill s t).TakesBlock Box.size (.ofBool k.isPointer) w h fun v h' =>
      v ≠ 0 ∧ h'.memory.typeOf v = t ∧ Box.payload h'.memory v k = s := by
  have hbox : newBox t w h = newValue Box.size (.ofBool k.isPointer) t w h :=
    ask_bind_ok (World.kind_eq_ok.2 hk)
  refine ((newValue_takesBlock (by decide)).congr hbox).bind ?_
  rintro v h' ⟨hv, htype⟩
  have hchange := Memory.changesOnly_write h'.memory (v.toNat + Box.payloadOffset) s
  refine ⟨v, _, rfl, hv, ?_, ?_⟩
  · exact (hchange.sameOn (Or.inl le_rfl)).typeOf.trans htype
  · exact Memory.read_write_same h'.memory (v.toNat + Box.payloadOffset) hfits

theorem bindClosure_takesBlock
    (hbound : Closure.boundType w function (h.memory.typeOf receiver) = .ok bound) :
    (bindClosure function code receiver).TakesBlock Closure.size .pointers w h fun c h' =>
      h'.memory.typeOf c = bound ∧ Closure.code h'.memory c = code ∧
        Closure.receiver h'.memory c = receiver := by
  have hrun : bindClosure function code receiver w h = (newValue Closure.size .pointers bound >>= fun v =>
      change (fun m => ((m.setWord (v.toNat + Closure.codeOffset) code).setHalf
        (v.toNat + Closure.boundOffset) 1).setWord (v.toNat + Closure.receiverOffset) receiver) >>= fun _ =>
          pure v) w h :=
    ask_bind_ok hbound
  have htaken : (bindClosure function code receiver).TakesBlock Closure.size .pointers w h fun c h' =>
      h'.memory.typeOf c = bound ∧ Closure.code h'.memory c = code := by
    refine TakesBlock.congr ?_ hrun
    refine (newValue_takesBlock (by decide)).bind ?_
    rintro v h' ⟨-, htype⟩
    refine ⟨v, _, rfl, ?_, ?_⟩
    · have hchange := Closure.changesOnly_bound h'.memory v code receiver
      exact (hchange.sameOn (Or.inl le_rfl)).typeOf.trans htype
    · have hhalf := Memory.changesOnly_setHalf (h'.memory.setWord (v.toNat + 8) code) (v.toNat + 16) 1
      have hlast := Memory.changesOnly_setWord
        ((h'.memory.setWord (v.toNat + 8) code).setHalf (v.toNat + 16) 1) (v.toNat + 24) receiver
      have hkept : (h'.memory.setWord (v.toNat + 8) code).SameOn
          ((h'.memory.setWord (v.toNat + 8) code).setHalf (v.toNat + 16) 1) (v.toNat + 8) 8 :=
        hhalf.sameOn (Or.inl le_rfl)
      have hcode := hkept.trans (hlast.sameOn (Or.inl (by omega)))
      exact hcode.word.trans (Memory.word_setWord_same _ _ _)
  refine ⟨fun v h₁ hgranted => ?_, htaken.refused⟩
  obtain ⟨c, h', hok, htype, hcode⟩ := htaken.granted v h₁ hgranted
  exact ⟨c, h', hok, htype, hcode, bindClosure_ok hok⟩

end Action

end ObjectModel
