import ObjectModel.Proofs.Value.Views
import ObjectModel.Value.Access

/-!
Casts give slots of the type that was asked for. An address is followed to what it really leads to: a
value with its own type, or something raw that a box held. Each target kind takes what its types allow
and refuses the rest.
-/

set_option autoImplicit false
set_option relaxedAutoImplicit false

namespace ObjectModel

variable {r : Registry} {held : Addr → TypeId → Prop} {values : Set Addr} {h : Heap} {a : Addr}
  {s : Slot} {t source target : TypeId} {k : Kind} {m : Memory}

theorem Number.fits_of_toSlot? {n : Number} (h : n.toSlot? k = some s) :
    s.fits k = true ∧ k.isNumeric = true := by
  cases k <;> first
    | (obtain rfl := Option.some.inj h; exact ⟨rfl, rfl⟩)
    | cases h

theorem Number.ne_pointer_of_toSlot? {n : Number} (h : n.toSlot? k = some s) (a : Addr) : s ≠ .pointer a := by
  rintro rfl
  obtain ⟨hfits, hnumeric⟩ := fits_of_toSlot? h
  have hpointer : k.isPointer = true := hfits
  cases k <;> first | exact absurd hpointer Bool.false_ne_true | exact absurd hnumeric Bool.false_ne_true

theorem WellTyped.of_numeric (hk : r.kind? t = some k) (hfits : s.fits k = true)
    (hnumeric : k.isNumeric = true) : WellTyped r held values m t s := by
  refine .of_not_pointer hk hfits ?_
  rintro a rfl
  cases k <;> first | exact absurd hfits Bool.false_ne_true | exact absurd hnumeric Bool.false_ne_true

theorem Box.content_of_kind {w : World} {v : Addr} (hk : w.registry.kindAt m v = some k) :
    Box.content w m v = .ok (if k.isSelfDescribing then .pointer v else Box.payload m v k, m.typeOf v) := by
  simp [Box.content, World.kind_eq_ok.2 hk, bind, Except.bind, pure, Except.pure]

theorem Box.content_of_boxed {w : World} {v : Addr} (hk : w.registry.kindAt m v = some k)
    (hself : k.isSelfDescribing = false) :
    Box.content w m v = .ok (Box.payload m v k, m.typeOf v) := by
  rw [Box.content_of_kind hk, hself, if_neg Bool.false_ne_true]

/-- An address that is known to lead to something of the very type `t`: to a value whose type word is
`t`, or to something raw. -/
def Reveals (r : Registry) (held : Addr → TypeId → Prop) (values : Set Addr) (m : Memory) (a : Addr)
    (t : TypeId) : Prop :=
  ∃ k, r.kind? t = some k ∧
    ((k.isRaw = false ∧ k.describesValue = true ∧ a ∈ values ∧ m.typeOf a = t) ∨
      (k.isRaw = true ∧ LeadsTo r held values m t a k))

theorem reveals_of_actual {w : World} {raw : Addr} {actual : TypeId}
    (hs : Sound w.registry held ∅ h values)
    (hslot : WellTyped w.registry held values h.memory source (.pointer a)) (hne : a ≠ 0)
    (hk : w.registry.kind? source = some k)
    (hactual : Coercion.actual w h.memory a source k = .ok (raw, actual)) :
    Reveals w.registry held values h.memory raw actual := by
  have hleads := hslot.leadsTo hk hne
  unfold Coercion.actual at hactual
  cases hself : k.isSelfDescribing with
  | false =>
    rw [hself, if_neg Bool.false_ne_true] at hactual
    obtain ⟨rfl, rfl⟩ := Prod.mk.inj (Outcome.pure_eq_ok.1 hactual)
    have hfits : k.isPointer = true := hslot.fits hk
    refine ⟨k, hk, Or.inr ⟨?_, hleads⟩⟩
    rw [Kind.isRaw, hfits, hself]
    rfl
  | true =>
    rw [hself, if_pos rfl] at hactual
    obtain ⟨l, hl, hactual⟩ := Outcome.bind_eq_ok.1 hactual
    obtain ⟨haddress, rfl⟩ := Prod.mk.inj (Outcome.pure_eq_ok.1 hactual)
    have hraw : (if l.isRaw = true then Box.pointer h.memory a else a) = raw := haddress
    have hmem : a ∈ values := hleads.mem_values hself
    have hkind := World.kind_eq_ok.1 hl
    obtain ⟨l', hl', hdescribes⟩ := hs.arranged.kinds a hmem
    obtain rfl : l = l' := Option.some.inj (hkind.symm.trans hl')
    refine ⟨l, hkind, ?_⟩
    by_cases hbox : l.isRaw = true
    · rw [if_pos hbox] at hraw
      refine Or.inr ⟨hbox, ?_⟩
      have hin : ∃ b ∈ values, w.registry.sameType (h.memory.typeOf b) (h.memory.typeOf a) = true ∧
          Box.pointer h.memory b = raw := ⟨a, hmem, Registry.sameType_refl _ _, hraw⟩
      cases l <;> first | exact absurd hbox Bool.false_ne_true | exact Or.inr hin
    · rw [if_neg hbox] at hraw
      subst hraw
      exact Or.inl ⟨Bool.eq_false_iff.2 hbox, hdescribes, hmem, rfl⟩

theorem Reveals.leadsTo {actual : TypeId} (ha : Reveals r held values m a actual)
    (hsame : r.sameType actual target = true) (hk : r.kind? target = some k) (hpointer : k.isPointer = true)
    (hobject : k ≠ .object) : LeadsTo r held values m target a k := by
  obtain ⟨k', hk', hreveals⟩ := ha
  obtain rfl : k' = k := Option.some.inj (by rw [← hk', ← hk, Registry.kind?_eq_of_sameType hsame])
  rcases hreveals with ⟨hraw, hdescribes, hmem, rfl⟩ | ⟨-, hleads⟩
  · cases k' <;> first
      | exact absurd hpointer Bool.false_ne_true
      | exact absurd hdescribes Bool.false_ne_true
      | exact absurd rfl hobject
      | exact absurd hraw.symm Bool.false_ne_true
      | exact ⟨hmem, hsame⟩
      | exact ⟨hmem, hk'⟩
  · exact hleads.of_sameType hsame

namespace Action

variable {w : World}

/-- What a cast is to give: a slot of the target type. -/
def GivesPointer (r : Registry) (held : Addr → TypeId → Prop) (target : TypeId) (v : Addr) (h : Heap)
    (values : Set Addr) : Prop :=
  WellTyped r held values h.memory target (.pointer v)

theorem boxAs_keeps (hs : Sound w.registry held ∅ h values) (s : Slot) (source : TypeId) :
    Keeps held (boxAs s source target) w h values (GivesPointer w.registry held target) := by
  unfold boxAs
  refine Keeps.ask_bind hs fun d hd => ?_
  cases d with
  | null inner =>
    have hget : w.registry.get? target = some (.null inner) :=
      Registry.get_eq_ok.1 (Outcome.mapError_eq_ok.1 hd)
    refine Keeps.world_bind ?_
    dsimp only
    split
    · rename_i s' hnumber
      obtain ⟨n, -, hslot⟩ := Option.bind_eq_some_iff.1 hnumber
      obtain ⟨k, hk, hslot⟩ := Option.bind_eq_some_iff.1 hslot
      obtain ⟨hfits, hnumeric⟩ := Number.fits_of_toSlot? hslot
      refine (toDynamic_keeps hs hk (.of_numeric hk hfits hnumeric)).imp fun v h' values' _ hv => ?_
      have hkind : w.registry.kind? target = some .null := by
        rw [Registry.kind?, hget]
        rfl
      rcases hv with rfl | ⟨hmem, htype⟩
      · exact .null hkind rfl
      · have htype' := htype (by rw [Kind.isBoxed, hnumeric, Bool.true_or])
        refine .of_leadsTo hkind rfl ⟨hmem, inner, k, hget, kindAt_of_typeOf htype' hk, hnumeric, ?_⟩
        rw [htype']
        exact Registry.sameType_refl w.registry inner
    · exact Keeps.fail hs
  | _ => exact Keeps.fail hs

/-- An address that leads to something of a known type becomes an address of the target type. -/
theorem castActual_keeps {actual : TypeId} (hs : Sound w.registry held ∅ h values)
    (ha : Reveals w.registry held values h.memory a actual) (hk : w.registry.kind? target = some k)
    (hpointer : k.isPointer = true) (hdynamic : k ≠ .dynamic) :
    Keeps held (castActual a actual target k) w h values (GivesPointer w.registry held target) := by
  unfold castActual
  refine Keeps.world_bind (Keeps.ask_bind hs fun l hl => ?_)
  have hactual : w.registry.kind? actual = some l := World.kind_eq_ok.1 hl
  have hpass : ∀ ok : Bool, (ok = true → LeadsTo w.registry held values h.memory target a k) →
      Keeps held (if ok = true then Pure.pure a else fail (.invalidCast actual target)) w h values
        (GivesPointer w.registry held target) :=
    fun ok hok => Keeps.guard hs fun hyes => .of_leadsTo hk hpointer (hok hyes)
  have hvalue : l.isRaw = false → a ∈ values ∧ h.memory.typeOf a = actual := by
    intro hraw
    obtain ⟨l', hl', ⟨-, -, hmem, htype⟩ | ⟨hraw', -⟩⟩ := ha
    · exact ⟨hmem, htype⟩
    · obtain rfl := Option.some.inj (hactual.symm.trans hl')
      rw [hraw] at hraw'
      cases hraw'
  dsimp only
  cases k with
  | object =>
    refine hpass _ fun hok => ?_
    obtain ⟨hobject, hsub⟩ := Bool.and_eq_true_iff.1 hok
    obtain rfl : l = .object := of_decide_eq_true hobject
    obtain ⟨hmem, rfl⟩ := hvalue rfl
    exact ⟨hmem, hsub⟩
  | virtual =>
    by_cases hmembers : l = .object ∨ l = .dynobj ∨ l = .virtual
    · rw [if_pos hmembers]
      have hmem : a ∈ values := by
        rcases hmembers with rfl | rfl | rfl <;> exact (hvalue rfl).1
      refine (toView_keeps hs hmem).imp fun v h' values' _ hv => ?_
      exact .of_leadsTo hk rfl ⟨hv.mem, hv.type⟩
    · rw [if_neg hmembers]
      exact Keeps.fail hs
  | null =>
    by_cases hnumeric : l.isNumeric = true
    · rw [if_pos hnumeric]
      exact Keeps.ask_bind hs fun content _ => boxAs_keeps hs content.1 actual
    · rw [if_neg hnumeric]
      exact hpass _ fun hok => ha.leadsTo hok hk hpointer (by decide)
  | array =>
    refine hpass _ fun hok => ?_
    obtain rfl : l = .array := of_decide_eq_true hok
    obtain ⟨hmem, rfl⟩ := hvalue rfl
    exact ⟨hmem, hactual⟩
  | dynamic => exact absurd rfl hdynamic
  | _ => exact hpass _ fun hok => ha.leadsTo hok hk hpointer (by decide)

theorem castPointer_keeps (hs : Sound w.registry held ∅ h values)
    (hslot : WellTyped w.registry held values h.memory source s) (hk : w.registry.kind? target = some k)
    (hpointer : k.isPointer = true) :
    Keeps held (castPointer s source target) w h values (GivesPointer w.registry held target) := by
  unfold castPointer
  refine Keeps.ask_bind hs fun l hl => Keeps.ask_bind hs fun k' hk' => ?_
  have hsource : w.registry.kind? source = some l := World.kind_eq_ok.1 hl
  obtain rfl : k = k' := Option.some.inj (hk.symm.trans (World.kind_eq_ok.1 hk'))
  have hdynamic : k = .dynamic → Keeps held (toDynamic s source) w h values
      (GivesPointer w.registry held target) := by
    rintro rfl
    refine (toDynamic_keeps hs hsource hslot).imp fun v h' values' hkept hv => ?_
    rcases hv with rfl | ⟨hmem, -⟩
    · exact .null hk rfl
    · exact .of_leadsTo hk rfl ⟨hmem, hkept.sound.arranged.kinds v hmem⟩
  cases s with
  | void => exact Keeps.pure hs (.null hk hpointer)
  | pointer a =>
    refine Keeps.world_bind ?_
    by_cases hsame : a = 0 ∨ w.registry.sameType source target = true
    · rw [if_pos hsame]
      refine Keeps.pure hs ?_
      rcases hsame with rfl | hsame
      · exact .null hk hpointer
      · exact hslot.of_sameType hsame
    · rw [if_neg hsame]
      have hne : a ≠ 0 := fun hzero => hsame (Or.inl hzero)
      by_cases htarget : k = .dynamic
      · rw [if_pos htarget]
        -- A value that carries its type stands for itself, and all else goes into a box.
        cases hself : l.isSelfDescribing with
        | true =>
          rw [if_pos rfl]
          have hmem := (hslot.leadsTo hsource hne).mem_values hself
          subst htarget
          exact Keeps.pure hs (.of_leadsTo hk rfl ⟨hmem, hs.arranged.kinds a hmem⟩)
        | false =>
          rw [if_neg Bool.false_ne_true]
          exact hdynamic htarget
      · rw [if_neg htarget]
        refine Keeps.ask_bind hs fun revealed hrevealed => ?_
        exact castActual_keeps hs (reveals_of_actual hs hslot hne hsource hrevealed) hk hpointer htarget
  | _ =>
    cases k with
    | dynamic => exact hdynamic rfl
    | null => exact boxAs_keeps hs _ source
    | _ => exact Keeps.fail hs

theorem castPointer_keeps_heap (hs : Sound w.registry held ∅ h values)
    (hslot : WellTyped w.registry held values h.memory source s) :
    Keeps held (castPointer s source target) w h values fun _ _ _ => True := by
  by_cases haddress : ∃ k, w.registry.kind? target = some k ∧ k.isPointer = true
  · obtain ⟨k, hk, hpointer⟩ := haddress
    exact (castPointer_keeps hs hslot hk hpointer).imp fun _ _ _ _ _ => trivial
  unfold castPointer
  refine Keeps.ask_bind hs fun l _ => Keeps.ask_bind hs fun k hk => ?_
  have hother : k.isPointer ≠ true :=
    fun hpointer => haddress ⟨k, World.kind_eq_ok.1 hk, hpointer⟩
  cases s with
  | void => exact Keeps.pure hs trivial
  | pointer a =>
    refine Keeps.world_bind ?_
    by_cases hsame : a = 0 ∨ w.registry.sameType source target = true
    · rw [if_pos hsame]
      exact Keeps.pure hs trivial
    · have hdynamic : k ≠ .dynamic := by
        rintro rfl
        exact hother rfl
      rw [if_neg hsame, if_neg hdynamic]
      refine Keeps.ask_bind hs fun revealed _ => ?_
      unfold castActual
      refine Keeps.world_bind (Keeps.ask_bind hs fun _ _ => ?_)
      cases k <;> first | exact absurd rfl hother | exact Keeps.guard hs fun _ => trivial
  | _ => cases k <;> first | exact absurd rfl hother | exact Keeps.fail hs

theorem convert_keeps (hs : Sound w.registry held ∅ h values)
    (hslot : WellTyped w.registry held values h.memory source s) :
    Keeps held (convert s source target) w h values fun s' h' values' =>
      WellTyped w.registry held values' h'.memory target s' := by
  unfold convert
  refine Keeps.ask_bind hs fun k hk => ?_
  have htarget : w.registry.kind? target = some k := World.kind_eq_ok.1 hk
  by_cases hvoid : k = .void
  · rw [if_pos hvoid]
    subst hvoid
    exact Keeps.pure hs (.zero (k := .void) htarget)
  rw [if_neg hvoid]
  by_cases hnumeric : k.isNumeric = true
  · rw [if_pos hnumeric]
    refine Keeps.ask_bind hs fun n _ => ?_
    split
    · rename_i s' hs'
      exact Keeps.pure hs (.of_numeric htarget (Number.fits_of_toSlot? hs').1 hnumeric)
    · exact Keeps.fail hs
  · rw [if_neg hnumeric]
    have hpointer : k.isPointer = true := by
      simp [Kind.isPointer, hvoid, hnumeric]
    refine (castPointer_keeps hs hslot htarget hpointer).bind fun v h' values' hkept hv => ?_
    exact Keeps.pure hkept.sound hv

theorem convert_fits {w : World} {h : Heap} (hk : w.registry.kind? target = some k) :
    (convert s source target).Ends w h (fun s' _ => s'.fits k = true) (fun _ => True) := by
  unfold convert
  refine Ends.ask_ok_bind (World.kind_eq_ok.2 hk) ?_
  by_cases hvoid : k = .void
  · rw [if_pos hvoid, hvoid]
    exact Ends.pure rfl
  rw [if_neg hvoid]
  by_cases hnumeric : k.isNumeric = true
  · rw [if_pos hnumeric]
    refine Ends.ask_bind True.intro fun n _ => ?_
    split
    · rename_i s' hs'
      exact Ends.pure (Number.fits_of_toSlot? hs').1
    · exact Ends.fail True.intro
  · rw [if_neg hnumeric]
    have hpointer : k.isPointer = true := by
      simp [Kind.isPointer, hvoid, hnumeric]
    exact (Ends.trivial _ w h).bind (fun _ => id) fun a h' _ => Ends.pure hpointer

theorem cast_fits {w : World} {h : Heap} (hk : w.registry.kind? target = some k) :
    (cast s source target).Ends w h (fun s' _ => s'.fits k = true) (fun _ => True) := by
  unfold cast
  refine Ends.ask_bind True.intro fun l _ => ?_
  by_cases hfits : s.fits l = true
  · rw [if_pos hfits]
    exact convert_fits hk
  · rw [if_neg hfits]
    exact Ends.fail True.intro

theorem cast_keeps (hs : Sound w.registry held ∅ h values)
    (hslot : WellTyped w.registry held values h.memory source s) :
    Keeps held (cast s source target) w h values fun s' h' values' =>
      WellTyped w.registry held values' h'.memory target s' := by
  unfold cast
  refine Keeps.ask_bind hs fun k _ => ?_
  by_cases hfits : s.fits k = true
  · rw [if_pos hfits]
    exact convert_keeps hs hslot
  · rw [if_neg hfits]
    exact Keeps.fail hs

end Action

end ObjectModel
