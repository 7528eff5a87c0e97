import ObjectModel.Proofs.Value.Casts
import ObjectModel.Proofs.Value.Lookup
import ObjectModel.Proofs.Value.OpenWrites

/-!
Members by name. A hash leads to a field in which there is a slot of the field's type, to a method, or to
another value. So what is read is of the type that was asked for, and what is written leaves the heap
sound.
-/

set_option autoImplicit false
set_option relaxedAutoImplicit false

namespace ObjectModel

variable {r : Registry} {held : Addr → TypeId → Prop} {values : Set Addr} {h h' : Heap} {u v : Addr}
  {t : TypeId} {k : Kind} {s : Slot} {hash : NameHash} {w : World}

namespace Access

/-- Where a hash may lead: to a field of the type that is named, or of one that is the same, or to
another value. -/
def Sensible (r : Registry) (values : Set Addr) (m : Memory) : Target → Prop
  | .stored address t => ∃ b o u, Holds r values m b o u ∧ r.sameType u t = true ∧ b.toNat + o = address
  | .method _ _ _ => True
  | .forward u => u ∈ values

private theorem locate_root_sensible {target : Target} (hs : Arranged w.registry ∅ h values)
    (hu : u ∈ values) (hroot : IsRoot w.registry h.memory u) (hok : locate w h.memory u hash = .ok target) :
    Sensible w.registry values h.memory target := by
  rcases locate_root hs hu hroot hok with ⟨offset, t, hstored, rfl⟩ | ⟨function, t, rfl⟩
  · obtain ⟨b, o, hb, -, hplace⟩ := hstored.holds hs hu hroot
    exact ⟨b, o, t, hb, Registry.sameType_refl _ _, hplace⟩
  · trivial

private theorem locate_view_sensible {target : Target} (hs : Arranged w.registry ∅ h values)
    (hv : v ∈ values) (hk : w.registry.kindAt h.memory v = some .virtual)
    (hshown : View.wrapped h.memory v ≠ 0) (hok : locate w h.memory v hash = .ok target) :
    Sensible w.registry values h.memory target := by
  obtain ⟨l, -, hat⟩ := hs.views v hv hk
  obtain ⟨hu, hroot, -⟩ := hat.shown hshown
  obtain ⟨target', hok', hmirrors⟩ := locate_mirrors hs hv hk hshown hash
  obtain rfl : target' = target := Except.ok.inj (hok'.symm.trans hok)
  cases hmirrors with
  | stored hfound hsame =>
    obtain ⟨b, o, t, hb, hfirst, hplace⟩ := locate_root_sensible hs hu hroot hfound
    exact ⟨b, o, t, hb, Registry.sameType_trans hfirst hsame, hplace⟩
  | method hfound => trivial
  | forward => exact hu

theorem locate_sensible {target : Target} (hs : Arranged w.registry ∅ h values) (hv : v ∈ values)
    (hok : locate w h.memory v hash = .ok target) : Sensible w.registry values h.memory target := by
  rcases root_or_view hok with hroot | ⟨hk, hshown⟩
  · exact locate_root_sensible hs hv hroot hok
  · exact locate_view_sensible hs hv hk hshown hok

end Access

theorem Access.Sensible.wellTyped {address : Nat} (hs : Sound r held ∅ h values)
    (hsense : Access.Sensible r values h.memory (.stored address t)) (hk : r.kind? t = some k) :
    WellTyped r held values h.memory t (h.memory.read address k) := by
  obtain ⟨b, o, u, hb, hsame, rfl⟩ := hsense
  have hu : r.kind? u = some k := (Registry.kind?_eq_of_sameType hsame).trans hk
  exact (hs.content b o u k hb hu).of_sameType hsame

namespace Action

private theorem getMethod_keeps {function : Nat} {type : TypeId} {receiver : Addr}
    (hb : w.registry.Built) (hs : Sound w.registry held ∅ h values) :
    Keeps held
      (do
        if (← ask fun w _ => w.kind t).isPointer then
          let c ← bindMethod function type receiver
          return .pointer (← castPointer (.pointer c) (← look (·.typeOf c)) t)
        else
          fail (.invalidCast type t) : Action Slot) w h values fun s h' values' =>
      WellTyped w.registry held values' h'.memory t s := by
  refine Keeps.ask_bind hs fun k hk => ?_
  have hkind : w.registry.kind? t = some k := World.kind_eq_ok.1 hk
  by_cases hpointer : k.isPointer = true
  · rw [if_pos hpointer]
    refine (bindMethod_keeps hb hs function receiver).bind fun c h' values' hkept hc => ?_
    refine Keeps.look_bind ?_
    have hslot : WellTyped w.registry held values' h'.memory (h'.memory.typeOf c) (.pointer c) :=
      .of_leadsTo hc.2 rfl ⟨hc.1, Registry.sameType_refl _ _⟩
    refine (castPointer_keeps hkept.sound hslot hkind hpointer).bind fun v h'' values'' hkept' hv => ?_
    exact Keeps.pure hkept'.sound hv
  · rw [if_neg hpointer]
    exact Keeps.fail hs

private theorem getFrom_step {bound : Nat} (hb : w.registry.Built)
    (hs : Sound w.registry held ∅ h values) (hv : v ∈ values)
    (hforward : ∀ u ∈ values, Keeps held
      (match bound with
        | 0 => fail .endlessViews
        | bound + 1 => getFrom hash t bound u) w h values fun s h' values' =>
        WellTyped w.registry held values' h'.memory t s) :
    Keeps held (getFrom hash t bound v) w h values fun s h' values' =>
      WellTyped w.registry held values' h'.memory t s := by
  rw [getFrom.eq_def]
  dsimp only
  refine Keeps.ask_bind hs fun target htarget => ?_
  have hsense := Access.locate_sensible hs.arranged hv htarget
  cases target with
  | stored address type =>
    refine Keeps.ask_bind hs fun _ _ => Keeps.ask_bind hs fun k hk => Keeps.look_bind ?_
    have hkind := World.kind_eq_ok.1 hk
    exact convert_keeps hs (hsense.wellTyped hs hkind)
  | method function type receiver => exact getMethod_keeps hb hs
  | forward u => exact hforward u hsense

/-- What is read from a member is of the type that was asked for. -/
theorem get_keeps (hb : w.registry.Built) (hs : Sound w.registry held ∅ h values) (hv : v ∈ values)
    (hash : NameHash) (t : TypeId) :
    Keeps held (get v hash t) w h values fun s h' values' =>
      WellTyped w.registry held values' h'.memory t s := by
  unfold get
  refine Keeps.chainBound_bind ?_
  generalize h.blocks.size + 1 = bound
  -- Where a name is passed on, it is to another value of the same heap.
  induction bound generalizing v with
  | zero => exact getFrom_step hb hs hv fun u _ => Keeps.fail hs
  | succ bound ih => exact getFrom_step hb hs hv fun u hu => ih hu

/-! What a write to a member leaves behind. -/

/-- How a write to a member, or the conversion before it, leaves a sound heap: with values that there
were or new ones, or with an open object that got new parts. -/
def Written (r : Registry) (held : Addr → TypeId → Prop) (h : Heap) (values : Set Addr) (h' : Heap) : Prop :=
  (∃ values', Kept r held h values h' values') ∨
    ∃ v ∈ values, r.kindAt h.memory v = some .dynobj ∧ Reshaped r held values v h h'

theorem Keeps.written {α : Type} {x : Action α} {post : α → Heap → Set Addr → Prop}
    (hx : Keeps held x w h values post) :
    x.Ends w h (fun _ => Written w.registry held h values) (Written w.registry held h values) := by
  refine Ends.imp hx ?_ ?_
  · rintro a h' ⟨values', hkept, -⟩
    exact Or.inl ⟨values', hkept⟩
  · rintro h' ⟨values', hkept⟩
    exact Or.inl ⟨values', hkept⟩

private theorem setStored_keeps {address : Nat} {type : TypeId}
    (hs : Sound w.registry held ∅ h values)
    (hsense : Access.Sensible w.registry values h.memory (.stored address type))
    (hslot : WellTyped w.registry held values h.memory t s) :
    Keeps held
      (do
        let s ← convert s t type
        Action.change (·.write address s) : Action Unit) w h values fun _ _ _ => True := by
  refine (convert_keeps hs hslot).bind fun s' h' values' hkept hslot' => ?_
  obtain ⟨b, o, u, hb, hsame, rfl⟩ := hsense
  have hb' := hkept.holds b o u hb
  have hdone : ∀ m, m = h'.memory.write (b.toNat + o) s' →
      ∃ values'', Kept w.registry held h' values' { h' with memory := m } values'' ∧ True := by
    intro m hm
    obtain ⟨hsound, hvalue⟩ := hkept.sound.store hb' (hslot'.of_sameType (Registry.sameType_symm hsame)) hm
    exact ⟨values', .of_memory hsound hvalue, trivial⟩
  exact Ends.change (hdone _ rfl)

private theorem setFrom_step {bound : Nat} (hs : Sound w.registry held ∅ h values) (hv : v ∈ values)
    (hslot : WellTyped w.registry held values h.memory t s)
    (hforward : ∀ u ∈ values,
      (match bound with
        | 0 => fail .endlessViews
        | bound + 1 => setFrom hash t s bound u : Action Unit).Ends w h
        (fun _ => Written w.registry held h values) (Written w.registry held h values)) :
    (setFrom hash t s bound v).Ends w h
      (fun _ => Written w.registry held h values) (Written w.registry held h values) := by
  have hfail : Written w.registry held h values h := Or.inl ⟨values, .refl hs⟩
  rw [setFrom.eq_def]
  dsimp only
  refine Ends.ask_bind hfail fun k hk => ?_
  have hkind : w.registry.kindAt h.memory v = some k := World.kind_eq_ok.1 hk
  by_cases hopen : k = .dynobj
  · rw [if_pos hopen]
    subst hopen
    refine (setOpenField_ends hs hv hkind hash hslot).imp ?_ fun _ => False.elim
    intro _ h' hreshaped
    exact Or.inr ⟨v, hv, hkind, hreshaped⟩
  · rw [if_neg hopen]
    refine Ends.ask_bind hfail fun target htarget => ?_
    have hsense := Access.locate_sensible hs.arranged hv htarget
    cases target with
    | stored address type => exact (setStored_keeps hs hsense hslot).written
    | method function type receiver => exact Ends.fail hfail
    | forward u => exact hforward u hsense

/-- A write to a member leaves the heap sound. The slot need only be of the type if it suits it, as else
it is refused. -/
theorem set_ends (hs : Sound w.registry held ∅ h values) (hv : v ∈ values) (hash : NameHash)
    (hslot : ∀ k, w.registry.kind? t = some k → s.fits k = true →
      WellTyped w.registry held values h.memory t s) :
    (set v hash t s).Ends w h
      (fun _ => Written w.registry held h values) (Written w.registry held h values) := by
  have hfail : Written w.registry held h values h := Or.inl ⟨values, .refl hs⟩
  unfold set
  refine Ends.ask_bind hfail fun k hk => ?_
  have hkind : w.registry.kind? t = some k := World.kind_eq_ok.1 hk
  by_cases hfits : s.fits k = true
  · rw [if_pos hfits]
    have hslot' := hslot k hkind hfits
    refine Ends.chainBound_bind ?_
    generalize h.blocks.size + 1 = bound
    induction bound generalizing v with
    | zero => exact setFrom_step hs hv hslot' fun u _ => Ends.fail hfail
    | succ bound ih => exact setFrom_step hs hv hslot' fun u hu => ih hu
  · rw [if_neg hfits]
    exact Ends.fail hfail

end Action

end ObjectModel
