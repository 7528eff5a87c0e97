import ObjectModel.Proofs.Value.Failures

/-!
Values that no operation writes to once they are made: boxes, closures and enum values. A write goes to a
field of an instance, of an open object or of a virtual value, to an element of an array, or to the paths and
links of views, and none of these is in the block of such a value. So the block holds the same bytes for as long
as the program runs.
-/

set_option autoImplicit false
set_option relaxedAutoImplicit false

namespace ObjectModel

variable {r : Registry} {held : Addr → TypeId → Prop} {stale values values' : Set Addr}
  {touched : Set Nat} {h h' : Heap} {m m' : Memory} {u v : Addr} {n : Nat} {t source target : TypeId}
  {k : Kind} {s : Slot} {hash : NameHash} {w : World}

/-- The kinds of values that are never written to. -/
def Kind.isImmutable : Kind → Bool
  | object | array | virtual | dynobj => false
  | _ => true

/-- The values that are never written to. -/
def immutables (r : Registry) (values : Set Addr) (m : Memory) : Set Addr :=
  {v | v ∈ values ∧ ∃ k, r.kindAt m v = some k ∧ k.isImmutable = true}

theorem notMem_immutables (hk : r.kindAt m v = some k) (hmutable : k.isImmutable = false) :
    v ∉ immutables r values m := by
  rintro ⟨-, l, hl, himmutable⟩
  obtain rfl := Option.some.inj (hk.symm.trans hl)
  exact absurd (hmutable.symm.trans himmutable) Bool.false_ne_true

theorem immutables_goesOn (hgo : GoesOn r values m values' m') :
    immutables r values m ⊆ immutables r values' m' := by
  rintro v ⟨hv, k, hk, himmutable⟩
  exact ⟨hgo.subset hv, k, (hgo.kindAt hv).trans hk, himmutable⟩

theorem immutables_subset_bystanders (hk : r.kindAt m v = some .dynobj) :
    immutables r values m ⊆ bystanders r values m v := by
  intro a ha
  refine ⟨ha.1, fun heq => ?_, fun hview => notMem_immutables hview rfl ha⟩
  have hin : v ∈ immutables r values m := heq ▸ ha
  exact notMem_immutables hk rfl hin

theorem Holds.notMem_immutables {b : Addr} {o : Nat} (hs : Arranged r stale h values)
    (hb : Holds r values h.memory b o t) : b ∉ immutables r values h.memory := by
  cases hb with
  | «instance» _ hc _ =>
    have hk : r.kindAt h.memory b = some .object := Registry.kind?_of_classLayout hc
    exact ObjectModel.notMem_immutables hk rfl
  | standalone _ hl _ _ =>
    have hk : r.kindAt h.memory b = some .virtual := Registry.kind?_of_viewLayout hl
    exact ObjectModel.notMem_immutables hk rfl
  | openField hv hk _ => exact fun hin => (hs.opens _ hv hk).storage_out hin.1

theorem GrownBut.spares {quiet : Set Addr} (hg : GrownBut touched h h') (hwf : h.WellFormed)
    (hout : ∀ b ∈ quiet, ∀ n, h.Owns b n → ∀ x, b.toNat ≤ x → x < b.toNat + n → x ∉ touched) :
    Heap.Spares quiet h h' := by
  intro b hb n howns x hlow hhigh
  have := howns.le_next hwf
  exact hg.same x (by omega) (hout b hb n howns x hlow hhigh)

theorem notMem_chainWord {b : Addr} {x : Nat} (hs : Arranged r stale h values) (hu : u ∈ values)
    (hb : b ∈ immutables r values h.memory) (howns : h.Owns b n) (hlow : b.toNat ≤ x)
    (hhigh : x < b.toNat + n) : x ∉ chainWord r h.memory u := by
  rintro ⟨hchained, hlow', hhigh'⟩
  have hne : b ≠ u := by
    rintro rfl
    rcases hchained with hopen | ⟨hview, -⟩
    · exact notMem_immutables hopen rfl hb
    · exact notMem_immutables hview rfl hb
  have hheader : chainHead r h.memory u + 8 ≤ u.toNat + headerSize r h.memory u := by
    unfold chainHead
    rcases hchained with hopen | ⟨hview, -⟩
    · rw [if_pos hopen, headerSize_eq hopen (by decide)]
      exact Nat.le_refl (u.toNat + 40)
    · have hforty : 40 ≤ headerSize r h.memory u := le_headerSize hview
      rw [if_neg (kindAt_ne hview (by decide)), Nat.add_assoc]
      exact Nat.add_le_add_left (Nat.le_trans (by decide) hforty) u.toNat
  have hstart : u.toNat ≤ chainHead r h.memory u := Nat.le_add_right _ _
  have := howns.apart (hs.owned u hu) hs.blocks hne
  omega

namespace Arranged

variable (hs : Arranged w.registry stale h values)

include hs

theorem spares_of_view (hv : v ∈ values)
    (hg : GrownBut (chainWord w.registry h.memory (w.unwrapped h.memory v)) h h') :
    Heap.Spares (immutables w.registry values h.memory) h h' :=
  hg.spares hs.blocks fun _ hb _ howns _ hlow hhigh =>
    notMem_chainWord hs (hs.unwrapped_mem hv) hb howns hlow hhigh

theorem spares_of_conversion (hg : GrownBut (wrappedWord w values h.memory s target) h h') :
    Heap.Spares (immutables w.registry values h.memory) h h' := by
  refine hg.spares hs.blocks fun b hb n howns x hlow hhigh => ?_
  rintro ⟨a, ha, -, -, hx⟩
  exact notMem_chainWord hs (hs.unwrapped_mem ha) hb howns hlow hhigh hx

end Arranged

namespace Action

/-- An operation changes no immutable value, however it ends. -/
def SparesImmutables {α : Type} (x : Action α) (w : World) (h : Heap) (values : Set Addr) : Prop :=
  x.Ends w h (fun _ => Heap.Spares (immutables w.registry values h.memory) h)
    (Heap.Spares (immutables w.registry values h.memory) h)

namespace SparesImmutables

variable {α β : Type} {x : Action α} {f : α → Action β}

theorem of_ends {good : Heap → Prop} (hx : x.Ends w h (fun _ => good) (· = h))
    (hgood : ∀ h', good h' → Heap.Spares (immutables w.registry values h.memory) h h') :
    x.SparesImmutables w h values := by
  refine Ends.imp hx (fun _ => hgood) ?_
  rintro h' rfl
  exact .refl _ _

theorem of_grows (hwf : h.WellFormed) (hx : x.Ends w h (fun _ => GrownBut ∅ h) (· = h)) :
    x.SparesImmutables w h values :=
  of_ends hx fun _ hg => hg.spares hwf fun _ _ _ _ _ _ _ => Set.notMem_empty _

theorem of_run {result : Except Fault α} (hx : x.SparesImmutables w h values) (hrun : x w h = (result, h'))
    (hfatal : ∀ e, result ≠ .error (.fatal e)) : Heap.Spares (immutables w.registry values h.memory) h h' := by
  unfold SparesImmutables Ends at hx
  rw [hrun] at hx
  cases result with
  | ok a => exact hx
  | error e =>
    cases e with
    | error e => exact hx
    | fatal e => exact absurd rfl (hfatal e)

theorem bind_same (hx : x.SparesImmutables w h values)
    (hf : ∀ a h', (f a).Ends w h' (fun _ => (· = h')) (· = h')) : (x >>= f).SparesImmutables w h values := by
  refine Ends.bind hx (fun _ => id) fun a h' hspared => (hf a h').imp ?_ ?_
  · rintro _ _ rfl
    exact hspared
  · rintro _ rfl
    exact hspared

end SparesImmutables

theorem boxNumber_spares (hwf : h.WellFormed) (s : Slot) (t : TypeId) :
    (boxNumber s t).SparesImmutables w h values := by
  refine SparesImmutables.bind_same (.of_grows hwf (toDynamic_grows hwf ∅ s t)) fun v h' => ?_
  split
  · exact Ends.fail rfl
  · exact Ends.pure rfl

/-! Members by name. -/

section Members

variable (hs : Sound w.registry held ∅ h values)

include hs

theorem convert_spares (hslot : Suits w.registry values source s) :
    (convert s source target).SparesImmutables w h values :=
  .of_ends (convert_grows hs hslot) fun _ hg => hs.arranged.spares_of_conversion hg

theorem castPointer_spares (hslot : Suits w.registry values source s) :
    (castPointer s source target).SparesImmutables w h values :=
  .of_ends (castPointer_grows hs hslot) fun _ hg => hs.arranged.spares_of_conversion hg

theorem cast_spares (hslot : Suits w.registry values source s) :
    (cast s source target).SparesImmutables w h values :=
  .of_ends (cast_grows hs hslot) fun _ hg => hs.arranged.spares_of_conversion hg

theorem toView_spares (hv : v ∈ values) : (toView t v).SparesImmutables w h values :=
  .of_ends (toView_grows hs hv) fun _ hg => hs.arranged.spares_of_view hv hg

private theorem getMethod_spares {function : Nat} {type : TypeId} {receiver : Addr} (hb : w.registry.Built) :
    SparesImmutables
      (do
        if (← ask fun w _ => w.kind t).isPointer then
          let c ← bindMethod function type receiver
          return .pointer (← castPointer (.pointer c) (← look (·.typeOf c)) t)
        else
          fail (.invalidCast type t) : Action Slot) w h values := by
  have hrefl := Heap.Spares.refl (immutables w.registry values h.memory) h
  have hwf := hs.arranged.blocks
  refine Ends.ask_bind hrefl fun k _ => ?_
  split
  · refine ((bindMethod_keeps hb hs function receiver).and (bindMethod_grows hwf)).bind ?_ ?_
    · rintro h' ⟨-, hg⟩
      exact hg.spares hwf fun _ _ _ _ _ _ _ => Set.notMem_empty _
    · rintro c h' ⟨⟨values', hkept, hc⟩, hg⟩
      have hspared : Heap.Spares (immutables w.registry values h.memory) h h' :=
        hg.spares hwf fun _ _ _ _ _ _ _ => Set.notMem_empty _
      have hslot : WellTyped w.registry held values' h'.memory (h'.memory.typeOf c) (.pointer c) :=
        .of_leadsTo hc.2 rfl ⟨hc.1, Registry.sameType_refl _ _⟩
      have hthen : ∀ h'', Heap.Spares (immutables w.registry values' h'.memory) h' h'' →
          Heap.Spares (immutables w.registry values h.memory) h h'' := fun h'' hspared' =>
        hspared.trans hkept.blocks (hspared'.mono (immutables_goesOn hkept.goesOn))
      exact Ends.look_bind ((castPointer_spares hkept.sound hslot.suits).bind hthen
        fun a h'' hspared' => Ends.pure (hthen h'' hspared'))
  · exact Ends.fail hrefl

private theorem getFrom_spares_step {bound : Nat} (hb : w.registry.Built) (hv : v ∈ values)
    (hforward : ∀ u ∈ values, SparesImmutables
      (match bound with
        | 0 => fail .endlessViews
        | bound + 1 => getFrom hash t bound u) w h values) :
    (getFrom hash t bound v).SparesImmutables w h values := by
  have hrefl := Heap.Spares.refl (immutables w.registry values h.memory) h
  rw [getFrom.eq_def]
  dsimp only
  refine Ends.ask_bind hrefl fun target htarget => ?_
  have hsense := Access.locate_sensible hs.arranged hv htarget
  cases target with
  | stored address type =>
    refine Ends.ask_bind hrefl fun _ _ => Ends.ask_bind hrefl fun k hk => Ends.look_bind ?_
    exact convert_spares hs (hsense.wellTyped hs (World.kind_eq_ok.1 hk)).suits
  | method function type receiver => exact getMethod_spares hs hb
  | forward u => exact hforward u hsense

theorem get_spares (hb : w.registry.Built) (hv : v ∈ values) (hash : NameHash) (t : TypeId) :
    (get v hash t).SparesImmutables w h values := by
  unfold get
  refine Ends.chainBound_bind ?_
  generalize h.blocks.size + 1 = bound
  induction bound generalizing v with
  | zero => exact getFrom_spares_step hs hb hv fun u _ => Ends.fail (.refl _ _)
  | succ bound ih => exact getFrom_spares_step hs hb hv fun u hu => ih hu

theorem getInt32_spares (hb : w.registry.Built) (hv : v ∈ values) (hash : NameHash) (t : TypeId) :
    (getInt32 v hash t).SparesImmutables w h values := by
  refine (get_spares hs hb hv hash t).bind_same fun s h' => ?_
  split <;> first | exact Ends.pure rfl | exact Ends.fail rfl

theorem getF32_spares (hb : w.registry.Built) (hv : v ∈ values) (hash : NameHash) :
    (getF32 v hash).SparesImmutables w h values := by
  refine (get_spares hs hb hv hash .f32).bind_same fun s h' => ?_
  split <;> first | exact Ends.pure rfl | exact Ends.fail rfl

theorem getF64_spares (hb : w.registry.Built) (hv : v ∈ values) (hash : NameHash) :
    (getF64 v hash).SparesImmutables w h values := by
  refine (get_spares hs hb hv hash .f64).bind_same fun s h' => ?_
  split <;> first | exact Ends.pure rfl | exact Ends.fail rfl

theorem getPointer_spares (hb : w.registry.Built) (hv : v ∈ values) (hash : NameHash) (t : TypeId) :
    (getPointer v hash t).SparesImmutables w h values := by
  refine Ends.ask_bind (.refl _ _) fun k _ => ?_
  split
  · refine (get_spares hs hb hv hash t).bind_same fun s h' => ?_
    split <;> first | exact Ends.pure rfl | exact Ends.fail rfl
  · exact Ends.fail (.refl _ _)

private theorem setStored_spares {address : Nat} {type : TypeId}
    (hsense : Access.Sensible w.registry values h.memory (.stored address type))
    (hslot : WellTyped w.registry held values h.memory t s) :
    SparesImmutables
      (do
        let s ← convert s t type
        Action.change (·.write address s) : Action Unit) w h values := by
  refine ((convert_keeps hs hslot).and (convert_spares hs hslot.suits)).bind (fun _ => And.right) ?_
  rintro s' h' ⟨⟨values', hkept, hslot'⟩, hspared⟩
  obtain ⟨b, o, u, hb, hsame, rfl⟩ := hsense
  have hb' := hkept.holds b o u hb
  obtain ⟨k, hk, hfits, -⟩ := hslot'.of_sameType (Registry.sameType_symm hsame)
  have hstored := hkept.sound.arranged.spares_of_store hb' hk hfits (hb'.notMem_immutables hkept.sound.arranged)
  exact Ends.change (hspared.trans hkept.blocks (hstored.mono (immutables_goesOn hkept.goesOn)))

private theorem setFrom_spares_step {bound : Nat} (hv : v ∈ values)
    (hslot : WellTyped w.registry held values h.memory t s)
    (hforward : ∀ u ∈ values, SparesImmutables
      (match bound with
        | 0 => fail .endlessViews
        | bound + 1 => setFrom hash t s bound u : Action Unit) w h values) :
    (setFrom hash t s bound v).SparesImmutables w h values := by
  have hrefl := Heap.Spares.refl (immutables w.registry values h.memory) h
  rw [setFrom.eq_def]
  dsimp only
  refine Ends.ask_bind hrefl fun k hk => ?_
  have hkind : w.registry.kindAt h.memory v = some k := World.kind_eq_ok.1 hk
  by_cases hopen : k = .dynobj
  · rw [if_pos hopen]
    subst hopen
    obtain ⟨k, ht, hfits, -⟩ := id hslot
    refine (setOpenField_spares hs.toOrdered hv hkind hash ht hfits).imp ?_ fun _ => False.elim
    rintro _ h' ⟨-, hspared⟩
    exact hspared.mono (immutables_subset_bystanders hkind)
  · rw [if_neg hopen]
    refine Ends.ask_bind hrefl fun target htarget => ?_
    have hsense := Access.locate_sensible hs.arranged hv htarget
    cases target with
    | stored address type => exact setStored_spares hs hsense hslot
    | method function type receiver => exact Ends.fail hrefl
    | forward u => exact hforward u hsense

theorem set_spares (hv : v ∈ values) (hash : NameHash)
    (hslot : ∀ k, w.registry.kind? t = some k → s.fits k = true →
      WellTyped w.registry held values h.memory t s) :
    (set v hash t s).SparesImmutables w h values := by
  unfold set
  refine Ends.ask_bind (.refl _ _) fun k hk => ?_
  by_cases hfits : s.fits k = true
  · rw [if_pos hfits]
    have hslot' := hslot k (World.kind_eq_ok.1 hk) hfits
    refine Ends.chainBound_bind ?_
    generalize h.blocks.size + 1 = bound
    induction bound generalizing v with
    | zero => exact setFrom_spares_step hs hv hslot' fun u _ => Ends.fail (.refl _ _)
    | succ bound ih => exact setFrom_spares_step hs hv hslot' fun u hu => ih hu
  · rw [if_neg hfits]
    exact Ends.fail (.refl _ _)

theorem setNumber_spares (hv : v ∈ values) (hash : NameHash) (t : TypeId) (hnumber : ∀ a, s ≠ .pointer a) :
    (set v hash t s).SparesImmutables w h values :=
  set_spares hs hv hash fun _ hk hfits => .of_not_pointer hk hfits hnumber

theorem setInt32_spares (hv : v ∈ values) (hash : NameHash) (t : TypeId) (n : Int32) :
    (setInt32 v hash t n).SparesImmutables w h values := by
  refine Ends.ask_bind (.refl _ _) fun k _ => ?_
  split
  · rename_i s hs'
    split_ifs at hs'
    exact setNumber_spares hs hv hash t (Number.ne_pointer_of_toSlot? hs')
  · exact Ends.fail (.refl _ _)

theorem setElement_spares {i length : Nat} (hv : v ∈ values)
    (hparts : ArrayValue.parts (.ofTypes w.registry) h.memory v = .ok (t, length)) (hi : i < length)
    (hk : w.registry.kind? t = some k) (hfits : s.fits k = true) :
    (setElement v i s).SparesImmutables w h values := by
  obtain ⟨place, size, hplace, howns, hlow, hhigh⟩ := element_placed hs.arranged hv hparts hi hk
  refine Ends.ask_bind (.refl _ _) fun element helement => ?_
  obtain rfl := Except.ok.inj (hplace.symm.trans helement)
  have hchange := Memory.changesOnly_write h.memory place s
  rw [Slot.width_of_fits hfits] at hchange
  exact Ends.change (.of_changes hs.arranged.blocks howns (notMem_immutables (parts_ok hparts).1 rfl) hchange
    (Nat.le_of_add_right_le hlow) hhigh)

end Members

theorem newBytes_spares {quiet : Set Addr} (hwf : h.WellFormed) (size : UInt64) :
    (newBytes size).Ends w h (fun _ h' => Heap.Spares quiet h h') (fun _ => False) := by
  unfold Ends newBytes allocateRaw
  cases hok : h.allocate size .noPointers with
  | error e => trivial
  | ok result => exact .of_below hwf (Heap.allocate_ok hwf hok).1.same

theorem copyBytes_spares {quiet : Set Addr} (hwf : h.WellFormed) (bytes : List UInt8) :
    (copyBytes bytes).Ends w h (fun _ h' => Heap.Spares quiet h h') (fun _ => False) := by
  unfold copyBytes
  refine (allocate_ends hwf _ _).bind (fun _ => id) ?_
  rintro a h' ⟨hg, -⟩
  have hg' := hg.change le_rfl (Memory.changesOnly_setBytes h'.memory a.toNat bytes)
  exact Ends.change_bind (Ends.pure (.of_below hwf hg'.same))

/-- No operation writes to an immutable value. -/
theorem Permitted.spares {α : Type} {x : Action α} (hx : x.Permitted w.registry held values h.memory)
    (hb : w.registry.Built) (hs : Sound w.registry held ∅ h values) : x.SparesImmutables w h values := by
  have hwf := hs.arranged.blocks
  cases hx with
  | newBox => exact .of_grows hwf (newBox_grows hwf _)
  | newInstance t => exact .of_grows hwf (newInstance_grows hwf t)
  | newArray element length => exact .of_grows hwf (newArray_grows hwf element length)
  | setElement hv hparts hi hk hfits => exact setElement_spares hs hv hparts hi hk hfits
  | newOpenObject => exact .of_grows hwf (newValue_grows hwf _)
  | newStandalone t => exact .of_grows hwf (newStandalone_grows hwf t)
  | newVariant t index => exact .of_grows hwf (newVariant_grows hwf t index)
  | makeVariant t index args => exact .of_grows hwf (makeVariant_grows hwf t index args)
  | newClosure function code => exact .of_grows hwf (newClosure_grows hwf function code)
  | bindClosure function code => exact .of_grows hwf (bindClosure_grows hwf function code _)
  | toDynamic => exact .of_grows hwf (toDynamic_grows hwf ∅ _ _)
  | boxNumber => exact boxNumber_spares hwf _ _
  | toView t hv => exact toView_spares hs hv
  | cast target hslot => exact cast_spares hs hslot.suits
  | castPointer target hslot => exact castPointer_spares hs hslot.suits
  | get hash t hv => exact get_spares hs hb hv hash t
  | getInt32 hash t hv => exact getInt32_spares hs hb hv hash t
  | getF32 hash hv => exact getF32_spares hs hb hv hash
  | getF64 hash hv => exact getF64_spares hs hb hv hash
  | getPointer hash t hv => exact getPointer_spares hs hb hv hash t
  | set hash hv hslot => exact set_spares hs hv hash fun _ _ _ => hslot
  | setInt32 hash t n hv => exact setInt32_spares hs hv hash t n
  | setF32 hash bits hv => exact setNumber_spares hs hv hash _ (by simp)
  | setF64 hash bits hv => exact setNumber_spares hs hv hash _ (by simp)
  | setPointer hash hv hslot => exact set_spares hs hv hash fun _ _ _ => hslot

end Action

theorem Step.spares {s : Heap × Set Addr} (hstep : Step r held (h, values) s) (hb : r.Built)
    (hs : Sound r held ∅ h values) : Heap.Spares (immutables r values h.memory) h s.1 := by
  have hwf := hs.arranged.blocks
  cases hstep with
  | @operation _ x w _ _ _ result hw hx hrun hfatal =>
    subst hw
    exact (hx.spares hb hs).of_run hrun hfatal
  | newBytes hrun => exact (Action.newBytes_spares hwf _).of_ok hrun
  | copyBytes hrun => exact (Action.copyBytes_spares hwf _).of_ok hrun

/-- The immutable values of a program stay as they are, byte by byte, whatever it does. -/
theorem Run.spares {s : Heap × Set Addr} (hrun : Run r held (h, values) s) (hb : r.Built)
    (hr : Reachable r held h values) :
    h.Extends s.1 ∧ Heap.Spares (immutables r values h.memory) h s.1 := by
  -- A step spares what is immutable then, and so what was immutable at the start.
  induction hrun with
  | refl => exact ⟨.refl h, .refl _ h⟩
  | tail hbefore hstep ih =>
    obtain ⟨hext, hspared⟩ := ih
    obtain ⟨hreach, hgo⟩ := Run.goesOn hbefore hb hr
    have hsound := hreach.sound hb
    exact ⟨hext.trans (hstep.follows hb hsound).blocks,
      hspared.trans hext ((hstep.spares hb hsound).mono (immutables_goesOn hgo))⟩

end ObjectModel
