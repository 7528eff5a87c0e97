import ObjectModel.Proofs.Value.Failures
import ObjectModel.Proofs.Value.InstanceViews
import ObjectModel.Proofs.Value.Receivers

/-!
Checks of calls and conversions. An argument of a type that the check of a call accepts is converted to the
type of the parameter, with one exception: for a virtual parameter the check looks at the kinds of the types
only, as the members of an open object are known at run time only. There a conversion succeeds if the value
has the members that are asked for.
-/

set_option autoImplicit false
set_option relaxedAutoImplicit false

namespace ObjectModel

variable {r : Registry} {held : Addr → TypeId → Prop} {values : Set Addr} {h h' : Heap} {a c u v x : Addr}
  {t p source target : TypeId} {m : Memory} {w : World} {s : Slot} {k : Kind} {l : ViewLayout}

namespace Closure

variable {params args : List TypeId} {ret : TypeId}

theorem checkArguments_ok {position : Nat} (hlength : params.length = args.length)
    (h : checkArguments w position params args = .ok ()) :
    List.Forall₂ (fun p t => accepts w p t = .ok true) params args := by
  induction params generalizing args position with
  | nil =>
    obtain rfl := List.length_eq_zero_iff.1 hlength.symm
    exact .nil
  | cons p ps ih =>
    cases args with
    | nil => cases hlength
    | cons t ts =>
      rw [checkArguments] at h
      obtain ⟨accepted, haccepts, h⟩ := Outcome.bind_eq_ok.1 h
      cases accepted with
      | false => cases h
      | true => exact .cons haccepts (ih (by simpa using hlength) h)

theorem checkCall_ok (h : checkCall w m c args ret = .ok ()) :
    ∃ params result, signature w m c = .ok (params, result) ∧
      List.Forall₂ (fun p t => accepts w p t = .ok true) params args := by
  unfold checkCall at h
  obtain ⟨⟨params, result⟩, hsignature, h⟩ := Outcome.bind_eq_ok.1 h
  by_cases hlength : params.length = args.length
  · simp only [hlength, ne_eq, not_true_eq_false, if_false] at h
    obtain ⟨_, harguments, -⟩ := Outcome.bind_eq_ok.1 h
    exact ⟨params, result, hsignature, checkArguments_ok hlength harguments⟩
  · simp only [ne_eq, hlength, not_false_eq_true, if_true] at h
    cases h

end Closure

namespace Action

variable {α β : Type}

/-- An operation is not refused: it ends well, unless the program ends with it as the heap is used up. -/
def Succeeds (x : Action α) (w : World) (h : Heap) : Prop :=
  (∃ a h', x w h = (.ok a, h')) ∨ ∃ e h', x w h = (.error (.fatal e), h')

theorem Sure.succeeds {x : Action α} (hx : x.Sure) (w : World) (h : Heap) : x.Succeeds w h := by
  cases hrun : x w h with
  | mk result h' =>
    cases result with
    | ok a => exact Or.inl ⟨a, h', hrun⟩
    | error fault =>
      cases fault with
      | error e => exact absurd (congrArg Prod.fst hrun) (hx w h e)
      | fatal e => exact Or.inr ⟨e, h', hrun⟩

namespace Succeeds

variable {x : Action α} {f : α → Action β}

theorem of_ok {a : α} (hx : x w h = (.ok a, h')) : x.Succeeds w h := Or.inl ⟨a, h', hx⟩

theorem not_of_error {e : ValueError} (hx : x w h = (.error (.error e), h')) : ¬x.Succeeds w h := by
  rintro (⟨a, h'', hok⟩ | ⟨e', h'', hfatal⟩)
  · cases hx.symm.trans hok
  · cases hx.symm.trans hfatal

theorem congr {y : Action α} (hxy : x w h = y w h) : x.Succeeds w h ↔ y.Succeeds w h := by
  rw [Succeeds, Succeeds, hxy]

theorem bind_iff (hf : ∀ a, (f a).Sure) : (x >>= f).Succeeds w h ↔ x.Succeeds w h := by
  cases hrun : x w h with
  | mk result h' =>
    cases result with
    | ok a =>
      have hnext := (hf a).succeeds w h'
      rw [Succeeds, bind_ok hrun]
      exact iff_of_true hnext (of_ok hrun)
    | error fault =>
      rw [Succeeds, Succeeds, bind_error hrun, hrun]
      simp

end Succeeds

/-! Numbers, raw addresses and values that go where anything goes. -/

theorem toDynamic_succeeds (hk : w.registry.kind? t = some k) (hfits : s.fits k = true) :
    (toDynamic s t).Succeeds w h := by
  have hfill : (toDynamic.fill s t).Succeeds w h := by
    refine (Succeeds.bind_iff fun v => .bind (.change _) fun _ => .pure v).2 ?_
    rw [newBox, Succeeds.congr (ask_bind_ok (World.kind_eq_ok.2 hk))]
    exact (newValue_sure _ _ t).succeeds w h
  unfold toDynamic
  rw [Succeeds.congr (ask_bind_ok (World.kind_eq_ok.2 hk)), if_pos hfits]
  cases s with
  | void => exact .of_ok rfl
  | pointer a =>
    dsimp only
    split
    · exact .of_ok rfl
    · exact hfill
  | _ => exact hfill

end Action

/-! Views. -/

namespace View

/-- A value that views show has a member whose name has this hash: it stores one, or its class has a method. -/
def HasMember (r : Registry) (m : Memory) (u : Addr) (hash : NameHash) : Prop :=
  (∃ offset t, StoredIn r m u hash offset t) ∨
    ∃ c slot function t, r.classLayout (m.typeOf u) = .ok c ∧ c.resolve? hash = some (.method slot function t)

theorem hasMember_instance {C : ClassLayout} {hash : NameHash} (hc : r.classLayout (m.typeOf u) = .ok C)
    (h : HasMember r m u hash) : ∃ member, C.resolve? hash = some member := by
  have hobject : r.kindAt m u = some .object := Registry.kind?_of_classLayout hc
  rcases h with ⟨offset, t, hstored⟩ | ⟨c', slot, function, t, hc', hmethod⟩
  · cases hstored with
    | «instance» hc' hfield =>
      obtain rfl := Except.ok.inj (hc.symm.trans hc')
      exact ⟨_, hfield⟩
    | openField hk => exact absurd hk (kindAt_ne hobject (by decide))
    | standalone hl => exact absurd (Registry.kind?_of_viewLayout hl) (kindAt_ne hobject (by decide))
  · obtain rfl := Except.ok.inj (hc.symm.trans hc')
    exact ⟨_, hmethod⟩

theorem hasMember_open {hash : NameHash} (hk : r.kindAt m u = some .dynobj) (h : HasMember r m u hash) :
    ∃ f, OpenObject.find? (OpenObject.table m u) hash = some f := by
  rcases h with ⟨offset, t, hstored⟩ | ⟨c', slot, function, t, hc', -⟩
  · cases hstored with
    | «instance» hc => exact absurd (Registry.kind?_of_classLayout hc) (kindAt_ne hk (by decide))
    | openField _ hf => exact ⟨_, hf⟩
    | standalone hl => exact absurd (Registry.kind?_of_viewLayout hl) (kindAt_ne hk (by decide))
  · exact absurd (Registry.kind?_of_classLayout hc') (kindAt_ne hk (by decide))

theorem hasMember_standalone {source : ViewLayout} {hash : NameHash}
    (hl : r.viewLayout (m.typeOf u) = .ok source) (h : HasMember r m u hash) :
    ∃ i p, source.position? hash = some i ∧ source.fields.get? i = some p := by
  have hview : r.kindAt m u = some .virtual := Registry.kind?_of_viewLayout hl
  rcases h with ⟨offset, t, hstored⟩ | ⟨c', slot, function, t, hc', -⟩
  · cases hstored with
    | «instance» hc => exact absurd (Registry.kind?_of_classLayout hc) (kindAt_ne hview (by decide))
    | openField hk => exact absurd hk (kindAt_ne hview (by decide))
    | standalone hl' hi hp =>
      obtain rfl := Except.ok.inj (hl.symm.trans hl')
      exact ⟨_, _, hi, hp⟩
  · exact absurd (Registry.kind?_of_classLayout hc') (kindAt_ne hview (by decide))

theorem exists_paths_iff (hs : Arranged w.registry ∅ h values) (hu : u ∈ values)
    (hroot : IsRoot w.registry h.memory u) :
    (∃ paths, View.paths w h.memory l u = .ok paths) ↔
      ∀ f ∈ l.fields.values, HasMember w.registry h.memory u f.hash := by
  constructor
  · rintro ⟨paths, hpaths⟩ f hf
    have hreach := paths_ok hpaths
    obtain ⟨i, hi⟩ := List.mem_iff_getElem?.1 hf
    have hlt : i < paths.length := hreach.length_eq ▸ (List.getElem?_eq_some_iff.1 hi).1
    rcases hreach.cases_at hi (List.getElem?_eq_getElem hlt) with
      ⟨offset, t, hstored, -⟩ | ⟨c, slot, function, t, hc, hmethod, -⟩
    · exact Or.inl ⟨offset, t, hstored⟩
    · exact Or.inr ⟨c, slot, function, t, hc, hmethod⟩
  · intro hall
    rcases hroot with hk | hk | ⟨hk, hzero⟩
    · obtain ⟨c, hc, -⟩ := hs.instances u hu hk
      rw [paths_instance hc]
      refine require_of_isSome fun f hf => ?_
      obtain ⟨member, hmember⟩ := hasMember_instance hc (hall f hf)
      simp [instancePath?_eq, hmember]
    · have hopen : View.paths w h.memory l u =
          require (openPath? w.registry (OpenObject.table h.memory u)) l.fields.values := by
        unfold View.paths
        dsimp only
        rw [World.kind_eq_ok.2 hk]
        rfl
      rw [hopen]
      refine require_of_isSome fun f hf => ?_
      obtain ⟨o, ho⟩ := hasMember_open hk (hall f hf)
      simp [openPath?, ho]
    · obtain ⟨source, hsource, -⟩ := hs.views u hu hk
      have hstandalone : View.paths w h.memory l u =
          require (standalonePath? w.registry source) l.fields.values := by
        unfold View.paths
        dsimp only
        rw [World.kind_eq_ok.2 hk, hsource]
        rfl
      rw [hstandalone]
      refine require_of_isSome fun f hf => ?_
      obtain ⟨i, q, hi, hq⟩ := hasMember_standalone hsource (hall f hf)
      simp [standalonePath?, hi, hq]

theorem findInChain_eq_none {bound : Nat} {head : Addr} {chain : List Addr} (hl : Linked m head chain)
    (hbound : chain.length ≤ bound) (hdiffer : ∀ x ∈ chain, r.sameType (m.typeOf x) t = false) :
    findInChain r m t bound head = .ok none := by
  induction chain generalizing head bound with
  | nil =>
    obtain rfl : head = 0 := hl
    rw [findInChain.eq_def]
    rfl
  | cons x rest ih =>
    obtain ⟨rfl, hne, hrest⟩ := hl
    have hother : ¬r.sameType (m.typeOf head) t = true := by simp [hdiffer head List.mem_cons_self]
    rw [findInChain.eq_def]
    dsimp only
    rw [if_neg hne, if_neg hother]
    cases bound with
    | zero => simp at hbound
    | succ bound =>
      exact ih hrest (by simpa using hbound) fun x hx => hdiffer x (List.mem_cons_of_mem head hx)

end View

/-- A root can be shown as a virtual type: it is seen as a value of the type already, or the type has a layout
and the root has a member for each field. -/
def Showable (r : Registry) (values : Set Addr) (m : Memory) (t : TypeId) (u : Addr) : Prop :=
  (IsChained r m u ∧ ∃ x, SeenAs r values m t u x) ∨
    ∃ l, r.viewLayout t = .ok l ∧ ∀ f ∈ l.fields.values, View.HasMember r m u f.hash

namespace Action

theorem newView_succeeds_iff (hs : Arranged w.registry ∅ h values) (hu : u ∈ values)
    (hroot : IsRoot w.registry h.memory u) : (newView t u).Succeeds w h ↔
      ∃ l, w.registry.viewLayout t = .ok l ∧ ∀ f ∈ l.fields.values, View.HasMember w.registry h.memory u f.hash := by
  unfold newView
  cases hl : w.registry.viewLayout t with
  | error e =>
    have hask : ask (fun w _ => .ofLayout (w.registry.viewLayout t)) w h = (.error (.error (.layout e)), h) :=
      ask_error (by rw [hl]; rfl)
    refine iff_of_false (Succeeds.not_of_error (bind_error hask)) ?_
    rintro ⟨l, hl', -⟩
    cases hl'
  | ok l =>
    rw [Succeeds.congr (ask_bind_ok (Outcome.mapError_eq_ok.2 hl))]
    simp only [Except.ok.injEq, exists_eq_left']
    rw [← View.exists_paths_iff (l := l) hs hu hroot]
    cases hpaths : View.paths w h.memory l u with
    | error e =>
      refine iff_of_false (Succeeds.not_of_error (bind_error (ask_error hpaths))) ?_
      rintro ⟨paths, hok⟩
      cases hok
    | ok paths =>
      rw [Succeeds.congr (ask_bind_ok hpaths)]
      refine iff_of_true ?_ ⟨paths, rfl⟩
      exact (Sure.bind (newValue_sure _ _ t) fun v => .bind (.change _) fun _ => .pure v).succeeds w h

private theorem toViewFrom_instance {bound : Nat} (hk : w.registry.kindAt h.memory u = some .object) :
    toViewFrom t bound u w h = newView t u w h := by
  rw [toViewFrom.eq_def]
  dsimp only
  rw [look_bind, ask_bind_ok (World.kind_eq_ok.2 hk)]

private theorem chainedView_succeeds_iff (hs : Ordered w.registry ∅ h values) (hu : u ∈ values)
    (hchained : IsChained w.registry h.memory u)
    (hunseen : ¬∃ x, SeenAs w.registry values h.memory t u x)
    (hother : w.registry.sameType (h.memory.typeOf u) t = false) :
    (chainedView t u (chainHead w.registry h.memory u)).Succeeds w h ↔ (newView t u).Succeeds w h := by
  obtain ⟨chain, hchain⟩ := hs.chains u hu hchained
  have hlength := length_le_blocks hs.arranged hchain.nodup fun x hx => ((hchain.mem x).1 hx).1
  have hdiffer : ∀ x ∈ chain, w.registry.sameType (h.memory.typeOf x) t = false := by
    intro x hx
    obtain ⟨hxv, hk, hwrapped⟩ := (hchain.mem x).1 hx
    refine Bool.eq_false_iff.2 fun hsame => hunseen ⟨x, hxv, hsame, hk, ?_, fun _ => hwrapped⟩
    rw [hother]
    exact fun hself => absurd hself Bool.false_ne_true
  have hask : ask (fun w' m => View.findInChain w'.registry m t (h.blocks.size + 1)
      (h.memory.word (chainHead w.registry h.memory u))) w h = (.ok none, h) :=
    ask_ok (View.findInChain_eq_none hchain.linked (hlength.trans (Nat.le_succ _)) hdiffer)
  unfold chainedView Succeeds
  rw [chainBound_bind, look_bind, bind_ok hask]
  exact Succeeds.bind_iff fun v => .bind (.change _) fun _ => .pure v

private theorem toViewFrom_root_succeeds_iff {bound : Nat} (hs : Ordered w.registry ∅ h values) (hu : u ∈ values)
    (hroot : IsRoot w.registry h.memory u) (ht : w.registry.kind? t = some .virtual) :
    (toViewFrom t bound u).Succeeds w h ↔ Showable w.registry values h.memory t u := by
  unfold Showable
  rw [← newView_succeeds_iff hs.arranged hu hroot]
  rcases hroot with hk | hchained
  · -- An instance has no chain, so each view of it is a new one.
    have hunchained : ¬IsChained w.registry h.memory u := by
      rintro (hopen | ⟨hview, -⟩)
      · exact absurd hopen (kindAt_ne hk (by decide))
      · exact absurd hview (kindAt_ne hk (by decide))
    rw [Succeeds.congr (toViewFrom_instance hk)]
    exact ⟨Or.inr, fun h => h.resolve_left fun hseen => hunchained hseen.1⟩
  · have hkind : w.registry.sameType (h.memory.typeOf u) t = true →
        w.registry.kindAt h.memory u = some .virtual :=
      fun hself => (Registry.kind?_eq_of_sameType hself).trans ht
    by_cases hseen : ∃ x, SeenAs w.registry values h.memory t u x
    · refine iff_of_true ?_ (Or.inl ⟨hchained, hseen⟩)
      obtain ⟨x, hx⟩ := hseen
      cases hself : w.registry.sameType (h.memory.typeOf u) t with
      | true =>
        exact .of_ok (toViewFrom_self (hkind hself) hself bound)
      | false =>
        rw [Succeeds.congr (toViewFrom_chained hchained hself bound)]
        exact .of_ok (chainedView_found hs hu hchained hx.mem hx.kind (hx.shown hself) hx.type)
    · have hother : w.registry.sameType (h.memory.typeOf u) t = false := by
        refine Bool.eq_false_iff.2 fun hself => hseen ⟨u, hu, hself, hkind hself, fun _ => rfl, ?_⟩
        rw [hself]
        exact fun hdiffers => absurd hdiffers.symm Bool.false_ne_true
      rw [Succeeds.congr (toViewFrom_chained hchained hother bound),
        chainedView_succeeds_iff hs hu hchained hseen hother]
      exact ⟨Or.inr, fun h => h.resolve_left fun hfound => hseen hfound.2⟩

/-- A value that is not of a virtual type itself is shown as the type exactly if its root can be. -/
theorem toView_succeeds_iff (hs : Ordered w.registry ∅ h values) (hu : u ∈ values)
    (hroot : RootOf w.registry h.memory u v) (ht : w.registry.kind? t = some .virtual)
    (hother : w.registry.sameType (h.memory.typeOf v) t = false) :
    (toView t v).Succeeds w h ↔ Showable w.registry values h.memory t u := by
  change (toViewFrom t (h.blocks.size + 1) v).Succeeds w h ↔ _
  rcases hroot.reached with rfl | ⟨hk, rfl⟩
  · exact toViewFrom_root_succeeds_iff hs hu hroot.root ht
  · rw [Succeeds.congr (toViewFrom_shown hk hother hroot.ne_zero h.blocks.size)]
    exact toViewFrom_root_succeeds_iff hs hu hroot.root ht

/-! Casts of arguments. -/

theorem cast_succeeds_iff (hk : w.registry.kind? source = some k) (hfits : s.fits k = true) :
    (cast s source target).Succeeds w h ↔ (convert s source target).Succeeds w h := by
  unfold cast
  rw [Succeeds.congr (ask_bind_ok (World.kind_eq_ok.2 hk)), if_pos hfits]

theorem convert_succeeds_iff (hk : w.registry.kind? target = some k) (hpointer : k.isPointer = true) :
    (convert s source target).Succeeds w h ↔ (castPointer s source target).Succeeds w h := by
  have hvoid : k ≠ .void := by
    rintro rfl
    cases hpointer
  have hnumeric : ¬k.isNumeric = true := by
    cases k <;> first | exact absurd hpointer Bool.false_ne_true | decide
  unfold convert
  rw [Succeeds.congr (ask_bind_ok (World.kind_eq_ok.2 hk)), if_neg hvoid, if_neg hnumeric]
  exact Succeeds.bind_iff fun a => .pure _

theorem castPointer_dynamic (hk : w.registry.kind? source = some k) (hfits : s.fits k = true)
    (hdynamic : w.registry.kind? target = some .dynamic) : (castPointer s source target).Succeeds w h := by
  unfold castPointer
  rw [Succeeds.congr (ask_bind_ok (World.kind_eq_ok.2 hk)),
    Succeeds.congr (ask_bind_ok (World.kind_eq_ok.2 hdynamic))]
  cases s with
  | void => exact .of_ok rfl
  | pointer a =>
    dsimp only
    rw [Succeeds.congr world_bind, if_pos rfl]
    split
    · exact .of_ok rfl
    · split
      · exact .of_ok rfl
      · exact toDynamic_succeeds hk hfits
  | _ => exact toDynamic_succeeds hk hfits

theorem castPointer_null {k' : Kind} (hk : w.registry.kind? source = some k)
    (hk' : w.registry.kind? target = some k') (hzero : a = 0) :
    castPointer (.pointer a) source target w h = (.ok a, h) := by
  unfold castPointer
  rw [ask_bind_ok (World.kind_eq_ok.2 hk), ask_bind_ok (World.kind_eq_ok.2 hk')]
  dsimp only
  rw [world_bind, if_pos (Or.inl hzero)]
  rfl

theorem castPointer_value {k' l : Kind} (hne : a ≠ 0) (hother : w.registry.sameType source target = false)
    (hsource : w.registry.kind? source = some k) (hself : k.isSelfDescribing = true)
    (htarget : w.registry.kind? target = some k') (hdynamic : k' ≠ .dynamic)
    (hl : w.registry.kindAt h.memory a = some l) (hraw : l.isRaw = false) :
    castPointer (.pointer a) source target w h = castActual a (h.memory.typeOf a) target k' w h := by
  have hactual : Coercion.actual w h.memory a source k = .ok (a, h.memory.typeOf a) := by
    unfold Coercion.actual
    rw [if_pos hself]
    dsimp only
    rw [World.kind_eq_ok.2 hl]
    change Except.ok ((if l.isRaw = true then _ else _), _) = _
    rw [hraw, if_neg Bool.false_ne_true]
  have hkept : ¬(a = 0 ∨ w.registry.sameType source target = true) := by
    rw [hother]
    exact fun h => h.elim hne Bool.false_ne_true
  unfold castPointer
  rw [ask_bind_ok (World.kind_eq_ok.2 hsource), ask_bind_ok (World.kind_eq_ok.2 htarget)]
  dsimp only
  rw [world_bind, if_neg hkept, if_neg hdynamic, ask_bind_ok hactual]

theorem castPointer_selfDescribing (hsource : w.registry.kind? source = some k)
    (hself : k.isSelfDescribing = true) (htarget : w.registry.kind? target = some .dynamic) :
    castPointer (.pointer a) source target w h = (.ok a, h) := by
  unfold castPointer
  rw [ask_bind_ok (World.kind_eq_ok.2 hsource), ask_bind_ok (World.kind_eq_ok.2 htarget)]
  dsimp only
  rw [world_bind, if_pos rfl, if_pos hself, ite_self]
  rfl

theorem castActual_subclass (hobject : w.registry.kindAt h.memory a = some .object)
    (hsub : w.registry.isSubclass (h.memory.typeOf a) target = true) :
    castActual a (h.memory.typeOf a) target .object w h = (.ok a, h) := by
  unfold castActual
  rw [world_bind, ask_bind_ok (World.kind_eq_ok.2 hobject)]
  simp only [decide_true, hsub, Bool.and_self, if_true]
  rfl

theorem castActual_view (hk : w.registry.kindAt h.memory a = some k)
    (hmembers : k = .object ∨ k = .dynobj ∨ k = .virtual) :
    castActual a (h.memory.typeOf a) target .virtual w h = toView target a w h := by
  unfold castActual
  rw [world_bind, ask_bind_ok (World.kind_eq_ok.2 hk)]
  dsimp only
  rw [if_pos hmembers]

end Action

theorem Arranged.exists_rootOf (hs : Arranged r ∅ h values) (hv : v ∈ values)
    (hk : r.kindAt h.memory v = some k) (hmembers : k = .object ∨ k = .dynobj ∨ k = .virtual) :
    ∃ u ∈ values, RootOf r h.memory u v := by
  have hself : IsRoot r h.memory v → ∃ u ∈ values, RootOf r h.memory u v :=
    fun hroot => ⟨v, hv, hs.ne_zero hv, hroot, Or.inl rfl⟩
  rcases hmembers with rfl | rfl | rfl
  · exact hself (Or.inl hk)
  · exact hself (Or.inr (Or.inl hk))
  · by_cases hzero : View.wrapped h.memory v = 0
    · exact hself (Or.inr (Or.inr ⟨hk, hzero⟩))
    · obtain ⟨l, -, hat⟩ := hs.views v hv hk
      obtain ⟨hmem, hroot, -⟩ := hat.shown hzero
      exact ⟨_, hmem, hzero, hroot, Or.inr ⟨hk, rfl⟩⟩

namespace Closure

variable {w' : World}

/-- The conversion of an argument that is accepted, but for values that have to be shown by a view. -/
theorem cast_of_accepts (hb : w.registry.Built) (haccepts : accepts w' p t = .ok true)
    (hw : w'.registry = w.registry) (hslot : WellTyped w.registry held values h.memory t s)
    (hview : w.registry.kind? p = some .virtual → w.registry.sameType p t = true ∨ s = .pointer 0) :
    (Action.cast s t p).Succeeds w h := by
  obtain ⟨k, hk, hfits, hleads⟩ := hslot
  rw [Action.cast_succeeds_iff hk hfits]
  have hsame : w.registry.sameType p t = true → (Action.convert s t p).Succeeds w h := fun hsame =>
    .of_ok (Action.convert_same hk hfits (Registry.sameType_symm hsame))
  rcases accepts_ok haccepts with hok | ⟨k', l, hp, hl, hkinds⟩
  · exact hsame (hw ▸ hok)
  rw [hw] at hp hl hkinds
  obtain rfl := Option.some.inj (hk.symm.trans hl)
  rcases hkinds with rfl | ⟨rfl, hsub⟩ | ⟨rfl, -⟩
  · rw [Action.convert_succeeds_iff hp rfl]
    exact Action.castPointer_dynamic hk hfits hp
  · by_cases hself : w.registry.sameType p t = true
    · exact hsame hself
    obtain rfl : k = .object := Option.some.inj (hk.symm.trans (Registry.kind?_of_isSubclass hsub hp))
    rw [Action.convert_succeeds_iff hp rfl]
    obtain ⟨⟨⟩, -⟩ | ⟨⟨⟩, -⟩ | ⟨-, a, rfl⟩ := Slot.cases_of_fits hfits
    by_cases hzero : a = 0
    · exact .of_ok (Action.castPointer_null hk hp hzero)
    · obtain ⟨hmem, hvalue⟩ := hleads a rfl hzero
      have hobject : w.registry.kindAt h.memory a = some .object := Registry.kind?_of_isSubclass hvalue hk
      have hother : w.registry.sameType t p = false := by
        rw [Registry.sameType_comm]
        exact Bool.eq_false_iff.2 hself
      rw [Action.Succeeds.congr (Action.castPointer_value hzero hother hk rfl hp (by decide) hobject rfl)]
      exact .of_ok (Action.castActual_subclass hobject (hb.isSubclass_trans hvalue hsub))
  · rcases hview hp with hself | rfl
    · exact hsame hself
    · rw [Action.convert_succeeds_iff hp rfl]
      exact .of_ok (Action.castPointer_null hk hp rfl)

theorem cast_view_of_accepts (hs : Ordered w.registry ∅ h values) (haccepts : accepts w' p t = .ok true)
    (hw : w'.registry = w.registry) (hslot : WellTyped w.registry held values h.memory t (.pointer a))
    (hp : w.registry.kind? p = some .virtual) (hother : w.registry.sameType p t = false) (hne : a ≠ 0) :
    ∃ u ∈ values, RootOf w.registry h.memory u a ∧
      ((Action.cast (.pointer a) t p).Succeeds w h ↔ Showable w.registry values h.memory p u) := by
  obtain ⟨k, hk, hfits, hleads⟩ := hslot
  rcases accepts_ok haccepts with hok | ⟨k', l, hp', hl, hkinds⟩
  · rw [hw, hother] at hok
    cases hok
  rw [hw] at hp' hl hkinds
  obtain rfl := Option.some.inj (hk.symm.trans hl)
  obtain rfl := Option.some.inj (hp.symm.trans hp')
  have hmembers : k = .object ∨ k = .dynobj ∨ k = .virtual := by
    rcases hkinds with hnot | ⟨hnot, -⟩ | ⟨-, hmembers⟩
    · cases hnot
    · cases hnot
    · exact hmembers
  rw [Registry.sameType_comm] at hother
  have hvalue : a ∈ values ∧ w.registry.kindAt h.memory a = some k ∧
      w.registry.sameType (h.memory.typeOf a) p = false := by
    have hleads := hleads a rfl hne
    rcases hmembers with rfl | rfl | rfl
    · obtain ⟨hmem, hsub⟩ := hleads
      have hobject := Registry.kind?_of_isSubclass hsub hk
      exact ⟨hmem, hobject, Registry.sameType_eq_false_of_kind hobject hp (by decide)⟩
    · obtain ⟨hmem, hsame⟩ := hleads
      have hopen := (Registry.kind?_eq_of_sameType hsame).trans hk
      exact ⟨hmem, hopen, Registry.sameType_eq_false_of_kind hopen hp (by decide)⟩
    · obtain ⟨hmem, hsame⟩ := hleads
      refine ⟨hmem, (Registry.kind?_eq_of_sameType hsame).trans hk, Bool.eq_false_iff.2 fun hself => ?_⟩
      rw [Registry.sameType_trans (Registry.sameType_symm hsame) hself] at hother
      cases hother
  obtain ⟨hmem, hkind, hdiffers⟩ := hvalue
  obtain ⟨u, hu, hroot⟩ := hs.arranged.exists_rootOf hmem hkind hmembers
  have hself : k.isSelfDescribing = true ∧ k.isRaw = false := by
    rcases hmembers with rfl | rfl | rfl <;> decide
  refine ⟨u, hu, hroot, ?_⟩
  rw [Action.cast_succeeds_iff hk hfits, Action.convert_succeeds_iff hp rfl,
    Action.Succeeds.congr (Action.castPointer_value hne hother hk hself.1 hp (by decide) hkind hself.2),
    Action.Succeeds.congr (Action.castActual_view hkind hmembers)]
  exact Action.toView_succeeds_iff hs hu hroot hp hdiffers

end Closure

/-- An argument of a type that a call is checked for is converted to the type of the parameter, whatever value
it is; only for a virtual parameter of another type than the argument's, and a value that is not null, is this
so exactly if the root of the value can be shown as the type. -/
theorem Reachable.checked_call {w' : World} {args : List TypeId} {ret : TypeId} {i : Nat} (hb : r.Built)
    (hr : Reachable r held h values) (hw : w.registry = r) (hw' : w'.registry = r)
    (hcheck : Closure.checkCall w' m c args ret = .ok ()) (ht : args[i]? = some t)
    (hslot : WellTyped r held values h.memory t s) :
    ∃ params result p, Closure.signature w' m c = .ok (params, result) ∧ params[i]? = some p ∧
      ((r.kind? p = some .virtual → r.sameType p t = true ∨ s = .pointer 0) →
        (Action.cast s t p).Succeeds w h) ∧
      ∀ a, r.kind? p = some .virtual → r.sameType p t = false → s = .pointer a → a ≠ 0 →
        ∃ u ∈ values, RootOf r h.memory u a ∧
          ((Action.cast s t p).Succeeds w h ↔ Showable r values h.memory p u) := by
  subst hw
  have hs := hr.sound hb
  obtain ⟨params, result, hsignature, hall⟩ := Closure.checkCall_ok hcheck
  have hi : i < params.length := hall.length_eq ▸ (List.getElem?_eq_some_iff.1 ht).1
  have hp := List.getElem?_eq_getElem hi
  have haccepts : Closure.accepts w' params[i] t = .ok true :=
    View.rel_getElem? (fun p t => Closure.accepts w' p t = .ok true) hall hp ht
  refine ⟨params, result, params[i], hsignature, hp, ?_, ?_⟩
  · exact Closure.cast_of_accepts hb haccepts hw' hslot
  · rintro a hview hother rfl hne
    exact Closure.cast_view_of_accepts hs.toOrdered haccepts hw' hslot hview hother hne

/-! A closure with a virtual parameter, and values that its calls are checked for. -/

/-- A virtual type, a class with its field, and a function that takes a virtual value. -/
def Registry.calledTypes : Registry :=
  ⟨(Descriptor.builtins ++
    ([.virtual [⟨"x", .i32⟩], .object ⟨"Point", none, [⟨"x", .i32⟩], []⟩,
      .function [.ofIndex 12] .void, .function [] .void] : List Descriptor)).toArray⟩

theorem Registry.calledTypes_built : Registry.calledTypes.Built :=
  .of_adds (Registry.calledTypes.types.toList.drop Descriptor.builtins.length) (by decide +kernel)
    (by decide +kernel)

/-- A closure, an instance and an open object without fields. -/
def calledValues : Action Unit := do
  let _ ← Action.newClosure (.ofIndex 14) 1
  let _ ← Action.newInstance (.ofIndex 13)
  let _ ← Action.newOpenObject

def calledHeap : Heap := (calledValues (.ofTypes .calledTypes) {}).2

private theorem calledHeap_reachable : ∃ values,
    Reachable .calledTypes (fun _ _ => False) calledHeap values ∧ 0x10040 ∈ values ∧ 0x10060 ∈ values := by
  let w : World := .ofTypes .calledTypes
  let h₁ := (Action.newClosure (.ofIndex 14) 1 w {}).2
  let h₂ := (Action.newInstance (.ofIndex 13) w h₁).2
  let h₃ := (Action.newOpenObject w h₂).2
  have hclosure : Action.newClosure (.ofIndex 14) 1 w {} = (.ok 0x10010, h₁) :=
    Action.eq_of_fst (by decide +kernel)
  have hinstance : Action.newInstance (.ofIndex 13) w h₁ = (.ok 0x10040, h₂) :=
    Action.eq_of_fst (by decide +kernel)
  have hopen : Action.newOpenObject w h₂ = (.ok 0x10060, h₃) := Action.eq_of_fst (by decide +kernel)
  have hend : calledHeap = h₃ := by
    unfold calledHeap calledValues
    rw [Action.bind_ok hclosure, Action.bind_ok hinstance, Action.bind_ok hopen]
    rfl
  have hb : w.registry.Built := Registry.calledTypes_built
  have hstart : Reachable .calledTypes (fun _ _ => False) {} ∅ := .start none
  obtain ⟨values₁, -, hr₁⟩ := hstart.after rfl (.newClosure (.ofIndex 14) 1) hclosure
  obtain ⟨values₂, -, hr₂, hv, -⟩ := hr₁.after_keeps rfl (.newInstance (.ofIndex 13))
    (Action.newInstance_keeps (hr₁.sound hb)) hinstance
  obtain ⟨values₃, hsub, hr₃, ho, -⟩ := hr₂.after_keeps rfl .newOpenObject
    (Action.newOpenObject_keeps hb (hr₂.sound hb)) hopen
  exact ⟨values₃, hend ▸ hr₃, hsub hv, ho⟩

private theorem calledHeap_checks (t : TypeId) (ht : t = .ofIndex 13 ∨ t = .dynobj) :
    Closure.checkCall (.ofTypes .calledTypes) calledHeap.memory 0x10010 [t] .void = .ok () ∧
      Closure.signature (.ofTypes .calledTypes) calledHeap.memory 0x10010 = .ok ([.ofIndex 12], .void) := by
  rcases ht with rfl | rfl <;> decide +kernel

/-- The instance has the field of the virtual type, so it can be given to the closure. -/
theorem calledHeap_converts : ∃ values, Reachable .calledTypes (fun _ _ => False) calledHeap values ∧
    WellTyped .calledTypes (fun _ _ => False) values calledHeap.memory (.ofIndex 13) (.pointer 0x10040) ∧
    Closure.checkCall (.ofTypes .calledTypes) calledHeap.memory 0x10010 [.ofIndex 13] .void = .ok () ∧
    (Action.cast (.pointer 0x10040) (.ofIndex 13) (.ofIndex 12)).Succeeds (.ofTypes .calledTypes) calledHeap ∧
    (Action.cast (.pointer 0) (.ofIndex 13) (.ofIndex 12)).Succeeds (.ofTypes .calledTypes) calledHeap := by
  let w : World := .ofTypes .calledTypes
  obtain ⟨values, hr, hv, -⟩ := calledHeap_reachable
  obtain ⟨hcheck, hsignature⟩ := calledHeap_checks (.ofIndex 13) (Or.inl rfl)
  have hclass : Registry.calledTypes.kind? (.ofIndex 13) = some .object := by decide +kernel
  have hslot : WellTyped .calledTypes (fun _ _ => False) values calledHeap.memory (.ofIndex 13)
      (.pointer 0x10040) := .of_leadsTo hclass rfl ⟨hv, by decide +kernel⟩
  have hnull : WellTyped .calledTypes (fun _ _ => False) values calledHeap.memory (.ofIndex 13)
      (.pointer 0) := .null hclass rfl
  have hb := Registry.calledTypes_built
  obtain ⟨params, _, p, hparams, hp, -, hshown⟩ :=
    hr.checked_call (w := w) (i := 0) hb rfl rfl hcheck rfl hslot
  obtain ⟨params', _, p', hparams', hp', hplain, -⟩ :=
    hr.checked_call (w := w) (i := 0) hb rfl rfl hcheck rfl hnull
  obtain ⟨rfl, -⟩ := Prod.mk.inj (Except.ok.inj (hparams.symm.trans hsignature))
  obtain ⟨rfl, -⟩ := Prod.mk.inj (Except.ok.inj (hparams'.symm.trans hsignature))
  obtain rfl := Option.some.inj hp
  obtain rfl := Option.some.inj hp'
  obtain ⟨u, -, hroot, hiff⟩ := hshown 0x10040 (by decide +kernel) (by decide +kernel) rfl (by decide)
  have hobject : Registry.calledTypes.kindAt calledHeap.memory 0x10040 = some .object := by decide +kernel
  obtain rfl := hroot.reached.resolve_right fun hview => kindAt_ne hobject (by decide) hview.1
  have hlayout : (Registry.calledTypes.viewLayout (.ofIndex 12)).map (·.fields.values) =
      .ok [⟨"x", .i32⟩] := by
    decide +kernel
  have hmembers : (Registry.calledTypes.classLayout (calledHeap.memory.typeOf 0x10040)).map
      (·.resolve? (Name.hash "x")) = .ok (some (.field 0 8 .i32)) := by
    decide +kernel
  obtain ⟨l, hl, hfields⟩ := Outcome.map_eq_ok.1 hlayout
  obtain ⟨c, hc, hmember⟩ := Outcome.map_eq_ok.1 hmembers
  refine ⟨values, hr, hslot, hcheck, hiff.2 (Or.inr ⟨l, hl, ?_⟩), hplain fun _ => Or.inr rfl⟩
  intro f hf
  rw [hfields] at hf
  obtain rfl := List.mem_singleton.1 hf
  exact Or.inl ⟨8, .i32, .instance hc hmember⟩

/-- The call is checked for the open object, too, but this has no field to show. -/
theorem calledHeap_refused : ∃ values, Reachable .calledTypes (fun _ _ => False) calledHeap values ∧
    WellTyped .calledTypes (fun _ _ => False) values calledHeap.memory .dynobj (.pointer 0x10060) ∧
    Closure.checkCall (.ofTypes .calledTypes) calledHeap.memory 0x10010 [.dynobj] .void = .ok () ∧
    Closure.signature (.ofTypes .calledTypes) calledHeap.memory 0x10010 = .ok ([.ofIndex 12], .void) ∧
    ∃ h', Action.cast (.pointer 0x10060) .dynobj (.ofIndex 12) (.ofTypes .calledTypes) calledHeap =
      (.error (.error (.incompatibleVirtual "x")), h') := by
  obtain ⟨values, hr, -, hv⟩ := calledHeap_reachable
  obtain ⟨hcheck, hsignature⟩ := calledHeap_checks .dynobj (Or.inr rfl)
  refine ⟨values, hr, .of_leadsTo (k := .dynobj) (by decide +kernel) rfl ⟨hv, by decide +kernel⟩, hcheck,
    hsignature, _, Prod.ext (by decide +kernel) rfl⟩

end ObjectModel
