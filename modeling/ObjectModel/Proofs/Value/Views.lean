import ObjectModel.Proofs.Value.Creation

/-!
Operations that make views. A view of an instance is new each time; the views of an open object, and of
a virtual value that stands alone, are looked for in the chain first. In each case what comes out is a
value whose type is the same as the one that was asked for, and it shows the value that was given, or what
that value shows.
-/

set_option autoImplicit false
set_option relaxedAutoImplicit false

namespace ObjectModel

variable {r : Registry} {held : Addr → TypeId → Prop} {values : Set Addr} {h h' : Heap} {u v : Addr}
  {n : Nat} {t : TypeId} {k : Kind} {m : Memory}

/-- What is known of a view that has just been made: the type, the value shown, and the paths into it. -/
structure NewView (r : Registry) (h' : Heap) (t : TypeId) (l : ViewLayout) (u v : Addr) : Prop where
  layout : r.viewLayout t = .ok l
  type : h'.memory.typeOf v = t
  wrapped : View.wrapped h'.memory v = u
  pointed : h'.PointersAt v
  paths_at : (h'.memory.word (v.toNat + View.pathsOffset)).toNat = v.toNat + View.size
  exact : View.paths (.ofTypes r) h'.memory l u =
    .ok ((List.range l.fieldCount).map (View.path h'.memory v))

namespace NewView

variable {l : ViewLayout}

theorem kindAt (hv : NewView r h' t l u v) : r.kindAt h'.memory v = some .virtual := by
  rw [Registry.kindAt, hv.type]
  exact Registry.kind?_of_viewLayout hv.layout

theorem viewLayout (hv : NewView r h' t l u v) : r.viewLayout (h'.memory.typeOf v) = .ok l := by
  rw [hv.type]
  exact hv.layout

theorem setNext (hv : NewView r h' t l u v) {m : Memory}
    (hm : Memory.ChangesOnly h'.memory m (v.toNat + View.nextOffset) 8)
    (hpaths : View.paths (.ofTypes r) m l u = View.paths (.ofTypes r) h'.memory l u) :
    NewView r { h' with memory := m } t l u v := by
  have hbefore : ∀ a, a + 8 ≤ 16 → Memory.SameOn h'.memory m (v.toNat + a) 8 := fun a ha =>
    hm.sameOn (Or.inl (by
      change v.toNat + a + 8 ≤ v.toNat + 16
      omega))
  have hbehind : ∀ a, v.toNat + 24 ≤ a → m.word a = h'.memory.word a := fun a ha =>
    (hm.sameOn (Or.inr ha)).word
  have hpathsAt : m.word (v.toNat + View.pathsOffset) = h'.memory.word (v.toNat + View.pathsOffset) :=
    hbehind _ le_rfl
  refine ⟨hv.layout, (hbefore 0 (by omega)).typeOf.trans hv.type,
    (hbefore 8 le_rfl).word.trans hv.wrapped, hv.pointed, ?_, ?_⟩
  · change (m.word (v.toNat + View.pathsOffset)).toNat = _
    rw [hpathsAt]
    exact hv.paths_at
  · change View.paths (.ofTypes r) m l u = .ok ((List.range l.fieldCount).map (View.path m v))
    have hread : (List.range l.fieldCount).map (View.path m v) =
        (List.range l.fieldCount).map (View.path h'.memory v) := by
      refine List.map_congr_left fun i _ => ?_
      have hplace : v.toNat + 24 ≤ v.toNat + View.size + i * Kind.wordSize := by
        change v.toNat + 24 ≤ v.toNat + 40 + i * 8
        omega
      rw [View.path, View.path, hpathsAt, hv.paths_at, hbehind _ hplace]
    rw [hpaths, hv.exact, hread]

theorem newcomer (hv : NewView r h' t l u v) (hs : Sound r held ∅ h values)
    (hg : Gained h h' v (View.size + l.fieldCount * Kind.wordSize)) (hu : u ∈ values)
    (hroot : IsRoot r h.memory u) (hother : r.sameType t (h.memory.typeOf u) = false) :
    Newcomer r held h' values v := by
  have hk := hv.kindAt
  have hsame := (hs.arranged.same_of_below hg.same hu).1
  have hne : u ≠ 0 := hs.arranged.ne_zero hu
  have hshown : View.wrapped h'.memory v ≠ 0 := by
    rw [hv.wrapped]
    exact hne
  refine ⟨hg.new hs.arranged, fun x hx hkx => hg.free hs.arranged hx hkx, ⟨.virtual, hk, rfl⟩,
    hg.owned.mono ?_, ?_, ?_, fun _ => hv.pointed, ?_, ?_, ?_⟩
  · exact (headerSize_of_viewLayout hv.viewLayout).le
  · intro hobject
    exact absurd hobject (kindAt_ne hk (by decide))
  · intro x length hparts
    exact absurd (parts_ok hparts).1 (kindAt_ne hk (by decide))
  · intro hopen
    exact absurd hopen (kindAt_ne hk (by decide))
  · refine fun _ => ⟨l, hv.viewLayout, ⟨hv.paths_at, fun hzero => absurd hzero hshown, fun _ => ?_,
      fun _ => ?_⟩, fun _ => ?_⟩
    · rw [hv.wrapped]
      exact ⟨Set.mem_insert_of_mem v hu, hroot.same hsame, _, hv.exact⟩
    · rw [hv.type, hv.wrapped, hsame.type]
      exact hother
    · rw [hv.wrapped]
      exact hv.exact
  · intro b o x y hb hy
    cases hb with
    | «instance» hmem hc _ =>
      obtain rfl := Set.mem_singleton_iff.1 hmem
      exact absurd (Registry.kind?_of_classLayout hc) (kindAt_ne hk (by decide))
    | standalone hmem _ hzero _ =>
      obtain rfl := Set.mem_singleton_iff.1 hmem
      exact absurd hzero hshown
    | openField hmem hopen _ =>
      obtain rfl := Set.mem_singleton_iff.1 hmem
      exact absurd hopen (kindAt_ne hk (by decide))

theorem link (hv : NewView r h' t l u v) (hs : Sound r held ∅ h values)
    (hg : Gained h h' v (View.size + l.fieldCount * Kind.wordSize)) (hu : u ∈ values)
    (hchained : IsChained r h.memory u)
    (hnext : View.next h'.memory v = h.memory.word (chainHead r h.memory u))
    (hdiffer : ∀ x ∈ values, r.kindAt h.memory x = some .virtual → View.wrapped h.memory x = u →
      r.sameType t (h.memory.typeOf x) = false)
    (hother : r.sameType t (h.memory.typeOf u) = false) :
    Kept r held h values { h' with memory := h'.memory.setWord (chainHead r h.memory u) v }
        (insert v values) ∧
      (h'.memory.setWord (chainHead r h.memory u) v).typeOf v = t ∧
      View.wrapped (h'.memory.setWord (chainHead r h.memory u) v) v = u := by
  obtain ⟨hsame, -, hlinks⟩ := hs.arranged.same_of_below hg.same hu
  have hroot : IsRoot r h.memory u := by
    rcases hchained with hopen | hview
    · exact Or.inr (Or.inl hopen)
    · exact Or.inr (Or.inr hview)
  have hchained' : IsChained r h'.memory u := hchained.same hsame
  have hplace : chainHead r h'.memory u = chainHead r h.memory u := by
    unfold chainHead
    rw [hsame.kindAt]
  have hgrown : Sound r held ∅ h' values := hs.grow hg.wellFormed hg.blocks hg.next hg.same
  have hnew := hv.newcomer hs hg hu hroot hother
  have hinsert := hgrown.arranged.insert hnew
  have hu' : u ∈ insert v values := Set.mem_insert_of_mem v hu
  have hlinked := hgrown.link hnew hv.kindAt hv.wrapped hu hchained' ?_ ?_
  · have hlast := Memory.changesOnly_setWord h'.memory (chainHead r h'.memory u) v
    have hall : ∀ x ∈ insert v values,
        SameValue r h'.memory (h'.memory.setWord (chainHead r h'.memory u) v) x :=
      fun x hx => (same_of_chainHead hinsert hu' hchained' hlast hx).1
    rw [hplace] at hlinked hall
    have hlast := hall v (Set.mem_insert v values)
    refine ⟨.of_sameValue hlinked hg.blocks hg.fresh fun x hx => ?_, hlast.type.trans hv.type,
      (hlast.wrapped hv.kindAt).trans hv.wrapped⟩
    have hbelow := (hs.arranged.same_of_below hg.same hx).1
    exact hbelow.trans (hall x (Set.mem_insert_of_mem v hx))
  · rw [hnext, chainHead_same hchained hsame hlinks]
  · intro x hx hk hwrapped
    have hx' := (hs.arranged.same_of_below hg.same hx).1
    rw [hx'.kindAt] at hk
    rw [hx'.wrapped hk] at hwrapped
    rw [hv.type, hx'.type]
    exact hdiffer x hx hk hwrapped

end NewView

namespace Action

variable {w : World}

theorem newView_ends (hs : Sound w.registry held ∅ h values) (hu : u ∈ values)
    (hroot : IsRoot w.registry h.memory u) :
    (newView t u).Ends w h
      (fun v h' => ∃ l, Gained h h' v (View.size + l.fieldCount * Kind.wordSize) ∧
        NewView w.registry h' t l u v) (· = h) := by
  unfold newView
  refine Ends.ask_bind rfl fun l hl => Ends.ask_bind rfl fun paths hpaths => ?_
  have hlayout := Outcome.mapError_eq_ok.1 hl
  have hreach := View.paths_ok hpaths
  have hlength : paths.length = l.fieldCount := by
    rw [hreach.length_eq]
    simp [Region.values, ViewLayout.fieldCount, Region.length]
  refine (newValue_ends hs.arranged.blocks _ _ _).bind (fun _ => False.elim) ?_
  rintro v h' ⟨hg, htype, -, hpointed⟩
  refine Ends.change_bind (Ends.pure ⟨l, ?_⟩)
  have hforty : View.size = 40 := rfl
  have hroom := hg.owned.lt_size hg.wellFormed
  set m₁ := h'.memory.setWord (v.toNat + View.wrappedOffset) u with hm₁
  set m₂ := m₁.setWord (v.toNat + View.pathsOffset) (UInt64.ofNat (v.toNat + View.size)) with hm₂
  set m₃ := View.writePaths m₂ (v.toNat + View.size) paths with hm₃
  have hfirst : Memory.ChangesOnly h'.memory m₁ (v.toNat + 8) 8 := Memory.changesOnly_setWord _ _ _
  have hsecond : Memory.ChangesOnly m₁ m₂ (v.toNat + 24) 8 := Memory.changesOnly_setWord _ _ _
  have hthird : Memory.ChangesOnly m₂ m₃ (v.toNat + 40) (paths.length * 8) :=
    View.changesOnly_writePaths m₂ (v.toNat + View.size) paths
  have hchange : Memory.ChangesOnly h'.memory m₃ (v.toNat + 8) (32 + paths.length * 8) :=
    ((hfirst.mono le_rfl (by omega)).trans (hsecond.mono (by omega) (by omega))).trans
      (hthird.mono (by omega) (by omega))
  have hg' : Gained h { h' with memory := m₃ } v (View.size + l.fieldCount * Kind.wordSize) := by
    rw [← hlength]
    exact hg.change (Nat.le_add_right _ _) hchange
  have hpathsAt : (m₃.word (v.toNat + View.pathsOffset)).toNat = v.toNat + View.size := by
    have hkeep : m₃.word (v.toNat + 24) = m₂.word (v.toNat + 24) :=
      (hthird.sameOn (Or.inl (by omega))).word
    rw [show View.pathsOffset = 24 from rfl, hkeep, hm₂, show View.pathsOffset = 24 from rfl,
      Memory.word_setWord_same, UInt64.toNat_ofNat', Nat.mod_eq_of_lt]
    exact lt_of_le_of_lt (by omega) hroom
  refine ⟨hg', hlayout, (hchange.sameOn (Or.inl le_rfl)).typeOf.trans htype, ?_, hpointed rfl, hpathsAt, ?_⟩
  · have hkeep : m₃.word (v.toNat + 8) = m₁.word (v.toNat + 8) :=
      (hthird.sameOn (Or.inl (by omega))).word.trans (hsecond.sameOn (Or.inl (by omega))).word
    rw [View.wrapped, show View.wrappedOffset = 8 from rfl, hkeep, hm₁,
      show View.wrappedOffset = 8 from rfl, Memory.word_setWord_same]
  · have hsame := (hs.arranged.same_of_below hg'.same hu).1
    change View.paths (.ofTypes w.registry) m₃ l u = _
    rw [paths_same hsame, View.map_path_eq hlength
      (fun p hp => hreach.fits hs.arranged hu hroot hp) hpathsAt
      fun i p hp => View.word_writePaths m₂ _ hp]
    exact hpaths

/-- What is asked of a view: it is a virtual value whose type is the same as `t`, and it has the root that
the value has which it is made from in the memory `m`. -/
structure IsView (r : Registry) (t : TypeId) (m : Memory) (source v : Addr) (h : Heap) (values : Set Addr) :
    Prop where
  mem : v ∈ values
  type : r.sameType (h.memory.typeOf v) t = true
  kind : r.kindAt h.memory v = some .virtual
  root : ∀ u, RootOf r m u source → RootOf r h.memory u v

theorem newView_keeps (hs : Sound w.registry held ∅ h values) (hu : u ∈ values)
    (hobject : w.registry.kindAt h.memory u = some .object) :
    Keeps held (newView t u) w h values (IsView w.registry t h.memory u) := by
  have hroot : IsRoot w.registry h.memory u := Or.inl hobject
  refine (newView_ends hs hu hroot).imp ?_ ?_
  · rintro v h' ⟨l, hg, hv⟩
    have hsame := (hs.arranged.same_of_below hg.same hu).1
    have hother : w.registry.sameType t (h.memory.typeOf u) = false :=
      Registry.sameType_eq_false_of_kind (Registry.kind?_of_viewLayout hv.layout) hobject (by decide)
    refine ⟨_, .join hs hg (hv.newcomer hs hg hu hroot hother) ?_ ?_, Set.mem_insert v values, ?_, hv.kindAt,
      fun x hx => ?_⟩
    · intro _
      rw [hv.wrapped, hsame.kindAt]
      exact Or.inr hobject
    · rintro (hopen | ⟨-, hzero⟩)
      · exact absurd hopen (kindAt_ne hv.kindAt (by decide))
      · exact absurd (hv.wrapped.symm.trans hzero) (hs.arranged.ne_zero hu)
    · rw [hv.type]
      exact Registry.sameType_refl w.registry t
    · obtain rfl := hx.eq_of_root hroot
      exact ⟨hx.ne_zero, hroot.same hsame, Or.inr ⟨hv.kindAt, hv.wrapped⟩⟩
  · rintro h' rfl
    exact ⟨values, .refl hs⟩

private theorem findInChain_ok {bound : Nat} {head : Addr} {chain : List Addr} {found : Option Addr}
    (hl : Linked m head chain) (h : View.findInChain r m t bound head = .ok found) :
    (∀ x, found = some x → x ∈ chain ∧ r.sameType (m.typeOf x) t = true) ∧
      (found = none → ∀ x ∈ chain, r.sameType (m.typeOf x) t = false) := by
  induction chain generalizing head bound with
  | nil =>
    obtain rfl : head = 0 := hl
    rw [View.findInChain.eq_def] at h
    dsimp only at h
    rw [if_pos rfl] at h
    cases h
    exact ⟨fun x hx => (nomatch hx), fun _ x hx => absurd hx List.not_mem_nil⟩
  | cons x rest ih =>
    obtain ⟨rfl, hne, hrest⟩ := hl
    rw [View.findInChain.eq_def] at h
    dsimp only at h
    rw [if_neg hne] at h
    by_cases hsame : r.sameType (m.typeOf head) t = true
    · rw [if_pos hsame] at h
      cases h
      refine ⟨?_, fun hnone => (nomatch hnone)⟩
      rintro y hy
      obtain rfl := Option.some.inj hy
      exact ⟨List.mem_cons_self, hsame⟩
    · rw [if_neg hsame] at h
      cases bound with
      | zero => cases h
      | succ bound =>
        obtain ⟨hsome, hnone⟩ := ih hrest h
        refine ⟨fun y hy => ⟨List.mem_cons_of_mem head (hsome y hy).1, (hsome y hy).2⟩, ?_⟩
        intro hfound y hy
        rcases List.mem_cons.1 hy with rfl | hy
        · exact Bool.eq_false_iff.2 hsame
        · exact hnone hfound y hy

theorem chainedView_keeps (hs : Sound w.registry held ∅ h values) (hu : u ∈ values)
    (hchained : IsChained w.registry h.memory u) {head : Nat}
    (hhead : head = chainHead w.registry h.memory u)
    (hother : w.registry.kind? t = some .virtual →
      w.registry.sameType t (h.memory.typeOf u) = false) :
    Keeps held (chainedView t u head) w h values (IsView w.registry t h.memory u) := by
  have hroot : IsRoot w.registry h.memory u := hchained.elim (fun h => Or.inr (Or.inl h))
    fun h => Or.inr (Or.inr h)
  obtain ⟨chain, hchain⟩ := hs.chains u hu hchained
  subst hhead
  unfold chainedView
  refine Keeps.chainBound_bind (Keeps.look_bind (Keeps.ask_bind hs fun found hfound => ?_))
  have hsearch : View.findInChain w.registry h.memory t (h.blocks.size + 1)
      (h.memory.word (chainHead w.registry h.memory u)) = .ok found := hfound
  obtain ⟨hsome, hnone⟩ := findInChain_ok hchain.linked hsearch
  cases found with
  | some v =>
    obtain ⟨hmem, hsame⟩ := hsome v rfl
    obtain ⟨hv, hk, hwrapped⟩ := (hchain.mem v).1 hmem
    refine Keeps.pure hs ⟨hv, hsame, hk, fun x hx => ?_⟩
    obtain rfl := hx.eq_of_root hroot
    exact ⟨hx.ne_zero, hroot, Or.inr ⟨hk, hwrapped⟩⟩
  | none =>
    refine (newView_ends hs hu hroot).bind ?_ ?_
    · rintro h' rfl
      exact ⟨values, .refl hs⟩
    rintro v h' ⟨l, hg, hv⟩
    refine Ends.change_bind (Ends.pure ?_)
    have hchange := Memory.changesOnly_setWord h'.memory (v.toNat + View.nextOffset)
      (h.memory.word (chainHead w.registry h.memory u))
    have hg' := hg.change (Nat.le_add_right _ _) hchange
    have hsame := (hs.arranged.same_of_below hg.same hu).1
    have hsame' := (hs.arranged.same_of_below hg'.same hu).1
    have hv' := hv.setNext hchange ((paths_same hsame' l).trans (paths_same hsame l).symm)
    have hnext : View.next (h'.memory.setWord (v.toNat + View.nextOffset)
        (h.memory.word (chainHead w.registry h.memory u))) v =
          h.memory.word (chainHead w.registry h.memory u) := by
      rw [View.next, Memory.word_setWord_same]
    -- The search has found no view of the same type, so the new one differs from all in the chain.
    have hdiffer : ∀ x ∈ values, w.registry.kindAt h.memory x = some .virtual →
        View.wrapped h.memory x = u → w.registry.sameType t (h.memory.typeOf x) = false := by
      intro x hx hk hwrapped
      rw [Registry.sameType_comm]
      exact hnone rfl x ((hchain.mem x).2 ⟨hx, hk, hwrapped⟩)
    have hlinked := hv'.link hs hg' hu hchained hnext hdiffer
      (hother (Registry.kind?_of_viewLayout hv.layout))
    have hkept := hlinked.1
    have hview : w.registry.kindAt _ v = some .virtual :=
      kindAt_of_typeOf hlinked.2.1 (Registry.kind?_of_viewLayout hv.layout)
    refine ⟨_, hkept, Set.mem_insert v values, ?_, hview, fun x hx => ?_⟩
    · rw [hlinked.2.1]
      exact Registry.sameType_refl w.registry t
    · obtain rfl := hx.eq_of_root hroot
      exact ⟨hx.ne_zero, hroot.goesOn hkept.goesOn hu, Or.inr ⟨hview, hlinked.2.2⟩⟩

private theorem toViewFrom_step {bound : Nat} (hs : Sound w.registry held ∅ h values) (hv : v ∈ values)
    (hinner : ∀ bound', bound = bound' + 1 → ∀ u ∈ values,
      Keeps held (toViewFrom t bound' u) w h values (IsView w.registry t h.memory u)) :
    Keeps held (toViewFrom t bound v) w h values (IsView w.registry t h.memory v) := by
  rw [toViewFrom.eq_def]
  refine Keeps.look_bind (Keeps.ask_bind hs fun k hk => ?_)
  have hkind : w.registry.kindAt h.memory v = some k := World.kind_eq_ok.1 hk
  cases k with
  | object => exact newView_keeps hs hv hkind
  | dynobj =>
    refine chainedView_keeps hs hv (Or.inl hkind) ?_ fun hview =>
      Registry.sameType_eq_false_of_kind hview hkind (by decide)
    rw [chainHead, if_pos hkind]
  | virtual =>
    refine Keeps.world_bind ?_
    by_cases hsame : w.registry.sameType (h.memory.typeOf v) t = true
    · rw [if_pos hsame]
      exact Keeps.pure hs ⟨hv, hsame, hkind, fun _ => id⟩
    · rw [if_neg hsame]
      refine Keeps.look_bind ?_
      by_cases hzero : View.wrapped h.memory v = 0
      · rw [if_pos hzero]
        refine chainedView_keeps hs hv (Or.inr ⟨hkind, hzero⟩) ?_ fun _ =>
          (w.registry.sameType_comm _ _).trans (Bool.eq_false_iff.2 hsame)
        rw [chainHead, if_neg (kindAt_ne hkind (by decide))]
      · rw [if_neg hzero]
        cases bound with
        | zero => exact Keeps.fail hs
        | succ bound =>
          obtain ⟨l, -, hview⟩ := hs.arranged.views v hv hkind
          refine (hinner bound rfl _ (hview.shown hzero).1).imp fun x h' values' _ hx => ?_
          refine ⟨hx.mem, hx.type, hx.kind, fun u hu => hx.root u ?_⟩
          rw [hu.eq_wrapped hkind hzero]
          exact .self hu.ne_zero hu.root
  | _ => exact Keeps.fail hs

/-- A view of a value, which may be a view itself, has the type that was asked for. -/
theorem toViewFrom_keeps (bound : Nat) (hs : Sound w.registry held ∅ h values) (hv : v ∈ values) :
    Keeps held (toViewFrom t bound v) w h values (IsView w.registry t h.memory v) := by
  induction bound using Nat.strongRecOn generalizing v with
  | ind bound ih => exact toViewFrom_step hs hv fun below hbelow u hu => ih below (by omega) hu

theorem toView_keeps (hs : Sound w.registry held ∅ h values) (hv : v ∈ values) :
    Keeps held (toView t v) w h values (IsView w.registry t h.memory v) :=
  Keeps.chainBound_bind (toViewFrom_keeps _ hs hv)

end Action

end ObjectModel
