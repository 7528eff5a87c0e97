import ObjectModel.Proofs.Value.Paths
import ObjectModel.Proofs.Value.Triple

/-!
Bringing the views of an open object up to date. Each step writes the paths of one view as they are now,
and nothing else; a chain is walked to its end, so in the end no view is outdated. No step can fail.
-/

set_option autoImplicit false
set_option relaxedAutoImplicit false

namespace ObjectModel

variable {r : Registry} {stale values : Set Addr} {h : Heap} {u v : Addr}
  {l : ViewLayout} {paths : List Path} {m : Memory}

private theorem same_of_paths (hs : Arranged r stale h values) (hv : v ∈ values)
    (hl : r.viewLayout (h.memory.typeOf v) = .ok l)
    (hm : Memory.ChangesOnly h.memory m (v.toNat + View.size) (l.fieldCount * Kind.wordSize)) {x : Addr}
    (hx : x ∈ values) :
    SameValue r h.memory m x ∧ SameLinks r h.memory m x ∧ (x ≠ v → SamePaths r h.memory m x) := by
  have howned := hs.owned v hv
  rw [headerSize_of_viewLayout hl] at howned
  by_cases hxv : x = v
  · subst hxv
    have hk : r.kindAt h.memory x = some .virtual := Registry.kind?_of_viewLayout hl
    have hbefore : Memory.SameOn h.memory m x.toNat 40 := hm.sameOn (Or.inl le_rfl)
    have hlink : Memory.SameOn h.memory m (x.toNat + 16) 8 := hbefore.mono (by omega) (by omega)
    have hnext : View.next m x = View.next h.memory x := hlink.word
    refine ⟨.of_view hk (hbefore.mono le_rfl (by omega)) (hbefore.mono (by omega) (by omega)),
      ⟨fun _ => hnext, fun hopen => absurd hopen (kindAt_ne hk (by decide))⟩,
      fun hne => absurd rfl hne⟩
  · have hsame := hs.same_of_other hv howned hm (Nat.le_add_right _ _) (by omega) hx hxv
    exact ⟨hsame.1, hsame.2.2, fun _ => hsame.2.1⟩

private theorem exact_of_written (hs : Arranged r stale h values) (hv : v ∈ values)
    (hl : r.viewLayout (h.memory.typeOf v) = .ok l) (hshown : View.wrapped h.memory v ≠ 0)
    (hpaths : View.paths (.ofTypes r) h.memory l (View.wrapped h.memory v) = .ok paths)
    (hlength : paths.length = l.fieldCount)
    (hm : m = View.writePaths h.memory (v.toNat + View.size) paths)
    (hvalue : ∀ x ∈ values, SameValue r h.memory m x) :
    View.paths (.ofTypes r) m l (View.wrapped m v) =
      .ok ((List.range l.fieldCount).map (View.path m v)) := by
  have hview := Registry.kind?_of_viewLayout hl
  obtain ⟨l', hl', hat⟩ := hs.views v hv hview
  obtain rfl : l = l' := Except.ok.inj (hl.symm.trans hl')
  obtain ⟨hroot, hisRoot, -⟩ := hat.shown hshown
  have hreach := View.paths_ok hpaths
  have hpathsAt : (m.word (v.toNat + View.pathsOffset)).toNat = v.toNat + View.size := by
    rw [(hvalue v hv).pathsAt hview]
    exact hat.paths_at
  have hwords : ∀ i p, paths[i]? = some p →
      m.word (v.toNat + View.size + i * Kind.wordSize) = p.toWord := by
    intro i p hp
    rw [hm]
    exact View.word_writePaths _ _ hp
  rw [(hvalue v hv).wrapped hview, paths_same (hvalue _ hroot), hpaths,
    View.map_path_eq hlength (fun p hp => hreach.fits hs hroot hisRoot hp) hpathsAt hwords]

private theorem length_paths (hpaths : View.paths (.ofTypes r) h.memory l u = .ok paths) :
    paths.length = l.fieldCount := by
  rw [(View.paths_ok hpaths).length_eq]
  simp [Region.values, ViewLayout.fieldCount, Region.length]

private theorem changesOnly_of_paths (v : Addr)
    (hpaths : View.paths (.ofTypes r) h.memory l u = .ok paths) :
    Memory.ChangesOnly h.memory (View.writePaths h.memory (v.toNat + View.size) paths) (v.toNat + View.size)
      (l.fieldCount * Kind.wordSize) := by
  rw [← length_paths hpaths]
  exact View.changesOnly_writePaths h.memory (v.toNat + View.size) paths

private theorem spares_of_paths (hs : Arranged r stale h values) (hv : v ∈ values)
    (hl : r.viewLayout (h.memory.typeOf v) = .ok l)
    (hpaths : View.paths (.ofTypes r) h.memory l u = .ok paths) (quiet : Set Addr) (hquiet : v ∉ quiet) :
    Heap.Spares quiet h { h with memory := View.writePaths h.memory (v.toNat + View.size) paths } := by
  have howned := hs.owned v hv
  rw [headerSize_of_viewLayout hl] at howned
  exact .of_changes hs.blocks howned hquiet (changesOnly_of_paths v hpaths) (Nat.le_add_right _ _)
    (Nat.le_of_eq (Nat.add_assoc _ _ _))

namespace Ordered

theorem settle (hs : Ordered r stale h values) (hnone : ∀ v ∈ values, v ∉ stale) :
    Ordered r ∅ h values := by
  refine ⟨{ hs.arranged with exact := fun v hv _ => ?_ }, hs.chains⟩
  exact hs.arranged.exact v hv (hnone v hv)

theorem refresh (hs : Ordered r stale h values) (hv : v ∈ values)
    (hl : r.viewLayout (h.memory.typeOf v) = .ok l) (hshown : View.wrapped h.memory v ≠ 0)
    (hpaths : View.paths (.ofTypes r) h.memory l (View.wrapped h.memory v) = .ok paths)
    (hm : m = View.writePaths h.memory (v.toNat + View.size) paths) :
    Ordered r (stale \ {v}) { h with memory := m } values ∧
      (∀ x ∈ values, SameValue r h.memory m x ∧ SameLinks r h.memory m x) ∧
      SameFields r values h.memory m := by
  have hlength := length_paths hpaths
  have hchange := changesOnly_of_paths v hpaths
  rw [← hm] at hchange
  have hall := fun x (hx : x ∈ values) => same_of_paths hs.arranged hv hl hchange hx
  have hvalue : ∀ x ∈ values, SameValue r h.memory m x := fun x hx => (hall x hx).1
  have hback : ∀ x ∈ values, SameValue r m h.memory x := fun x hx => (hvalue x hx).symm
  have hnone : ∀ x, x ∉ (∅ : Set Addr) := Set.notMem_empty
  have hc : Rearranged r values ∅ (stale \ {v}) h { h with memory := m } := by
    refine
      { blocks := hs.arranged.blocks.withMemory, extended := .refl h, next := le_rfl,
        type := fun x hx => (hvalue x hx).type, same := fun x hx _ => hvalue x hx,
        changed_open := fun x _ hx => absurd hx (hnone x),
        changed_parts := fun x _ hx => absurd hx (hnone x),
        standalone := ?standalone, shown := fun x _ y _ hx => absurd hx (hnone _),
        exact := ?paths }
    case standalone =>
      intro x hx hzero
      exact (hall x hx).2.2 fun heq => hshown (heq ▸ hzero)
    case paths =>
      intro x hx hstale y hy hshownx
      change r.viewLayout (m.typeOf x) = .ok y at hy
      change View.wrapped m x ≠ 0 at hshownx
      change View.paths (.ofTypes r) m y (View.wrapped m x) =
        .ok ((List.range y.fieldCount).map (View.path m x))
      rw [(hvalue x hx).type] at hy
      by_cases hxv : x = v
      · subst hxv
        obtain rfl : l = y := Except.ok.inj (hl.symm.trans hy)
        exact exact_of_written hs.arranged hx hl hshown hpaths hlength hm hvalue
      · have hview := Registry.kind?_of_viewLayout hy
        rw [(hvalue x hx).wrapped hview] at hshownx
        obtain ⟨y', hy', hatx⟩ := hs.arranged.views x hx hview
        obtain rfl : y = y' := Except.ok.inj (hy.symm.trans hy')
        have hfresh : x ∉ stale := fun hmem => hstale ⟨hmem, hxv⟩
        exact exact_frame hy (hvalue x hx) ((hall x hx).2.2 hxv) (hvalue _ (hatx.shown hshownx).1)
          (hs.arranged.exact x hx hfresh y hy hshownx)
  refine ⟨⟨hc.arranged hs.arranged, ?chains⟩, fun x hx => ⟨(hall x hx).1, (hall x hx).2.1⟩, ?fields⟩
  case fields =>
    -- No field lies among the paths, as they belong to the header of the view.
    intro b o t k hb hk
    have hapart := hs.arranged.header_apart hb hk hv
    rw [headerSize_of_viewLayout hl] at hapart
    exact hchange.sameOn (by omega)
  case chains =>
    intro x hx hchained
    have hchained' : IsChained r h.memory x := hchained.same (hback x hx)
    obtain ⟨chain, hchain⟩ := hs.chains x hx hchained'
    refine ⟨chain, hchain.frame (chainHead_same hchained' (hvalue x hx) (hall x hx).2.1)
      (fun w hw => (hvalue w hw).type) (fun w hw => (hvalue w hw).wrapped) fun w hw => ?_⟩
    obtain ⟨hwv, hkw, -⟩ := (hchain.mem w).1 hw
    exact (hall w hwv).2.1.next hkw

end Ordered

theorem length_le_blocks (hs : Arranged r stale h values) {chain : List Addr} (hnodup : chain.Nodup)
    (hmem : ∀ w ∈ chain, w ∈ values) : chain.length ≤ h.blocks.size := by
  have hsub : chain ⊆ h.blocks.toList.map Block.address := by
    intro w hw
    obtain ⟨b, hb, heq, -⟩ := hs.owned w (hmem w hw)
    exact List.mem_map.2 ⟨b, hb, heq⟩
  have hle := hnodup.length_le_of_subset hsub
  rw [List.length_map, Array.length_toList] at hle
  exact hle

namespace Action

variable {w : World}

/-- A heap in which no view is outdated, and which is otherwise the same: only blocks of virtual values
have changed. -/
def Refreshed (r : Registry) (h : Heap) (values : Set Addr) (h' : Heap) : Prop :=
  ∃ m, h' = { h with memory := m } ∧ Ordered r ∅ h' values ∧
    (∀ x ∈ values, SameValue r h.memory m x) ∧ SameFields r values h.memory m ∧
      Heap.Spares {x | ¬(x ∈ values ∧ r.kindAt h.memory x = some .virtual)} h h'

/-- A chain in which all outdated views are is brought up to date. -/
theorem refreshFrom_ends {chain : List Addr} {head : Addr} {bound : Nat}
    (hs : Ordered w.registry stale h values) (hv : v ∈ values)
    (hlinked : Linked h.memory head chain) (hbound : chain.length ≤ bound) (hnodup : chain.Nodup)
    (hchain : ∀ x ∈ chain, x ∈ values ∧ w.registry.kindAt h.memory x = some .virtual ∧
      View.wrapped h.memory x = v) (hstale : ∀ x ∈ values, x ∈ stale → x ∈ chain) :
    (refreshFrom v bound head).Ends w h (fun _ h' => Refreshed w.registry h values h')
      (fun _ => False) := by
  have hne : v ≠ 0 := hs.arranged.ne_zero hv
  -- Each step brings the first view of the rest up to date, and takes it out of the outdated ones.
  induction chain generalizing h stale head bound with
  | nil =>
    obtain rfl : head = 0 := hlinked
    rw [refreshFrom.eq_def]
    dsimp only
    rw [if_pos rfl]
    refine Ends.pure ⟨h.memory, rfl, hs.settle fun x hx hmem => ?_, fun x _ => .refl _ _ x,
      .refl _ _ _, .refl _ _⟩
    exact absurd (hstale x hx hmem) List.not_mem_nil
  | cons x rest ih =>
    obtain ⟨rfl, hzero, hrest⟩ := hlinked
    obtain ⟨hx, hk, hwrapped⟩ := hchain head List.mem_cons_self
    obtain ⟨hout, hnodup'⟩ := List.nodup_cons.1 hnodup
    obtain ⟨l, hl, hat⟩ := hs.arranged.views head hx hk
    have hshown : View.wrapped h.memory head ≠ 0 := by
      rw [hwrapped]
      exact hne
    obtain ⟨-, -, paths, hpaths⟩ := hat.shown hshown
    have hquestion : Reading.ofLayout (w.registry.viewLayout (h.memory.typeOf head)) = .ok l :=
      Outcome.mapError_eq_ok.2 hl
    have hanswer : View.paths w h.memory l v = .ok paths := by
      rw [hwrapped] at hpaths
      exact hpaths
    obtain ⟨hordered, hsame, hfields⟩ := hs.refresh hx hl hshown hpaths rfl
    rw [refreshFrom.eq_def]
    dsimp only
    rw [if_neg hzero]
    refine Ends.ask_ok_bind hquestion (Ends.ask_ok_bind hanswer (Ends.change_bind ?_))
    rw [hat.paths_at]
    have hspared := spares_of_paths hs.arranged hx hl hpaths
      {x | ¬(x ∈ values ∧ w.registry.kindAt h.memory x = some .virtual)} fun hin => hin ⟨hx, hk⟩
    set m := View.writePaths h.memory (head.toNat + View.size) paths with hm
    cases bound with
    | zero => exact absurd hbound (Nat.not_succ_le_zero _)
    | succ bound =>
      refine Ends.look_bind ?_
      have hnext : View.next m head = View.next h.memory head := (hsame head hx).2.next hk
      change (refreshFrom v bound (View.next m head)).Ends w { h with memory := m } _ _
      rw [hnext]
      have hrest' : Linked m (View.next h.memory head) rest := by
        refine linked_same (fun y hy => ?_) hrest
        obtain ⟨hyv, hky, -⟩ := hchain y (List.mem_cons_of_mem head hy)
        exact (hsame y hyv).2.next hky
      refine (ih hordered hrest' (Nat.le_of_succ_le_succ hbound) hnodup' ?_ ?_).imp ?_ (fun _ => id)
      · intro y hy
        obtain ⟨hyv, hky, hwy⟩ := hchain y (List.mem_cons_of_mem head hy)
        have hvalue := (hsame y hyv).1
        exact ⟨hyv, hvalue.kindAt.trans hky, (hvalue.wrapped hky).trans hwy⟩
      · rintro y hy ⟨hmem, hne'⟩
        exact (List.mem_cons.1 (hstale y hy hmem)).resolve_left hne'
      · rintro _ h' ⟨m', rfl, hordered', hsame', hfields', hspared'⟩
        refine ⟨m', rfl, hordered', fun y hy => (hsame y hy).1.trans (hsame' y hy),
          hfields.trans hfields' fun y hy => (hsame y hy).1, hspared.trans (.refl h) (hspared'.mono ?_)⟩
        rintro y hout ⟨hy, hky⟩
        exact hout ⟨hy, (hsame y hy).1.kindAt.symm.trans hky⟩

theorem refreshViews_ends (hs : Ordered w.registry stale h values) (hv : v ∈ values)
    (hk : w.registry.kindAt h.memory v = some .dynobj)
    (hstale : ∀ x ∈ values, x ∈ stale → w.registry.kindAt h.memory x = some .virtual ∧
      View.wrapped h.memory x = v) :
    (refreshViews v).Ends w h (fun _ h' => Refreshed w.registry h values h') (fun _ => False) := by
  obtain ⟨chain, hchain⟩ := hs.chains v hv (Or.inl hk)
  have hlinked := hchain.linked
  unfold chainHead at hlinked
  rw [if_pos hk] at hlinked
  have hlength := length_le_blocks hs.arranged hchain.nodup fun x hx => ((hchain.mem x).1 hx).1
  unfold refreshViews
  refine Ends.chainBound_bind (Ends.look_bind ?_)
  refine refreshFrom_ends hs hv hlinked (hlength.trans (Nat.le_succ _)) hchain.nodup
    (fun x hx => (hchain.mem x).1 hx) fun x hx hmem => ?_
  exact (hchain.mem x).2 ⟨hx, hstale x hx hmem⟩

end Action

end ObjectModel
