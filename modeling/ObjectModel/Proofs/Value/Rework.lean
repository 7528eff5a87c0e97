import ObjectModel.Proofs.Value.Paths
import ObjectModel.Proofs.Value.Triple

/-!
An open object that changes its table or its storage. What belongs to it belongs to nothing else, so all
other values stay; only the paths of its views may be outdated until they are brought up to date, which
never fails.
-/

set_option autoImplicit false
set_option relaxedAutoImplicit false

namespace ObjectModel

variable {r : Registry} {stale values : Set Addr} {h h' : Heap}
  {u v b : Addr} {o n : Nat} {t : TypeId} {k : Kind} {m : Memory}

/-- The bytes that belong to an open object: the header but for its type and its views, the table, and
the storage. -/
def Covers (h : Heap) (v : Addr) (y : Nat) : Prop :=
  (v.toNat + 8 ≤ y ∧ y < v.toNat + 32) ∨
    ∃ a n, IsPart h.memory v a ∧ h.Owns a n ∧ a.toNat ≤ y ∧ y < a.toNat + n

namespace Arranged

theorem not_covers_self (hs : Arranged r stale h values) (hv : v ∈ values)
    (hk : r.kindAt h.memory v = some .dynobj) {y : Nat}
    (hy : v.toNat ≤ y ∧ y < v.toNat + 8 ∨ v.toNat + 32 ≤ y ∧ y < v.toNat + 40) : ¬Covers h v y := by
  have hsize : headerSize r h.memory v = 40 := headerSize_eq hk (by decide)
  rintro (⟨hlow, hhigh⟩ | ⟨a, n, hpart, howns, hlow, hhigh⟩)
  · omega
  · have hne : a ≠ v := fun heq => (hs.part_owned hv hk hpart).1 (heq ▸ hv)
    have := howns.apart (hs.owned v hv) hs.blocks hne
    omega

theorem not_covers_other (hs : Arranged r stale h values) (hv : v ∈ values)
    (hk : r.kindAt h.memory v = some .dynobj) (howns : h.Owns b n) (hne : b ≠ v)
    (hpart : ¬IsPart h.memory v b) {y : Nat} (hlow : b.toNat ≤ y) (hhigh : y < b.toNat + n) :
    ¬Covers h v y := by
  have hsize : headerSize r h.memory v = 40 := headerSize_eq hk (by decide)
  rintro (⟨hlow', hhigh'⟩ | ⟨a, n', hpart', howns', hlow', hhigh'⟩)
  · have := howns.apart (hs.owned v hv) hs.blocks hne
    omega
  · have hne' : b ≠ a := by
      rintro rfl
      exact hpart hpart'
    have := howns.apart howns' hs.blocks hne'
    omega

end Arranged

/-- A heap that follows on another one, in which the open object at `v` has become another one. Its new
parts belong to no other open object, and no hash is lost. -/
structure Reworks (r : Registry) (values : Set Addr) (v : Addr) (h h' : Heap) : Prop where
  blocks : h'.WellFormed
  extended : h.Extends h'
  next : h.next ≤ h'.next
  covered : ∀ y < h.next, ¬Covers h v y → h'.memory.byte y = h.memory.byte y
  open_ok : OpenAt r h' values v
  parts : ∀ u ∈ values, r.kindAt h.memory u = some .dynobj → u ≠ v →
    ∀ a, IsPart h'.memory v a → ¬IsPart h.memory u a
  kept : ∀ hash, (OpenObject.find? (OpenObject.table h.memory v) hash).isSome = true →
    (OpenObject.find? (OpenObject.table h'.memory v) hash).isSome = true

theorem paths_of_open (hk : r.kindAt m u = some .dynobj) (l : ViewLayout) :
    View.paths (.ofTypes r) m l u =
      View.require (View.openPath? r (OpenObject.table m u)) l.fields.values := by
  have hkind : (World.ofTypes r).kind (m.typeOf u) = .ok .dynobj := World.kind_eq_ok.2 hk
  unfold View.paths
  dsimp only
  rw [hkind]
  rfl

namespace Reworks

variable (hc : Reworks r values v h h') (hs : Ordered r ∅ h values) (hv : v ∈ values)
  (hk : r.kindAt h.memory v = some .dynobj)

include hc hs hv hk

private theorem sameOn (howns : h.Owns b n) (hne : b ≠ v) (hpart : ¬IsPart h.memory v b) :
    Memory.SameOn h.memory h'.memory b.toNat n := by
  intro y hlow hhigh
  have := howns.le_next hs.arranged.blocks
  exact hc.covered y (by omega) (hs.arranged.not_covers_other hv hk howns hne hpart hlow hhigh)

theorem spares {quiet : Set Addr} (hquiet : quiet ⊆ values) (hout : v ∉ quiet) : Heap.Spares quiet h h' := by
  intro a ha n howns
  exact hc.sameOn hs hv hk howns (fun heq => hout (heq ▸ ha))
    fun hpart => (hs.arranged.part_owned hv hk hpart).1 (hquiet ha)

private theorem same_type : h'.memory.typeOf v = h.memory.typeOf v := by
  refine Memory.SameOn.typeOf fun y hlow hhigh => ?_
  have hsize : headerSize r h.memory v = 40 := headerSize_eq hk (by decide)
  have := (hs.arranged.owned v hv).le_next hs.arranged.blocks
  exact hc.covered y (by omega) (hs.arranged.not_covers_self hv hk (Or.inl ⟨hlow, hhigh⟩))

private theorem same_views : h'.memory.word (v.toNat + OpenObject.viewsOffset) =
    h.memory.word (v.toNat + OpenObject.viewsOffset) := by
  refine Memory.SameOn.word fun y hlow hhigh => ?_
  have hsize : headerSize r h.memory v = 40 := headerSize_eq hk (by decide)
  have := (hs.arranged.owned v hv).le_next hs.arranged.blocks
  have hthirty : OpenObject.viewsOffset = 32 := rfl
  exact hc.covered y (by omega)
    (hs.arranged.not_covers_self hv hk (Or.inr ⟨by omega, by omega⟩))

private theorem same_other (hu : u ∈ values) (hne : u ≠ v) :
    SameValue r h.memory h'.memory u ∧ SamePaths r h.memory h'.memory u ∧
      SameLinks r h.memory h'.memory u := by
  have hout : ¬IsPart h.memory v u := fun hpart => (hs.arranged.part_owned hv hk hpart).1 hu
  refine hs.arranged.same_of_blocks hu fun a width howns ha => ?_
  rcases ha with rfl | ⟨hku, hpart⟩
  · exact hc.sameOn hs hv hk howns hne hout
  · refine hc.sameOn hs hv hk howns ?_ fun hpart' => ?_
    · rintro rfl
      exact (hs.arranged.part_owned hu hku hpart).1 hv
    · exact hne (hs.arranged.parts u hu v hv hku hk _ hpart hpart')

private theorem holds_cases (hb : Holds r values h'.memory b o t) :
    (b = OpenObject.storage h'.memory v ∧ ∃ f ∈ OpenObject.table h'.memory v, f.offset = o ∧ f.type = t) ∨
      (Holds r values h.memory b o t ∧ b ≠ v ∧ ¬IsPart h.memory v b) := by
  have hother : ∀ u ∈ values, ∀ k, r.kindAt h'.memory u = some k → k ≠ .dynobj → u ≠ v := by
    rintro u hu k hku hne rfl
    rw [Registry.kindAt, hc.same_type hs hv hk] at hku
    exact hne (Option.some.inj (hku.symm.trans hk))
  have hout : ∀ u ∈ values, ¬IsPart h.memory v u :=
    fun u hu hpart => (hs.arranged.part_owned hv hk hpart).1 hu
  cases hb with
  | «instance» hu hx hf =>
    have hne := hother b hu .object (Registry.kind?_of_classLayout hx) (by decide)
    rw [(hc.same_other hs hv hk hu hne).1.type] at hx
    exact Or.inr ⟨.instance hu hx hf, hne, hout b hu⟩
  | standalone hu hx hwrapped hf =>
    have hne := hother b hu .virtual (Registry.kind?_of_viewLayout hx) (by decide)
    have hsame := (hc.same_other hs hv hk hu hne).1
    rw [hsame.type] at hx
    rw [hsame.wrapped (Registry.kind?_of_viewLayout hx)] at hwrapped
    exact Or.inr ⟨.standalone hu hx hwrapped hf, hne, hout b hu⟩
  | @openField u f hu hku hf =>
    by_cases hne : u = v
    · subst hne
      exact Or.inl ⟨rfl, f, hf, rfl, rfl⟩
    · have hsame := (hc.same_other hs hv hk hu hne).1
      rw [hsame.kindAt] at hku
      rw [hsame.openStorage hku]
      rw [hsame.table hku] at hf
      obtain ⟨_, -, -, -, howns⟩ := (hs.arranged.opens u hu hku).placed f hf
      have hpart := hs.arranged.storage_isPart howns
      refine Or.inr ⟨.openField hu hku hf, ?_, ?_⟩
      · intro heq
        exact (hs.arranged.part_owned hu hku hpart).1 (heq ▸ hv)
      · exact fun hpart' => hne (hs.arranged.parts u hu v hv hku hk _ hpart hpart')

private theorem exists_paths {l : ViewLayout} {paths : List Path}
    (hpaths : View.paths (.ofTypes r) h.memory l v = .ok paths) :
    ∃ paths', View.paths (.ofTypes r) h'.memory l v = .ok paths' := by
  have hk' : r.kindAt h'.memory v = some .dynobj := by
    rw [Registry.kindAt, hc.same_type hs hv hk]
    exact hk
  rw [paths_of_open hk] at hpaths
  rw [paths_of_open hk']
  refine View.require_of_isSome fun f hf => ?_
  have hold := View.isSome_of_require hpaths hf
  unfold View.openPath? at hold ⊢
  rw [Option.isSome_map] at hold ⊢
  exact hc.kept f.hash hold

theorem holds_of_other (hb : Holds r values h'.memory b o t) :
    (b = OpenObject.storage h'.memory v ∧ ∃ f ∈ OpenObject.table h'.memory v, f.offset = o ∧ f.type = t) ∨
      (Holds r values h.memory b o t ∧ ∀ k, r.kind? t = some k →
        Memory.SameOn h.memory h'.memory (b.toNat + o) k.size) := by
  rcases hc.holds_cases hs hv hk hb with hself | ⟨hold, hne, hpart⟩
  · exact Or.inl hself
  · refine Or.inr ⟨hold, fun k hkind => ?_⟩
    obtain ⟨k', hk', howns, -⟩ := hs.arranged.holds_range hold
    obtain rfl : k = k' := Option.some.inj (hkind.symm.trans hk')
    exact (hc.sameOn hs hv hk howns hne hpart).mono (Nat.le_add_right _ _) (by omega)

private theorem rearranged : Rearranged r values {v}
    {w | r.kindAt h'.memory w = some .virtual ∧ View.wrapped h'.memory w = v} h h' := by
  refine
    { blocks := hc.blocks, extended := hc.extended, next := hc.next, type := ?type, same := ?same,
      changed_open := ?opens, changed_parts := ?parts, standalone := ?standalone, shown := ?shown,
      exact := ?paths }
  case type =>
    intro u hu
    by_cases hne : u = v
    · rw [hne]
      exact hc.same_type hs hv hk
    · exact (hc.same_other hs hv hk hu hne).1.type
  case same =>
    exact fun u hu hne => (hc.same_other hs hv hk hu hne).1
  -- Only `v` has changed as an open object; its views are outdated, and no others are.
  case opens =>
    rintro u hu hmem
    obtain rfl := Set.mem_singleton_iff.1 hmem
    exact ⟨hk, hc.open_ok⟩
  case parts =>
    rintro u hu hmem x hx hkx a hua hxa
    obtain rfl := Set.mem_singleton_iff.1 hmem
    by_contra hne
    have hne' : x ≠ u := fun heq => hne heq.symm
    have hsame := (hc.same_other hs hv hk hx hne').1
    unfold IsPart at hxa
    rw [hsame.tableAddress hkx, hsame.openStorage hkx] at hxa
    exact hc.parts x hx hkx hne' a hua hxa
  case standalone =>
    intro u hu _ l hl
    have hne : u ≠ v := by
      rintro rfl
      have hview := Registry.kind?_of_viewLayout hl
      rw [← Registry.kindAt, hk] at hview
      cases hview
    exact (hc.same_other hs hv hk hu hne).2.1 l hl
  case shown =>
    intro u hu l hl hmem
    have heq : View.wrapped h.memory u = v := hmem
    obtain ⟨l', hl', hview⟩ := hs.arranged.views u hu (Registry.kind?_of_viewLayout hl)
    obtain rfl : l = l' := Except.ok.inj (hl.symm.trans hl')
    have hshown : View.wrapped h.memory u ≠ 0 := heq ▸ hs.arranged.ne_zero hv
    obtain ⟨-, -, paths, hpaths⟩ := hview.shown hshown
    rw [heq] at hpaths ⊢
    exact hc.exists_paths hs hv hk hpaths
  case paths =>
    intro u hu hstale l hl hshown
    have hne : u ≠ v := by
      rintro rfl
      have hview := Registry.kind?_of_viewLayout hl
      rw [hc.same_type hs hv hk] at hview
      exact kindAt_ne hk (by decide) hview
    obtain ⟨hsame, hpaths, -⟩ := hc.same_other hs hv hk hu hne
    rw [hsame.type] at hl
    have hview := Registry.kind?_of_viewLayout hl
    have hwrapped := hsame.wrapped hview
    have hroot : View.wrapped h.memory u ≠ v :=
      fun heq => hstale ⟨hsame.kindAt.trans hview, hwrapped.trans heq⟩
    rw [hwrapped] at hshown
    obtain ⟨l', hl', hat⟩ := hs.arranged.views u hu hview
    obtain rfl : l = l' := Except.ok.inj (hl.symm.trans hl')
    have hmem := (hat.shown hshown).1
    exact exact_frame hl hsame hpaths (hc.same_other hs hv hk hmem hroot).1
      (hs.arranged.exact u hu (Set.notMem_empty u) l hl hshown)

theorem ordered :
    Ordered r {w | r.kindAt h'.memory w = some .virtual ∧ View.wrapped h'.memory w = v} h' values ∧
      GoesOn r values h.memory values h'.memory := by
  have hre := hc.rearranged hs hv hk
  refine ⟨⟨hre.arranged hs.arranged, fun u hu hchained => ?_⟩, hre.goesOn⟩
  have hwrapped : ∀ w ∈ values, r.kindAt h.memory w = some .virtual →
      View.wrapped h'.memory w = View.wrapped h.memory w :=
    fun w hw hkw => (hre.same_of_kindAt hw hkw (by decide)).wrapped hkw
  have hchained' : IsChained r h.memory u := by
    unfold IsChained at hchained ⊢
    rw [hre.kindAt hu] at hchained
    refine hchained.imp_right fun hview => ⟨hview.1, ?_⟩
    rw [← hwrapped u hu hview.1]
    exact hview.2
  obtain ⟨chain, hchain⟩ := hs.chains u hu hchained'
  have hhead : h'.memory.word (chainHead r h'.memory u) = h.memory.word (chainHead r h.memory u) := by
    by_cases hne : u = v
    · subst hne
      unfold chainHead
      rw [hre.kindAt hu, if_pos hk]
      exact hc.same_views hs hu hk
    · obtain ⟨hsame, -, hlinks⟩ := hc.same_other hs hv hk hu hne
      exact chainHead_same hchained' hsame hlinks
  refine ⟨chain, hchain.frame hhead hre.type hwrapped fun w hw => ?_⟩
  obtain ⟨hwv, hkw, -⟩ := (hchain.mem w).1 hw
  have hne : w ≠ v := by
    rintro rfl
    rw [hk] at hkw
    cases hkw
  exact (hc.same_other hs hv hk hwv hne).2.2.next hkw

end Reworks

end ObjectModel
