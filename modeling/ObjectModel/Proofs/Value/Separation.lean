import ObjectModel.Proofs.Value.Frame

/-!
The fields, headers and tables of a sound heap do not overlap. So a heap stays sound when it changes
outside of the headers and tables of its values and keeps slots of the right types in their fields.
-/

set_option autoImplicit false
set_option relaxedAutoImplicit false

namespace ObjectModel

variable {r : Registry} {held : Addr → TypeId → Prop} {stale values values' : Set Addr} {h h' : Heap}
  {u v b c : Addr} {o p : Nat} {t t' : TypeId} {k l : Kind}

namespace Arranged

theorem ne_zero (hs : Arranged r stale h values) (hv : v ∈ values) : v ≠ 0 :=
  (hs.owned v hv).ne_zero hs.blocks

theorem zero_not_mem (hs : Arranged r stale h values) : (0 : Addr) ∉ values :=
  fun h0 => hs.ne_zero h0 rfl

private theorem instance_range {x : ClassLayout} {f : Placed Field} (hs : Arranged r stale h values)
    (hv : v ∈ values) (hx : r.classLayout (h.memory.typeOf v) = .ok x) (hf : f ∈ x.fields) :
    ∃ k, r.kind? f.item.type = some k ∧ h.Owns v (f.offset + k.size) ∧
      headerSize r h.memory v ≤ f.offset := by
  have hk : r.kindAt h.memory v = some .object := Registry.kind?_of_classLayout hx
  obtain ⟨x', hx', howns⟩ := hs.instances v hv hk
  obtain rfl : x = x' := Except.ok.inj (hx.symm.trans hx')
  obtain ⟨k, hkind, hlow, hhigh, -⟩ := (Registry.classLayout_packed hx).placed f hf
  have hheader : headerSize r h.memory v = Kind.wordSize := headerSize_eq hk (by decide)
  refine ⟨k, hkind, howns.mono hhigh, ?_⟩
  rw [hheader]
  exact hlow

private theorem standalone_range {x : ViewLayout} {f : Placed Field}
    (hs : Arranged r stale h values) (hv : v ∈ values)
    (hx : r.viewLayout (h.memory.typeOf v) = .ok x) (hwrapped : View.wrapped h.memory v = 0)
    (hf : f ∈ x.fields.items) :
    ∃ k, r.kind? f.item.type = some k ∧
      h.Owns v (View.size + x.fieldCount * Kind.wordSize + f.offset + k.size) ∧
      headerSize r h.memory v ≤ View.size + x.fieldCount * Kind.wordSize + f.offset := by
  obtain ⟨x', hx', hview⟩ := hs.views v hv (Registry.kind?_of_viewLayout hx)
  obtain rfl : x = x' := Except.ok.inj (hx.symm.trans hx')
  obtain ⟨-, howns, -⟩ := hview.standalone hwrapped
  obtain ⟨k, hkind, -, hhigh, -⟩ := (Registry.viewLayout_ok hx).2.2.1.packed.placed f hf
  refine ⟨k, hkind, howns.mono ?_, ?_⟩
  · have : f.offset + k.size ≤ x.dataSize := hhigh
    omega
  · rw [headerSize_of_viewLayout hx]
    exact Nat.le_add_right _ _

theorem holds_range (hs : Arranged r stale h values) (hb : Holds r values h.memory b o t) :
    ∃ k, r.kind? t = some k ∧ h.Owns b (o + k.size) ∧
      ((b ∈ values ∧ headerSize r h.memory b ≤ o ∧ r.kindAt h.memory b ≠ some .dynobj) ∨
        ∃ u ∈ values, r.kindAt h.memory u = some .dynobj ∧ b = OpenObject.storage h.memory u) := by
  cases hb with
  | «instance» hv hx hf =>
    obtain ⟨k, hk, howns, hheader⟩ := instance_range hs hv hx hf
    refine ⟨k, hk, howns, Or.inl ⟨hv, hheader, ?_⟩⟩
    have : r.kindAt h.memory b = some .object := Registry.kind?_of_classLayout hx
    rw [this]
    decide
  | standalone hv hx hwrapped hf =>
    obtain ⟨k, hk, howns, hheader⟩ := standalone_range hs hv hx hwrapped hf
    refine ⟨k, hk, howns, Or.inl ⟨hv, hheader, ?_⟩⟩
    have : r.kindAt h.memory b = some .virtual := Registry.kind?_of_viewLayout hx
    rw [this]
    decide
  | openField hv hk hf =>
    obtain ⟨k, hkind, -, -, howns⟩ := (hs.opens _ hv hk).placed _ hf
    exact ⟨k, hkind, howns, Or.inr ⟨_, hv, hk, rfl⟩⟩

theorem storage_isPart (hs : Arranged r stale h values) {n : Nat}
    (howns : h.Owns (OpenObject.storage h.memory v) n) :
    IsPart h.memory v (OpenObject.storage h.memory v) :=
  ⟨howns.ne_zero hs.blocks, Or.inr rfl⟩

private theorem eq_of_storage_eq (hs : Arranged r stale h values) {f g : OpenField}
    (hu : u ∈ values) (hku : r.kindAt h.memory u = some .dynobj)
    (hf : f ∈ OpenObject.table h.memory u) (hv : v ∈ values)
    (hkv : r.kindAt h.memory v = some .dynobj) (hg : g ∈ OpenObject.table h.memory v)
    (heq : OpenObject.storage h.memory u = OpenObject.storage h.memory v) : u = v := by
  obtain ⟨_, -, -, -, howns⟩ := (hs.opens u hu hku).placed f hf
  obtain ⟨_, -, -, -, howns'⟩ := (hs.opens v hv hkv).placed g hg
  refine hs.parts u hu v hv hku hkv _ (hs.storage_isPart howns) ?_
  rw [heq]
  exact hs.storage_isPart howns'

private theorem holds_apart_in_block (hs : Arranged r stale h values)
    (hb : Holds r values h.memory b o t) (hc : Holds r values h.memory c p t')
    (hk : r.kind? t = some k) (hl : r.kind? t' = some l) (hbc : b = c) :
    (o = p ∧ t = t') ∨ o + k.size ≤ p ∨ p + l.size ≤ o := by
  -- A block is a value of one kind, or the storage of one open object, so unlike cases cannot meet.
  cases hb with
  | @«instance» _ x f hv hx hf =>
    cases hc with
    | @«instance» _ y g hw hy hg =>
      subst hbc
      obtain rfl : x = y := Except.ok.inj (hx.symm.trans hy)
      rcases (Registry.classLayout_packed hx).apart_of_mem hf hg hk hl with rfl | hfg | hgf
      · exact Or.inl ⟨rfl, rfl⟩
      · exact Or.inr (Or.inl hfg)
      · exact Or.inr (Or.inr hgf)
    | standalone hw hy hwrapped hg =>
      subst hbc
      have hobject := Registry.kind?_of_classLayout hx
      rw [Registry.kind?_of_viewLayout hy] at hobject
      cases hobject
    | openField hw hkw hg =>
      subst hbc
      exact absurd hv (hs.opens _ hw hkw).storage_out
  | @standalone _ x f hv hx hwrapped hf =>
    cases hc with
    | «instance» hw hy hg =>
      subst hbc
      have hobject := Registry.kind?_of_classLayout hy
      rw [Registry.kind?_of_viewLayout hx] at hobject
      cases hobject
    | @standalone _ y g hw hy hwrapped' hg =>
      subst hbc
      obtain rfl : x = y := Except.ok.inj (hx.symm.trans hy)
      rcases (Registry.viewLayout_ok hx).2.2.1.packed.apart_of_mem hf hg hk hl with rfl | hfg | hgf
      · exact Or.inl ⟨rfl, rfl⟩
      · exact Or.inr (Or.inl (by omega))
      · exact Or.inr (Or.inr (by omega))
    | openField hw hkw hg =>
      subst hbc
      exact absurd hv (hs.opens _ hw hkw).storage_out
  | @openField u f hv hkv hf =>
    cases hc with
    | «instance» hw hy hg =>
      subst hbc
      exact absurd hw (hs.opens _ hv hkv).storage_out
    | standalone hw hy hwrapped' hg =>
      subst hbc
      exact absurd hw (hs.opens _ hv hkv).storage_out
    | @openField w g hw hkw hg =>
      obtain rfl := hs.eq_of_storage_eq hv hkv hf hw hkw hg hbc
      rcases eq_or_related_of_pairwise (hs.opens u hv hkv).apart hf hg with rfl | hfg | hgf
      · exact Or.inl ⟨rfl, rfl⟩
      · exact Or.inr (hfg k l hk hl)
      · exact Or.inr (hgf l k hl hk).symm

/-- Two fields are one and the same, or do not overlap. -/
theorem holds_apart (hs : Arranged r stale h values) (hb : Holds r values h.memory b o t)
    (hc : Holds r values h.memory c p t') (hk : r.kind? t = some k) (hl : r.kind? t' = some l) :
    (b = c ∧ o = p ∧ t = t') ∨ b.toNat + o + k.size ≤ c.toNat + p ∨ c.toNat + p + l.size ≤ b.toNat + o := by
  by_cases hbc : b = c
  · rcases hs.holds_apart_in_block hb hc hk hl hbc with hsame | hbefore | hbehind
    · exact Or.inl ⟨hbc, hsame⟩
    · subst hbc
      exact Or.inr (Or.inl (by omega))
    · subst hbc
      exact Or.inr (Or.inr (by omega))
  · obtain ⟨k', hk', hbowns, -⟩ := hs.holds_range hb
    obtain rfl : k = k' := Option.some.inj (hk.symm.trans hk')
    obtain ⟨l', hl', hcowns, -⟩ := hs.holds_range hc
    obtain rfl : l = l' := Option.some.inj (hl.symm.trans hl')
    have := hbowns.apart hcowns hs.blocks hbc
    omega

theorem header_apart (hs : Arranged r stale h values) (hb : Holds r values h.memory b o t)
    (hk : r.kind? t = some k) (hv : v ∈ values) :
    v.toNat + headerSize r h.memory v ≤ b.toNat + o ∨ b.toNat + o + k.size ≤ v.toNat := by
  obtain ⟨k', hk', howns, hplace⟩ := hs.holds_range hb
  obtain rfl : k = k' := Option.some.inj (hk.symm.trans hk')
  by_cases hvb : v = b
  · subst hvb
    rcases hplace with ⟨-, hheader, -⟩ | ⟨u, hu, hku, rfl⟩
    · omega
    · exact absurd hv (hs.opens u hu hku).storage_out
  · have := (hs.owned v hv).apart howns hs.blocks hvb
    omega

theorem table_owned (hs : Arranged r stale h values) (hu : u ∈ values)
    (hk : r.kindAt h.memory u = some .dynobj) :
    OpenObject.table h.memory u = [] ∨
      (IsPart h.memory u (OpenObject.tableAddress h.memory u) ∧
        h.Owns (OpenObject.tableAddress h.memory u)
          ((OpenObject.table h.memory u).length * OpenObject.entrySize)) := by
  rcases (hs.opens u hu hk).table_room with ⟨hempty, -⟩ | howns
  · exact Or.inl hempty
  · exact Or.inr ⟨⟨howns.ne_zero hs.blocks, Or.inl rfl⟩, howns⟩

theorem table_apart (hs : Arranged r stale h values) (hb : Holds r values h.memory b o t)
    (hk : r.kind? t = some k) (hu : u ∈ values) (hku : r.kindAt h.memory u = some .dynobj) :
    (OpenObject.table h.memory u).length * OpenObject.entrySize = 0 ∨
      (OpenObject.tableAddress h.memory u).toNat +
        (OpenObject.table h.memory u).length * OpenObject.entrySize ≤ b.toNat + o ∨
      b.toNat + o + k.size ≤ (OpenObject.tableAddress h.memory u).toNat := by
  rcases hs.table_owned hu hku with hempty | ⟨hpart, hroom⟩
  · rw [hempty]
    exact Or.inl (Nat.zero_mul _)
  · obtain ⟨k', hk', howns, hplace⟩ := hs.holds_range hb
    obtain rfl : k = k' := Option.some.inj (hk.symm.trans hk')
    have hne : OpenObject.tableAddress h.memory u ≠ b := by
      rintro rfl
      rcases hplace with ⟨hv, -⟩ | ⟨w, hw, hkw, heq⟩
      · exact (hs.opens u hu hku).table_out hv
      · have hpart' : IsPart h.memory w (OpenObject.tableAddress h.memory u) := ⟨hpart.1, Or.inr heq⟩
        obtain rfl := hs.parts u hu w hw hku hkw _ hpart hpart'
        exact hpart.1 ((hs.opens u hu hku).parted heq)
    have := hroom.apart howns hs.blocks hne
    omega

theorem same_of_sameOn (hs : Arranged r stale h values) {n : Memory} (hv : v ∈ values)
    (hheader : Memory.SameOn h.memory n v.toNat (headerSize r h.memory v))
    (htable : r.kindAt h.memory v = some .dynobj →
      Memory.SameOn h.memory n (OpenObject.tableAddress h.memory v).toNat
        ((OpenObject.table h.memory v).length * OpenObject.entrySize)) :
    SameValue r h.memory n v ∧ SamePaths r h.memory n v ∧ SameLinks r h.memory n v := by
  obtain ⟨k, hk, -⟩ := hs.kinds v hv
  refine sameValue_of_sameOn hk hheader ?_ ?_
  · rintro rfl
    exact htable hk
  · rintro rfl
    obtain ⟨l, -, hview⟩ := hs.views v hv hk
    exact hview.paths_at

theorem part_owned (hs : Arranged r stale h values) (hv : v ∈ values)
    (hk : r.kindAt h.memory v = some .dynobj) {a : Addr} (ha : IsPart h.memory v a) :
    a ∉ values ∧ h.Owns a 0 := by
  have ho := hs.opens v hv hk
  obtain ⟨hne, rfl | rfl⟩ := ha
  · rcases ho.table_room with ⟨-, hzero⟩ | howns
    · exact absurd hzero hne
    · exact ⟨ho.table_out, howns.mono (Nat.zero_le _)⟩
  · rcases ho.storage_room with hzero | howns
    · exact absurd hzero hne
    · exact ⟨ho.storage_out, howns⟩

theorem table_sameOn (hs : Arranged r stale h values) {n : Memory} (hv : v ∈ values)
    (hk : r.kindAt h.memory v = some .dynobj)
    (hblock : ∀ width, IsPart h.memory v (OpenObject.tableAddress h.memory v) →
      h.Owns (OpenObject.tableAddress h.memory v) width →
        Memory.SameOn h.memory n (OpenObject.tableAddress h.memory v).toNat width) :
    Memory.SameOn h.memory n (OpenObject.tableAddress h.memory v).toNat
      ((OpenObject.table h.memory v).length * OpenObject.entrySize) := by
  rcases hs.table_owned hv hk with hempty | ⟨hpart, hroom⟩
  · intro x hx hx'
    rw [hempty, List.length_nil, Nat.zero_mul] at hx'
    omega
  · exact hblock _ hpart hroom

theorem same_of_blocks (hs : Arranged r stale h values) {n : Memory} (hv : v ∈ values)
    (hblock : ∀ a width, h.Owns a width →
      a = v ∨ r.kindAt h.memory v = some .dynobj ∧ IsPart h.memory v a →
        Memory.SameOn h.memory n a.toNat width) :
    SameValue r h.memory n v ∧ SamePaths r h.memory n v ∧ SameLinks r h.memory n v := by
  refine hs.same_of_sameOn hv (hblock v _ (hs.owned v hv) (Or.inl rfl)) fun hk => ?_
  exact hs.table_sameOn hv hk fun width hpart hroom => hblock _ width hroom (Or.inr ⟨hk, hpart⟩)

theorem same_of_below (hs : Arranged r stale h values) {n : Memory}
    (hn : Memory.SameOn h.memory n 0 h.next) (hv : v ∈ values) :
    SameValue r h.memory n v ∧ SamePaths r h.memory n v ∧ SameLinks r h.memory n v := by
  refine hs.same_of_blocks hv fun a width howns _ => ?_
  have := howns.le_next hs.blocks
  exact hn.mono (Nat.zero_le _) (by omega)

theorem same_of_other (hs : Arranged r stale h values) {m : Memory} {a len n : Nat} (hu : u ∈ values)
    (howns : h.Owns u n) (hm : Memory.ChangesOnly h.memory m a len) (hlow : u.toNat ≤ a)
    (hhigh : a + len ≤ u.toNat + n) (hv : v ∈ values) (hne : v ≠ u) :
    SameValue r h.memory m v ∧ SamePaths r h.memory m v ∧ SameLinks r h.memory m v := by
  refine hs.same_of_blocks hv fun b width hb hbv => hm.sameOn ?_
  have hbu : b ≠ u := by
    rcases hbv with rfl | ⟨hk, hpart⟩
    · exact hne
    · exact fun heq => (hs.part_owned hv hk hpart).1 (heq ▸ hu)
  have := hb.apart howns hs.blocks hbu
  omega

theorem same_of_field (hs : Arranged r stale h values) {n : Memory}
    (hb : Holds r values h.memory b o t) (hk : r.kind? t = some k)
    (hn : Memory.ChangesOnly h.memory n (b.toNat + o) k.size) (hv : v ∈ values) :
    SameValue r h.memory n v ∧ SamePaths r h.memory n v ∧ SameLinks r h.memory n v := by
  refine hs.same_of_sameOn hv (hn.sameOn (hs.header_apart hb hk hv)) fun hopen => ?_
  rcases hs.table_apart hb hk hv hopen with hempty | hapart
  · intro x hx hx'
    rw [hempty] at hx'
    omega
  · exact hn.sameOn hapart

end Arranged

/-! What is required of a value carries over to a heap in which it reads the same. -/

theorem OpenAt.frame (ho : OpenAt r h values v) (hk : r.kindAt h.memory v = some .dynobj)
    (hext : h.Extends h') (hnext : h.next ≤ h'.next) (hsame : SameValue r h.memory h'.memory v)
    (htable : OpenObject.tableAddress h.memory v ∉ values')
    (hstorage : OpenObject.storage h.memory v ∉ values') : OpenAt r h' values' v := by
  have haddress := hsame.tableAddress hk
  have hplace := hsame.openStorage hk
  have hentries := hsame.table hk
  refine ⟨?_, ?_, ?_, ?_, ?_, ?_, ?_, ?_, ?_, ?_⟩
  · rw [haddress]
    exact htable
  · rw [hplace]
    exact hstorage
  · rw [hentries, haddress]
    exact ho.table_room.imp_right fun howns => howns.extend hext
  · rw [hplace]
    exact ho.storage_room.imp_right fun howns => howns.extend hext
  · rw [hplace]
    exact fun hne => (ho.storage_pointed hne).extend hext
  · rw [haddress, hplace]
    exact ho.parted
  · rw [hentries]
    exact ho.few.trans hnext
  · rw [hentries]
    exact ho.sorted
  · rw [hentries, hplace, hsame.storageSize hk]
    intro f hf
    obtain ⟨k, hkind, halign, hsize, howns⟩ := ho.placed f hf
    exact ⟨k, hkind, halign, hsize, howns.extend hext⟩
  · rw [hentries]
    exact ho.apart

theorem ViewAt.frame {x : ViewLayout} (hv : ViewAt r h values v x)
    (hx : r.viewLayout (h.memory.typeOf v) = .ok x) (hext : h.Extends h')
    (hsame : SameValue r h.memory h'.memory v)
    (hpaths : View.wrapped h.memory v = 0 → SamePaths r h.memory h'.memory v)
    (hshown : View.wrapped h.memory v ≠ 0 →
      View.wrapped h.memory v ∈ values' ∧ IsRoot r h'.memory (View.wrapped h.memory v) ∧
        ∃ paths, View.paths (.ofTypes r) h'.memory x (View.wrapped h.memory v) = .ok paths)
    (htype : View.wrapped h.memory v ≠ 0 → h'.memory.typeOf (View.wrapped h.memory v) =
      h.memory.typeOf (View.wrapped h.memory v)) :
    ViewAt r h' values' v x := by
  have hk : r.kindAt h.memory v = some .virtual := Registry.kind?_of_viewLayout hx
  have hwrapped := hsame.wrapped hk
  refine ⟨?_, ?_, ?_, ?_⟩
  · rw [hsame.pathsAt hk]
    exact hv.paths_at
  · rw [hwrapped, hsame.storage hk]
    intro halone
    obtain ⟨hplace, howns, hdirect⟩ := hv.standalone halone
    refine ⟨hplace, howns.extend hext, fun i p hp => ?_⟩
    have hi : i < x.fieldCount := (List.getElem?_eq_some_iff.1 hp).1
    rw [hpaths halone x hx i hi]
    exact hdirect i p hp
  · rw [hwrapped]
    exact hshown
  · rw [hwrapped, hsame.type]
    intro hne
    rw [htype hne]
    exact hv.differs hne

theorem ChainAt.frame {m n : Memory} {chain : List Addr} (hc : ChainAt r m values u chain)
    (hhead : n.word (chainHead r n u) = m.word (chainHead r m u))
    (htype : ∀ w ∈ values, n.typeOf w = m.typeOf w)
    (hwrapped : ∀ w ∈ values, r.kindAt m w = some .virtual → View.wrapped n w = View.wrapped m w)
    (hnext : ∀ w ∈ chain, View.next n w = View.next m w) : ChainAt r n values u chain := by
  have hkind : ∀ w ∈ values, r.kindAt n w = r.kindAt m w := by
    intro w hw
    rw [Registry.kindAt, Registry.kindAt, htype w hw]
  refine ⟨?_, hc.nodup, ?_, ?_⟩
  · rw [hhead]
    exact linked_same hnext hc.linked
  · intro w
    rw [hc.mem]
    constructor
    · rintro ⟨hw, hk, hu⟩
      exact ⟨hw, (hkind w hw).trans hk, (hwrapped w hw hk).trans hu⟩
    · rintro ⟨hw, hk, hu⟩
      rw [hkind w hw] at hk
      rw [hwrapped w hw hk] at hu
      exact ⟨hw, hk, hu⟩
  · refine hc.differ.imp_of_mem fun hw hx hdiffer => ?_
    rw [htype _ ((hc.mem _).1 hw).1, htype _ ((hc.mem _).1 hx).1]
    exact hdiffer

theorem chainHead_same {m n : Memory} (hu : IsChained r m u) (hsame : SameValue r m n u)
    (hlinks : SameLinks r m n u) : n.word (chainHead r n u) = m.word (chainHead r m u) := by
  unfold chainHead
  rw [hsame.kindAt]
  rcases hu with hopen | ⟨hview, -⟩
  · rw [if_pos hopen]
    exact hlinks.views hopen
  · rw [if_neg (by rw [hview]; decide)]
    exact hlinks.next hview

theorem exact_frame {x : ViewLayout} {m n : Memory}
    (hx : r.viewLayout (m.typeOf v) = .ok x) (hsame : SameValue r m n v)
    (hpaths : SamePaths r m n v) (hroot : SameValue r m n (View.wrapped m v))
    (hexact : View.paths (.ofTypes r) m x (View.wrapped m v) =
      .ok ((List.range x.fieldCount).map (View.path m v))) :
    View.paths (.ofTypes r) n x (View.wrapped n v) =
      .ok ((List.range x.fieldCount).map (View.path n v)) := by
  rw [hsame.wrapped (Registry.kind?_of_viewLayout hx), paths_same hroot, hexact]
  have hmap : (List.range x.fieldCount).map (View.path n v) =
      (List.range x.fieldCount).map (View.path m v) :=
    List.map_congr_left fun i hi => hpaths x hx i (List.mem_range.1 hi)
  rw [hmap]

/-- What a heap has to satisfy that follows on an arranged one, in which some open objects have become
others and the paths of the views in `stale'` may be outdated. -/
structure Rearranged (r : Registry) (values changed stale' : Set Addr) (h h' : Heap) : Prop where
  blocks : h'.WellFormed
  extended : h.Extends h'
  next : h.next ≤ h'.next
  type : ∀ v ∈ values, h'.memory.typeOf v = h.memory.typeOf v
  same : ∀ v ∈ values, v ∉ changed → SameValue r h.memory h'.memory v
  changed_open : ∀ v ∈ values, v ∈ changed → r.kindAt h.memory v = some .dynobj ∧ OpenAt r h' values v
  changed_parts : ∀ u ∈ values, u ∈ changed → ∀ v ∈ values, r.kindAt h.memory v = some .dynobj →
    ∀ a, IsPart h'.memory u a → IsPart h'.memory v a → u = v
  standalone : ∀ v ∈ values, View.wrapped h.memory v = 0 → SamePaths r h.memory h'.memory v
  shown : ∀ v ∈ values, ∀ l, r.viewLayout (h.memory.typeOf v) = .ok l →
    View.wrapped h.memory v ∈ changed →
      ∃ paths, View.paths (.ofTypes r) h'.memory l (View.wrapped h.memory v) = .ok paths
  exact : ∀ v ∈ values, v ∉ stale' → ∀ l, r.viewLayout (h'.memory.typeOf v) = .ok l →
    View.wrapped h'.memory v ≠ 0 → View.paths (.ofTypes r) h'.memory l (View.wrapped h'.memory v) =
      .ok ((List.range l.fieldCount).map (View.path h'.memory v))

namespace Rearranged

variable {changed stale' : Set Addr}

theorem kindAt (hc : Rearranged r values changed stale' h h') (hv : v ∈ values) :
    r.kindAt h'.memory v = r.kindAt h.memory v := by
  rw [Registry.kindAt, Registry.kindAt, hc.type v hv]

theorem same_of_kindAt (hc : Rearranged r values changed stale' h h') (hv : v ∈ values)
    (hk : r.kindAt h.memory v = some k) (hne : k ≠ .dynobj) : SameValue r h.memory h'.memory v := by
  refine hc.same v hv fun hmem => hne ?_
  exact Option.some.inj (hk.symm.trans (hc.changed_open v hv hmem).1)

theorem goesOn (hc : Rearranged r values changed stale' h h') :
    GoesOn r values h.memory values h'.memory := by
  refine ⟨Set.Subset.rfl, hc.type, fun v hv k hk hraw => ?_, fun v hv hk => ?_⟩
  · refine (hc.same_of_kindAt hv hk ?_).pointer k hk hraw
    rintro rfl
    cases hraw
  · exact (hc.same_of_kindAt hv hk (by decide)).wrapped hk

theorem arranged (hc : Rearranged r values changed stale' h h')
    (hs : Arranged r stale h values) : Arranged r stale' h' values := by
  refine
    { blocks := hc.blocks, kinds := ?kinds, owned := ?owned, instances := ?instances,
      arrays := ?arrays, pointed := ?pointed, opens := ?opens, parts := ?parts, views := ?views,
      exact := hc.exact }
  case kinds =>
    intro v hv
    rw [hc.kindAt hv]
    exact hs.kinds v hv
  case owned =>
    intro v hv
    rw [ObjectModel.headerSize, hc.type v hv]
    exact (hs.owned v hv).extend hc.extended
  case instances =>
    intro v hv hk
    rw [hc.kindAt hv] at hk
    obtain ⟨c, hc', howns⟩ := hs.instances v hv hk
    rw [hc.type v hv]
    exact ⟨c, hc', howns.extend hc.extended⟩
  case arrays =>
    intro v hv t n hparts
    obtain ⟨k, hk, -⟩ := hs.kinds v hv
    by_cases hopen : k = .dynobj
    · subst hopen
      have harray := (parts_ok hparts).1
      change r.kindAt h'.memory v = some .array at harray
      rw [hc.kindAt hv, hk] at harray
      cases harray
    · rw [(hc.same_of_kindAt hv hk hopen).parts] at hparts
      obtain ⟨l, hl, howns⟩ := hs.arrays v hv t n hparts
      exact ⟨l, hl, howns.extend hc.extended⟩
  case pointed =>
    intro v hv hneeds
    refine (hs.pointed v hv ?_).extend hc.extended
    by_cases hchanged : v ∈ changed
    · exact .header (hc.changed_open v hv hchanged).1 (List.cons_ne_nil _ _)
    · exact hneeds.same (hc.same v hv hchanged)
  case opens =>
    intro v hv hk
    rw [hc.kindAt hv] at hk
    by_cases hchanged : v ∈ changed
    · exact (hc.changed_open v hv hchanged).2
    · have ho := hs.opens v hv hk
      exact ho.frame hk hc.extended hc.next (hc.same v hv hchanged) ho.table_out ho.storage_out
  case parts =>
    intro u hu v hv hku hkv a hua hva
    rw [hc.kindAt hu] at hku
    rw [hc.kindAt hv] at hkv
    by_cases huc : u ∈ changed
    · exact hc.changed_parts u hu huc v hv hkv a hua hva
    · by_cases hvc : v ∈ changed
      · exact (hc.changed_parts v hv hvc u hu hku a hva hua).symm
      · unfold IsPart at hua hva
        rw [(hc.same u hu huc).tableAddress hku, (hc.same u hu huc).openStorage hku] at hua
        rw [(hc.same v hv hvc).tableAddress hkv, (hc.same v hv hvc).openStorage hkv] at hva
        exact hs.parts u hu v hv hku hkv a hua hva
  case views =>
    intro v hv hk
    rw [hc.kindAt hv] at hk
    obtain ⟨l, hl, hview⟩ := hs.views v hv hk
    have hsame := hc.same_of_kindAt hv hk (by decide)
    rw [hc.type v hv]
    refine ⟨l, hl, hview.frame hl hc.extended hsame (hc.standalone v hv) (fun hne => ?_)
      fun hne => hc.type _ (hview.shown hne).1⟩
    obtain ⟨hroot, hisRoot, paths, hpaths⟩ := hview.shown hne
    by_cases hchanged : View.wrapped h.memory v ∈ changed
    · refine ⟨hroot, Or.inr (Or.inl ?_), hc.shown v hv l hl hchanged⟩
      rw [hc.kindAt hroot]
      exact (hc.changed_open _ hroot hchanged).1
    · have hrootSame := hc.same _ hroot hchanged
      exact ⟨hroot, hisRoot.same hrootSame, paths, (paths_same hrootSame l).trans hpaths⟩

end Rearranged

namespace Arranged

theorem frame (hs : Arranged r stale h values) (hwf : h'.WellFormed) (hext : h.Extends h')
    (hnext : h.next ≤ h'.next)
    (hsame : ∀ v ∈ values, SameValue r h.memory h'.memory v ∧ SamePaths r h.memory h'.memory v) :
    Arranged r stale h' values := by
  have hvalue : ∀ v ∈ values, SameValue r h.memory h'.memory v := fun v hv => (hsame v hv).1
  have hc : Rearranged r values ∅ stale h h' := by
    refine ⟨hwf, hext, hnext, fun v hv => (hvalue v hv).type, fun v hv _ => hvalue v hv,
      fun v _ hv => absurd hv (Set.notMem_empty v), fun u _ hu => absurd hu (Set.notMem_empty u),
      fun v hv _ => (hsame v hv).2, fun v _ l _ hv => absurd hv (Set.notMem_empty _), ?_⟩
    intro v hv hstale l hl hne
    rw [(hvalue v hv).type] at hl
    have hk : r.kindAt h.memory v = some .virtual := Registry.kind?_of_viewLayout hl
    rw [(hvalue v hv).wrapped hk] at hne
    obtain ⟨l', hl', hview⟩ := hs.views v hv hk
    obtain rfl : l = l' := Except.ok.inj (hl.symm.trans hl')
    exact exact_frame hl (hvalue v hv) (hsame v hv).2 (hvalue _ (hview.shown hne).1)
      (hs.exact v hv hstale l hl hne)
  exact hc.arranged hs

theorem sameFields_of_below (hs : Arranged r stale h values) {n : Memory}
    (hn : Memory.SameOn h.memory n 0 h.next) : SameFields r values h.memory n := by
  intro b o t k hb hk
  obtain ⟨k', hk', howns, -⟩ := hs.holds_range hb
  obtain rfl : k = k' := Option.some.inj (hk.symm.trans hk')
  have hbelow := howns.le_next hs.blocks
  exact hn.mono (Nat.zero_le _) (by omega)

theorem spares_of_store (hs : Arranged r stale h values) (hb : Holds r values h.memory b o t) {s : Slot}
    (hk : r.kind? t = some k) (hfits : s.fits k = true) {quiet : Set Addr} (hquiet : b ∉ quiet) :
    Heap.Spares quiet h { h with memory := h.memory.write (b.toNat + o) s } := by
  obtain ⟨k', hk', howns, -⟩ := hs.holds_range hb
  obtain rfl : k = k' := Option.some.inj (hk.symm.trans hk')
  have hwidth := Slot.width_of_fits hfits
  exact .of_changes hs.blocks howns hquiet (Memory.changesOnly_write h.memory (b.toNat + o) s) (by omega)
    (by omega)

end Arranged

/-- The field of the type `t` at an offset in a block has got the slot `s`: all values read the same, and
every other field holds what it held. -/
structure Stores (r : Registry) (values : Set Addr) (b : Addr) (o : Nat) (t : TypeId) (s : Slot)
    (m n : Memory) : Prop where
  same : ∀ v ∈ values, SameValue r m n v
  read : ∀ k, r.kind? t = some k → n.read (b.toNat + o) k = s
  others : ∀ c p t' l, Holds r values m c p t' → r.kind? t' = some l →
    (b = c ∧ o = p ∧ t = t') ∨ Memory.SameOn m n (c.toNat + p) l.size

theorem Stores.trans {s : Slot} {l m n : Memory} (hstores : Stores r values b o t s l m)
    (hb : Holds r values l b o t) (hsame : ∀ v ∈ values, SameValue r m n v)
    (hfields : SameFields r values m n) : Stores r values b o t s l n := by
  refine ⟨fun v hv => (hstores.same v hv).trans (hsame v hv), fun k hk => ?_, fun c p t' k hc hk => ?_⟩
  · rw [(hfields b o t k (hb.same hstores.same) hk).read, hstores.read k hk]
  · refine (hstores.others c p t' k hc hk).imp_right fun hkeep => ?_
    exact hkeep.trans (hfields c p t' k (hc.same hstores.same) hk)

namespace Ordered

theorem frame (hs : Ordered r stale h values) (hwf : h'.WellFormed) (hext : h.Extends h')
    (hnext : h.next ≤ h'.next)
    (hsame : ∀ v ∈ values, SameValue r h.memory h'.memory v ∧ SamePaths r h.memory h'.memory v ∧
      SameLinks r h.memory h'.memory v) : Ordered r stale h' values := by
  refine ⟨hs.arranged.frame hwf hext hnext fun v hv => ⟨(hsame v hv).1, (hsame v hv).2.1⟩, ?_⟩
  intro u hu hchained
  have hchained' := hchained.same (hsame u hu).1.symm
  obtain ⟨chain, hchain⟩ := hs.chains u hu hchained'
  refine ⟨chain, hchain.frame (chainHead_same hchained' (hsame u hu).1 (hsame u hu).2.2)
    (fun w hw => (hsame w hw).1.type) (fun w hw => (hsame w hw).1.wrapped) fun w hw => ?_⟩
  obtain ⟨hwv, hk, -⟩ := (hchain.mem w).1 hw
  exact (hsame w hwv).2.2.next hk

theorem grow (hs : Ordered r stale h values) (hwf : h'.WellFormed) (hext : h.Extends h')
    (hnext : h.next ≤ h'.next) (hn : Memory.SameOn h.memory h'.memory 0 h.next) :
    Ordered r stale h' values :=
  hs.frame hwf hext hnext fun _ hv => hs.arranged.same_of_below hn hv

theorem store (hs : Ordered r stale h values) (hb : Holds r values h.memory b o t) {s : Slot}
    {m : Memory} (hk : r.kind? t = some k) (hfits : s.fits k = true)
    (hm : m = h.memory.write (b.toNat + o) s) :
    Ordered r stale { h with memory := m } values ∧ Stores r values b o t s h.memory m := by
  have hwidth := Slot.width_of_fits hfits
  have hchange : Memory.ChangesOnly h.memory m (b.toNat + o) k.size := by
    rw [hm, ← hwidth]
    exact Memory.changesOnly_write h.memory (b.toNat + o) s
  have hsame := fun v (hv : v ∈ values) => hs.arranged.same_of_field hb hk hchange hv
  refine ⟨hs.frame hs.arranged.blocks.withMemory (.refl h) le_rfl hsame, fun v hv => (hsame v hv).1, ?_, ?_⟩
  · intro k' hk'
    obtain rfl : k = k' := Option.some.inj (hk.symm.trans hk')
    rw [hm, Memory.read_write_same _ _ hfits]
  · intro c p t' l hc hl
    refine (hs.arranged.holds_apart hb hc hk hl).imp_right fun hapart => ?_
    exact hchange.sameOn hapart.symm

end Ordered

namespace Sound

theorem of_ordered {stale' : Set Addr} (ho : Ordered r stale' h' values)
    (hsame : ∀ v ∈ values, SameValue r h.memory h'.memory v)
    (hcontent : ∀ b o t k, Holds r values h.memory b o t → r.kind? t = some k →
      WellTyped r held values h.memory t (h'.memory.read (b.toNat + o) k)) :
    Sound r held stale' h' values := by
  refine ⟨ho, fun b o t k hb hk => ?_⟩
  have hb' : Holds r values h.memory b o t := hb.same fun v hv => (hsame v hv).symm
  exact (hcontent b o t k hb' hk).goesOn (goesOn_of_sameValue hsame)

theorem grow (hs : Sound r held stale h values) (hwf : h'.WellFormed) (hext : h.Extends h')
    (hnext : h.next ≤ h'.next) (hn : Memory.SameOn h.memory h'.memory 0 h.next) :
    Sound r held stale h' values := by
  apply Sound.of_ordered (hs.toOrdered.grow hwf hext hnext hn)
  · intro v hv
    exact (hs.arranged.same_of_below hn hv).1
  · intro b o t k hb hk
    rw [(hs.arranged.sameFields_of_below hn b o t k hb hk).read]
    exact hs.content b o t k hb hk

/-- A heap stays sound when a slot of the type of a field is written to the field, and all values read
the same. -/
theorem store (hs : Sound r held stale h values) (hb : Holds r values h.memory b o t) {s : Slot}
    {m : Memory} (hslot : WellTyped r held values h.memory t s)
    (hm : m = h.memory.write (b.toNat + o) s) :
    Sound r held stale { h with memory := m } values ∧ ∀ v ∈ values, SameValue r h.memory m v := by
  obtain ⟨k, hk, hfits, -⟩ := id hslot
  obtain ⟨hordered, hstores⟩ := hs.toOrdered.store hb hk hfits hm
  refine ⟨.of_ordered hordered hstores.same fun c p t' l hc hl => ?_, hstores.same⟩
  change WellTyped r held values h.memory t' (m.read (c.toNat + p) l)
  rcases hstores.others c p t' l hc hl with ⟨rfl, rfl, rfl⟩ | hkeep
  · rw [hstores.read l hl]
    exact hslot
  · rw [hkeep.read]
    exact hs.content c p t' l hc hl

end Sound

end ObjectModel
