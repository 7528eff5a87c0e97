import ObjectModel.Proofs.Value.Separation

/-!
One more value in a sound heap. Its block is new, so nothing leads to it yet, and what it must satisfy
concerns itself only; a view of a chained value is linked in front of the chain as it joins.
-/

set_option autoImplicit false
set_option relaxedAutoImplicit false

namespace ObjectModel

variable {r : Registry} {held : Addr → TypeId → Prop} {stale values values' : Set Addr} {h h' : Heap}
  {u v b : Addr} {o n : Nat} {t : TypeId} {k : Kind}

/-- A heap with one more block, which has room for `n` bytes and lies behind all that the first heap
has; what lies before is unchanged. -/
structure Gained (h h' : Heap) (v : Addr) (n : Nat) : Prop where
  wellFormed : h'.WellFormed
  blocks : h.Extends h'
  fresh : h.fresh h' = {v}
  address : h.next ≤ v.toNat
  next : h.next ≤ h'.next
  same : Memory.SameOn h.memory h'.memory 0 h.next
  owned : h'.Owns v n

namespace Gained

theorem withMemory (hg : Gained h h' v n) {m : Memory} (hm : Memory.SameOn h'.memory m 0 v.toNat) :
    Gained h { h' with memory := m } v n := by
  have haddress := hg.address
  exact ⟨hg.wellFormed.withMemory, hg.blocks, hg.fresh, hg.address, hg.next,
    hg.same.trans (hm.mono le_rfl (by omega)), hg.owned⟩

theorem change (hg : Gained h h' v n) {m : Memory} {a len : Nat} (ha : v.toNat ≤ a)
    (hm : Memory.ChangesOnly h'.memory m a len) : Gained h { h' with memory := m } v n :=
  hg.withMemory (hm.sameOn (Or.inl (by omega)))

theorem new (hg : Gained h h' v n) (hs : Arranged r stale h values) : v ∉ values := by
  intro hv
  have hlt := (hs.owned v hv).lt_next hs.blocks
  have := hg.address
  omega

theorem free (hg : Gained h h' v n) (hs : Arranged r stale h values) (hu : u ∈ values)
    (hk : r.kindAt h'.memory u = some .dynobj) : ¬IsPart h'.memory u v := by
  have hsame := (hs.same_of_below hg.same hu).1
  rw [hsame.kindAt] at hk
  unfold IsPart
  rw [hsame.tableAddress hk, hsame.openStorage hk]
  have ho := hs.opens u hu hk
  have haddress := hg.address
  rintro ⟨hne, rfl | rfl⟩
  · rcases ho.table_room with ⟨-, hzero⟩ | howns
    · exact hne hzero
    · have := howns.lt_next hs.blocks
      omega
  · rcases ho.storage_room with hzero | howns
    · exact hne hzero
    · have := howns.lt_next hs.blocks
      omega

end Gained

structure Newcomer (r : Registry) (held : Addr → TypeId → Prop) (h : Heap) (values : Set Addr) (v : Addr) :
    Prop where
  new : v ∉ values
  free : ∀ u ∈ values, r.kindAt h.memory u = some .dynobj → ¬IsPart h.memory u v
  kind : ∃ k, r.kindAt h.memory v = some k ∧ k.describesValue = true
  owned : h.Owns v (headerSize r h.memory v)
  instance_ok : r.kindAt h.memory v = some .object →
    ∃ c, r.classLayout (h.memory.typeOf v) = .ok c ∧ h.Owns v c.size
  array_ok : ∀ t n, ArrayValue.parts (.ofTypes r) h.memory v = .ok (t, n) →
    ∃ k, r.kind? t = some k ∧ h.Owns v (ArrayValue.dataOffset + n * k.size)
  pointed : NeedsPointers r h.memory v → h.PointersAt v
  open_ok : r.kindAt h.memory v = some .dynobj →
    OpenAt r h (insert v values) v ∧ ∀ a, ¬IsPart h.memory v a
  view_ok : r.kindAt h.memory v = some .virtual →
    ∃ l, r.viewLayout (h.memory.typeOf v) = .ok l ∧ ViewAt r h (insert v values) v l ∧
      (View.wrapped h.memory v ≠ 0 →
        View.paths (.ofTypes r) h.memory l (View.wrapped h.memory v) =
          .ok ((List.range l.fieldCount).map (View.path h.memory v)))
  content : ∀ b o t k, Holds r {v} h.memory b o t → r.kind? t = some k →
    WellTyped r held (insert v values) h.memory t (h.memory.read (b.toNat + o) k)

private theorem holds_insert {m : Memory} (hb : Holds r (insert v values) m b o t) :
    Holds r {v} m b o t ∨ Holds r values m b o t := by
  cases hb with
  | «instance» hv hx hf =>
    rcases Set.mem_insert_iff.1 hv with rfl | hv
    · exact Or.inl (.instance rfl hx hf)
    · exact Or.inr (.instance hv hx hf)
  | standalone hv hx hwrapped hf =>
    rcases Set.mem_insert_iff.1 hv with rfl | hv
    · exact Or.inl (.standalone rfl hx hwrapped hf)
    · exact Or.inr (.standalone hv hx hwrapped hf)
  | openField hv hk hf =>
    rcases Set.mem_insert_iff.1 hv with rfl | hv
    · exact Or.inl (.openField rfl hk hf)
    · exact Or.inr (.openField hv hk hf)

theorem Holds.mono {m : Memory} (hb : Holds r values m b o t) (hsub : values ⊆ values') :
    Holds r values' m b o t := by
  cases hb with
  | «instance» hv hx hf => exact .instance (hsub hv) hx hf
  | standalone hv hx hwrapped hf => exact .standalone (hsub hv) hx hwrapped hf
  | openField hv hk hf => exact .openField (hsub hv) hk hf

theorem goesOn_insert (m : Memory) : GoesOn r values m (insert v values) m :=
  ⟨Set.subset_insert v values, fun _ _ => rfl, fun _ _ _ _ _ => rfl, fun _ _ _ => rfl⟩

theorem Arranged.insert (hs : Arranged r stale h values) (hv : Newcomer r held h values v) :
    Arranged r stale h (insert v values) := by
  have hne : v ≠ 0 := hv.owned.ne_zero hs.blocks
  refine
    { blocks := hs.blocks, kinds := ?kinds, owned := ?owned, instances := ?instances,
      arrays := ?arrays, pointed := ?pointed, opens := ?opens, parts := ?parts, views := ?views,
      exact := ?paths }
  case kinds =>
    intro x hx
    rcases Set.mem_insert_iff.1 hx with rfl | hx
    · exact hv.kind
    · exact hs.kinds x hx
  case owned =>
    intro x hx
    rcases Set.mem_insert_iff.1 hx with rfl | hx
    · exact hv.owned
    · exact hs.owned x hx
  case instances =>
    intro x hx
    rcases Set.mem_insert_iff.1 hx with rfl | hx
    · exact hv.instance_ok
    · exact hs.instances x hx
  case arrays =>
    intro x hx
    rcases Set.mem_insert_iff.1 hx with rfl | hx
    · exact hv.array_ok
    · exact hs.arrays x hx
  case pointed =>
    intro x hx
    rcases Set.mem_insert_iff.1 hx with rfl | hx
    · exact hv.pointed
    · exact hs.pointed x hx
  case opens =>
    intro x hx hk
    rcases Set.mem_insert_iff.1 hx with rfl | hx
    · exact (hv.open_ok hk).1
    · have ho := hs.opens x hx hk
      refine ho.frame hk (.refl h) le_rfl (.refl r h.memory x) ?_ ?_
      · intro hmem
        rcases Set.mem_insert_iff.1 hmem with heq | hmem
        · exact hv.free x hx hk ⟨hne, Or.inl heq.symm⟩
        · exact ho.table_out hmem
      · intro hmem
        rcases Set.mem_insert_iff.1 hmem with heq | hmem
        · exact hv.free x hx hk ⟨hne, Or.inr heq.symm⟩
        · exact ho.storage_out hmem
  case parts =>
    intro x hx y hy hkx hky a hxa hya
    rcases Set.mem_insert_iff.1 hx with rfl | hx
    · exact absurd hxa ((hv.open_ok hkx).2 a)
    · rcases Set.mem_insert_iff.1 hy with rfl | hy
      · exact absurd hya ((hv.open_ok hky).2 a)
      · exact hs.parts x hx y hy hkx hky a hxa hya
  case views =>
    intro x hx hk
    rcases Set.mem_insert_iff.1 hx with rfl | hx
    · obtain ⟨l, hl, hview, -⟩ := hv.view_ok hk
      exact ⟨l, hl, hview⟩
    · obtain ⟨l, hl, hview⟩ := hs.views x hx hk
      refine ⟨l, hl, hview.paths_at, hview.standalone, fun hshown => ?_, hview.differs⟩
      obtain ⟨hroot, hrest⟩ := hview.shown hshown
      exact ⟨Set.mem_insert_of_mem v hroot, hrest⟩
  case paths =>
    intro x hx hstale l hl hshown
    rcases Set.mem_insert_iff.1 hx with rfl | hx
    · obtain ⟨l', hl', -, hexact⟩ := hv.view_ok (Registry.kind?_of_viewLayout hl)
      obtain rfl : l = l' := Except.ok.inj (hl.symm.trans hl')
      exact hexact hshown
    · exact hs.exact x hx hstale l hl hshown

private theorem Newcomer.content_insert (hv : Newcomer r held h values v)
    (hs : Sound r held stale h values) (hb : Holds r (insert v values) h.memory b o t)
    (hk : r.kind? t = some k) :
    WellTyped r held (insert v values) h.memory t (h.memory.read (b.toNat + o) k) := by
  rcases holds_insert hb with hb | hb
  · exact hv.content b o t k hb hk
  · exact (hs.content b o t k hb hk).goesOn (goesOn_insert h.memory)

/-! A chained value is no view of another value, and its chain gets longer only by views of it. -/

theorem IsChained.wrapped_eq_zero {m : Memory} (hchained : IsChained r m u)
    (hk : r.kindAt m u = some .virtual) : View.wrapped m u = 0 := by
  rcases hchained with hopen | ⟨-, hzero⟩
  · rw [hk] at hopen
    cases hopen
  · exact hzero

theorem ne_of_wrapped {m : Memory} {w : Addr} (hchained : IsChained r m u)
    (hk : r.kindAt m w = some .virtual) (hwrapped : View.wrapped m w = u) (hne : u ≠ 0) : w ≠ u := by
  rintro rfl
  exact hne (hwrapped.symm.trans (hchained.wrapped_eq_zero hk))

private theorem ChainAt.join {m : Memory} {chain : List Addr} (hchain : ChainAt r m values u chain)
    (hother : r.kindAt m v = some .virtual → View.wrapped m v ≠ u) :
    ChainAt r m (insert v values) u chain := by
  refine ⟨hchain.linked, hchain.nodup, fun w => ?_, hchain.differ⟩
  rw [hchain.mem]
  constructor
  · rintro ⟨hw, hrest⟩
    exact ⟨Set.mem_insert_of_mem v hw, hrest⟩
  · rintro ⟨hw, hk, hwrapped⟩
    rcases Set.mem_insert_iff.1 hw with rfl | hw
    · exact absurd hwrapped (hother hk)
    · exact ⟨hw, hk, hwrapped⟩

private theorem ChainAt.cons {m n : Memory} {chain : List Addr} (hchain : ChainAt r m values u chain)
    (hnew : v ∉ values) (hne : v ≠ 0) (hview : r.kindAt m v = some .virtual)
    (hwrapped : View.wrapped m v = u) (hsame : ∀ x ∈ insert v values, SameValue r m n x)
    (hhead : n.word (chainHead r n u) = v) (hnext : View.next n v = m.word (chainHead r m u))
    (hmembers : ∀ w ∈ chain, View.next n w = View.next m w)
    (hdiffer : ∀ w ∈ values, r.kindAt m w = some .virtual → View.wrapped m w = u →
      r.sameType (m.typeOf v) (m.typeOf w) = false) :
    ChainAt r n (insert v values) u (v :: chain) := by
  have hv : v ∈ insert v values := Set.mem_insert v values
  have htype : ∀ w ∈ chain, n.typeOf w = m.typeOf w := fun w hw =>
    (hsame w (Set.mem_insert_of_mem v ((hchain.mem w).1 hw).1)).type
  refine ⟨?_, ?_, ?_, ?_⟩
  · rw [hhead]
    refine ⟨rfl, hne, ?_⟩
    rw [hnext]
    exact linked_same hmembers hchain.linked
  · exact List.nodup_cons.2 ⟨fun hmem => hnew ((hchain.mem v).1 hmem).1, hchain.nodup⟩
  · intro w
    rw [List.mem_cons, hchain.mem]
    constructor
    · rintro (rfl | ⟨hw, hk, hww⟩)
      · exact ⟨hv, (hsame w hv).kindAt.trans hview, ((hsame w hv).wrapped hview).trans hwrapped⟩
      · have hw' := Set.mem_insert_of_mem v hw
        exact ⟨hw', (hsame w hw').kindAt.trans hk, ((hsame w hw').wrapped hk).trans hww⟩
    · rintro ⟨hw, hk, hww⟩
      rw [(hsame w hw).kindAt] at hk
      rw [(hsame w hw).wrapped hk] at hww
      rcases Set.mem_insert_iff.1 hw with rfl | hw
      · exact Or.inl rfl
      · exact Or.inr ⟨hw, hk, hww⟩
  · refine List.pairwise_cons.2 ⟨fun w hw => ?_, ?_⟩
    · obtain ⟨hwv, hwk, hww⟩ := (hchain.mem w).1 hw
      rw [(hsame v hv).type, htype w hw]
      exact hdiffer w hwv hwk hww
    · refine hchain.differ.imp_of_mem fun ha hb hab => ?_
      rw [htype _ ha, htype _ hb]
      exact hab

namespace Sound

/-- A value joins a sound heap. If it has views they come later, and if it is a view then of a value
whose views are not chained. -/
theorem insert (hs : Sound r held stale h values) (hv : Newcomer r held h values v)
    (halone : r.kindAt h.memory v = some .virtual →
      View.wrapped h.memory v = 0 ∨ r.kindAt h.memory (View.wrapped h.memory v) = some .object)
    (hhead : IsChained r h.memory v → h.memory.word (chainHead r h.memory v) = 0) :
    Sound r held stale h (insert v values) := by
  have hinsert := hs.arranged.insert hv
  refine ⟨⟨hinsert, fun u hu hchained => ?_⟩, fun b o t k => hv.content_insert hs⟩
  have hne : u ≠ 0 := hinsert.ne_zero hu
  rcases Set.mem_insert_iff.1 hu with rfl | hu
  · -- The chain of the new value is empty, as views show older values only.
    refine ⟨[], hhead hchained, .nil, fun w => ?_, .nil⟩
    simp only [List.not_mem_nil, false_iff]
    rintro ⟨hw, hk, hwrapped⟩
    rcases Set.mem_insert_iff.1 hw with rfl | hw
    · exact ne_of_wrapped hchained hk hwrapped hne rfl
    · obtain ⟨l, -, hview⟩ := hs.arranged.views w hw hk
      have hroot := (hview.shown (by rw [hwrapped]; exact hne)).1
      rw [hwrapped] at hroot
      exact hv.new hroot
  · -- The chain of an older value is as it was: the new value is no view of a chained value.
    obtain ⟨chain, hchain⟩ := hs.chains u hu hchained
    refine ⟨chain, hchain.join fun hk hwrapped => ?_⟩
    rcases halone hk with hzero | hobject
    · exact hne (hwrapped.symm.trans hzero)
    · rw [hwrapped] at hobject
      rcases hchained with hopen | ⟨hview, -⟩
      · rw [hobject] at hopen
        cases hopen
      · rw [hobject] at hview
        cases hview

end Sound

/-! A view of a chained value goes in front of the chain: the word in which the chain starts is the only
one that changes, and only the chain depends on it. -/

theorem chainHead_bounds (hchained : IsChained r h.memory u) :
    (r.kindAt h.memory u = some .dynobj ∧ chainHead r h.memory u = u.toNat + 32 ∧
        headerSize r h.memory u = 40) ∨
      (r.kindAt h.memory u = some .virtual ∧ chainHead r h.memory u = u.toNat + 16 ∧
        40 ≤ headerSize r h.memory u) := by
  unfold chainHead
  rcases hchained with hopen | ⟨hview, -⟩
  · rw [if_pos hopen]
    exact Or.inl ⟨hopen, rfl, headerSize_eq hopen (by decide)⟩
  · rw [if_neg (by rw [hview]; decide)]
    exact Or.inr ⟨hview, rfl, le_headerSize hview⟩

private theorem same_of_chainHead_of_ne (hs : Arranged r stale h values) {m : Memory}
    (hu : u ∈ values) (hchained : IsChained r h.memory u)
    (hm : Memory.ChangesOnly h.memory m (chainHead r h.memory u) 8) {x : Addr} (hx : x ∈ values)
    (hxu : x ≠ u) : SameValue r h.memory m x ∧ SamePaths r h.memory m x ∧ SameLinks r h.memory m x := by
  have howned := hs.owned u hu
  have hhead : u.toNat ≤ chainHead r h.memory u ∧
      chainHead r h.memory u + 8 ≤ u.toNat + headerSize r h.memory u := by
    rcases chainHead_bounds hchained with ⟨-, heq, hsize⟩ | ⟨-, heq, hsize⟩
    · omega
    · omega
  exact hs.same_of_other hu howned hm hhead.1 hhead.2 hx hxu

private theorem same_of_chainHead_of_open (hs : Arranged r stale h values) {m : Memory}
    (hu : u ∈ values) (hopen : r.kindAt h.memory u = some .dynobj)
    (hm : Memory.ChangesOnly h.memory m (u.toNat + 32) 8) : SameValue r h.memory m u := by
  have hsize : headerSize r h.memory u = 40 := headerSize_eq hopen (by decide)
  refine .of_open hopen (hm.sameOn (by omega))
    (hs.table_sameOn hu hopen fun width hpart hroom => hm.sameOn ?_)
  have hne : OpenObject.tableAddress h.memory u ≠ u :=
    fun heq => (hs.part_owned hu hopen hpart).1 (heq.symm ▸ hu)
  have := hroom.apart (hs.owned u hu) hs.blocks hne
  omega

private theorem same_of_chainHead_of_view (hs : Arranged r stale h values) {m : Memory}
    (hu : u ∈ values) (hview : r.kindAt h.memory u = some .virtual)
    (hm : Memory.ChangesOnly h.memory m (u.toNat + 16) 8) :
    SameValue r h.memory m u ∧ SamePaths r h.memory m u := by
  have hsame : SameValue r h.memory m u :=
    .of_view hview (hm.sameOn (by omega)) (hm.sameOn (by omega))
  refine ⟨hsame, fun l hl i hi => ?_⟩
  obtain ⟨l', -, hat⟩ := hs.views u hu hview
  have hplace : u.toNat + View.size + i * Kind.wordSize = u.toNat + (40 + i * 8) := by
    change u.toNat + 40 + i * 8 = _
    omega
  have hword : m.word (u.toNat + (40 + i * 8)) = h.memory.word (u.toNat + (40 + i * 8)) :=
    (hm.sameOn (by omega)).word
  rw [View.path, View.path, hsame.pathsAt hview, hat.paths_at, hplace, hword]

theorem same_of_chainHead (hs : Arranged r stale h values) {m : Memory} (hu : u ∈ values)
    (hchained : IsChained r h.memory u)
    (hm : Memory.ChangesOnly h.memory m (chainHead r h.memory u) 8) {x : Addr} (hx : x ∈ values) :
    SameValue r h.memory m x ∧ SamePaths r h.memory m x := by
  by_cases hxu : x = u
  · subst hxu
    rcases chainHead_bounds hchained with ⟨hopen, heq, -⟩ | ⟨hview, heq, -⟩
    · rw [heq] at hm
      refine ⟨same_of_chainHead_of_open hs hu hopen hm, fun l hl => ?_⟩
      have hview := Registry.kind?_of_viewLayout hl
      rw [Registry.kindAt, hview] at hopen
      cases hopen
    · rw [heq] at hm
      exact same_of_chainHead_of_view hs hu hview hm
  · obtain ⟨hsame, hpaths, -⟩ := same_of_chainHead_of_ne hs hu hchained hm hx hxu
    exact ⟨hsame, hpaths⟩

namespace Sound

theorem link (hs : Sound r held stale h values) (hv : Newcomer r held h values v)
    (hview : r.kindAt h.memory v = some .virtual) (hwrapped : View.wrapped h.memory v = u)
    (hu : u ∈ values) (hchained : IsChained r h.memory u)
    (hnext : View.next h.memory v = h.memory.word (chainHead r h.memory u))
    (hdiffer : ∀ w ∈ values, r.kindAt h.memory w = some .virtual → View.wrapped h.memory w = u →
      r.sameType (h.memory.typeOf v) (h.memory.typeOf w) = false) :
    Sound r held stale { h with memory := h.memory.setWord (chainHead r h.memory u) v }
      (Insert.insert v values) := by
  set m := h.memory.setWord (chainHead r h.memory u) v with hm
  have hinsert := hs.arranged.insert hv
  have hu' : u ∈ Insert.insert v values := Set.mem_insert_of_mem v hu
  have hv' : v ∈ Insert.insert v values := Set.mem_insert v values
  have hchange : Memory.ChangesOnly h.memory m (chainHead r h.memory u) 8 :=
    Memory.changesOnly_setWord h.memory _ v
  have hsame : ∀ x ∈ Insert.insert v values, SameValue r h.memory m x ∧ SamePaths r h.memory m x :=
    fun x hx => same_of_chainHead hinsert hu' hchained hchange hx
  have hvalue : ∀ x ∈ Insert.insert v values, SameValue r h.memory m x := fun x hx => (hsame x hx).1
  have hlinks : ∀ x ∈ Insert.insert v values, x ≠ u → SameLinks r h.memory m x := fun x hx hxu =>
    (same_of_chainHead_of_ne hinsert hu' hchained hchange hx hxu).2.2
  have hune : u ≠ 0 := hs.arranged.ne_zero hu
  have hvu : v ≠ u := fun heq => hv.new (heq ▸ hu)
  refine .of_ordered (h := h) ⟨hinsert.frame hs.arranged.blocks.withMemory (.refl h) le_rfl hsame,
    ?chains⟩ hvalue ?content
  case content =>
    -- Fields do not overlap the word, which lies in the header of `u`.
    intro b o t k hb hk
    have hapart := hinsert.header_apart hb hk hu'
    have hread : m.read (b.toNat + o) k = h.memory.read (b.toNat + o) k := by
      refine (hchange.sameOn ?_).read
      rcases chainHead_bounds hchained with ⟨-, heq, hsize⟩ | ⟨-, heq, hsize⟩
      · omega
      · omega
    change WellTyped r held _ h.memory t (m.read (b.toNat + o) k)
    rw [hread]
    exact hv.content_insert hs hb hk
  case chains =>
    intro x hx hxchained
    have hxchained' : IsChained r h.memory x := hxchained.same (hvalue x hx).symm
    have hxne : x ≠ 0 := hinsert.ne_zero hx
    have hxvalues : x ∈ values := by
      rcases Set.mem_insert_iff.1 hx with rfl | hx
      · exact absurd (hwrapped.symm.trans (hxchained'.wrapped_eq_zero hview)) hune
      · exact hx
    obtain ⟨chain, hchain⟩ := hs.chains x hxvalues hxchained'
    -- No link of a chain is the changed word: views of `x` are neither `x` nor a chained `u`.
    have hmembers : ∀ w ∈ chain, View.next m w = View.next h.memory w := by
      intro w hw
      obtain ⟨hwv, hwk, hww⟩ := (hchain.mem w).1 hw
      refine (hlinks w (Set.mem_insert_of_mem v hwv) ?_).next hwk
      rintro rfl
      exact hxne (hww.symm.trans (hchained.wrapped_eq_zero hwk))
    by_cases hxu : x = u
    · subst hxu
      have hhead : chainHead r m x = chainHead r h.memory x := by
        unfold chainHead
        rw [(hvalue x hx).kindAt]
      refine ⟨v :: chain, hchain.cons hv.new (hv.owned.ne_zero hs.arranged.blocks) hview hwrapped hvalue ?_
        (((hlinks v hv' hvu).next hview).trans hnext) hmembers hdiffer⟩
      change m.word (chainHead r m x) = v
      rw [hhead]
      exact Memory.word_setWord_same _ _ _
    · have hother : r.kindAt h.memory v = some .virtual → View.wrapped h.memory v ≠ x :=
        fun _ heq => hxu (heq.symm.trans hwrapped)
      exact ⟨chain, (hchain.join hother).frame (chainHead_same hxchained' (hvalue x hx) (hlinks x hx hxu))
        (fun w hw => (hvalue w hw).type) (fun w hw => (hvalue w hw).wrapped) hmembers⟩

end Sound

end ObjectModel
