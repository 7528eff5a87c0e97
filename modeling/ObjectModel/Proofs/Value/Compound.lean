import ObjectModel.Proofs.Value.Creation

/-!
Operations that make a value with fields or elements of its own: instances, arrays, open objects, and
virtual values that stand alone. All that is in a new one is zero, and so of every type of its kind.
-/

set_option autoImplicit false
set_option relaxedAutoImplicit false

namespace ObjectModel

variable {r : Registry} {held : Addr → TypeId → Prop} {values : Set Addr} {h h' : Heap} {v : Addr}
  {n i j length : Nat} {t : TypeId} {k : Kind} {m : Memory}

private theorem Kept.join_instance (hs : Sound r held ∅ h values) {c : ClassLayout}
    (hg : Gained h h' v c.size) (hc : r.classLayout (h'.memory.typeOf v) = .ok c)
    (hzero : ∀ a n, v.toNat + 8 ≤ a → Memory.ZeroOn h'.memory a n)
    (hpointed : c.hasPointer = true → h'.PointersAt v) :
    Kept r held h values h' (insert v values) := by
  have hk : r.kindAt h'.memory v = some .object := Registry.kind?_of_classLayout hc
  have hstart : 8 ≤ c.size := (Registry.classLayout_packed hc).start_le
  have hsize : headerSize r h'.memory v = 8 := headerSize_eq hk (by decide)
  refine .join_kind hs hg hk rfl (by omega) (fun _ => ⟨c, hc, hg.owned⟩) nofun ?_ nofun nofun nofun ?_
  · rintro (⟨hl, hsome⟩ | ⟨hc', hpointer⟩ | ⟨hparts, -, -⟩)
    · obtain rfl := Option.some.inj (hk.symm.trans hl)
      exact absurd rfl hsome
    · exact hpointed (Except.ok.inj (hc'.symm.trans hc) ▸ hpointer)
    · exact absurd (parts_ok hparts).1 (kindAt_ne hk (by decide))
  intro b o u l hb hl
  cases hb with
  | @«instance» _ c' p hv hc' hp =>
    obtain rfl := Set.mem_singleton_iff.1 hv
    obtain rfl : c = c' := Except.ok.inj (hc.symm.trans hc')
    obtain ⟨_, -, hlow, -⟩ := (Registry.classLayout_packed hc).placed p hp
    exact (hzero _ _ (Nat.add_le_add_left hlow _)).read
  | standalone hv hl' _ _ =>
    obtain rfl := Set.mem_singleton_iff.1 hv
    exact absurd (Registry.kind?_of_viewLayout hl') (kindAt_ne hk (by decide))
  | openField hv hopen _ =>
    obtain rfl := Set.mem_singleton_iff.1 hv
    exact absurd hopen (kindAt_ne hk (by decide))

private theorem Kept.join_array (hs : Sound r held ∅ h values) {element : TypeId}
    (helement : r.kind? element = some k) (hg : Gained h h' v (ArrayValue.dataOffset + n * k.size))
    (hk : r.kindAt h'.memory v = some .array)
    (hword : h'.memory.word (v.toNat + ArrayValue.elementOffset) = element.raw.toUInt64)
    (hcount : h'.memory.count (v.toNat + ArrayValue.lengthOffset) = n)
    (hpointed : k.isPointer = true → h'.PointersAt v) :
    Kept r held h values h' (insert v values) := by
  have hsize : headerSize r h'.memory v = ArrayValue.dataOffset := headerSize_eq hk (by decide)
  have hparts : ∀ u length, ArrayValue.parts (.ofTypes r) h'.memory v = .ok (u, length) →
      u = element ∧ length = n := by
    intro u length hparts
    obtain ⟨-, hu, hlength⟩ := parts_ok hparts
    refine ⟨?_, hlength.trans hcount⟩
    rw [hu, hword]
    simp
  refine .join_kind hs hg hk rfl (by omega) nofun (fun _ u length hread => ?_) ?_ nofun nofun nofun ?_
  · obtain ⟨rfl, rfl⟩ := hparts u length hread
    exact ⟨k, helement, hg.owned⟩
  · rintro (⟨hl, hsome⟩ | ⟨hc, -⟩ | ⟨hread, hl, hpointer⟩)
    · obtain rfl := Option.some.inj (hk.symm.trans hl)
      exact absurd rfl hsome
    · exact absurd (Registry.kind?_of_classLayout hc) (kindAt_ne hk (by decide))
    · obtain ⟨rfl, -⟩ := hparts _ _ hread
      exact hpointed (Option.some.inj (hl.symm.trans helement) ▸ hpointer)
  · intro b o u l hb _
    rcases kind_of_holds hb with hobject | hview | hopen
    · exact absurd hobject (kindAt_ne hk (by decide))
    · exact absurd hview (kindAt_ne hk (by decide))
    · exact absurd hopen (kindAt_ne hk (by decide))

private theorem openAt_empty (h0 : (0 : Addr) ∉ values)
    (htable : OpenObject.tableAddress h.memory v = 0) (hstorage : OpenObject.storage h.memory v = 0)
    (hempty : OpenObject.table h.memory v = []) : OpenAt r h values v := by
  refine ⟨?_, ?_, Or.inl ⟨hempty, htable⟩, Or.inl hstorage, absurd hstorage, fun _ => htable, ?_, ?_, ?_, ?_⟩
  · rw [htable]
    exact h0
  · rw [hstorage]
    exact h0
  · rw [hempty]
    exact Nat.zero_le _
  · rw [hempty]
    exact .nil
  · rw [hempty]
    exact fun _ hf => absurd hf List.not_mem_nil
  · rw [hempty]
    exact .nil

theorem table_of_zero {m : Memory} (hzero : ∀ a n, v.toNat + 8 ≤ a → Memory.ZeroOn m a n) :
    OpenObject.table m v = [] := by
  have hlength : (OpenObject.table m v).length = 0 := by
    rw [length_table]
    exact (hzero (v.toNat + 24) 4 (by omega)).count
  exact List.length_eq_zero_iff.1 hlength

private theorem Kept.join_open (hs : Sound r held ∅ h values) (hg : Gained h h' v OpenObject.size)
    (hk : r.kindAt h'.memory v = some .dynobj)
    (hzero : ∀ a n, v.toNat + 8 ≤ a → Memory.ZeroOn h'.memory a n) (hpointed : h'.PointersAt v) :
    Kept r held h values h' (insert v values) := by
  have htable : OpenObject.tableAddress h'.memory v = 0 := (hzero (v.toNat + 8) 8 le_rfl).word
  have hstorage : OpenObject.storage h'.memory v = 0 := (hzero (v.toNat + 16) 8 (by omega)).word
  have hempty : OpenObject.table h'.memory v = [] := table_of_zero hzero
  have h0 : (0 : Addr) ∉ insert v values := by
    intro hmem
    rcases Set.mem_insert_iff.1 hmem with heq | hmem
    · exact hg.owned.ne_zero hg.wellFormed heq.symm
    · exact hs.arranged.zero_not_mem hmem
  have hnone : ∀ a, ¬IsPart h'.memory v a := by
    rintro a ⟨hne, heq | heq⟩
    · exact hne (heq.trans htable)
    · exact hne (heq.trans hstorage)
  refine .join_kind hs hg hk rfl (headerSize_eq hk (by decide)).le nofun nofun (fun _ => hpointed)
    (fun _ => ⟨openAt_empty h0 htable hstorage hempty, hnone⟩) nofun (fun _ => ?_) ?_
  · unfold chainHead
    rw [if_pos hk]
    exact (hzero (v.toNat + 32) 8 (by omega)).word
  · intro b o u l hb hl
    cases hb with
    | «instance» hv hc _ =>
      obtain rfl := Set.mem_singleton_iff.1 hv
      exact absurd (Registry.kind?_of_classLayout hc) (kindAt_ne hk (by decide))
    | standalone hv hl' _ _ =>
      obtain rfl := Set.mem_singleton_iff.1 hv
      exact absurd (Registry.kind?_of_viewLayout hl') (kindAt_ne hk (by decide))
    | openField hv _ hf =>
      obtain rfl := Set.mem_singleton_iff.1 hv
      rw [hempty] at hf
      cases hf

private theorem Kept.join_standalone (hs : Sound r held ∅ h values) {l : ViewLayout}
    (hl : r.viewLayout (h'.memory.typeOf v) = .ok l)
    (hg : Gained h h' v (View.size + l.fieldCount * Kind.wordSize + l.dataSize))
    (hwrapped : View.wrapped h'.memory v = 0) (hnext : View.next h'.memory v = 0)
    (hpathsAt : (h'.memory.word (v.toNat + View.pathsOffset)).toNat = v.toNat + View.size)
    (hstorage : (View.storage h'.memory v).toNat = v.toNat + (View.size + l.fieldCount * Kind.wordSize))
    (hpaths : ∀ i p, l.fields.items[i]? = some p → View.path h'.memory v i = .direct p.offset)
    (hzero : ∀ a n, v.toNat + (View.size + l.fieldCount * Kind.wordSize) ≤ a →
      Memory.ZeroOn h'.memory a n) (hpointed : h'.PointersAt v) :
    Kept r held h values h' (insert v values) := by
  have hk : r.kindAt h'.memory v = some .virtual := Registry.kind?_of_viewLayout hl
  have hsize : headerSize r h'.memory v ≤ View.size + l.fieldCount * Kind.wordSize + l.dataSize := by
    rw [headerSize_of_viewLayout hl]
    exact Nat.le_add_right _ _
  refine .join_kind hs hg hk rfl hsize nofun nofun (fun _ => hpointed) nofun
    (fun _ => ⟨hwrapped, l, hl, hpathsAt, fun _ => ⟨hstorage, hg.owned, hpaths⟩, absurd hwrapped,
      absurd hwrapped⟩)
    (fun _ => ?_) ?_
  · unfold chainHead
    rw [if_neg (kindAt_ne hk (by decide))]
    exact hnext
  · intro b o u x hb hx
    cases hb with
    | «instance» hv hc _ =>
      obtain rfl := Set.mem_singleton_iff.1 hv
      exact absurd (Registry.kind?_of_classLayout hc) (kindAt_ne hk (by decide))
    | @standalone _ l' p hv hl' _ _ =>
      obtain rfl := Set.mem_singleton_iff.1 hv
      obtain rfl : l = l' := Except.ok.inj (hl.symm.trans hl')
      exact (hzero (b.toNat + (View.size + l.fieldCount * Kind.wordSize + p.offset)) _ (by omega)).read
    | openField hv hopen _ =>
      obtain rfl := Set.mem_singleton_iff.1 hv
      exact absurd hopen (kindAt_ne hk (by decide))

private theorem Kept.overwrite_array (hs : Sound r held ∅ h values) (hv : v ∈ values)
    (hk : r.kindAt h.memory v = some .array) (howns : h.Owns v n) {m : Memory} {a len : Nat}
    (hm : Memory.ChangesOnly h.memory m a len) (hlow : v.toNat + ArrayValue.dataOffset ≤ a)
    (hhigh : a + len ≤ v.toNat + n) : Kept r held h values { h with memory := m } values := by
  have hsize : headerSize r h.memory v = 24 := headerSize_eq hk (by decide)
  have hdata : ArrayValue.dataOffset = 24 := rfl
  have hsame : ∀ x ∈ values, SameValue r h.memory m x ∧ SamePaths r h.memory m x ∧
      SameLinks r h.memory m x := by
    intro x hx
    by_cases hne : x = v
    · subst hne
      refine hs.arranged.same_of_sameOn hx (hm.sameOn (by omega)) fun hopen => ?_
      exact absurd hopen (kindAt_ne hk (by decide))
    · exact hs.arranged.same_of_other hv howns hm (by omega) hhigh hx hne
  have hordered : Ordered r ∅ { h with memory := m } values :=
    hs.toOrdered.frame hs.arranged.blocks.withMemory (.refl h) le_rfl hsame
  have hvalue : ∀ x ∈ values, SameValue r h.memory m x := fun x hx => (hsame x hx).1
  refine .of_memory (.of_ordered hordered hvalue ?_) hvalue
  intro b o t l hb hl
  have hne : b ≠ v := by
    rintro rfl
    cases hb with
    | «instance» _ hc _ => exact kindAt_ne hk (by decide) (Registry.kind?_of_classLayout hc)
    | standalone _ hx _ _ => exact kindAt_ne hk (by decide) (Registry.kind?_of_viewLayout hx)
    | openField hu hku _ => exact (hs.arranged.opens _ hu hku).storage_out hv
  obtain ⟨l', hl', hroom, -⟩ := hs.arranged.holds_range hb
  obtain rfl : l = l' := Option.some.inj (hl.symm.trans hl')
  have hapart := hroom.apart howns hs.arranged.blocks hne
  have hfield : Memory.SameOn h.memory m (b.toNat + o) l.size := hm.sameOn (by omega)
  change WellTyped r held values h.memory t (m.read (b.toNat + o) l)
  rw [hfield.read]
  exact hs.content b o t l hb hl

namespace ArrayValue

/-- The address of an element. -/
def place (v : Addr) (k : Kind) (i : Nat) : Nat := v.toNat + dataOffset + i * k.size

theorem place_add_size_le (v : Addr) (k : Kind) (hij : i < j) : place v k i + k.size ≤ place v k j := by
  have hstep : (i + 1) * k.size ≤ j * k.size := Nat.mul_le_mul_right k.size hij
  rw [Nat.succ_mul] at hstep
  unfold place
  omega

theorem place_bounds (v : Addr) (k : Kind) (hi : i < length) :
    v.toNat + dataOffset ≤ place v k i ∧
      place v k i + k.size ≤ v.toNat + (dataOffset + length * k.size) :=
  ⟨Nat.le_add_right _ _, (place_add_size_le v k hi).trans_eq (Nat.add_assoc _ _ _)⟩

/-- The element type and the length of an array, written to its header. -/
def writeHeader (v : Addr) (t : TypeId) (length : Nat) (m : Memory) : Memory :=
  (m.setWord (v.toNat + elementOffset) t.raw.toUInt64).setCount (v.toNat + lengthOffset) length

theorem changesOnly_writeHeader (v : Addr) (t : TypeId) (length : Nat) (m : Memory) :
    m.ChangesOnly (writeHeader v t length m) (v.toNat + elementOffset) 12 := by
  have hplaces : elementOffset = 8 ∧ lengthOffset = 16 := ⟨rfl, rfl⟩
  exact ((Memory.changesOnly_setWord _ _ _).mono le_rfl (by omega)).trans
    ((Memory.changesOnly_setCount _ _ _).mono (by omega) (by omega))

theorem word_writeHeader (v : Addr) (t : TypeId) (length : Nat) (m : Memory) :
    (writeHeader v t length m).word (v.toNat + elementOffset) = t.raw.toUInt64 := by
  have hplaces : elementOffset = 8 ∧ lengthOffset = 16 := ⟨rfl, rfl⟩
  have hkept : (m.setWord (v.toNat + elementOffset) t.raw.toUInt64).SameOn (writeHeader v t length m)
      (v.toNat + elementOffset) 8 := (Memory.changesOnly_setCount _ _ _).sameOn (.inl (by omega))
  exact hkept.word.trans (Memory.word_setWord_same _ _ _)

theorem count_writeHeader (v : Addr) (t : TypeId) (m : Memory) (hlength : length ≤ maxLength) :
    (writeHeader v t length m).count (v.toNat + lengthOffset) = length := by
  have hmax : maxLength = 0x7FFFFFFF := rfl
  exact (Memory.count_setCount _ _ (by omega)).2 (by omega)

end ArrayValue

namespace Action

variable {w : World}

theorem newInstance_keeps (hs : Sound w.registry held ∅ h values) :
    Keeps held (newInstance t) w h values (IsNew t) := by
  unfold newInstance
  refine Keeps.ask_bind hs fun c hc => ?_
  refine (newValue_ends hs.arranged.blocks _ _ _).imp ?_ fun _ => False.elim
  rintro v h' ⟨hg, htype, hzero, hpointed⟩
  refine ⟨_, .join_instance hs hg ?_ hzero fun hpointer => hpointed ?_, Set.mem_insert v values, htype⟩
  · rw [htype]
    exact Outcome.mapError_eq_ok.1 hc
  · rw [hpointer]
    rfl

theorem newArray_keeps (hb : w.registry.Built) (hs : Sound w.registry held ∅ h values)
    (element : TypeId) (length : Nat) :
    Keeps held (newArray element length) w h values (IsNew .array) := by
  unfold newArray
  refine Keeps.ask_bind hs fun k hk => ?_
  by_cases hlong : ArrayValue.maxLength < length
  · rw [if_pos hlong]
    exact Keeps.fail hs
  rw [if_neg hlong]
  refine (newValue_ends hs.arranged.blocks _ _ _).bind (fun _ => False.elim) ?_
  rintro v h' ⟨hg, htype, -, hpointed⟩
  change Ends (change (ArrayValue.writeHeader v element length) >>= fun _ => pure v) w h' _ _
  refine Ends.change_bind (Ends.pure ?_)
  have hchange := ArrayValue.changesOnly_writeHeader v element length h'.memory
  have hword := ArrayValue.word_writeHeader v element length h'.memory
  have hcount := ArrayValue.count_writeHeader v element h'.memory (Nat.le_of_not_lt hlong)
  generalize ArrayValue.writeHeader v element length h'.memory = m at hchange hword hcount ⊢
  have htype' : m.typeOf v = .array := (hchange.sameOn (Or.inl le_rfl)).typeOf.trans htype
  refine ⟨_, .join_array hs (World.kind_eq_ok.1 hk)
    (hg.change (Nat.le_add_right _ _) hchange) (kindAt_of_typeOf htype' hb.kind?_array) hword hcount
    fun hpointer => (hpointed ?_).withMemory, Set.mem_insert v values, htype'⟩
  rw [hpointer]
  rfl

theorem newOpenObject_ends (hwf : h.WellFormed) :
    newOpenObject.Ends w h (fun v h' => OpenObject.table h'.memory v = []) (fun _ => False) := by
  refine (newValue_ends hwf _ _ _).imp ?_ fun _ => id
  rintro v h' ⟨-, -, hzero, -⟩
  exact table_of_zero hzero

theorem newOpenObject_keeps (hb : w.registry.Built) (hs : Sound w.registry held ∅ h values) :
    Keeps held newOpenObject w h values (IsNew .dynobj) := by
  unfold newOpenObject
  refine (newValue_ends hs.arranged.blocks _ _ _).imp ?_ fun _ => False.elim
  rintro v h' ⟨hg, htype, hzero, hpointed⟩
  exact ⟨_, .join_open hs hg (kindAt_of_typeOf htype hb.kind?_dynobj) hzero (hpointed rfl),
    Set.mem_insert v values, htype⟩

private theorem standalone_written {m m₁ m₂ m₃ : Memory} {l : ViewLayout}
    (hroom : v.toNat + (View.size + l.fieldCount * Kind.wordSize) < UInt64.size)
    (hfits : ∀ p ∈ l.fields.items, p.offset < 2 ^ 63)
    (hm₁ : m₁ = m.setWord (v.toNat + View.pathsOffset) (UInt64.ofNat (v.toNat + View.size)))
    (hm₂ : m₂ = m₁.setWord (v.toNat + View.storageOffset)
      (UInt64.ofNat (v.toNat + (View.size + l.fieldCount * Kind.wordSize))))
    (hm₃ : m₃ = View.writePaths m₂ (v.toNat + View.size) (l.fields.offsets.map Path.direct)) :
    Memory.ChangesOnly m m₃ (v.toNat + 24) (16 + l.fieldCount * 8) ∧
      (m₃.word (v.toNat + View.pathsOffset)).toNat = v.toNat + View.size ∧
      (View.storage m₃ v).toNat = v.toNat + (View.size + l.fieldCount * Kind.wordSize) ∧
      ∀ i p, l.fields.items[i]? = some p → View.path m₃ v i = .direct p.offset := by
  have hforty : View.size = 40 := rfl
  have hbytes : l.fieldCount * Kind.wordSize = l.fieldCount * 8 := rfl
  have hlength : (l.fields.offsets.map Path.direct).length = l.fieldCount := by
    simp [Region.offsets, ViewLayout.fieldCount, Region.length]
  have hfirst : Memory.ChangesOnly m m₁ (v.toNat + 24) 8 := by
    rw [hm₁]
    exact Memory.changesOnly_setWord _ _ _
  have hsecond : Memory.ChangesOnly m₁ m₂ (v.toNat + 32) 8 := by
    rw [hm₂]
    exact Memory.changesOnly_setWord _ _ _
  have hthird : Memory.ChangesOnly m₂ m₃ (v.toNat + 40) (l.fieldCount * 8) := by
    rw [hm₃]
    exact hlength ▸ View.changesOnly_writePaths m₂ (v.toNat + View.size) _
  have hpathsAt : (m₃.word (v.toNat + View.pathsOffset)).toNat = v.toNat + View.size := by
    have hkeep : m₃.word (v.toNat + 24) = m₁.word (v.toNat + 24) :=
      (hthird.sameOn (Or.inl (by omega))).word.trans (hsecond.sameOn (Or.inl (by omega))).word
    rw [show View.pathsOffset = 24 from rfl, hkeep, hm₁, show View.pathsOffset = 24 from rfl,
      Memory.word_setWord_same, UInt64.toNat_ofNat', Nat.mod_eq_of_lt]
    exact lt_of_le_of_lt (by omega) hroom
  refine ⟨?_, hpathsAt, ?_, ?_⟩
  · exact ((hfirst.mono le_rfl (by omega)).trans (hsecond.mono (by omega) (by omega))).trans
      (hthird.mono (by omega) (by omega))
  · have hkeep : m₃.word (v.toNat + 32) = m₂.word (v.toNat + 32) :=
      (hthird.sameOn (Or.inl (by omega))).word
    rw [View.storage, show View.storageOffset = 32 from rfl, hkeep, hm₂,
      show View.storageOffset = 32 from rfl, Memory.word_setWord_same, UInt64.toNat_ofNat',
      Nat.mod_eq_of_lt hroom]
  · intro i p hp
    have hat : (l.fields.offsets.map Path.direct)[i]? = some (.direct p.offset) := by
      simp [Region.offsets, hp]
    have hp' : (Path.direct p.offset).Fits := hfits p (List.mem_of_getElem? hp)
    rw [View.path, hpathsAt, hm₃, View.word_writePaths m₂ _ hat, Path.ofWord_toWord hp']

theorem newStandalone_keeps (hs : Sound w.registry held ∅ h values) :
    Keeps held (newStandalone t) w h values (IsNew t) := by
  unfold newStandalone
  refine Keeps.ask_bind hs fun l hl => ?_
  refine (newValue_ends hs.arranged.blocks _ _ _).bind (fun _ => False.elim) ?_
  rintro v h' ⟨hg, htype, hzero, hpointed⟩
  have hlayout := Outcome.mapError_eq_ok.1 hl
  have hpacked : Region.Packed w.registry.fieldKind? 0 l.fields :=
    (Registry.viewLayout_ok hlayout).2.2.1.packed
  have hforty : View.size = 40 := rfl
  have hbytes : l.fieldCount * Kind.wordSize = l.fieldCount * 8 := rfl
  have hroom := hg.owned.lt_size hg.wellFormed
  have hfits : ∀ p ∈ l.fields.items, p.offset < 2 ^ 63 := by
    intro p hp
    obtain ⟨_, -, -, hhigh, -⟩ := hpacked.placed p hp
    have hstop : l.fields.stop = l.dataSize := rfl
    have hlarge := hg.owned.le_max hg.wellFormed
    have hmax : Heap.maxBlockSize = 0x7FFFFFFFFFFFFFF0 := rfl
    omega
  have hdone : ∀ m₁ m₂ m₃,
      m₁ = h'.memory.setWord (v.toNat + View.pathsOffset) (UInt64.ofNat (v.toNat + View.size)) →
      m₂ = m₁.setWord (v.toNat + View.storageOffset)
        (UInt64.ofNat (v.toNat + (View.size + l.fieldCount * Kind.wordSize))) →
      m₃ = View.writePaths m₂ (v.toNat + View.size) (l.fields.offsets.map Path.direct) →
      ∃ values', Kept w.registry held h values { h' with memory := m₃ } values' ∧
        IsNew t v { h' with memory := m₃ } values' := by
    intro m₁ m₂ m₃ hm₁ hm₂ hm₃
    obtain ⟨hchange, hpathsAt, hstorage, hread⟩ :=
      standalone_written (lt_of_le_of_lt (by omega) hroom) hfits hm₁ hm₂ hm₃
    have htype' : m₃.typeOf v = t := (hchange.sameOn (Or.inl (by omega))).typeOf.trans htype
    have hlayout' : w.registry.viewLayout (m₃.typeOf v) = .ok l := by
      rw [htype']
      exact hlayout
    have hbefore : ∀ a, a + 8 ≤ v.toNat + 24 → v.toNat + 8 ≤ a → m₃.word a = 0 := by
      intro a ha hlow
      exact (hchange.sameOn (Or.inl ha)).word.trans (hzero a 8 hlow).word
    have hdata : ∀ a n, v.toNat + (View.size + l.fieldCount * Kind.wordSize) ≤ a →
        Memory.ZeroOn m₃ a n := by
      intro a n ha
      exact (hzero a n (by omega)).same (hchange.sameOn (Or.inr (by omega)))
    exact ⟨_, .join_standalone hs hlayout' (hg.change (Nat.le_add_right _ _) hchange)
      (hbefore (v.toNat + 8) (by omega) le_rfl) (hbefore (v.toNat + 16) (by omega) (by omega)) hpathsAt
      hstorage hread hdata (hpointed rfl).withMemory, Set.mem_insert v values, htype'⟩
  exact Ends.change_bind (Ends.pure (hdone _ _ _ rfl rfl rfl))

theorem element_placed {stale : Set Addr} {i length : Nat} (hs : Arranged w.registry stale h values)
    (hv : v ∈ values) (hparts : ArrayValue.parts (.ofTypes w.registry) h.memory v = .ok (t, length))
    (hi : i < length) (hk : w.registry.kind? t = some k) :
    ∃ place size, ArrayValue.element w h.memory v i = .ok (place, k) ∧ h.Owns v size ∧
      v.toNat + ArrayValue.dataOffset ≤ place ∧ place + k.size ≤ v.toNat + size := by
  obtain ⟨l, hl, howns⟩ := hs.arrays v hv t length hparts
  obtain rfl : k = l := Option.some.inj (hk.symm.trans hl)
  have hplace : ArrayValue.element w h.memory v i = .ok (ArrayValue.place v k i, k) :=
    Outcome.bind_eq_ok.2 ⟨_, hparts, Outcome.bind_eq_ok.2 ⟨k, World.kind_eq_ok.2 hk, rfl⟩⟩
  obtain ⟨hlow, hhigh⟩ := ArrayValue.place_bounds v k hi
  exact ⟨_, _, hplace, howns, hlow, hhigh⟩

theorem setElement_keeps {i length : Nat} {s : Slot} (hs : Sound w.registry held ∅ h values)
    (hv : v ∈ values) (hparts : ArrayValue.parts (.ofTypes w.registry) h.memory v = .ok (t, length))
    (hi : i < length) (hk : w.registry.kind? t = some k) (hfits : s.fits k = true) :
    Keeps held (setElement v i s) w h values fun _ _ _ => True := by
  obtain ⟨place, size, hplace, howns, hlow, hhigh⟩ := element_placed hs.arranged hv hparts hi hk
  refine Keeps.ask_bind hs fun element helement => ?_
  obtain rfl := Except.ok.inj (hplace.symm.trans helement)
  have hchange := Memory.changesOnly_write h.memory place s
  rw [Slot.width_of_fits hfits] at hchange
  exact Ends.change
    ⟨values, .overwrite_array hs hv (parts_ok hparts).1 howns hchange hlow hhigh, trivial⟩

end Action

end ObjectModel
