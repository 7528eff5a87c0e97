import ObjectModel.Proofs.Value.Shape

/-!
What a change of memory leaves alone: if the bytes of a value's header and of its table are the same,
everything is that is read from them.
-/

set_option autoImplicit false
set_option relaxedAutoImplicit false

namespace ObjectModel

variable {r : Registry} {held : Addr → TypeId → Prop} {values : Set Addr} {m n : Memory} {v u : Addr}

theorem length_readEntries (m : Memory) (a count : Nat) :
    (OpenObject.readEntries m a count).length = count := by
  induction count generalizing a with
  | zero => rfl
  | succ count ih => rw [OpenObject.readEntries, List.length_cons, ih]

theorem length_table (m : Memory) (v : Addr) :
    (OpenObject.table m v).length = m.count (v.toNat + OpenObject.countOffset) :=
  length_readEntries _ _ _

theorem readEntries_same {a count : Nat}
    (h : Memory.SameOn m n a (count * OpenObject.entrySize)) :
    OpenObject.readEntries n a count = OpenObject.readEntries m a count := by
  induction count generalizing a with
  | zero => rfl
  | succ count ih =>
    have hentry : (count + 1) * OpenObject.entrySize = count * OpenObject.entrySize + 12 := by
      rw [Nat.succ_mul]
      rfl
    rw [hentry] at h
    have hstep : OpenObject.entrySize = 12 := rfl
    have hrest := ih (h.mono (b := a + 12) (by omega) (by omega))
    rw [OpenObject.readEntries, OpenObject.readEntries, hstep, hrest]
    congr 1
    unfold OpenObject.readEntry
    rw [(h.mono (b := a) (by omega) (by omega)).half,
      (h.mono (b := a + 4) (by omega) (by omega)).half,
      (h.mono (b := a + 8) (by omega) (by omega)).half]

theorem table_same (haddress : OpenObject.tableAddress n v = OpenObject.tableAddress m v)
    (hcount : Memory.SameOn m n (v.toNat + 24) 4)
    (htable : Memory.SameOn m n (OpenObject.tableAddress m v).toNat
      ((OpenObject.table m v).length * OpenObject.entrySize)) :
    OpenObject.table n v = OpenObject.table m v := by
  have hlength : n.count (v.toNat + OpenObject.countOffset) = m.count (v.toNat + OpenObject.countOffset) :=
    hcount.count
  rw [length_table] at htable
  rw [OpenObject.table, haddress, hlength, readEntries_same htable]
  rfl

/-- The bytes of a header by the kind of its type; the paths of a virtual value come behind them. -/
def Kind.headerSize : Kind → Nat
  | object | enum => 8
  | array => 24
  | function => 32
  | virtual | dynobj => 40
  | _ => 16

theorem headerSize_eq {k : Kind} (hk : r.kindAt m v = some k) (hview : k ≠ .virtual) :
    headerSize r m v = k.headerSize := by
  unfold Registry.kindAt Registry.kind? at hk
  obtain ⟨d, hd, rfl⟩ := Option.map_eq_some_iff.1 hk
  unfold headerSize
  rw [hd]
  cases d <;> first | rfl | exact absurd rfl hview

theorem headerSize_of_viewLayout {l : ViewLayout} (hl : r.viewLayout (m.typeOf v) = .ok l) :
    headerSize r m v = View.size + l.fieldCount * Kind.wordSize := by
  unfold headerSize
  rw [(Registry.viewLayout_ok hl).1]
  simp [ViewLayout.fieldCount, Region.length, Region.values]

theorem le_headerSize {k : Kind} (hk : r.kindAt m v = some k) : k.headerSize ≤ headerSize r m v := by
  by_cases hview : k = .virtual
  · subst hview
    unfold Registry.kindAt Registry.kind? at hk
    obtain ⟨d, hd, hkind⟩ := Option.map_eq_some_iff.1 hk
    unfold headerSize
    rw [hd]
    cases d <;> first | exact Nat.le_add_right _ _ | cases hkind
  · exact (headerSize_eq hk hview).ge

theorem parts_ok {w : World} {t : TypeId} {n : Nat} (h : ArrayValue.parts w m v = .ok (t, n)) :
    w.registry.kindAt m v = some .array ∧
      t = ⟨(m.word (v.toNat + ArrayValue.elementOffset)).toUInt32⟩ ∧
      n = m.count (v.toNat + ArrayValue.lengthOffset) := by
  unfold ArrayValue.parts at h
  obtain ⟨k, hk, h⟩ := Outcome.bind_eq_ok.1 h
  have hkind : w.registry.kindAt m v = some k := World.kind_eq_ok.1 hk
  by_cases harray : k = .array
  · rw [if_pos harray] at h
    obtain ⟨ht, hn⟩ := Prod.mk.inj (Outcome.pure_eq_ok.1 h)
    subst harray
    exact ⟨hkind, ht.symm, hn.symm⟩
  · rw [if_neg harray] at h
    cases h

/-- What the rest of the heap knows of a value reads the same in two memories. -/
structure SameValue (r : Registry) (m n : Memory) (v : Addr) : Prop where
  type : n.typeOf v = m.typeOf v
  pointer : ∀ k, r.kindAt m v = some k → k.isRaw = true → Box.pointer n v = Box.pointer m v
  parts : ArrayValue.parts (.ofTypes r) n v = ArrayValue.parts (.ofTypes r) m v
  wrapped : r.kindAt m v = some .virtual → View.wrapped n v = View.wrapped m v
  storage : r.kindAt m v = some .virtual → View.storage n v = View.storage m v
  pathsAt : r.kindAt m v = some .virtual →
    n.word (v.toNat + View.pathsOffset) = m.word (v.toNat + View.pathsOffset)
  tableAddress : r.kindAt m v = some .dynobj →
    OpenObject.tableAddress n v = OpenObject.tableAddress m v
  openStorage : r.kindAt m v = some .dynobj → OpenObject.storage n v = OpenObject.storage m v
  storageSize : r.kindAt m v = some .dynobj → OpenObject.storageSize n v = OpenObject.storageSize m v
  table : r.kindAt m v = some .dynobj → OpenObject.table n v = OpenObject.table m v

def SamePaths (r : Registry) (m n : Memory) (v : Addr) : Prop :=
  ∀ l, r.viewLayout (m.typeOf v) = .ok l → ∀ i < l.fieldCount, View.path n v i = View.path m v i

structure SameLinks (r : Registry) (m n : Memory) (v : Addr) : Prop where
  next : r.kindAt m v = some .virtual → View.next n v = View.next m v
  views : r.kindAt m v = some .dynobj →
    n.word (v.toNat + OpenObject.viewsOffset) = m.word (v.toNat + OpenObject.viewsOffset)

theorem parts_same {k : Kind} (hk : r.kindAt m v = some k) (htype : n.typeOf v = m.typeOf v)
    (h : k = .array → Memory.SameOn m n v.toNat 24) :
    ArrayValue.parts (.ofTypes r) n v = ArrayValue.parts (.ofTypes r) m v := by
  unfold ArrayValue.parts World.kindOf World.kind
  have hkind : (World.ofTypes r).registry.kind (m.typeOf v) = .ok k := Registry.kind_eq_ok.2 hk
  rw [htype, hkind]
  by_cases harray : k = .array
  · have hsame := h harray
    change (if k = .array then pure (_, _) else _) = if k = .array then pure (_, _) else _
    rw [(hsame.mono (b := v.toNat + ArrayValue.elementOffset) (by omega) (by
      change _ + 8 + 8 ≤ _
      omega)).word, (hsame.mono (b := v.toNat + ArrayValue.lengthOffset) (by omega) (by
      change _ + 16 + 4 ≤ _
      omega)).count]
  · change (if k = .array then _ else throw _) = if k = .array then _ else throw _
    rw [if_neg harray, if_neg harray]

namespace SameValue

theorem refl (r : Registry) (m : Memory) (v : Addr) : SameValue r m m v :=
  ⟨rfl, fun _ _ _ => rfl, rfl, fun _ => rfl, fun _ => rfl, fun _ => rfl, fun _ => rfl, fun _ => rfl,
    fun _ => rfl, fun _ => rfl⟩

theorem kindAt (h : SameValue r m n v) : r.kindAt n v = r.kindAt m v := by
  rw [Registry.kindAt, Registry.kindAt, h.type]

theorem of_open (hk : r.kindAt m v = some .dynobj) (hheader : Memory.SameOn m n v.toNat 32)
    (htable : Memory.SameOn m n (OpenObject.tableAddress m v).toNat
      ((OpenObject.table m v).length * OpenObject.entrySize)) : SameValue r m n v := by
  have hat : ∀ b width, b + width ≤ 32 → Memory.SameOn m n (v.toNat + b) width :=
    fun b width hb => hheader.mono (by omega) (by omega)
  have htype : n.typeOf v = m.typeOf v := (hat 0 8 (by omega)).typeOf
  have haddress : OpenObject.tableAddress n v = OpenObject.tableAddress m v := (hat 8 8 (by omega)).word
  have hview : r.kindAt m v ≠ some .virtual := kindAt_ne hk (by decide)
  refine ⟨htype, ?_, parts_same hk htype (by simp), fun hl => absurd hl hview, fun hl => absurd hl hview,
    fun hl => absurd hl hview, fun _ => haddress, fun _ => (hat 16 8 (by omega)).word,
    fun _ => (hat 28 4 (by omega)).count, fun _ => table_same haddress (hat 24 4 (by omega)) htable⟩
  rintro k hl hraw
  obtain rfl := Option.some.inj (hk.symm.trans hl)
  cases hraw

theorem of_view (hk : r.kindAt m v = some .virtual) (hfront : Memory.SameOn m n v.toNat 16)
    (hback : Memory.SameOn m n (v.toNat + 24) 16) : SameValue r m n v := by
  have htype : n.typeOf v = m.typeOf v := (hfront.mono le_rfl (by omega)).typeOf
  have hwrapped : View.wrapped n v = View.wrapped m v :=
    Memory.SameOn.word (hfront.mono (Nat.le_add_right _ _) le_rfl)
  have hpaths : n.word (v.toNat + View.pathsOffset) = m.word (v.toNat + View.pathsOffset) :=
    Memory.SameOn.word (hback.mono le_rfl (Nat.add_le_add_left (by decide) _))
  have hstorage : View.storage n v = View.storage m v :=
    Memory.SameOn.word (hback.mono (Nat.add_le_add_left (by decide) _) le_rfl)
  have hopen : r.kindAt m v ≠ some .dynobj := kindAt_ne hk (by decide)
  refine ⟨htype, ?_, parts_same hk htype (by simp), fun _ => hwrapped, fun _ => hstorage, fun _ => hpaths,
    fun hl => absurd hl hopen, fun hl => absurd hl hopen, fun hl => absurd hl hopen,
    fun hl => absurd hl hopen⟩
  rintro k hl hraw
  obtain rfl := Option.some.inj (hk.symm.trans hl)
  cases hraw

theorem of_header {k : Kind} (hk : r.kindAt m v = some k) (hopen : k ≠ .dynobj) (hview : k ≠ .virtual)
    (hheader : Memory.SameOn m n v.toNat k.headerSize) : SameValue r m n v := by
  have height : 8 ≤ k.headerSize := by cases k <;> decide
  have htype : n.typeOf v = m.typeOf v := (hheader.mono le_rfl (by omega)).typeOf
  have hno : ∀ l, k ≠ l → r.kindAt m v ≠ some l := fun l hne => kindAt_ne hk hne
  refine ⟨htype, ?_, parts_same hk htype ?_, fun hl => absurd hl (hno _ hview),
    fun hl => absurd hl (hno _ hview), fun hl => absurd hl (hno _ hview),
    fun hl => absurd hl (hno _ hopen), fun hl => absurd hl (hno _ hopen),
    fun hl => absurd hl (hno _ hopen), fun hl => absurd hl (hno _ hopen)⟩
  · intro l hl hraw
    obtain rfl := Option.some.inj (hk.symm.trans hl)
    have hsize : k.headerSize = 16 := by cases k <;> first | rfl | cases hraw
    rw [hsize] at hheader
    exact Memory.SameOn.word (hheader.mono (Nat.le_add_right _ _) le_rfl)
  · rintro rfl
    exact hheader

end SameValue

/-- A value whose header, and table if it has one, is the same in two memories is the same. -/
theorem sameValue_of_sameOn {k : Kind} (hk : r.kindAt m v = some k)
    (hheader : Memory.SameOn m n v.toNat (headerSize r m v))
    (htable : k = .dynobj → Memory.SameOn m n (OpenObject.tableAddress m v).toNat
      ((OpenObject.table m v).length * OpenObject.entrySize))
    (hpaths : k = .virtual → (m.word (v.toNat + View.pathsOffset)).toNat = v.toNat + View.size) :
    SameValue r m n v ∧ SamePaths r m n v ∧ SameLinks r m n v := by
  have hle := le_headerSize hk
  have hkind : ∀ l, r.kindAt m v = some l → k = l := fun l hl => Option.some.inj (hk.symm.trans hl)
  have hforty : ∀ l, r.kindAt m v = some l → l.headerSize = 40 → ∀ b width, b + width ≤ 40 →
      Memory.SameOn m n (v.toNat + b) width := by
    rintro l hl hsize b width hb
    obtain rfl := hkind l hl
    exact hheader.mono (by omega) (by omega)
  refine ⟨?_, fun l hl i hi => ?_, fun hl => ?_, fun hl => ?_⟩
  · by_cases hopen : k = .dynobj
    · have hat := hforty k hk (by rw [hopen]; rfl)
      exact .of_open (hopen ▸ hk) (hat 0 32 (by omega)) (htable hopen)
    · by_cases hview : k = .virtual
      · have hat := hforty k hk (by rw [hview]; rfl)
        exact .of_view (hview ▸ hk) (hat 0 16 (by omega)) (hat 24 16 le_rfl)
      · exact .of_header hk hopen hview (hheader.mono le_rfl (by omega))
  · have hview := Registry.kind?_of_viewLayout hl
    have hsize : headerSize r m v = 40 + l.fieldCount * 8 := headerSize_of_viewLayout hl
    have hroom : i * 8 + 8 ≤ l.fieldCount * 8 := by omega
    have hat24 : n.word (v.toNat + View.pathsOffset) = m.word (v.toNat + View.pathsOffset) :=
      (hforty _ hview rfl 24 8 (by omega)).word
    have hpath : n.word (v.toNat + (40 + i * 8)) = m.word (v.toNat + (40 + i * 8)) :=
      (hheader.mono (by omega) (by omega)).word
    have hplace : v.toNat + View.size + i * Kind.wordSize = v.toNat + (40 + i * 8) := by
      change v.toNat + 40 + i * 8 = _
      omega
    rw [View.path, View.path, hat24, hpaths (hkind _ hview), hplace, hpath]
  · exact (hforty _ hl rfl 16 8 (by omega)).word
  · exact (hforty _ hl rfl 32 8 le_rfl).word

theorem NeedsPointers.same (hv : NeedsPointers r n v) (h : SameValue r m n v) : NeedsPointers r m v := by
  cases hv with
  | header hk hsome => exact .header (h.kindAt.symm.trans hk) hsome
  | fields hc hpointer =>
    rw [h.type] at hc
    exact .fields hc hpointer
  | elements hparts hk hpointer => exact .elements (h.parts.symm.trans hparts) hk hpointer

/-- The fields that there are in one memory hold the same in another one. -/
def SameFields (r : Registry) (values : Set Addr) (m n : Memory) : Prop :=
  ∀ b o t k, Holds r values m b o t → r.kind? t = some k →
    Memory.SameOn m n (b.toNat + o) k.size

/-! What is read from values that are the same is the same. -/

theorem Holds.same {b : Addr} {o : Nat} {t : TypeId} (h : ∀ v ∈ values, SameValue r m n v)
    (hb : Holds r values m b o t) : Holds r values n b o t := by
  cases hb with
  | «instance» hv hc hp =>
    rw [← (h b hv).type] at hc
    exact .instance hv hc hp
  | standalone hv hl hwrapped hp =>
    rw [← (h b hv).wrapped (Registry.kind?_of_viewLayout hl)] at hwrapped
    rw [← (h b hv).type] at hl
    exact .standalone hv hl hwrapped hp
  | openField hv hk hf =>
    rw [← (h _ hv).openStorage hk]
    refine .openField hv ((h _ hv).kindAt.trans hk) ?_
    rw [(h _ hv).table hk]
    exact hf

theorem SameValue.symm (h : SameValue r m n v) : SameValue r n m v := by
  have hkind : ∀ k, r.kindAt n v = some k → r.kindAt m v = some k := fun k hk => h.kindAt ▸ hk
  exact ⟨h.type.symm, fun k hk hraw => (h.pointer k (hkind k hk) hraw).symm, h.parts.symm,
    fun hk => (h.wrapped (hkind _ hk)).symm, fun hk => (h.storage (hkind _ hk)).symm,
    fun hk => (h.pathsAt (hkind _ hk)).symm, fun hk => (h.tableAddress (hkind _ hk)).symm,
    fun hk => (h.openStorage (hkind _ hk)).symm, fun hk => (h.storageSize (hkind _ hk)).symm,
    fun hk => (h.table (hkind _ hk)).symm⟩

theorem SameValue.trans {l : Memory} (h : SameValue r m n v) (h' : SameValue r n l v) :
    SameValue r m l v := by
  have hkind : ∀ k, r.kindAt m v = some k → r.kindAt n v = some k := fun k hk => h.kindAt.trans hk
  exact ⟨h'.type.trans h.type,
    fun k hk hraw => (h'.pointer k (hkind k hk) hraw).trans (h.pointer k hk hraw),
    h'.parts.trans h.parts, fun hk => (h'.wrapped (hkind _ hk)).trans (h.wrapped hk),
    fun hk => (h'.storage (hkind _ hk)).trans (h.storage hk),
    fun hk => (h'.pathsAt (hkind _ hk)).trans (h.pathsAt hk),
    fun hk => (h'.tableAddress (hkind _ hk)).trans (h.tableAddress hk),
    fun hk => (h'.openStorage (hkind _ hk)).trans (h.openStorage hk),
    fun hk => (h'.storageSize (hkind _ hk)).trans (h.storageSize hk),
    fun hk => (h'.table (hkind _ hk)).trans (h.table hk)⟩

theorem SamePaths.trans {l : Memory} (hsame : SameValue r m n v) (h : SamePaths r m n v)
    (h' : SamePaths r n l v) : SamePaths r m l v := by
  intro x hx i hi
  have hx' : r.viewLayout (n.typeOf v) = .ok x := by
    rw [hsame.type]
    exact hx
  exact (h' x hx' i hi).trans (h x hx i hi)

theorem goesOn_of_sameValue (h : ∀ v ∈ values, SameValue r m n v) : GoesOn r values m values n :=
  ⟨Set.Subset.rfl, fun v hv => (h v hv).type, fun v hv => (h v hv).pointer, fun v hv => (h v hv).wrapped⟩

theorem SameFields.refl (r : Registry) (values : Set Addr) (m : Memory) : SameFields r values m m :=
  fun _ _ _ _ _ _ => .refl m _ _

theorem SameFields.trans {l : Memory} (h : SameFields r values m n) (h' : SameFields r values n l)
    (hsame : ∀ v ∈ values, SameValue r m n v) : SameFields r values m l := by
  intro b o t k hb hk
  exact (h b o t k hb hk).trans (h' b o t k (hb.same hsame) hk)

theorem IsRoot.wrapped (hroot : IsRoot r m u) (hk : r.kindAt m u = some .virtual) :
    View.wrapped m u = 0 := by
  rcases hroot with hobject | hopen | ⟨-, hzero⟩
  · exact absurd hobject (kindAt_ne hk (by decide))
  · exact absurd hopen (kindAt_ne hk (by decide))
  · exact hzero

theorem IsRoot.goesOn {values' : Set Addr} (hroot : IsRoot r m u) (h : GoesOn r values m values' n)
    (hu : u ∈ values) : IsRoot r n u := by
  unfold IsRoot at hroot ⊢
  rw [h.kindAt hu]
  rcases hroot with hobject | hopen | ⟨hview, hzero⟩
  · exact Or.inl hobject
  · exact Or.inr (Or.inl hopen)
  · exact Or.inr (Or.inr ⟨hview, (h.wrapped u hu hview).trans hzero⟩)

theorem IsChained.goesOn {values' : Set Addr} (hchained : IsChained r m u) (h : GoesOn r values m values' n)
    (hu : u ∈ values) : IsChained r n u := by
  unfold IsChained at hchained ⊢
  rw [h.kindAt hu]
  exact hchained.imp_right fun hview => ⟨hview.1, (h.wrapped u hu hview.1).trans hview.2⟩

namespace RootOf

theorem self (hne : u ≠ 0) (hroot : IsRoot r m u) : RootOf r m u u :=
  ⟨hne, hroot, Or.inl rfl⟩

theorem eq_of_root (h : RootOf r m u v) (hv : IsRoot r m v) : v = u := by
  rcases h.reached with heq | ⟨hk, hwrapped⟩
  · exact heq
  · exact absurd (hwrapped.symm.trans (hv.wrapped hk)) h.ne_zero

theorem eq_wrapped (h : RootOf r m u v) (hk : r.kindAt m v = some .virtual) (hshown : View.wrapped m v ≠ 0) :
    View.wrapped m v = u := by
  rcases h.reached with rfl | ⟨-, hwrapped⟩
  · exact absurd (h.root.wrapped hk) hshown
  · exact hwrapped

theorem unique {u' : Addr} (h : RootOf r m u v) (h' : RootOf r m u' v) : u = u' := by
  rcases h.reached with rfl | ⟨hk, hwrapped⟩
  · exact h'.eq_of_root h.root
  · rw [← hwrapped]
    exact h'.eq_wrapped hk (hwrapped ▸ h.ne_zero)

theorem goesOn {values' : Set Addr} (h : RootOf r m u v) (hg : GoesOn r values m values' n) (hu : u ∈ values)
    (hv : v ∈ values) : RootOf r n u v := by
  refine ⟨h.ne_zero, h.root.goesOn hg hu, ?_⟩
  rcases h.reached with heq | ⟨hk, hwrapped⟩
  · exact Or.inl heq
  · exact Or.inr ⟨(hg.kindAt hv).trans hk, (hg.wrapped v hv hk).trans hwrapped⟩

end RootOf

theorem IsRoot.same (h : SameValue r m n u) (hu : IsRoot r m u) : IsRoot r n u := by
  unfold IsRoot at hu ⊢
  rw [h.kindAt]
  rcases hu with hu | hu | ⟨hu, hwrapped⟩
  · exact Or.inl hu
  · exact Or.inr (Or.inl hu)
  · exact Or.inr (Or.inr ⟨hu, (h.wrapped hu).trans hwrapped⟩)

theorem IsChained.same (h : SameValue r m n u) (hu : IsChained r m u) : IsChained r n u := by
  unfold IsChained at hu ⊢
  rw [h.kindAt]
  rcases hu with hu | ⟨hu, hwrapped⟩
  · exact Or.inl hu
  · exact Or.inr ⟨hu, (h.wrapped hu).trans hwrapped⟩

theorem IsPart.same {a : Addr} (h : SameValue r m n u) (hk : r.kindAt m u = some .dynobj)
    (ha : IsPart m u a) : IsPart n u a := by
  unfold IsPart at ha ⊢
  rw [h.tableAddress hk, h.openStorage hk]
  exact ha

theorem paths_same (h : SameValue r m n u) (l : ViewLayout) :
    View.paths (.ofTypes r) n l u = View.paths (.ofTypes r) m l u := by
  have hregistry : (World.ofTypes r).registry = r := rfl
  simp only [View.paths, World.kind, h.type, hregistry]
  cases hk : r.kind (m.typeOf u) with
  | error e => simp only [Reading.ofType, Except.mapError, bind, Except.bind]
  | ok k =>
    cases k with
    | dynobj =>
      have hopen : r.kindAt m u = some .dynobj := Registry.kind_eq_ok.1 hk
      simp only [Reading.ofType, Except.mapError, bind, Except.bind, h.table hopen]
    | _ => simp only [Reading.ofType, Except.mapError, bind, Except.bind]

theorem linked_same {a : Addr} {chain : List Addr} (hnext : ∀ w ∈ chain, View.next n w = View.next m w)
    (h : Linked m a chain) : Linked n a chain := by
  induction chain generalizing a with
  | nil => exact h
  | cons w rest ih =>
    obtain ⟨rfl, hne, hrest⟩ := h
    refine ⟨rfl, hne, ?_⟩
    rw [hnext a List.mem_cons_self]
    exact ih (fun w hw => hnext w (List.mem_cons_of_mem a hw)) hrest

end ObjectModel
