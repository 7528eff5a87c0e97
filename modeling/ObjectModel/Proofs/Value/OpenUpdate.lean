import ObjectModel.Proofs.Value.OpenFields

/-!
What becomes of an open object when a field is retyped where it lies, or moved to the end of the storage,
or added: in each case another open object, with that field in its table.
-/

set_option autoImplicit false
set_option relaxedAutoImplicit false

namespace ObjectModel

variable {r : Registry} {stale values : Set Addr} {h h' : Heap} {u v : Addr}
  {t : TypeId} {k : Kind} {m n : Memory} {f g old : OpenField} {position : Nat} {hash : NameHash}

/-! What a write does to a table. -/

private theorem table_writeEntry (hlt : position < (OpenObject.table m v).length)
    (hfar : v.toNat + 40 ≤ (OpenObject.tableAddress m v).toNat ∨
      (OpenObject.tableAddress m v).toNat + (OpenObject.table m v).length * OpenObject.entrySize ≤ v.toNat)
    (hf : f.offset < 2 ^ 32)
    (hn : n = OpenObject.writeEntry m
      ((OpenObject.tableAddress m v).toNat + position * OpenObject.entrySize) f) :
    OpenObject.tableAddress n v = OpenObject.tableAddress m v ∧
      OpenObject.storage n v = OpenObject.storage m v ∧
      OpenObject.storageSize n v = OpenObject.storageSize m v ∧
      OpenObject.table n v = (OpenObject.table m v).set position f := by
  have hchange : Memory.ChangesOnly m n (OpenObject.tableAddress m v).toNat
      ((OpenObject.table m v).length * OpenObject.entrySize) := by
    rw [hn]
    exact OpenObject.changesOnly_writeEntry_of_lt m _ f hlt
  have hheader : ∀ a width, a + width ≤ 40 → Memory.SameOn m n (v.toNat + a) width :=
    fun a width ha => hchange.sameOn (by omega)
  have haddress : OpenObject.tableAddress n v = OpenObject.tableAddress m v :=
    (hheader 8 8 (by omega)).word
  refine ⟨haddress, (hheader 16 8 (by omega)).word, (hheader 28 4 (by omega)).count, ?_⟩
  have hcount : n.count (v.toNat + OpenObject.countOffset) =
      m.count (v.toNat + OpenObject.countOffset) := (hheader 24 4 (by omega)).count
  rw [OpenObject.table, haddress, hcount, hn, OpenObject.readEntries_writeEntry m _ hf]
  rfl

private theorem header_relinked {m₀ : Memory} {a : Addr} {length : Nat} (hlength : length < 2 ^ 31)
    (hm : m = m₀.setWord (v.toNat + OpenObject.tableOffset) a)
    (hn : n = m.setCount (v.toNat + OpenObject.countOffset) length) :
    OpenObject.tableAddress n v = a ∧ n.count (v.toNat + OpenObject.countOffset) = length ∧
      OpenObject.storage n v = OpenObject.storage m₀ v ∧
      OpenObject.storageSize n v = OpenObject.storageSize m₀ v ∧
      ∀ y, y < v.toNat + 8 ∨ v.toNat + 32 ≤ y → n.byte y = m₀.byte y := by
  have hfirst : Memory.ChangesOnly m₀ m (v.toNat + 8) 8 := by
    rw [hm]
    exact Memory.changesOnly_setWord _ _ _
  have hsecond : Memory.ChangesOnly m n (v.toNat + 24) 4 := by
    rw [hn]
    exact Memory.changesOnly_setCount _ _ _
  have haddress : n.word (v.toNat + 8) = m.word (v.toNat + 8) := (hsecond.sameOn (Or.inl (by omega))).word
  have hstorage : n.word (v.toNat + 16) = m.word (v.toNat + 16) :=
    (hsecond.sameOn (Or.inl (by omega))).word
  have hsize : n.count (v.toNat + 28) = m.count (v.toNat + 28) :=
    (hsecond.sameOn (Or.inr (by omega))).count
  refine ⟨?_, ?_, ?_, ?_, fun y hy => ?_⟩
  · rw [OpenObject.tableAddress, show OpenObject.tableOffset = 8 from rfl, haddress, hm,
      show OpenObject.tableOffset = 8 from rfl, Memory.word_setWord_same]
  · rw [hn]
    exact (Memory.count_setCount m _ (by omega)).2 hlength
  · exact hstorage.trans (hfirst.sameOn (Or.inr (by omega))).word
  · exact hsize.trans (hfirst.sameOn (Or.inr (by omega))).count
  · rw [hsecond y (by omega), hfirst y (by omega)]

private theorem length_lt {length : Nat} (hwf : h.WellFormed) (hfew : 6 * length ^ 2 ≤ h.next) :
    length < 2 ^ 31 := by
  by_contra hlarge
  have hsquare := Nat.pow_le_pow_left (Nat.le_of_not_lt hlarge) 2
  have hlt := hwf.next_lt
  have hword : UInt64.size = 2 ^ 64 := rfl
  omega

private theorem gotField_set (hsorted : (OpenObject.table m v).Pairwise (·.hash < ·.hash))
    (hold : (OpenObject.table m v)[position]? = some old) (hhash : f.hash = old.hash)
    (hn : OpenObject.table n v = (OpenObject.table m v).set position f) : GotField m n v f := by
  obtain ⟨hlt, hget⟩ := List.getElem?_eq_some_iff.1 hold
  have hdiffer : ∀ j g, (OpenObject.table m v)[j]? = some g → position ≠ j → g.hash ≠ f.hash := by
    intro j g hj hne heq
    obtain ⟨hjlt, hjget⟩ := List.getElem?_eq_some_iff.1 hj
    have hpairs := List.pairwise_iff_getElem.1 hsorted
    rcases Nat.lt_or_gt_of_ne hne with hbefore | hbehind
    · have hless := hpairs position j hlt hjlt hbefore
      rw [hget, hjget, heq, hhash] at hless
      exact Int32.lt_irrefl hless
    · have hless := hpairs j position hjlt hlt hbehind
      rw [hget, hjget, heq, hhash] at hless
      exact Int32.lt_irrefl hless
  refine ⟨fun g => ?_, ?_⟩
  · rw [hn]
    constructor
    · intro hg
      obtain ⟨j, hj⟩ := List.mem_iff_getElem?.1 hg
      rw [List.getElem?_set] at hj
      by_cases hpj : position = j
      · rw [if_pos hpj, if_pos (hpj ▸ hlt)] at hj
        exact Or.inl (Option.some.inj hj).symm
      · rw [if_neg hpj] at hj
        exact Or.inr ⟨List.mem_of_getElem? hj, hdiffer j g hj hpj⟩
    · rintro (rfl | ⟨hg, hne⟩)
      · exact List.mem_set hlt g
      · obtain ⟨j, hj⟩ := List.mem_iff_getElem?.1 hg
        have hpj : position ≠ j := by
          rintro rfl
          obtain rfl := Option.some.inj (hj.symm.trans hold)
          exact hne hhash.symm
        refine List.mem_of_getElem? (i := j) ?_
        rw [List.getElem?_set, if_neg hpj, hj]
  · have hmap : (OpenObject.table n v).map OpenField.hash = (OpenObject.table m v).map OpenField.hash := by
      rw [hn, List.map_set, hhash, ← hget]
      refine List.ext_getElem? fun j => ?_
      rw [List.getElem?_set]
      by_cases hpj : position = j
      · subst hpj
        rw [if_pos rfl, List.length_map, if_pos hlt, List.getElem?_map, hold, hget]
        rfl
      · rw [if_neg hpj]
    rw [← List.pairwise_map (f := OpenField.hash) (R := (· < ·)), hmap, List.pairwise_map]
    exact hsorted

private theorem gotField_insert (hsorted : (OpenObject.table m v).Pairwise (·.hash < ·.hash))
    (hnone : OpenObject.find? (OpenObject.table m v) f.hash = none)
    (hn : OpenObject.table n v = OpenObject.inserted (OpenObject.table m v) f) : GotField m n v f := by
  refine ⟨fun g => ?_, ?_⟩
  · rw [hn, OpenObject.mem_inserted]
    refine or_congr_right ⟨fun hg => ⟨hg, fun heq => ?_⟩, And.left⟩
    rw [← heq, OpenObject.find?_hash hsorted hg] at hnone
    cases hnone
  · rw [hn]
    exact OpenObject.sorted_inserted hsorted hnone

namespace Grown

variable {size : Nat}

private theorem table (hg : Grown h h' v size) (hs : Arranged r stale h values) (hv : v ∈ values)
    (hk : r.kindAt h.memory v = some .dynobj) :
    OpenObject.tableAddress h'.memory v = OpenObject.tableAddress h.memory v ∧
      OpenObject.table h'.memory v = OpenObject.table h.memory v := by
  have hsize : headerSize r h.memory v = 40 := headerSize_eq hk (by decide)
  have hnext := (hs.owned v hv).le_next hs.blocks
  have haddress : OpenObject.tableAddress h'.memory v = OpenObject.tableAddress h.memory v := by
    refine Memory.SameOn.word fun y hy hy' => ?_
    have height : OpenObject.tableOffset = 8 := rfl
    exact hg.same y (by omega) (by omega) (by omega)
  have hcount : Memory.SameOn h.memory h'.memory (v.toNat + 24) 4 :=
    fun y hy hy' => hg.same y (by omega) (by omega) (by omega)
  refine ⟨haddress, table_same haddress hcount (hs.table_sameOn hv hk fun width hpart howns y hy hy' => ?_)⟩
  have hne : OpenObject.tableAddress h.memory v ≠ v :=
    fun heq => (hs.part_owned hv hk hpart).1 (heq.symm ▸ hv)
  have := howns.apart (hs.owned v hv) hs.blocks hne
  have := howns.le_next hs.blocks
  exact hg.same y (by omega) (by omega) (by omega)

private theorem lt (hg : Grown h h' v (f.offset + k.size))
    (hoffset : f.offset = k.alignUp (OpenObject.storageSize h.memory v)) :
    f.offset + k.size < 2 ^ 32 := by
  have hmax : Heap.maxBlockSize = 0x7FFFFFFFFFFFFFF0 := rfl
  have hle := hg.owned.le_max hg.wellFormed
  have hup := k.le_alignUp (OpenObject.storageSize h.memory v)
  have hdown := k.alignUp_le (OpenObject.storageSize h.memory v)
  have hsmall := Memory.count_small_or_huge h.memory (v.toNat + OpenObject.storageSizeOffset)
  change OpenObject.storageSize h.memory v < 2 ^ 31 ∨ 2 ^ 63 ≤ OpenObject.storageSize h.memory v at hsmall
  omega

private theorem placing (hg : Grown h h' v (f.offset + k.size)) (hs : Arranged r stale h values)
    (hv : v ∈ values) (hk : r.kindAt h.memory v = some .dynobj) (hkind : r.kind? f.type = some k)
    (hoffset : f.offset = k.alignUp (OpenObject.storageSize h.memory v))
    (hstorage : OpenObject.storage m v = OpenObject.storage h'.memory v)
    (hsize : OpenObject.storageSize m v = OpenObject.storageSize h'.memory v)
    (hfar : ∀ y, h.next ≤ y → m.byte y = h'.memory.byte y) :
    Placing r h { h' with memory := m } v f k := by
  have hup := k.le_alignUp (OpenObject.storageSize h.memory v)
  have hle : f.offset + k.size ≤ OpenObject.storageSize h'.memory v := hg.size_le (hg.lt hoffset)
  have haddress := hg.address
  refine ⟨hkind, hoffset ▸ k.align_dvd_alignUp _, hsize ▸ hle, ?_, fun g hmem _ l hl => ?_⟩
  · change h'.Owns (OpenObject.storage m v) _
    rw [hstorage]
    exact hg.owned
  · obtain ⟨l', hl', -, hused, howns⟩ := (hs.opens v hv hk).placed g hmem
    obtain rfl : l = l' := Option.some.inj (hl.symm.trans hl')
    have hbelow := howns.le_next hs.blocks
    change g.offset + l.size ≤ OpenObject.storageSize m v ∧ h'.Owns (OpenObject.storage m v) _ ∧ _ ∧
      Memory.CopiedTo h.memory m _ ((OpenObject.storage m v).toNat + g.offset) l.size
    rw [hstorage, hsize]
    refine ⟨by omega, hg.owned.mono (by omega), by omega, fun i hi => ?_⟩
    rw [hfar _ (by omega), Nat.add_assoc, Nat.add_assoc]
    exact hg.copied (g.offset + i) (by omega) (by omega)

end Grown

/-! A field is retyped where it lies, or moved to the end of the storage, or added. -/

section

variable (hs : Ordered r ∅ h values) (hv : v ∈ values) (hk : r.kindAt h.memory v = some .dynobj)

include hs hv hk

private theorem part_blocks (hold : old ∈ OpenObject.table h.memory v) :
    IsPart h.memory v (OpenObject.tableAddress h.memory v) ∧
      h.Owns (OpenObject.tableAddress h.memory v)
        ((OpenObject.table h.memory v).length * OpenObject.entrySize) ∧
      OpenObject.tableAddress h.memory v ≠ OpenObject.storage h.memory v ∧
      (v.toNat + 40 ≤ (OpenObject.tableAddress h.memory v).toNat ∨
        (OpenObject.tableAddress h.memory v).toNat +
          (OpenObject.table h.memory v).length * OpenObject.entrySize ≤ v.toNat) := by
  have hsize : headerSize r h.memory v = 40 := headerSize_eq hk (by decide)
  rcases hs.arranged.table_owned hv hk with hempty | ⟨hpart, howns⟩
  · rw [hempty] at hold
    cases hold
  · refine ⟨hpart, howns, fun heq => hpart.1 ((hs.arranged.opens v hv hk).parted heq), ?_⟩
    have hne : OpenObject.tableAddress h.memory v ≠ v :=
      fun heq => (hs.arranged.part_owned hv hk hpart).1 (heq.symm ▸ hv)
    have := howns.apart (hs.arranged.owned v hv) hs.arranged.blocks hne
    omega

private theorem outside_table (hold : old ∈ OpenObject.table h.memory v) {y : Nat} (hout : ¬Covers h v y) :
    y < (OpenObject.tableAddress h.memory v).toNat ∨
      (OpenObject.tableAddress h.memory v).toNat +
        (OpenObject.table h.memory v).length * OpenObject.entrySize ≤ y := by
  obtain ⟨hpart, htable, -⟩ := part_blocks hs hv hk hold
  have hentry : ¬((OpenObject.tableAddress h.memory v).toNat ≤ y ∧
      y < (OpenObject.tableAddress h.memory v).toNat +
        (OpenObject.table h.memory v).length * OpenObject.entrySize) :=
    fun hin => hout (Or.inr ⟨_, _, hpart, htable, hin⟩)
  omega

private theorem placing_in_place {oldKind : Kind} (hold : old ∈ OpenObject.table h.memory v)
    (hOld : r.kind? old.type = some oldKind) (ht : r.kind? t = some k) (hle : k.size ≤ oldKind.size)
    (halign : k.alignUp old.offset = old.offset) (hf : f = { old with type := t })
    (hclear : Memory.ChangesOnly h.memory m ((OpenObject.storage h.memory v).toNat + old.offset)
      oldKind.size)
    (hclean : ∀ width, h.Owns (OpenObject.storage h.memory v) width →
      Memory.SameOn m n (OpenObject.storage h.memory v).toNat width)
    (hstorage : OpenObject.storage n v = OpenObject.storage h.memory v)
    (hsize : OpenObject.storageSize n v = OpenObject.storageSize h.memory v) :
    Placing r h { h with memory := n } v f k := by
  have ho := hs.arranged.opens v hv hk
  obtain ⟨l, hl, -, hused, howns⟩ := ho.placed old hold
  obtain rfl : oldKind = l := Option.some.inj (hOld.symm.trans hl)
  have hhash : f.hash = old.hash := by rw [hf]
  have hplace : f.offset = old.offset := by rw [hf]
  have htype : f.type = t := by rw [hf]
  refine ⟨htype.symm ▸ ht, ?_, ?_, ?_, ?_⟩
  · rw [hplace]
    exact Kind.align_dvd_of_alignUp_eq halign
  · change f.offset + k.size ≤ OpenObject.storageSize n v
    rw [hplace, hsize]
    omega
  · change h.Owns (OpenObject.storage n v) _
    rw [hplace, hstorage]
    exact howns.mono (by omega)
  · -- Any other field is apart from the old one, and so from what was cleared.
    intro g hg hne l hl
    obtain ⟨l', hl', -, hgused, hgowns⟩ := ho.placed g hg
    obtain rfl : l = l' := Option.some.inj (hl.symm.trans hl')
    have hapart : g.offset + l.size ≤ old.offset ∨ old.offset + oldKind.size ≤ g.offset := by
      rcases eq_or_related_of_pairwise ho.apart hg hold with rfl | hgo | hog
      · exact absurd hhash.symm hne
      · exact hgo l oldKind hl hOld
      · exact (hog oldKind l hOld hl).symm
    change g.offset + l.size ≤ OpenObject.storageSize n v ∧ h.Owns (OpenObject.storage n v) _ ∧ _ ∧
      Memory.CopiedTo h.memory n _ ((OpenObject.storage n v).toNat + g.offset) l.size
    rw [hplace, hsize, hstorage]
    refine ⟨hgused, hgowns, by omega, ?_⟩
    have hkeep : Memory.SameOn m n ((OpenObject.storage h.memory v).toNat + g.offset) l.size :=
      (hclean _ hgowns).mono (by omega) (by omega)
    exact ((hclear.sameOn (by omega)).trans hkeep).copiedTo

theorem acquires_in_place {oldKind : Kind}
    (hold : (OpenObject.table h.memory v)[position]? = some old)
    (hOld : r.kind? old.type = some oldKind) (ht : r.kind? t = some k) (hle : k.size ≤ oldKind.size)
    (halign : k.alignUp old.offset = old.offset) (hf : f = { old with type := t })
    (hm : m = h.memory.clear ((OpenObject.storage h.memory v).toNat + old.offset) oldKind.size)
    (hn : n = OpenObject.writeEntry m
      ((OpenObject.tableAddress m v).toNat + position * OpenObject.entrySize) f) :
    Acquires r values v f h { h with memory := n } := by
  have hmem : old ∈ OpenObject.table h.memory v := List.mem_of_getElem? hold
  have ho := hs.arranged.opens v hv hk
  obtain ⟨-, htable, hparted, hfar⟩ := part_blocks hs hv hk hmem
  have hlt : position < (OpenObject.table h.memory v).length := (List.getElem?_eq_some_iff.1 hold).1
  have hhash : f.hash = old.hash := by rw [hf]
  have hclear : Memory.ChangesOnly h.memory m ((OpenObject.storage h.memory v).toNat + old.offset)
      oldKind.size := by
    rw [hm]
    exact Memory.changesOnly_clear _ _ _
  have hsame := (hs.arranged.same_of_field (.openField hv hk hmem) hOld hclear hv).1
  have hplace : f.offset = old.offset := by rw [hf]
  have hoffset : f.offset < 2 ^ 32 := by
    rw [hplace]
    exact OpenObject.offset_lt_of_mem hmem
  have haddress := hsame.tableAddress hk
  have hentries := hsame.table hk
  obtain ⟨haddress', hstorage', hsize', hentries'⟩ := table_writeEntry (m := m) (v := v)
    (by rw [hentries]; exact hlt) (by rw [hentries, haddress]; exact hfar) hoffset hn
  rw [haddress] at hn haddress'
  rw [hentries] at hentries'
  rw [hsame.openStorage hk] at hstorage'
  rw [hsame.storageSize hk] at hsize'
  have hwrite : Memory.ChangesOnly m n (OpenObject.tableAddress h.memory v).toNat
      ((OpenObject.table h.memory v).length * OpenObject.entrySize) := by
    rw [hn]
    exact OpenObject.changesOnly_writeEntry_of_lt m _ f hlt
  have hclean : ∀ width, h.Owns (OpenObject.storage h.memory v) width →
      Memory.SameOn m n (OpenObject.storage h.memory v).toNat width :=
    fun width hwidth => hwrite.sameOn (htable.apart hwidth hs.arranged.blocks hparted).symm
  have hgot : GotField h.memory n v f := gotField_set ho.sorted hold hhash hentries'
  have hplacing := placing_in_place hs hv hk hmem hOld ht hle halign hf hclear hclean hstorage' hsize'
  have hlength : (OpenObject.table n v).length = (OpenObject.table h.memory v).length := by
    rw [hentries', List.length_set]
  refine hplacing.acquires hs hv hk hgot hs.arranged.blocks.withMemory (.refl h) le_rfl ?_ ?_ ?_ ?_ ?_ ?_
    ?_ ?_
  · -- The bytes that were cleared are in the storage, and those that were written in the table.
    intro y hy hout
    change n.byte y = h.memory.byte y
    obtain ⟨l, hl, -, hused, howns⟩ := ho.placed old hmem
    obtain rfl : oldKind = l := Option.some.inj (hOld.symm.trans hl)
    have hpart' := hs.arranged.storage_isPart howns
    have hstorage : ¬((OpenObject.storage h.memory v).toNat ≤ y ∧
        y < (OpenObject.storage h.memory v).toNat + (old.offset + oldKind.size)) :=
      fun hin => hout (Or.inr ⟨_, _, hpart', howns, hin⟩)
    rw [hwrite y (outside_table hs hv hk hmem hout), hclear y (by omega)]
  · change OpenObject.tableAddress n v ∉ values
    rw [haddress']
    exact ho.table_out
  · change OpenObject.storage n v ∉ values
    rw [hstorage']
    exact ho.storage_out
  · change h.PointersAt (OpenObject.storage n v)
    rw [hstorage']
    obtain ⟨_, -, -, -, howns⟩ := ho.placed old hmem
    exact ho.storage_pointed (howns.ne_zero hs.arranged.blocks)
  · change h.Owns (OpenObject.tableAddress n v) ((OpenObject.table n v).length * _)
    rw [haddress', hlength]
    exact htable
  · change OpenObject.tableAddress n v ≠ OpenObject.storage n v
    rw [haddress', hstorage']
    exact hparted
  · change 6 * (OpenObject.table n v).length ^ 2 ≤ h.next
    rw [hlength]
    exact ho.few
  · intro u hu hku hne a ha hua
    unfold IsPart at ha
    change a ≠ 0 ∧ (a = OpenObject.tableAddress n v ∨ a = OpenObject.storage n v) at ha
    rw [haddress', hstorage'] at ha
    exact hne (hs.arranged.parts u hu v hv hku hk a hua ha)

private theorem acquires_grown (ht : r.kind? f.type = some k)
    (hoffset : f.offset = k.alignUp (OpenObject.storageSize h.memory v))
    (hg : Grown h h' v (f.offset + k.size)) (hgot : GotField h.memory n v f)
    (hstorage : OpenObject.storage n v = OpenObject.storage h'.memory v)
    (hsize : OpenObject.storageSize n v = OpenObject.storageSize h'.memory v)
    (hfar : ∀ y, h.next ≤ y → n.byte y = h'.memory.byte y)
    (hnear : ∀ y < h.next, ¬Covers h v y → n.byte y = h'.memory.byte y)
    (hout : OpenObject.tableAddress n v ∉ values)
    (hbelow : (OpenObject.tableAddress n v).toNat < h.next)
    (hroom : h'.Owns (OpenObject.tableAddress n v)
      ((OpenObject.table n v).length * OpenObject.entrySize))
    (hfew : 6 * (OpenObject.table n v).length ^ 2 ≤ h'.next)
    (hothers : ∀ u ∈ values, r.kindAt h.memory u = some .dynobj → u ≠ v →
      ¬IsPart h.memory u (OpenObject.tableAddress n v)) :
    Acquires r values v f h { h' with memory := n } ∧ ∀ a ∈ h.fresh h', IsPart n v a := by
  have hplacing := hg.placing hs.arranged hv hk ht hoffset hstorage hsize hfar
  have haddress := hg.address
  rw [← hstorage] at haddress
  refine ⟨hplacing.acquires hs hv hk hgot hg.wellFormed.withMemory hg.blocks hg.next ?_ hout ?_ ?_ hroom ?_
    hfew ?_, ?_⟩
  · intro y hy hcovers
    change n.byte y = h.memory.byte y
    rw [hnear y hy hcovers]
    have hheader : ¬(v.toNat + 8 ≤ y ∧ y < v.toNat + 32) := fun hin => hcovers (Or.inl hin)
    exact hg.same y hy (by omega) (by omega)
  · change OpenObject.storage n v ∉ values
    intro hmem
    have := (hs.arranged.owned _ hmem).lt_next hs.arranged.blocks
    omega
  · change h'.PointersAt (OpenObject.storage n v)
    rw [hstorage]
    exact hg.pointed
  · change OpenObject.tableAddress n v ≠ OpenObject.storage n v
    intro heq
    rw [heq] at hbelow
    omega
  · -- The storage is new, so it is not a part of another open object.
    rintro u hu hku hne a ⟨hzero, rfl | rfl⟩ hua
    · exact hothers u hu hku hne hua
    · change IsPart h.memory u (OpenObject.storage n v) at hua
      have := (hs.arranged.part_owned hu hku hua).2.lt_next hs.arranged.blocks
      omega
  · intro a ha
    rw [hg.fresh] at ha
    obtain rfl := Set.mem_singleton_iff.1 ha
    exact ⟨hg.owned.ne_zero hg.wellFormed, Or.inr hstorage.symm⟩

theorem acquires_moved (hold : (OpenObject.table h.memory v)[position]? = some old)
    (ht : r.kind? t = some k)
    (hf : f = { old with type := t, offset := k.alignUp (OpenObject.storageSize h.memory v) })
    (hg : Grown h h' v (f.offset + k.size))
    (hn : n = OpenObject.writeEntry h'.memory
      ((OpenObject.tableAddress h'.memory v).toNat + position * OpenObject.entrySize) f) :
    Acquires r values v f h { h' with memory := n } ∧ ∀ a ∈ h.fresh h', IsPart n v a := by
  have hmem : old ∈ OpenObject.table h.memory v := List.mem_of_getElem? hold
  have ho := hs.arranged.opens v hv hk
  obtain ⟨hpart, htable, -, hfar⟩ := part_blocks hs hv hk hmem
  have hlt : position < (OpenObject.table h.memory v).length := (List.getElem?_eq_some_iff.1 hold).1
  have hhash : f.hash = old.hash := by rw [hf]
  have htype : f.type = t := by rw [hf]
  have hoffset : f.offset = k.alignUp (OpenObject.storageSize h.memory v) := by rw [hf]
  have hbound := hg.lt hoffset
  obtain ⟨haddress, hentries⟩ := hg.table hs.arranged hv hk
  obtain ⟨haddress', hstorage', hsize', hentries'⟩ := table_writeEntry (m := h'.memory) (v := v)
    (by rw [hentries]; exact hlt) (by rw [hentries, haddress]; exact hfar) (by omega) hn
  rw [haddress] at hn haddress'
  rw [hentries] at hentries'
  have hlength : (OpenObject.table n v).length = (OpenObject.table h.memory v).length := by
    rw [hentries', List.length_set]
  have hwrite : Memory.ChangesOnly h'.memory n (OpenObject.tableAddress h.memory v).toNat
      ((OpenObject.table h.memory v).length * OpenObject.entrySize) := by
    rw [hn]
    exact OpenObject.changesOnly_writeEntry_of_lt h'.memory _ f hlt
  have hend := htable.le_next hs.arranged.blocks
  refine acquires_grown hs hv hk (htype.symm ▸ ht) hoffset hg (gotField_set ho.sorted hold hhash hentries')
    hstorage' hsize' (fun y hy => hwrite y (by omega)) ?_ ?_ ?_ ?_ ?_ ?_
  · intro y hy hcovers
    exact hwrite y (outside_table hs hv hk hmem hcovers)
  · rw [haddress']
    exact ho.table_out
  · rw [haddress']
    exact htable.lt_next hs.arranged.blocks
  · rw [haddress', hlength]
    exact htable.extend hg.blocks
  · rw [hlength]
    exact ho.few.trans hg.next
  · intro u hu hku hne hua
    rw [haddress'] at hua
    exact hne (hs.arranged.parts u hu v hv hku hk _ hua hpart)

theorem acquires_added {a : Addr}
    (hnone : OpenObject.find? (OpenObject.table h.memory v) f.hash = none) (ht : r.kind? f.type = some k)
    (hoffset : f.offset = k.alignUp (OpenObject.storageSize h.memory v))
    (hg : Grown h h' v (f.offset + k.size)) (hout : a ∉ values)
    (howns : h.Owns a (((OpenObject.table h.memory v).length + 1) * OpenObject.entrySize))
    (hothers : ∀ u ∈ values, r.kindAt h.memory u = some .dynobj → ¬IsPart h.memory u a)
    (hwritten : f.offset < 2 ^ 32 →
      OpenObject.readEntries h.memory a.toNat ((OpenObject.table h.memory v).length + 1) =
        OpenObject.inserted (OpenObject.table h.memory v) f)
    (hfew : 6 * ((OpenObject.table h.memory v).length + 1) ^ 2 ≤ h.next)
    (hm : m = h'.memory.setWord (v.toNat + OpenObject.tableOffset) a)
    (hn : n = m.setCount (v.toNat + OpenObject.countOffset)
      ((OpenObject.table h.memory v).length + 1)) :
    Acquires r values v f h { h' with memory := n } ∧ IsPart n v a ∧ ∀ a ∈ h.fresh h', IsPart n v a := by
  have hbound := hg.lt hoffset
  have hsize : headerSize r h.memory v = 40 := headerSize_eq hk (by decide)
  have hheader := (hs.arranged.owned v hv).le_next hs.arranged.blocks
  obtain ⟨haddress, hcount, hstorage, hstorageSize, hkeep⟩ :=
    header_relinked (length_lt hs.arranged.blocks hfew) hm hn
  have hne : a ≠ v := fun heq => hout (heq ▸ hv)
  have hapart := howns.apart (hs.arranged.owned v hv) hs.arranged.blocks hne
  have hend := howns.le_next hs.arranged.blocks
  have hentries : OpenObject.table n v = OpenObject.inserted (OpenObject.table h.memory v) f := by
    have hsame : Memory.SameOn h.memory n a.toNat
        (((OpenObject.table h.memory v).length + 1) * OpenObject.entrySize) := by
      intro y hy hy'
      rw [hkeep y (by omega)]
      exact hg.same y (by omega) (by omega) (by omega)
    rw [OpenObject.table, haddress, hcount, readEntries_same hsame, hwritten (by omega)]
  have hinserted : (OpenObject.table n v).length = (OpenObject.table h.memory v).length + 1 := by
    rw [hentries, OpenObject.length_inserted]
  have hsorted := (hs.arranged.opens v hv hk).sorted
  have hpart : IsPart n v a := ⟨howns.ne_zero hs.arranged.blocks, Or.inl haddress.symm⟩
  suffices hgrown : Acquires r values v f h { h' with memory := n } ∧ ∀ a ∈ h.fresh h', IsPart n v a from
    ⟨hgrown.1, hpart, hgrown.2⟩
  refine acquires_grown hs hv hk ht hoffset hg (gotField_insert hsorted hnone hentries) hstorage
    hstorageSize (fun y hy => ?_) (fun y hy hcovers => ?_) ?_ ?_ ?_ ?_ ?_
  · exact hkeep y (by omega)
  · have hin : ¬(v.toNat + 8 ≤ y ∧ y < v.toNat + 32) := fun hin => hcovers (Or.inl hin)
    exact hkeep y (by omega)
  · rw [haddress]
    exact hout
  · rw [haddress]
    exact howns.lt_next hs.arranged.blocks
  · rw [haddress, hinserted]
    exact howns.extend hg.blocks
  · rw [hinserted]
    exact hfew.trans hg.next
  · intro u hu hku _ hua
    rw [haddress] at hua
    exact hothers u hu hku hua

end

end ObjectModel
