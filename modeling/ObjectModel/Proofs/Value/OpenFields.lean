import ObjectModel.Proofs.Value.Refresh
import ObjectModel.Proofs.Value.Rework

/-!
Writing fields of open objects. A field of the same type is written in place. A new one is inserted in
the table, and one of another type is retyped: where it lies, if there is room, or else at the end of the
storage, which is moved to a greater block. All other fields keep their offsets and what they hold.
-/

set_option autoImplicit false
set_option relaxedAutoImplicit false

namespace ObjectModel

variable {r : Registry} {stale values : Set Addr} {h h' : Heap} {u v : Addr}
  {t : TypeId} {k : Kind} {m n : Memory} {f g : OpenField} {size : Nat} {hash : NameHash}

/-- An open object whose storage has been moved to a new block of the given size: the bytes in use are
there, and nothing else has changed. -/
structure Grown (h h' : Heap) (v : Addr) (size : Nat) : Prop where
  wellFormed : h'.WellFormed
  blocks : h.Extends h'
  fresh : h.fresh h' = {OpenObject.storage h'.memory v}
  address : h.next ≤ (OpenObject.storage h'.memory v).toNat
  next : h.next ≤ h'.next
  same : ∀ y < h.next, ¬(v.toNat + 16 ≤ y ∧ y < v.toNat + 24) → ¬(v.toNat + 28 ≤ y ∧ y < v.toNat + 32) →
    h'.memory.byte y = h.memory.byte y
  owned : h'.Owns (OpenObject.storage h'.memory v) size
  pointed : h'.PointersAt (OpenObject.storage h'.memory v)
  size_le : size < 2 ^ 32 → size ≤ OpenObject.storageSize h'.memory v
  copied : ∀ i < OpenObject.storageSize h.memory v, (OpenObject.storage h.memory v).toNat + i < h.next →
    h'.memory.byte ((OpenObject.storage h'.memory v).toNat + i) =
      h.memory.byte ((OpenObject.storage h.memory v).toNat + i)

namespace Action

variable {w : World}

theorem growStorage_ends (hs : Arranged r stale h values) (hv : v ∈ values)
    (hk : r.kindAt h.memory v = some .dynobj) (size : Nat) :
    (growStorage v size).Ends w h (fun _ h' => Grown h h' v size) (fun _ => False) := by
  unfold growStorage
  refine (allocate_ends hs.blocks size .pointers).bind (fun _ => id) ?_
  rintro a h₁ ⟨hg, -, -, hpointed⟩
  have hsame := (hs.same_of_below hg.same hv).1
  have hsize : headerSize r h.memory v = 40 := headerSize_eq hk (by decide)
  have hnext := (hs.owned v hv).le_next hs.blocks
  have haddress := hg.address
  have hforty : v.toNat + 40 ≤ a.toNat := by omega
  refine Ends.change ?_
  dsimp only
  rw [hsame.openStorage hk, hsame.storageSize hk]
  set source := OpenObject.storage h.memory v with hsource
  set used := OpenObject.storageSize h.memory v with hused
  set m₁ := h₁.memory.copy source.toNat a.toNat used with hm₁
  set m₂ := m₁.setWord (v.toNat + OpenObject.storageOffset) a with hm₂
  set m₃ := m₂.setCount (v.toNat + OpenObject.storageSizeOffset) size with hm₃
  have hfirst : Memory.ChangesOnly h₁.memory m₁ a.toNat used := Memory.changesOnly_copy _ _ _ _
  have hsecond : Memory.ChangesOnly m₁ m₂ (v.toNat + 16) 8 := Memory.changesOnly_setWord _ _ _
  have hthird : Memory.ChangesOnly m₂ m₃ (v.toNat + 28) 4 := Memory.changesOnly_setCount _ _ _
  have hstorage : OpenObject.storage m₃ v = a := by
    have hkeep : m₃.word (v.toNat + 16) = m₂.word (v.toNat + 16) :=
      (hthird.sameOn (Or.inl (by omega))).word
    rw [OpenObject.storage, show OpenObject.storageOffset = 16 from rfl, hkeep, hm₂,
      show OpenObject.storageOffset = 16 from rfl, Memory.word_setWord_same]
  have hcopy : ∀ i < used, m₃.byte (a.toNat + i) = h₁.memory.byte (source.toNat + i) := by
    intro i hi
    rw [hthird _ (Or.inr (by omega)), hsecond _ (Or.inr (by omega)), hm₁, Memory.byte_copy,
      Nat.add_sub_cancel_left, if_pos (by omega)]
  have hcount : size < 2 ^ 32 → size ≤ OpenObject.storageSize m₃ v :=
    fun hlt => (Memory.count_setCount m₂ _ hlt).1
  clear_value m₃ m₂ m₁
  refine
    { wellFormed := hg.wellFormed.withMemory, blocks := hg.blocks, fresh := ?fresh, address := ?address,
      next := hg.next, same := ?same, owned := ?owned, pointed := ?pointed, size_le := hcount,
      copied := ?copied }
  case fresh =>
    change h.fresh h₁ = {OpenObject.storage m₃ v}
    rw [hstorage]
    exact hg.fresh
  case address =>
    change h.next ≤ (OpenObject.storage m₃ v).toNat
    rw [hstorage]
    exact haddress
  case same =>
    intro y hy hout hout'
    change m₃.byte y = h.memory.byte y
    rw [hthird y (by omega), hsecond y (by omega), hfirst y (by omega), hg.same y (Nat.zero_le y) (by omega)]
  case owned =>
    change h₁.Owns (OpenObject.storage m₃ v) size
    rw [hstorage]
    exact hg.owned
  case pointed =>
    change h₁.PointersAt (OpenObject.storage m₃ v)
    rw [hstorage]
    exact hpointed rfl
  case copied =>
    intro i hi hbelow
    change m₃.byte ((OpenObject.storage m₃ v).toNat + i) = _
    rw [hstorage, hcopy i hi]
    refine hg.same _ (Nat.zero_le _) ?_
    rw [Nat.zero_add]
    exact hbelow

end Action

theorem Kind.alignUp_le (k : Kind) (offset : Nat) : k.alignUp offset + k.size ≤ offset + 16 := by
  have hdiv := Nat.div_mul_le_self (offset + (k.align - 1)) k.align
  have halign : k.align ≤ 8 := by cases k <;> decide
  have hsize : k.size ≤ 8 := by cases k <;> decide
  unfold alignUp
  omega

/-- The table of an open object after it has got the field `f`, in place of the one of its hash if it
had one. -/
structure GotField (m n : Memory) (v : Addr) (f : OpenField) : Prop where
  mem : ∀ g, g ∈ OpenObject.table n v ↔ g = f ∨ (g ∈ OpenObject.table m v ∧ g.hash ≠ f.hash)
  sorted : (OpenObject.table n v).Pairwise (·.hash < ·.hash)

namespace GotField

theorem of_mem (hsorted : (OpenObject.table m v).Pairwise (·.hash < ·.hash))
    (hf : f ∈ OpenObject.table m v) (hn : OpenObject.table n v = OpenObject.table m v) :
    GotField m n v f := by
  refine ⟨fun g => ?_, hn ▸ hsorted⟩
  rw [hn]
  constructor
  · intro hg
    refine or_iff_not_imp_right.2 fun hother => ?_
    have hhash : g.hash = f.hash := not_not.1 fun hne => hother ⟨hg, hne⟩
    have hfound := OpenObject.find?_hash hsorted hg
    rw [hhash, OpenObject.find?_hash hsorted hf] at hfound
    exact (Option.some.inj hfound).symm
  · rintro (rfl | ⟨hg, -⟩)
    · exact hf
    · exact hg

theorem kept (hf : GotField m n v f)
    (hfound : (OpenObject.find? (OpenObject.table m v) hash).isSome = true) :
    (OpenObject.find? (OpenObject.table n v) hash).isSome = true := by
  obtain ⟨g, hg⟩ := Option.isSome_iff_exists.1 hfound
  obtain ⟨hmem, rfl⟩ := OpenObject.mem_of_find? hg
  rw [OpenObject.isSome_find?_iff hf.sorted, List.mem_map]
  by_cases hsame : g.hash = f.hash
  · exact ⟨f, (hf.mem f).2 (Or.inl rfl), hsame.symm⟩
  · exact ⟨g, (hf.mem g).2 (Or.inr ⟨hmem, hsame⟩), rfl⟩

theorem apart (hf : GotField m n v f) (hold : (OpenObject.table m v).Pairwise (OpenField.Apart r))
    (hnew : ∀ g ∈ OpenObject.table m v, g.hash ≠ f.hash → OpenField.Apart r g f) :
    (OpenObject.table n v).Pairwise (OpenField.Apart r) := by
  have hsymm : ∀ {x y : OpenField}, OpenField.Apart r x y → OpenField.Apart r y x :=
    fun hxy k l hk hl => (hxy l k hl hk).symm
  refine hf.sorted.imp_of_mem fun {x y} hx hy hlt => ?_
  rcases (hf.mem x).1 hx with rfl | ⟨hx, hxf⟩
  · rcases (hf.mem y).1 hy with rfl | ⟨hy, hyf⟩
    · exact absurd hlt Int32.lt_irrefl
    · exact hsymm (hnew y hy hyf)
  · rcases (hf.mem y).1 hy with rfl | ⟨hy, hyf⟩
    · exact hnew x hx hxf
    · rcases eq_or_related_of_pairwise hold hx hy with rfl | hxy | hyx
      · exact absurd hlt Int32.lt_irrefl
      · exact hxy
      · exact hsymm hyx

end GotField

/-- What the storage of an open object has become when the field `f`, of the kind `k`, has got a place in
it: the place is aligned, and each other field is where it was, holds what it held, and is apart from it. -/
structure Placing (r : Registry) (h h' : Heap) (v : Addr) (f : OpenField) (k : Kind) : Prop where
  kind : r.kind? f.type = some k
  aligned : k.align ∣ f.offset
  used : f.offset + k.size ≤ OpenObject.storageSize h'.memory v
  owned : h'.Owns (OpenObject.storage h'.memory v) (f.offset + k.size)
  others : ∀ g ∈ OpenObject.table h.memory v, g.hash ≠ f.hash → ∀ l, r.kind? g.type = some l →
    g.offset + l.size ≤ OpenObject.storageSize h'.memory v ∧
      h'.Owns (OpenObject.storage h'.memory v) (g.offset + l.size) ∧
      (g.offset + l.size ≤ f.offset ∨ f.offset + k.size ≤ g.offset) ∧
      Memory.CopiedTo h.memory h'.memory ((OpenObject.storage h.memory v).toNat + g.offset)
        ((OpenObject.storage h'.memory v).toNat + g.offset) l.size

/-- The open object at `v` has become another one by getting the field `f`, and its other fields hold what
they held. -/
structure Acquires (r : Registry) (values : Set Addr) (v : Addr) (f : OpenField) (h h' : Heap) : Prop where
  works : Reworks r values v h h'
  got : GotField h.memory h'.memory v f
  others : ∀ g ∈ OpenObject.table h.memory v, g.hash ≠ f.hash → ∀ l, r.kind? g.type = some l →
    Memory.CopiedTo h.memory h'.memory ((OpenObject.storage h.memory v).toNat + g.offset)
      ((OpenObject.storage h'.memory v).toNat + g.offset) l.size

theorem Placing.acquires (hp : Placing r h h' v f k) (hs : Ordered r ∅ h values) (hv : v ∈ values)
    (hk : r.kindAt h.memory v = some .dynobj) (hgot : GotField h.memory h'.memory v f)
    (hwf : h'.WellFormed) (hext : h.Extends h') (hnext : h.next ≤ h'.next)
    (hcovered : ∀ y < h.next, ¬Covers h v y → h'.memory.byte y = h.memory.byte y)
    (htable : OpenObject.tableAddress h'.memory v ∉ values)
    (hstorage : OpenObject.storage h'.memory v ∉ values)
    (hpointed : h'.PointersAt (OpenObject.storage h'.memory v))
    (hroom : h'.Owns (OpenObject.tableAddress h'.memory v)
      ((OpenObject.table h'.memory v).length * OpenObject.entrySize))
    (hparted : OpenObject.tableAddress h'.memory v ≠ OpenObject.storage h'.memory v)
    (hfew : 6 * (OpenObject.table h'.memory v).length ^ 2 ≤ h'.next)
    (hparts : ∀ u ∈ values, r.kindAt h.memory u = some .dynobj → u ≠ v →
      ∀ a, IsPart h'.memory v a → ¬IsPart h.memory u a) : Acquires r values v f h h' := by
  have ho := hs.arranged.opens v hv hk
  have hopen : OpenAt r h' values v := by
    refine ⟨htable, hstorage, Or.inr hroom, Or.inr (hp.owned.mono (Nat.zero_le _)), fun _ => hpointed,
      fun heq => absurd heq hparted, hfew, hgot.sorted, fun g hg => ?_, ?_⟩
    · rcases (hgot.mem g).1 hg with rfl | ⟨hg, hne⟩
      · exact ⟨k, hp.kind, hp.aligned, hp.used, hp.owned⟩
      · obtain ⟨l, hl, halign, -⟩ := ho.placed g hg
        obtain ⟨hused, howned, -⟩ := hp.others g hg hne l hl
        exact ⟨l, hl, halign, hused, howned⟩
    · refine hgot.apart ho.apart fun g hg hne l k' hl hk' => ?_
      obtain rfl := Option.some.inj (hp.kind.symm.trans hk')
      exact (hp.others g hg hne l hl).2.2.1
  exact ⟨⟨hwf, hext, hnext, hcovered, hopen, hparts, fun hash => hgot.kept⟩, hgot,
    fun g hg hne l hl => (hp.others g hg hne l hl).2.2.2⟩

end ObjectModel
