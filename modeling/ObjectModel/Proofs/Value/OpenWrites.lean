import Mathlib.Tactic.Ring
import ObjectModel.Proofs.Value.OpenUpdate

/-!
Writing a field of an open object, whether it is there or not, and whatever type it has. The values stay
the same ones; blocks that are taken become the table and the storage of the object.
-/

set_option autoImplicit false
set_option relaxedAutoImplicit false

namespace ObjectModel

variable {r : Registry} {held : Addr → TypeId → Prop} {stale values : Set Addr} {h h' : Heap} {v : Addr}
  {t : TypeId} {k : Kind} {f g old : OpenField} {position : Nat} {hash : NameHash} {s : Slot}

/-- A heap in order that follows on another one with the same values, in which the slot `s` of type `t`
was written to a name of the open object at `v`. The object has a field of the name in which the slot is
found; its other fields, and those of other values, hold what they held. All blocks that the heap has more
belong to the object. -/
structure Wrote (r : Registry) (values : Set Addr) (v : Addr) (hash : NameHash) (t : TypeId) (s : Slot)
    (h h' : Heap) : Prop where
  ordered : Ordered r ∅ h' values
  blocks : h.Extends h'
  goesOn : GoesOn r values h.memory values h'.memory
  parts : ∀ a ∈ h.fresh h', IsPart h'.memory v a
  field : ∃ f, f.hash = hash ∧ r.sameType f.type t = true ∧ GotField h.memory h'.memory v f ∧
    ∀ k, r.kind? f.type = some k →
      h'.memory.read ((OpenObject.storage h'.memory v).toNat + f.offset) k = s
  others : ∀ g ∈ OpenObject.table h.memory v, g.hash ≠ hash → ∀ l, r.kind? g.type = some l →
    Memory.CopiedTo h.memory h'.memory ((OpenObject.storage h.memory v).toNat + g.offset)
      ((OpenObject.storage h'.memory v).toNat + g.offset) l.size
  elsewhere : ∀ b o u, Holds r values h'.memory b o u →
    (b = OpenObject.storage h'.memory v ∧ ∃ g ∈ OpenObject.table h'.memory v, g.offset = o ∧ g.type = u) ∨
      (Holds r values h.memory b o u ∧ ∀ l, r.kind? u = some l →
        Memory.SameOn h.memory h'.memory (b.toNat + o) l.size)

/-- The values that a write to an open object leaves alone: all others that are not virtual, as its views
are. -/
def bystanders (r : Registry) (values : Set Addr) (m : Memory) (v : Addr) : Set Addr :=
  {a | a ∈ values ∧ a ≠ v ∧ r.kindAt m a ≠ some .virtual}

theorem bystanders_goesOn {m n : Memory} (hgo : GoesOn r values m values n) :
    bystanders r values n v = bystanders r values m v := by
  ext a
  refine and_congr_right fun ha => ?_
  rw [hgo.kindAt ha]

theorem storage_notMem_bystanders (hs : Arranged r stale h values) (hv : v ∈ values)
    (hk : r.kindAt h.memory v = some .dynobj) :
    OpenObject.storage h.memory v ∉ bystanders r values h.memory v :=
  fun hin => (hs.opens v hv hk).storage_out hin.1

/-- A sound heap that follows on another one with the same values. All blocks that it has more belong to
the open object at `v`. -/
structure Reshaped (r : Registry) (held : Addr → TypeId → Prop) (values : Set Addr) (v : Addr) (h h' : Heap) :
    Prop where
  sound : Sound r held ∅ h' values
  blocks : h.Extends h'
  goesOn : GoesOn r values h.memory values h'.memory
  parts : ∀ a ∈ h.fresh h', IsPart h'.memory v a

private theorem Stores.others_open {m : Memory} (hstores : Stores r values (OpenObject.storage h.memory v)
    f.offset f.type s h.memory m) (ho : OpenAt r h values v) (hv : v ∈ values)
    (hk : r.kindAt h.memory v = some .dynobj) (hf : f ∈ OpenObject.table h.memory v)
    (hg : g ∈ OpenObject.table h.memory v) (hne : g.hash ≠ f.hash) (hl : r.kind? g.type = some k) :
    Memory.SameOn h.memory m ((OpenObject.storage h.memory v).toNat + g.offset) k.size := by
  rcases hstores.others _ _ _ k (.openField hv hk hg) hl with ⟨-, hoffset, htype⟩ | hsame
  · -- Two fields at one offset, which do not overlap, have no bytes.
    have happart : OpenField.Apart r f g ∨ OpenField.Apart r g f := by
      rcases eq_or_related_of_pairwise ho.apart hf hg with rfl | hrest
      · exact absurd rfl hne
      · exact hrest
    rw [← htype] at hl
    rcases happart with hfg | hgf
    · have := hfg k k hl (htype ▸ hl)
      intro y hy hy'
      omega
    · have := hgf k k (htype ▸ hl) hl
      intro y hy hy'
      omega
  · exact hsame

namespace Wrote

theorem reshaped (hw : Wrote r values v hash t s h h') (hs : Sound r held ∅ h values) (hv : v ∈ values)
    (hk : r.kindAt h.memory v = some .dynobj) (hslot : WellTyped r held values h.memory t s) :
    Reshaped r held values v h h' := by
  refine ⟨⟨hw.ordered, fun b o u l hb hl => ?_⟩, hw.blocks, hw.goesOn, hw.parts⟩
  rcases hw.elsewhere b o u hb with ⟨rfl, g, hg, rfl, rfl⟩ | ⟨hold, hread⟩
  · obtain ⟨f, hhash, hsame, hgot, hread⟩ := hw.field
    rcases (hgot.mem g).1 hg with rfl | ⟨hg, hne⟩
    · rw [hread l hl]
      exact (hslot.of_sameType (Registry.sameType_symm hsame)).goesOn hw.goesOn
    · rw [(hw.others g hg (hhash ▸ hne) l hl).read]
      exact (hs.content _ _ _ l (.openField hv hk hg) hl).goesOn hw.goesOn
  · rw [(hread l hl).read]
    exact (hs.content b o u l hold hl).goesOn hw.goesOn

end Wrote

namespace Action

variable {w : World}

/-- The open object at `v` has got the field `f` of a name and a type; its views may be outdated. A block
for the table may have been taken before, and nothing that there was has changed then. -/
def GetsField (r : Registry) (values : Set Addr) (v : Addr) (hash : NameHash) (t : TypeId) (h : Heap)
    (f : OpenField) (h' : Heap) : Prop :=
  f.hash = hash ∧ f.type = t ∧ (∀ a ∈ h.fresh h', IsPart h'.memory v a) ∧
    ∃ h₁, Ordered r ∅ h₁ values ∧ h.Extends h₁ ∧ (∀ x ∈ values, SameValue r h.memory h₁.memory x) ∧
      SameFields r values h.memory h₁.memory ∧ Memory.SameOn h.memory h₁.memory 0 h.next ∧
        Acquires r values v f h₁ h'

theorem retypeField_ends (hs : Ordered w.registry ∅ h values) (hv : v ∈ values)
    (hk : w.registry.kindAt h.memory v = some .dynobj)
    (hold : (OpenObject.table h.memory v)[position]? = some old) (ht : w.registry.kind? t = some k) :
    (retypeField v position old t).Ends w h
      (fun f h' => GetsField w.registry values v old.hash t h f h') (fun _ => False) := by
  obtain ⟨oldKind, hOld, -⟩ := (hs.arranged.opens v hv hk).placed old (List.mem_of_getElem? hold)
  have hkind : w.kind t = .ok k := World.kind_eq_ok.2 ht
  have holdKind : w.kind old.type = .ok oldKind := World.kind_eq_ok.2 hOld
  unfold retypeField
  refine Ends.ask_ok_bind hkind (Ends.ask_ok_bind holdKind ?_)
  dsimp only
  by_cases hfits : k.size ≤ oldKind.size ∧ k.alignUp old.offset = old.offset
  · rw [if_pos hfits]
    have hdone : ∀ m n, m = h.memory.clear ((OpenObject.storage h.memory v).toNat + old.offset) oldKind.size →
        n = OpenObject.writeEntry m
          ((OpenObject.tableAddress m v).toNat + position * OpenObject.entrySize) { old with type := t } →
        GetsField w.registry values v old.hash t h { old with type := t } { h with memory := n } := by
      intro m n hm hn
      have hacquires := acquires_in_place hs hv hk hold hOld ht hfits.1 hfits.2 rfl hm hn
      exact ⟨rfl, rfl, fun a ha => absurd ha (h.notMem_fresh_self a), h, hs, .refl h,
        fun x _ => .refl _ _ x, .refl _ _ _, .refl _ _ _, hacquires⟩
    exact Ends.change_bind (Ends.pure_bind (Ends.change_bind (Ends.pure (hdone _ _ rfl rfl))))
  · rw [if_neg hfits]
    refine Ends.look_bind ((growStorage_ends hs.arranged hv hk _).bind (fun _ => id) fun _ h' hg => ?_)
    have hdone : ∀ n, n = OpenObject.writeEntry h'.memory
          ((OpenObject.tableAddress h'.memory v).toNat + position * OpenObject.entrySize)
          { old with type := t, offset := k.alignUp (OpenObject.storageSize h.memory v) } →
        GetsField w.registry values v old.hash t h
          { old with type := t, offset := k.alignUp (OpenObject.storageSize h.memory v) }
          { h' with memory := n } := by
      intro n hn
      obtain ⟨hacquires, hparts⟩ := acquires_moved hs hv hk hold ht rfl hg hn
      exact ⟨rfl, rfl, hparts, h, hs, .refl h, fun x _ => .refl _ _ x, .refl _ _ _, .refl _ _ _,
        hacquires⟩
    exact Ends.pure_bind (Ends.change_bind (Ends.pure (hdone _ rfl)))

/-- The open object at `v` has got the field `f`, and the block at `a` has become its table. -/
structure Enters (r : Registry) (values : Set Addr) (v a : Addr) (h : Heap) (f : OpenField) (h' : Heap) :
    Prop where
  acquires : Acquires r values v f h h'
  part : IsPart h'.memory v a
  parts : ∀ x ∈ h.fresh h', IsPart h'.memory v x

private theorem enterField_ends {old : List OpenField} {a : Addr}
    (hs : Ordered w.registry ∅ h values) (hv : v ∈ values)
    (hk : w.registry.kindAt h.memory v = some .dynobj) (hold : OpenObject.table h.memory v = old)
    (hnone : OpenObject.find? old f.hash = none) (ht : w.registry.kind? f.type = some k)
    (hoffset : f.offset = k.alignUp (OpenObject.storageSize h.memory v)) (hout : a ∉ values)
    (howns : h.Owns a ((old.length + 1) * OpenObject.entrySize))
    (hothers : ∀ u ∈ values, w.registry.kindAt h.memory u = some .dynobj → ¬IsPart h.memory u a)
    (hwritten : f.offset < 2 ^ 32 →
      OpenObject.readEntries h.memory a.toNat (old.length + 1) = OpenObject.inserted old f)
    (hfew : 6 * (old.length + 1) ^ 2 ≤ h.next) :
    (do
      growStorage v (f.offset + k.size)
      Action.change fun m =>
        (m.setWord (v.toNat + OpenObject.tableOffset) a).setCount (v.toNat + OpenObject.countOffset)
          (old.length + 1)
      return f : Action OpenField).Ends w h
      (fun g h' => g = f ∧ Enters w.registry values v a h f h') (fun _ => False) := by
  subst hold
  refine (growStorage_ends hs.arranged hv hk _).bind (fun _ => id) fun _ h' hg => ?_
  have hdone : ∀ m n, m = h'.memory.setWord (v.toNat + OpenObject.tableOffset) a →
      n = m.setCount (v.toNat + OpenObject.countOffset) ((OpenObject.table h.memory v).length + 1) →
      Enters w.registry values v a h f { h' with memory := n } := by
    intro m n hm hn
    obtain ⟨hacquires, hpart, hparts⟩ :=
      acquires_added hs hv hk hnone ht hoffset hg hout howns hothers hwritten hfew hm hn
    exact ⟨hacquires, hpart, hparts⟩
  exact Ends.change_bind (Ends.pure ⟨rfl, hdone _ _ rfl rfl⟩)

private theorem enterNew_ends {h₀ h₁ : Heap} {m : Memory} {a : Addr}
    (hs : Ordered w.registry ∅ h values) (hv : v ∈ values)
    (hk : w.registry.kindAt h.memory v = some .dynobj)
    (hnone : OpenObject.find? (OpenObject.table h.memory v) f.hash = none)
    (ht : w.registry.kind? f.type = some k)
    (hoffset : f.offset = k.alignUp (OpenObject.storageSize h.memory v))
    (hg : Gained h h₀ a (((OpenObject.table h.memory v).length + 1) * OpenObject.entrySize))
    (hnext : h.next + ((OpenObject.table h.memory v).length + 1) * OpenObject.entrySize + 16 ≤ h₀.next)
    (hh₁ : h₁ = { h₀ with memory := m })
    (hm : m = OpenObject.writeEntries h₀.memory a.toNat
      (OpenObject.inserted (OpenObject.table h.memory v) f)) :
    (do
      growStorage v (f.offset + k.size)
      Action.change fun m =>
        (m.setWord (v.toNat + OpenObject.tableOffset) a).setCount (v.toNat + OpenObject.countOffset)
          ((OpenObject.table h.memory v).length + 1)
      return f : Action OpenField).Ends w h₁
      (fun g h' => GetsField w.registry values v f.hash f.type h g h') (fun _ => False) := by
  have hlength : (OpenObject.inserted (OpenObject.table h.memory v) f).length =
      (OpenObject.table h.memory v).length + 1 := OpenObject.length_inserted
  have hg₁ : Gained h h₁ a (((OpenObject.table h.memory v).length + 1) * OpenObject.entrySize) := by
    rw [hh₁, hm]
    exact hg.change le_rfl (OpenObject.changesOnly_writeEntries h₀.memory a.toNat _)
  have hs₁ := hs.grow hg₁.wellFormed hg₁.blocks hg₁.next hg₁.same
  have hsame : ∀ x ∈ values, SameValue w.registry h.memory h₁.memory x :=
    fun x hx => (hs.arranged.same_of_below hg₁.same hx).1
  -- Each table that was left behind was one entry shorter, so together they take up a square.
  have hfew : 6 * ((OpenObject.table h.memory v).length + 1) ^ 2 ≤ h₁.next := by
    have hbefore := (hs.arranged.opens v hv hk).few
    have hentries : ((OpenObject.table h.memory v).length + 1) * OpenObject.entrySize =
        ((OpenObject.table h.memory v).length + 1) * 12 := rfl
    have hsquare : ((OpenObject.table h.memory v).length + 1) ^ 2 =
        (OpenObject.table h.memory v).length ^ 2 + 2 * (OpenObject.table h.memory v).length + 1 := by
      ring
    have hnext' : h₁.next = h₀.next := by rw [hh₁]
    omega
  have hwritten : f.offset < 2 ^ 32 →
      OpenObject.readEntries h₁.memory a.toNat ((OpenObject.table h.memory v).length + 1) =
        OpenObject.inserted (OpenObject.table h.memory v) f := by
    intro hlt
    have hmemory : h₁.memory = m := by rw [hh₁]
    have hall : ∀ g ∈ OpenObject.inserted (OpenObject.table h.memory v) f, g.offset < 2 ^ 32 := by
      intro g hg
      rcases OpenObject.mem_inserted.1 hg with rfl | hg
      · exact hlt
      · exact OpenObject.offset_lt_of_mem hg
    have hread := OpenObject.readEntries_writeEntries h₀.memory a.toNat hall
    rw [hmemory, ← hlength, hm, hread]
  refine (enterField_ends hs₁ hv ((hsame v hv).kindAt.trans hk) ((hsame v hv).table hk) hnone ht
    (hoffset.trans (by rw [(hsame v hv).storageSize hk])) (hg₁.new hs.arranged) hg₁.owned
    (fun u hu => hg₁.free hs.arranged hu) hwritten hfew).imp ?_ fun _ => id
  rintro _ h' ⟨rfl, hacquires, hpart, hparts⟩
  refine ⟨rfl, rfl, fun x hx => ?_, h₁, hs₁, hg₁.blocks, hsame,
    hs.arranged.sameFields_of_below hg₁.same, hg₁.same, hacquires⟩
  rw [Heap.fresh_trans hg₁.blocks hacquires.works.extended, hg₁.fresh] at hx
  rcases hx with rfl | hx
  · exact hpart
  · exact hparts x hx

theorem addField_ends (hs : Ordered w.registry ∅ h values) (hv : v ∈ values)
    (hk : w.registry.kindAt h.memory v = some .dynobj)
    (hnone : OpenObject.find? (OpenObject.table h.memory v) hash = none)
    (ht : w.registry.kind? t = some k) :
    (addField v hash t).Ends w h
      (fun f h' => GetsField w.registry values v hash t h f h') (fun _ => False) := by
  have hkind : w.kind t = .ok k := World.kind_eq_ok.2 ht
  unfold addField
  refine Ends.ask_ok_bind hkind (Ends.look_bind (Ends.look_bind ?_))
  refine (allocate_ends hs.arranged.blocks _ _).bind (fun _ => id) ?_
  rintro a h₀ ⟨hg, hnext, -⟩
  refine Ends.change_bind ?_
  -- The field is kept apart from its record, which would be unfolded wherever it occurs.
  have hentered : ∀ f : OpenField, f = ⟨hash, t, k.alignUp (OpenObject.storageSize h.memory v)⟩ →
      ∀ h₁ m, h₁ = { h₀ with memory := m } →
        m = OpenObject.writeEntries h₀.memory a.toNat
          (OpenObject.inserted (OpenObject.table h.memory v) f) →
        (do
          growStorage v (f.offset + k.size)
          Action.change fun m =>
            (m.setWord (v.toNat + OpenObject.tableOffset) a).setCount (v.toNat + OpenObject.countOffset)
              ((OpenObject.table h.memory v).length + 1)
          return f : Action OpenField).Ends w h₁
          (fun f h' => GetsField w.registry values v hash t h f h') (fun _ => False) := by
    intro f hf h₁ m hh₁ hm
    have hhash : f.hash = hash := by rw [hf]
    have htype : f.type = t := by rw [hf]
    have hoffset : f.offset = k.alignUp (OpenObject.storageSize h.memory v) := by rw [hf]
    subst hhash htype
    exact enterNew_ends hs hv hk hnone ht hoffset hg hnext hh₁ hm
  exact hentered _ rfl _ _ rfl rfl

private theorem finish_ends {stale : Set Addr} (hs : Ordered w.registry stale h values)
    (hv : v ∈ values) (hk : w.registry.kindAt h.memory v = some .dynobj)
    (hf : f ∈ OpenObject.table h.memory v) (ht : w.registry.kind? f.type = some k)
    (hfits : s.fits k = true)
    (hstale : ∀ x ∈ values, x ∈ stale → w.registry.kindAt h.memory x = some .virtual ∧
      View.wrapped h.memory x = v) :
    (do
      setOpenField.store v s f
      refreshViews v).Ends w h
      (fun _ h' => ∃ m, h' = { h with memory := m } ∧ Ordered w.registry ∅ h' values ∧
        Stores w.registry values (OpenObject.storage h.memory v) f.offset f.type s h.memory m ∧
          Heap.Spares (bystanders w.registry values h.memory v) h h')
      (fun _ => False) := by
  have hholds := Holds.openField hv hk hf
  have hspared := hs.arranged.spares_of_store hholds ht hfits (storage_notMem_bystanders hs.arranged hv hk)
  have hdone : ∀ m, m = h.memory.write ((OpenObject.storage h.memory v).toNat + f.offset) s →
      (refreshViews v).Ends w { h with memory := m }
        (fun _ h' => ∃ m, h' = { h with memory := m } ∧ Ordered w.registry ∅ h' values ∧
          Stores w.registry values (OpenObject.storage h.memory v) f.offset f.type s h.memory m ∧
            Heap.Spares (bystanders w.registry values h.memory v) h h')
        (fun _ => False) := by
    intro m hm
    obtain ⟨hordered, hstores⟩ := hs.store hholds ht hfits hm
    refine (refreshViews_ends hordered hv ((hstores.same v hv).kindAt.trans hk) fun x hx hmem => ?_).imp ?_
      fun _ => id
    · obtain ⟨hkx, hwrapped⟩ := hstale x hx hmem
      exact ⟨(hstores.same x hx).kindAt.trans hkx, ((hstores.same x hx).wrapped hkx).trans hwrapped⟩
    · rintro _ _ ⟨m', rfl, hordered', hsame', hfields, hspared'⟩
      rw [← hm] at hspared
      refine ⟨m', rfl, hordered', hstores.trans hholds hsame' hfields,
        hspared.trans (.refl h) (hspared'.mono ?_)⟩
      rintro x ⟨-, -, hview⟩ ⟨hx, hkx⟩
      exact hview ((hstores.same x hx).kindAt.symm.trans hkx)
  unfold setOpenField.store
  exact Ends.change_bind (hdone _ rfl)

private theorem wrote_in_place {m : Memory} (hs : Ordered r ∅ h values) (hv : v ∈ values)
    (hk : r.kindAt h.memory v = some .dynobj) (hf : f ∈ OpenObject.table h.memory v)
    (hsame : r.sameType f.type t = true) (hordered : Ordered r ∅ { h with memory := m } values)
    (hstores : Stores r values (OpenObject.storage h.memory v) f.offset f.type s h.memory m) :
    Wrote r values v f.hash t s h { h with memory := m } := by
  have ho := hs.arranged.opens v hv hk
  have hvalue := hstores.same v hv
  have htable : OpenObject.table m v = OpenObject.table h.memory v := hvalue.table hk
  have hstorage : OpenObject.storage m v = OpenObject.storage h.memory v := hvalue.openStorage hk
  refine
    { ordered := hordered, blocks := .refl h, goesOn := goesOn_of_sameValue hstores.same,
      parts := fun a ha => absurd ha (h.notMem_fresh_self a),
      field := ⟨f, rfl, hsame, .of_mem ho.sorted hf htable, ?read⟩, others := ?others,
      elsewhere := ?elsewhere }
  case read =>
    intro l hl
    change m.read ((OpenObject.storage m v).toNat + f.offset) l = s
    rw [hstorage]
    exact hstores.read l hl
  case others =>
    intro g hg hne l hl
    change Memory.CopiedTo h.memory m _ ((OpenObject.storage m v).toNat + g.offset) l.size
    rw [hstorage]
    exact (hstores.others_open ho hv hk hf hg hne hl).copiedTo
  case elsewhere =>
    intro b o u hb
    change Holds r values m b o u at hb
    change (b = OpenObject.storage m v ∧ ∃ g ∈ OpenObject.table m v, g.offset = o ∧ g.type = u) ∨ _
    rw [hstorage, htable]
    have hb' : Holds r values h.memory b o u := hb.same fun x hx => (hstores.same x hx).symm
    by_cases hself : OpenObject.storage h.memory v = b ∧ f.offset = o ∧ f.type = u
    · exact Or.inl ⟨hself.1.symm, f, hf, hself.2⟩
    · exact Or.inr ⟨hb', fun l hl => (hstores.others b o u l hb' hl).resolve_left hself⟩

private theorem wrote_of_gets {h₁ : Heap} {m : Memory} (hv : v ∈ values)
    (hk : r.kindAt h.memory v = some .dynobj) (hgets : GetsField r values v hash t h f h₁)
    (hordered : Ordered r ∅ { h₁ with memory := m } values)
    (hstores : Stores r values (OpenObject.storage h₁.memory v) f.offset f.type s h₁.memory m) :
    Wrote r values v hash t s h { h₁ with memory := m } := by
  obtain ⟨rfl, rfl, hparts, h₀, hs₀, hext, hsame₀, hfields₀, -, hworks, hgot, hothers⟩ := hgets
  have hk₀ : r.kindAt h₀.memory v = some .dynobj := (hsame₀ v hv).kindAt.trans hk
  obtain ⟨hs₁, hgo⟩ := hworks.ordered hs₀ hv hk₀
  have hk₁ : r.kindAt h₁.memory v = some .dynobj := (hgo.kindAt hv).trans hk₀
  have hvalue := hstores.same v hv
  have htable : OpenObject.table m v = OpenObject.table h₁.memory v := hvalue.table hk₁
  have hstorage : OpenObject.storage m v = OpenObject.storage h₁.memory v := hvalue.openStorage hk₁
  have htable₀ : OpenObject.table h₀.memory v = OpenObject.table h.memory v := (hsame₀ v hv).table hk
  have hstorage₀ : OpenObject.storage h₀.memory v = OpenObject.storage h.memory v :=
    (hsame₀ v hv).openStorage hk
  rw [hstorage₀, htable₀] at hothers
  have hf : f ∈ OpenObject.table h₁.memory v := (hgot.mem f).2 (Or.inl rfl)
  have hgot' : GotField h.memory m v f := by
    refine ⟨?_, htable ▸ hgot.sorted⟩
    rw [htable, ← htable₀]
    exact hgot.mem
  refine
    { ordered := hordered, blocks := hext.trans hworks.extended,
      goesOn := ((goesOn_of_sameValue hsame₀).trans hgo).trans (goesOn_of_sameValue hstores.same),
      parts := fun a ha => (hparts a ha).same hvalue hk₁,
      field := ⟨f, rfl, r.sameType_refl f.type, hgot', ?read⟩, others := ?others,
      elsewhere := ?elsewhere }
  case read =>
    intro l hl
    change m.read ((OpenObject.storage m v).toNat + f.offset) l = s
    rw [hstorage]
    exact hstores.read l hl
  case others =>
    intro g hg hne l hl
    have hg₁ : g ∈ OpenObject.table h₁.memory v := (hgot.mem g).2 (Or.inr ⟨htable₀ ▸ hg, hne⟩)
    change Memory.CopiedTo h.memory m _ ((OpenObject.storage m v).toNat + g.offset) l.size
    rw [hstorage]
    have hbefore := hfields₀ _ _ _ l (.openField hv hk hg) hl
    have hafter := hstores.others_open hworks.open_ok hv hk₁ hf hg₁ hne hl
    exact (hbefore.copiedTo.trans (hothers g hg hne l hl)).trans hafter.copiedTo
  case elsewhere =>
    intro b o u hb
    change Holds r values m b o u at hb
    change (b = OpenObject.storage m v ∧ ∃ g ∈ OpenObject.table m v, g.offset = o ∧ g.type = u) ∨ _
    rw [hstorage, htable]
    have hb₁ : Holds r values h₁.memory b o u := hb.same fun x hx => (hstores.same x hx).symm
    rcases hworks.holds_of_other hs₀ hv hk₀ hb₁ with hself | ⟨hb₀, hread⟩
    · exact Or.inl hself
    by_cases hself : OpenObject.storage h₁.memory v = b ∧ f.offset = o ∧ f.type = u
    · exact Or.inl ⟨hself.1.symm, f, hf, hself.2⟩
    · have hb' : Holds r values h.memory b o u := hb₀.same fun x hx => (hsame₀ x hx).symm
      refine Or.inr ⟨hb', fun l hl => ?_⟩
      have hafter := (hstores.others b o u l hb₁ hl).resolve_left hself
      exact ((hfields₀ b o u l hb' hl).trans (hread l hl)).trans hafter

theorem GetsField.spares {h₁ : Heap} (hgets : GetsField r values v hash t h f h₁) (hwf : h.WellFormed)
    (hv : v ∈ values) (hk : r.kindAt h.memory v = some .dynobj) :
    Heap.Spares (bystanders r values h.memory v) h h₁ ∧ GoesOn r values h.memory values h₁.memory := by
  obtain ⟨-, -, -, h₀, hs₀, hext, hsame₀, -, hbelow, hacquires⟩ := hgets
  have hk₀ : r.kindAt h₀.memory v = some .dynobj := (hsame₀ v hv).kindAt.trans hk
  have hworks : Heap.Spares (bystanders r values h.memory v) h₀ h₁ :=
    hacquires.works.spares hs₀ hv hk₀ (fun a ha => ha.1) fun hin => hin.2.1 rfl
  refine ⟨Heap.Spares.trans (.of_below hwf hbelow) hext hworks, ?_⟩
  exact (goesOn_of_sameValue hsame₀).trans (hacquires.works.ordered hs₀ hv hk₀).2

private theorem finish_after {x : Action OpenField} (hwf : h.WellFormed) (hv : v ∈ values)
    (hk : w.registry.kindAt h.memory v = some .dynobj)
    (hx : x.Ends w h (fun f h' => GetsField w.registry values v hash t h f h') (fun _ => False))
    (ht : w.registry.kind? t = some k) (hfits : s.fits k = true) :
    (do
      setOpenField.store v s (← x)
      refreshViews v).Ends w h
      (fun _ h' => Wrote w.registry values v hash t s h h' ∧
        Heap.Spares (bystanders w.registry values h.memory v) h h') (fun _ => False) := by
  refine hx.bind (fun _ => id) ?_
  intro f h₁ hgets
  obtain ⟨-, htype, -, h₀, hs₀, hext, hsame₀, -, -, hacquires⟩ := id hgets
  have hk₀ : w.registry.kindAt h₀.memory v = some .dynobj := (hsame₀ v hv).kindAt.trans hk
  obtain ⟨hs₁, hgo⟩ := hacquires.works.ordered hs₀ hv hk₀
  have hk₁ : w.registry.kindAt h₁.memory v = some .dynobj := (hgo.kindAt hv).trans hk₀
  have hf : f ∈ OpenObject.table h₁.memory v := (hacquires.got.mem f).2 (Or.inl rfl)
  refine (finish_ends hs₁ hv hk₁ hf (htype ▸ ht) hfits fun _ _ hmem => hmem).imp ?_ fun _ => id
  rintro _ _ ⟨m, rfl, hordered, hstores, hspared'⟩
  obtain ⟨hspared, hgo'⟩ := hgets.spares hwf hv hk
  rw [bystanders_goesOn hgo'] at hspared'
  exact ⟨wrote_of_gets hv hk hgets hordered hstores,
    hspared.trans (hext.trans hacquires.works.extended) hspared'⟩

/-- A write to a name of an open object never fails if the slot fits the type. The blocks of all other
values, but for virtual ones, stay as they are. -/
theorem setOpenField_spares (hs : Ordered w.registry ∅ h values) (hv : v ∈ values)
    (hk : w.registry.kindAt h.memory v = some .dynobj) (hash : NameHash)
    (ht : w.registry.kind? t = some k) (hfits : s.fits k = true) :
    (setOpenField v hash t s).Ends w h
      (fun _ h' => Wrote w.registry values v hash t s h h' ∧
        Heap.Spares (bystanders w.registry values h.memory v) h h') (fun _ => False) := by
  have hwf := hs.arranged.blocks
  unfold setOpenField
  refine Ends.look_bind ?_
  cases hfound : OpenObject.find? (OpenObject.table h.memory v) hash with
  | none => exact finish_after hwf hv hk (addField_ends hs hv hk hfound ht) ht hfits
  | some f =>
    obtain ⟨hf, rfl⟩ := OpenObject.mem_of_find? hfound
    refine Ends.world_bind ?_
    by_cases hsame : w.registry.sameType f.type t = true
    · rw [if_pos hsame]
      have hfield : w.registry.kind? f.type = some k := (Registry.kind?_eq_of_sameType hsame).trans ht
      have hholds := Holds.openField hv hk hf
      have hspared := hs.arranged.spares_of_store hholds hfield hfits
        (storage_notMem_bystanders hs.arranged hv hk)
      have hdone : ∀ m, m = h.memory.write ((OpenObject.storage h.memory v).toNat + f.offset) s →
          Wrote w.registry values v f.hash t s h { h with memory := m } := by
        intro m hm
        obtain ⟨hordered, hstores⟩ := hs.store hholds hfield hfits hm
        exact wrote_in_place hs hv hk hf hsame hordered hstores
      unfold setOpenField.store
      exact Ends.change ⟨hdone _ rfl, hspared⟩
    · rw [if_neg hsame]
      have hold := OpenObject.getElem?_position hfound
      exact finish_after hwf hv hk (retypeField_ends hs hv hk hold ht) ht hfits

theorem setOpenField_wrote (hs : Ordered w.registry ∅ h values) (hv : v ∈ values)
    (hk : w.registry.kindAt h.memory v = some .dynobj) (hash : NameHash)
    (ht : w.registry.kind? t = some k) (hfits : s.fits k = true) :
    (setOpenField v hash t s).Ends w h (fun _ h' => Wrote w.registry values v hash t s h h')
      (fun _ => False) :=
  (setOpenField_spares hs hv hk hash ht hfits).imp (fun _ _ => And.left) fun _ => id

/-- A field of an open object is written, and this never fails. -/
theorem setOpenField_ends (hs : Sound w.registry held ∅ h values) (hv : v ∈ values)
    (hk : w.registry.kindAt h.memory v = some .dynobj) (hash : NameHash)
    (hslot : WellTyped w.registry held values h.memory t s) :
    (setOpenField v hash t s).Ends w h (fun _ h' => Reshaped w.registry held values v h h')
      (fun _ => False) := by
  obtain ⟨k, ht, hfits, -⟩ := id hslot
  refine (setOpenField_wrote hs.toOrdered hv hk hash ht hfits).imp ?_ fun _ => id
  intro _ h' hwrote
  exact hwrote.reshaped hs hv hk hslot

end Action

end ObjectModel
