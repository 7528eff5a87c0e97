import ObjectModel.Proofs.Value.Transparency

/-!
A new box has the same room whatever its type is, and operations that are given the box trust its type
word. Which bytes behind the type word they address follows from the type alone, but for enum values,
where it also depends on the number of the construct. A box of a type whose values take more room is
given out all the same.
-/

set_option autoImplicit false
set_option relaxedAutoImplicit false

namespace ObjectModel

variable {r : Registry} {w : World} {h h' : Heap} {m n : Memory} {v : Addr} {t : TypeId} {k : Kind}

/-- The parts of a header, behind the type word, where each starts and how many bytes it has. Instances
and values of dynamic types have no such parts, and a box has its content there. -/
def Kind.headerParts : Kind → List (Nat × Nat)
  | dynamic | object | null => []
  | enum => [(Variant.constructOffset, 4)]
  | function => [(Closure.codeOffset, 8), (Closure.boundOffset, 4), (Closure.receiverOffset, 8)]
  | array => [(ArrayValue.elementOffset, 8), (ArrayValue.lengthOffset, 4)]
  | virtual =>
    [(View.wrappedOffset, 8), (View.nextOffset, 8), (View.pathsOffset, 8), (View.storageOffset, 8)]
  | dynobj =>
    [(OpenObject.tableOffset, 8), (OpenObject.storageOffset, 8), (OpenObject.countOffset, 4),
      (OpenObject.storageSizeOffset, 4), (OpenObject.viewsOffset, 8)]
  | k => [(Box.payloadOffset, k.size)]

private theorem Kind.headerParts_fit (hk : k ∉ [function, .array, .virtual, .dynobj])
    {offset width : Nat} (hpart : (offset, width) ∈ k.headerParts) : offset + width ≤ Box.size := by
  cases k <;> simp [headerParts] at hk hpart <;> obtain ⟨rfl, rfl⟩ := hpart <;> decide

private theorem Kind.headerParts_exceed (hk : k ∈ [function, .array, .virtual, .dynobj]) :
    ∃ offset width, (offset, width) ∈ k.headerParts ∧ Box.size < offset + width := by
  simp only [List.mem_cons, List.not_mem_nil, or_false] at hk
  obtain rfl | rfl | rfl | rfl := hk
  · exact ⟨Closure.receiverOffset, 8, by simp [headerParts], by decide⟩
  · exact ⟨ArrayValue.lengthOffset, 4, by simp [headerParts], by decide⟩
  · exact ⟨View.storageOffset, 8, by simp [headerParts], by decide⟩
  · exact ⟨OpenObject.viewsOffset, 8, by simp [headerParts], by decide⟩

private theorem Kind.size_pos (hk : k ≠ .void) : 0 < k.size := by
  cases k <;> first | exact absurd rfl hk | decide

namespace Registry

/-- The ranges of bytes that operations address in the block of a value of type `t`, from where the
value starts on. If it is an enum value, `index` is the number of its construct. -/
inductive Addresses (r : Registry) (t : TypeId) (index : Nat) : (offset width : Nat) → Prop
  | type : Addresses r t index 0 8
  | header {k : Kind} {offset width : Nat} :
    r.kind? t = some k → (offset, width) ∈ k.headerParts → Addresses r t index offset width
  | field {c : ClassLayout} {hash : NameHash} {i offset : Nat} {s : TypeId} {k : Kind} :
    r.classLayout t = .ok c → c.resolve? hash = some (.field i offset s) → r.kind? s = some k →
      k ≠ .void → Addresses r t index offset k.size
  | param {l : VariantLayout} {c : ConstructLayout} {p : Placed TypeId} {k : Kind} :
    r.variantLayout t = .ok l → l.construct? index = some c → p ∈ c.params.items →
      r.kind? p.item = some k → k ≠ .void → Addresses r t index p.offset k.size

/-- A box has room for a value of the type: there is no longer header, the fields that can be found by
hash end early enough, and the first construct has nothing to store, as its parameters would come behind
the box. -/
structure FitsBox (r : Registry) (t : TypeId) : Prop where
  header : ∀ k, r.kind? t = some k → k ∉ [Kind.function, .array, .virtual, .dynobj]
  fields : ∀ c hash i offset s k, r.classLayout t = .ok c →
    c.resolve? hash = some (.field i offset s) → r.kind? s = some k → k ≠ .void →
      offset + k.size ≤ Box.size
  params : ∀ l c, r.variantLayout t = .ok l → l.construct? 0 = some c →
    ∀ p ∈ c.params.items, r.kind? p.item = some .void

/-- All that is addressed in a new value lies within a box exactly if the box has room for the type. -/
theorem addresses_fit_iff :
    (∀ offset width, r.Addresses t 0 offset width → offset + width ≤ Box.size) ↔ r.FitsBox t := by
  constructor
  · intro hall
    refine ⟨?_, ?_, ?_⟩
    · intro k hk hlong
      obtain ⟨offset, width, hpart, hexceed⟩ := Kind.headerParts_exceed hlong
      have := hall offset width (.header hk hpart)
      omega
    · intro c hash i offset s k hc hmember hk hsize
      exact hall offset k.size (.field hc hmember hk hsize)
    · intro l c hl hc p hp
      -- Parameters start right behind the box, so that one with a byte to store would exceed it.
      have hpacked := (variantLayout_packed hl hc).2
      obtain ⟨k, hk, hstart, -⟩ := hpacked.placed p hp
      by_cases hvoid : k = .void
      · rw [hk, hvoid]
      · have hend := hall p.offset k.size (.param hl hc hp hk hvoid)
        have hbox : Box.size = 16 := rfl
        have hheader : VariantLayout.headerSize = 16 := rfl
        have := Kind.size_pos hvoid
        omega
  · intro hfits offset width haddressed
    cases haddressed with
    | type => decide
    | header hk hpart => exact Kind.headerParts_fit (hfits.header _ hk) hpart
    | field hc hmember hk hsize => exact hfits.fields _ _ _ _ _ _ hc hmember hk hsize
    | param hl hc hp hk hsize =>
      have hvoid := hfits.params _ _ hl hc _ hp
      exact absurd (Option.some.inj (hk.symm.trans hvoid)) hsize

end Registry

/-- Operations that are given a value find the same in its own block in two memories. -/
structure SeenAlike (w : World) (m n : Memory) (v : Addr) : Prop where
  type : n.typeOf v = m.typeOf v
  content : Box.content w n v = Box.content w m v
  members : ∀ hash, Access.locate w n v hash = Access.locate w m v hash
  fields : ∀ hash a s k, w.kindOf m v = .ok .object → Access.locate w m v hash = .ok (.stored a s) →
    w.kind s = .ok k → n.read a k = m.read a k
  paths : ∀ l, View.paths w n l v = View.paths w m l v
  construct : Variant.active w n v = Variant.active w m v
  params : ∀ index position, Variant.param w n v index position = Variant.param w m v index position
  code : w.kindOf m v = .ok .function → Closure.code n v = Closure.code m v
  receiver : w.kindOf m v = .ok .function → Closure.receiver n v = Closure.receiver m v
  parts : ArrayValue.parts w n v = ArrayValue.parts w m v
  openFields : OpenObject.fields w n v = OpenObject.fields w m v

/-- The bytes that the type of a value says are addressed in it are the same in two memories. -/
def Memory.SameAddressed (r : Registry) (m n : Memory) (v : Addr) : Prop :=
  ∀ offset width, r.Addresses (m.typeOf v) (m.count (v.toNat + Variant.constructOffset)) offset width →
    m.SameOn n (v.toNat + offset) width

theorem Access.stored_addressed {hash : NameHash} {a : Nat} {s : TypeId}
    (hobject : w.kindOf m v = .ok .object) (hlocated : Access.locate w m v hash = .ok (.stored a s))
    (hk : w.kind s = .ok k) (hvoid : k ≠ .void) (index : Nat) :
    ∃ offset, a = v.toNat + offset ∧ w.registry.Addresses (m.typeOf v) index offset k.size := by
  unfold Access.locate at hlocated
  obtain ⟨l, hl, hlocated⟩ := Outcome.bind_eq_ok.1 hlocated
  obtain rfl : l = .object := Except.ok.inj (hl.symm.trans hobject)
  obtain ⟨c, hc, hlocated⟩ := Outcome.bind_eq_ok.1 hlocated
  split at hlocated
  · rename_i i offset t hmember
    obtain ⟨rfl, rfl⟩ := Target.stored.inj (Outcome.pure_eq_ok.1 hlocated)
    exact ⟨offset, rfl, .field (Outcome.mapError_eq_ok.1 hc) hmember (World.kind_eq_ok.1 hk) hvoid⟩
  · cases Outcome.pure_eq_ok.1 hlocated
  · cases hlocated

private theorem Variant.active_ok {index : Nat} (h : Variant.active w m v = .ok index) :
    index = m.count (v.toNat + Variant.constructOffset) := by
  unfold Variant.active at h
  obtain ⟨k, -, h⟩ := Outcome.bind_eq_ok.1 h
  split at h
  · exact (Outcome.pure_eq_ok.1 h).symm
  · cases h

private theorem Outcome.bind_congr {ε α β : Type} {x : Except ε α} {f g : α → Except ε β}
    (hfg : ∀ a, x = .ok a → f a = g a) : (x >>= f) = (x >>= g) := by
  cases x with
  | error e => rfl
  | ok a => exact hfg a rfl

private theorem World.kind_bind_congr {α : Type} {f g : Kind → Reading α}
    (hfg : ∀ k, w.registry.kind? t = some k → f k = g k) : (w.kind t >>= f) = (w.kind t >>= g) :=
  Outcome.bind_congr fun k hk => hfg k (World.kind_eq_ok.1 hk)

namespace Memory.SameAddressed

variable {offset width : Nat}

theorem typeOf (hsame : SameAddressed r m n v) : n.typeOf v = m.typeOf v :=
  (hsame 0 8 .type).typeOf

theorem part (hsame : SameAddressed r m n v) (hk : r.kindAt m v = some k)
    (hpart : (offset, width) ∈ k.headerParts) : m.SameOn n (v.toNat + offset) width :=
  hsame offset width (.header hk hpart)

theorem content (hsame : SameAddressed w.registry m n v) : Box.content w n v = Box.content w m v := by
  unfold Box.content
  dsimp only
  rw [hsame.typeOf]
  refine World.kind_bind_congr fun k hk => ?_
  by_cases hself : k.isSelfDescribing = true
  · rw [if_pos hself, if_pos hself]
  · have hpart : (Box.payloadOffset, k.size) ∈ k.headerParts := by
      cases k <;> first | exact absurd rfl hself | exact List.mem_singleton.2 rfl
    rw [if_neg hself, if_neg hself, Box.payload, Box.payload, (hsame.part hk hpart).read]

theorem members (hsame : SameAddressed w.registry m n v) (hview : w.registry.kindAt m v ≠ some .virtual)
    (hopen : w.registry.kindAt m v ≠ some .dynobj) (hash : NameHash) :
    Access.locate w n v hash = Access.locate w m v hash := by
  unfold Access.locate
  dsimp only
  rw [hsame.typeOf]
  refine World.kind_bind_congr fun k hk => ?_
  cases k with
  | virtual => exact absurd hk hview
  | dynobj => exact absurd hk hopen
  | _ => rfl

theorem paths (hsame : SameAddressed w.registry m n v) (hopen : w.registry.kindAt m v ≠ some .dynobj)
    (l : ViewLayout) : View.paths w n l v = View.paths w m l v := by
  unfold View.paths
  dsimp only
  rw [hsame.typeOf]
  refine World.kind_bind_congr fun k hk => ?_
  cases k with
  | dynobj => exact absurd hk hopen
  | _ => rfl

theorem openFields (hsame : SameAddressed w.registry m n v)
    (hopen : w.registry.kindAt m v ≠ some .dynobj) :
    OpenObject.fields w n v = OpenObject.fields w m v := by
  unfold OpenObject.fields World.kindOf
  rw [hsame.typeOf]
  refine World.kind_bind_congr fun k hk => ?_
  have hne : k ≠ .dynobj := by
    rintro rfl
    exact hopen hk
  rw [if_neg hne, if_neg hne]

theorem parts (hsame : SameAddressed w.registry m n v) :
    ArrayValue.parts w n v = ArrayValue.parts w m v := by
  unfold ArrayValue.parts World.kindOf
  rw [hsame.typeOf]
  refine World.kind_bind_congr fun k hk => ?_
  by_cases harray : k = .array
  · subst harray
    have helement : m.SameOn n (v.toNat + ArrayValue.elementOffset) 8 :=
      hsame.part hk (by simp [Kind.headerParts])
    have hlength : m.SameOn n (v.toNat + ArrayValue.lengthOffset) 4 :=
      hsame.part hk (by simp [Kind.headerParts])
    rw [helement.word, hlength.count]
  · rw [if_neg harray, if_neg harray]

theorem code (hsame : SameAddressed w.registry m n v) (hk : w.kindOf m v = .ok .function) :
    Closure.code n v = Closure.code m v :=
  (hsame.part (World.kind_eq_ok.1 hk) (by simp [Kind.headerParts])).word

theorem receiver (hsame : SameAddressed w.registry m n v) (hk : w.kindOf m v = .ok .function) :
    Closure.receiver n v = Closure.receiver m v := by
  have hkind := World.kind_eq_ok.1 hk
  have hbound : m.SameOn n (v.toNat + Closure.boundOffset) 4 :=
    hsame.part hkind (by simp [Kind.headerParts])
  have hreceiver : m.SameOn n (v.toNat + Closure.receiverOffset) 8 :=
    hsame.part hkind (by simp [Kind.headerParts])
  rw [Closure.receiver, Closure.receiver, hbound.half, hreceiver.word]

theorem construct (hsame : SameAddressed w.registry m n v) :
    Variant.active w n v = Variant.active w m v := by
  unfold Variant.active World.kindOf
  rw [hsame.typeOf]
  refine World.kind_bind_congr fun k hk => ?_
  cases k with
  | enum =>
    have hindex : m.SameOn n (v.toNat + Variant.constructOffset) 4 :=
      hsame.part hk (by simp [Kind.headerParts])
    show pure (n.count _) = pure (m.count _)
    rw [hindex.count]
  | _ => rfl

theorem params (hsame : SameAddressed w.registry m n v) (index : Nat) (position : UInt64) :
    Variant.param w n v index position = Variant.param w m v index position := by
  unfold Variant.param
  rw [hsame.construct, hsame.typeOf]
  refine Outcome.bind_congr fun active hactive => Outcome.bind_congr fun l hl => ?_
  have hcount : active = m.count (v.toNat + Variant.constructOffset) := Variant.active_ok hactive
  split_ifs
  · rfl
  cases hc : l.construct? active with
  | none => rfl
  | some c =>
    dsimp only
    cases hp : c.params.get? position.toNat with
    | none => rfl
    | some p =>
      refine World.kind_bind_congr fun k hk => congrArg Except.ok ?_
      by_cases hvoid : k = .void
      · subst hvoid
        rfl
      · have haddressed := Registry.Addresses.param (Outcome.mapError_eq_ok.1 hl) (hcount ▸ hc)
          (List.mem_of_getElem? hp) hk hvoid
        exact (hsame _ _ haddressed).read

/-- What operations find in the block of a value depends on the bytes only that its type says are
addressed. -/
theorem seenAlike (hsame : SameAddressed w.registry m n v) (hview : w.registry.kindAt m v ≠ some .virtual)
    (hopen : w.registry.kindAt m v ≠ some .dynobj) : SeenAlike w m n v := by
  refine
    { type := hsame.typeOf, content := hsame.content, members := hsame.members hview hopen, fields := ?_,
      paths := hsame.paths hopen, construct := hsame.construct, params := hsame.params, code := hsame.code,
      receiver := hsame.receiver, parts := hsame.parts, openFields := hsame.openFields hopen }
  intro hash a s k hobject hlocated hk
  by_cases hvoid : k = .void
  · subst hvoid
    rfl
  · obtain ⟨offset, rfl, haddressed⟩ := Access.stored_addressed hobject hlocated hk hvoid _
    exact (hsame _ _ haddressed).read

end Memory.SameAddressed

namespace Action

theorem newValue_ok {size : Nat} {kind : BlockKind} (hrun : newValue size kind t w h = (.ok v, h')) :
    h'.blocks = h.blocks.push ⟨v, .ofNat size, kind, false⟩ ∧ h'.memory.typeOf v = t ∧
      ∀ a n, v.toNat + 8 ≤ a → Memory.ZeroOn h'.memory a n := by
  unfold newValue at hrun
  obtain ⟨a, h₁, hallocate, hrun⟩ := bind_eq_ok.1 hrun
  cases hrun
  obtain ⟨-, -, hfull, hv, -, hmemory, hblocks, -, -, -⟩ := Heap.allocate_eq_ok (allocate_ok hallocate)
  have hplace : v.toNat = h.next + 16 := by
    rw [hv, UInt64.toNat_ofNat', Nat.mod_eq_of_lt]
    change h.next + 16 < UInt64.size
    omega
  refine ⟨hblocks, Memory.typeOf_setType_same _ _ _, fun a n ha x hx _ => ?_⟩
  change (h₁.memory.setType v t).byte x = 0
  rw [Memory.changesOnly_setType _ _ _ x (by omega), hmemory, Memory.byte_clearFrom, if_neg (by omega)]

/-- Boxes have room for what operations address in them exactly if their types fit. The new block has
sixteen bytes, and all ranges of bytes that its type says are addressed lie in them exactly if a box has
room for the type. If so, operations that are given the box, now or later, depend on no other bytes of
its block, and write to no others. -/
theorem newBox_room (hrun : newBox t w h = (.ok v, h')) :
    (∃ kind, h'.blocks = h.blocks.push ⟨v, 16, kind, false⟩) ∧ h'.memory.typeOf v = t ∧
      h'.memory.count (v.toNat + Variant.constructOffset) = 0 ∧
      ((∀ offset width, w.registry.Addresses t 0 offset width → offset + width ≤ Box.size) ↔
        w.registry.FitsBox t) ∧
      (w.registry.FitsBox t → ∀ m n, m.typeOf v = t →
        (w.registry.kind? t = some .enum → m.count (v.toNat + Variant.constructOffset) = 0) →
          Memory.SameOn m n v.toNat Box.size → SeenAlike w m n v ∧
            ∀ hash a s k, w.kindOf m v = .ok .object → Access.locate w m v hash = .ok (.stored a s) →
              w.kind s = .ok k → k ≠ .void → v.toNat ≤ a ∧ a + k.size ≤ v.toNat + Box.size) := by
  unfold newBox at hrun
  obtain ⟨k, hk, hrun⟩ := ask_bind_eq_ok.1 hrun
  have hkind : w.registry.kind? t = some k := World.kind_eq_ok.1 hk
  obtain ⟨hblocks, htype, hzero⟩ := newValue_ok hrun
  refine ⟨⟨_, hblocks⟩, htype, (hzero _ _ le_rfl).count, Registry.addresses_fit_iff, ?_⟩
  rintro hfits m n rfl hconstruct hsame
  -- Only the parameters of an enum value depend on the number of its construct, which is still the first.
  have hall : ∀ offset width, w.registry.Addresses (m.typeOf v)
      (m.count (v.toNat + Variant.constructOffset)) offset width → offset + width ≤ Box.size := by
    intro offset width haddressed
    refine Registry.addresses_fit_iff.2 hfits offset width ?_
    cases haddressed with
    | type => exact .type
    | header hl hpart => exact .header hl hpart
    | field hc hmember hl hvoid => exact .field hc hmember hl hvoid
    | param hl hc hp hk hvoid =>
      have henum := hconstruct (Registry.variantLayout_packed hl hc).1
      exact .param hl (henum ▸ hc) hp hk hvoid
  have haddressed : Memory.SameAddressed w.registry m n v := by
    intro offset width hrange
    have := hall offset width hrange
    exact hsame.mono (Nat.le_add_right _ _) (by omega)
  have hlong := hfits.header k hkind
  have hkindAt : w.registry.kindAt m v = some k := hkind
  refine ⟨haddressed.seenAlike (kindAt_ne hkindAt ?_) (kindAt_ne hkindAt ?_), ?_⟩
  · rintro rfl
    simp at hlong
  · rintro rfl
    simp at hlong
  · intro hash a s l hobject hlocated hl hvoid
    obtain ⟨offset, rfl, hrange⟩ := Access.stored_addressed hobject hlocated hl hvoid _
    have := hall offset l.size hrange
    omega

end Action

/-! A class whose instances are greater than a box, and one whose instances are not. -/

def Registry.pairTypes : Registry :=
  ⟨(Descriptor.builtins ++
    ([.object ⟨"Pair", none, [⟨"a", .f64⟩, ⟨"b", .f64⟩], []⟩,
      .object ⟨"Point", none, [⟨"x", .i32⟩, ⟨"y", .i32⟩], []⟩] : List Descriptor)).toArray⟩

def pairHeap : Heap := (Action.newBox (.ofIndex 12) (.ofTypes .pairTypes) {}).2

private theorem point_fits : Registry.pairTypes.FitsBox (.ofIndex 13) := by
  have hkind : Registry.pairTypes.kind? (.ofIndex 13) = some .object := by decide +kernel
  have hfields : (Registry.pairTypes.classLayout (.ofIndex 13)).map ClassLayout.fields =
      .ok [⟨⟨"x", .i32⟩, 8⟩, ⟨⟨"y", .i32⟩, 12⟩] := by
    decide +kernel
  have hint : Registry.pairTypes.kind? .i32 = some .i32 := by decide +kernel
  refine ⟨fun k hk => ?_, fun c hash i offset s k hc hmember hk _ => ?_, fun l c hl hc => ?_⟩
  · obtain rfl := Option.some.inj (hkind.symm.trans hk)
    decide
  · obtain ⟨c', hc', hlist⟩ := Outcome.map_eq_ok.1 hfields
    obtain rfl : c = c' := Except.ok.inj (hc.symm.trans hc')
    obtain ⟨p, hp, rfl, rfl⟩ := ClassLayout.mem_of_resolve? hmember
    rw [hlist] at hp
    simp only [List.mem_cons, List.not_mem_nil, or_false] at hp
    rcases hp with rfl | rfl
    · obtain rfl := Option.some.inj (hint.symm.trans hk)
      decide
    · obtain rfl := Option.some.inj (hint.symm.trans hk)
      decide
  · have henum := (Registry.variantLayout_packed hl hc).1
    rw [hkind] at henum
    cases henum

/-- An instance of two small fields has room in a box, and one of two great fields has not. -/
theorem pairTypes_boxes : ∃ v v' h h',
    Action.newBox (.ofIndex 13) (.ofTypes .pairTypes) {} = (.ok v, h) ∧
      (∀ offset width, Registry.pairTypes.Addresses (.ofIndex 13) 0 offset width →
        offset + width ≤ Box.size) ∧
      Action.newBox (.ofIndex 12) (.ofTypes .pairTypes) {} = (.ok v', h') ∧
      ¬Registry.pairTypes.FitsBox (.ofIndex 12) := by
  have hpoint : Action.newBox (.ofIndex 13) (.ofTypes .pairTypes) {} = (.ok 0x10010, _) :=
    Action.eq_of_fst (by decide +kernel)
  have hpair : Action.newBox (.ofIndex 12) (.ofTypes .pairTypes) {} = (.ok 0x10010, pairHeap) :=
    Action.eq_of_fst (by decide +kernel)
  have hmember : (Registry.pairTypes.classLayout (.ofIndex 12)).map (·.resolve? (Name.hash "b")) =
      .ok (some (.field 1 16 .f64)) := by
    decide +kernel
  obtain ⟨c, hc, hfield⟩ := Outcome.map_eq_ok.1 hmember
  refine ⟨_, _, _, _, hpoint, (Action.newBox_room hpoint).2.2.2.1.2 point_fits, hpair, fun hfits => ?_⟩
  have hrange := (Action.newBox_room hpair).2.2.2.1.2 hfits 16 8
    (.field hc hfield (k := .f64) (by decide +kernel) (by decide))
  exact absurd hrange (by decide)

end ObjectModel
