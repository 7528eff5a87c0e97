import ObjectModel.Proofs.Value.Transparency

/-!
A collector looks for addresses in the blocks that were taken for them, and in no others. Every word to
which operations store an address lies in such a block: the kind of a block follows from the type of the
value in it, and the storage of an open object has room for fields of any type.
-/

set_option autoImplicit false
set_option relaxedAutoImplicit false

namespace ObjectModel

variable {r : Registry} {held : Addr → TypeId → Prop} {stale values : Set Addr} {h h' : Heap} {v : Addr}
  {w : World} {t : TypeId} {k : Kind} {a n o : Nat}

/-- The word at an address is found by a collector: it lies in a block for addresses, and no byte of it is
in a block that holds none. -/
structure Heap.Traced (h : Heap) (a : Nat) : Prop where
  inside : ∃ b ∈ h.blocks.toList, b.kind = .pointers ∧ b.address.toNat ≤ a ∧
    a + Kind.wordSize ≤ b.address.toNat + b.room
  apart : ∀ b ∈ h.blocks.toList, b.kind = .noPointers → ∀ x, a ≤ x → x < a + Kind.wordSize →
    x < b.address.toNat ∨ b.address.toNat + b.room ≤ x

namespace Heap

theorem WellFormed.traced_of_inside (hwf : h.WellFormed) {b : Block} (hb : b ∈ h.blocks.toList)
    (hkind : b.kind = .pointers) (hlow : b.address.toNat ≤ a)
    (hhigh : a + Kind.wordSize ≤ b.address.toNat + b.room) : h.Traced a := by
  have hword : Kind.wordSize = 8 := rfl
  refine ⟨⟨b, hb, hkind, hlow, hhigh⟩, fun c hc hnone x hx hx' => ?_⟩
  by_cases hroom : 0 < c.room
  · have hne : b.address ≠ c.address := by
      intro heq
      rw [hwf.unique b hb c hc (by omega) hroom heq, hnone] at hkind
      cases hkind
    have := hwf.apart b hb c hc (by omega) hroom hne
    omega
  · omega

theorem WellFormed.traced (hwf : h.WellFormed) (hv : h.PointersAt v) (howns : h.Owns v n)
    (ho : o + Kind.wordSize ≤ n) : h.Traced (v.toNat + o) := by
  obtain ⟨b, hb, hvb, hbroom, hkind⟩ := hv
  obtain ⟨c, hc, hvc, hcroom, hle⟩ := howns
  obtain rfl := hwf.unique b hb c hc hbroom hcroom (hvb.trans hvc.symm)
  subst hvb
  exact hwf.traced_of_inside hb hkind (Nat.le_add_right _ _) (by omega)

theorem Traced.withMemory (ha : h.Traced a) {m : Memory} : ({ h with memory := m } : Heap).Traced a :=
  ⟨ha.inside, ha.apart⟩

theorem Traced.extend (ha : h.Traced a) (hext : h.Extends h') (hwf : h'.WellFormed) : h'.Traced a := by
  obtain ⟨b, hb, hkind, hlow, hhigh⟩ := ha.inside
  exact hwf.traced_of_inside (hext.subset hb) hkind hlow hhigh

end Heap

theorem Kind.size_of_isPointer (hk : k.isPointer = true) : k.size = Kind.wordSize := by
  cases k <;> first | rfl | exact absurd hk (by decide)

private theorem Kind.addressOffsets_le (ho : o ∈ k.addressOffsets) : o + Kind.wordSize ≤ k.headerSize := by
  cases k <;> simp [Kind.addressOffsets] at ho
  case function => subst ho; decide
  case virtual => rcases ho with rfl | rfl | rfl | rfl <;> decide
  case dynobj => rcases ho with rfl | rfl | rfl <;> decide
  all_goals subst ho; decide

private theorem Registry.hasPointer_of_mem {c : ClassLayout} {p : Placed Field}
    (hc : r.classLayout t = .ok c) (hp : p ∈ c.fields) (hk : r.kind? p.item.type = some k)
    (hpointer : k.isPointer = true) : c.hasPointer = true := by
  obtain ⟨cs, -, -, -, -, hany⟩ := classLayout_ok hc
  rw [hany, List.any_eq_true]
  refine ⟨p.item, List.mem_map_of_mem hp, ?_⟩
  rw [hk, Option.any_some, hpointer]

/-- A word of a value, or of the storage of an open object, in which an address is kept: a field, a part of
the header, or an element. The content of a box counts as a part of its header. -/
inductive PointerWord (r : Registry) (values : Set Addr) (m : Memory) : Nat → Prop
  | field {b : Addr} {o : Nat} {t : TypeId} {k : Kind} : Holds r values m b o t → r.kind? t = some k →
    k.isPointer = true → PointerWord r values m (b.toNat + o)
  | header {v : Addr} {k : Kind} {o : Nat} : v ∈ values → r.kindAt m v = some k →
    o ∈ k.addressOffsets → PointerWord r values m (v.toNat + o)
  | element {v : Addr} {t : TypeId} {n i : Nat} {k : Kind} : v ∈ values →
    ArrayValue.parts (.ofTypes r) m v = .ok (t, n) → r.kind? t = some k → k.isPointer = true → i < n →
      PointerWord r values m (v.toNat + (ArrayValue.dataOffset + i * k.size))

theorem PointerWord.traced (ha : PointerWord r values h.memory a) (hs : Arranged r stale h values) :
    h.Traced a := by
  cases ha with
  | @field b o t k hb hk hpointer =>
    obtain ⟨k', hk', howns, -⟩ := hs.holds_range hb
    obtain rfl := Option.some.inj (hk.symm.trans hk')
    have hsize := Kind.size_of_isPointer hpointer
    refine hs.blocks.traced ?_ howns (by omega)
    cases hb with
    | «instance» hv hc hp =>
      exact hs.pointed b hv (.fields hc (Registry.hasPointer_of_mem hc hp hk hpointer))
    | standalone hv hl _ _ =>
      exact hs.pointed b hv (.header (Registry.kind?_of_viewLayout hl) (List.cons_ne_nil _ _))
    | openField hv hopen _ => exact (hs.opens _ hv hopen).storage_pointed (howns.ne_zero hs.blocks)
  | @header v k o hv hk ho =>
    have hroom := Kind.addressOffsets_le ho
    have hheader := le_headerSize hk
    exact hs.blocks.traced (hs.pointed v hv (.header hk (List.ne_nil_of_mem ho))) (hs.owned v hv) (by omega)
  | @element v t n i k hv hparts hk hpointer hi =>
    obtain ⟨k', hk', howns⟩ := hs.arrays v hv t n hparts
    obtain rfl := Option.some.inj (hk.symm.trans hk')
    have hsize := Kind.size_of_isPointer hpointer
    have hroom : i * k.size + k.size ≤ n * k.size := by
      rw [← Nat.succ_mul]
      exact Nat.mul_le_mul_right _ hi
    exact hs.blocks.traced (hs.pointed v hv (.elements hparts hk hpointer)) howns (by omega)

private theorem Variant.hasPointer_of_mem {c : ConstructLayout} {i : Nat} {p : Placed TypeId}
    (hc : Variant.construct w t i = .ok c) (hp : p ∈ c.params.items)
    (hk : w.registry.kind? p.item = some k) (hpointer : k.isPointer = true) :
    c.hasPointer = true ∧ p.offset + Kind.wordSize ≤ c.size := by
  unfold Variant.construct at hc
  obtain ⟨l, hl, hc⟩ := Outcome.bind_eq_ok.1 hc
  have hl := Outcome.mapError_eq_ok.1 hl
  split at hc
  · rename_i c' hc'
    obtain rfl := Outcome.pure_eq_ok.1 hc
    obtain ⟨ds, -, hall⟩ := Registry.variantLayout_ok hl
    obtain ⟨hi, hget⟩ := List.getElem?_eq_some_iff.1 hc'
    have hlayout : w.registry.constructLayout _ = .ok l.constructs[i] :=
      hall.get (by rwa [hall.length_eq]) hi
    rw [hget] at hlayout
    obtain ⟨-, hvalues, hlaid⟩ := Registry.constructLayout_ok hlayout
    constructor
    · unfold Registry.constructLayout at hlayout
      obtain ⟨params, -, hlayout⟩ := Outcome.bind_eq_ok.1 hlayout
      rw [← Outcome.pure_eq_ok.1 hlayout] at hp hvalues ⊢
      show List.any _ _ = true
      rw [← hvalues, List.any_eq_true]
      refine ⟨p.item, List.mem_map_of_mem hp, ?_⟩
      rw [hk, Option.any_some, hpointer]
    · obtain ⟨k', hk', -, hend, -⟩ := hlaid.packed.placed p hp
      obtain rfl := Option.some.inj (hk.symm.trans hk')
      rwa [← Kind.size_of_isPointer hpointer]
  · cases hc

namespace Action

theorem makeVariant_traced (hwf : h.WellFormed) {i : Nat} {args : List Slot} {c : ConstructLayout}
    {p : Placed TypeId} (hc : Variant.construct w t i = .ok c) (hp : p ∈ c.params.items)
    (hk : w.registry.kind? p.item = some k) (hpointer : k.isPointer = true) :
    (makeVariant t i args).Ends w h (fun v h' => h'.Traced (v.toNat + p.offset)) (fun _ => True) := by
  obtain ⟨hkind, hroom⟩ := Variant.hasPointer_of_mem hc hp hk hpointer
  have hnew : (newVariant t i).Ends w h (fun v h' => h'.Traced (v.toNat + p.offset)) (fun _ => True) := by
    unfold newVariant
    refine Ends.ask_ok_bind hc ((newValue_ends hwf _ _ _).bind (fun _ _ => trivial) ?_)
    rintro v h' ⟨hg, -, -, hpointed⟩
    have hat : h'.PointersAt v := hpointed (by rw [hkind]; rfl)
    exact Ends.change_bind (Ends.pure (hg.wellFormed.traced hat hg.owned hroom).withMemory)
  unfold makeVariant
  refine Ends.ask_ok_bind hc ?_
  split_ifs
  · exact Ends.fail trivial
  · refine Ends.ask_bind trivial fun _ _ => hnew.bind (fun _ => id) fun v h' htraced => ?_
    exact Ends.change_bind (Ends.pure htraced.withMemory)

end Action

/-- An address has been stored in a word at some time: the word is one for addresses in a heap that a
program had, or the place of such a parameter of an enum value that was made. -/
inductive StoredPointer (r : Registry) (held : Addr → TypeId → Prop) : Heap × Set Addr → Nat → Prop
  | now {h : Heap} {values : Set Addr} {a : Nat} : Reachable r held h values →
    PointerWord r values h.memory a → StoredPointer r held (h, values) a
  | param {w : World} {h h' : Heap} {values : Set Addr} {t : TypeId} {i : Nat} {args : List Slot} {v : Addr}
    {c : ConstructLayout} {p : Placed TypeId} {k : Kind} : Reachable r held h values → w.registry = r →
      Action.makeVariant t i args w h = (.ok v, h') → Variant.construct w t i = .ok c →
        p ∈ c.params.items → r.kind? p.item = some k → k.isPointer = true →
          StoredPointer r held (h', values ∪ h.newValues r values h') (v.toNat + p.offset)
  | later {s s' : Heap × Set Addr} {a : Nat} : StoredPointer r held s a → Step r held s s' →
    StoredPointer r held s' a

/-- Block kinds are right for a collector: in every heap that a program can have, a word in which an address
has been stored lies in a block for addresses, and in no block that holds none. -/
theorem StoredPointer.in_pointers_block {s : Heap × Set Addr} (ha : StoredPointer r held s a) (hb : r.Built) :
    s.1.Traced a := by
  -- The heaps of a history are those that a program can have, so each step leaves well-formed blocks.
  suffices hall : Reachable r held s.1 s.2 ∧ s.1.Traced a from hall.2
  induction ha with
  | now hr hword => exact ⟨hr, hword.traced (hr.sound hb).arranged⟩
  | @param w h h' values t i args v c p k hr hw hrun hc hp hk hpointer =>
    subst hw
    refine ⟨hr.step rfl (.makeVariant t i args) hrun fun _ hfatal => (nomatch hfatal), ?_⟩
    exact (Action.makeVariant_traced (hr.sound hb).arranged.blocks hc hp hk hpointer).of_ok hrun
  | later _ hstep ih =>
    obtain ⟨hr, htraced⟩ := ih
    have hr' := hr.next hstep
    have hfollows := hstep.follows hb (hr.sound hb)
    exact ⟨hr', htraced.extend hfollows.blocks hfollows.sound.arranged.blocks⟩

/-! A class with a field for addresses behind a number, and an instance of it that holds its own address. -/

def Registry.cellTypes : Registry :=
  ⟨(Descriptor.builtins ++
    ([.object ⟨"Cell", none, [⟨"a", .f64⟩, ⟨"b", .dynamic⟩], []⟩] : List Descriptor)).toArray⟩

theorem Registry.cellTypes_built : Registry.cellTypes.Built :=
  .of_adds (Registry.cellTypes.types.toList.drop Descriptor.builtins.length) (by decide +kernel)
    (by decide +kernel)

/-- Stores the address of a cell in the cell itself. -/
def closeCell (v : Addr) : Action Unit := Action.set v (Name.hash "b") .dynamic (.pointer v)

def instanceHeap : Heap := (Action.newInstance (.ofIndex 12) (.ofTypes .cellTypes) {}).2

def closedHeap : Heap := (closeCell 0x10010 (.ofTypes .cellTypes) instanceHeap).2

/-- The address in the instance is found by a collector. -/
theorem closedHeap_traced : ∃ values,
    StoredPointer .cellTypes (fun _ _ => False) (closedHeap, values) 0x10020 ∧
      closedHeap.memory.word 0x10020 = 0x10010 ∧ closedHeap.Traced 0x10020 := by
  let w : World := .ofTypes .cellTypes
  have hb : w.registry.Built := Registry.cellTypes_built
  have hstart : Reachable .cellTypes (fun _ _ => False) {} ∅ := .start none
  have hnew : Action.newInstance (.ofIndex 12) w {} = (.ok 0x10010, instanceHeap) :=
    Action.eq_of_fst (by decide +kernel)
  obtain ⟨values, -, hr, hv, -⟩ := hstart.after_keeps rfl (.newInstance (.ofIndex 12))
    (Action.newInstance_keeps (hstart.sound hb)) hnew
  have hslot : WellTyped .cellTypes (fun _ _ => False) values instanceHeap.memory .dynamic
      (.pointer 0x10010) :=
    .of_leadsTo (k := .dynamic) (by decide +kernel) rfl ⟨hv, .object, by decide +kernel, rfl⟩
  have hclose : closeCell 0x10010 w instanceHeap = (.ok (), closedHeap) :=
    Action.eq_of_fst (by decide +kernel)
  obtain ⟨values', hsub, hr'⟩ := hr.after rfl (.set (Name.hash "b") hv hslot) hclose
  have hlayout : (Registry.cellTypes.classLayout (closedHeap.memory.typeOf 0x10010)).map ClassLayout.fields =
      .ok [⟨⟨"a", .f64⟩, 8⟩, ⟨⟨"b", .dynamic⟩, 16⟩] := by
    decide +kernel
  obtain ⟨c, hc, hfields⟩ := Outcome.map_eq_ok.1 hlayout
  have hplaced : (⟨⟨"b", .dynamic⟩, 16⟩ : Placed Field) ∈ c.fields := by
    rw [hfields]
    decide
  have hword : PointerWord .cellTypes values' closedHeap.memory 0x10020 :=
    .field (k := .dynamic) (.instance (hsub hv) hc hplaced) (by decide +kernel) rfl
  have hstored := StoredPointer.now hr' hword
  exact ⟨values', hstored, by decide +kernel, hstored.in_pointers_block hb⟩

end ObjectModel
