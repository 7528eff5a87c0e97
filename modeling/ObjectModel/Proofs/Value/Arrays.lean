import ObjectModel.Proofs.Memory.Accounting
import ObjectModel.Proofs.Value.Alignment
import ObjectModel.Proofs.Value.Variants

/-!
Arrays as they lie in memory. A new array of a length that its header holds has zeros for elements, if there is
room for it, and a longer one is refused. No two elements of arrays share a byte with each other or with a
header, so that after any run of writes each element is the slot that was last written to it.
-/

set_option autoImplicit false
set_option relaxedAutoImplicit false

namespace ObjectModel

variable {r : Registry} {held : Addr → TypeId → Prop} {values : Set Addr} {h h' : Heap} {w : World}
  {t t' : TypeId} {k k' : Kind} {v u : Addr} {length length' i j : Nat} {m : Memory}

namespace ArrayValue

theorem footprint_le (k : Kind) (hlength : length ≤ maxLength) :
    Heap.footprint (dataOffset + length * k.size) ≤ Heap.maxBlockSize := by
  have hsize : length * k.size ≤ length * 8 := Nat.mul_le_mul_left length k.size_le
  have hmax : maxLength = 0x7FFFFFFF := rfl
  have hdata : dataOffset = 24 := rfl
  have hblock : Heap.maxBlockSize = 0x7FFFFFFFFFFFFFF0 := rfl
  unfold Heap.footprint
  omega

theorem parts_writeHeader (hk : w.registry.kindAt m v = some .array) (hlength : length ≤ maxLength) :
    parts w (writeHeader v t length m) v = .ok (t, length) := by
  have hkept : m.SameOn (writeHeader v t length m) v.toNat 8 :=
    (changesOnly_writeHeader v t length m).sameOn (.inl le_rfl)
  have hkind : w.kindOf (writeHeader v t length m) v = .ok .array := by
    rw [World.kindOf, hkept.typeOf]
    exact World.kind_eq_ok.2 hk
  have ht : (⟨t.raw.toUInt64.toUInt32⟩ : TypeId) = t := by simp
  rw [parts, hkind, word_writeHeader, count_writeHeader v t m hlength, ht]
  rfl

end ArrayValue

/-- An array with a number of elements of a type, in a block that has room for all of them. -/
structure ArrayAt (r : Registry) (h : Heap) (v : Addr) (t : TypeId) (k : Kind) (length : Nat) : Prop where
  parts : ArrayValue.parts (.ofTypes r) h.memory v = .ok (t, length)
  kind : r.kind? t = some k
  owned : h.Owns v (ArrayValue.dataOffset + length * k.size)

/-- Every array of a heap that a program can have is one. -/
theorem Reachable.arrayAt (hb : r.Built) (hr : Reachable r held h values) (hv : v ∈ values)
    (hparts : ArrayValue.parts (.ofTypes r) h.memory v = .ok (t, length)) : ∃ k, ArrayAt r h v t k length := by
  obtain ⟨k, hk, howned⟩ := (hr.sound hb).arranged.arrays v hv t length hparts
  exact ⟨k, hparts, hk, howned⟩

namespace ArrayAt

open ArrayValue (place)

theorem unique (ha : ArrayAt r h v t k length) (ha' : ArrayAt r h v t' k' length') :
    t = t' ∧ k = k' ∧ length = length' := by
  obtain ⟨rfl, rfl⟩ := Prod.mk.inj (Except.ok.inj (ha.parts.symm.trans ha'.parts))
  exact ⟨rfl, Option.some.inj (ha.kind.symm.trans ha'.kind), rfl⟩

theorem withMemory (ha : ArrayAt r h v t k length)
    (hsame : h.memory.SameOn m v.toNat ArrayValue.dataOffset) :
    ArrayAt r { h with memory := m } v t k length := by
  have htype : m.typeOf v = h.memory.typeOf v :=
    (hsame.mono le_rfl (by change _ ≤ v.toNat + 24; omega)).typeOf
  exact ⟨(parts_same (parts_ok ha.parts).1 htype fun _ => hsame).trans ha.parts, ha.kind, ha.owned⟩

theorem element (ha : ArrayAt r h v t k length) (hw : w.registry = r) (i : Nat) :
    ArrayValue.element w h.memory v i = .ok (place v k i, k) := by
  subst hw
  exact Outcome.bind_eq_ok.2 ⟨_, ha.parts, Outcome.bind_eq_ok.2 ⟨k, World.kind_eq_ok.2 ha.kind, rfl⟩⟩

theorem get (ha : ArrayAt r h v t k length) (hw : w.registry = r) (i : Nat) :
    ArrayValue.get w h.memory v i = .ok (h.memory.read (place v k i) k) :=
  Outcome.bind_eq_ok.2 ⟨_, ha.element hw i, rfl⟩

theorem inside (ha : ArrayAt r h v t k length) (hi : i < length) :
    h.Owns v (ArrayValue.dataOffset + (i + 1) * k.size) :=
  ha.owned.mono (Nat.add_le_add_left (Nat.mul_le_mul_right k.size hi) _)

theorem header_apart (ha : ArrayAt r h v t k length) (ha' : ArrayAt r h u t' k' length') (hwf : h.WellFormed)
    (hj : j < length') :
    v.toNat + ArrayValue.dataOffset ≤ place u k' j ∨ place u k' j + k'.size ≤ v.toNat := by
  have hplace := ArrayValue.place_bounds u k' hj
  by_cases hsame : v = u
  · exact .inl (hsame ▸ hplace.1)
  · have := ha.owned.apart ha'.owned hwf hsame
    omega

theorem apart (ha : ArrayAt r h v t k length) (ha' : ArrayAt r h u t' k' length') (hwf : h.WellFormed)
    (hi : i < length) (hj : j < length') (hne : ¬(u = v ∧ j = i)) :
    place v k i + k.size ≤ place u k' j ∨ place u k' j + k'.size ≤ place v k i := by
  by_cases hsame : v = u
  · subst hsame
    obtain ⟨-, rfl, -⟩ := ha.unique ha'
    rcases Nat.lt_or_gt_of_ne fun heq => hne ⟨rfl, heq.symm⟩ with hlt | hlt
    · exact .inl (ArrayValue.place_add_size_le v k hlt)
    · exact .inr (ArrayValue.place_add_size_le v k hlt)
  · have hplace := ArrayValue.place_bounds v k hi
    have hplace' := ArrayValue.place_bounds u k' hj
    have := ha.owned.apart ha'.owned hwf hsame
    omega

theorem align_dvd (ha : ArrayAt r h v t k length) (haligned : h.Aligned) (i : Nat) :
    k.align ∣ place v k i := by
  obtain ⟨b, hb, rfl, -⟩ := ha.owned
  have hstart : k.align ∣ b.address.toNat :=
    k.align_dvd_wordSize.trans ((by decide : Kind.wordSize ∣ 16).trans (haligned.blocks b hb))
  have hdata : k.align ∣ ArrayValue.dataOffset := k.align_dvd_wordSize.trans (by decide)
  exact Nat.dvd_add (Nat.dvd_add hstart hdata) (Nat.dvd_mul_left_of_dvd k.align_dvd_size i)

end ArrayAt

/-! Writes to elements. -/

/-- A slot that is written to an element of an array. -/
structure ElementWrite where
  array : Addr
  index : Nat
  slot : Slot
  deriving DecidableEq, Repr

namespace ElementWrite

/-- The array has the element, and the slot is of its kind. -/
def Suits (r : Registry) (h : Heap) (p : ElementWrite) : Prop :=
  ∃ t k length, ArrayAt r h p.array t k length ∧ p.index < length ∧ p.slot.fits k = true

/-- The slot that is written last to an element. -/
def last? (writes : List ElementWrite) (v : Addr) (i : Nat) : Option Slot :=
  (writes.findRev? fun p => p.array = v ∧ p.index = i).map (·.slot)

/-- A byte of the element that is written to. -/
def Covers (r : Registry) (m : Memory) (p : ElementWrite) (x : Nat) : Prop :=
  ∃ a k, ArrayValue.element (.ofTypes r) m p.array p.index = .ok (a, k) ∧ a ≤ x ∧ x < a + k.size

theorem last?_cons_getD (p : ElementWrite) (rest : List ElementWrite) (v : Addr) (i : Nat) (s : Slot) :
    (last? (p :: rest) v i).getD s =
      (last? rest v i).getD (if p.array = v ∧ p.index = i then p.slot else s) := by
  rw [last?, last?, List.findRev?_eq_find?_reverse, List.findRev?_eq_find?_reverse, List.reverse_cons,
    List.find?_append]
  cases rest.reverse.find? fun q => decide (q.array = v ∧ q.index = i) with
  | some q => rfl
  | none =>
    by_cases hp : p.array = v ∧ p.index = i
    · simp [hp]
    · simp [hp]

end ElementWrite

/-- One write after the other. -/
def Action.setElements : List ElementWrite → Action Unit
  | [] => pure ()
  | p :: rest => do
    setElement p.array p.index p.slot
    setElements rest

open ArrayValue (place)

/-- What writes to elements of arrays do: the arrays are what they were, each element is the slot last written
to it, or what it was, and no other byte changes. -/
structure Rewritten (r : Registry) (h : Heap) (writes : List ElementWrite) (m : Memory) : Prop where
  header : ∀ {v t k length}, ArrayAt r h v t k length → h.memory.SameOn m v.toNat ArrayValue.dataOffset
  element : ∀ {v t k length i}, ArrayAt r h v t k length → i < length →
    m.read (place v k i) k = (ElementWrite.last? writes v i).getD (h.memory.read (place v k i) k)
  other : ∀ x, (∀ p ∈ writes, ¬p.Covers r h.memory x) → m.byte x = h.memory.byte x

namespace Rewritten

variable {p : ElementWrite} {rest : List ElementWrite}

theorem nil (r : Registry) (h : Heap) : Rewritten r h [] h.memory :=
  ⟨fun _ => .refl _ _ _, fun _ _ => rfl, fun _ _ => rfl⟩

theorem arrayAt {writes : List ElementWrite} (hw : Rewritten r h writes m) (ha : ArrayAt r h v t k length) :
    ArrayAt r { h with memory := m } v t k length := ha.withMemory (hw.header ha)

theorem single (hwf : h.WellFormed) (ha : ArrayAt r h p.array t k length) (hp : p.index < length)
    (hfits : p.slot.fits k = true) :
    Rewritten r h [p] (h.memory.write (place p.array k p.index) p.slot) := by
  have hchange := Memory.changesOnly_write h.memory (place p.array k p.index) p.slot
  have hwidth := Slot.width_of_fits hfits
  rw [hwidth] at hchange
  refine ⟨fun {v} _ _ _ hv => ?_, fun {v} _ l _ i hv hi => ?_, fun x hx => ?_⟩
  · exact hchange.sameOn (hv.header_apart ha hwf hp)
  · rw [ElementWrite.last?_cons_getD]
    change _ = if p.array = v ∧ p.index = i then p.slot else _
    by_cases hsame : p.array = v ∧ p.index = i
    · obtain ⟨rfl, rfl⟩ := hsame
      obtain ⟨-, rfl, -⟩ := ha.unique hv
      rw [if_pos ⟨rfl, rfl⟩]
      exact Memory.read_write_same h.memory _ hfits
    · rw [if_neg hsame]
      refine Memory.read_write_of_disjoint h.memory p.slot l ?_
      rw [hwidth]
      exact hv.apart ha hwf hi hp hsame
  · refine hchange x ?_
    by_contra hcovered
    exact hx p (List.mem_singleton.2 rfl) ⟨_, k, ha.element rfl p.index, by omega, by omega⟩

theorem cons {m₁ : Memory} (hfirst : Rewritten r h [p] m₁) (hrest : Rewritten r { h with memory := m₁ } rest m)
    (hsuits : ∀ q ∈ rest, q.Suits r h) : Rewritten r h (p :: rest) m := by
  refine ⟨fun ha => (hfirst.header ha).trans (hrest.header (hfirst.arrayAt ha)), fun ha hi => ?_,
    fun x hx => ?_⟩
  · rw [ElementWrite.last?_cons_getD, hrest.element (hfirst.arrayAt ha) hi]
    exact congrArg _ ((hfirst.element ha hi).trans (ElementWrite.last?_cons_getD p [] _ _ _))
  · obtain ⟨hp, hothers⟩ := List.forall_mem_cons.1 hx
    refine (hrest.other x fun q hq => ?_).trans (hfirst.other x fun q hq => List.mem_singleton.1 hq ▸ hp)
    -- The element of a later write lies where it lay before the first one.
    rintro ⟨a, l, helement, hcovered⟩
    obtain ⟨t, k, length, ha, -⟩ := hsuits q hq
    refine hothers q hq ⟨a, l, ?_, hcovered⟩
    rw [ha.element rfl, ← helement]
    exact ((hfirst.arrayAt ha).element rfl q.index).symm

end Rewritten

namespace Action

theorem setElement_eq (ha : ArrayAt r h v t k length) (hw : w.registry = r) (i : Nat) (s : Slot) :
    setElement v i s w h = (.ok (), { h with memory := h.memory.write (place v k i) s }) := by
  unfold setElement
  rw [ask_bind_ok (ha.element hw i)]
  rfl

theorem setElements_rewrites (hwf : h.WellFormed) (hw : w.registry = r) {writes : List ElementWrite}
    (hsuits : ∀ p ∈ writes, p.Suits r h) :
    ∃ m, setElements writes w h = (.ok (), { h with memory := m }) ∧ Rewritten r h writes m := by
  induction writes generalizing h with
  | nil => exact ⟨h.memory, rfl, .nil r h⟩
  | cons p rest ih =>
    obtain ⟨⟨t, k, length, ha, hp, hfits⟩, hrest⟩ := List.forall_mem_cons.1 hsuits
    have hfirst := Rewritten.single hwf ha hp hfits
    obtain ⟨m, hrun, hm⟩ := ih hwf.withMemory fun q hq => by
      obtain ⟨t, k, length, ha, hq⟩ := hrest q hq
      exact ⟨t, k, length, hfirst.arrayAt ha, hq⟩
    exact ⟨m, (bind_ok (setElement_eq ha hw p.index p.slot)).trans hrun, hfirst.cons hm hrest⟩

theorem newArray_eq (hk : w.registry.kind? t = some k) (hlength : length ≤ ArrayValue.maxLength) :
    newArray t length w h = (newValue (ArrayValue.dataOffset + length * k.size) (.ofBool k.isPointer) .array >>=
      fun v => change (ArrayValue.writeHeader v t length) >>= fun _ => pure v : Action Addr) w h := by
  unfold newArray
  rw [ask_bind_ok (World.kind_eq_ok.2 hk), if_neg (Nat.not_lt.2 hlength)]
  rfl

theorem newArray_by_room (hk : w.registry.kind? t = some k) (hlength : length ≤ ArrayValue.maxLength) :
    (h.HasRoom (ArrayValue.dataOffset + length * k.size) ∧ ∃ v h', newArray t length w h = (.ok v, h')) ∨
      ¬h.HasRoom (ArrayValue.dataOffset + length * k.size) ∧
        ∃ e, newArray t length w h = (.error (.fatal e), h) ∧ (e = .limitExceeded ∨ e = .outOfMemory) := by
  have hsize := ArrayValue.footprint_le k hlength
  have hle := (Heap.le_footprint (ArrayValue.dataOffset + length * k.size)).1
  have htakes : (newArray t length).TakesBlock (ArrayValue.dataOffset + length * k.size)
      (.ofBool k.isPointer) w h fun _ _ => True :=
    .congr ((newValue_takesBlock (by omega)).bind fun v _ _ => ⟨v, _, rfl, trivial⟩) (newArray_eq hk hlength)
  obtain ⟨hroom, a, h₁, hgranted⟩ | ⟨hroom, e, hrefused, he⟩ :=
    Heap.allocate_by_room hsize h (.ofBool k.isPointer)
  · obtain ⟨v, h', hrun, -⟩ := htakes.granted a h₁ hgranted
    exact .inl ⟨hroom, v, h', hrun⟩
  · exact .inr ⟨hroom, e, htakes.refused e hrefused, he⟩

theorem newArray_of_long (hk : w.registry.kind? t = some k) (hlength : ArrayValue.maxLength < length) :
    newArray t length w h = (.error (.error (.arrayTooLarge length)), h) := by
  unfold newArray
  rw [ask_bind_ok (World.kind_eq_ok.2 hk), if_pos hlength]
  rfl

theorem newArray_zero (hb : w.registry.Built) (hwf : h.WellFormed) (hk : w.registry.kind? t = some k)
    (hlength : length ≤ ArrayValue.maxLength) (hrun : newArray t length w h = (.ok v, h')) :
    ArrayAt w.registry h' v t k length ∧ h'.WellFormed ∧
      h'.memory.ZeroOn (v.toNat + ArrayValue.dataOffset) (length * k.size) := by
  have hends : (newValue (ArrayValue.dataOffset + length * k.size) (.ofBool k.isPointer) .array >>= fun v =>
      change (ArrayValue.writeHeader v t length) >>= fun _ => pure v : Action Addr).Ends w h
      (fun v h' => ArrayAt w.registry h' v t k length ∧ h'.WellFormed ∧
        h'.memory.ZeroOn (v.toNat + ArrayValue.dataOffset) (length * k.size)) fun _ => False := by
    refine (newValue_ends hwf _ _ _).bind (fun _ => id) ?_
    rintro v h' ⟨hg, htype, hzero, -⟩
    have hplaces : ArrayValue.elementOffset = 8 ∧ ArrayValue.dataOffset = 24 := ⟨rfl, rfl⟩
    have hchange := ArrayValue.changesOnly_writeHeader v t length h'.memory
    have hparts := ArrayValue.parts_writeHeader (w := .ofTypes w.registry)
      (kindAt_of_typeOf htype hb.kind?_array) (t := t) hlength
    have hkept : h'.memory.SameOn (ArrayValue.writeHeader v t length h'.memory)
        (v.toNat + ArrayValue.dataOffset) (length * k.size) := hchange.sameOn (.inr (by omega))
    have hdata := (hzero (v.toNat + ArrayValue.dataOffset) (length * k.size) (by omega)).same hkept
    refine Ends.change_bind (Ends.pure ?_)
    exact ⟨⟨hparts, hk, hg.owned.withMemory⟩, hg.wellFormed.withMemory, hdata⟩
  exact hends.of_ok ((newArray_eq hk hlength).symm.trans hrun)

end Action

/-- A new array: its elements follow one another behind 24 bytes of header, each within the block, where its
kind may lie, and zero. After any run of writes to elements, of this array and of others, each element of it is
the slot last written to it, or zero, and nothing has changed but the elements written to. -/
structure NewArray (r : Registry) (h : Heap) (v : Addr) (t : TypeId) (k : Kind) (length : Nat) : Prop where
  array : ArrayAt r h v t k length
  element : ∀ w, w.registry = r → ∀ i < length,
    ArrayValue.element w h.memory v i = .ok (v.toNat + 24 + i * k.size, k)
  inside : ∀ i < length, h.Owns v (24 + (i + 1) * k.size)
  aligned : ∀ i < length, k.align ∣ v.toNat + 24 + i * k.size
  zero : h.memory.ZeroOn (v.toNat + 24) (length * k.size)
  written : ∀ w, w.registry = r → ∀ writes : List ElementWrite, (∀ p ∈ writes, p.Suits r h) →
    ∃ m, Action.setElements writes w h = (.ok (), { h with memory := m }) ∧
      ArrayValue.parts w m v = .ok (t, length) ∧
      (∀ i < length, ArrayValue.get w m v i = .ok ((ElementWrite.last? writes v i).getD (.ofWord k 0))) ∧
      h.memory.SameOn m v.toNat 24 ∧
      ∀ x, (∀ p ∈ writes, ¬p.Covers r h.memory x) → m.byte x = h.memory.byte x

theorem ArrayAt.newArray (ha : ArrayAt r h v t k length) (hwf : h.WellFormed) (haligned : h.Aligned)
    (hzero : h.memory.ZeroOn (v.toNat + 24) (length * k.size)) : NewArray r h v t k length := by
  refine ⟨ha, fun w hw i _ => ha.element hw i, fun i => ha.inside, fun i _ => ha.align_dvd haligned i, hzero,
    fun w hw writes hwrites => ?_⟩
  obtain ⟨m, hrun, hm⟩ := Action.setElements_rewrites hwf hw hwrites
  have ha' := hm.arrayAt ha
  have hparts : ArrayValue.parts w m v = .ok (t, length) := by
    subst hw
    exact ha'.parts
  refine ⟨m, hrun, hparts, fun i hi => ?_, hm.header ha, hm.other⟩
  have hdata : ArrayValue.dataOffset = 24 := rfl
  obtain ⟨hlow, hhigh⟩ := ArrayValue.place_bounds v k hi
  have hfresh : h.memory.read (place v k i) k = .ofWord k 0 := (hzero.mono hlow (by omega)).read
  rw [ha'.get hw i, ← hfresh]
  exact congrArg Except.ok (hm.element ha hi)

/-- An array can be made of any element type, of every length up to the greatest 32-bit number with a sign, if
there is room for it in the heap. A greater length is refused, and without room the program ends; either way
nothing is taken from the heap. The array is as a new one is to be. -/
theorem Reachable.newArray_stores (hb : r.Built) (hr : Reachable r held h values) (hw : w.registry = r)
    (hk : r.kind? t = some k) (length : Nat) :
    ((∃ v h', Action.newArray t length w h = (.ok v, h')) ↔
      length ≤ 2 ^ 31 - 1 ∧ h.HasRoom (24 + length * k.size)) ∧
    (2 ^ 31 - 1 < length → Action.newArray t length w h = (.error (.error (.arrayTooLarge length)), h)) ∧
    (length ≤ 2 ^ 31 - 1 → ¬h.HasRoom (24 + length * k.size) → ∃ e,
      Action.newArray t length w h = (.error (.fatal e), h) ∧ (e = .limitExceeded ∨ e = .outOfMemory)) ∧
    ∀ v h', Action.newArray t length w h = (.ok v, h') → NewArray r h' v t k length := by
  subst hw
  have hmade {v h'} (hrun : Action.newArray t length w h = (.ok v, h')) : length ≤ ArrayValue.maxLength := by
    refine Nat.le_of_not_lt fun hlong => ?_
    cases (Action.newArray_of_long hk hlong).symm.trans hrun
  refine ⟨⟨?_, ?_⟩, Action.newArray_of_long hk, fun hlength hnone => ?_, fun v h' hrun => ?_⟩
  · rintro ⟨v, h', hrun⟩
    obtain ⟨hroom, -⟩ | ⟨-, e, hfatal, -⟩ := Action.newArray_by_room (h := h) hk (hmade hrun)
    · exact ⟨hmade hrun, hroom⟩
    · cases hfatal.symm.trans hrun
  · rintro ⟨hlength, hroom⟩
    exact (Action.newArray_by_room hk hlength).elim And.right fun hnone => absurd hroom hnone.1
  · exact (Action.newArray_by_room hk hlength).elim (fun hroom => absurd hroom.1 hnone) And.right
  · obtain ⟨ha, hwf, hzero⟩ := Action.newArray_zero hb (hr.sound hb).arranged.blocks hk (hmade hrun) hrun
    have hreach := hr.step rfl (.newArray t length) hrun fun _ hfatal => nomatch hfatal
    exact ha.newArray hwf hreach.aligned hzero

/-! Three 16-bit numbers, one of them written twice and one not at all. -/

def shortWrites : List ElementWrite := [⟨0x10010, 0, .i16 7⟩, ⟨0x10010, 2, .i16 (-1)⟩, ⟨0x10010, 0, .i16 9⟩]

theorem shorts_stored : ∃ h' m, Action.newArray .i16 3 (.ofTypes .shapeTypes) {} = (.ok 0x10010, h') ∧
    NewArray .shapeTypes h' 0x10010 .i16 .i16 3 ∧
    Action.newArray .i16 (2 ^ 31) (.ofTypes .shapeTypes) {} = (.error (.error (.arrayTooLarge (2 ^ 31))), {}) ∧
    Action.setElements shortWrites (.ofTypes .shapeTypes) h' = (.ok (), { h' with memory := m }) ∧
    ArrayValue.get (.ofTypes .shapeTypes) m 0x10010 0 = .ok (.i16 9) ∧
    ArrayValue.get (.ofTypes .shapeTypes) m 0x10010 1 = .ok (.i16 0) ∧
    ArrayValue.get (.ofTypes .shapeTypes) m 0x10010 2 = .ok (.i16 (-1)) := by
  let w : World := .ofTypes .shapeTypes
  let h' := (Action.newArray .i16 3 w {}).2
  have hr : Reachable .shapeTypes (fun _ _ => False) {} ∅ := .start none
  have hrun : Action.newArray .i16 3 w {} = (.ok 0x10010, h') := Action.eq_of_fst (by decide +kernel)
  obtain ⟨-, -, -, hnew⟩ := hr.newArray_stores (w := w) (t := .i16) (k := .i16) Registry.shapeTypes_built rfl rfl 3
  obtain ⟨-, hlong, -⟩ :=
    hr.newArray_stores (w := w) (t := .i16) (k := .i16) Registry.shapeTypes_built rfl rfl (2 ^ 31)
  have ha := hnew 0x10010 h' hrun
  obtain ⟨m, hwritten, -, hget, -⟩ := ha.written w rfl shortWrites fun p hp => by
    refine ⟨.i16, .i16, 3, ?_⟩
    simp only [shortWrites, List.mem_cons, List.not_mem_nil, or_false] at hp
    rcases hp with rfl | rfl | rfl <;> exact ⟨ha.array, by decide, by decide⟩
  exact ⟨_, m, hrun, ha, hlong (by decide), hwritten, hget 0 (by decide), hget 1 (by decide), hget 2 (by decide)⟩

end ObjectModel
