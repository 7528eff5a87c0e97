import ObjectModel.Proofs.Value.Immutables
import ObjectModel.Proofs.Value.TakenBlocks

/-!
Enum values give back what they were made of. The parameters of a construct are written one after the
other to places that do not overlap, behind the type and the number of the construct; and as nothing is written
to an enum value later, they are read as they were written for as long as the program runs.
-/

set_option autoImplicit false
set_option relaxedAutoImplicit false

namespace ObjectModel

variable {r : Registry} {held : Addr → TypeId → Prop} {values : Set Addr} {h h' : Heap} {m m' : Memory}
  {v : Addr} {t : TypeId} {index : Nat} {args : List Slot} {c : ConstructLayout} {d : Construct}
  {ds : List Construct} {name : String} {w : World}

/-- Slots suit types: as many, and each of the kind of its own type. -/
def Registry.Suited (r : Registry) (ts : List TypeId) (args : List Slot) : Prop :=
  List.Forall₂ (fun t s => ∃ k, r.kind? t = some k ∧ s.fits k = true) ts args

namespace Variant

/-- An enum value is read as a construct with given parameters: as no other construct, and with no other
parameters. -/
structure Reads (w : World) (m : Memory) (v : Addr) (index : Nat) (args : List Slot) : Prop where
  number : Variant.active w m v = .ok index
  param : ∀ i s, args[i.toNat]? = some s → Variant.param w m v index i = .ok s
  beyond : ∀ i : UInt64, args.length ≤ i.toNat →
    Variant.param w m v index i = .error (.invalidArity args.length (i + 1).toNat)
  other : ∀ j i, j ≠ index → Variant.param w m v j i = .error (.wrongConstruct index j)

/-- The bytes of an enum value are those of a construct with given parameters. -/
structure Filled (r : Registry) (c : ConstructLayout) (m : Memory) (v : Addr) (t : TypeId) (index : Nat)
    (args : List Slot) : Prop where
  type : m.typeOf v = t
  number : m.count (v.toNat + constructOffset) = index
  params : ∀ (i : Nat) p k s, c.params.items[i]? = some p → r.kind? p.item = some k → args[i]? = some s →
    m.read (v.toNat + p.offset) k = s

theorem construct_eq_ok : construct w t index = .ok c ↔
    ∃ l, w.registry.variantLayout t = .ok l ∧ l.construct? index = some c := by
  unfold construct
  rw [Outcome.bind_eq_ok]
  refine exists_congr fun l => and_congr Outcome.mapError_eq_ok ?_
  cases l.construct? index <;> simp [pure, Except.pure, throw, throwThe, MonadExceptOf.throw]

theorem checkArguments_eq_ok {ts : List TypeId} (position : Nat) (hlength : ts.length = args.length) :
    checkArguments w position ts args = .ok () ↔ w.registry.Suited ts args := by
  unfold Registry.Suited
  induction ts generalizing args position with
  | nil =>
    obtain rfl := List.length_eq_zero_iff.1 hlength.symm
    exact ⟨fun _ => .nil, fun _ => rfl⟩
  | cons t ts ih =>
    cases args with
    | nil => cases hlength
    | cons s args =>
      have hrest := @ih args (position + 1) (Nat.succ.inj hlength)
      rw [checkArguments, Outcome.bind_eq_ok, List.forall₂_cons]
      simp only [World.kind_eq_ok]
      constructor
      · rintro ⟨k, hk, hok⟩
        split_ifs at hok with hfits
        exact ⟨⟨k, hk, hfits⟩, hrest.1 hok⟩
      · rintro ⟨⟨k, hk, hfits⟩, hall⟩
        exact ⟨k, hk, by rw [if_pos hfits]; exact hrest.2 hall⟩

theorem suited_iff : w.registry.Suited c.params.values args ↔
    args.length = c.arity ∧ checkArguments w 0 c.params.values args = .ok () := by
  have hvalues : c.params.values.length = c.arity := by
    rw [Region.values, List.length_map]
    rfl
  constructor
  · intro hsuited
    exact ⟨hsuited.length_eq.symm.trans hvalues, (checkArguments_eq_ok 0 hsuited.length_eq).2 hsuited⟩
  · rintro ⟨hlength, hcheck⟩
    exact (checkArguments_eq_ok 0 (hvalues.trans hlength.symm)).1 hcheck

theorem read_fill {items : List (Placed TypeId)} (m : Memory) (v : Addr)
    (hapart : items.Pairwise fun p q => ∀ k, r.kind? p.item = some k → p.offset + k.size ≤ q.offset)
    (hfits : r.Suited (items.map Placed.item) args) {i : Nat} {p : Placed TypeId} {k : Kind} {s : Slot}
    (hp : items[i]? = some p) (hs : args[i]? = some s) (hk : r.kind? p.item = some k) :
    (fill v m (args.zip (items.map Placed.offset))).read (v.toNat + p.offset) k = s := by
  induction items generalizing m args i with
  | nil => cases hp
  | cons q items ih =>
    obtain ⟨hbehind, hapart⟩ := List.pairwise_cons.1 hapart
    cases hfits with
    | @cons _ s₀ _ rest hfirst hrest =>
      obtain ⟨l, hl, hfits⟩ := hfirst
      cases i with
      | zero =>
        obtain rfl := Option.some.inj hp
        obtain rfl := Option.some.inj hs
        obtain rfl := Option.some.inj (hl.symm.trans hk)
        have hlater : ∀ a ∈ rest.zip (items.map Placed.offset), q.offset + l.size ≤ a.2 := by
          intro a ha
          obtain ⟨x, hx, heq⟩ := List.mem_map.1 (List.of_mem_zip ha).2
          exact heq ▸ hbehind x hx l hl
        have hkept := sameOn_fill (m.write (v.toNat + q.offset) s₀) v hlater
        have hread := hkept.mono (Nat.zero_le (v.toNat + q.offset)) (by omega : _ + l.size ≤ _)
        exact hread.read.trans (Memory.read_write_same m (v.toNat + q.offset) hfits)
      | succ i => exact ih (m.write (v.toNat + q.offset) s₀) hapart hrest hp hs

namespace Filled

variable (hf : Filled w.registry c m v t index args)

include hf

theorem same (hc : construct w t index = .ok c) (hsame : Memory.SameOn m m' v.toNat c.size) :
    Filled w.registry c m' v t index args := by
  obtain ⟨-, hpacked⟩ := construct_ok hc
  have hheader : VariantLayout.headerSize = 16 := rfl
  have hstart : 16 ≤ c.size := hpacked.start_le
  refine ⟨?_, ?_, fun i p k s hp hk hs => ?_⟩
  · have htype : Memory.SameOn m m' v.toNat 8 := hsame.mono le_rfl (by omega)
    exact htype.typeOf.trans hf.type
  · have hnumber : Memory.SameOn m m' (v.toNat + constructOffset) 4 := by
      have height : constructOffset = 8 := rfl
      exact hsame.mono (by omega) (by omega)
    exact hnumber.count.trans hf.number
  · obtain ⟨l, hl, -, hend, -⟩ := hpacked.placed p (List.mem_of_getElem? hp)
    obtain rfl := Option.some.inj (hl.symm.trans hk)
    have hstop : c.params.stop = c.size := rfl
    have hplace : Memory.SameOn m m' (v.toNat + p.offset) l.size := hsame.mono (by omega) (by omega)
    exact hplace.read.trans (hf.params i p l s hp hk hs)

theorem reads (hc : construct w t index = .ok c) (hsuited : w.registry.Suited c.params.values args) :
    Reads w m v index args := by
  obtain ⟨hkind, hpacked⟩ := construct_ok hc
  have hactive : active w m v = .ok index := by
    have hk : w.kindOf m v = .ok .enum := World.kind_eq_ok.2 (hf.type ▸ hkind)
    rw [active, hk]
    exact congrArg Except.ok hf.number
  obtain ⟨l, hl, hconstruct⟩ := construct_eq_ok.1 hc
  have hlayout : Reading.ofLayout (w.registry.variantLayout (m.typeOf v)) = .ok l := by
    rw [hf.type, hl]
    rfl
  have hlength : args.length = c.params.items.length := by
    rw [← hsuited.length_eq, Region.values, List.length_map]
  -- A request for the construct comes down to the place of the parameter.
  have hplace : ∀ i : UInt64, param w m v index i =
      (c.params.items[i.toNat]?).elim (.error (.invalidArity c.arity (i + 1).toNat)) fun p =>
        (w.kind p.item).map fun k => m.read (v.toNat + p.offset) k := by
    intro i
    rw [param, hactive, hlayout]
    simp only [bind, Except.bind, ne_eq, not_true, if_false, hconstruct, Region.get?]
    cases c.params.items[i.toNat]? with
    | none => rfl
    | some p =>
      simp only [Option.elim_some]
      cases w.kind p.item <;> rfl
  refine ⟨hactive, fun i s hs => ?_, fun i hi => ?_, fun j i hj => ?_⟩
  · obtain ⟨hlt, -⟩ := List.getElem?_eq_some_iff.1 hs
    obtain ⟨p, hp⟩ : ∃ p, c.params.items[i.toNat]? = some p :=
      ⟨_, List.getElem?_eq_getElem (hlength ▸ hlt)⟩
    obtain ⟨k, hk, -⟩ := hpacked.placed p (List.mem_of_getElem? hp)
    rw [hplace i, hp, Option.elim_some, World.kind_eq_ok.2 hk]
    exact congrArg Except.ok (hf.params _ p k s hp hk hs)
  · rw [hplace i, List.getElem?_eq_none (hlength ▸ hi), hlength]
    rfl
  · rw [param, hactive, hlayout]
    simp only [bind, Except.bind, ne_eq, hj.symm, not_false_eq_true, if_true]
    rfl

end Filled

end Variant

/-- A block of a size and kind can be had. -/
def Heap.HasBlock (h : Heap) (size : Nat) (kind : BlockKind) : Prop :=
  size ≤ maxBlockSize ∧ ∃ a h', h.allocate (.ofNat size) kind = .ok (a, h')

namespace Action

theorem hasBlock_of_newValue {size : Nat} {kind : BlockKind}
    (hrun : newValue size kind t w h = (.ok v, h')) : h.HasBlock size kind := by
  obtain ⟨a, h₁, hallocate, -⟩ := bind_eq_ok.1 hrun
  obtain ⟨e, hfatal⟩ | ⟨a, h₁, hle, hgranted, -⟩ := allocate_cases size kind w h
  · cases hfatal.symm.trans hallocate
  · exact ⟨hle, a, h₁, hgranted⟩

/-- The value of a construct, once it is known that the construct is there and the arguments suit it. -/
private def newFilled (t : TypeId) (index : Nat) (c : ConstructLayout) (args : List Slot) : Action Addr := do
  let v ← (do
    let v ← newValue c.size (.ofBool c.hasPointer) t
    change (·.setCount (v.toNat + Variant.constructOffset) index)
    return v : Action Addr)
  change fun m => Variant.fill v m (args.zip c.params.offsets)
  return v

private theorem makeVariant_eq (hc : Variant.construct w t index = .ok c)
    (hsuited : w.registry.Suited c.params.values args) :
    makeVariant t index args w h = newFilled t index c args w h := by
  obtain ⟨hlength, hcheck⟩ := Variant.suited_iff.1 hsuited
  unfold makeVariant
  rw [ask_bind_ok hc, if_neg (not_not.2 hlength), ask_bind_ok hcheck]
  exact bind_congr (ask_bind_ok hc)

/-- An enum value is made if its arguments suit and there is a block for it. -/
theorem makeVariant_isOk : (∃ v h', makeVariant t index args w h = (.ok v, h')) ↔
    ∃ c, Variant.construct w t index = .ok c ∧ w.registry.Suited c.params.values args ∧
      h.HasBlock c.size (.ofBool c.hasPointer) := by
  constructor
  · rintro ⟨v, h', hrun⟩
    obtain ⟨c, hc, hrest⟩ := ask_bind_eq_ok.1 hrun
    split_ifs at hrest with hlength
    · cases hrest
    obtain ⟨_, hcheck, hrest⟩ := ask_bind_eq_ok.1 hrest
    obtain ⟨v₁, h₁, hnew, -⟩ := bind_eq_ok.1 hrest
    obtain ⟨c', hc', hnew⟩ := ask_bind_eq_ok.1 hnew
    obtain rfl : c = c' := Except.ok.inj (hc.symm.trans hc')
    obtain ⟨v₀, h₀, hvalue, -⟩ := bind_eq_ok.1 hnew
    exact ⟨c, hc, Variant.suited_iff.2 ⟨not_not.1 hlength, hcheck⟩, hasBlock_of_newValue hvalue⟩
  · rintro ⟨c, hc, hsuited, hsize, a, h₁, hgranted⟩
    have hnew : TakesBlock (newFilled t index c args) c.size (.ofBool c.hasPointer) w h fun _ _ => True :=
      ((newValue_takesBlock hsize).bind fun v h' _ => ⟨v, _, rfl, trivial⟩).bind
        fun v h' (_ : True) => ⟨v, _, rfl, trivial⟩
    obtain ⟨v, h', hrun, -⟩ := hnew.granted a h₁ hgranted
    exact ⟨v, h', (makeVariant_eq hc hsuited).trans hrun⟩

/-- An enum value is refused exactly if its arguments do not suit. -/
theorem makeVariant_isError : (∃ e h', makeVariant t index args w h = (.error (.error e), h')) ↔
    ¬∃ c, Variant.construct w t index = .ok c ∧ w.registry.Suited c.params.values args := by
  constructor
  · rintro ⟨e, h', hrun⟩ ⟨c, hc, hsuited⟩
    rw [makeVariant_eq hc hsuited] at hrun
    have hsure : (newFilled t index c args).Sure :=
      .bind (.bind (newValue_sure _ _ t) fun v => .bind (.change _) fun _ => .pure v) fun v =>
        .bind (.change _) fun _ => .pure v
    exact hsure w h e (congrArg Prod.fst hrun)
  · intro hnone
    cases hc : Variant.construct w t index with
    | error e => exact ⟨e, h, bind_error (ask_error hc)⟩
    | ok c =>
      unfold makeVariant
      rw [ask_bind_ok hc]
      by_cases hlength : args.length ≠ c.arity
      · exact ⟨_, h, by rw [if_pos hlength]; rfl⟩
      rw [if_neg hlength]
      cases hcheck : Variant.checkArguments w 0 c.params.values args with
      | error e => exact ⟨e, h, bind_error (ask_error hcheck)⟩
      | ok _ => exact absurd ⟨c, hc, Variant.suited_iff.2 ⟨not_not.1 hlength, hcheck⟩⟩ hnone

theorem makeVariant_filled (hwf : h.WellFormed) (hlow : index < 2 ^ 31) :
    (makeVariant t index args).Ends w h
      (fun v h' => ∃ c, Variant.construct w t index = .ok c ∧ w.registry.Suited c.params.values args ∧
        h'.Owns v c.size ∧ Variant.Filled w.registry c h'.memory v t index args) (· = h) := by
  refine (makeVariant_ends hwf t index args).imp ?_ fun _ => id
  rintro v _ ⟨c, h', hc, hlength, hcheck, hg, htype, hnumber, rfl⟩
  obtain ⟨-, hpacked⟩ := Variant.construct_ok hc
  have hsuited := Variant.suited_iff.2 ⟨hlength, hcheck⟩
  have hkept := Variant.sameOn_fill h'.memory v (Variant.offset_of_construct hc args)
  have hheader : VariantLayout.headerSize = 16 := rfl
  have hplace : Variant.constructOffset = 8 := rfl
  refine ⟨c, hc, hsuited, hg.owned, ?_, ?_, fun i p k s hp hk hs => ?_⟩
  · exact (hkept.mono (b := v.toNat) (Nat.zero_le _) (by omega)).typeOf.trans htype
  · exact (hkept.mono (Nat.zero_le _) (by omega)).count.trans (hnumber hlow)
  · exact Variant.read_fill h'.memory v hpacked.apart hsuited hp hs hk

end Action

theorem Registry.Built.construct_iff (hb : w.registry.Built) (ht : w.registry.get? t = some (.enum name ds)) :
    Variant.construct w t index = .ok c ↔ ∃ d, ds[index]? = some d ∧ w.registry.constructLayout d = .ok c := by
  obtain ⟨l, hl⟩ := hb.variantLayout ht
  obtain ⟨ds', hget, hall⟩ := variantLayout_ok hl
  obtain ⟨-, rfl⟩ := Descriptor.enum.inj (Option.some.inj (ht.symm.trans hget))
  rw [Variant.construct_eq_ok]
  constructor
  · rintro ⟨l', hl', hc⟩
    obtain rfl : l = l' := Except.ok.inj (hl.symm.trans hl')
    obtain ⟨hi, rfl⟩ := List.getElem?_eq_some_iff.1 hc
    have hlt : index < ds.length := hall.length_eq ▸ hi
    exact ⟨_, List.getElem?_eq_getElem hlt, hall.get hlt hi⟩
  · rintro ⟨d, hd, hc⟩
    obtain ⟨hlt, rfl⟩ := List.getElem?_eq_some_iff.1 hd
    have hi : index < l.constructs.length := hall.length_eq ▸ hlt
    refine ⟨l, hl, ?_⟩
    rw [VariantLayout.construct?, List.getElem?_eq_getElem hi]
    exact congrArg some (Except.ok.inj ((hall.get hlt hi).symm.trans hc))

/-- An enum value can be made of a construct of its type and of as many slots as this has parameters, each of
the kind of its parameter, if there is a block for it, and of nothing else. It is read as it was made, as no
other construct and with no other parameters, for as long as the program runs. The header holds the number of
the construct as an `Int32`, which is what bounds it. -/
theorem Reachable.makeVariant_reads (hb : r.Built) (hr : Reachable r held h values) (hw : w.registry = r)
    (ht : r.get? t = some (.enum name ds)) (index : Nat) (args : List Slot) :
    ((∃ v h', Action.makeVariant t index args w h = (.ok v, h')) ↔
      ∃ d c, ds[index]? = some d ∧ r.Suited d.params args ∧ r.constructLayout d = .ok c ∧
        h.HasBlock c.size (.ofBool c.hasPointer)) ∧
    ((∃ e h', Action.makeVariant t index args w h = (.error (.error e), h')) ↔
      ¬∃ d, ds[index]? = some d ∧ r.Suited d.params args) ∧
    ∀ v h', Action.makeVariant t index args w h = (.ok v, h') → index < 2 ^ 31 →
      ∀ s, Run r held (h', values ∪ h.newValues r values h') s →
        ∀ w', w'.registry = r → Variant.Reads w' s.1.memory v index args := by
  subst hw
  have hsound := hr.sound hb
  refine ⟨?_, ?_, ?_⟩
  · rw [Action.makeVariant_isOk]
    constructor
    · rintro ⟨c, hc, hsuited, hblock⟩
      obtain ⟨d, hd, hlayout⟩ := (hb.construct_iff ht).1 hc
      exact ⟨d, c, hd, (Registry.constructLayout_ok hlayout).2.1 ▸ hsuited, hlayout, hblock⟩
    · rintro ⟨d, c, hd, hsuited, hlayout, hblock⟩
      exact ⟨c, (hb.construct_iff ht).2 ⟨d, hd, hlayout⟩,
        (Registry.constructLayout_ok hlayout).2.1.symm ▸ hsuited, hblock⟩
  · rw [Action.makeVariant_isError, not_iff_not]
    constructor
    · rintro ⟨c, hc, hsuited⟩
      obtain ⟨d, hd, hlayout⟩ := (hb.construct_iff ht).1 hc
      exact ⟨d, hd, (Registry.constructLayout_ok hlayout).2.1 ▸ hsuited⟩
    · rintro ⟨d, hd, hsuited⟩
      obtain ⟨c, hlayout⟩ := hb.constructLayout ht (List.mem_of_getElem? hd)
      exact ⟨c, (hb.construct_iff ht).2 ⟨d, hd, hlayout⟩,
        (Registry.constructLayout_ok hlayout).2.1.symm ▸ hsuited⟩
  · intro v h' hmade hlow s hrun w' hw'
    obtain ⟨c, hc, hsuited, howns, hfilled⟩ :=
      (Action.makeVariant_filled hsound.arranged.blocks hlow).of_ok hmade
    obtain ⟨values', hkept, hv, htype⟩ := (Action.makeVariant_keeps hsound index args).of_ok hmade
    have hreach := hr.step rfl (.makeVariant t index args) hmade fun _ hfatal => nomatch hfatal
    rw [← hkept.values_eq] at hrun hreach
    have hquiet : v ∈ immutables w.registry values' h'.memory :=
      ⟨hv, .enum, kindAt_of_typeOf htype (Variant.construct_ok hc).1, rfl⟩
    have hsame := (Run.spares hrun hb hreach).2 v hquiet c.size howns
    have hc' : Variant.construct w' t index = .ok c :=
      Variant.construct_eq_ok.2 (hw'.symm ▸ Variant.construct_eq_ok.1 hc)
    have hlater := hfilled.same hc hsame
    rw [← hw'] at hlater hsuited
    exact hlater.reads hc' hsuited

/-! A value with parameters of three kinds, one of them a box, and another value made after it. -/

def Registry.shapeTypes : Registry :=
  ⟨(Descriptor.builtins ++ ([.enum "Shape" [⟨"Empty", []⟩, ⟨"Circle", [.f64]⟩,
    ⟨"Tagged", [.i8, .f64, .dynamic]⟩]] : List Descriptor)).toArray⟩

theorem Registry.shapeTypes_built : shapeTypes.Built :=
  .of_adds (shapeTypes.types.toList.drop Descriptor.builtins.length) (by decide +kernel) (by decide +kernel)

def taggedArguments : List Slot := [.i8 (-3), .f64 0x3FF0000000000000, .pointer 0x10010]

def shapesHeap : Heap :=
  ((do
    let _ ← Action.boxNumber (.i32 7) .i32
    let _ ← Action.makeVariant (.ofIndex 12) 2 taggedArguments
    Action.makeVariant (.ofIndex 12) 1 [.f64 0x4004000000000000]) (.ofTypes .shapeTypes) {}).2

theorem shapesHeap_reads :
    Variant.Reads (.ofTypes .shapeTypes) shapesHeap.memory 0x10030 2 taggedArguments := by
  let w : World := .ofTypes .shapeTypes
  let h₀ := (Action.boxNumber (.i32 7) .i32 w {}).2
  let h₁ := (Action.makeVariant (.ofIndex 12) 2 taggedArguments w h₀).2
  let h₂ := (Action.makeVariant (.ofIndex 12) 1 [.f64 0x4004000000000000] w h₁).2
  have hbox : Action.boxNumber (.i32 7) .i32 w {} = (.ok 0x10010, h₀) := Action.eq_of_fst (by decide +kernel)
  have hmade : Action.makeVariant (.ofIndex 12) 2 taggedArguments w h₀ = (.ok 0x10030, h₁) :=
    Action.eq_of_fst (by decide +kernel)
  have hlater : Action.makeVariant (.ofIndex 12) 1 [.f64 0x4004000000000000] w h₁ = (.ok 0x10070, h₂) :=
    Action.eq_of_fst (by decide +kernel)
  have hrun : shapesHeap = h₂ := by
    unfold shapesHeap
    rw [Action.bind_ok hbox, Action.bind_ok hmade]
  have hstart : Reachable .shapeTypes (fun _ _ => False) {} ∅ := .start none
  obtain ⟨values, -, hr⟩ := hstart.after (w := w) rfl (.boxNumber (k := .i32) rfl rfl rfl) hbox
  have hstep : Step .shapeTypes (fun _ _ => False)
      (h₁, values ∪ h₀.newValues .shapeTypes values h₁) (h₂, _) :=
    .operation (w := w) rfl (.makeVariant (.ofIndex 12) 1 [.f64 0x4004000000000000]) hlater
      fun _ hfatal => nomatch hfatal
  have hshape : Registry.shapeTypes.get? (.ofIndex 12) = some (.enum "Shape"
      [⟨"Empty", []⟩, ⟨"Circle", [.f64]⟩, ⟨"Tagged", [.i8, .f64, .dynamic]⟩]) := rfl
  obtain ⟨-, -, hreads⟩ := Reachable.makeVariant_reads (w := w) Registry.shapeTypes_built hr rfl hshape 2
    taggedArguments
  rw [hrun]
  exact hreads 0x10030 h₁ hmade (by decide) _ (.single hstep) w rfl

end ObjectModel
