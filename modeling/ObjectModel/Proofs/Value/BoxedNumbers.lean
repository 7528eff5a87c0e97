import ObjectModel.Proofs.Value.FieldWrites
import ObjectModel.Proofs.Value.Forwarding
import ObjectModel.Proofs.Value.TakenBlocks

/-!
Numbers in boxes. A number that is put in a box is taken out as it was, so a cast by way of a dynamic value
gives what the cast itself gives, and one by way of a nullable value what it gives by way of the type in it.
A box takes a block from the heap; nothing else can go wrong. A read by name casts what is stored.
-/

set_option autoImplicit false
set_option relaxedAutoImplicit false

namespace ObjectModel

variable {r : Registry} {held : Addr → TypeId → Prop} {values : Set Addr} {w : World} {h h' : Heap}
  {m : Memory} {u v : Addr} {hash : NameHash} {address : Nat} {s s' : Slot}
  {t type source target inner : TypeId} {k l : Kind} {n : Number}

theorem Number.exists_toSlot? (hk : k.isNumeric = true) (n : Number) : ∃ s, n.toSlot? k = some s := by
  cases k <;> first | exact ⟨_, rfl⟩ | exact absurd hk Bool.false_ne_true

/-- A slot of a numeric type, and the number in it. -/
structure NumberSlot (r : Registry) (t : TypeId) (k : Kind) (s : Slot) (n : Number) : Prop where
  kind : r.kind? t = some k
  numeric : k.isNumeric = true
  fits : s.fits k = true
  number : Number.ofSlot? s = some n

namespace NumberSlot

theorem of_fits (hk : r.kind? t = some k) (hnumeric : k.isNumeric = true) (hfits : s.fits k = true) :
    ∃ n, NumberSlot r t k s n := by
  rcases Slot.cases_of_fits hfits with ⟨rfl, -⟩ | ⟨-, n, hn⟩ | ⟨hpointer, -⟩
  · cases hnumeric
  · exact ⟨n, hk, hnumeric, hfits, hn⟩
  · simp [Kind.isPointer, hnumeric] at hpointer

theorem exists_of_number (hk : r.kind? t = some k) (hnumeric : k.isNumeric = true) (n : Number) :
    ∃ s n', n.toSlot? k = some s ∧ NumberSlot r t k s n' := by
  obtain ⟨s, hs⟩ := Number.exists_toSlot? hnumeric n
  obtain ⟨n', hslot⟩ := of_fits hk hnumeric (Number.fits_of_toSlot? hs).1
  exact ⟨s, n', hs, hslot⟩

theorem not_selfDescribing (hs : NumberSlot r t k s n) : k.isSelfDescribing = false := by
  have hnumeric := hs.numeric
  cases k <;> first | rfl | cases hnumeric

theorem not_pointer (hs : NumberSlot r t k s n) : k.isPointer = false := by
  rw [Kind.isPointer, hs.numeric, Bool.not_true, Bool.and_false]

end NumberSlot

/-- An address of a dynamic or a nullable type that leads to a box with a number in it. -/
structure Boxed (w : World) (t : TypeId) (m : Memory) (s : Slot) (n : Number) : Prop where
  kind : w.registry.kind? t = some .dynamic ∨ w.registry.kind? t = some .null
  box : ∃ v c inner, s = .pointer v ∧ v ≠ 0 ∧ Box.content w m v = .ok (c, inner) ∧ Number.ofSlot? c = some n

namespace Coercion

theorem number_of_boxed (hs : Boxed w source m s n) (target : TypeId) :
    number w m s source target = .ok n := by
  obtain ⟨hkind, v, c, inner, rfl, hv, hcontent, hn⟩ := hs
  have hnone : Number.ofSlot? (.pointer v) = none := rfl
  obtain ⟨k, hk, hboxed⟩ : ∃ k, w.registry.kind? source = some k ∧ (k = .dynamic ∨ k = .null) := by
    rcases hkind with hk | hk
    · exact ⟨_, hk, Or.inl rfl⟩
    · exact ⟨_, hk, Or.inr rfl⟩
  unfold number
  rw [World.kind_eq_ok.2 hk]
  simp only [hnone, bind, Except.bind, if_pos hboxed, if_neg hv, hcontent, hn]
  rfl

end Coercion

namespace Action

variable {α β : Type} {x y : Action α} {f : α → Action β} {post : α → Heap → Prop} {next : β → Heap → Prop}

theorem cast_of_number (hk : w.registry.kind? source = some k) (hfits : s.fits k = true)
    (hl : w.registry.kind? target = some l) (hnumeric : l.isNumeric = true)
    (hn : Coercion.number w h.memory s source target = .ok n) (hslot : n.toSlot? l = some s') :
    cast s source target w h = (.ok s', h) := by
  have hvoid : l ≠ .void := by
    rintro rfl
    cases hnumeric
  rw [cast_of_fits hk hfits]
  unfold convert
  rw [ask_bind_ok (World.kind_eq_ok.2 hl), if_neg hvoid, if_pos hnumeric, ask_bind_ok hn, hslot]
  rfl

theorem cast_numberSlot (hs : NumberSlot w.registry source k s n) (hl : w.registry.kind? target = some l)
    (hnumeric : l.isNumeric = true) (hslot : n.toSlot? l = some s') :
    cast s source target w h = (.ok s', h) :=
  cast_of_number hs.kind hs.fits hl hnumeric (Coercion.number_of_slot hs.kind hs.numeric hs.number) hslot

theorem cast_boxed (hs : Boxed w source h.memory s n) (hl : w.registry.kind? target = some l)
    (hnumeric : l.isNumeric = true) (hslot : n.toSlot? l = some s') :
    cast s source target w h = (.ok s', h) := by
  have hn := Coercion.number_of_boxed hs target
  obtain ⟨hkind, v, -, -, rfl, -⟩ := hs
  rcases hkind with hk | hk
  · exact cast_of_number hk rfl hl hnumeric hn hslot
  · exact cast_of_number hk rfl hl hnumeric hn hslot

/-! ### Taking a block for a box -/

/-- An operation that takes the block of one box for a number. If there is one, it ends well, with what is
promised; else the program ends with it. -/
structure TakesBox (x : Action α) (w : World) (h : Heap) (post : α → Heap → Prop) : Prop where
  granted : ∀ v h₁, h.allocate 16 .noPointers = .ok (v, h₁) → ∃ a h', x w h = (.ok a, h') ∧ post a h'
  refused : ∀ e, h.allocate 16 .noPointers = .error e → x w h = (.error (.fatal e), h)

theorem takesBox_iff : x.TakesBox w h post ↔ x.TakesBlock Box.size .noPointers w h post :=
  ⟨fun hx => ⟨hx.granted, hx.refused⟩, fun hx => ⟨hx.granted, hx.refused⟩⟩

namespace TakesBox

theorem congr (hy : y.TakesBox w h post) (hxy : x w h = y w h) : x.TakesBox w h post :=
  takesBox_iff.2 ((takesBox_iff.1 hy).congr hxy)

theorem bind (hx : x.TakesBox w h post)
    (hf : ∀ a h', post a h' → ∃ b h'', f a w h' = (.ok b, h'') ∧ next b h'') :
    (x >>= f).TakesBox w h next :=
  takesBox_iff.2 ((takesBox_iff.1 hx).bind hf)

end TakesBox

theorem toDynamic_number (hs : NumberSlot w.registry t k s n) :
    toDynamic s t w h = toDynamic.fill s t w h := by
  unfold toDynamic
  rw [ask_bind_ok (World.kind_eq_ok.2 hs.kind), if_pos hs.fits]
  have hn := hs.number
  cases s with
  | void => cases hn
  | pointer a => cases hn
  | _ => rfl

theorem boxAs_number (hs : NumberSlot w.registry source k s n)
    (hnull : w.registry.get? target = some (.null inner)) (hslot : n.toSlot? l = some s')
    (hl : w.registry.kind? inner = some l) : boxAs s source target w h = toDynamic s' inner w h := by
  have hget : Reading.ofType (w.registry.get target) = .ok (.null inner) :=
    Outcome.mapError_eq_ok.2 (Registry.get_eq_ok.2 hnull)
  have hnarrowed : (do (← Number.ofSlot? s).toSlot? (← w.registry.kind? inner) : Option Slot) = some s' := by
    rw [hs.number, hl]
    exact hslot
  unfold boxAs
  rw [ask_bind_ok hget]
  dsimp only
  rw [world_bind, hnarrowed]

theorem toDynamic_takesBox (hs : NumberSlot w.registry t k s n) :
    (toDynamic s t).TakesBox w h fun v h' => v ≠ 0 ∧ Box.content w h'.memory v = .ok (s, t) := by
  have hfill := (fill_takesBlock (h := h) hs.kind hs.fits).congr (toDynamic_number hs)
  rw [hs.not_pointer] at hfill
  refine takesBox_iff.2 (hfill.imp ?_)
  rintro v h' ⟨hv, rfl, rfl⟩
  refine ⟨hv, ?_⟩
  rw [Box.content_of_boxed hs.kind hs.not_selfDescribing]

/-! ### Casts by way of a box -/

/-- How a number becomes an address of a kind: it goes into a box of its own type to become dynamic, and
into one of the type that is named to become nullable. -/
private def boxFor (s : Slot) (source target : TypeId) : Kind → Action Addr
  | .dynamic => toDynamic s source
  | .null => boxAs s source target
  | _ => fail (.invalidCast source target)

private theorem cast_eq_box (hs : NumberSlot w.registry source k s n) (hl : w.registry.kind? target = some l)
    (hpointer : l.isPointer = true) :
    cast s source target w h =
      (boxFor s source target l >>= fun v => Pure.pure (.pointer v)) w h := by
  obtain ⟨hvoid, hother⟩ : l ≠ .void ∧ l.isNumeric = false := by simpa [Kind.isPointer] using hpointer
  rw [cast_of_fits hs.kind hs.fits]
  unfold convert
  rw [ask_bind_ok (World.kind_eq_ok.2 hl), if_neg hvoid, if_neg (by simp [hother])]
  refine bind_congr ?_
  unfold castPointer
  rw [ask_bind_ok (World.kind_eq_ok.2 hs.kind), ask_bind_ok (World.kind_eq_ok.2 hl)]
  have hn := hs.number
  cases s with
  | void => cases hn
  | pointer a => cases hn
  | _ => cases l <;> rfl

private theorem boxed_takesBox (hs : NumberSlot w.registry inner k s n)
    (hkind : w.registry.kind? target = some .dynamic ∨ w.registry.kind? target = some .null) :
    (toDynamic s inner >>= fun v => Pure.pure (.pointer v)).TakesBox w h
      fun c h' => Boxed w target h'.memory c n :=
  (toDynamic_takesBox hs).bind fun v _ ⟨hv, hcontent⟩ =>
    ⟨_, _, rfl, hkind, v, s, inner, rfl, hv, hcontent, hs.number⟩

theorem cast_dynamic (hs : NumberSlot w.registry source k s n)
    (hdynamic : w.registry.kind? target = some .dynamic) :
    (cast s source target).TakesBox w h fun c h' => Boxed w target h'.memory c n :=
  (boxed_takesBox hs (Or.inl hdynamic)).congr (cast_eq_box hs hdynamic rfl)

theorem cast_nullable {n' : Number} (hs : NumberSlot w.registry source k s n)
    (hnull : w.registry.get? target = some (.null inner)) (hslot : n.toSlot? l = some s')
    (hs' : NumberSlot w.registry inner l s' n') :
    (cast s source target).TakesBox w h fun c h' => Boxed w target h'.memory c n' := by
  have hkind : w.registry.kind? target = some .null := by
    rw [Registry.kind?, hnull]
    rfl
  refine (boxed_takesBox hs' (Or.inr hkind)).congr ((cast_eq_box hs hkind rfl).trans ?_)
  exact bind_congr (boxAs_number hs hnull hslot hs'.kind)

theorem get_of_forward (hs : Arranged w.registry ∅ h values) (hv : v ∈ values)
    (hlocated : Access.locate w h.memory v hash = .ok (.forward u)) (t : TypeId) :
    u ∈ values ∧ get v hash t w h = get u hash t w h := by
  obtain ⟨hu, hroot⟩ := Access.root_of_forward hs hv hlocated
  refine ⟨hu, ?_⟩
  change getFrom hash t (h.blocks.size + 1) v w h = getFrom hash t (h.blocks.size + 1) u w h
  rw [getFrom.eq_def]
  dsimp only
  rw [ask_bind_ok hlocated]
  exact getFrom_root hs hu hroot _ _

end Action

/-- A name leads from a value to a stored field, also by way of other values. -/
inductive Access.Finds (w : World) (m : Memory) (hash : NameHash) : Addr → Nat → TypeId → Prop
  | here {v : Addr} {address : Nat} {type : TypeId} (h : locate w m v hash = .ok (.stored address type)) :
    Finds w m hash v address type
  | passed {v u : Addr} {address : Nat} {type : TypeId} (h : locate w m v hash = .ok (.forward u))
      (hu : Finds w m hash u address type) : Finds w m hash v address type

namespace Action

/-- Wherever a name finds a stored field, what is read is the content of the field, cast from its type. -/
theorem get_of_finds (hs : Arranged w.registry ∅ h values) (hv : v ∈ values)
    (hfound : Access.Finds w h.memory hash v address type) (hk : w.registry.kind? type = some k)
    (t : TypeId) : get v hash t w h = cast (h.memory.read address k) type t w h := by
  induction hfound with
  | here hlocated => exact get_of_stored hlocated hk t
  | passed hlocated _ ih =>
    obtain ⟨hu, hsame⟩ := get_of_forward hs hv hlocated t
    rw [hsame, ih hu hk]

/-- Reads of a name as numbers give what the slot `s` is cast to. -/
structure ReadsNumber (w : World) (h : Heap) (v : Addr) (hash : NameHash) (type : TypeId) (s : Slot) :
    Prop where
  slot : ∀ t k, w.registry.kind? t = some k → k.isNumeric = true →
    ∃ s', cast s type t w h = (.ok s', h) ∧ get v hash t w h = (.ok s', h)
  int32 : ∀ t k, w.registry.kind? t = some k → k.isInteger = true →
    ∃ x, Coercion.toInt32 w h.memory s type t = .ok x ∧ getInt32 v hash t w h = (.ok x, h)
  noInt32 : ∀ t k, w.registry.kind? t = some k → k.isNumeric = true → k.isInteger = false →
    (∃ e, Coercion.toInt32 w h.memory s type t = .error e) ∧
      ∃ e, getInt32 v hash t w h = (.error (.error e), h)
  f32 : ∃ bits, Coercion.toF32 w h.memory s type = .ok bits ∧ getF32 v hash w h = (.ok bits, h)
  f64 : ∃ bits, Coercion.toF64 w h.memory s type = .ok bits ∧ getF64 v hash w h = (.ok bits, h)

private theorem readsNumber_of_get (hs : NumberSlot w.registry type k s n)
    (hf32 : w.registry.kind? .f32 = some .f32) (hf64 : w.registry.kind? .f64 = some .f64)
    (hget : ∀ t, get v hash t w h = cast s type t w h) : ReadsNumber w h v hash type s := by
  have hslot {t : TypeId} {l : Kind} {s' : Slot} (hl : w.registry.kind? t = some l)
      (hnumeric : l.isNumeric = true) (hs' : n.toSlot? l = some s') :
      cast s type t w h = (.ok s', h) ∧ get v hash t w h = (.ok s', h) := by
    have hcast := cast_numberSlot (h := h) hs hl hnumeric hs'
    exact ⟨hcast, (hget t).trans hcast⟩
  have hnumber (t : TypeId) : Coercion.number w h.memory s type t = .ok n :=
    Coercion.number_of_slot hs.kind hs.numeric hs.number
  refine ⟨?_, ?_, ?_, ?_, ?_⟩
  · intro t l hl hnumeric
    obtain ⟨s', hs'⟩ := Number.exists_toSlot? hnumeric n
    exact ⟨s', hslot hl hnumeric hs'⟩
  · intro t l hl hinteger
    have hnumeric : l.isNumeric = true := by cases l <;> first | rfl | cases hinteger
    unfold Coercion.toInt32
    rw [hnumber, World.kind_eq_ok.2 hl]
    cases l with
    | i8 => exact ⟨_, rfl, bind_ok (hslot hl hnumeric rfl).2⟩
    | i16 => exact ⟨_, rfl, bind_ok (hslot hl hnumeric rfl).2⟩
    | i32 => exact ⟨_, rfl, bind_ok (hslot hl hnumeric rfl).2⟩
    | bool => exact ⟨_, rfl, bind_ok (hslot hl hnumeric rfl).2⟩
    | _ => cases hinteger
  · intro t l hl hnumeric hinteger
    unfold Coercion.toInt32
    rw [hnumber, World.kind_eq_ok.2 hl]
    cases l with
    | f32 => exact ⟨⟨_, rfl⟩, _, bind_ok (hslot hl hnumeric rfl).2⟩
    | f64 => exact ⟨⟨_, rfl⟩, _, bind_ok (hslot hl hnumeric rfl).2⟩
    | _ => first
      | exact absurd hnumeric Bool.false_ne_true
      | exact absurd hinteger.symm Bool.false_ne_true
  · refine ⟨n.toF32, ?_, bind_ok (hslot hf32 rfl rfl).2⟩
    rw [Coercion.toF32, hnumber]
    rfl
  · refine ⟨n.toF64, ?_, bind_ok (hslot hf64 rfl rfl).2⟩
    rw [Coercion.toF64, hnumber]
    rfl

end Action

/-- A number that is cast by way of a dynamic value becomes what it is cast to itself, and by way of a
nullable value what it becomes by way of the type in it; this fails only if the heap has no block for the
box, and then the program ends. What is read by name from a stored field, in every heap that a program can
have, is what the content of the field is cast to, for all kinds of numbers. -/
theorem Registry.Built.boxed_numbers {a : TypeId} {ka : Kind} (hb : r.Built) (hw : w.registry = r)
    (ha : r.kind? a = some ka) (hnumeric : ka.isNumeric = true) (hfits : s.fits ka = true) :
    (∀ b kb d, r.kind? b = some kb → kb.isNumeric = true → r.kind? d = some .dynamic →
      ∃ s', Action.cast s a b w h = (.ok s', h) ∧
        (Action.cast s a d >>= fun c => Action.cast c d b).TakesBox w h fun c _ => c = s') ∧
    (∀ b kb u ku nullable, r.kind? b = some kb → kb.isNumeric = true → r.kind? u = some ku →
      ku.isNumeric = true → r.get? nullable = some (.null u) →
        ∃ s₁ s', Action.cast s a u w h = (.ok s₁, h) ∧ Action.cast s₁ u b w h = (.ok s', h) ∧
          (Action.cast s a nullable >>= fun c => Action.cast c nullable b).TakesBox w h
            fun c _ => c = s') ∧
    ∀ held values v hash address, Reachable r held h values → v ∈ values →
      Access.Finds w h.memory hash v address a → h.memory.read address ka = s →
        Action.ReadsNumber w h v hash a s := by
  subst hw
  obtain ⟨n, hs⟩ := NumberSlot.of_fits ha hnumeric hfits
  refine ⟨?_, ?_, ?_⟩
  · intro b kb d hkb hnumeric' hd
    obtain ⟨s', hs'⟩ := Number.exists_toSlot? hnumeric' n
    refine ⟨s', Action.cast_numberSlot hs hkb hnumeric' hs', ?_⟩
    exact (Action.cast_dynamic hs hd).bind fun c h' hc =>
      ⟨s', h', Action.cast_boxed hc hkb hnumeric' hs', rfl⟩
  · intro b kb u ku nullable hkb hnumeric' hku hu hnull
    obtain ⟨s₁, n₁, hnarrowed, hs₁⟩ := NumberSlot.exists_of_number hku hu n
    obtain ⟨s', hs'⟩ := Number.exists_toSlot? hnumeric' n₁
    refine ⟨s₁, s', Action.cast_numberSlot hs hku hu hnarrowed,
      Action.cast_numberSlot hs₁ hkb hnumeric' hs', ?_⟩
    exact (Action.cast_nullable hs hnull hnarrowed hs₁).bind fun c h' hc =>
      ⟨s', h', Action.cast_boxed hc hkb hnumeric' hs', rfl⟩
  · intro held values v hash address hr hv hfound hread
    have hf32 : w.registry.kind? .f32 = some .f32 := by
      rw [Registry.kind?, hb.get?_builtin (t := .f32) (d := .f32) rfl]
      rfl
    have hf64 : w.registry.kind? .f64 = some .f64 := by
      rw [Registry.kind?, hb.get?_builtin (t := .f64) (d := .f64) rfl]
      rfl
    refine Action.readsNumber_of_get hs hf32 hf64 fun t => ?_
    rw [← hread]
    exact Action.get_of_finds (hr.sound hb).arranged hv hfound ha t

/-! A field with a fraction in it, whose whole part is zero. -/

def Registry.fractionTypes : Registry :=
  ⟨(Descriptor.builtins ++
    ([.object ⟨"Fraction", none, [⟨"half", .f64⟩], []⟩, .null .f64] : List Descriptor)).toArray⟩

theorem Registry.fractionTypes_built : Registry.fractionTypes.Built :=
  .of_adds (Registry.fractionTypes.types.toList.drop Descriptor.builtins.length) (by decide +kernel)
    (by decide +kernel)

/-- One half is true, also when it comes out of a box or is read by name. -/
theorem half_boxed : ∃ h values,
    Reachable .fractionTypes (fun _ _ => False) h values ∧
    (∃ h', (Action.cast (.f64 0x3FE0000000000000) .f64 .dynamic >>= fun c => Action.cast c .dynamic .bool)
      (.ofTypes .fractionTypes) h = (.ok (.bool true), h')) ∧
    (∃ h', (Action.cast (.f64 0x3FE0000000000000) .f64 (.ofIndex 13) >>= fun c =>
      Action.cast c (.ofIndex 13) .bool) (.ofTypes .fractionTypes) h = (.ok (.bool true), h')) ∧
    Action.get 0x10010 (Name.hash "half") .bool (.ofTypes .fractionTypes) h = (.ok (.bool true), h) ∧
    Action.getInt32 0x10010 (Name.hash "half") .bool (.ofTypes .fractionTypes) h = (.ok 1, h) := by
  let w : World := .ofTypes .fractionTypes
  let h₀ := (Action.newInstance (.ofIndex 12) w {}).2
  let h := (Action.set 0x10010 (Name.hash "half") .f64 (.f64 0x3FE0000000000000) w h₀).2
  have hnew : Action.newInstance (.ofIndex 12) w {} = (.ok 0x10010, h₀) :=
    Action.eq_of_fst (by decide +kernel)
  have hset : Action.set 0x10010 (Name.hash "half") .f64 (.f64 0x3FE0000000000000) w h₀ = (.ok (), h) :=
    Action.eq_of_fst (by decide +kernel)
  have hb : w.registry.Built := Registry.fractionTypes_built
  have hstart : Reachable .fractionTypes (fun _ _ => False) {} ∅ := .start none
  obtain ⟨values₀, -, hr₀, hv₀, -⟩ := hstart.after_keeps rfl (.newInstance (.ofIndex 12))
    (Action.newInstance_keeps (hstart.sound hb)) hnew
  obtain ⟨values, hsub, hr⟩ := hr₀.after rfl
    (.set (t := .f64) (s := .f64 0x3FE0000000000000) _ hv₀ (.of_numeric (k := .f64) rfl rfl rfl)) hset
  have hfound : Access.Finds w h.memory (Name.hash "half") 0x10010 0x10018 .f64 := .here (by decide +kernel)
  have hf64 : w.registry.kind? .f64 = some .f64 := rfl
  have hbool : w.registry.kind? .bool = some .bool := rfl
  obtain ⟨hdynamic, hnullable, hreads⟩ := hb.boxed_numbers (h := h) (s := .f64 0x3FE0000000000000) rfl hf64
    rfl rfl
  have htrue : Action.cast (.f64 0x3FE0000000000000) .f64 .bool w h = (.ok (.bool true), h) :=
    Action.eq_of_fst (by decide +kernel)
  have hsame : Action.cast (.f64 0x3FE0000000000000) .f64 .f64 w h = (.ok (.f64 0x3FE0000000000000), h) :=
    Action.eq_of_fst (by decide +kernel)
  have hroom : (h.allocate 16 .noPointers).isOk = true := by decide +kernel
  cases hgranted : h.allocate 16 .noPointers with
  | error e =>
    rw [hgranted] at hroom
    cases hroom
  | ok granted =>
    have hr' := hreads _ _ _ _ _ hr (hsub hv₀) hfound (by decide +kernel)
    refine ⟨h, values, hr, ?_, ?_, ?_, ?_⟩
    · obtain ⟨s', hcast, hboxes⟩ := hdynamic _ _ .dynamic hbool rfl rfl
      obtain ⟨c, h', hrun, rfl⟩ := hboxes.granted _ _ hgranted
      cases htrue.symm.trans hcast
      exact ⟨h', hrun⟩
    · obtain ⟨s₁, s', hcast₁, hcast, hboxes⟩ := hnullable _ _ .f64 .f64 (.ofIndex 13) hbool rfl hf64 rfl rfl
      obtain ⟨c, h', hrun, rfl⟩ := hboxes.granted _ _ hgranted
      cases hsame.symm.trans hcast₁
      cases htrue.symm.trans hcast
      exact ⟨h', hrun⟩
    · obtain ⟨s', hcast, hget⟩ := hr'.slot _ _ hbool rfl
      cases htrue.symm.trans hcast
      exact hget
    · obtain ⟨x, hcast, hget⟩ := hr'.int32 _ _ hbool rfl
      have hone : Coercion.toInt32 w h.memory (.f64 0x3FE0000000000000) .f64 .bool = .ok 1 := by decide +kernel
      cases hone.symm.trans hcast
      exact hget

end ObjectModel
