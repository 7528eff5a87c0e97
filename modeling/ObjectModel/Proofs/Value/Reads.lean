import ObjectModel.Proofs.Value.Access

/-!
What a read by name gives. A slot that is read at a type that is the same as its own comes out as it is,
and the heap stays. So the fields of an open object are read back, and all other names are refused.
-/

set_option autoImplicit false
set_option relaxedAutoImplicit false

namespace ObjectModel

variable {w : World} {h : Heap} {m : Memory} {v : Addr} {s : Slot} {source target t : TypeId} {k : Kind}
  {hash : NameHash} {f : OpenField}

theorem Number.toSlot?_of_ofSlot? {n : Number} (hn : ofSlot? s = some n) (hfits : s.fits k = true) :
    n.toSlot? k = some s := by
  cases s with
  | void => cases hn
  | pointer a => cases hn
  | bool b =>
    obtain rfl := Option.some.inj hn
    obtain rfl : k = .bool := beq_iff_eq.1 hfits
    cases b <;> rfl
  | i8 n =>
    obtain rfl := Option.some.inj hn
    obtain rfl : k = .i8 := beq_iff_eq.1 hfits
    simp [toSlot?, toInt32]
  | i16 n =>
    obtain rfl := Option.some.inj hn
    obtain rfl : k = .i16 := beq_iff_eq.1 hfits
    simp [toSlot?, toInt32]
  | i32 n =>
    obtain rfl := Option.some.inj hn
    obtain rfl : k = .i32 := beq_iff_eq.1 hfits
    rfl
  | f32 bits =>
    obtain rfl := Option.some.inj hn
    obtain rfl : k = .f32 := beq_iff_eq.1 hfits
    rfl
  | f64 bits =>
    obtain rfl := Option.some.inj hn
    obtain rfl : k = .f64 := beq_iff_eq.1 hfits
    rfl

theorem Slot.cases_of_fits (hfits : s.fits k = true) :
    (k = .void ∧ s = .void) ∨ (k.isNumeric = true ∧ ∃ n, Number.ofSlot? s = some n) ∨
      (k.isPointer = true ∧ ∃ a, s = .pointer a) := by
  cases s with
  | void => exact Or.inl ⟨beq_iff_eq.1 hfits, rfl⟩
  | pointer a => exact Or.inr (Or.inr ⟨hfits, a, rfl⟩)
  | _ =>
    refine Or.inr (Or.inl ⟨?_, _, rfl⟩)
    rw [beq_iff_eq.1 hfits]
    rfl

theorem Coercion.number_of_slot {n : Number} (hk : w.registry.kind? source = some k)
    (hnumeric : k.isNumeric = true) (hn : Number.ofSlot? s = some n) :
    number w m s source target = .ok n := by
  unfold number
  rw [World.kind_eq_ok.2 hk]
  simp only [hn]
  show (if k.isNumeric = true then Pure.pure n else throw _) = Except.ok n
  rw [if_pos hnumeric]
  rfl

namespace Action

theorem ask_bind_ok {α β : Type} {q : World → Memory → Reading α} {f : α → Action β} {a : α}
    (hq : q w h.memory = .ok a) : (ask q >>= f) w h = f a w h :=
  bind_ok (ask_ok hq)

theorem world_bind {α : Type} {f : World → Action α} : (world >>= f) w h = f w w h :=
  rfl

theorem look_bind {α β : Type} {view : Memory → α} {f : α → Action β} :
    (look view >>= f) w h = f (view h.memory) w h :=
  rfl

theorem chainBound_bind {α : Type} {f : Nat → Action α} :
    (chainBound >>= f) w h = f (h.blocks.size + 1) w h :=
  rfl

theorem castPointer_same {a : Addr} (hk : w.registry.kind? source = some k)
    (hsame : w.registry.sameType source target = true) :
    castPointer (.pointer a) source target w h = (.ok a, h) := by
  have htarget : w.registry.kind? target = some k := Registry.kind?_eq_of_sameType hsame ▸ hk
  unfold castPointer
  rw [ask_bind_ok (World.kind_eq_ok.2 hk), ask_bind_ok (World.kind_eq_ok.2 htarget)]
  dsimp only
  rw [world_bind, if_pos (Or.inr hsame)]
  rfl

theorem convert_same (hk : w.registry.kind? source = some k) (hfits : s.fits k = true)
    (hsame : w.registry.sameType source target = true) : convert s source target w h = (.ok s, h) := by
  have htarget : w.registry.kind? target = some k := Registry.kind?_eq_of_sameType hsame ▸ hk
  unfold convert
  rw [ask_bind_ok (World.kind_eq_ok.2 htarget)]
  rcases Slot.cases_of_fits hfits with ⟨rfl, rfl⟩ | ⟨hnumeric, n, hn⟩ | ⟨hpointer, a, rfl⟩
  · rw [if_pos rfl]
    rfl
  · have hvoid : k ≠ .void := by
      rintro rfl
      cases hnumeric
    rw [if_neg hvoid, if_pos hnumeric, ask_bind_ok (Coercion.number_of_slot hk hnumeric hn),
      Number.toSlot?_of_ofSlot? hn hfits]
    rfl
  · obtain ⟨hvoid, hnumeric⟩ : k ≠ .void ∧ k.isNumeric = false := by
      simpa [Kind.isPointer] using hpointer
    rw [if_neg hvoid, if_neg (by simp [hnumeric]), bind_ok (castPointer_same hk hsame)]
    rfl

end Action

namespace Action

/-- A field of an open object is read at a type that is the same as its own. -/
theorem get_openField (hk : w.registry.kindAt h.memory v = some .dynobj)
    (hfound : OpenObject.find? (OpenObject.table h.memory v) hash = some f)
    (hf : w.registry.kind? f.type = some k) (hsame : w.registry.sameType f.type t = true) :
    get v hash t w h =
      (.ok (h.memory.read ((OpenObject.storage h.memory v).toNat + f.offset) k), h) := by
  have htarget : w.registry.kind? t = some k := Registry.kind?_eq_of_sameType hsame ▸ hf
  have hlocated := Access.locate_open hk hash
  rw [hfound] at hlocated
  show getFrom hash t (h.blocks.size + 1) v w h = _
  rw [getFrom.eq_def]
  dsimp only
  rw [ask_bind_ok hlocated]
  dsimp only
  rw [ask_bind_ok (World.kind_eq_ok.2 htarget), ask_bind_ok (World.kind_eq_ok.2 hf)]
  exact convert_same hf (Slot.fits_ofWord _ _) hsame

theorem get_openField_none (hk : w.registry.kindAt h.memory v = some .dynobj)
    (hnone : OpenObject.find? (OpenObject.table h.memory v) hash = none) :
    get v hash t w h = (.error (.error (.fieldNotFound hash)), h) := by
  have hlocated := Access.locate_open hk hash
  rw [hnone] at hlocated
  show getFrom hash t (h.blocks.size + 1) v w h = _
  rw [getFrom.eq_def]
  exact bind_error (ask_error hlocated)

end Action

end ObjectModel
