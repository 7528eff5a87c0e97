import ObjectModel.Proofs.Value.BoxedNumbers
import ObjectModel.Proofs.Value.CallChecks
import ObjectModel.Proofs.Value.ViewWrites

/-!
Trips of addresses through dynamic values. A value that carries its type is dynamic as it is, and any other
address goes into a box, out of which it is taken again; so what comes back is the address that was given.
Nullable types are the exception: a number that becomes nullable goes into a new box, whatever box it comes
from. A dynamic field is such a stop on the way, but for an open object that is written to by name, whose field
takes on the type of what is written.
-/

set_option autoImplicit false
set_option relaxedAutoImplicit false

namespace ObjectModel

variable {r : Registry} {held : Addr → TypeId → Prop} {values values' : Set Addr} {h h' : Heap} {m m' : Memory}
  {a b p u v x : Addr} {source target t d : TypeId} {k l : Kind} {s : Slot} {w : World} {hash : NameHash}

namespace Box

theorem payload_pointer (hpointer : k.isPointer = true) : payload m v k = .pointer (pointer m v) := by
  cases k <;> first | rfl | cases hpointer

end Box

/-- What an address of a type is as a dynamic value: itself, or a box of the type that holds it. -/
def Carries (r : Registry) (m : Memory) (t : TypeId) (k : Kind) (p b : Addr) : Prop :=
  (k.isRaw = false ∧ b = p) ∨
    (k.isRaw = true ∧ b ≠ 0 ∧ r.sameType (m.typeOf b) t = true ∧ Box.pointer m b = p)

namespace Carries

theorem self (hself : k.isSelfDescribing = true) : Carries r m t k p p :=
  Or.inl ⟨by simp [Kind.isRaw, hself], rfl⟩

theorem ne_zero (hcarries : Carries r m t k p b) (hp : p ≠ 0) : b ≠ 0 := by
  rcases hcarries with ⟨-, rfl⟩ | ⟨-, hb, -⟩
  · exact hp
  · exact hb

theorem goesOn (hcarries : Carries r m t k p b) (hk : r.kind? t = some k) (hb : b ∈ values)
    (hg : GoesOn r values m values' m') : Carries r m' t k p b := by
  refine hcarries.imp_right ?_
  rintro ⟨hraw, hne, hsame, hpointer⟩
  have hkind : r.kindAt m b = some k := (Registry.kind?_eq_of_sameType hsame).trans hk
  refine ⟨hraw, hne, ?_, (hg.pointer b hb k hkind hraw).trans hpointer⟩
  rw [hg.type b hb]
  exact hsame

end Carries

namespace Action

theorem cast_pointer (hsource : w.registry.kind? source = some k) (hk : k.isPointer = true)
    (htarget : w.registry.kind? target = some l) (hl : l.isPointer = true) :
    cast (.pointer a) source target w h =
      (castPointer (.pointer a) source target >>= fun b => Pure.pure (.pointer b)) w h := by
  obtain ⟨hvoid, hnumeric⟩ : l ≠ .void ∧ l.isNumeric = false := by simpa [Kind.isPointer] using hl
  rw [cast_of_fits hsource (s := .pointer a) hk]
  unfold convert
  rw [ask_bind_ok (World.kind_eq_ok.2 htarget), if_neg hvoid, if_neg (by simp [hnumeric])]

/-! ### Into dynamic values -/

theorem cast_raw_takesBlock (hk : w.registry.kind? t = some k) (hraw : k.isRaw = true)
    (hp : p ≠ 0) (hd : w.registry.kind? d = some .dynamic) :
    (cast (.pointer p) t d).TakesBlock Box.size .pointers w h fun s h' =>
      ∃ b, s = .pointer b ∧ Carries w.registry h'.memory t k p b := by
  obtain ⟨hpointer, hself⟩ : k.isPointer = true ∧ k.isSelfDescribing = false := by
    simpa [Kind.isRaw] using hraw
  have hother : w.registry.sameType t d = false := by
    refine Registry.sameType_eq_false_of_kind hk hd ?_
    rintro rfl
    cases hraw
  have hfill : castPointer (.pointer p) t d w h = toDynamic.fill (.pointer p) t w h := by
    unfold castPointer toDynamic
    rw [ask_bind_ok (World.kind_eq_ok.2 hk), ask_bind_ok (World.kind_eq_ok.2 hd)]
    dsimp only
    rw [world_bind, hother, if_neg (by simp [hp]), if_pos rfl, if_neg (by simp [hself]),
      ask_bind_ok (World.kind_eq_ok.2 hk), if_pos (show Slot.fits (.pointer p) k = true from hpointer),
      if_neg (by simp [hp, hself])]
  have htaken := (fill_takesBlock hk (s := .pointer p) hpointer).congr hfill
  rw [hpointer] at htaken
  refine (htaken.bind ?_).congr (cast_pointer hk hpointer hd rfl)
  rintro b h' ⟨hb, htype, hpayload⟩
  refine ⟨_, h', rfl, b, rfl, Or.inr ⟨hraw, hb, ?_, ?_⟩⟩
  · rw [htype]
    exact Registry.sameType_refl _ _
  · rw [Box.payload_pointer hpointer] at hpayload
    exact Slot.pointer.inj hpayload

theorem cast_selfDescribing (hk : w.registry.kind? t = some k) (hself : k.isSelfDescribing = true)
    (hd : w.registry.kind? d = some .dynamic) :
    cast (.pointer p) t d w h = (.ok (.pointer p), h) := by
  have hpointer := Kind.isPointer_of_isSelfDescribing hself
  rw [cast_pointer hk hpointer hd rfl, bind_ok (castPointer_selfDescribing hk hself hd)]
  rfl

/-! ### Out of dynamic values -/

theorem castActual_same {actual : TypeId} (hactual : w.registry.kind? actual = some k)
    (hsame : w.registry.sameType actual t = true)
    (hk : k.isRaw = true ∨ k = .function ∨ k = .dynobj ∨ k = .enum) :
    castActual a actual t k w h = (.ok a, h) := by
  unfold castActual
  rw [world_bind, ask_bind_ok (World.kind_eq_ok.2 hactual)]
  cases k with
  | bytes | type | ref | abstract | function | dynobj | enum =>
    dsimp only
    rw [if_pos hsame]
    rfl
  | _ => simp [Kind.isRaw, Kind.isPointer, Kind.isNumeric, Kind.isSelfDescribing] at hk

theorem castActual_array (harray : w.registry.kindAt h.memory a = some .array) :
    castActual a (h.memory.typeOf a) t .array w h = (.ok a, h) := by
  unfold castActual
  rw [world_bind, ask_bind_ok (World.kind_eq_ok.2 harray)]
  rfl

theorem castPointer_boxed (hb : b ≠ 0) (hd : w.registry.kind? d = some .dynamic)
    (hk : w.registry.kind? t = some k) (hraw : k.isRaw = true)
    (hsame : w.registry.sameType (h.memory.typeOf b) t = true) :
    castPointer (.pointer b) d t w h = (.ok (Box.pointer h.memory b), h) := by
  have hbox : w.registry.kind? (h.memory.typeOf b) = some k := (Registry.kind?_eq_of_sameType hsame).trans hk
  have hne : k ≠ .dynamic := by
    rintro rfl
    cases hraw
  have hother : w.registry.sameType d t = false := Registry.sameType_eq_false_of_kind hd hk hne.symm
  have hactual : Coercion.actual w h.memory b d .dynamic =
      .ok (Box.pointer h.memory b, h.memory.typeOf b) := by
    unfold Coercion.actual
    rw [if_pos (show Kind.dynamic.isSelfDescribing = true from rfl)]
    dsimp only
    rw [World.kind_eq_ok.2 hbox]
    change Except.ok ((if k.isRaw = true then _ else _), _) = _
    rw [if_pos hraw]
  unfold castPointer
  rw [ask_bind_ok (World.kind_eq_ok.2 hd), ask_bind_ok (World.kind_eq_ok.2 hk)]
  dsimp only
  rw [world_bind, hother, if_neg (by simp [hb]), if_neg hne, ask_bind_ok hactual]
  exact castActual_same hbox hsame (Or.inl hraw)

theorem castPointer_leadsTo (hp : p ≠ 0) (hd : w.registry.kind? d = some .dynamic)
    (hk : w.registry.kind? t = some k) (hself : k.isSelfDescribing = true) (hnull : k ≠ .null)
    (hleads : LeadsTo w.registry held values h.memory t p k) :
    castPointer (.pointer p) d t w h = (.ok p, h) := by
  by_cases hdynamic : k = .dynamic
  · exact castPointer_selfDescribing hd rfl (hdynamic ▸ hk)
  have hvalue {l : Kind} (hl : w.registry.kindAt h.memory p = some l) (hraw : l.isRaw = false) :
      castPointer (.pointer p) d t w h = castActual p (h.memory.typeOf p) t k w h :=
    castPointer_value hp (Registry.sameType_eq_false_of_kind hd hk (Ne.symm hdynamic)) hd rfl hk hdynamic hl hraw
  have hkind (hsame : w.registry.sameType (h.memory.typeOf p) t = true) :
      w.registry.kindAt h.memory p = some k :=
    (Registry.kind?_eq_of_sameType hsame).trans hk
  cases k with
  | dynamic => exact absurd rfl hdynamic
  | null => exact absurd rfl hnull
  | object =>
    have hl := Registry.kind?_of_isSubclass hleads.2 hk
    exact (hvalue hl rfl).trans (castActual_subclass hl hleads.2)
  | array => exact (hvalue hleads.2 rfl).trans (castActual_array hleads.2)
  | virtual =>
    have hl := hkind hleads.2
    rw [hvalue hl rfl, castActual_view hl (Or.inr (Or.inr rfl))]
    exact toViewFrom_self hl hleads.2 _
  | function => exact (hvalue (hkind hleads.2) rfl).trans (castActual_same (hkind hleads.2) hleads.2 (by simp))
  | dynobj => exact (hvalue (hkind hleads.2) rfl).trans (castActual_same (hkind hleads.2) hleads.2 (by simp))
  | enum => exact (hvalue (hkind hleads.2) rfl).trans (castActual_same (hkind hleads.2) hleads.2 (by simp))
  | _ => cases hself

theorem cast_carried (hp : p ≠ 0) (hd : w.registry.kind? d = some .dynamic)
    (hk : w.registry.kind? t = some k) (hpointer : k.isPointer = true) (hnull : k ≠ .null)
    (hleads : k.isRaw = false → LeadsTo w.registry held values h.memory t p k)
    (hcarries : Carries w.registry h.memory t k p b) :
    cast (.pointer b) d t w h = (.ok (.pointer p), h) := by
  rw [cast_pointer hd rfl hk hpointer]
  rcases hcarries with ⟨hraw, rfl⟩ | ⟨hraw, hb, hsame, rfl⟩
  · have hself : k.isSelfDescribing = true := by simpa [Kind.isRaw, hpointer] using hraw
    rw [bind_ok (castPointer_leadsTo hp hd hk hself hnull (hleads hraw))]
    rfl
  · rw [bind_ok (castPointer_boxed hb hd hk hraw hsame)]
    rfl

theorem cast_nullable_takesBlock {inner : TypeId} (hwf : h.WellFormed) (hp : p ≠ 0)
    (hd : w.registry.kind? d = some .dynamic) (ht : w.registry.get? t = some (.null inner))
    (hl : w.registry.kindAt h.memory p = some l) (hnumeric : l.isNumeric = true)
    (hsame : w.registry.sameType (h.memory.typeOf p) inner = true) :
    (cast (.pointer p) d t).TakesBlock Box.size .noPointers w h fun s h' =>
      ∃ q, s = .pointer q ∧ Gained h h' q Box.size ∧ h'.memory.typeOf q = inner ∧
        Box.payload h'.memory q l = Box.payload h.memory p l := by
  have hk : w.registry.kind? t = some .null := by
    rw [Registry.kind?, ht]
    rfl
  have hinner : w.registry.kind? inner = some l := (Registry.kind?_eq_of_sameType hsame).symm.trans hl
  have hfits : (Box.payload h.memory p l).fits l = true := Slot.fits_ofWord l _
  obtain ⟨n, hslot⟩ := NumberSlot.of_fits hinner hnumeric hfits
  have hstored : NumberSlot w.registry (h.memory.typeOf p) l (Box.payload h.memory p l) n :=
    ⟨hl, hnumeric, hfits, hslot.number⟩
  have hrun : castPointer (.pointer p) d t w h = toDynamic.fill (Box.payload h.memory p l) inner w h := by
    have hother := Registry.sameType_eq_false_of_kind hd hk (by decide)
    rw [castPointer_value hp hother hd rfl hk (by decide) hl (by simp [Kind.isRaw, hslot.not_pointer])]
    unfold castActual
    rw [world_bind, ask_bind_ok (World.kind_eq_ok.2 hl)]
    dsimp only
    rw [if_pos hnumeric, ask_bind_ok (Box.content_of_boxed hl hslot.not_selfDescribing)]
    exact (boxAs_number hstored ht (Number.toSlot?_of_ofSlot? hslot.number hfits) hinner).trans
      (toDynamic_number hslot)
  have htaken := ((fill_takesBlock hinner hfits).and_ends (fill_ends hwf _ _)).congr hrun
  rw [hslot.not_pointer] at htaken
  refine (htaken.bind ?_).congr (cast_pointer hd rfl hk rfl)
  rintro q h' ⟨⟨-, htype, hpayload⟩, hg⟩
  exact ⟨_, h', rfl, q, rfl, hg, htype, hpayload⟩

end Action

namespace Access

/-- A write to the name goes by the name to an open object, which is the value or is shown by it. -/
def WritesByName (w : World) (m : Memory) (x : Addr) (hash : NameHash) : Prop :=
  ∃ u, w.registry.kindAt m u = some .dynobj ∧ (x = u ∨ locate w m x hash = .ok (.forward u))

theorem Finds.exists_root (hs : Arranged w.registry ∅ h values) (hx : x ∈ values) {address : Nat}
    (hfound : Finds w h.memory hash x address d) :
    ∃ u ∈ values, RootOf w.registry h.memory u x ∧
      ∃ type, locate w h.memory u hash = .ok (.stored address type) ∧ w.registry.sameType type d = true := by
  cases hfound with
  | here hlocated =>
    rcases root_or_view hlocated with hroot | ⟨hk, hshown⟩
    · exact ⟨x, hx, .self (hs.ne_zero hx) hroot, d, hlocated, Registry.sameType_refl _ _⟩
    · obtain ⟨l, -, hat⟩ := hs.views x hx hk
      obtain ⟨hu, hroot, -⟩ := hat.shown hshown
      obtain ⟨target, htarget, hmirrors⟩ := locate_mirrors hs hx hk hshown hash
      obtain rfl : target = .stored address d := Except.ok.inj (htarget.symm.trans hlocated)
      cases hmirrors with
      | stored hstored hsame => exact ⟨_, hu, ⟨hshown, hroot, Or.inr ⟨hk, rfl⟩⟩, _, hstored, hsame⟩
  | passed hlocated hrest =>
    obtain ⟨hu, hroot, -⟩ := rootOf_of_forward hs hx hlocated
    cases hrest with
    | here hstored => exact ⟨_, hu, hroot, d, hstored, Registry.sameType_refl _ _⟩
    | passed hforward _ => exact absurd hforward (not_forward_of_root hs hu hroot.root _)

theorem Finds.of_root (hs : Arranged w.registry ∅ h values) (hx : x ∈ values) {address : Nat} {type : TypeId}
    (hroot : RootOf w.registry h.memory u x) (hlocated : locate w h.memory u hash = .ok (.stored address type)) :
    ∃ d, Finds w h.memory hash x address d ∧ w.registry.sameType type d = true := by
  rcases hroot.reached with rfl | ⟨hk, rfl⟩
  · exact ⟨type, .here hlocated, Registry.sameType_refl _ _⟩
  · obtain ⟨target, htarget, hmirrors⟩ := locate_mirrors hs hx hk hroot.ne_zero hash
    generalize View.wrapped h.memory x = shown at *
    cases hmirrors with
    | stored hstored hsame =>
      cases Except.ok.inj (hlocated.symm.trans hstored)
      exact ⟨_, .here htarget, hsame⟩
    | method hmethod => cases hlocated.symm.trans hmethod
    | forward => exact ⟨type, .passed htarget (.here hlocated), Registry.sameType_refl _ _⟩

theorem Finds.same (hs : Arranged w.registry ∅ h values) (hs' : Arranged w.registry ∅ h' values)
    (hx : x ∈ values) (hsame : ∀ v ∈ values, SameValue w.registry h.memory h'.memory v) {address : Nat}
    (hfound : Finds w h.memory hash x address d) :
    ∃ d', Finds w h'.memory hash x address d' ∧ w.registry.sameType d d' = true := by
  obtain ⟨u, hu, hroot, type, hlocated, hd⟩ := hfound.exists_root hs hx
  have hlocated' := locate_same hs hs' hu hroot.root (hsame u hu) hlocated
  have hroot' := hroot.goesOn (goesOn_of_sameValue hsame) hu hx
  obtain ⟨d', hfound', hd'⟩ := Finds.of_root hs' hx hroot' hlocated'
  exact ⟨d', hfound', Registry.sameType_trans (Registry.sameType_symm hd) hd'⟩

end Access

namespace Action

/-- A write to a field that a name finds, but for those by the name to open objects, puts a cast there. -/
theorem set_of_found (hs : Arranged w.registry ∅ h values) (hx : x ∈ values) {address : Nat}
    (hfound : Access.Finds w h.memory hash x address d) (hcast : ¬Access.WritesByName w h.memory x hash)
    (hk : w.registry.kind? t = some k) (hfits : s.fits k = true) :
    set x hash t s w h = (cast s t d >>= fun s' => change (·.write address s')) w h := by
  have hset {v : Addr} (hv : v ∈ values) (hopen : w.registry.kindAt h.memory v ≠ some .dynobj)
      (hlocated : Access.locate w h.memory v hash = .ok (.stored address d)) :
      set v hash t s w h = (cast s t d >>= fun s' => change (·.write address s')) w h := by
    obtain ⟨l, hl, -⟩ := hs.kinds v hv
    refine set_of_stored hl ?_ hlocated hk hfits
    rintro rfl
    exact hopen hl
  cases hfound with
  | here hlocated => exact hset hx (fun hopen => hcast ⟨x, hopen, Or.inl rfl⟩) hlocated
  | passed hlocated hrest =>
    obtain ⟨hu, hroot, hkx⟩ := Access.rootOf_of_forward hs hx hlocated
    rw [set_forwarded hs hu hroot.root hkx hlocated]
    cases hrest with
    | here hstored => exact hset hu (fun hopen => hcast ⟨_, hopen, Or.inr hlocated⟩) hstored
    | passed hforward _ => exact absurd hforward (Access.not_forward_of_root hs hu hroot.root _)

theorem set_selfDescribing (hs : Arranged w.registry ∅ h values) (hx : x ∈ values) {address : Nat}
    (hfound : Access.Finds w h.memory hash x address d) (hd : w.registry.kind? d = some .dynamic)
    (hcast : ¬Access.WritesByName w h.memory x hash) (hk : w.registry.kind? t = some k)
    (hself : k.isSelfDescribing = true) :
    set x hash t (.pointer p) w h =
      (.ok (), { h with memory := h.memory.write address (.pointer p) }) := by
  have hpointer := Kind.isPointer_of_isSelfDescribing hself
  rw [set_of_found hs hx hfound hcast hk (s := .pointer p) hpointer,
    bind_ok (cast_selfDescribing hk hself hd)]
  rfl

theorem set_dynamic (hs : Sound w.registry held ∅ h values) (hx : x ∈ values) {address : Nat}
    (hfound : Access.Finds w h.memory hash x address d) (hd : w.registry.kind? d = some .dynamic)
    (hcast : ¬Access.WritesByName w h.memory x hash)
    (hslot : WellTyped w.registry held values h.memory t (.pointer p)) (hk : w.registry.kind? t = some k)
    {h₁ : Heap} (hrun : cast (.pointer p) t d w h = (.ok (.pointer b), h₁)) (hp : p ≠ 0)
    (hcarries : Carries w.registry h₁.memory t k p b) :
    ∃ h', set x hash t (.pointer p) w h = (.ok (), h') ∧ Arranged w.registry ∅ h' values ∧
      h'.memory = h₁.memory.write address (.pointer b) ∧
      (∃ values', GoesOn w.registry values h.memory values' h'.memory) ∧
      Carries w.registry h'.memory t k p b ∧
      ∃ d', w.registry.kind? d' = some .dynamic ∧
        ∀ t', get x hash t' w h' = cast (.pointer b) d' t' w h' := by
  obtain ⟨values₁, hkept, hslot₁⟩ := (cast_keeps hs hslot).of_ok hrun
  have hmem : b ∈ values₁ := (hslot₁.leadsTo hd (hcarries.ne_zero hp)).mem_values rfl
  obtain ⟨u, hu, hroot, type, hlocated, hsame⟩ := hfound.exists_root hs.arranged hx
  have htype : w.registry.kind? type = some .dynamic := (Registry.kind?_eq_of_sameType hsame).trans hd
  obtain ⟨-, b', o, hholds, rfl⟩ := Access.stored_root hs.arranged hu hroot.root hlocated
  -- The write leaves all values as they are: those that there were, and those that the cast has added.
  obtain ⟨hsound, hvalues₁⟩ := hkept.sound.store (hkept.holds b' o type hholds)
    (hslot₁.of_sameType (Registry.sameType_symm hsame)) rfl
  have hgrown := (cast_grows hs hslot.suits).of_ok hrun
  have hfits' : Slot.fits (.pointer b) .dynamic = true := rfl
  obtain ⟨hs', hvalues⟩ := hs.arranged.set_field hu hroot.root hlocated htype hfits' hgrown rfl
  obtain ⟨d', hfound', hsame'⟩ := hfound.same hs.arranged hs' hx hvalues
  have hd' : w.registry.kind? d' = some .dynamic := (Registry.kind?_eq_of_sameType hsame').symm.trans hd
  refine ⟨_, (set_of_found hs.arranged hx hfound hcast hk (hslot.fits hk)).trans (bind_ok hrun), hs', rfl,
    ⟨values₁, hkept.goesOn.trans (goesOn_of_sameValue hvalues₁)⟩,
    hcarries.goesOn hk hmem (goesOn_of_sameValue hvalues₁), d', hd', fun t' => ?_⟩
  rw [get_of_finds hs' hx hfound' hd' t', Memory.read_write_same _ _ rfl]

/-! ### Open objects that are written to by name -/

theorem retypeField_dynamic {f : OpenField} {position : Nat} (hf : w.registry.kind? f.type = some .dynamic)
    (hoffset : 8 ∣ f.offset) (hk : w.registry.kind? t = some k) (hpointer : k.isPointer = true) :
    ∃ h', retypeField v position f t w h = (.ok { f with type := t }, h') := by
  have hsize : k.size = 8 ∧ k.align = 8 := by cases k <;> first | exact ⟨rfl, rfl⟩ | cases hpointer
  have hplace : k.size ≤ Kind.dynamic.size ∧ k.alignUp f.offset = f.offset := by
    obtain ⟨n, hn⟩ := hoffset
    refine ⟨hsize.1.le, ?_⟩
    rw [Kind.alignUp, hsize.2, hn]
    omega
  unfold retypeField
  rw [ask_bind_ok (World.kind_eq_ok.2 hk), ask_bind_ok (World.kind_eq_ok.2 hf)]
  dsimp only
  rw [if_pos hplace]
  exact ⟨_, rfl⟩

private theorem store_succeeds (f : OpenField) (s : Slot) : ∃ h', setOpenField.store v s f w h = (.ok (), h') := by
  unfold setOpenField.store change
  exact ⟨_, rfl⟩

theorem setOpenField_dynamic (hs : Ordered w.registry ∅ h values) (hv : v ∈ values)
    (hopen : w.registry.kindAt h.memory v = some .dynobj) {f : OpenField}
    (hfound : OpenObject.find? (OpenObject.table h.memory v) hash = some f)
    (hf : w.registry.kind? f.type = some .dynamic) (hk : w.registry.kind? t = some k)
    (hpointer : k.isPointer = true) :
    ∃ h', setOpenField v hash t (.pointer p) w h = (.ok (), h') ∧
      Wrote w.registry values v hash t (.pointer p) h h' := by
  have hends := setOpenField_wrote hs hv hopen hash hk (s := .pointer p) hpointer
  obtain ⟨l, hl, halign, -⟩ := (hs.arranged.opens v hv hopen).placed f (OpenObject.mem_of_find? hfound).1
  obtain rfl := Option.some.inj (hf.symm.trans hl)
  by_cases hsame : w.registry.sameType f.type t = true
  · have hrun : setOpenField v hash t (.pointer p) w h = setOpenField.store v (.pointer p) f w h := by
      unfold setOpenField
      rw [look_bind, hfound]
      dsimp only
      rw [world_bind, if_pos hsame]
    obtain ⟨h', hstored⟩ := store_succeeds (v := v) (h := h) (w := w) f (.pointer p)
    exact ⟨h', hrun.trans hstored, hends.of_ok (hrun.trans hstored)⟩
  · obtain ⟨h₁, hretyped⟩ : ∃ h₁, retypeField v (OpenObject.position (OpenObject.table h.memory v) hash) f t
        w h = (.ok { f with type := t }, h₁) :=
      retypeField_dynamic hf halign hk hpointer
    obtain ⟨h₂, hstored⟩ := store_succeeds (v := v) (h := h₁) (w := w) { f with type := t } (.pointer p)
    have hrun : setOpenField v hash t (.pointer p) w h = refreshViews v w h₂ := by
      unfold setOpenField
      rw [look_bind, hfound]
      dsimp only
      rw [world_bind, if_neg hsame, bind_ok hretyped, bind_ok hstored]
    obtain ⟨result, h', hend⟩ : ∃ result h', refreshViews v w h₂ = (result, h') :=
      ⟨_, _, Prod.mk.eta.symm⟩
    rcases hends.ok_or_fatal (hrun.trans hend) with ⟨⟨⟩, rfl, hwrote⟩ | ⟨e, rfl⟩
    · exact ⟨h', hrun.trans hend, hwrote⟩
    · exact absurd (congrArg Prod.fst hend) (refreshViews_safe v w h₂ e)

theorem set_openField (hopen : w.registry.kindAt h.memory v = some .dynobj)
    (hk : w.registry.kind? t = some k) (hfits : s.fits k = true) :
    set v hash t s w h = setOpenField v hash t s w h := by
  have hkind : w.kindOf h.memory v = .ok .dynobj := World.kind_eq_ok.2 hopen
  unfold set
  rw [ask_bind_ok (World.kind_eq_ok.2 hk), if_pos hfits]
  change setFrom hash t s (h.blocks.size + 1) v w h = _
  rw [setFrom.eq_def]
  dsimp only
  rw [ask_bind_ok hkind, if_pos rfl]

theorem get_of_wrote (hv : v ∈ values) (hopen : w.registry.kindAt h.memory v = some .dynobj)
    (hwrote : Wrote w.registry values v hash t s h h') (hk : w.registry.kind? t = some k) :
    get v hash t w h' = (.ok s, h') := by
  have hopen' := (hwrote.goesOn.kindAt hv).trans hopen
  have ho := hwrote.ordered.arranged.opens v hv hopen'
  obtain ⟨f, rfl, hsame, hgot, hread⟩ := hwrote.field
  have hf : w.registry.kind? f.type = some k := (Registry.kind?_eq_of_sameType hsame).trans hk
  have hmem : f ∈ OpenObject.table h'.memory v := (hgot.mem f).2 (Or.inl rfl)
  rw [get_openField hopen' (OpenObject.find?_hash ho.sorted hmem) hf hsame, hread k hf]

/-- An address that is written by name to a dynamic field of an open object is read from it again, directly or
through a view. -/
theorem set_get_byName (hs : Ordered w.registry ∅ h values) (hx : x ∈ values) {address : Nat}
    (hfound : Access.Finds w h.memory hash x address d) (hd : w.registry.kind? d = some .dynamic)
    (hname : Access.WritesByName w h.memory x hash) (hk : w.registry.kind? t = some k)
    (hpointer : k.isPointer = true) :
    ∃ h', set x hash t (.pointer p) w h = (.ok (), h') ∧ ∃ h'', get x hash t w h' = (.ok (.pointer p), h'') := by
  obtain ⟨u, hopen, hreached⟩ := hname
  have hrootOf : IsRoot w.registry h.memory u := Or.inr (Or.inl hopen)
  obtain ⟨hu, hroot, hsame⟩ : u ∈ values ∧ RootOf w.registry h.memory u x ∧
      set x hash t (.pointer p) w h = set u hash t (.pointer p) w h := by
    rcases hreached with rfl | hlocated
    · exact ⟨hx, .self (hs.arranged.ne_zero hx) hrootOf, rfl⟩
    · obtain ⟨hu, hroot, hkx⟩ := Access.rootOf_of_forward hs.arranged hx hlocated
      exact ⟨hu, hroot, set_forwarded hs.arranged hu hrootOf hkx hlocated⟩
  obtain ⟨f, hstored, hf⟩ : ∃ f, OpenObject.find? (OpenObject.table h.memory u) hash = some f ∧
      w.registry.kind? f.type = some .dynamic := by
    obtain ⟨u', hu', hroot', type, hlocated, hsame'⟩ := hfound.exists_root hs.arranged hx
    obtain rfl := hroot.unique hroot'
    rw [Access.locate_open hopen hash] at hlocated
    cases hfind : OpenObject.find? (OpenObject.table h.memory u) hash with
    | none =>
      rw [hfind] at hlocated
      cases hlocated
    | some f =>
      rw [hfind] at hlocated
      obtain ⟨-, rfl⟩ := Target.stored.inj (Except.ok.inj hlocated)
      exact ⟨f, rfl, (Registry.kind?_eq_of_sameType hsame').trans hd⟩
  obtain ⟨h', hrun, hwrote⟩ := setOpenField_dynamic hs hu hopen hstored hf hk hpointer
  have hread := get_of_wrote hu hopen hwrote hk
  refine ⟨h', (hsame.trans (set_openField hopen hk hpointer)).trans hrun, ?_⟩
  rcases (hroot.goesOn hwrote.goesOn hu hx).reached with rfl | ⟨hkx, hwrapped⟩
  · exact ⟨h', hread⟩
  · have hne : View.wrapped h'.memory x ≠ 0 := hwrapped ▸ hroot.ne_zero
    refine ((getFrom_view hwrote.ordered.arranged hx hkx hne h'.blocks.size).iff _).2 ⟨h', ?_⟩
    rw [hwrapped]
    exact hread

end Action

theorem Arranged.payload_write (hs : Arranged r ∅ h values) (hv : v ∈ values)
    (hl : r.kindAt h.memory v = some l) (hnumeric : l.isNumeric = true) {o : Nat}
    (hb : Holds r values h.memory b o t) (hk : r.kind? t = some k) (hfits : s.fits k = true) :
    Box.payload (h.memory.write (b.toNat + o) s) v l = Box.payload h.memory v l := by
  have hheader : headerSize r h.memory v = Box.size := headerSize_of_boxed hl (by simp [Kind.isBoxed, hnumeric])
  have hsize : Box.payloadOffset + l.size ≤ Box.size := by cases l <;> decide
  have hwidth : s.width = k.size := Slot.width_of_fits hfits
  have hapart := hs.header_apart hb hk hv
  have hchange := Memory.changesOnly_write h.memory (b.toNat + o) s
  have hsame : h.memory.SameOn (h.memory.write (b.toNat + o) s) (v.toNat + Box.payloadOffset) l.size :=
    hchange.sameOn (by omega)
  exact hsame.read

/-- Another box, not among the values, that holds the same number of a type that is the same. -/
structure Reboxed (w : World) (values : Set Addr) (m m' : Memory) (p q : Addr) : Prop where
  new : q ∉ values
  number : ∃ s n u u', Box.content w m p = .ok (s, u) ∧ Box.content w m' q = .ok (s, u') ∧
    Number.ofSlot? s = some n ∧ w.registry.sameType u u' = true

/-- How an address of a type of the given kind comes back when it has become dynamic. What carries its type
comes back itself, and so does a raw address, for which one box is taken on the way there. A nullable value
comes back as another box with the same number, which is taken on the way back. -/
structure ComesBack (w : World) (values : Set Addr) (h : Heap) (k : Kind) (p : Addr) {α : Type}
    (there : Action α) (back : α → Action Slot) : Prop where
  self : k.isSelfDescribing = true → k ≠ .null →
    ∃ c h', there w h = (.ok c, h') ∧ back c w h' = (.ok (.pointer p), h')
  raw : k.isRaw = true →
    there.TakesBlock Box.size .pointers w h fun c h' => back c w h' = (.ok (.pointer p), h')
  nullable : k = .null → ∃ c h', there w h = (.ok c, h') ∧
    (back c).TakesBlock Box.size .noPointers w h' fun s h'' =>
      ∃ q, s = .pointer q ∧ Reboxed w values h.memory h''.memory p q

namespace Action

theorem cast_reboxed (hs : Arranged w.registry ∅ h' values) (hp : p ≠ 0)
    (hd : w.registry.kind? d = some .dynamic) (hg : GoesOn w.registry values h.memory values' h'.memory)
    (hleads : LeadsTo w.registry held values h.memory t p .null)
    (hpayload : ∀ l, w.registry.kindAt h.memory p = some l → l.isNumeric = true →
      Box.payload h'.memory p l = Box.payload h.memory p l) :
    (cast (.pointer p) d t).TakesBlock Box.size .noPointers w h' fun s h'' =>
      ∃ q, s = .pointer q ∧ Reboxed w values h.memory h''.memory p q := by
  obtain ⟨hmem, inner, l, ht, hl, hnumeric, hsame⟩ := hleads
  have htype := hg.type p hmem
  have hl' : w.registry.kindAt h'.memory p = some l := (hg.kindAt hmem).trans hl
  have hsame' : w.registry.sameType (h'.memory.typeOf p) inner = true := by
    rw [htype]
    exact hsame
  refine (cast_nullable_takesBlock hs.blocks hp hd ht hl' hnumeric hsame').imp ?_
  rintro s h'' ⟨q, rfl, hgained, hq, hcopied⟩
  refine ⟨q, rfl, hgained.new hs, ?_⟩
  have hinner : w.registry.kind? inner = some l := (Registry.kind?_eq_of_sameType hsame).symm.trans hl
  have hfits : (Box.payload h.memory p l).fits l = true := Slot.fits_ofWord l _
  obtain ⟨n, hslot⟩ := NumberSlot.of_fits hinner hnumeric hfits
  refine ⟨Box.payload h.memory p l, n, h.memory.typeOf p, inner, ?_, ?_, hslot.number, hsame⟩
  · exact Box.content_of_boxed hl hslot.not_selfDescribing
  · rw [Box.content_of_boxed (kindAt_of_typeOf hq hinner) hslot.not_selfDescribing, hcopied,
      hpayload l hl hnumeric, hq]

/-- The trip of an address through a dynamic type. -/
theorem cast_comesBack (hs : Arranged w.registry ∅ h values) (hp : p ≠ 0)
    (hd : w.registry.kind? d = some .dynamic) (hk : w.registry.kind? t = some k)
    (hleads : LeadsTo w.registry held values h.memory t p k) :
    ComesBack w values h k p (cast (.pointer p) t d) fun s => cast s d t := by
  refine ⟨fun hself hnull => ?_, fun hraw => ?_, ?_⟩
  · have hpointer := Kind.isPointer_of_isSelfDescribing hself
    exact ⟨_, h, cast_selfDescribing hk hself hd,
      cast_carried hp hd hk hpointer hnull (fun _ => hleads) (.self hself)⟩
  · have hpointer := Kind.isPointer_of_isRaw hraw
    have hnull : k ≠ .null := by
      rintro rfl
      cases hraw
    refine (cast_raw_takesBlock hk hraw hp hd).imp ?_
    rintro s h' ⟨b, rfl, hcarries⟩
    have hnone : k.isRaw = false → LeadsTo w.registry held values h'.memory t p k := by
      rw [hraw]
      nofun
    exact cast_carried hp hd hk hpointer hnull hnone hcarries
  · rintro rfl
    refine ⟨_, h, cast_selfDescribing hk rfl hd, ?_⟩
    exact cast_reboxed hs hp hd (.refl _ _ _) hleads fun _ _ _ => rfl

/-- The trip of an address through a dynamic field to which casts are written. -/
theorem set_comesBack (hs : Sound w.registry held ∅ h values) (hx : x ∈ values) {address : Nat}
    (hfound : Access.Finds w h.memory hash x address d) (hd : w.registry.kind? d = some .dynamic)
    (hcast : ¬Access.WritesByName w h.memory x hash) (hp : p ≠ 0)
    (hslot : WellTyped w.registry held values h.memory t (.pointer p)) (hk : w.registry.kind? t = some k) :
    ComesBack w values h k p (set x hash t (.pointer p)) fun _ => get x hash t := by
  have hleads := hslot.leadsTo hk hp
  have hpointer : k.isPointer = true := hslot.fits hk
  refine ⟨fun hself hnull => ?_, fun hraw => ?_, ?_⟩
  · obtain ⟨h', hset, -, -, ⟨values', hg⟩, hcarries, d', hd', hget⟩ := set_dynamic hs hx hfound hd hcast hslot hk
      (cast_selfDescribing hk hself hd) hp (.self hself)
    have hleads' := (hslot.goesOn hg).leadsTo hk hp
    exact ⟨(), h', hset, (hget t).trans (cast_carried hp hd' hk hpointer hnull (fun _ => hleads') hcarries)⟩
  · have hnull : k ≠ .null := by
      rintro rfl
      cases hraw
    have htaken := cast_raw_takesBlock (h := h) hk hraw hp hd
    have hset := set_of_found hs.arranged hx hfound hcast hk (s := .pointer p) hpointer
    constructor
    · intro v h₁ hgranted
      obtain ⟨_, h₂, hrun, b, rfl, hcarries⟩ := htaken.granted v h₁ hgranted
      obtain ⟨h', hset, -, -, ⟨values', hg⟩, hcarries', d', hd', hget⟩ :=
        set_dynamic hs hx hfound hd hcast hslot hk hrun hp hcarries
      have hleads' := (hslot.goesOn hg).leadsTo hk hp
      exact ⟨(), h', hset, (hget t).trans (cast_carried hp hd' hk hpointer hnull (fun _ => hleads') hcarries')⟩
    · intro e hrefused
      exact hset.trans (bind_error (htaken.refused e hrefused))
  · rintro rfl
    obtain ⟨h', hset, hs', hmemory, ⟨values', hg⟩, -, d', hd', hget⟩ := set_dynamic hs hx hfound hd hcast hslot hk
      (cast_selfDescribing hk rfl hd) hp (.self rfl)
    refine ⟨(), h', hset, (cast_reboxed hs' hp hd' hg hleads fun l hl hnumeric => ?_).congr (hget t)⟩
    obtain ⟨u, hu, hroot, type, hlocated, hsame⟩ := hfound.exists_root hs.arranged hx
    obtain ⟨-, b, o, hholds, rfl⟩ := Access.stored_root hs.arranged hu hroot.root hlocated
    rw [hmemory]
    exact hs.arranged.payload_write hleads.1 hl hnumeric hholds
      ((Registry.kind?_eq_of_sameType hsame).trans hd) rfl

end Action

/-- An address, not null, that becomes dynamic and then comes back, in every heap that a program can have. On
the way there only a raw address takes a block; what carries its type is dynamic as it is. It comes back itself,
unless its type is nullable; then another box comes back with the same number. So it is for casts to dynamic
types and back, and for writes to dynamic fields and reads of them. Only a write that goes by the name to an open
object changes the type of the field, and then all addresses come back themselves. -/
theorem Reachable.roundTrips (hb : r.Built) (hr : Reachable r held h values) (hw : w.registry = r)
    (hslot : WellTyped r held values h.memory t (.pointer p)) (hp : p ≠ 0) (hk : r.kind? t = some k) :
    (∀ d, r.kind? d = some .dynamic →
      (k.isSelfDescribing = true → Action.cast (.pointer p) t d w h = (.ok (.pointer p), h)) ∧
      ComesBack w values h k p (Action.cast (.pointer p) t d) fun s => Action.cast s d t) ∧
    ∀ x ∈ values, ∀ hash address d, Access.Finds w h.memory hash x address d → r.kind? d = some .dynamic →
      (¬Access.WritesByName w h.memory x hash →
        (k.isSelfDescribing = true → Action.set x hash t (.pointer p) w h =
          (.ok (), { h with memory := h.memory.write address (.pointer p) })) ∧
        ComesBack w values h k p (Action.set x hash t (.pointer p)) fun _ => Action.get x hash t) ∧
      (Access.WritesByName w h.memory x hash →
        ∃ h', Action.set x hash t (.pointer p) w h = (.ok (), h') ∧
          ∃ h'', Action.get x hash t w h' = (.ok (.pointer p), h'')) := by
  subst hw
  have hs := hr.sound hb
  refine ⟨?_, ?_⟩
  · intro d hd
    exact ⟨fun hself => Action.cast_selfDescribing hk hself hd,
      Action.cast_comesBack hs.arranged hp hd hk (hslot.leadsTo hk hp)⟩
  · intro x hx hash address d hfound hd
    refine ⟨fun hcast => ⟨?_, Action.set_comesBack hs hx hfound hd hcast hp hslot hk⟩,
      fun hname => Action.set_get_byName hs.toOrdered hx hfound hd hname hk (hslot.fits hk)⟩
    exact Action.set_selfDescribing hs.arranged hx hfound hd hcast hk

/-! An instance with a dynamic field, and a number in a box. -/

def Registry.anyTypes : Registry :=
  ⟨(Descriptor.builtins ++
    ([.object ⟨"Any", none, [⟨"any", .dynamic⟩], []⟩, .null .i32] : List Descriptor)).toArray⟩

theorem Registry.anyTypes_built : anyTypes.Built :=
  .of_adds (anyTypes.types.toList.drop Descriptor.builtins.length) (by decide +kernel) (by decide +kernel)

def anyHeap : Heap :=
  ((do
    let _ ← Action.newInstance (.ofIndex 12)
    Action.boxNumber (.i32 5) .i32) (.ofTypes .anyTypes) {}).2

theorem anyHeap_reachable (held : Addr → TypeId → Prop) :
    ∃ values, Reachable .anyTypes held anyHeap values ∧ 0x10010 ∈ values ∧ 0x10030 ∈ values := by
  let w : World := .ofTypes .anyTypes
  let h₀ := (Action.newInstance (.ofIndex 12) w {}).2
  let h₁ := (Action.boxNumber (.i32 5) .i32 w h₀).2
  have hnew : Action.newInstance (.ofIndex 12) w {} = (.ok 0x10010, h₀) := Action.eq_of_fst (by decide +kernel)
  have hbox : Action.boxNumber (.i32 5) .i32 w h₀ = (.ok 0x10030, h₁) := Action.eq_of_fst (by decide +kernel)
  have hrun : anyHeap = h₁ := by
    unfold anyHeap
    rw [Action.bind_ok hnew]
  have hb : w.registry.Built := Registry.anyTypes_built
  have hstart : Reachable .anyTypes held {} ∅ := .start none
  obtain ⟨values₀, -, hr₀, hv, -⟩ := hstart.after_keeps rfl (.newInstance (.ofIndex 12))
    (Action.newInstance_keeps (hstart.sound hb)) hnew
  obtain ⟨values₁, hsub, hr₁, hp, -⟩ := hr₀.after_keeps rfl (.boxNumber (k := .i32) rfl rfl rfl)
    (Action.boxNumber_keeps (hr₀.sound hb) rfl rfl rfl) hbox
  rw [hrun]
  exact ⟨values₁, hr₁, hsub hv, hp⟩

/-- An address of raw bytes comes back through the dynamic type, and through the dynamic field. -/
theorem anyHeap_bytes :
    (∃ h', (Action.cast (.pointer 0xBEEF) .bytes .dynamic >>= fun s => Action.cast s .dynamic .bytes)
      (.ofTypes .anyTypes) anyHeap = (.ok (.pointer 0xBEEF), h')) ∧
    ∃ h', (Action.set 0x10010 (Name.hash "any") .bytes (.pointer 0xBEEF) >>= fun _ =>
      Action.get 0x10010 (Name.hash "any") .bytes) (.ofTypes .anyTypes) anyHeap = (.ok (.pointer 0xBEEF), h') := by
  let w : World := .ofTypes .anyTypes
  let held : Addr → TypeId → Prop := fun a t => a = 0xBEEF ∧ t = .bytes
  obtain ⟨values, hr, hv, -⟩ := anyHeap_reachable held
  have hslot : WellTyped .anyTypes held values anyHeap.memory .bytes (.pointer 0xBEEF) :=
    .of_leadsTo (k := .bytes) rfl rfl (Or.inl ⟨.bytes, ⟨rfl, rfl⟩, Registry.sameType_refl _ _⟩)
  have hlocated : Access.locate w anyHeap.memory 0x10010 (Name.hash "any") = .ok (.stored 0x10018 .dynamic) := by
    decide +kernel
  have hobject : Registry.anyTypes.kindAt anyHeap.memory 0x10010 = some .object := by decide +kernel
  have hcast : ¬Access.WritesByName w anyHeap.memory 0x10010 (Name.hash "any") := by
    rintro ⟨u, hopen, rfl | hforward⟩
    · exact kindAt_ne hobject (by decide) hopen
    · cases hlocated.symm.trans hforward
  obtain ⟨hcasts, hfields⟩ := hr.roundTrips (w := w) (k := .bytes) Registry.anyTypes_built rfl hslot (by decide) rfl
  have hblock : (anyHeap.allocate (.ofNat Box.size) .pointers).map Prod.fst = .ok 0x10050 := by decide +kernel
  obtain ⟨⟨v, h₁⟩, hgranted, -⟩ := Outcome.map_eq_ok.1 hblock
  constructor
  · obtain ⟨s, h', hthere, hback⟩ := ((hcasts .dynamic rfl).2.raw rfl).granted v h₁ hgranted
    exact ⟨h', (Action.bind_ok hthere).trans hback⟩
  · obtain ⟨hstays, -⟩ := hfields 0x10010 hv (Name.hash "any") 0x10018 .dynamic (.here hlocated) rfl
    obtain ⟨⟨⟩, h', hset, hget⟩ := ((hstays hcast).2.raw rfl).granted v h₁ hgranted
    exact ⟨h', (Action.bind_ok hset).trans hget⟩

/-- A number in a box is of the nullable type, and does not come back in this box. -/
theorem anyHeap_nullable : ∃ values, Reachable .anyTypes (fun _ _ => False) anyHeap values ∧
    WellTyped .anyTypes (fun _ _ => False) values anyHeap.memory (.ofIndex 13) (.pointer 0x10030) ∧
    (∃ h', (Action.cast (.pointer 0x10030) (.ofIndex 13) .dynamic >>= fun s =>
      Action.cast s .dynamic (.ofIndex 13)) (.ofTypes .anyTypes) anyHeap = (.ok (.pointer 0x10050), h')) ∧
    0x10010 ∈ values ∧
    Access.locate (.ofTypes .anyTypes) anyHeap.memory 0x10010 (Name.hash "any") =
      .ok (.stored 0x10018 .dynamic) ∧
    ∃ h', (Action.set 0x10010 (Name.hash "any") (.ofIndex 13) (.pointer 0x10030) >>= fun _ =>
      Action.get 0x10010 (Name.hash "any") (.ofIndex 13)) (.ofTypes .anyTypes) anyHeap =
        (.ok (.pointer 0x10050), h') := by
  obtain ⟨values, hr, hv, hp⟩ := anyHeap_reachable fun _ _ => False
  have hslot : WellTyped .anyTypes (fun _ _ => False) values anyHeap.memory (.ofIndex 13) (.pointer 0x10030) :=
    .of_leadsTo (k := .null) (by decide +kernel) rfl
      ⟨hp, .i32, .i32, by decide +kernel, by decide +kernel, rfl, by decide +kernel⟩
  exact ⟨values, hr, hslot, ⟨_, Action.eq_of_fst (by decide +kernel)⟩, hv, by decide +kernel,
    _, Action.eq_of_fst (by decide +kernel)⟩

end ObjectModel
