import Mathlib.Data.List.Forall2
import Mathlib.Order.Bounds.Basic
import Mathlib.Order.Nat
import ObjectModel.Proofs.Layout.MemberIndex
import ObjectModel.Proofs.Layout.Members

/-!
Where values are placed in a region: each at a multiple of its alignment, behind all that came before.
The fields of a class, its super classes included, are placed so behind the type word, and those of a
virtual type from the start of its data, and the parameters of an enum's construct behind the number of
the construct.
-/

set_option autoImplicit false
set_option relaxedAutoImplicit false

namespace ObjectModel

theorem eq_or_related_of_pairwise {α : Type} {R : α → α → Prop} {xs : List α} {x y : α}
    (h : xs.Pairwise R) (hx : x ∈ xs) (hy : y ∈ xs) : x = y ∨ R x y ∨ R y x := by
  induction h with
  | nil => cases hx
  | @cons z zs hall _ ih =>
    rcases List.mem_cons.1 hx with hxz | hxz
    · rcases List.mem_cons.1 hy with hyz | hyz
      · exact Or.inl (hxz.trans hyz.symm)
      · exact Or.inr (Or.inl (hxz ▸ hall y hyz))
    · rcases List.mem_cons.1 hy with hyz | hyz
      · exact Or.inr (Or.inr (hyz ▸ hall x hxz))
      · exact ih hxz hyz

namespace Kind

theorem size_le (k : Kind) : k.size ≤ wordSize := by
  cases k <;> decide

theorem align_dvd_wordSize (k : Kind) : k.align ∣ wordSize := by
  cases k <;> decide

theorem align_dvd_size (k : Kind) : k.align ∣ k.size := by
  cases k <;> decide

theorem align_dvd_alignUp (k : Kind) (offset : Nat) : k.align ∣ k.alignUp offset :=
  Nat.dvd_mul_left _ _

theorem isLeast_alignUp (k : Kind) (start : Nat) :
    IsLeast {offset | start ≤ offset ∧ k.align ∣ offset} (k.alignUp start) := by
  refine ⟨⟨k.le_alignUp start, k.align_dvd_alignUp start⟩, ?_⟩
  rintro offset ⟨hle, n, rfl⟩
  show (start + (k.align - 1)) / k.align * k.align ≤ k.align * n
  rw [Nat.mul_comm]
  refine Nat.mul_le_mul_left k.align (Nat.lt_succ_iff.1 ?_)
  rw [Nat.div_lt_iff_lt_mul k.align_pos, Nat.succ_mul, Nat.mul_comm n]
  have := k.align_pos
  omega

theorem alignUp_le_of_dvd {k : Kind} {start offset : Nat} (hle : start ≤ offset) (hdvd : k.align ∣ offset) :
    k.alignUp start ≤ offset :=
  (k.isLeast_alignUp start).2 ⟨hle, hdvd⟩

theorem alignUp_mono {k : Kind} {start offset : Nat} (h : start ≤ offset) :
    k.alignUp start ≤ k.alignUp offset :=
  alignUp_le_of_dvd (h.trans (k.le_alignUp offset)) (k.align_dvd_alignUp offset)

theorem alignUp_of_dvd {k : Kind} {offset : Nat} (h : k.align ∣ offset) : k.alignUp offset = offset := by
  apply Nat.le_antisymm
  · exact alignUp_le_of_dvd le_rfl h
  · exact k.le_alignUp offset

theorem align_dvd_of_alignUp_eq {k : Kind} {offset : Nat} (h : k.alignUp offset = offset) :
    k.align ∣ offset := by
  rw [← h]
  exact k.align_dvd_alignUp offset

end Kind

namespace Region

variable {α β ε : Type} {kindOf : α → Option Kind} {start mid stop : Nat} {region : Region α}

/-- Values one behind the other, each at the least offset behind the one before that suits its kind. -/
inductive LaidOut (kindOf : α → Option Kind) : (start : Nat) → List (Placed α) → (stop : Nat) → Prop
  | nil (start : Nat) : LaidOut kindOf start [] start
  | cons {start stop : Nat} {p : Placed α} {k : Kind} {rest : List (Placed α)} :
    kindOf p.item = some k → IsLeast {offset | start ≤ offset ∧ k.align ∣ offset} p.offset →
      LaidOut kindOf (p.offset + k.size) rest stop → LaidOut kindOf start (p :: rest) stop

theorem laidOut_of_foldlM (regionOf : β → Region α) {step : β → α → Except ε β}
    (hstep : ∀ b item b', step b item = .ok b' →
      ∃ k, kindOf item = some k ∧ regionOf b' = (regionOf b).push k item)
    {items : List α} {b b' : β} (h : items.foldlM step b = .ok b') :
    ∃ own, (regionOf b').items = (regionOf b).items ++ own ∧ own.map Placed.item = items ∧
      LaidOut kindOf (regionOf b).stop own (regionOf b').stop := by
  induction items generalizing b with
  | nil =>
    cases h
    exact ⟨[], (List.append_nil _).symm, rfl, .nil _⟩
  | cons item items ih =>
    rw [List.foldlM_cons] at h
    obtain ⟨b₁, hitem, hrest⟩ := Outcome.bind_eq_ok.1 h
    obtain ⟨k, hk, hpush⟩ := hstep b item b₁ hitem
    obtain ⟨own, hown, hitems, hlaid⟩ := ih hrest
    rw [hpush] at hown hlaid
    refine ⟨⟨item, k.alignUp (regionOf b).stop⟩ :: own, ?_, ?_, ?_⟩
    · simpa [push] using hown
    · rw [List.map_cons, hitems]
    · exact .cons hk (k.isLeast_alignUp _) hlaid

/-- Values placed between an offset and the end of the region, aligned and one behind the other. -/
structure Packed (kindOf : α → Option Kind) (start : Nat) (region : Region α) : Prop where
  start_le : start ≤ region.stop
  placed : ∀ p ∈ region.items, ∃ k, kindOf p.item = some k ∧ start ≤ p.offset ∧
    p.offset + k.size ≤ region.stop ∧ k.align ∣ p.offset
  apart : region.items.Pairwise fun p q => ∀ k, kindOf p.item = some k → p.offset + k.size ≤ q.offset

theorem packed_empty (kindOf : α → Option Kind) (start : Nat) : Packed kindOf start (empty start) :=
  ⟨le_rfl, fun _ hp => absurd hp List.not_mem_nil, .nil⟩

theorem LaidOut.packed {places : List (Placed α)} (h : LaidOut kindOf start places stop) :
    Packed kindOf start ⟨places, stop⟩ := by
  induction h with
  | nil start => exact packed_empty kindOf start
  | @cons start stop p k rest hk hleast _ ih =>
    obtain ⟨hlow, halign⟩ := hleast.1
    have hstop : p.offset + k.size ≤ stop := ih.start_le
    refine ⟨?_, ?_, ?_⟩
    · show start ≤ stop
      omega
    · intro q hq
      rcases List.mem_cons.1 hq with rfl | hq
      · exact ⟨k, hk, hlow, hstop, halign⟩
      · obtain ⟨l, hl, hbehind, hrest⟩ := ih.placed q hq
        exact ⟨l, hl, by omega, hrest⟩
    · refine List.pairwise_cons.2 ⟨fun q hq l hl => ?_, ih.apart⟩
      obtain rfl : k = l := Option.some.inj (hk.symm.trans hl)
      obtain ⟨_, -, hbehind, -⟩ := ih.placed q hq
      exact hbehind

theorem Packed.append (h : Packed kindOf start region) {own : List (Placed α)}
    (hown : LaidOut kindOf region.stop own stop) :
    Packed kindOf start ⟨region.items ++ own, stop⟩ := by
  have hbehind := hown.packed
  have hmid : region.stop ≤ stop := hbehind.start_le
  refine ⟨h.start_le.trans hmid, ?_, ?_⟩
  · intro p hp
    rcases List.mem_append.1 hp with hp | hp
    · obtain ⟨k, hk, hlow, hhigh, halign⟩ := h.placed p hp
      exact ⟨k, hk, hlow, hhigh.trans hmid, halign⟩
    · obtain ⟨k, hk, hlow, hrest⟩ := hbehind.placed p hp
      exact ⟨k, hk, h.start_le.trans hlow, hrest⟩
  · refine List.pairwise_append.2 ⟨h.apart, hbehind.apart, ?_⟩
    intro p hp q hq k hk
    obtain ⟨k', hk', -, hhigh, -⟩ := h.placed p hp
    obtain rfl : k = k' := Option.some.inj (hk.symm.trans hk')
    obtain ⟨_, -, hlow, -⟩ := hbehind.placed q hq
    exact hhigh.trans hlow

theorem Packed.apart_of_mem (h : Packed kindOf start region) {p q : Placed α} {k l : Kind}
    (hp : p ∈ region.items) (hq : q ∈ region.items) (hk : kindOf p.item = some k)
    (hl : kindOf q.item = some l) :
    p = q ∨ p.offset + k.size ≤ q.offset ∨ q.offset + l.size ≤ p.offset := by
  rcases eq_or_related_of_pairwise h.apart hp hq with hpq | hpq | hqp
  · exact Or.inl hpq
  · exact Or.inr (Or.inl (hpq k hk))
  · exact Or.inr (Or.inr (hqp l hl))

end Region

theorem ClassLayout.mem_of_resolve? {c : ClassLayout} {hash : NameHash} {index offset : Nat} {t : TypeId}
    (h : c.resolve? hash = some (.field index offset t)) :
    ∃ p ∈ c.fields, offset = p.offset ∧ t = p.item.type := by
  obtain ⟨e, -, he⟩ := Option.bind_eq_some_iff.1 h
  unfold ClassLayout.member? at he
  split at he
  · obtain ⟨p, hp, heq⟩ := Option.map_eq_some_iff.1 he
    obtain ⟨-, rfl, rfl⟩ := Member.field.inj heq
    exact ⟨p, List.mem_of_getElem? hp, rfl, rfl⟩
  · obtain ⟨p, -, heq⟩ := Option.map_eq_some_iff.1 he
    cases heq

theorem ClassLayout.method_of_resolve? {c : ClassLayout} {hash : NameHash} {slot function : Nat} {t : TypeId}
    (h : c.resolve? hash = some (.method slot function t)) :
    ∃ d, c.methods.get? slot = some d ∧ d.function = function ∧ d.type = t := by
  obtain ⟨e, -, he⟩ := Option.bind_eq_some_iff.1 h
  unfold ClassLayout.member? at he
  split at he
  · obtain ⟨p, -, heq⟩ := Option.map_eq_some_iff.1 he
    cases heq
  · obtain ⟨d, hd, heq⟩ := Option.map_eq_some_iff.1 he
    obtain ⟨rfl, rfl, rfl⟩ := Member.method.inj heq
    exact ⟨d, hd, rfl, rfl⟩

namespace Registry

variable {r : Registry} {t : TypeId}

def fieldKind? (r : Registry) (f : Field) : Option Kind := r.kind? f.type

theorem laidOut_extend {c : Class} {m n : Members} (h : m.extend r c = .ok n) :
    ∃ own, n.fields.items = m.fields.items ++ own ∧ own.map Placed.item = c.fields ∧
      Region.LaidOut r.fieldKind? m.fields.stop own n.fields.stop := by
  obtain ⟨m', hfields, hmethods⟩ := Members.extend_ok h
  have hkeep : n.fields = m'.fields := by
    refine Members.addMethods_ok (motive := fun l => l.fields = m'.fields) ?_ rfl hmethods
    intro l d l' _ hl hd
    rcases Members.addMethod_ok hd with ⟨-, rfl⟩ | ⟨slot, -, -, rfl⟩
    · exact hl
    · exact hl
  rw [hkeep]
  refine Region.laidOut_of_foldlM Members.fields ?_ hfields
  intro l f l' hf
  obtain ⟨k, hk, rfl⟩ := Members.addField_ok hf
  exact ⟨k, hk, rfl⟩

/-- The fields of a class, inherited ones included, are packed behind the type word. -/
theorem classLayout_packed {c : ClassLayout} (h : r.classLayout t = .ok c) :
    Region.Packed r.fieldKind? Kind.wordSize c.members.fields := by
  obtain ⟨cs, -, hm, -⟩ := classLayout_ok h
  generalize c.members = m at hm ⊢
  induction cs generalizing m with
  | nil =>
    cases hm
    exact Region.packed_empty _ _
  | cons c cs ih =>
    obtain ⟨inherited, hrest, hextend⟩ := membersOf_cons_ok hm
    obtain ⟨own, hown, -, hlaid⟩ := laidOut_extend hextend
    have hpacked := (ih inherited hrest).append hlaid
    rwa [← hown] at hpacked

private theorem addViewField_ok {owner : TypeId} {region region' : Region Field} {f : Field}
    (h : r.addViewField owner region f = .ok region') :
    ∃ k, r.fieldKind? f = some k ∧ region' = region.push k f := by
  unfold addViewField at h
  split_ifs at h
  cases hk : r.kind f.type with
  | error e =>
    rw [hk] at h
    cases h
  | ok k =>
    rw [hk] at h
    cases h
    exact ⟨k, kind_eq_ok.1 hk, rfl⟩

/-- The layout of a virtual type has the declared fields, in their order from the start of its data. -/
theorem viewLayout_ok {v : ViewLayout} (h : r.viewLayout t = .ok v) :
    r.get? t = some (.virtual v.fields.values) ∧ v.type = t ∧
      Region.LaidOut r.fieldKind? 0 v.fields.items v.dataSize ∧
      v.index = .ofList (v.fields.values.zipIdx.map fun (f, i) => ⟨f.hash, f.name, f.type, .field i⟩) := by
  unfold viewLayout at h
  obtain ⟨declared, hdeclared, h⟩ := Outcome.bind_eq_ok.1 h
  obtain ⟨fields, hfields, h⟩ := Outcome.bind_eq_ok.1 h
  obtain rfl := Outcome.pure_eq_ok.1 h
  obtain ⟨own, hown, hvalues, hlaid⟩ := Region.laidOut_of_foldlM id (fun _ _ _ => addViewField_ok) hfields
  obtain rfl : own = fields.items := hown.symm
  have hall : fields.values = declared := hvalues
  refine ⟨?_, rfl, hlaid, by rw [hall]⟩
  have hvirtual := Outcome.mapError_eq_ok.1 hdeclared
  unfold virtual at hvirtual
  split at hvirtual
  · rename_i hget
    cases hvirtual
    rw [hget, hall]
  · cases hvirtual
  · cases hvirtual

theorem position?_ok {v : ViewLayout} {hash : NameHash} {i : Nat} (h : r.viewLayout t = .ok v)
    (hi : v.position? hash = some i) : ∃ p, v.fields.get? i = some p ∧ p.item.hash = hash := by
  obtain ⟨-, -, -, hindex⟩ := viewLayout_ok h
  obtain ⟨e, he, hplace⟩ := Option.bind_eq_some_iff.1 hi
  obtain ⟨hmem, hhash⟩ := MemberIndex.mem_of_find? he
  rw [hindex, MemberIndex.mem_ofList, List.mem_map] at hmem
  obtain ⟨⟨f, j⟩, hfj, rfl⟩ := hmem
  obtain rfl : j = i := Option.some.inj hplace
  have hvalue : v.fields.values[j]? = some f := List.mem_zipIdx_iff_getElem?.1 hfj
  rw [Region.values, List.getElem?_map] at hvalue
  obtain ⟨p, hp, rfl⟩ := Option.map_eq_some_iff.1 hvalue
  exact ⟨p, hp, hhash⟩

private theorem addParam_ok {params params' : Region TypeId} {u : TypeId}
    (h : r.addParam params u = .ok params') : ∃ k, r.kind? u = some k ∧ params' = params.push k u := by
  unfold addParam at h
  cases hk : r.kind u with
  | error e =>
    rw [hk] at h
    cases h
  | ok k =>
    rw [hk] at h
    cases h
    exact ⟨k, kind_eq_ok.1 hk, rfl⟩

theorem constructLayout_ok {d : Construct} {c : ConstructLayout} (h : r.constructLayout d = .ok c) :
    c.name = d.name ∧ c.params.values = d.params ∧
      Region.LaidOut r.kind? VariantLayout.headerSize c.params.items c.size := by
  unfold constructLayout at h
  obtain ⟨params, hparams, h⟩ := Outcome.bind_eq_ok.1 h
  obtain rfl := Outcome.pure_eq_ok.1 h
  obtain ⟨own, hown, hvalues, hlaid⟩ := Region.laidOut_of_foldlM id (fun _ _ _ => addParam_ok) hparams
  obtain rfl : own = params.items := hown.symm
  exact ⟨rfl, hvalues, hlaid⟩

theorem variantLayout_ok {v : VariantLayout} (h : r.variantLayout t = .ok v) :
    ∃ ds, r.get? t = some (.enum v.name ds) ∧
      List.Forall₂ (fun d c => r.constructLayout d = .ok c) ds v.constructs := by
  unfold variantLayout at h
  obtain ⟨⟨name, ds⟩, henum, h⟩ := Outcome.bind_eq_ok.1 h
  obtain ⟨layouts, hlayouts, h⟩ := Outcome.bind_eq_ok.1 h
  obtain rfl := Outcome.pure_eq_ok.1 h
  refine ⟨ds, ?_, Outcome.mapM_eq_ok.1 hlayouts⟩
  have henum' := Outcome.mapError_eq_ok.1 henum
  unfold enum at henum'
  split at henum'
  · cases henum'
    assumption
  · cases henum'
  · cases henum'

theorem variantLayout_packed {v : VariantLayout} {c : ConstructLayout} {i : Nat}
    (h : r.variantLayout t = .ok v) (hc : v.construct? i = some c) :
    r.kind? t = some .enum ∧ Region.Packed r.kind? VariantLayout.headerSize c.params := by
  obtain ⟨ds, hget, hall⟩ := variantLayout_ok h
  refine ⟨by rw [kind?, hget]; rfl, ?_⟩
  obtain ⟨hi, rfl⟩ := List.getElem?_eq_some_iff.1 hc
  have hlt : i < ds.length := by rwa [hall.length_eq]
  exact (constructLayout_ok (hall.get hlt hi)).2.2.packed

theorem kind?_of_classLayout {c : ClassLayout} (h : r.classLayout t = .ok c) :
    r.kind? t = some .object := by
  unfold classLayout at h
  obtain ⟨d, hd, -⟩ := Outcome.bind_eq_ok.1 h
  rw [kind?, classOf_eq_ok.1 (Outcome.mapError_eq_ok.1 hd)]
  rfl

theorem kind?_of_viewLayout {v : ViewLayout} (h : r.viewLayout t = .ok v) :
    r.kind? t = some .virtual := by
  rw [kind?, (viewLayout_ok h).1]
  rfl

end Registry

end ObjectModel
