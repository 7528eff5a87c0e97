import ObjectModel.Proofs.Value.Reachable
import ObjectModel.Proofs.Value.Reads

/-!
Runs of writes to one open object. Whatever is written, in whatever order and under whatever types, the
object stays a sorted table of aligned fields that do not overlap; each name is read back as it was
written last, and a write leaves all other fields alone.
-/

set_option autoImplicit false
set_option relaxedAutoImplicit false

namespace ObjectModel

variable {r : Registry} {held : Addr → TypeId → Prop} {values : Set Addr} {h h' h'' : Heap} {v : Addr}
  {hash : NameHash} {k : Kind} {w : World}

/-- A slot of a type that is to be written to a name. -/
structure FieldWrite where
  hash : NameHash
  type : TypeId
  slot : Slot
  deriving DecidableEq, Repr, Inhabited

namespace FieldWrite

/-- The type is registered, and the slot fits its kind. -/
def Fits (r : Registry) (c : FieldWrite) : Prop := ∃ k, r.kind? c.type = some k ∧ c.slot.fits k = true

def action (v : Addr) (c : FieldWrite) : Action Unit := Action.set v c.hash c.type c.slot

end FieldWrite

variable {c : FieldWrite} {calls : List FieldWrite}

/-- Writes to the value at `v`, the latest first, have led to a heap. The world may change in between,
but for its registry; no write has ended the program for good. -/
inductive Writes (r : Registry) (v : Addr) (h : Heap) : List FieldWrite → Heap → Prop
  | nil : Writes r v h [] h
  | cons {w : World} {c : FieldWrite} {calls : List FieldWrite} {h' h'' : Heap} {result : Except Fault Unit} :
    Writes r v h calls h' → w.registry = r → c.Fits r → c.action v w h' = (result, h'') →
      (∀ e, result ≠ .error (.fatal e)) → Writes r v h (c :: calls) h''

/-- The write that a name was given last. -/
def lastWrite? (calls : List FieldWrite) (hash : NameHash) : Option FieldWrite :=
  calls.find? (·.hash == hash)

theorem lastWrite?_cons : lastWrite? (c :: calls) hash =
    if c.hash = hash then some c else lastWrite? calls hash := by
  unfold lastWrite?
  rw [List.find?_cons]
  by_cases heq : c.hash = hash
  · rw [if_pos heq, beq_iff_eq.2 heq]
  · rw [if_neg heq, beq_false_of_ne heq]

theorem Action.set_wrote (hs : Ordered w.registry ∅ h values) (hv : v ∈ values)
    (hk : w.registry.kindAt h.memory v = some .dynobj) (hc : c.Fits w.registry) :
    (c.action v).Ends w h (fun _ h' => Wrote w.registry values v c.hash c.type c.slot h h')
      (fun _ => False) := by
  obtain ⟨k, ht, hfits⟩ := hc
  unfold FieldWrite.action set
  refine Ends.ask_ok_bind (World.kind_eq_ok.2 ht) ?_
  rw [if_pos hfits]
  refine Ends.chainBound_bind ?_
  rw [setFrom.eq_def]
  refine Ends.ask_ok_bind (World.kind_eq_ok.2 hk) ?_
  rw [if_pos rfl]
  exact setOpenField_wrote hs hv hk c.hash ht hfits

/-- An open object after writes to it: it has a field for each name that it had or that was written, and
in the field there is what was written last. -/
structure Holding (r : Registry) (values : Set Addr) (v : Addr) (h : Heap) (calls : List FieldWrite)
    (h' : Heap) : Prop where
  ordered : Ordered r ∅ h' values
  kind : r.kindAt h'.memory v = some .dynobj
  names : ∀ hash, hash ∈ (OpenObject.table h'.memory v).map OpenField.hash ↔
    hash ∈ calls.map FieldWrite.hash ∨ hash ∈ (OpenObject.table h.memory v).map OpenField.hash
  last : ∀ hash c, lastWrite? calls hash = some c → ∃ f ∈ OpenObject.table h'.memory v,
    f.hash = hash ∧ r.sameType f.type c.type = true ∧ ∀ k, r.kind? f.type = some k →
      h'.memory.read ((OpenObject.storage h'.memory v).toNat + f.offset) k = c.slot

namespace Holding

theorem start (hs : Ordered r ∅ h values) (hk : r.kindAt h.memory v = some .dynobj) :
    Holding r values v h [] h := by
  refine ⟨hs, hk, fun hash => ?_, fun hash c hc => ?_⟩
  · simp
  · cases hc

private theorem names_cons {f : OpenField} (hgot : GotField h'.memory h''.memory v f)
    (hhash : f.hash = c.hash) (hname : hash ∈ (OpenObject.table h'.memory v).map OpenField.hash ↔
      hash ∈ calls.map FieldWrite.hash ∨ hash ∈ (OpenObject.table h.memory v).map OpenField.hash) :
    hash ∈ (OpenObject.table h''.memory v).map OpenField.hash ↔
      hash ∈ (c :: calls).map FieldWrite.hash ∨
        hash ∈ (OpenObject.table h.memory v).map OpenField.hash := by
  rw [List.map_cons, List.mem_cons, or_assoc, ← hname, List.mem_map, List.mem_map]
  constructor
  · rintro ⟨g, hg, rfl⟩
    rcases (hgot.mem g).1 hg with rfl | ⟨hg, -⟩
    · exact Or.inl hhash
    · exact Or.inr ⟨g, hg, rfl⟩
  · rintro (rfl | ⟨g, hg, rfl⟩)
    · exact ⟨f, (hgot.mem f).2 (Or.inl rfl), hhash⟩
    · by_cases heq : g.hash = f.hash
      · exact ⟨f, (hgot.mem f).2 (Or.inl rfl), heq.symm⟩
      · exact ⟨g, (hgot.mem g).2 (Or.inr ⟨hg, heq⟩), rfl⟩

theorem next {result : Except Fault Unit} (hholding : Holding r values v h calls h') (hv : v ∈ values)
    (hw : w.registry = r) (hc : c.Fits r) (hrun : c.action v w h' = (result, h''))
    (hfatal : ∀ e, result ≠ .error (.fatal e)) :
    result = .ok () ∧ Wrote r values v c.hash c.type c.slot h' h'' := by
  subst hw
  rcases (Action.set_wrote hholding.ordered hv hholding.kind hc).ok_or_fatal hrun with
    ⟨⟨⟩, hok, hwrote⟩ | ⟨e, hended⟩
  · exact ⟨hok, hwrote⟩
  · exact absurd hended (hfatal e)

theorem step (hholding : Holding r values v h calls h') (hv : v ∈ values)
    (hwrote : Wrote r values v c.hash c.type c.slot h' h'') : Holding r values v h (c :: calls) h'' := by
  obtain ⟨f, hhash, hsame, hgot, hread⟩ := hwrote.field
  refine ⟨hwrote.ordered, (hwrote.goesOn.kindAt hv).trans hholding.kind, fun hash => ?_,
    fun hash d hd => ?_⟩
  · exact names_cons hgot hhash (hholding.names hash)
  · rw [lastWrite?_cons] at hd
    by_cases heq : c.hash = hash
    · rw [if_pos heq] at hd
      obtain rfl := Option.some.inj hd
      exact ⟨f, (hgot.mem f).2 (Or.inl rfl), hhash.trans heq, hsame, hread⟩
    · rw [if_neg heq] at hd
      obtain ⟨g, hg, rfl, hsame', hread'⟩ := hholding.last hash d hd
      have hother : g.hash ≠ c.hash := fun hsame => heq hsame.symm
      refine ⟨g, (hgot.mem g).2 (Or.inr ⟨hg, hhash ▸ hother⟩), rfl, hsame', fun l hl => ?_⟩
      rw [(hwrote.others g hg hother l hl).read]
      exact hread' l hl

end Holding

theorem Writes.holding (hw : Writes r v h calls h') (hs : Ordered r ∅ h values) (hv : v ∈ values)
    (hk : r.kindAt h.memory v = some .dynobj) : Holding r values v h calls h' := by
  -- Every write leaves the heap in order, and what it has written is there from then on.
  induction hw with
  | nil => exact .start hs hk
  | @cons w c calls h' h'' result _ hregistry hc hrun hfatal ih =>
    exact ih.step hv (ih.next hv hregistry hc hrun hfatal).2

/-- What is to be known of the open object at `v` after writes to it, and of one more write. -/
structure Recorded (r : Registry) (v : Addr) (h : Heap) (calls : List FieldWrite) (h' : Heap) : Prop where
  sorted : (OpenObject.table h'.memory v).Pairwise (·.hash < ·.hash)
  names : ∀ hash, hash ∈ (OpenObject.table h'.memory v).map OpenField.hash ↔
    hash ∈ calls.map FieldWrite.hash ∨ hash ∈ (OpenObject.table h.memory v).map OpenField.hash
  placed : ∀ f ∈ OpenObject.table h'.memory v, ∃ k, r.kind? f.type = some k ∧ k.align ∣ f.offset ∧
    f.offset + k.size ≤ OpenObject.storageSize h'.memory v
  disjoint : ∀ (i j : Nat) f g k l, i ≠ j → (OpenObject.table h'.memory v)[i]? = some f →
    (OpenObject.table h'.memory v)[j]? = some g → r.kind? f.type = some k → r.kind? g.type = some l →
      f.offset + k.size ≤ g.offset ∨ g.offset + l.size ≤ f.offset
  last : ∀ hash c (w : World), lastWrite? calls hash = some c → w.registry = r →
    Action.get v hash c.type w h' = (.ok c.slot, h')
  unset : ∀ hash t (w : World), hash ∉ calls.map FieldWrite.hash →
    hash ∉ (OpenObject.table h.memory v).map OpenField.hash → w.registry = r →
      Action.get v hash t w h' = (.error (.error (.fieldNotFound hash)), h')
  next : ∀ (c : FieldWrite) (w : World) (result : Except Fault Unit) (h'' : Heap), w.registry = r →
    c.Fits r → c.action v w h' = (result, h'') → (∀ e, result ≠ .error (.fatal e)) → result = .ok () ∧
      ∀ f ∈ OpenObject.table h'.memory v, f.hash ≠ c.hash → f ∈ OpenObject.table h''.memory v ∧
        ∀ k, r.kind? f.type = some k → ∀ i < k.size,
          h''.memory.byte ((OpenObject.storage h''.memory v).toNat + f.offset + i) =
            h'.memory.byte ((OpenObject.storage h'.memory v).toNat + f.offset + i)

namespace Holding

variable (hholding : Holding r values v h calls h') (hv : v ∈ values)

include hholding hv

private theorem disjoint {i j : Nat} {f g : OpenField} {l : Kind} (hij : i ≠ j)
    (hf : (OpenObject.table h'.memory v)[i]? = some f) (hg : (OpenObject.table h'.memory v)[j]? = some g)
    (hk : r.kind? f.type = some k) (hl : r.kind? g.type = some l) :
    f.offset + k.size ≤ g.offset ∨ g.offset + l.size ≤ f.offset := by
  have happart := List.pairwise_iff_getElem.1 (hholding.ordered.arranged.opens v hv hholding.kind).apart
  obtain ⟨hi, rfl⟩ := List.getElem?_eq_some_iff.1 hf
  obtain ⟨hj, rfl⟩ := List.getElem?_eq_some_iff.1 hg
  rcases Nat.lt_or_gt_of_ne hij with hlt | hlt
  · exact happart i j hi hj hlt k l hk hl
  · exact (happart j i hj hi hlt l k hl hk).symm

private theorem get_last (hc : lastWrite? calls hash = some c) (hw : w.registry = r) :
    Action.get v hash c.type w h' = (.ok c.slot, h') := by
  subst hw
  obtain ⟨f, hf, rfl, hsame, hread⟩ := hholding.last hash c hc
  have ho := hholding.ordered.arranged.opens v hv hholding.kind
  obtain ⟨k, hk, -⟩ := ho.placed f hf
  rw [Action.get_openField hholding.kind (OpenObject.find?_hash ho.sorted hf) hk hsame, hread k hk]

private theorem get_unset {t : TypeId} (hcalls : hash ∉ calls.map FieldWrite.hash)
    (htable : hash ∉ (OpenObject.table h.memory v).map OpenField.hash) (hw : w.registry = r) :
    Action.get v hash t w h' = (.error (.error (.fieldNotFound hash)), h') := by
  subst hw
  have ho := hholding.ordered.arranged.opens v hv hholding.kind
  apply Action.get_openField_none hholding.kind
  rw [← Option.not_isSome_iff_eq_none, OpenObject.isSome_find?_iff ho.sorted, hholding.names]
  rintro (hmem | hmem)
  · exact hcalls hmem
  · exact htable hmem

theorem toRecorded : Recorded r v h calls h' := by
  have ho := hholding.ordered.arranged.opens v hv hholding.kind
  refine
    { sorted := ho.sorted, names := hholding.names, placed := ?placed,
      disjoint := fun i j f g k l => hholding.disjoint hv,
      last := fun hash c w => hholding.get_last hv,
      unset := fun hash t w => hholding.get_unset hv, next := ?next }
  case placed =>
    intro f hf
    obtain ⟨k, hk, halign, hused, -⟩ := ho.placed f hf
    exact ⟨k, hk, halign, hused⟩
  case next =>
    intro c w result h'' hw hc hrun hfatal
    obtain ⟨hok, hwrote⟩ := hholding.next hv hw hc hrun hfatal
    obtain ⟨f, hhash, -, hgot, -⟩ := hwrote.field
    refine ⟨hok, fun g hg hne => ⟨(hgot.mem g).2 (Or.inr ⟨hg, hhash ▸ hne⟩), fun l hl => ?_⟩⟩
    exact hwrote.others g hg hne l hl

end Holding

/-- However an open object is written to, each name is found as it was written last, in a place of its
own, and a write touches no other field. A new object has just the names that were written. -/
theorem Writes.recorded (hb : r.Built) (hr : Reachable r held h values) (hv : v ∈ values)
    (hk : r.kindAt h.memory v = some .dynobj) (hw : Writes r v h calls h') :
    Recorded r v h calls h' ∧
      ∀ held₀ h₀ values₀ w₀, Reachable r held₀ h₀ values₀ → Action.newOpenObject w₀ h₀ = (.ok v, h) →
        ∀ hash, hash ∈ (OpenObject.table h'.memory v).map OpenField.hash ↔
          hash ∈ calls.map FieldWrite.hash := by
  have hholding := hw.holding (hr.sound hb).toOrdered hv hk
  refine ⟨hholding.toRecorded hv, ?_⟩
  intro held₀ h₀ values₀ w₀ hr₀ hnew hash
  have hempty := (Action.newOpenObject_ends (hr₀.sound hb).arranged.blocks).of_ok hnew
  rw [hholding.names hash, hempty, List.map_nil]
  simp

theorem Writes.ended_well (hw : Writes r v h calls h') (hregistry : w.registry = r) (hc : c.Fits r)
    (hok : (c.action v w h').1.isOk = true) : Writes r v h (c :: calls) (c.action v w h').2 := by
  cases hrun : c.action v w h' with
  | mk result h'' =>
    rw [hrun] at hok
    refine .cons hw hregistry hc hrun ?_
    rintro e rfl
    cases hok

/-- A field of a new object becomes smaller where it lies, and then moves as it becomes larger again. -/
theorem retyped_field_recorded : ∃ v h h' values, Reachable .twinClasses (fun _ _ => False) h values ∧
    v ∈ values ∧ Registry.twinClasses.kindAt h.memory v = some .dynobj ∧
    Writes .twinClasses v h [⟨7, .f64, .f64 2⟩, ⟨7, .i8, .i8 5⟩, ⟨3, .bool, .bool true⟩, ⟨7, .f64, .f64 1⟩]
      h' ∧
    Recorded .twinClasses v h [⟨7, .f64, .f64 2⟩, ⟨7, .i8, .i8 5⟩, ⟨3, .bool, .bool true⟩,
      ⟨7, .f64, .f64 1⟩] h' ∧
    OpenObject.table h'.memory v = [⟨3, .bool, 8⟩, ⟨7, .f64, 16⟩] := by
  let w : World := .ofTypes .twinClasses
  let h := (Action.newOpenObject w {}).2
  have hb : w.registry.Built := Registry.twinClasses_built
  have hstart : Reachable .twinClasses (fun _ _ => False) {} ∅ := .start none
  have hnew : Action.newOpenObject w {} = (.ok 0x10010, h) := Prod.ext (by decide +kernel) rfl
  obtain ⟨values, -, hr, hv, htype⟩ := hstart.after_keeps rfl .newOpenObject
    (Action.newOpenObject_keeps hb (hstart.sound hb)) hnew
  have hk : Registry.twinClasses.kindAt h.memory 0x10010 = some .dynobj :=
    kindAt_of_typeOf htype hb.kind?_dynobj
  have hfirst : Writes .twinClasses 0x10010 h [⟨7, .f64, .f64 1⟩] _ :=
    Writes.nil.ended_well (w := w) rfl ⟨.f64, rfl, rfl⟩ (by decide +kernel)
  have hsecond := hfirst.ended_well (w := w) (c := ⟨3, .bool, .bool true⟩) rfl ⟨.bool, rfl, rfl⟩
    (by decide +kernel)
  have hthird := hsecond.ended_well (w := w) (c := ⟨7, .i8, .i8 5⟩) rfl ⟨.i8, rfl, rfl⟩
    (by decide +kernel)
  have hfourth := hthird.ended_well (w := w) (c := ⟨7, .f64, .f64 2⟩) rfl ⟨.f64, rfl, rfl⟩
    (by decide +kernel)
  exact ⟨0x10010, h, _, values, hr, hv, hk, hfourth, (hfourth.recorded hb hr hv hk).1, by decide +kernel⟩

end ObjectModel
