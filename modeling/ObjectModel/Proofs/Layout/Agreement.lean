import ObjectModel.Proofs.Layout.Members
import ObjectModel.Proofs.Registry.Bisimulation

/-!
Classes that are the same by structure have layouts that can stand for each other in memory. Their
chains of super classes are different but alike link by link, and each link adds the same to both.
-/

set_option autoImplicit false
set_option relaxedAutoImplicit false

namespace ObjectModel

theorem getElem?_rel {α : Type} {R : α → α → Prop} {xs ys : List α} (h : List.Forall₂ R xs ys)
    (i : Nat) : Option.Rel R xs[i]? ys[i]? := by
  induction h generalizing i with
  | nil => simp
  | cons hxy _ ih =>
    cases i with
    | zero => simpa using hxy
    | succ i => simpa using ih i

theorem map_eq_of_rel {α β : Type} {f : α → β} {xs ys : List α}
    (h : List.Forall₂ (fun x y => f x = f y) xs ys) : xs.map f = ys.map f := by
  induction h with
  | nil => rfl
  | cons hxy _ ih => rw [List.map_cons, List.map_cons, hxy, ih]

/-- Members of one kind at one place: fields of the same position and offset, methods of the same slot
and function. -/
def Member.Matches : Member → Member → Prop
  | field index offset _, field index' offset' _ => index = index' ∧ offset = offset'
  | method slot function _, method slot' function' _ => slot = slot' ∧ function = function'
  | _, _ => False

namespace Members

variable {r : Registry} {owner owner' : String} {m m' n n' : Members}

/-- Fields of the same names and types at the same offsets, and methods of the same names and
functions in the same slots. -/
structure Agree (r : Registry) (m n : Members) : Prop where
  fields : List.Forall₂ (fun p q => p.offset = q.offset ∧ p.item.name = q.item.name ∧
    r.sameType p.item.type q.item.type = true) m.fields.items n.fields.items
  stop : m.fields.stop = n.fields.stop
  methods : List.Forall₂ (fun d e => d.name = e.name ∧ d.function = e.function)
    m.methods.entries n.methods.entries

private theorem agree_empty : Agree r empty empty := ⟨.nil, rfl, .nil⟩

private theorem Agree.addField {f g : Field} (h : Agree r m n) (hname : f.name = g.name)
    (htype : r.sameType f.type g.type = true) (hm : addField r owner m f = .ok m')
    (hn : addField r owner' n g = .ok n') : Agree r m' n' := by
  obtain ⟨k, hk, rfl⟩ := addField_ok hm
  obtain ⟨l, hl, rfl⟩ := addField_ok hn
  obtain rfl : k = l := by
    rw [Registry.kind?_eq_of_sameType htype, hl] at hk
    exact (Option.some.inj hk).symm
  refine ⟨?_, ?_, h.methods⟩
  · refine List.rel_append h.fields (.cons ⟨?_, hname, htype⟩ .nil)
    exact congrArg k.alignUp h.stop
  · simp only [Region.push, h.stop]

private theorem Agree.addFields {fs gs : List Field} (h : Agree r m n)
    (hfields : List.Forall₂ (fun f g => f.name = g.name ∧ r.sameType f.type g.type = true) fs gs)
    (hm : fs.foldlM (Members.addField r owner) m = .ok m')
    (hn : gs.foldlM (Members.addField r owner') n = .ok n') : Agree r m' n' := by
  induction hfields generalizing m n with
  | nil =>
    cases hm
    cases hn
    exact h
  | cons hfg _ ih =>
    rw [List.foldlM_cons] at hm hn
    obtain ⟨m₁, hm₁, hm⟩ := Outcome.bind_eq_ok.1 hm
    obtain ⟨n₁, hn₁, hn⟩ := Outcome.bind_eq_ok.1 hn
    exact ih (h.addField hfg.1 hfg.2 hm₁ hn₁) hm hn

private theorem Agree.slotOf?_eq (h : Agree r m n) (name : String) :
    m.methods.slotOf? name = n.methods.slotOf? name := by
  have hmethods := h.methods
  unfold MethodTable.slotOf?
  generalize m.methods.entries = ds at hmethods ⊢
  generalize n.methods.entries = es at hmethods ⊢
  induction hmethods with
  | nil => rfl
  | cons hde _ ih => rw [List.findIdx?_cons, List.findIdx?_cons, hde.1, ih]

private theorem forall₂_set {α : Type} {R : α → α → Prop} {xs ys : List α} {x y : α} {i : Nat}
    (h : List.Forall₂ R xs ys) (hxy : R x y) : List.Forall₂ R (xs.set i x) (ys.set i y) := by
  induction h generalizing i with
  | nil => exact .nil
  | cons hab hrest ih =>
    cases i with
    | zero => exact .cons hxy hrest
    | succ i => exact .cons hab ih

private theorem Agree.addMethod {d e : Method} (h : Agree r m n) (hname : d.name = e.name)
    (hfunction : d.function = e.function) (hm : m.addMethod r owner d = .ok m')
    (hn : n.addMethod r owner' e = .ok n') : Agree r m' n' := by
  have hslots := h.slotOf?_eq d.name
  rcases addMethod_ok hm with ⟨hd, rfl⟩ | ⟨slot, hd, -, rfl⟩
  · rcases addMethod_ok hn with ⟨-, rfl⟩ | ⟨slot, he, -, -⟩
    · exact ⟨h.fields, h.stop, List.rel_append h.methods (.cons ⟨hname, hfunction⟩ .nil)⟩
    · rw [hd, hname, he] at hslots
      cases hslots
  · rcases addMethod_ok hn with ⟨he, -⟩ | ⟨slot', he, -, rfl⟩
    · rw [hd, hname, he] at hslots
      cases hslots
    · rw [hd, hname, he] at hslots
      cases hslots
      exact ⟨h.fields, h.stop, forall₂_set h.methods ⟨hname, hfunction⟩⟩

private theorem Agree.addMethods {ds es : List Method} {earlier earlier' : List String}
    (h : Agree r m n)
    (hmethods : List.Forall₂ (fun d e => d.name = e.name ∧ d.function = e.function) ds es)
    (hm : m.addMethods r owner earlier ds = .ok m')
    (hn : n.addMethods r owner' earlier' es = .ok n') : Agree r m' n' := by
  induction hmethods generalizing m n earlier earlier' with
  | nil =>
    cases hm
    cases hn
    exact h
  | @cons d e ds es hde _ ih =>
    unfold Members.addMethods at hm hn
    split_ifs at hm hn
    cases hd : m.addMethod r owner d with
    | error => simp [hd] at hm
    | ok m₁ =>
      cases he : n.addMethod r owner' e with
      | error => simp [he] at hn
      | ok n₁ =>
        simp only [hd] at hm
        simp only [he] at hn
        exact ih (h.addMethod hde.1 hde.2 hd he) hm hn

private theorem Agree.extend {c d : Class} (h : Agree r m n)
    (hcd : (Descriptor.object c).Alike (fun t u => r.sameType t u = true) (.object d))
    (hm : m.extend r c = .ok m') (hn : n.extend r d = .ok n') : Agree r m' n' := by
  obtain ⟨-, -, hfields, hmethods⟩ := hcd
  obtain ⟨m₁, hm₁, hm⟩ := extend_ok hm
  obtain ⟨n₁, hn₁, hn⟩ := extend_ok hn
  exact (h.addFields hfields hm₁ hn₁).addMethods hmethods hm hn

end Members

namespace Registry

variable {r : Registry} {a b : TypeId}

/-- Classes of the same declarations, up to types that are the same. -/
abbrev ClassAlike (r : Registry) (c d : Class) : Prop :=
  (Descriptor.object c).Alike (fun t u => r.sameType t u = true) (.object d)

theorem lineageFrom_alike {steps steps' : Nat} {cs ds : List Class} (h : r.sameType a b = true)
    (ha : r.lineageFrom steps a = .ok cs) (hb : r.lineageFrom steps' b = .ok ds) :
    List.Forall₂ r.ClassAlike cs ds := by
  -- Along both chains at once; how many steps they were found within does not matter.
  induction cs generalizing a b steps steps' ds with
  | nil =>
    obtain ⟨c, -, ⟨-, hcs⟩ | ⟨up, k, rest, -, -, -, hcs⟩⟩ := lineageFrom_ok ha <;> cases hcs
  | cons c cs ih =>
    obtain ⟨c', hc, ha⟩ := lineageFrom_ok ha
    obtain ⟨d, hd, hb⟩ := lineageFrom_ok hb
    obtain ⟨e, he, halike⟩ := alike_of_sameType h hc
    obtain rfl : Descriptor.object d = e := Option.some.inj (hd.symm.trans he)
    have hrel := halike.2.1
    rcases ha with ⟨hsuper, hcs⟩ | ⟨up, k, rest, hsuper, -, hup, hcs⟩
    · cases hcs
      rcases hb with ⟨-, rfl⟩ | ⟨up', k', rest', hsuper', -, -, -⟩
      · exact .cons halike .nil
      · rw [hsuper, hsuper'] at hrel
        cases hrel
    · cases hcs
      rcases hb with ⟨hsuper', -⟩ | ⟨up', k', rest', hsuper', -, hup', rfl⟩
      · rw [hsuper, hsuper'] at hrel
        cases hrel
      · rw [hsuper, hsuper'] at hrel
        cases hrel with
        | some hsame => exact .cons halike (ih hsame hup hup')

theorem membersOf_agree {cs ds : List Class} {m n : Members} (h : List.Forall₂ r.ClassAlike cs ds)
    (hm : r.membersOf cs = .ok m) (hn : r.membersOf ds = .ok n) : Members.Agree r m n := by
  induction h generalizing m n with
  | nil =>
    cases hm
    cases hn
    exact Members.agree_empty
  | cons hcd _ ih =>
    obtain ⟨m₁, hm₁, hm⟩ := membersOf_cons_ok hm
    obtain ⟨n₁, hn₁, hn⟩ := membersOf_cons_ok hn
    exact (ih hm₁ hn₁).extend hcd hm hn

end Registry

/-! The index over members depends on their names and places only. -/

namespace Entry

/-- Entries that sort alike and lead to one place. -/
private def Twin (a b : Entry) : Prop := a.hash = b.hash ∧ a.name = b.name ∧ a.place = b.place

end Entry

namespace MemberIndex

private theorem insertSorted_twin {a b : Entry} {xs ys : List Entry} (hab : a.Twin b)
    (h : List.Forall₂ Entry.Twin xs ys) :
    List.Forall₂ Entry.Twin (insertSorted a xs) (insertSorted b ys) := by
  induction h with
  | nil => exact .cons hab .nil
  | @cons x y xs ys hxy hrest ih =>
    have hprecedes : x.precedes a = y.precedes b := by
      simp only [Entry.precedes, hab.1, hab.2.1, hxy.1, hxy.2.1]
    rw [insertSorted, insertSorted, hprecedes]
    split
    · exact .cons hxy ih
    · exact .cons hab (.cons hxy hrest)

private theorem ofList_twin {xs ys : List Entry} (h : List.Forall₂ Entry.Twin xs ys) :
    List.Forall₂ Entry.Twin (ofList xs).entries.toList (ofList ys).entries.toList := by
  induction h with
  | nil => exact .nil
  | cons hxy _ ih => exact insertSorted_twin hxy ih

private theorem lowerBound_congr {xs ys : Array Entry} (h : NameHash)
    (hxy : ∀ i : Nat, xs[i]?.map Entry.hash = ys[i]?.map Entry.hash) (fuel lo len : Nat) :
    lowerBound xs h fuel lo len = lowerBound ys h fuel lo len := by
  induction fuel generalizing lo len with
  | zero => rfl
  | succ fuel ih =>
    have hhash := hxy (lo + len / 2)
    rw [lowerBound, lowerBound]
    cases hx : xs[lo + len / 2]? <;> cases hy : ys[lo + len / 2]? <;>
      simp_all

private theorem find?_twin {xs ys : List Entry} (h : List.Forall₂ Entry.Twin xs ys) (hash : NameHash) :
    Option.Rel Entry.Twin ((ofList xs).find? hash) ((ofList ys).find? hash) := by
  have hsorted := ofList_twin h
  have hget : ∀ i : Nat, Option.Rel Entry.Twin (ofList xs).entries[i]? (ofList ys).entries[i]? := by
    intro i
    rw [← Array.getElem?_toList, ← Array.getElem?_toList]
    exact getElem?_rel hsorted i
  have hhash : ∀ i : Nat,
      (ofList xs).entries[i]?.map Entry.hash = (ofList ys).entries[i]?.map Entry.hash := by
    intro i
    generalize (ofList xs).entries[i]? = u, (ofList ys).entries[i]? = v, hget i = huv
    cases huv with
    | none => rfl
    | some huv => simp [huv.1]
  have hstart : (ofList xs).start hash = (ofList ys).start hash := by
    have hsize : (ofList xs).size = (ofList ys).size := hsorted.length_eq
    rw [start, start, hsize, lowerBound_congr hash hhash]
  rw [find?, find?, hstart]
  generalize (ofList xs).entries[(ofList ys).start hash]? = u,
    (ofList ys).entries[(ofList ys).start hash]? = v, hget ((ofList ys).start hash) = huv
  cases huv with
  | none => exact .none
  | @some x y huv =>
    have hfound : (x.hash == hash) = (y.hash == hash) := by rw [huv.1]
    rw [Option.filter_some, Option.filter_some, hfound]
    split
    · exact .some huv
    · exact .none

end MemberIndex

namespace Members

variable {r : Registry} {m n : Members}

private theorem fieldEntries_twin {ps qs : List (Placed Field)} (k : Nat)
    (h : List.Forall₂ (fun p q => p.offset = q.offset ∧ p.item.name = q.item.name ∧
      r.sameType p.item.type q.item.type = true) ps qs) :
    List.Forall₂ Entry.Twin
      ((((ps.map Placed.item).zipIdx k).filter (·.1.name != "")).map
        fun (f, i) => ⟨f.hash, f.name, f.type, .field i⟩)
      ((((qs.map Placed.item).zipIdx k).filter (·.1.name != "")).map
        fun (f, i) => ⟨f.hash, f.name, f.type, .field i⟩) := by
  induction h generalizing k with
  | nil => exact .nil
  | @cons p q ps qs hpq _ ih =>
    obtain ⟨-, hname, -⟩ := hpq
    simp only [List.map_cons, List.zipIdx_cons, List.filter_cons, hname]
    split
    · exact .cons ⟨by simp [Field.hash, hname], hname, rfl⟩ (ih (k + 1))
    · exact ih (k + 1)

private theorem methodEntries_twin {ds es : List MethodEntry} (k : Nat)
    (h : List.Forall₂ (fun d e => d.name = e.name ∧ d.function = e.function) ds es) :
    List.Forall₂ Entry.Twin
      ((ds.zipIdx k).map fun (d, slot) => ⟨d.hash, d.name, d.type, .method slot⟩)
      ((es.zipIdx k).map fun (d, slot) => ⟨d.hash, d.name, d.type, .method slot⟩) := by
  induction h generalizing k with
  | nil => exact .nil
  | cons hde _ ih =>
    simp only [List.zipIdx_cons, List.map_cons]
    exact .cons ⟨by simp [MethodEntry.hash, hde.1], hde.1, rfl⟩ (ih (k + 1))

private theorem Agree.entries (h : Agree r m n) :
    List.Forall₂ Entry.Twin (m.fieldEntries ++ m.methodEntries) (n.fieldEntries ++ n.methodEntries) :=
  List.rel_append (fieldEntries_twin 0 h.fields) (methodEntries_twin 0 h.methods)

private theorem Agree.hasPointer_eq (h : Agree r m n) :
    (m.fields.values.any fun f => (r.kind? f.type).any Kind.isPointer) =
      n.fields.values.any fun f => (r.kind? f.type).any Kind.isPointer := by
  have hfields := h.fields
  unfold Region.values
  generalize m.fields.items = ps at hfields ⊢
  generalize n.fields.items = qs at hfields ⊢
  induction hfields with
  | nil => rfl
  | cons hpq _ ih =>
    simp only [List.map_cons, List.any_cons, Registry.kind?_eq_of_sameType hpq.2.2, ih]

end Members

namespace ClassLayout

variable {r : Registry} {x y : ClassLayout}

private theorem member?_matches (h : Members.Agree r x.members y.members) {d e : Entry}
    (hde : d.Twin e) : Option.Rel Member.Matches (x.member? d) (y.member? e) := by
  unfold member?
  rw [← hde.2.2]
  cases d.place with
  | field i =>
    have hfield := getElem?_rel h.fields i
    simp only [Region.get?]
    generalize x.members.fields.items[i]? = u at hfield ⊢
    generalize y.members.fields.items[i]? = v at hfield ⊢
    cases hfield with
    | none => exact .none
    | some hpq => exact .some ⟨rfl, hpq.1⟩
  | method slot =>
    have hmethod := getElem?_rel h.methods slot
    simp only [methods, MethodTable.get?]
    generalize x.members.methods.entries[slot]? = u at hmethod ⊢
    generalize y.members.methods.entries[slot]? = v at hmethod ⊢
    cases hmethod with
    | none => exact .none
    | some hpq => exact .some ⟨rfl, hpq.2⟩

private theorem compareFunction_eq (h : Members.Agree r x.members y.members) :
    ((x.methods.slotOf? Members.compareName).bind x.methods.get?).map MethodEntry.function =
      ((y.methods.slotOf? Members.compareName).bind y.methods.get?).map MethodEntry.function := by
  simp only [methods, h.slotOf?_eq]
  cases y.members.methods.slotOf? Members.compareName with
  | none => rfl
  | some slot =>
    have hmethod := getElem?_rel h.methods slot
    simp only [Option.bind_some, MethodTable.get?]
    generalize x.members.methods.entries[slot]? = u at hmethod ⊢
    generalize y.members.methods.entries[slot]? = v at hmethod ⊢
    cases hmethod with
    | none => rfl
    | some hde => exact congrArg some hde.2

end ClassLayout

namespace Registry

variable {r : Registry} {a b : TypeId} {x y : ClassLayout}

theorem classLayout_agree (h : r.sameType a b = true) (ha : r.classLayout a = .ok x)
    (hb : r.classLayout b = .ok y) : Members.Agree r x.members y.members := by
  obtain ⟨cs, hcs, hx, -⟩ := classLayout_ok ha
  obtain ⟨ds, hds, hy, -⟩ := classLayout_ok hb
  exact membersOf_agree (lineageFrom_alike h hcs hds) hx hy

/-- Layouts of classes that are the same by structure are interchangeable in memory: they have one
size, place every field at one offset under one name with the same type, hold the same function
under the same name in every slot, compare with the same function, hold addresses both or neither,
and resolve every hash to members of one kind at one place, or both to none. -/
theorem classLayout_interchangeable (h : r.sameType a b = true) (ha : r.classLayout a = .ok x)
    (hb : r.classLayout b = .ok y) :
    x.size = y.size ∧ x.hasPointer = y.hasPointer ∧ x.compareFunction = y.compareFunction ∧
      x.members.fields.offsets = y.members.fields.offsets ∧
      List.Forall₂ (fun p q => p.item.name = q.item.name ∧ r.sameType p.item.type q.item.type = true)
        x.fields y.fields ∧
      List.Forall₂ (fun d e => d.name = e.name ∧ d.function = e.function)
        x.methods.entries y.methods.entries ∧
      ∀ hash, Option.Rel Member.Matches (x.resolve? hash) (y.resolve? hash) := by
  have hagree := classLayout_agree h ha hb
  obtain ⟨-, -, -, hxindex, hxcompare, hxpointer⟩ := classLayout_ok ha
  obtain ⟨-, -, -, hyindex, hycompare, hypointer⟩ := classLayout_ok hb
  refine ⟨hagree.stop, ?_, ?_, ?_, hagree.fields.imp fun _ _ hpq => hpq.2, hagree.methods, ?_⟩
  · rw [hxpointer, hypointer, hagree.hasPointer_eq]
  · rw [hxcompare, hycompare, ClassLayout.compareFunction_eq hagree]
  · exact map_eq_of_rel (hagree.fields.imp fun _ _ hpq => hpq.1)
  · intro hash
    rw [ClassLayout.resolve?, ClassLayout.resolve?, hxindex, hyindex]
    have hfound := MemberIndex.find?_twin hagree.entries hash
    unfold Members.toIndex
    generalize (MemberIndex.ofList (x.members.fieldEntries ++ x.members.methodEntries)).find? hash = u
      at hfound ⊢
    generalize (MemberIndex.ofList (y.members.fieldEntries ++ y.members.methodEntries)).find? hash = v
      at hfound ⊢
    cases hfound with
    | none => exact .none
    | some hde => exact ClassLayout.member?_matches hagree hde

/-- Two classes that lead to themselves, and a subclass of each. -/
def twinClasses : Registry :=
  ⟨(Descriptor.builtins ++
    ([.function [.dynamic] .i32, .function [] .i32,
      .object ⟨"Node", none, [⟨"next", .ofIndex 14⟩, ⟨"tag", .i8⟩], [⟨"__compare", 7, .ofIndex 12⟩]⟩,
      .object ⟨"Node", none, [⟨"next", .ofIndex 15⟩, ⟨"tag", .i8⟩], [⟨"__compare", 7, .ofIndex 12⟩]⟩,
      .object ⟨"Leaf", some (.ofIndex 14), [⟨"value", .f64⟩], []⟩,
      .object ⟨"Leaf", some (.ofIndex 15), [⟨"value", .f64⟩], []⟩] : List Descriptor)).toArray⟩

theorem twinClasses_interchangeable :
    ∃ x y, twinClasses.sameType (.ofIndex 16) (.ofIndex 17) = true ∧
      twinClasses.classLayout (.ofIndex 16) = .ok x ∧ twinClasses.classLayout (.ofIndex 17) = .ok y ∧
      x.size = y.size ∧ x.compareFunction = y.compareFunction ∧
      ∀ hash, Option.Rel Member.Matches (x.resolve? hash) (y.resolve? hash) := by
  have hsame : twinClasses.sameType (.ofIndex 16) (.ofIndex 17) = true := by decide +kernel
  cases hx : twinClasses.classLayout (.ofIndex 16) with
  | error e =>
    have hok : (twinClasses.classLayout (.ofIndex 16)).isOk = true := by decide +kernel
    rw [hx] at hok
    cases hok
  | ok x =>
    cases hy : twinClasses.classLayout (.ofIndex 17) with
    | error e =>
      have hok : (twinClasses.classLayout (.ofIndex 17)).isOk = true := by decide +kernel
      rw [hy] at hok
      cases hok
    | ok y =>
      obtain ⟨hsize, -, hcompare, -, -, -, hresolve⟩ := classLayout_interchangeable hsame hx hy
      exact ⟨x, y, hsame, rfl, rfl, hsize, hcompare, hresolve⟩

end Registry

end ObjectModel
