import Mathlib.Data.List.Nodup
import ObjectModel.Proofs.Layout.MemberIndex
import ObjectModel.Proofs.Layout.Members
import ObjectModel.Proofs.Registry.Ancestors

/-!
What a name stands for in a class. All that a class and its super classes declare comes together in one
list of fields and one table of methods, in which no name comes twice; the index over both leads from a
name or its hash to the one member that is meant.
-/

set_option autoImplicit false
set_option relaxedAutoImplicit false

namespace ObjectModel

/-- The fields that a chain of super classes declares, the oldest class first. -/
def declaredFields (chain : List Class) : List Field := chain.reverse.flatMap Class.fields

/-- The methods that a chain of super classes declares, the oldest class first. -/
def declaredMethods (chain : List Class) : List Method := chain.reverse.flatMap Class.methods

/-- What a name stands for in the layout of a class. A field counts where it is declared, among the fields
of all classes of the chain. A method has the slot of the first declaration of its name and is what the
last one says. -/
inductive StandsFor (chain : List Class) (x : ClassLayout) (name : String) : Member → Prop
  | field {i : Nat} {p : Placed Field} (hdeclared : (declaredFields chain)[i]? = some p.item)
      (hplaced : x.fields[i]? = some p) (hname : p.item.name = name) (hnamed : name ≠ "") :
      StandsFor chain x name (.field i p.offset p.item.type)
  | method {slot : Nat} {d : Method}
      (hslot : ((declaredMethods chain).map Method.name).eraseDups[slot]? = some name)
      (hlast : (declaredMethods chain).reverse.find? (·.name == name) = some d) :
      StandsFor chain x name (.method slot d.function d.type)

theorem eraseDups_concat (names : List String) (name : String) :
    (names ++ [name]).eraseDups =
      if name ∈ names then names.eraseDups else names.eraseDups ++ [name] := by
  rw [List.eraseDups_append]
  by_cases hmem : name ∈ names <;> simp [List.removeAll, hmem, List.eraseDups_cons]

namespace MethodTable

variable {table : MethodTable} {name : String} {slot : Nat}

theorem slotOf?_eq_none : table.slotOf? name = none ↔ name ∉ table.entries.map MethodEntry.name := by
  simp [slotOf?, List.findIdx?_eq_none_iff]

theorem name_of_slotOf? (h : table.slotOf? name = some slot) :
    (table.entries.map MethodEntry.name)[slot]? = some name := by
  obtain ⟨hlt, hname, -⟩ := List.findIdx?_eq_some_iff_getElem.1 h
  rw [List.getElem?_map, List.getElem?_eq_getElem hlt]
  exact congrArg some (beq_iff_eq.1 hname)

theorem names_set {d : MethodEntry} (h : table.slotOf? d.name = some slot) :
    (table.entries.set slot d).map MethodEntry.name = table.entries.map MethodEntry.name := by
  rw [List.map_set]
  obtain ⟨hlt, hname⟩ := List.getElem?_eq_some_iff.1 (name_of_slotOf? h)
  rw [← hname, List.set_getElem_self]

theorem slotOf?_eq_some (hnodup : (table.entries.map MethodEntry.name).Nodup) :
    table.slotOf? name = some slot ↔ ∃ e, table.entries[slot]? = some e ∧ e.name = name := by
  have hplace {i : Nat} : (table.entries.map MethodEntry.name)[i]? = some name ↔
      ∃ e, table.entries[i]? = some e ∧ e.name = name := by
    rw [List.getElem?_map, Option.map_eq_some_iff]
  rw [← hplace]
  refine ⟨name_of_slotOf?, ?_⟩
  intro hslot
  cases hfound : table.slotOf? name with
  | none => exact absurd (List.mem_of_getElem? hslot) (slotOf?_eq_none.1 hfound)
  | some slot' =>
    have hslot' := name_of_slotOf? hfound
    have hlt := (List.getElem?_eq_some_iff.1 hslot').1
    rw [(List.getElem?_inj hlt hnodup).1 (hslot'.trans hslot.symm)]

theorem name_ne_of_slot {i : Nat} {e : MethodEntry} (hnodup : (table.entries.map MethodEntry.name).Nodup)
    (hslot : table.slotOf? name = some slot) (hother : slot ≠ i) (he : table.entries[i]? = some e) :
    e.name ≠ name := by
  intro hname
  have hslot' := (slotOf?_eq_some hnodup).2 ⟨e, he, hname⟩
  exact hother (Option.some.inj (hslot.symm.trans hslot'))

end MethodTable

namespace Members

variable {r : Registry} {owner : String} {m n : Members} {fs : List Field} {ds : List Method}

/-- The names that stand for something. -/
def names (m : Members) : List String :=
  (m.fields.values.filter (·.name != "")).map Field.name ++ m.methods.entries.map MethodEntry.name

/-- Members that consist of the fields `fs` and of what the declarations `ds` of methods come to. -/
structure Collects (r : Registry) (fs : List Field) (ds : List Method) (m : Members) : Prop where
  fields : m.fields.values = fs
  slots : m.methods.entries.map MethodEntry.name = (ds.map Method.name).eraseDups
  last : ∀ e ∈ m.methods.entries, ∃ d, ds.reverse.find? (·.name == e.name) = some d ∧ e = entryOf r d
  nodup : m.names.Nodup

theorem collects_empty : Collects r [] [] empty :=
  ⟨rfl, rfl, fun _ he => absurd he List.not_mem_nil, .nil⟩

theorem Collects.nodup_table (hm : Collects r fs ds m) : (m.methods.entries.map MethodEntry.name).Nodup :=
  (List.nodup_append.1 hm.nodup).2.1

theorem notMem_names {name : String} (hfield : m.hasField name = false)
    (hmethod : name ∉ m.methods.entries.map MethodEntry.name) : name ∉ m.names := by
  intro hmem
  rcases List.mem_append.1 hmem with hmem | hmem
  · obtain ⟨f, hf, hname⟩ := List.mem_map.1 hmem
    have hany : m.hasField name = true :=
      List.any_eq_true.2 ⟨f, (List.mem_filter.1 hf).1, by simpa using hname⟩
    rw [hfield] at hany
    exact absurd hany Bool.false_ne_true
  · exact hmethod hmem

private theorem Collects.addField {f : Field} (hm : Collects r fs ds m)
    (h : addField r owner m f = .ok n) : Collects r (fs ++ [f]) ds n := by
  have hchecked := addField_checked h
  obtain ⟨hvalues, -⟩ := addField_grows h
  obtain ⟨k, -, rfl⟩ := addField_ok h
  refine ⟨by rw [hvalues, hm.fields], hm.slots, hm.last, ?_⟩
  by_cases hname : f.name = ""
  · simpa [names, hvalues, hname] using hm.nodup
  · obtain ⟨hfield, hmethod⟩ := hchecked hname
    have hnew : f.name ∉ m.names := by
      apply notMem_names hfield
      simpa [hasMethod, MethodTable.slotOf?_eq_none] using hmethod
    have hall := List.nodup_cons.2 ⟨hnew, hm.nodup⟩
    simpa [names, hvalues, hname, List.nodup_middle] using hall

theorem mem_addMethod {d : Method} (hnodup : (m.methods.entries.map MethodEntry.name).Nodup)
    (h : m.addMethod r owner d = .ok n) {e : MethodEntry} (he : e ∈ n.methods.entries) :
    e = entryOf r d ∨ e ∈ m.methods.entries ∧ e.name ≠ d.name := by
  rcases addMethod_ok h with ⟨hnone, rfl⟩ | ⟨slot, hslot, hlt, rfl⟩
  · rcases List.mem_append.1 he with he | he
    · have hnew := MethodTable.slotOf?_eq_none.1 hnone
      exact Or.inr ⟨he, fun hname => hnew (hname ▸ List.mem_map_of_mem he)⟩
    · exact Or.inl (List.mem_singleton.1 he)
  · obtain ⟨j, hj⟩ := List.mem_iff_getElem?.1 he
    by_cases hsame : slot = j
    · subst hsame
      rw [List.getElem?_set_self hlt] at hj
      exact Or.inl (Option.some.inj hj).symm
    · rw [List.getElem?_set_ne hsame] at hj
      exact Or.inr ⟨List.mem_of_getElem? hj, MethodTable.name_ne_of_slot hnodup hslot hsame hj⟩

theorem Collects.addMethod {d : Method} (hm : Collects r fs ds m)
    (h : m.addMethod r owner d = .ok n) : Collects r fs (ds ++ [d]) n := by
  have hslots := hm.slots
  have hlast : ∀ e ∈ n.methods.entries,
      ∃ d', (ds ++ [d]).reverse.find? (·.name == e.name) = some d' ∧ e = entryOf r d' := by
    intro e he
    rcases mem_addMethod hm.nodup_table h he with rfl | ⟨he, hname⟩
    · exact ⟨d, by simp [entryOf], rfl⟩
    · simpa [List.find?_cons, Ne.symm hname] using hm.last e he
  obtain ⟨hfield, -, -⟩ := addMethod_checked h
  rcases addMethod_ok h with ⟨hnone, rfl⟩ | ⟨slot, hslot, -, rfl⟩
  · have hnew := MethodTable.slotOf?_eq_none.1 hnone
    refine ⟨hm.fields, ?_, hlast, ?_⟩
    · have hnotMem : d.name ∉ ds.map Method.name := by simpa [hslots] using hnew
      rw [List.map_append, List.map_singleton, eraseDups_concat, if_neg hnotMem, ← hslots]
      simp [MethodTable.add, entryOf]
    · have hall := List.nodup_cons.2 ⟨notMem_names hfield hnew, hm.nodup⟩
      have hconcat := (List.perm_append_singleton d.name m.names).nodup_iff.2 hall
      simpa [names, MethodTable.add, entryOf] using hconcat
  · have hsame := MethodTable.names_set (d := entryOf r d) hslot
    refine ⟨hm.fields, ?_, hlast, ?_⟩
    · have hmem : d.name ∈ ds.map Method.name := by
        rw [← List.mem_eraseDups, ← hslots]
        exact List.mem_of_getElem? (MethodTable.name_of_slotOf? hslot)
      rw [hsame, List.map_append, List.map_singleton, eraseDups_concat, if_pos hmem, hslots]
    · unfold names
      rw [hsame]
      exact hm.nodup

theorem Collects.addFields {gs : List Field} (hm : Collects r fs ds m)
    (h : gs.foldlM (Members.addField r owner) m = .ok n) : Collects r (fs ++ gs) ds n := by
  induction gs generalizing m fs with
  | nil =>
    cases h
    simpa using hm
  | cons g gs ih =>
    rw [List.foldlM_cons] at h
    obtain ⟨m', hg, hrest⟩ := Outcome.bind_eq_ok.1 h
    simpa using ih (hm.addField hg) hrest

theorem Collects.addMethods {es : List Method} {earlier : List String} (hm : Collects r fs ds m)
    (h : m.addMethods r owner earlier es = .ok n) : Collects r fs (ds ++ es) n := by
  induction es generalizing m ds earlier with
  | nil =>
    cases h
    simpa using hm
  | cons e es ih =>
    obtain ⟨-, m', he, hrest⟩ := addMethods_cons_iff.1 h
    simpa using ih (hm.addMethod he) hrest

theorem Collects.extend {c : Class} (hm : Collects r fs ds m) (h : m.extend r c = .ok n) :
    Collects r (fs ++ c.fields) (ds ++ c.methods) n := by
  obtain ⟨m', hfields, hmethods⟩ := extend_ok h
  exact (hm.addFields hfields).addMethods hmethods

theorem collects_membersOf {chain : List Class} (h : r.membersOf chain = .ok m) :
    Collects r (declaredFields chain) (declaredMethods chain) m := by
  refine Registry.membersOf_ok (motive := fun cs m => Collects r (declaredFields cs) (declaredMethods cs) m)
    collects_empty ?_ h
  intro c cs m n hm hextend
  simpa [declaredFields, declaredMethods] using hm.extend hextend

/-! The entries of the index. -/

theorem mem_entries {e : Entry} : e ∈ m.fieldEntries ++ m.methodEntries ↔
    (∃ i f, m.fields.values[i]? = some f ∧ f.name ≠ "" ∧ e = ⟨f.hash, f.name, f.type, .field i⟩) ∨
      ∃ slot d, m.methods.get? slot = some d ∧ e = ⟨d.hash, d.name, d.type, .method slot⟩ := by
  rw [List.mem_append]
  refine or_congr ?_ ?_
  · simp only [fieldEntries, List.mem_map, List.mem_filter, Prod.exists, List.mem_zipIdx_iff_getElem?]
    constructor
    · rintro ⟨f, i, ⟨hf, hname⟩, rfl⟩
      exact ⟨i, f, hf, by simpa using hname, rfl⟩
    · rintro ⟨i, f, hf, hname, rfl⟩
      exact ⟨f, i, ⟨hf, by simpa using hname⟩, rfl⟩
  · simp only [methodEntries, List.mem_map, Prod.exists, List.mem_zipIdx_iff_getElem?]
    constructor
    · rintro ⟨d, slot, hd, rfl⟩
      exact ⟨slot, d, hd, rfl⟩
    · rintro ⟨slot, d, hd, rfl⟩
      exact ⟨d, slot, hd, rfl⟩

theorem map_name_entries (m : Members) :
    (m.fieldEntries ++ m.methodEntries).map Entry.name = m.names := by
  have hfields : m.fieldEntries.map Entry.name = (m.fields.values.filter (·.name != "")).map Field.name := by
    have hfst : m.fields.values = m.fields.values.zipIdx.map Prod.fst := by simp
    rw [fieldEntries, List.map_map]
    conv_rhs => rw [hfst, List.filter_map, List.map_map]
    rfl
  have hmethods : m.methodEntries.map Entry.name = m.methods.entries.map MethodEntry.name := by
    have hfst : m.methods.entries = m.methods.entries.zipIdx.map Prod.fst := by simp
    rw [methodEntries, List.map_map]
    conv_rhs => rw [hfst, List.map_map]
    rfl
  rw [List.map_append, hfields, hmethods, names]

end Members

namespace ClassLayout

variable {r : Registry} {chain : List Class} {x : ClassLayout} {e e' : Entry} {name : String}
  {hash : NameHash} {member : Member}

/-- A layout of the members that a chain of super classes declares, and the index over these. -/
structure Collected (r : Registry) (chain : List Class) (x : ClassLayout) : Prop where
  index : x.index = x.members.toIndex
  members : Members.Collects r (declaredFields chain) (declaredMethods chain) x.members

theorem Collected.mem_index (hx : Collected r chain x) :
    e ∈ x.index.entries.toList ↔ e ∈ x.members.fieldEntries ++ x.members.methodEntries := by
  rw [hx.index, Members.toIndex, MemberIndex.mem_ofList]

theorem Collected.sorted (hx : Collected r chain x) : x.index.Sorted := by
  rw [hx.index]
  exact MemberIndex.sorted_ofList _

theorem Collected.hash_of_mem (hx : Collected r chain x) (he : e ∈ x.index.entries.toList) :
    e.hash = Name.hash e.name := by
  rw [hx.mem_index, Members.mem_entries] at he
  rcases he with ⟨i, f, -, -, rfl⟩ | ⟨slot, d, -, rfl⟩ <;> rfl

theorem Collected.eq_of_name_eq (hx : Collected r chain x) (he : e ∈ x.index.entries.toList)
    (he' : e' ∈ x.index.entries.toList) (hname : e.name = e'.name) : e = e' := by
  rw [hx.mem_index] at he he'
  have hnodup := hx.members.nodup
  rw [← Members.map_name_entries] at hnodup
  exact List.inj_on_of_nodup_map hnodup he he' hname

/-- The entries lead to exactly what the names stand for. -/
theorem Collected.standsFor_iff (hx : Collected r chain x) : StandsFor chain x name member ↔
    ∃ e ∈ x.index.entries.toList, e.name = name ∧ x.member? e = some member := by
  have hm := hx.members
  simp only [hx.mem_index, Members.mem_entries]
  constructor
  · intro h
    cases h with
    | @field i p hdeclared hplaced hname hnamed =>
      refine ⟨_, Or.inl ⟨i, p.item, hm.fields ▸ hdeclared, hname ▸ hnamed, rfl⟩, hname, ?_⟩
      simp only [member?, Region.get?]
      exact congrArg (Option.map _) hplaced
    | @method slot d hslot hlast =>
      rw [← hm.slots, List.getElem?_map, Option.map_eq_some_iff] at hslot
      obtain ⟨e, he, hname⟩ := hslot
      obtain ⟨d', hd', rfl⟩ := hm.last e (List.mem_of_getElem? he)
      rw [hname] at hd'
      obtain rfl : d = d' := Option.some.inj (hlast.symm.trans hd')
      refine ⟨_, Or.inr ⟨slot, _, he, rfl⟩, hname, ?_⟩
      simp only [member?, methods, MethodTable.get?, he, Option.map_some]
      rfl
  · rintro ⟨e, ⟨i, f, hf, hnamed, rfl⟩ | ⟨slot, d, hd, rfl⟩, hname, hmember⟩
    · obtain ⟨p, hp, rfl⟩ := Option.map_eq_some_iff.1 hmember
      have hitem : x.members.fields.values[i]? = some p.item := by
        rw [Region.values, List.getElem?_map]
        exact congrArg (Option.map Placed.item) hp
      obtain rfl : f = p.item := Option.some.inj (hf.symm.trans hitem)
      exact .field (hm.fields ▸ hitem) hp hname (hname ▸ hnamed)
    · obtain ⟨e, he, rfl⟩ := Option.map_eq_some_iff.1 hmember
      obtain rfl : d = e := Option.some.inj (hd.symm.trans he)
      obtain ⟨d', hd', rfl⟩ := hm.last d (List.mem_of_getElem? hd)
      have hslot : (x.members.methods.entries.map MethodEntry.name)[slot]? = some name := by
        rw [List.getElem?_map, ← hname]
        exact congrArg (Option.map MethodEntry.name) hd
      exact .method (hm.slots ▸ hslot) (hname ▸ hd')

theorem Collected.member?_of_mem (hx : Collected r chain x) (he : e ∈ x.index.entries.toList) :
    (∃ member, x.member? e = some member) ∧
      -(x.methods.size : Int) ≤ e.place.toInt ∧ e.place.toInt < x.fields.length := by
  rw [hx.mem_index, Members.mem_entries] at he
  rcases he with ⟨i, f, hf, -, rfl⟩ | ⟨slot, d, hd, rfl⟩
  · rw [Region.values, List.getElem?_map, Option.map_eq_some_iff] at hf
    obtain ⟨p, hp, -⟩ := hf
    have hlt : i < x.fields.length := (List.getElem?_eq_some_iff.1 hp).1
    refine ⟨⟨_, congrArg (Option.map _) hp⟩, ?_⟩
    simp only [Place.toInt]
    omega
  · have hlt : slot < x.methods.size := (List.getElem?_eq_some_iff.1 hd).1
    refine ⟨⟨_, congrArg (Option.map _) hd⟩, ?_⟩
    simp only [Place.toInt]
    omega

theorem Collected.resolve?_eq_none (hx : Collected r chain x) :
    x.resolve? hash = none ↔ ∀ name member, StandsFor chain x name member → Name.hash name ≠ hash := by
  have hsorted := hx.sorted
  constructor
  · intro h name member hstands
    obtain ⟨e, he, rfl, -⟩ := hx.standsFor_iff.1 hstands
    rw [← hx.hash_of_mem he]
    refine hsorted.find?_eq_none.1 ?_ e he
    cases hfind : x.index.find? hash with
    | none => rfl
    | some e' =>
      obtain ⟨⟨member', hmember⟩, -⟩ := hx.member?_of_mem (MemberIndex.mem_of_find? hfind).1
      simp [resolve?, hfind, hmember] at h
  · intro h
    have hnone : x.index.find? hash = none := by
      rw [hsorted.find?_eq_none]
      intro e he
      obtain ⟨⟨member, hmember⟩, -⟩ := hx.member?_of_mem he
      rw [hx.hash_of_mem he]
      exact h e.name member (hx.standsFor_iff.2 ⟨e, he, rfl, hmember⟩)
    rw [resolve?, hnone, Option.bind_none]

/-- A hash leads to the member of the smallest name that has it. -/
theorem Collected.resolve?_eq_some (hx : Collected r chain x) :
    x.resolve? hash = some member ↔ ∃ name, Name.hash name = hash ∧ StandsFor chain x name member ∧
      ∀ other member', Name.hash other = hash → StandsFor chain x other member' → name ≤ other := by
  have hsorted := hx.sorted
  have hsmallest : ∀ e, x.index.find? hash = some e → ∀ other member', Name.hash other = hash →
      StandsFor chain x other member' → e.name ≤ other := by
    intro e hfind other member' hother hstands
    obtain ⟨-, -, hleast⟩ := hsorted.find?_eq_some hfind
    obtain ⟨e', he', rfl, -⟩ := hx.standsFor_iff.1 hstands
    exact hleast e' he' ((hx.hash_of_mem he').trans hother)
  constructor
  · intro h
    obtain ⟨e, hfind, hmember⟩ := Option.bind_eq_some_iff.1 h
    obtain ⟨he, hhash, -⟩ := hsorted.find?_eq_some hfind
    refine ⟨e.name, (hx.hash_of_mem he).symm.trans hhash, ?_, hsmallest e hfind⟩
    exact hx.standsFor_iff.2 ⟨e, he, rfl, hmember⟩
  · rintro ⟨name, hname, hstands, hleast⟩
    cases hfind : x.index.find? hash with
    | none =>
      have hnone : x.resolve? hash = none := by rw [resolve?, hfind, Option.bind_none]
      exact absurd hname (hx.resolve?_eq_none.1 hnone name member hstands)
    | some e' =>
      -- Both names are the smallest of the hash, so they are one, and so are the entries.
      obtain ⟨e, he, rfl, hmember⟩ := hx.standsFor_iff.1 hstands
      obtain ⟨he', hhash', -⟩ := hsorted.find?_eq_some hfind
      obtain ⟨⟨member', hmember'⟩, -⟩ := hx.member?_of_mem he'
      have hle := hleast e'.name member' ((hx.hash_of_mem he').symm.trans hhash')
        (hx.standsFor_iff.2 ⟨e', he', rfl, hmember'⟩)
      have hge := hsmallest e' hfind e.name member hname hstands
      obtain rfl := hx.eq_of_name_eq he he' (le_antisymm hle hge)
      rw [resolve?, hfind, Option.bind_some, hmember]

/-- A name leads to what it stands for, also if other names have the same hash. -/
theorem Collected.resolveNamed?_eq_some (hx : Collected r chain x) :
    x.resolveNamed? name = some member ↔ StandsFor chain x name member := by
  rw [hx.standsFor_iff, resolveNamed?, Option.bind_eq_some_iff]
  refine exists_congr fun e => ?_
  rw [hx.sorted.findNamed?_eq_some (fun e => hx.hash_of_mem) (fun e he e' => hx.eq_of_name_eq he), and_assoc]

theorem Collected.exists_standsFor_iff (hx : Collected r chain x) :
    (∃ member, StandsFor chain x name member) ↔
      (∃ f ∈ declaredFields chain, f.name ≠ "" ∧ f.name = name) ∨
        ∃ d ∈ declaredMethods chain, d.name = name := by
  constructor
  · rintro ⟨member, h⟩
    cases h with
    | @field i p hdeclared hplaced hname hnamed =>
      exact Or.inl ⟨p.item, List.mem_of_getElem? hdeclared, hname ▸ hnamed, hname⟩
    | @method slot d hslot hlast =>
      have hname := List.find?_some hlast
      exact Or.inr ⟨d, by simpa using List.mem_of_find?_eq_some hlast, by simpa using hname⟩
  · rintro (⟨f, hf, hnamed, hname⟩ | ⟨d, hd, hname⟩)
    · obtain ⟨i, hi⟩ := List.mem_iff_getElem?.1 hf
      have hvalue := hi
      rw [← hx.members.fields, Region.values, List.getElem?_map, Option.map_eq_some_iff] at hvalue
      obtain ⟨p, hp, rfl⟩ := hvalue
      exact ⟨_, .field hi hp hname (hname ▸ hnamed)⟩
    · have hslot : name ∈ ((declaredMethods chain).map Method.name).eraseDups := by
        rw [List.mem_eraseDups, ← hname]
        exact List.mem_map_of_mem hd
      obtain ⟨slot, hslot⟩ := List.mem_iff_getElem?.1 hslot
      cases hlast : (declaredMethods chain).reverse.find? (·.name == name) with
      | none => exact absurd hname (by simpa using List.find?_eq_none.1 hlast d (by simpa using hd))
      | some d' => exact ⟨_, .method hslot hlast⟩

end ClassLayout

namespace Registry

variable {r : Registry} {t : TypeId}

theorem getElem?_lineageFrom {steps : Nat} {cs : List Class} (h : r.lineageFrom steps t = .ok cs) (n : Nat) :
    cs[n]? = (r.ancestor? n t).bind r.class? := by
  induction steps generalizing t cs n with
  | zero =>
    obtain ⟨c, hc, ⟨hnone, rfl⟩ | ⟨_, _, _, _, hsteps, -⟩⟩ := lineageFrom_ok h
    · cases n <;> simp [super?, class?, hc, hnone]
    · cases hsteps
  | succ steps ih =>
    obtain ⟨c, hc, ⟨hnone, rfl⟩ | ⟨up, _, rest, hsome, hsteps, hrest, rfl⟩⟩ := lineageFrom_ok h
    · cases n <;> simp [super?, class?, hc, hnone]
    · cases hsteps
      cases n with
      | zero => simp [class?, hc]
      | succ n => simp [super?, class?, hc, hsome, ih hrest n]

/-- In the layout of a class each hash leads to the member that has the smallest name of this hash among
all fields and methods of the class and its super classes, and to none if there is no such member; each name
leads to the member that it stands for. No entry of the index leads out of the layout. -/
theorem classLayout_resolves {x : ClassLayout} (hx : r.classLayout t = .ok x) :
    ∃ chain, (∀ n : Nat, chain[n]? = (r.ancestor? n t).bind r.class?) ∧
      (∀ hash, x.resolve? hash = none ↔
        (∀ f ∈ declaredFields chain, f.name ≠ "" → f.hash ≠ hash) ∧
          ∀ d ∈ declaredMethods chain, d.hash ≠ hash) ∧
      (∀ hash member, x.resolve? hash = some member ↔
        ∃ name, Name.hash name = hash ∧ StandsFor chain x name member ∧
          ∀ other member', Name.hash other = hash → StandsFor chain x other member' → name ≤ other) ∧
      (∀ name, name ≠ "" → ((x.resolveNamed? name).isSome = true ↔
        (∃ f ∈ declaredFields chain, f.name = name) ∨ ∃ d ∈ declaredMethods chain, d.name = name)) ∧
      (∀ name member, x.resolveNamed? name = some member ↔ StandsFor chain x name member) ∧
      ∀ e ∈ x.index.entries.toList, (∃ member, x.member? e = some member) ∧
        -(x.methods.size : Int) ≤ e.place.toInt ∧ e.place.toInt < x.fields.length := by
  obtain ⟨chain, hchain, hmembers, hindex, -⟩ := classLayout_ok hx
  have hcollected : ClassLayout.Collected r chain x := ⟨hindex, Members.collects_membersOf hmembers⟩
  refine ⟨chain, getElem?_lineageFrom hchain, ?_, ?_, ?_, ?_, ?_⟩
  · intro hash
    rw [hcollected.resolve?_eq_none]
    constructor
    · intro h
      refine ⟨?_, ?_⟩
      · intro f hf hnamed
        obtain ⟨member, hstands⟩ := hcollected.exists_standsFor_iff.2 (Or.inl ⟨f, hf, hnamed, rfl⟩)
        exact h f.name member hstands
      · intro d hd
        obtain ⟨member, hstands⟩ := hcollected.exists_standsFor_iff.2 (Or.inr ⟨d, hd, rfl⟩)
        exact h d.name member hstands
    · rintro ⟨hfields, hmethods⟩ name member hstands
      rcases hcollected.exists_standsFor_iff.1 ⟨member, hstands⟩ with ⟨f, hf, hnamed, rfl⟩ | ⟨d, hd, rfl⟩
      · exact hfields f hf hnamed
      · exact hmethods d hd
  · exact fun hash member => hcollected.resolve?_eq_some
  · intro name hnamed
    rw [Option.isSome_iff_exists]
    simp only [hcollected.resolveNamed?_eq_some]
    rw [hcollected.exists_standsFor_iff]
    refine or_congr_left (exists_congr fun f => and_congr_right fun _ => ?_)
    exact ⟨And.right, fun hname => ⟨hname ▸ hnamed, hname⟩⟩
  · exact fun name member => hcollected.resolveNamed?_eq_some
  · exact fun e he => hcollected.member?_of_mem he

/-- Two fields whose names have one hash, a field without name, and a method that is overridden. -/
def clashingTypes : Registry :=
  ⟨(Descriptor.builtins ++
    ([.function [.ofIndex 14, .i32] .i32, .function [.ofIndex 15, .i32] .i32,
      .object ⟨"Base", none, [⟨"", .i8⟩, ⟨"ba", .i32⟩], [⟨"compare", 4, .ofIndex 12⟩]⟩,
      .object ⟨"Derived", some (.ofIndex 14), [⟨"a\u0140", .f64⟩], [⟨"compare", 5, .ofIndex 13⟩]⟩] :
      List Descriptor)).toArray⟩

/-- The hash of both fields leads to the one that the subclass adds, as its name is the smaller one; by name
the other one is found, too. The negative hash of the method leads to the override. -/
theorem clashingTypes_resolve :
    ∃ x chain, clashingTypes.classLayout (.ofIndex 15) = .ok x ∧
      Name.hash "ba" = 21951 ∧ Name.hash "a\u0140" = 21951 ∧
      StandsFor chain x "a\u0140" (.field 2 16 .f64) ∧ StandsFor chain x "ba" (.field 1 12 .i32) ∧
      x.resolve? 21951 = some (.field 2 16 .f64) ∧ x.resolveNamed? "ba" = some (.field 1 12 .i32) ∧
      Name.hash "compare" = -479652074 ∧ x.resolve? (-479652074) = some (.method 0 5 (.ofIndex 13)) := by
  have hall : (clashingTypes.classLayout (.ofIndex 15)).map (fun x =>
      (x.resolveNamed? "a\u0140", x.resolveNamed? "ba", x.resolve? 21951, x.resolve? (-479652074))) =
        .ok (some (.field 2 16 .f64), some (.field 1 12 .i32), some (.field 2 16 .f64),
          some (.method 0 5 (.ofIndex 13))) := by
    decide +kernel
  obtain ⟨x, hx, hfound⟩ := Outcome.map_eq_ok.1 hall
  obtain ⟨hsmall, hgreat, hhash, hmethod⟩ := by simpa using hfound
  obtain ⟨chain, -, -, -, -, hnamed, -⟩ := classLayout_resolves hx
  exact ⟨x, chain, hx, by decide +kernel, by decide +kernel, (hnamed _ _).1 hsmall, (hnamed _ _).1 hgreat,
    hhash, hgreat, by decide +kernel, hmethod⟩

end Registry

end ObjectModel
