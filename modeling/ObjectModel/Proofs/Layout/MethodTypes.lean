import ObjectModel.Proofs.Layout.Agreement
import ObjectModel.Proofs.Layout.Faults

/-!
What structural equality leaves out. Two classes count as the same if their methods have the same names and
functions; the types of the methods are not compared. So one of two such classes may have a layout while
the other one has none, and the methods in one slot may have types that differ; both are ruled out if the
types of the methods that the two chains declare are the same, too.
-/

set_option autoImplicit false
set_option relaxedAutoImplicit false

namespace ObjectModel

theorem exists_mem_of_rel {α β : Type} {R : α → β → Prop} {xs : List α} {ys : List β}
    (h : List.Forall₂ R xs ys) {y : β} (hy : y ∈ ys) : ∃ x ∈ xs, R x y := by
  obtain ⟨i, hi, rfl⟩ := List.mem_iff_getElem.1 hy
  have hlt : i < xs.length := h.length_eq ▸ hi
  exact ⟨xs[i], List.getElem_mem hlt, h.get hlt hi⟩

/-- Methods that are declared in order with the same types. -/
abbrev Class.MethodsAlike (r : Registry) (c d : Class) : Prop :=
  List.Forall₂ (fun m n => r.sameType m.type n.type = true) c.methods d.methods

namespace Registry

variable {r : Registry} {t u base child base' child' : TypeId}

private theorem replaces_of_same {args : List TypeId} {ret : TypeId} (h : r.sameType t u = true)
    (ht : r.get? t = some (.function args ret)) : r.Replaces t u := by
  obtain ⟨d, hu, halike⟩ := alike_of_sameType h ht
  obtain ⟨args', ret', rfl, hargs, hret⟩ := Descriptor.Alike.of_function halike
  refine ⟨args, ret, args', ret', ht, hu, hargs.length_eq, ?_, Or.inl hret⟩
  intro i x y _ hx hy
  have hrel := getElem?_rel hargs i
  rw [hx, hy] at hrel
  cases hrel with
  | some hxy => exact hxy

private theorem Built.replaces_congr (hb : r.Built) (hbase : r.sameType base base' = true)
    (hchild : r.sameType child child' = true) (h : r.Replaces base child) : r.Replaces base' child' := by
  obtain ⟨bargs, bret, cargs, cret, hbget, hcget, -⟩ := id h
  obtain ⟨d, hget, halike⟩ := alike_of_sameType hbase hbget
  obtain ⟨args', ret', rfl, -⟩ := Descriptor.Alike.of_function halike
  have hfirst := replaces_of_same (sameType_symm hbase) hget
  exact hb.replaces_trans hfirst (hb.replaces_trans h (replaces_of_same hchild hcget))

end Registry

namespace Members

variable {r : Registry} {m n : Members} {fs gs : List Field} {ms ns : List Method} {c d : Class}

/-- Members that agree, down to the types of their methods. -/
structure AgreeInTypes (r : Registry) (m n : Members) : Prop extends Agree r m n where
  types : List.Forall₂ (fun d e => r.sameType d.type e.type = true) m.methods.entries n.methods.entries

private theorem find?_together {k : String} {x y : Method} (hnames : ms.map Method.name = ns.map Method.name)
    (hx : ms.find? (·.name == k) = some x) (hy : ns.find? (·.name == k) = some y) :
    ∃ i : Nat, ms[i]? = some x ∧ ns[i]? = some y := by
  induction ms generalizing ns with
  | nil => cases hx
  | cons m ms ih =>
    cases ns with
    | nil => cases hy
    | cons n ns =>
      obtain ⟨hname, hrest⟩ := List.cons_eq_cons.1 hnames
      by_cases hk : m.name = k
      · rw [List.find?_cons_of_pos (by simpa using hk)] at hx
        rw [List.find?_cons_of_pos (by simpa [← hname] using hk)] at hy
        exact ⟨0, hx, hy⟩
      · rw [List.find?_cons_of_neg (by simpa using hk)] at hx
        rw [List.find?_cons_of_neg (by simpa [← hname] using hk)] at hy
        obtain ⟨i, hi⟩ := ih hrest hx hy
        exact ⟨i + 1, hi⟩

theorem Collects.declared_together (hm : Collects r fs ms m) (hn : Collects r gs ns n)
    (hnames : ms.map Method.name = ns.map Method.name) {slot : Nat} {d e : MethodEntry}
    (hd : m.methods.get? slot = some d) (he : n.methods.get? slot = some e) :
    ∃ (i : Nat) (x y : Method), ms[i]? = some x ∧ ns[i]? = some y ∧ d = entryOf r x ∧ e = entryOf r y := by
  have hslots : m.methods.entries.map MethodEntry.name = n.methods.entries.map MethodEntry.name := by
    rw [hm.slots, hn.slots, hnames]
  have hname : d.name = e.name := by
    have hslot := congrArg (fun names => names[slot]?) hslots
    rw [MethodTable.get?] at hd he
    simpa [List.getElem?_map, hd, he] using hslot
  obtain ⟨x, hx, rfl⟩ := hm.last d (List.mem_of_getElem? hd)
  obtain ⟨y, hy, rfl⟩ := hn.last e (List.mem_of_getElem? he)
  rw [← hname] at hy
  have hreversed : ms.reverse.map Method.name = ns.reverse.map Method.name := by
    rw [List.map_reverse, List.map_reverse, hnames]
  obtain ⟨i, hxi, hyi⟩ := find?_together hreversed hx hy
  have hlength : ms.length = ns.length := by simpa using congrArg List.length hnames
  have hlt : i < ms.length := by simpa using (List.getElem?_eq_some_iff.1 hxi).1
  rw [List.getElem?_reverse hlt] at hxi
  rw [List.getElem?_reverse (hlength ▸ hlt), ← hlength] at hyi
  exact ⟨_, x, y, hxi, hyi, rfl, rfl⟩

end Members

namespace Registry

variable {r : Registry} {a b : TypeId} {cs ds : List Class} {m n : Members}

theorem declaredMethods_alike (h : List.Forall₂ r.ClassAlike cs ds) :
    List.Forall₂ (fun x y => x.name = y.name ∧ x.function = y.function) (declaredMethods cs)
      (declaredMethods ds) :=
  List.rel_flatMap (List.rel_reverse h) fun _ _ hcd => hcd.2.2.2

theorem declaredMethods_types (h : List.Forall₂ (Class.MethodsAlike r) cs ds) :
    List.Forall₂ (fun x y => r.sameType x.type y.type = true) (declaredMethods cs) (declaredMethods ds) :=
  List.rel_flatMap (List.rel_reverse h) fun _ _ hcd => hcd

theorem membersOf_declared (h : List.Forall₂ r.ClassAlike cs ds) (hm : r.membersOf cs = .ok m)
    (hn : r.membersOf ds = .ok n) {slot : Nat} {d e : MethodEntry} (hd : m.methods.get? slot = some d)
    (he : n.methods.get? slot = some e) : ∃ (i : Nat) (x y : Method),
      (declaredMethods cs)[i]? = some x ∧ (declaredMethods ds)[i]? = some y ∧
        d = Members.entryOf r x ∧ e = Members.entryOf r y :=
  (Members.collects_membersOf hm).declared_together (Members.collects_membersOf hn)
    (map_eq_of_rel ((declaredMethods_alike h).imp fun _ _ hxy => hxy.1)) hd he

theorem membersOf_agreeInTypes (h : List.Forall₂ r.ClassAlike cs ds)
    (htypes : List.Forall₂ (Class.MethodsAlike r) cs ds) (hm : r.membersOf cs = .ok m)
    (hn : r.membersOf ds = .ok n) : Members.AgreeInTypes r m n := by
  have hagree := membersOf_agree h hm hn
  refine { hagree with types := List.forall₂_iff_get.2 ⟨hagree.methods.length_eq, ?_⟩ }
  intro slot hd he
  obtain ⟨i, x, y, hx, hy, hdx, hey⟩ := membersOf_declared h hm hn (List.getElem?_eq_getElem hd)
    (List.getElem?_eq_getElem he)
  have hrel := getElem?_rel (declaredMethods_types htypes) i
  rw [hx, hy] at hrel
  rw [List.get_eq_getElem, List.get_eq_getElem, hdx, hey]
  cases hrel with
  | some hxy => exact hxy

end Registry

namespace Class

variable {r : Registry} {m n : Members} {c d : Class}

/-- Whether a class may be laid out depends on what it declares and inherits, and on its types up to
structural equality only. -/
theorem Admissible.congr (hb : r.Built) (hmn : Members.AgreeInTypes r m n) (hcd : r.ClassAlike c d)
    (htypes : c.MethodsAlike r d) (h : c.Admissible r m) : d.Admissible r n := by
  obtain ⟨-, -, hfields, hmethods⟩ := hcd
  have hfieldNames : c.fields.map Field.name = d.fields.map Field.name :=
    map_eq_of_rel (hfields.imp fun _ _ hfg => hfg.1)
  have hmethodNames : c.methods.map Method.name = d.methods.map Method.name :=
    map_eq_of_rel (hmethods.imp fun _ _ hxy => hxy.1)
  have hfree {name : String} (hm : m.Free name) : n.Free name := by
    refine ⟨?_, ?_⟩
    · intro g hg
      obtain ⟨q, hq, rfl⟩ := List.mem_map.1 hg
      obtain ⟨p, hp, -, hname, -⟩ := exists_mem_of_rel hmn.fields hq
      exact hname ▸ hm.1 p.item (List.mem_map_of_mem hp)
    · intro e he
      obtain ⟨d, hd, hname, -⟩ := exists_mem_of_rel hmn.methods he
      exact hname ▸ hm.2 d hd
  refine ⟨?_, ?_, ?_, ?_, ?_, ?_⟩
  · have hnames (fs : List Field) : Members.namesOf fs = (fs.map Field.name).filter (· != "") := by
      rw [List.filter_map]
      rfl
    rw [hnames, ← hfieldNames, ← hnames]
    exact h.fieldsOnce
  · intro g hg hnamed
    obtain ⟨f, hf, hname, -⟩ := exists_mem_of_rel hfields hg
    exact hfree (hname ▸ h.fieldsNew f hf (hname ▸ hnamed))
  · rw [← hmethodNames]
    exact h.methodsOnce
  · intro y hy g hg
    obtain ⟨x, hx, hname, -⟩ := exists_mem_of_rel hmethods hy
    rw [← hname]
    rcases List.mem_append.1 hg with hg | hg
    · obtain ⟨q, hq, rfl⟩ := List.mem_map.1 hg
      obtain ⟨p, hp, -, hpq, -⟩ := exists_mem_of_rel hmn.fields hq
      exact hpq ▸ h.methodsApart x hx p.item (List.mem_append_left _ (List.mem_map_of_mem hp))
    · obtain ⟨f, hf, hfg, -⟩ := exists_mem_of_rel hfields hg
      exact hfg ▸ h.methodsApart x hx f (List.mem_append_right _ hf)
  · intro y hy
    obtain ⟨x, hx, hxy⟩ := exists_mem_of_rel htypes hy
    obtain ⟨args, ret, hget⟩ := h.functions x hx
    obtain ⟨e, he, halike⟩ := Registry.alike_of_sameType hxy hget
    obtain ⟨args', ret', rfl, -⟩ := Descriptor.Alike.of_function halike
    exact ⟨args', ret', he⟩
  · intro y hy e' he' hname
    obtain ⟨i, hi, rfl⟩ := List.mem_iff_getElem.1 hy
    obtain ⟨slot, hslot, rfl⟩ := List.mem_iff_getElem.1 he'
    have hi' : i < c.methods.length := htypes.length_eq ▸ hi
    have hslot' : slot < m.methods.entries.length := hmn.types.length_eq ▸ hslot
    have hsame : m.methods.entries[slot].name = c.methods[i].name :=
      ((hmn.methods.get hslot' hslot).1.trans hname).trans (hmethods.get hi' hi).1.symm
    exact hb.replaces_congr (hmn.types.get hslot' hslot) (htypes.get hi' hi)
      (h.overriding _ (List.getElem_mem hi') _ (List.getElem_mem hslot') hsame)

end Class

namespace Registry

variable {r : Registry} {a b : TypeId} {cs ds : List Class} {m n : Members}

private theorem Built.membersOf_congr (hb : r.Built) (h : List.Forall₂ r.ClassAlike cs ds)
    (htypes : List.Forall₂ (Class.MethodsAlike r) cs ds)
    (hleft : ∀ c ∈ cs, ∀ f ∈ c.fields, ∃ k, r.kind? f.type = some k)
    (hright : ∀ d ∈ ds, ∀ f ∈ d.fields, ∃ k, r.kind? f.type = some k) (hm : r.membersOf cs = .ok m) :
    ∃ n, r.membersOf ds = .ok n := by
  induction h generalizing m with
  | nil => exact ⟨.empty, rfl⟩
  | @cons c d cs ds hcd hrest ih =>
    obtain ⟨htype, htypes⟩ := List.forall₂_cons.1 htypes
    obtain ⟨hc, hcs⟩ := List.forall_mem_cons.1 hleft
    obtain ⟨hd, hds⟩ := List.forall_mem_cons.1 hright
    obtain ⟨m₁, hm₁, hextend⟩ := membersOf_cons_ok hm
    obtain ⟨n₁, hn₁⟩ := ih htypes hcs hds hm₁
    have hadmissible : c.Admissible r m₁ :=
      ((Members.collects_membersOf hm₁).exists_extend hc).1 ⟨m, hextend⟩
    have hagree := membersOf_agreeInTypes hrest htypes hm₁ hn₁
    obtain ⟨n, hn⟩ := ((Members.collects_membersOf hn₁).exists_extend hd).2
      (hadmissible.congr hb hagree hcd htype)
    exact ⟨n, Outcome.bind_eq_ok.2 ⟨n₁, hn₁, hn⟩⟩

private theorem Built.classLayout_congr (hb : r.Built) (h : r.sameType a b = true)
    (hcs : r.lineage a = .ok cs) (hds : r.lineage b = .ok ds)
    (htypes : List.Forall₂ (Class.MethodsAlike r) cs ds) (hx : ∃ x, r.classLayout a = .ok x) :
    ∃ y, r.classLayout b = .ok y := by
  obtain ⟨x, hx⟩ := hx
  obtain ⟨cs', hcs', hm, -⟩ := classLayout_ok hx
  obtain rfl := Except.ok.inj (hcs.symm.trans hcs')
  obtain ⟨n, hn⟩ := hb.membersOf_congr (lineageFrom_alike h hcs hds) htypes (hb.kind?_of_lineage hcs)
    (hb.kind?_of_lineage hds) hm
  obtain ⟨d, hd, -⟩ := lineageFrom_ok hds
  obtain ⟨y, hy, -⟩ := classLayout_of_membersOf hd hds hn
  exact ⟨y, hy⟩

/-- Two classes that are the same have chains whose methods are declared with the same names and functions,
in order. What stands in equal slots of their layouts was declared at the same place, with the types given
there. If the types that are declared at the same places are the same, too, one of the classes has a layout
exactly if the other one has, and methods in equal slots have types that are the same. -/
theorem Built.layouts_of_same (hb : r.Built) (h : r.sameType a b = true) {c : Class}
    (hc : r.get? a = some (.object c)) :
    ∃ cs ds, r.lineage a = .ok cs ∧ r.lineage b = .ok ds ∧
      List.Forall₂ (fun x y => x.name = y.name ∧ x.function = y.function) (declaredMethods cs)
        (declaredMethods ds) ∧
      (∀ x y, r.classLayout a = .ok x → r.classLayout b = .ok y → ∀ slot d e,
        x.methods.get? slot = some d → y.methods.get? slot = some e → ∃ (i : Nat) (m n : Method),
          (declaredMethods cs)[i]? = some m ∧ (declaredMethods ds)[i]? = some n ∧ d.name = m.name ∧
            e.name = n.name ∧ d.type = m.type ∧ e.type = n.type) ∧
      (List.Forall₂ (Class.MethodsAlike r) cs ds →
        ((∃ x, r.classLayout a = .ok x) ↔ ∃ y, r.classLayout b = .ok y) ∧
        ∀ x y, r.classLayout a = .ok x → r.classLayout b = .ok y →
          List.Forall₂ (fun d e => r.sameType d.type e.type = true) x.methods.entries
            y.methods.entries) := by
  obtain ⟨e, he, halike⟩ := alike_of_sameType h hc
  obtain ⟨d, rfl⟩ : ∃ d, e = .object d := by
    cases e with
    | object d => exact ⟨d, rfl⟩
    | _ => exact absurd (Descriptor.Alike.kind_eq halike) (by simp [Descriptor.kind])
  obtain ⟨cs, hcs⟩ := hb.exists_lineage hc
  obtain ⟨ds, hds⟩ := hb.exists_lineage he
  have hchains := lineageFrom_alike h hcs hds
  have hmembers {x y : ClassLayout} (hx : r.classLayout a = .ok x) (hy : r.classLayout b = .ok y) :
      r.membersOf cs = .ok x.members ∧ r.membersOf ds = .ok y.members := by
    obtain ⟨cs', hcs', hm, -⟩ := classLayout_ok hx
    obtain ⟨ds', hds', hn, -⟩ := classLayout_ok hy
    obtain rfl := Except.ok.inj (hcs.symm.trans hcs')
    obtain rfl := Except.ok.inj (hds.symm.trans hds')
    exact ⟨hm, hn⟩
  refine ⟨cs, ds, hcs, hds, declaredMethods_alike hchains, ?_, ?_⟩
  · intro x y hx hy slot d e hd he
    obtain ⟨hm, hn⟩ := hmembers hx hy
    obtain ⟨i, m, n, hmi, hni, rfl, rfl⟩ := membersOf_declared hchains hm hn hd he
    exact ⟨i, m, n, hmi, hni, rfl, rfl, rfl, rfl⟩
  · intro htypes
    have hback : List.Forall₂ (Class.MethodsAlike r) ds cs :=
      htypes.flip.imp fun _ _ hcd => hcd.flip.imp fun _ _ => sameType_symm
    refine ⟨⟨hb.classLayout_congr h hcs hds htypes, hb.classLayout_congr (sameType_symm h) hds hcs hback⟩, ?_⟩
    intro x y hx hy
    obtain ⟨hm, hn⟩ := hmembers hx hy
    exact (membersOf_agreeInTypes hchains htypes hm hn).types

/-- Two classes with a subclass each, which differ in the ids of their method types only; a subclass whose
method has no function type; and a class whose method gives back a type of its own. -/
def namesakeTypes : Registry :=
  ⟨(Descriptor.builtins ++
    ([.function [.dynamic] .i32, .function [.dynamic] .i32,
      .object ⟨"Base", none, [], [⟨"size", 0, .ofIndex 12⟩]⟩,
      .object ⟨"Base", none, [], [⟨"size", 0, .ofIndex 13⟩]⟩,
      .object ⟨"Derived", some (.ofIndex 14), [⟨"next", .ofIndex 14⟩], [⟨"size", 1, .ofIndex 12⟩]⟩,
      .object ⟨"Derived", some (.ofIndex 15), [⟨"next", .ofIndex 15⟩], [⟨"size", 1, .ofIndex 13⟩]⟩,
      .object ⟨"Derived", some (.ofIndex 14), [⟨"next", .ofIndex 14⟩], [⟨"size", 1, .i32⟩]⟩,
      .function [.dynamic] .f64, .object ⟨"Base", none, [], [⟨"size", 0, .ofIndex 19⟩]⟩,
      .function [] .i32, .function [] .f64] : List Descriptor)).toArray⟩

theorem namesakeTypes_built : namesakeTypes.Built :=
  .of_adds (namesakeTypes.types.toList.drop Descriptor.builtins.length) (by decide +kernel)
    (by decide +kernel)

/-- The two subclasses whose methods have types that are the same both have layouts, and the overriding
methods in the first slots have such types. -/
theorem namesakeTypes_alike :
    namesakeTypes.sameType (.ofIndex 16) (.ofIndex 17) = true ∧
    (∃ cs ds, namesakeTypes.lineage (.ofIndex 16) = .ok cs ∧ namesakeTypes.lineage (.ofIndex 17) = .ok ds ∧
      List.Forall₂ (Class.MethodsAlike namesakeTypes) cs ds) ∧
    ∃ x y, namesakeTypes.classLayout (.ofIndex 16) = .ok x ∧
      namesakeTypes.classLayout (.ofIndex 17) = .ok y ∧
      List.Forall₂ (fun d e => namesakeTypes.sameType d.type e.type = true) x.methods.entries
        y.methods.entries := by
  have hsame : namesakeTypes.sameType (.ofIndex 16) (.ofIndex 17) = true := by decide +kernel
  obtain ⟨cs, ds, hcs, hds, -, -, hlayouts⟩ := namesakeTypes_built.layouts_of_same hsame rfl
  have htypes : List.Forall₂ (Class.MethodsAlike namesakeTypes) cs ds := by
    have hleft : namesakeTypes.lineage (.ofIndex 16) = .ok
        [⟨"Derived", some (.ofIndex 14), [⟨"next", .ofIndex 14⟩], [⟨"size", 1, .ofIndex 12⟩]⟩,
          ⟨"Base", none, [], [⟨"size", 0, .ofIndex 12⟩]⟩] := by
      decide +kernel
    have hright : namesakeTypes.lineage (.ofIndex 17) = .ok
        [⟨"Derived", some (.ofIndex 15), [⟨"next", .ofIndex 15⟩], [⟨"size", 1, .ofIndex 13⟩]⟩,
          ⟨"Base", none, [], [⟨"size", 0, .ofIndex 13⟩]⟩] := by
      decide +kernel
    obtain rfl := Except.ok.inj (hleft.symm.trans hcs)
    obtain rfl := Except.ok.inj (hright.symm.trans hds)
    have hmethod : namesakeTypes.sameType (.ofIndex 12) (.ofIndex 13) = true := by decide +kernel
    exact .cons (.cons hmethod .nil) (.cons (.cons hmethod .nil) .nil)
  obtain ⟨hboth, hslots⟩ := hlayouts htypes
  have hok : (namesakeTypes.classLayout (.ofIndex 16)).map (fun _ => ()) = .ok () := by decide +kernel
  obtain ⟨x, hx, -⟩ := Outcome.map_eq_ok.1 hok
  obtain ⟨y, hy⟩ := hboth.1 ⟨x, hx⟩
  exact ⟨hsame, ⟨cs, ds, hcs, hds, htypes⟩, x, y, hx, hy, hslots x y hx hy⟩

/-- Of two classes that are the same, one may have a layout while the other one has none, and two that have
layouts may hold methods of different types in one slot. -/
theorem namesakeTypes_told_apart :
    namesakeTypes.Built ∧ namesakeTypes.sameType (.ofIndex 16) (.ofIndex 18) = true ∧
    (∃ x, namesakeTypes.classLayout (.ofIndex 16) = .ok x) ∧
    namesakeTypes.classLayout (.ofIndex 18) = .error (.notAFunction "Derived" "size") ∧
    namesakeTypes.sameType (.ofIndex 14) (.ofIndex 20) = true ∧
    ∃ x y d e, namesakeTypes.classLayout (.ofIndex 14) = .ok x ∧
      namesakeTypes.classLayout (.ofIndex 20) = .ok y ∧ x.methods.get? 0 = some d ∧
      y.methods.get? 0 = some e ∧ namesakeTypes.sameType d.type e.type = false := by
  have hfirst : (namesakeTypes.classLayout (.ofIndex 16)).map (fun _ => ()) = .ok () := by decide +kernel
  obtain ⟨x, hx, -⟩ := Outcome.map_eq_ok.1 hfirst
  have hleft : (namesakeTypes.classLayout (.ofIndex 14)).map (fun x => x.methods.get? 0) =
      .ok (some ⟨"size", 0, .ofIndex 12, some (.ofIndex 21)⟩) := by
    decide +kernel
  have hright : (namesakeTypes.classLayout (.ofIndex 20)).map (fun x => x.methods.get? 0) =
      .ok (some ⟨"size", 0, .ofIndex 19, some (.ofIndex 22)⟩) := by
    decide +kernel
  obtain ⟨y, hy, hd⟩ := Outcome.map_eq_ok.1 hleft
  obtain ⟨z, hz, he⟩ := Outcome.map_eq_ok.1 hright
  exact ⟨namesakeTypes_built, by decide +kernel, ⟨x, hx⟩, by decide +kernel, by decide +kernel, y, z, _, _,
    hy, hz, hd, he, by decide +kernel⟩

end Registry

end ObjectModel
