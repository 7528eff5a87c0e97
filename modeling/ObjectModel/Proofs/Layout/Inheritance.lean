import ObjectModel.Proofs.Layout.Agreement

/-!
A subclass keeps the layout that it inherits as the first part of its own: whoever knows the layout of
a super class, or of a type that is the same, can use an instance of the subclass through it.
-/

set_option autoImplicit false
set_option relaxedAutoImplicit false

namespace ObjectModel

namespace Members

variable {r : Registry} {owner : String} {m n l : Members}

/-- Members that start with all of `m`: its fields where they are, more fields only behind them, and in
its slots methods of the same names. -/
structure Inherits (m n : Members) : Prop where
  fields : ∃ own, n.fields.items = m.fields.items ++ own ∧ ∀ p ∈ own, m.fields.stop ≤ p.offset
  stop : m.fields.stop ≤ n.fields.stop
  methods : m.methods.entries.map MethodEntry.name <+: n.methods.entries.map MethodEntry.name

private theorem Inherits.refl (m : Members) : Inherits m m :=
  ⟨⟨[], (List.append_nil _).symm, fun _ hp => absurd hp List.not_mem_nil⟩, le_rfl, List.prefix_rfl⟩

private theorem Inherits.trans (h : Inherits m n) (h' : Inherits n l) : Inherits m l := by
  obtain ⟨own, hown, hbehind⟩ := h.fields
  obtain ⟨own', hown', hbehind'⟩ := h'.fields
  refine ⟨⟨own ++ own', ?_, ?_⟩, h.stop.trans h'.stop, h.methods.trans h'.methods⟩
  · rw [hown', hown, List.append_assoc]
  · intro p hp
    rcases List.mem_append.1 hp with hp | hp
    · exact hbehind p hp
    · exact h.stop.trans (hbehind' p hp)

private theorem addField_inherits {f : Field} (h : addField r owner m f = .ok n) : Inherits m n := by
  obtain ⟨k, -, rfl⟩ := addField_ok h
  refine ⟨⟨_, rfl, ?_⟩, ?_, List.prefix_rfl⟩
  · intro p hp
    obtain rfl := List.mem_singleton.1 hp
    exact k.le_alignUp m.fields.stop
  · exact (k.le_alignUp m.fields.stop).trans (Nat.le_add_right _ _)

private theorem addFields_inherits {fs : List Field} (h : fs.foldlM (addField r owner) m = .ok n) :
    Inherits m n := by
  induction fs generalizing m with
  | nil =>
    cases h
    exact .refl n
  | cons f fs ih =>
    rw [List.foldlM_cons] at h
    obtain ⟨m', hf, hrest⟩ := Outcome.bind_eq_ok.1 h
    exact (addField_inherits hf).trans (ih hrest)

private theorem addMethod_inherits {d : Method} (h : m.addMethod r owner d = .ok n) : Inherits m n := by
  rcases addMethod_ok h with ⟨-, rfl⟩ | ⟨slot, hslot, -, rfl⟩
  · refine ⟨(Inherits.refl m).fields, le_rfl, ?_⟩
    simp only [MethodTable.add, List.map_append]
    exact List.prefix_append _ _
  · -- The method in the slot has the name of the one that replaces it, so the names stay.
    obtain ⟨hlt, hname, -⟩ := List.findIdx?_eq_some_iff_getElem.1 hslot
    refine ⟨(Inherits.refl m).fields, le_rfl, ?_⟩
    have hsame : (entryOf r d).name = m.methods.entries[slot].name := (beq_iff_eq.1 hname).symm
    have hlt' : slot < (m.methods.entries.map MethodEntry.name).length := by simpa using hlt
    rw [List.map_set, hsame, ← List.getElem_map MethodEntry.name (h := hlt'), List.set_getElem_self]

theorem extend_inherits {c : Class} (h : m.extend r c = .ok n) : Inherits m n := by
  obtain ⟨m', hfields, hmethods⟩ := extend_ok h
  exact addMethods_ok (fun _ _ _ _ hm hd => hm.trans (addMethod_inherits hd))
    (addFields_inherits hfields) hmethods

end Members

namespace Registry

variable {r : Registry} {sub sup : TypeId} {x y : ClassLayout}

private theorem membersOf_append {cs ds : List Class} {m : Members} (h : r.membersOf (cs ++ ds) = .ok m) :
    ∃ inherited, r.membersOf ds = .ok inherited ∧ Members.Inherits inherited m := by
  induction cs generalizing m with
  | nil => exact ⟨m, h, .refl m⟩
  | cons c cs ih =>
    obtain ⟨m', hm', hextend⟩ := membersOf_cons_ok h
    obtain ⟨inherited, hds, hinherits⟩ := ih hm'
    exact ⟨inherited, hds, hinherits.trans (Members.extend_inherits hextend)⟩

private theorem lineageFrom_subclassFrom {steps steps' : Nat} {cs : List Class}
    (h : r.subclassFrom sup steps sub = true) (hcs : r.lineageFrom steps' sub = .ok cs) :
    ∃ t n nearer older, r.sameType t sup = true ∧ r.lineageFrom n t = .ok older ∧
      cs = nearer ++ older := by
  -- Both functions go up the same super classes, each within a bound of its own.
  induction steps generalizing sub steps' cs with
  | zero => exact ⟨sub, steps', [], cs, h, hcs, rfl⟩
  | succ steps ih =>
    rw [subclassFrom, Bool.or_eq_true] at h
    rcases h with h | h
    · exact ⟨sub, steps', [], cs, h, hcs, rfl⟩
    · obtain ⟨c, hc, ⟨hnone, -⟩ | ⟨up, n, rest, hsome, -, hrest, rfl⟩⟩ := lineageFrom_ok hcs
      · simp [super?, class?, hc, hnone] at h
      · simp only [super?, class?, hc, Option.bind_some, hsome] at h
        obtain ⟨t, n', nearer, older, hsame, hold, rfl⟩ := ih h hrest
        exact ⟨t, n', c :: nearer, older, hsame, hold, rfl⟩

/-- The layout of a subclass inherits the members of a layout that agrees with that of the super class. -/
theorem classLayout_inherits (h : r.isSubclass sub sup = true) (hx : r.classLayout sub = .ok x)
    (hy : r.classLayout sup = .ok y) :
    ∃ inherited, Members.Agree r inherited y.members ∧ Members.Inherits inherited x.members := by
  obtain ⟨cs, hcs, hxm, -⟩ := classLayout_ok hx
  obtain ⟨ds, hds, hym, -⟩ := classLayout_ok hy
  obtain ⟨t, n, nearer, older, hsame, hold, rfl⟩ := lineageFrom_subclassFrom h hcs
  obtain ⟨inherited, hinherited, hinherits⟩ := membersOf_append hxm
  exact ⟨inherited, membersOf_agree (lineageFrom_alike hsame hold hds) hinherited hym, hinherits⟩

/-- An instance of a subclass can be used through the layout of the super class: every field of the
super class is there at its position and offset, with its name and the same type, all further fields
lie behind the super class, and every slot of the super class holds a method of its name. -/
theorem classLayout_subclass (h : r.isSubclass sub sup = true) (hx : r.classLayout sub = .ok x)
    (hy : r.classLayout sup = .ok y) :
    y.fields.length ≤ x.fields.length ∧
      (∀ (i : Nat) p, y.fields[i]? = some p → ∃ q, x.fields[i]? = some q ∧ q.item.name = p.item.name ∧
        q.offset = p.offset ∧ r.sameType q.item.type p.item.type = true) ∧
      y.size ≤ x.size ∧
      (∀ (i : Nat) q, y.fields.length ≤ i → x.fields[i]? = some q → y.size ≤ q.offset) ∧
      y.methods.size ≤ x.methods.size ∧
      ∀ slot d, y.methods.get? slot = some d →
        ∃ e, x.methods.get? slot = some e ∧ e.name = d.name := by
  obtain ⟨inherited, hagree, hinherits⟩ := classLayout_inherits h hx hy
  obtain ⟨own, hown, hbehind⟩ := hinherits.fields
  have hlength : inherited.fields.items.length = y.fields.length := hagree.fields.length_eq
  have hfields : x.fields = inherited.fields.items ++ own := hown
  have hnames : inherited.methods.entries.map MethodEntry.name = y.methods.entries.map MethodEntry.name :=
    map_eq_of_rel (hagree.methods.imp fun _ _ hde => hde.1)
  have hmethods := hinherits.methods
  rw [hnames] at hmethods
  refine ⟨?_, ?_, ?_, ?_, ?_, ?_⟩
  · rw [hfields, List.length_append]
    omega
  · intro i p hp
    have hi : i < inherited.fields.items.length := by
      rw [hlength]
      exact (List.getElem?_eq_some_iff.1 hp).1
    have hrel := getElem?_rel hagree.fields i
    change Option.Rel _ _ y.fields[i]? at hrel
    rw [hp, List.getElem?_eq_getElem hi] at hrel
    cases hrel with
    | some hpq =>
      refine ⟨inherited.fields.items[i], ?_, hpq.2.1, hpq.1, hpq.2.2⟩
      rw [hfields, List.getElem?_append_left hi, List.getElem?_eq_getElem hi]
  · change y.members.fields.stop ≤ _
    rw [← hagree.stop]
    exact hinherits.stop
  · intro i q hi hq
    rw [hfields, List.getElem?_append_right (by omega)] at hq
    change y.members.fields.stop ≤ _
    rw [← hagree.stop]
    exact hbehind q (List.mem_of_getElem? hq)
  · simpa [MethodTable.size, ClassLayout.methods] using hmethods.length_le
  · intro slot d hd
    have hname : (y.methods.entries.map MethodEntry.name)[slot]? = some d.name := by
      rw [List.getElem?_map]
      exact congrArg (Option.map MethodEntry.name) hd
    have hsub : (x.methods.entries.map MethodEntry.name)[slot]? = some d.name := by
      obtain ⟨own, hown⟩ := hmethods
      have hslot := (List.getElem?_eq_some_iff.1 hname).1
      change (x.members.methods.entries.map MethodEntry.name)[slot]? = _
      rw [← hown, List.getElem?_append_left hslot, hname]
    rw [List.getElem?_map, Option.map_eq_some_iff] at hsub
    exact hsub

theorem twinClasses_leaf_usable :
    ∃ x y, twinClasses.isSubclass (.ofIndex 16) (.ofIndex 15) = true ∧
      twinClasses.classLayout (.ofIndex 16) = .ok x ∧ twinClasses.classLayout (.ofIndex 15) = .ok y ∧
      y.fields.length ≤ x.fields.length ∧ y.size ≤ x.size ∧ y.methods.size ≤ x.methods.size := by
  have hsub : twinClasses.isSubclass (.ofIndex 16) (.ofIndex 15) = true := by decide +kernel
  cases hx : twinClasses.classLayout (.ofIndex 16) with
  | error e =>
    have hok : (twinClasses.classLayout (.ofIndex 16)).isOk = true := by decide +kernel
    rw [hx] at hok
    cases hok
  | ok x =>
    cases hy : twinClasses.classLayout (.ofIndex 15) with
    | error e =>
      have hok : (twinClasses.classLayout (.ofIndex 15)).isOk = true := by decide +kernel
      rw [hy] at hok
      cases hok
    | ok y =>
      obtain ⟨hfields, -, hsize, -, hmethods, -⟩ := classLayout_subclass hsub hx hy
      exact ⟨x, y, hsub, rfl, rfl, hfields, hsize, hmethods⟩

end Registry

end ObjectModel
