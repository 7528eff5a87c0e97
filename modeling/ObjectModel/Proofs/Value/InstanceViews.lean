import ObjectModel.Proofs.Value.Identity

/-!
Views of instances. A view is made if the class of the instance has a member for each field, and this member
is looked for by the hash of the field's name only. So the member has the name if no other name of the class
has this hash; else a field may come to stand for a member of another name.
-/

set_option autoImplicit false
set_option relaxedAutoImplicit false

namespace ObjectModel

variable {r : Registry} {held : Addr → TypeId → Prop} {values : Set Addr} {h h' : Heap} {v x : Addr}
  {t : TypeId} {w : World} {c : ClassLayout} {l : ViewLayout} {chain : List Class}

/-- No other name that stands for a member of the class has the hash of this one. -/
def Unmistaken (chain : List Class) (c : ClassLayout) (name : String) : Prop :=
  ∀ other member, StandsFor chain c other member → Name.hash other = Name.hash name → other = name

namespace View

/-- The path of a field to a member that stands for it. -/
def memberPath (r : Registry) (f : Field) : Member → Path
  | .field _ offset t => storedPath r f.type offset t
  | .method slot _ t =>
    if (r.closureType? t).any (r.sameType · f.type) ∧ slot < Path.slotBound then .method slot else .indirect

theorem instancePath?_eq (f : Field) :
    instancePath? r c f = (c.resolve? f.hash).map (memberPath r f) := by
  unfold instancePath?
  split <;> simp [*, memberPath]

theorem require_missing {path? : Field → Option Path} {before after : List Field} {f : Field}
    (hbefore : ∀ g ∈ before, (path? g).isSome = true) (hf : path? f = none) :
    require path? (before ++ f :: after) = .error (.incompatibleVirtual f.name) := by
  induction before with
  | nil => rw [List.nil_append, require, hf]
  | cons g rest ih =>
    obtain ⟨p, hp⟩ := Option.isSome_iff_exists.1 (hbefore g List.mem_cons_self)
    rw [List.cons_append, require, hp]
    dsimp only
    rw [ih fun g hg => hbefore g (List.mem_cons_of_mem _ hg)]
    rfl

theorem paths_instance {m : Memory} (hc : w.registry.classLayout (m.typeOf v) = .ok c) :
    View.paths w m l v = require (instancePath? w.registry c) l.fields.values := by
  unfold View.paths
  dsimp only
  rw [World.kind_eq_ok.2 (Registry.kind?_of_classLayout hc), hc]
  rfl

end View

namespace Action

theorem toView_instance (hk : w.registry.kindAt h.memory v = some .object) :
    toView t v w h = newView t v w h := by
  change toViewFrom t (h.blocks.size + 1) v w h = _
  rw [toViewFrom.eq_def]
  dsimp only
  rw [look_bind, ask_bind_ok (World.kind_eq_ok.2 hk)]

/-- A view for whose fields there are paths is made, unless the heap is used up. -/
theorem newView_ok_or_fatal {paths : List Path} {result : Except Fault Addr} (hs : h.WellFormed)
    (hl : w.registry.viewLayout t = .ok l) (hpaths : View.paths w h.memory l v = .ok paths)
    (hrun : newView t v w h = (result, h')) : (∃ x, result = .ok x) ∨ ∃ e, result = .error (.fatal e) := by
  have hends : (newView t v).Ends w h (fun _ _ => True) (fun _ => False) := by
    unfold newView
    refine Ends.ask_ok_bind (Outcome.mapError_eq_ok.2 hl) (Ends.ask_ok_bind hpaths ?_)
    exact (newValue_ends hs _ _ _).bind (fun _ => id) fun x h' _ => Ends.change_bind (Ends.pure trivial)
  rcases hends.ok_or_fatal hrun with ⟨x, hx, -⟩ | hfatal
  · exact Or.inl ⟨x, hx⟩
  · exact Or.inr hfatal

end Action

/-- A view of an instance is made if for each field there is a member whose name has the hash of the field's
name; its path to the field is then the one to this member, and the member has the very name unless it is
mistaken for another one. If there is no such member the first field without one is reported, and nothing
has changed. -/
theorem Reachable.instance_view (hb : r.Built) (hr : Reachable r held h values) (hw : w.registry = r)
    (hv : v ∈ values) (hc : r.classLayout (h.memory.typeOf v) = .ok c)
    (hchain : r.lineage (h.memory.typeOf v) = .ok chain) (hl : r.viewLayout t = .ok l) :
    (∀ x h', Action.toView t v w h = (.ok x, h') → ∀ (i : Nat) f, l.fields.values[i]? = some f →
      ∃ name member, Name.hash name = f.hash ∧ StandsFor chain c name member ∧
        View.path h'.memory x i = View.memberPath r f member ∧ (Unmistaken chain c f.name → name = f.name)) ∧
    ((∀ f ∈ l.fields.values, ∃ name member, StandsFor chain c name member ∧ Name.hash name = f.hash) →
      ∀ result h', Action.toView t v w h = (result, h') →
        (∃ x, result = .ok x) ∨ ∃ e, result = .error (.fatal e)) ∧
    ∀ before f after, l.fields.values = before ++ f :: after →
      (∀ g ∈ before, ∃ name member, StandsFor chain c name member ∧ Name.hash name = g.hash) →
      (∀ name member, StandsFor chain c name member → Name.hash name ≠ f.hash) →
        Action.toView t v w h = (.error (.error (.incompatibleVirtual f.name)), h) := by
  subst hw
  have hs := hr.sound hb
  have hk : w.registry.kindAt h.memory v = some .object := Registry.kind?_of_classLayout hc
  have hcollected : ClassLayout.Collected w.registry chain c := by
    obtain ⟨chain', hchain', hmembers, hindex, -⟩ := Registry.classLayout_ok hc
    obtain rfl : chain = chain' := Except.ok.inj (hchain.symm.trans hchain')
    exact ⟨hindex, Members.collects_membersOf hmembers⟩
  have hfound : ∀ f : Field, (∃ name member, StandsFor chain c name member ∧ Name.hash name = f.hash) →
      (View.instancePath? w.registry c f).isSome = true := by
    rintro f ⟨name, member, hstands, hhash⟩
    cases hresolve : c.resolve? f.hash with
    | none => exact absurd hhash (hcollected.resolve?_eq_none.1 hresolve name member hstands)
    | some member => simp [View.instancePath?_eq, hresolve]
  rw [Action.toView_instance hk]
  refine ⟨fun x h' hrun i f hf => ?_, fun hall result h' hrun => ?_, ?_⟩
  · obtain ⟨l', hg, hview⟩ := (Action.newView_ends hs hv (Or.inl hk)).of_ok hrun
    obtain rfl : l = l' := Except.ok.inj (hl.symm.trans hview.layout)
    have hc' : w.registry.classLayout (h'.memory.typeOf v) = .ok c := by
      rw [(hs.arranged.same_of_below hg.same hv).1.type]
      exact hc
    have hexact : View.require (View.instancePath? w.registry c) l.fields.values =
        .ok ((List.range l.fieldCount).map (View.path h'.memory x)) :=
      (View.paths_instance (w := .ofTypes w.registry) hc').symm.trans hview.exact
    have hi : i < l.fieldCount := by
      have hlt := (List.getElem?_eq_some_iff.1 hf).1
      rwa [Region.values, List.length_map] at hlt
    have hpath : View.instancePath? w.registry c f = some (View.path h'.memory x i) :=
      View.rel_getElem? (fun f p => View.instancePath? w.registry c f = some p) (View.require_ok hexact) hf
        (by rw [List.getElem?_map, List.getElem?_range hi, Option.map_some])
    rw [View.instancePath?_eq] at hpath
    obtain ⟨member, hmember, hpath⟩ := Option.map_eq_some_iff.1 hpath
    obtain ⟨name, hhash, hstands, -⟩ := hcollected.resolve?_eq_some.1 hmember
    exact ⟨name, member, hhash, hstands, hpath.symm, fun h => h name member hstands hhash⟩
  · obtain ⟨paths, hpaths⟩ := View.require_of_isSome fun f hf => hfound f (hall f hf)
    rw [← View.paths_instance hc] at hpaths
    exact Action.newView_ok_or_fatal hs.arranged.blocks hl hpaths hrun
  · intro before f after hfields hbefore hnone
    have hmissing : View.instancePath? w.registry c f = none := by
      rw [View.instancePath?_eq, hcollected.resolve?_eq_none.2 hnone]
      rfl
    have hpaths : View.paths w h.memory l v = .error (.incompatibleVirtual f.name) := by
      rw [View.paths_instance hc, hfields]
      exact View.require_missing (fun g hg => hfound g (hbefore g hg)) hmissing
    unfold Action.newView
    rw [Action.ask_bind_ok (Outcome.mapError_eq_ok.2 hl), Action.bind_error (Action.ask_error hpaths)]

/-! A class with a field whose name has the hash of another name. -/

/-- A class, and virtual types with a field of the other name, of the same name, and of neither hash. -/
def Registry.mistakenTypes : Registry :=
  ⟨(Descriptor.builtins ++
    ([.object ⟨"Holder", none, [⟨"ba", .i32⟩], []⟩, .virtual [⟨"a\u0140", .i32⟩], .virtual [⟨"ba", .i32⟩],
      .virtual [⟨"ba", .i32⟩, ⟨"none", .i32⟩]] : List Descriptor)).toArray⟩

theorem Registry.mistakenTypes_built : Registry.mistakenTypes.Built :=
  .of_adds (Registry.mistakenTypes.types.toList.drop Descriptor.builtins.length) (by decide +kernel)
    (by decide +kernel)

def holderHeap : Heap := (Action.newInstance (.ofIndex 12) (.ofTypes .mistakenTypes) {}).2

private theorem holderHeap_reachable :
    ∃ values, Reachable .mistakenTypes (fun _ _ => False) holderHeap values ∧ 0x10010 ∈ values := by
  have hb : (World.ofTypes .mistakenTypes).registry.Built := Registry.mistakenTypes_built
  have hstart : Reachable .mistakenTypes (fun _ _ => False) {} ∅ := .start none
  have hnew : Action.newInstance (.ofIndex 12) (.ofTypes .mistakenTypes) {} = (.ok 0x10010, holderHeap) :=
    Action.eq_of_fst (by decide +kernel)
  obtain ⟨values, -, hr, hv, -⟩ := hstart.after_keeps rfl (.newInstance (.ofIndex 12))
    (Action.newInstance_keeps (hstart.sound hb)) hnew
  exact ⟨values, hr, hv⟩

private theorem holder_members : ∃ c chain,
    Registry.mistakenTypes.classLayout (holderHeap.memory.typeOf 0x10010) = .ok c ∧
    Registry.mistakenTypes.lineage (holderHeap.memory.typeOf 0x10010) = .ok chain ∧
    ∀ name member, StandsFor chain c name member ↔ name = "ba" ∧ member = .field 0 8 .i32 := by
  have hlayout : (Registry.mistakenTypes.classLayout (holderHeap.memory.typeOf 0x10010)).map
      ClassLayout.fields = .ok [⟨⟨"ba", .i32⟩, 8⟩] := by
    decide +kernel
  have hlineage : (Registry.mistakenTypes.lineage (holderHeap.memory.typeOf 0x10010)).map
      (fun chain => (declaredFields chain, declaredMethods chain)) = .ok ([⟨"ba", .i32⟩], []) := by
    decide +kernel
  obtain ⟨c, hc, hfields⟩ := Outcome.map_eq_ok.1 hlayout
  obtain ⟨chain, hchain, hdeclared⟩ := Outcome.map_eq_ok.1 hlineage
  obtain ⟨hdeclaredFields, hdeclaredMethods⟩ := Prod.mk.inj hdeclared
  refine ⟨c, chain, hc, hchain, fun name member => ⟨fun hstands => ?_, ?_⟩⟩
  · cases hstands with
    | @field i p _ hplaced hname _ =>
      rw [hfields] at hplaced
      cases i with
      | zero =>
        obtain rfl := Option.some.inj hplaced
        exact ⟨hname.symm, rfl⟩
      | succ i => cases hplaced
    | method hslot _ =>
      rw [hdeclaredMethods] at hslot
      cases hslot
  · rintro ⟨rfl, rfl⟩
    have hitem : (declaredFields chain)[0]? = some ⟨"ba", .i32⟩ := by rw [hdeclaredFields]; rfl
    have hplaced : c.fields[0]? = some ⟨⟨"ba", .i32⟩, 8⟩ := by rw [hfields]; rfl
    exact .field hitem hplaced rfl (by decide)

/-- The view shows the field `ba` at its name and misses a field that the class does not have. -/
theorem holder_viewed : ∃ x h', Action.toView (.ofIndex 14) 0x10010 (.ofTypes .mistakenTypes) holderHeap =
      (.ok x, h') ∧ View.path h'.memory x 0 = .direct 8 ∧
    Action.toView (.ofIndex 15) 0x10010 (.ofTypes .mistakenTypes) holderHeap =
      (.error (.error (.incompatibleVirtual "none")), holderHeap) := by
  let w : World := .ofTypes .mistakenTypes
  have hb : w.registry.Built := Registry.mistakenTypes_built
  obtain ⟨values, hr, hv⟩ := holderHeap_reachable
  obtain ⟨c, chain, hc, hchain, hmembers⟩ := holder_members
  have hlayouts : (w.registry.viewLayout (.ofIndex 14)).map (·.fields.values) = .ok [⟨"ba", .i32⟩] ∧
      (w.registry.viewLayout (.ofIndex 15)).map (·.fields.values) = .ok [⟨"ba", .i32⟩, ⟨"none", .i32⟩] := by
    decide +kernel
  obtain ⟨l, hl, hfields⟩ := Outcome.map_eq_ok.1 hlayouts.1
  obtain ⟨l', hl', hfields'⟩ := Outcome.map_eq_ok.1 hlayouts.2
  have hview : Action.toView (.ofIndex 14) 0x10010 w holderHeap = (.ok 0x10030, _) :=
    Action.eq_of_fst (by decide +kernel)
  obtain ⟨name, member, hhash, hmember, hpath, hnamed⟩ :=
    (hr.instance_view hb rfl hv hc hchain hl).1 _ _ hview 0 ⟨"ba", .i32⟩ (by rw [hfields]; rfl)
  obtain rfl := hnamed fun other member hother _ => ((hmembers other member).1 hother).1
  obtain ⟨-, rfl⟩ := (hmembers _ member).1 hmember
  refine ⟨_, _, hview, hpath.trans (by decide +kernel), ?_⟩
  · refine (hr.instance_view hb rfl hv hc hchain hl').2.2 [⟨"ba", .i32⟩] ⟨"none", .i32⟩ [] hfields' ?_ ?_
    · intro g hg
      rw [List.mem_singleton.1 hg]
      exact ⟨"ba", .field 0 8 .i32, (hmembers _ _).2 ⟨rfl, rfl⟩, rfl⟩
    · intro name member hother
      rw [((hmembers name member).1 hother).1]
      decide +kernel

/-- The view has no right to be made: no member has the name of its only field, which comes to show the
member of another name. -/
theorem holder_mistaken : ∃ values c chain x h', Reachable .mistakenTypes (fun _ _ => False) holderHeap values ∧
    0x10010 ∈ values ∧ Registry.mistakenTypes.classLayout (holderHeap.memory.typeOf 0x10010) = .ok c ∧
    Registry.mistakenTypes.lineage (holderHeap.memory.typeOf 0x10010) = .ok chain ∧
    Registry.mistakenTypes.get? (.ofIndex 13) = some (.virtual [⟨"a\u0140", .i32⟩]) ∧
    (∀ member, ¬StandsFor chain c "a\u0140" member) ∧
    Action.toView (.ofIndex 13) 0x10010 (.ofTypes .mistakenTypes) holderHeap = (.ok x, h') ∧
    View.path h'.memory x 0 = .direct 8 ∧ StandsFor chain c "ba" (.field 0 8 .i32) := by
  obtain ⟨values, hr, hv⟩ := holderHeap_reachable
  obtain ⟨c, chain, hc, hchain, hmembers⟩ := holder_members
  refine ⟨values, c, chain, 0x10030, _, hr, hv, hc, hchain, rfl, fun member hother => ?_,
    Action.eq_of_fst (by decide +kernel), by decide +kernel, (hmembers _ _).2 ⟨rfl, rfl⟩⟩
  exact absurd ((hmembers _ _).1 hother).1 (by decide)

end ObjectModel
