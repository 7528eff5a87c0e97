import ObjectModel.Proofs.Value.FieldWrites
import ObjectModel.Proofs.Value.Forwarding
import ObjectModel.Proofs.Value.InStep

/-!
Writes through views. A view writes to a method, and to a name to which it has no direct path, as the value
does that it shows: an open object gets the field, and its views follow. To a field to which it has a direct
path it writes what a cast to the declared type gives. The stored type, which is the same, stays, and if the
value is an instance or a virtual value that stands alone, its own write leaves the same behind.
-/

set_option autoImplicit false
set_option relaxedAutoImplicit false

namespace ObjectModel

variable {r : Registry} {held : Addr → TypeId → Prop} {values : Set Addr} {h h' : Heap} {m : Memory}
  {u x : Addr} {w : World} {hash : NameHash} {a : Nat} {s : Slot} {t type declared : TypeId} {k : Kind}
  {f : OpenField} {l : ViewLayout}

/-- The view at `x` has a field of a name, with a declared type, that the open object at `u` stores as `f`. -/
structure Meets (r : Registry) (m : Memory) (x u : Addr) (hash : NameHash) (declared : TypeId) (f : OpenField) :
    Prop where
  view : ∃ l i p, r.viewLayout (m.typeOf x) = .ok l ∧ l.position? hash = some i ∧ l.fields.get? i = some p ∧
    p.item.type = declared
  stored : OpenObject.find? (OpenObject.table m u) hash = some f

theorem View.path_open {i : Nat} {p : Placed Field} (hs : Arranged r ∅ h values) (hu : u ∈ values)
    (hopen : r.kindAt h.memory u = some .dynobj) (hx : x ∈ values)
    (hk : r.kindAt h.memory x = some .virtual) (hwrapped : wrapped h.memory x = u)
    (hl : r.viewLayout (h.memory.typeOf x) = .ok l) (hi : l.position? hash = some i)
    (hp : l.fields.get? i = some p) :
    ∃ f, OpenObject.find? (OpenObject.table h.memory u) hash = some f ∧
      path h.memory x i = if r.sameType f.type p.item.type then .direct f.offset else .indirect := by
  obtain ⟨-, l', hl', -, hall⟩ := hs.upToDate hu (Or.inl hopen) hx hk hwrapped
  obtain rfl : l = l' := Except.ok.inj (hl.symm.trans hl')
  obtain ⟨p', hp', rfl⟩ := Registry.position?_ok hl hi
  obtain rfl : p = p' := Option.some.inj (hp.symm.trans hp')
  have hf : l.fields.values[i]? = some p.item := by
    rw [Region.values, List.getElem?_map]
    exact congrArg _ hp
  obtain ⟨offset, stored, hstored, hpath⟩ := hall i p.item hf
  cases hstored with
  | «instance» hc _ => exact absurd (Registry.kind?_of_classLayout hc) (kindAt_ne hopen (by decide))
  | openField _ hfound => exact ⟨_, hfound, hpath⟩
  | standalone hl' _ _ => exact absurd (Registry.kind?_of_viewLayout hl') (kindAt_ne hopen (by decide))

namespace Access

theorem locate_passed (hs : Arranged w.registry ∅ h values) (hu : u ∈ values)
    (hopen : w.registry.kindAt h.memory u = some .dynobj) (hx : x ∈ values)
    (hk : w.registry.kindAt h.memory x = some .virtual) (hwrapped : View.wrapped h.memory x = u)
    (hother : ∀ declared f, Meets w.registry h.memory x u hash declared f →
      w.registry.sameType f.type declared = false) :
    locate w h.memory x hash = .ok (.forward u) := by
  have hshown : View.wrapped h.memory x ≠ 0 := hwrapped ▸ hs.ne_zero hu
  obtain ⟨l, hl, -⟩ := hs.views x hx hk
  rw [locate_view hl]
  cases hi : l.position? hash with
  | none => rw [inView_none hl hi, if_neg hshown, hwrapped]
  | some i =>
    obtain ⟨p, hp, -⟩ := Registry.position?_ok hl hi
    obtain ⟨f, hfound, hpath⟩ := View.path_open hs hu hopen hx hk hwrapped hl hi hp
    rw [hother p.item.type f ⟨⟨l, i, p, hl, hi, hp, rfl⟩, hfound⟩, if_neg Bool.false_ne_true] at hpath
    rw [inView_indirect hl hi hpath, if_neg hshown, hwrapped]

theorem locate_met (hs : Arranged w.registry ∅ h values) (hu : u ∈ values)
    (hopen : w.registry.kindAt h.memory u = some .dynobj) (hx : x ∈ values)
    (hk : w.registry.kindAt h.memory x = some .virtual) (hwrapped : View.wrapped h.memory x = u)
    (hmeets : Meets w.registry h.memory x u hash declared f)
    (hsame : w.registry.sameType f.type declared = true) :
    locate w h.memory x hash = .ok (.stored ((OpenObject.storage h.memory u).toNat + f.offset) declared) := by
  have hshown : View.wrapped h.memory x ≠ 0 := hwrapped ▸ hs.ne_zero hu
  have hroot : IsRoot w.registry h.memory u := Or.inr (Or.inl hopen)
  obtain ⟨⟨l, i, p, hl, hi, hp, rfl⟩, hfound⟩ := hmeets
  obtain ⟨f', hfound', hpath⟩ := View.path_open hs hu hopen hx hk hwrapped hl hi hp
  obtain rfl : f = f' := Option.some.inj (hfound.symm.trans hfound')
  rw [hsame, if_pos rfl] at hpath
  have hbase : viewStorage w h.memory x = .ok (OpenObject.storage h.memory u) := by
    rw [viewStorage_shown hshown (hwrapped.symm ▸ hroot), hwrapped, View.rootStorage, hopen]
  rw [locate_view hl, inView_direct hl hi hpath hp hbase]

end Access

namespace Action

theorem set_forwarded (hs : Arranged w.registry ∅ h values) (hu : u ∈ values)
    (hroot : IsRoot w.registry h.memory u) (hk : w.registry.kindAt h.memory x = some .virtual)
    (hlocated : Access.locate w h.memory x hash = .ok (.forward u)) :
    set x hash t s w h = set u hash t s w h := by
  have hkind : w.kindOf h.memory x = .ok .virtual := World.kind_eq_ok.2 hk
  have hview : setFrom hash t s (h.blocks.size + 1) x w h = setFrom hash t s (h.blocks.size + 1) u w h := by
    rw [setFrom.eq_def]
    dsimp only
    rw [ask_bind_ok hkind, if_neg (by decide), ask_bind_ok hlocated]
    exact setFrom_root hs hu hroot _ _
  unfold set
  refine ask_bind_congr fun k _ => ?_
  by_cases hfits : s.fits k = true
  · rw [if_pos hfits, if_pos hfits]
    exact hview
  · rw [if_neg hfits, if_neg hfits]

theorem set_method {v receiver : Addr} {function : Nat} {l : Kind} (hl : w.registry.kindAt h.memory v = some l)
    (hopen : l ≠ .dynobj) (hlocated : Access.locate w h.memory v hash = .ok (.method function type receiver))
    (hk : w.registry.kind? t = some k) (hfits : s.fits k = true) :
    set v hash t s w h = (.error (.error (.invalidCast t type)), h) := by
  have hkind : w.kindOf h.memory v = .ok l := World.kind_eq_ok.2 hl
  unfold set
  rw [ask_bind_ok (World.kind_eq_ok.2 hk), if_pos hfits]
  change setFrom hash t s _ v w h = _
  rw [setFrom.eq_def]
  dsimp only
  rw [ask_bind_ok hkind, if_neg hopen, ask_bind_ok hlocated]
  rfl

theorem stored_of_set (hs : Arranged w.registry ∅ h values) (hu : u ∈ values)
    (hroot : IsRoot w.registry h.memory u) (hopen : w.registry.kindAt h.memory u ≠ some .dynobj)
    (hrun : set u hash t s w h = (.ok (), h')) :
    ∃ a type, Access.locate w h.memory u hash = .ok (.stored a type) := by
  unfold set at hrun
  obtain ⟨k, -, hrun⟩ := ask_bind_eq_ok.1 hrun
  split_ifs at hrun with hfits
  · change setFrom hash t s _ u w h = _ at hrun
    rw [setFrom.eq_def] at hrun
    obtain ⟨l, hl, hrun⟩ := ask_bind_eq_ok.1 hrun
    have hkind : w.registry.kindAt h.memory u = some l := World.kind_eq_ok.1 hl
    have hother : l ≠ .dynobj := by
      rintro rfl
      exact hopen hkind
    rw [if_neg hother] at hrun
    obtain ⟨target, hlocated, hrun⟩ := ask_bind_eq_ok.1 hrun
    rcases Access.locate_root hs hu hroot hlocated with ⟨offset, type, -, rfl⟩ | ⟨function, type, rfl⟩
    · exact ⟨_, type, hlocated⟩
    · cases hrun
  · cases hrun

theorem write_inStep {p : Prop} (hs : Sound w.registry held ∅ h values) (hu : u ∈ values)
    (hroot : IsRoot w.registry h.memory u) (hslot : Suits w.registry values t s)
    (hlocated : Access.locate w h.memory u hash = .ok (.stored a type))
    (hsame : w.registry.sameType declared type = true) (hp : p → w.registry.LaidOutAlike declared type) :
    (cast s t declared >>= fun s' => change (·.write a s')).InStep p
      (cast s t type >>= fun s' => change (·.write a s')) w h h fun _ => Matched w.registry h := by
  obtain ⟨-, b, o, hholds, hplace⟩ := Access.stored_root hs.arranged hu hroot hlocated
  obtain ⟨k, hk, howns, -⟩ := hs.arranged.holds_range hholds
  have hroom := howns.le_next hs.arranged.blocks
  have hdeclared : w.registry.kind? declared = some k := (Registry.kind?_eq_of_sameType hsame).trans hk
  refine ((cast_inStep hs.arranged hslot hsame hp).and_ends (cast_fits hdeclared)).bind ?_
  rintro s' h₁ h₂ ⟨hfits, hmatched⟩
  have hwidth : s'.width = k.size := Slot.width_of_fits hfits
  refine .change (hmatched.store (fun v hv => Or.inl ?_) _)
  have habove := hmatched.above v hv
  omega

/-- A write through a view of a value that is no open object, and the same write to the value. -/
theorem set_inStep {p : Prop} {l : Kind} (hs : Sound w.registry held ∅ h values) (hx : x ∈ values)
    (hk : w.registry.kindAt h.memory x = some .virtual) (hwrapped : View.wrapped h.memory x = u) (hne : u ≠ 0)
    (hl : w.registry.kindAt h.memory u = some l) (hopen : l ≠ .dynobj) (hslot : Suits w.registry values t s)
    (hp : p → ∀ a declared stored, Access.locate w h.memory x hash = .ok (.stored a declared) →
      Access.locate w h.memory u hash = .ok (.stored a stored) → w.registry.LaidOutAlike declared stored) :
    (set x hash t s).InStep p (set u hash t s) w h h fun _ => Matched w.registry h := by
  subst hwrapped
  obtain ⟨layout, -, hat⟩ := hs.arranged.views x hx hk
  obtain ⟨hu, hroot, -⟩ := hat.shown hne
  obtain ⟨kind, hkind, hfits, -⟩ := id hslot
  obtain ⟨target, hlocated, hmirrors⟩ := Access.locate_mirrors hs.arranged hx hk hne hash
  generalize heq : Access.locate w h.memory (View.wrapped h.memory x) hash = found at hmirrors
  cases hmirrors with
  | @stored a type declared hfound hsame =>
    have hfound := heq.trans hfound
    refine (write_inStep hs hu hroot hslot hfound (Registry.sameType_symm hsame) fun hyes => ?_).congr
      (set_of_stored hk (by decide) hlocated hkind hfits) (set_of_stored hl hopen hfound hkind hfits)
    exact hp hyes a declared type hlocated hfound
  | method hfound =>
    exact .error (set_method hk (by decide) hlocated hkind hfits)
      (set_method hl hopen (heq.trans hfound) hkind hfits)
  | forward =>
    refine InStep.congr (.refl fun _ h' hrun => ?_) (set_forwarded hs.arranged hu hroot hk hlocated) rfl
    obtain ⟨a, type, hfound⟩ := stored_of_set hs.arranged hu hroot (kindAt_ne hl hopen) hrun
    have hself := write_inStep (p := False) hs hu hroot hslot hfound (Registry.sameType_refl _ _) False.elim
    rw [set_of_stored hl hopen hfound hkind hfits] at hrun
    exact (hself.same _ _ _ _ hrun hrun).2

end Action

/-- What a write through a view does that has no path to the name: it is the same write to the open object,
which never fails. The object gets the field, and all its views are brought up to date. -/
structure WrittenByName (w : World) (values : Set Addr) (h : Heap) (x u : Addr) (hash : NameHash) (t : TypeId)
    (s : Slot) : Prop where
  same : Action.set x hash t s w h = Action.set u hash t s w h
  wrote : ∀ result h', Action.set u hash t s w h = (result, h') →
    (result = .ok () ∧ Wrote w.registry values u hash t s h h' ∧ ∀ y ∈ values,
        w.registry.kindAt h.memory y = some .virtual → View.wrapped h.memory y = u →
          UpToDate w.registry h'.memory u y) ∨
      ∃ e, result = .error (.fatal e)

/-- What a write through a view does that has a direct path to the name: the field `f` of the open object stays
where it is and of its type, and gets what the slot is cast to for the declared type. If the cast fails so does
the write, and the heap stays. -/
structure WrittenInPlace (w : World) (values : Set Addr) (h : Heap) (x u : Addr) (hash : NameHash) (t : TypeId)
    (s : Slot) (declared : TypeId) (f : OpenField) : Prop where
  ok : ∀ s' h₁, Action.cast s t declared w h = (.ok s', h₁) → ∃ k h', w.registry.kind? f.type = some k ∧
    Action.set x hash t s w h = (.ok (), h') ∧
    OpenObject.table h'.memory u = OpenObject.table h.memory u ∧
    OpenObject.storage h'.memory u = OpenObject.storage h.memory u ∧
    FieldSet w (wrappedWord w values h.memory s declared) h h' u hash
      ((OpenObject.storage h.memory u).toNat + f.offset) f.type k s'
  error : ∀ e h', Action.cast s t declared w h = (.error (.error e), h') →
    Action.set x hash t s w h = (.error (.error e), h)

private theorem writtenByName (hs : Ordered w.registry ∅ h values) (hu : u ∈ values)
    (hopen : w.registry.kindAt h.memory u = some .dynobj) (hx : x ∈ values)
    (hk : w.registry.kindAt h.memory x = some .virtual) (hwrapped : View.wrapped h.memory x = u)
    (hslot : Suits w.registry values t s)
    (hother : ∀ declared f, Meets w.registry h.memory x u hash declared f →
      w.registry.sameType f.type declared = false) : WrittenByName w values h x u hash t s := by
  have hlocated := Access.locate_passed hs.arranged hu hopen hx hk hwrapped hother
  refine ⟨Action.set_forwarded hs.arranged hu (Or.inr (Or.inl hopen)) hk hlocated, fun result h' hrun => ?_⟩
  obtain ⟨k, ht, hfits, -⟩ := hslot
  have hends := Action.set_wrote (c := ⟨hash, t, s⟩) hs hu hopen ⟨k, ht, hfits⟩
  rcases hends.ok_or_fatal hrun with ⟨⟨⟩, hok, hwrote⟩ | hfatal
  · have hgoes := hwrote.goesOn
    refine Or.inl ⟨hok, hwrote, fun y hy hky hshown => ?_⟩
    exact hwrote.ordered.arranged.upToDate hu (Or.inl ((hgoes.kindAt hu).trans hopen)) hy
      ((hgoes.kindAt hy).trans hky) ((hgoes.wrapped y hy hky).trans hshown)
  · exact Or.inr hfatal

private theorem writtenInPlace (hs : Sound w.registry held ∅ h values) (hu : u ∈ values)
    (hopen : w.registry.kindAt h.memory u = some .dynobj) (hx : x ∈ values)
    (hk : w.registry.kindAt h.memory x = some .virtual) (hwrapped : View.wrapped h.memory x = u)
    (hslot : Suits w.registry values t s) (hmeets : Meets w.registry h.memory x u hash declared f)
    (hsame : w.registry.sameType f.type declared = true) :
    WrittenInPlace w values h x u hash t s declared f := by
  have hroot : IsRoot w.registry h.memory u := Or.inr (Or.inl hopen)
  have hfound : Access.locate w h.memory u hash =
      .ok (.stored ((OpenObject.storage h.memory u).toNat + f.offset) f.type) := by
    rw [Access.locate_open hopen hash, hmeets.stored]
  obtain ⟨k, hkf, -⟩ := (hs.arranged.opens u hu hopen).placed f (OpenObject.mem_of_find? hmeets.stored).1
  have hkd : w.registry.kind? declared = some k := (Registry.kind?_eq_of_sameType hsame).symm.trans hkf
  obtain ⟨l, hl, hfits, -⟩ := id hslot
  have hset := Action.set_of_stored hk (by decide)
    (Access.locate_met hs.arranged hu hopen hx hk hwrapped hmeets hsame) hl hfits
  have hcast : (Action.cast s t declared).Ends w h _ (· = h) := Action.cast_grows hs hslot
  constructor
  · intro s' h₁ hrun
    have hg := hcast.of_ok hrun
    have hfits' := (Action.cast_fits hkd).of_ok hrun
    obtain ⟨-, hvalues⟩ := hs.arranged.set_field hu hroot hfound hkf hfits' hg rfl
    exact ⟨k, _, hkf, hset.trans (Action.bind_ok hrun), (hvalues u hu).table hopen,
      (hvalues u hu).openStorage hopen, fieldSet_of_grown hs.arranged hu hroot hfound hkf hfits' hg rfl⟩
  · intro e h' hrun
    obtain rfl : h' = h := hcast.of_error hrun
    exact hset.trans (Action.bind_error hrun)

/-- Writes through a view, and the same writes to the value that it shows. If this is an instance or a virtual
value that stands alone, both leave the same in all fields, and one of them succeeds exactly if the other one
does, provided that the declared type and the stored one are laid out alike. If it is an open object, the write
goes by the name unless the object has the field with a type that is the same as the declared one. -/
theorem Reachable.write_through (hb : r.Built) (hr : Reachable r held h values) (hw : w.registry = r)
    (hx : x ∈ values) (hu : View.value w h.memory x = .ok u) (hne : u ≠ 0) (hslot : Suits r values t s)
    (hash : NameHash) :
    (r.kindAt h.memory u ≠ some .dynobj →
      (Action.set x hash t s).InStep
        (∀ a declared stored, Access.locate w h.memory x hash = .ok (.stored a declared) →
          Access.locate w h.memory u hash = .ok (.stored a stored) → r.LaidOutAlike declared stored)
        (Action.set u hash t s) w h h fun _ h₁ h₂ =>
          Matched r h h₁ h₂ ∧ ∀ y, h.Contains y → h₁.memory.byte y = h₂.memory.byte y) ∧
    (r.kindAt h.memory u = some .dynobj →
      ((∀ declared f, Meets r h.memory x u hash declared f → r.sameType f.type declared = false) →
        WrittenByName w values h x u hash t s) ∧
      ∀ declared f, Meets r h.memory x u hash declared f → r.sameType f.type declared = true →
        WrittenInPlace w values h x u hash t s declared f) := by
  subst hw
  have hs := hr.sound hb
  obtain ⟨hk, hwrapped⟩ := View.value_eq_ok.1 hu
  obtain ⟨layout, -, hat⟩ := hs.arranged.views x hx hk
  obtain ⟨hu, hroot, -⟩ := hat.shown (hwrapped ▸ hne)
  rw [hwrapped] at hu hroot
  constructor
  · intro hopen
    obtain ⟨l, hl, -⟩ := hs.arranged.kinds u hu
    have hother : l ≠ .dynobj := by
      rintro rfl
      exact hopen hl
    refine (Action.set_inStep hs hx hk hwrapped hne hl hother hslot id).imp fun _ h₁ h₂ hmatched => ?_
    exact ⟨hmatched, fun y hy => hmatched.old (hy.lt_next hs.arranged.blocks)⟩
  · intro hopen
    exact ⟨writtenByName hs.toOrdered hu hopen hx hk hwrapped hslot,
      fun declared f => writtenInPlace hs hu hopen hx hk hwrapped hslot⟩

/-! An instance with two views. Both declare the field with a type that is the same as the stored one, but the
type that the first one declares has no layout, as two of its fields have one name. -/

def Registry.heldTypes : Registry :=
  ⟨(Descriptor.builtins ++
    ([.virtual [⟨"ba", .i32⟩, ⟨"a\u0140", .i32⟩], .virtual [⟨"ba", .i32⟩, ⟨"ba", .i32⟩],
      .object ⟨"Holder", none, [⟨"x", .ofIndex 12⟩], []⟩, .virtual [⟨"x", .ofIndex 13⟩],
      .virtual [⟨"ba", .i32⟩, ⟨"a\u0140", .i32⟩], .virtual [⟨"x", .ofIndex 16⟩]] : List Descriptor)).toArray⟩

theorem Registry.heldTypes_built : Registry.heldTypes.Built :=
  .of_adds (Registry.heldTypes.types.toList.drop Descriptor.builtins.length) (by decide +kernel)
    (by decide +kernel)

/-- The instance, its views, and an open object that both types of the field can show. -/
def heldViews : Action Unit := do
  let c ← Action.newInstance (.ofIndex 14)
  let _ ← Action.toView (.ofIndex 15) c
  let _ ← Action.toView (.ofIndex 17) c
  let v ← Action.newOpenObject
  Action.set v (Name.hash "ba") .i32 (.i32 7)

def heldHeap : Heap := (heldViews (.ofTypes .heldTypes) {}).2

private theorem heldHeap_reachable : ∃ values, Reachable .heldTypes (fun _ _ => False) heldHeap values ∧
    0x10030 ∈ values ∧ 0x10070 ∈ values ∧ Suits .heldTypes values .dynobj (.pointer 0x100B0) := by
  let w : World := .ofTypes .heldTypes
  let h₀ := (Action.newInstance (.ofIndex 14) w {}).2
  let h₁ := (Action.toView (.ofIndex 15) 0x10010 w h₀).2
  let h₂ := (Action.toView (.ofIndex 17) 0x10010 w h₁).2
  let h₃ := (Action.newOpenObject w h₂).2
  let h₄ := (Action.set 0x100B0 (Name.hash "ba") .i32 (.i32 7) w h₃).2
  have hnew : Action.newInstance (.ofIndex 14) w {} = (.ok 0x10010, h₀) := Action.eq_of_fst (by decide +kernel)
  have hfirst : Action.toView (.ofIndex 15) 0x10010 w h₀ = (.ok 0x10030, h₁) :=
    Action.eq_of_fst (by decide +kernel)
  have hsecond : Action.toView (.ofIndex 17) 0x10010 w h₁ = (.ok 0x10070, h₂) :=
    Action.eq_of_fst (by decide +kernel)
  have hopen : Action.newOpenObject w h₂ = (.ok 0x100B0, h₃) := Action.eq_of_fst (by decide +kernel)
  have hset : Action.set 0x100B0 (Name.hash "ba") .i32 (.i32 7) w h₃ = (.ok (), h₄) :=
    Action.eq_of_fst (by decide +kernel)
  have hrun : heldHeap = h₄ := by
    unfold heldHeap heldViews
    rw [Action.bind_ok hnew, Action.bind_ok hfirst, Action.bind_ok hsecond, Action.bind_ok hopen]
  have hb : w.registry.Built := Registry.heldTypes_built
  have hstart : Reachable .heldTypes (fun _ _ => False) {} ∅ := .start none
  obtain ⟨values₀, -, hr₀, hc, -⟩ := hstart.after_keeps rfl (.newInstance (.ofIndex 14))
    (Action.newInstance_keeps (hstart.sound hb)) hnew
  obtain ⟨values₁, hsub₁, hr₁, hx⟩ := hr₀.after_keeps rfl (.toView (.ofIndex 15) hc)
    (Action.toView_keeps (hr₀.sound hb) hc) hfirst
  obtain ⟨values₂, hsub₂, hr₂, hy⟩ := hr₁.after_keeps rfl (.toView (.ofIndex 17) (hsub₁ hc))
    (Action.toView_keeps (hr₁.sound hb) (hsub₁ hc)) hsecond
  obtain ⟨values₃, hsub₃, hr₃, hv, -⟩ := hr₂.after_keeps rfl .newOpenObject
    (Action.newOpenObject_keeps hb (hr₂.sound hb)) hopen
  obtain ⟨values₄, hsub₄, hr₄⟩ := hr₃.after rfl
    (.set (t := .i32) (s := .i32 7) _ hv (.of_numeric (k := .i32) rfl rfl rfl)) hset
  refine ⟨values₄, hrun ▸ hr₄, hsub₄ (hsub₃ (hsub₂ hx.mem)), hsub₄ (hsub₃ hy.mem), .dynobj,
    by decide +kernel, rfl, ?_⟩
  rintro a heq - -
  obtain rfl := Slot.pointer.inj heq
  exact hsub₄ hv

private theorem heldHeap_laidOut {declared stored : TypeId}
    (hdeclared : Access.locate (.ofTypes .heldTypes) heldHeap.memory 0x10070 (Name.hash "x") =
      .ok (.stored a declared))
    (hstored : Access.locate (.ofTypes .heldTypes) heldHeap.memory 0x10010 (Name.hash "x") =
      .ok (.stored a stored)) : Registry.heldTypes.LaidOutAlike declared stored := by
  have htwin : Access.locate (.ofTypes .heldTypes) heldHeap.memory 0x10070 (Name.hash "x") =
      .ok (.stored 0x10018 (.ofIndex 16)) := by decide +kernel
  have hown : Access.locate (.ofTypes .heldTypes) heldHeap.memory 0x10010 (Name.hash "x") =
      .ok (.stored 0x10018 (.ofIndex 12)) := by decide +kernel
  cases htwin.symm.trans hdeclared
  cases hown.symm.trans hstored
  have htwin : (Registry.heldTypes.viewLayout (.ofIndex 16)).map ViewLayout.fieldCount = .ok 2 := by
    decide +kernel
  have hown : (Registry.heldTypes.viewLayout (.ofIndex 12)).map ViewLayout.fieldCount = .ok 2 := by
    decide +kernel
  obtain ⟨l, hl, -⟩ := Outcome.map_eq_ok.1 htwin
  obtain ⟨l', hl', -⟩ := Outcome.map_eq_ok.1 hown
  exact ⟨fun _ => ⟨l', hl'⟩, fun _ => ⟨l, hl⟩⟩

private theorem viewedHeap_meets :
    Meets .paddedTypes viewedHeap.memory 0x100E0 0x10010 (Name.hash "flag") .bool ⟨Name.hash "flag", .bool, 0⟩ ∧
    ∀ declared f, Meets .paddedTypes viewedHeap.memory 0x100E0 0x10010 (Name.hash "any") declared f →
      Registry.paddedTypes.sameType f.type declared = false := by
  have hlayout : (Registry.paddedTypes.viewLayout (viewedHeap.memory.typeOf 0x100E0)).map (fun l =>
      (l.position? (Name.hash "flag"), l.position? (Name.hash "any"), l.fields.items)) =
      .ok (some 0, some 1, [⟨⟨"flag", .bool⟩, 0⟩, ⟨⟨"any", .dynamic⟩, 8⟩]) := by decide +kernel
  have hflag : OpenObject.find? (OpenObject.table viewedHeap.memory 0x10010) (Name.hash "flag") =
      some ⟨Name.hash "flag", .bool, 0⟩ := by decide +kernel
  have hany : OpenObject.find? (OpenObject.table viewedHeap.memory 0x10010) (Name.hash "any") =
      some ⟨Name.hash "any", .i32, 4⟩ := by decide +kernel
  obtain ⟨l, hl, hfields⟩ := Outcome.map_eq_ok.1 hlayout
  obtain ⟨hfirst, hfields⟩ := Prod.mk.inj hfields
  obtain ⟨hsecond, hfields⟩ := Prod.mk.inj hfields
  constructor
  · exact ⟨⟨l, 0, _, hl, hfirst, congrArg (·[0]?) hfields, rfl⟩, hflag⟩
  · rintro declared f ⟨⟨l', i, p, hl', hi, hp, rfl⟩, hfound⟩
    obtain rfl : l = l' := Except.ok.inj (hl.symm.trans hl')
    obtain rfl : 1 = i := Option.some.inj (hsecond.symm.trans hi)
    obtain rfl := Option.some.inj ((congrArg (·[1]?) hfields).symm.trans hp)
    obtain rfl := Option.some.inj (hany.symm.trans hfound)
    rfl

/-- The instance takes the open object into the field, as does the view that declares the twin of its type; the
two new views differ in nothing but in their types. Of an open object, one field is written through the view
in place, and one by its name. -/
theorem heldHeap_writes :
    (∃ h₁ h₂, Action.set 0x10070 (Name.hash "x") .dynobj (.pointer 0x100B0) (.ofTypes .heldTypes) heldHeap =
        (.ok (), h₁) ∧
      Action.set 0x10010 (Name.hash "x") .dynobj (.pointer 0x100B0) (.ofTypes .heldTypes) heldHeap =
        (.ok (), h₂) ∧
      Matched .heldTypes heldHeap h₁ h₂ ∧ h₁.memory.typeOf 0x10130 ≠ h₂.memory.typeOf 0x10130) ∧
    (∃ h', Action.set 0x100E0 (Name.hash "flag") .i32 (.i32 0) (.ofTypes .paddedTypes) viewedHeap =
        (.ok (), h') ∧
      OpenObject.table h'.memory 0x10010 = OpenObject.table viewedHeap.memory 0x10010) ∧
    Action.set 0x100E0 (Name.hash "any") .f64 (.f64 0) (.ofTypes .paddedTypes) viewedHeap =
      Action.set 0x10010 (Name.hash "any") .f64 (.f64 0) (.ofTypes .paddedTypes) viewedHeap := by
  refine ⟨?_, ?_⟩
  · let w : World := .ofTypes .heldTypes
    have hroot : Action.set 0x10010 (Name.hash "x") .dynobj (.pointer 0x100B0) w heldHeap = (.ok (), _) :=
      Action.eq_of_fst (by decide +kernel)
    obtain ⟨values, hr, -, hx, hslot⟩ := heldHeap_reachable
    obtain ⟨hfixed, -⟩ := hr.write_through (w := w) (u := 0x10010) Registry.heldTypes_built rfl hx
      (by decide +kernel) (by decide) hslot (Name.hash "x")
    have hstep := hfixed (by decide +kernel)
    obtain ⟨_, h₁, hrun⟩ := (hstep.ok_iff fun a _ _ => heldHeap_laidOut).2 ⟨_, _, hroot⟩
    obtain ⟨-, hmatched, -⟩ := hstep.same _ _ _ _ hrun hroot
    have htypes : (Action.set 0x10070 (Name.hash "x") .dynobj (.pointer 0x100B0) w heldHeap).2.memory.typeOf
        0x10130 ≠ (Action.set 0x10010 (Name.hash "x") .dynobj (.pointer 0x100B0) w heldHeap).2.memory.typeOf
        0x10130 := by decide +kernel
    rw [hrun, hroot] at htypes
    exact ⟨h₁, _, hrun, hroot, hmatched, htypes⟩
  · let w : World := .ofTypes .paddedTypes
    obtain ⟨values, hr, -, hx⟩ := viewedHeap_reachable
    obtain ⟨hmeets, hother⟩ := viewedHeap_meets
    have hu : View.value w viewedHeap.memory 0x100E0 = .ok 0x10010 := by decide +kernel
    have hopen : Registry.paddedTypes.kindAt viewedHeap.memory 0x10010 = some .dynobj := by decide +kernel
    have hcast : Action.cast (.i32 0) .i32 .bool w viewedHeap = (.ok (.bool false), _) :=
      Action.eq_of_fst (by decide +kernel)
    have hi32 : Suits .paddedTypes values .i32 (.i32 0) := ⟨.i32, rfl, rfl, nofun⟩
    have hf64 : Suits .paddedTypes values .f64 (.f64 0) := ⟨.f64, rfl, rfl, nofun⟩
    obtain ⟨-, hflag⟩ := hr.write_through (w := w) Registry.paddedTypes_built rfl hx hu (by decide) hi32
      (Name.hash "flag")
    obtain ⟨-, hany⟩ := hr.write_through (w := w) Registry.paddedTypes_built rfl hx hu (by decide) hf64
      (Name.hash "any")
    obtain ⟨_, h', -, hset, htable, -⟩ := ((hflag hopen).2 _ _ hmeets rfl).ok _ _ hcast
    exact ⟨⟨h', hset, htable⟩, ((hany hopen).1 hother).same⟩

/-- Through the first view the field does not take what the instance itself takes. -/
theorem heldHeap_refused : ∃ values, Reachable .heldTypes (fun _ _ => False) heldHeap values ∧
    0x10030 ∈ values ∧ View.value (.ofTypes .heldTypes) heldHeap.memory 0x10030 = .ok 0x10010 ∧
    Registry.heldTypes.kindAt heldHeap.memory 0x10010 = some .object ∧
    Suits .heldTypes values .dynobj (.pointer 0x100B0) ∧
    (∃ h', Action.set 0x10010 (Name.hash "x") .dynobj (.pointer 0x100B0) (.ofTypes .heldTypes) heldHeap =
      (.ok (), h')) ∧
    ∃ h', Action.set 0x10030 (Name.hash "x") .dynobj (.pointer 0x100B0) (.ofTypes .heldTypes) heldHeap =
      (.error (.error (.layout (.duplicateField "virtual<ba:i32, ba:i32>" "ba"))), h') := by
  obtain ⟨values, hr, hx, -, hslot⟩ := heldHeap_reachable
  exact ⟨values, hr, hx, by decide +kernel, by decide +kernel, hslot, ⟨_, Action.eq_of_fst (by decide +kernel)⟩, _,
    Prod.ext (by decide +kernel) rfl⟩

end ObjectModel
