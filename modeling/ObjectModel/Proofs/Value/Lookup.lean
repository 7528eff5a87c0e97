import ObjectModel.Proofs.Value.Paths
import ObjectModel.Value.Access

/-!
Where names lead. A value that views show has a name itself or not at all: it stores the field, or it has
the method. A view leads to where the value that it shows leads, or to that value.
-/

set_option autoImplicit false
set_option relaxedAutoImplicit false

namespace ObjectModel

variable {values : Set Addr} {h : Heap} {u x : Addr} {w : World} {hash : NameHash} {t : TypeId}

theorem View.value_eq_ok {m : Memory} : View.value w m x = .ok u ↔
    w.registry.kindAt m x = some .virtual ∧ View.wrapped m x = u := by
  unfold View.value
  constructor
  · intro hok
    obtain ⟨k, hk, hok⟩ := Outcome.bind_eq_ok.1 hok
    split_ifs at hok with hview
    exact ⟨hview ▸ World.kind_eq_ok.1 hk, Outcome.pure_eq_ok.1 hok⟩
  · rintro ⟨hk, rfl⟩
    refine Outcome.bind_eq_ok.2 ⟨.virtual, World.kind_eq_ok.2 hk, ?_⟩
    rw [if_pos rfl]
    rfl

namespace Access

variable {m : Memory} {v : Addr} {l : ViewLayout} {i : Nat}

theorem locate_instance {c : ClassLayout} (hc : w.registry.classLayout (m.typeOf v) = .ok c) :
    locate w m v hash =
      match c.resolve? hash with
      | some (.field _ offset t) => .ok (.stored (v.toNat + offset) t)
      | some (.method _ function t) => .ok (.method function t v)
      | none => .error (.fieldNotFound hash) := by
  unfold locate
  dsimp only
  rw [World.kind_eq_ok.2 (Registry.kind?_of_classLayout hc), hc]
  rfl

theorem locate_open (hk : w.registry.kindAt m v = some .dynobj) (hash : NameHash) :
    locate w m v hash =
      match OpenObject.find? (OpenObject.table m v) hash with
      | some f => .ok (.stored ((OpenObject.storage m v).toNat + f.offset) f.type)
      | none => .error (.fieldNotFound hash) := by
  unfold locate
  dsimp only
  rw [World.kind_eq_ok.2 hk]
  rfl

theorem locate_view (hl : w.registry.viewLayout (m.typeOf v) = .ok l) :
    locate w m v hash = inView w m v hash := by
  unfold locate
  dsimp only
  rw [World.kind_eq_ok.2 (Registry.kind?_of_viewLayout hl)]
  rfl

theorem inView_none (hl : w.registry.viewLayout (m.typeOf v) = .ok l) (hi : l.position? hash = none) :
    inView w m v hash =
      if View.wrapped m v = 0 then .error (.fieldNotFound hash) else .ok (.forward (View.wrapped m v)) := by
  unfold inView
  rw [hl]
  simp only [Reading.ofLayout, Except.mapError, bind, Except.bind, hi]
  rfl

theorem inView_indirect (hl : w.registry.viewLayout (m.typeOf v) = .ok l) (hi : l.position? hash = some i)
    (hpath : View.path m v i = .indirect) :
    inView w m v hash =
      if View.wrapped m v = 0 then .error .nullAccess else .ok (.forward (View.wrapped m v)) := by
  unfold inView
  rw [hl]
  simp only [Reading.ofLayout, Except.mapError, bind, Except.bind, hi, hpath]
  rfl

theorem inView_direct {offset : Nat} {base : Addr} {p : Placed Field}
    (hl : w.registry.viewLayout (m.typeOf v) = .ok l) (hi : l.position? hash = some i)
    (hpath : View.path m v i = .direct offset) (hp : l.fields.get? i = some p)
    (hbase : viewStorage w m v = .ok base) :
    inView w m v hash = .ok (.stored (base.toNat + offset) p.item.type) := by
  unfold inView
  rw [hl]
  simp only [Reading.ofLayout, Except.mapError, bind, Except.bind, hi, hpath, hbase, hp]
  rfl

theorem inView_method {slot : Nat} {c : ClassLayout} {d : MethodEntry}
    (hl : w.registry.viewLayout (m.typeOf v) = .ok l) (hi : l.position? hash = some i)
    (hpath : View.path m v i = .method slot) (hshown : View.wrapped m v ≠ 0)
    (hc : w.registry.classLayout (m.typeOf (View.wrapped m v)) = .ok c)
    (hd : c.methods.get? slot = some d) :
    inView w m v hash = .ok (.method d.function d.type (View.wrapped m v)) := by
  unfold inView
  rw [hl]
  simp only [Reading.ofLayout, Except.mapError, bind, Except.bind, hi, hpath, if_neg hshown, hc, hd]
  rfl

theorem viewStorage_standalone (hzero : View.wrapped m v = 0) :
    viewStorage w m v = .ok (View.storage m v) := by
  unfold viewStorage
  dsimp only
  rw [if_pos hzero]
  rfl

theorem viewStorage_shown (hshown : View.wrapped m v ≠ 0)
    (hroot : IsRoot w.registry m (View.wrapped m v)) :
    viewStorage w m v = .ok (View.rootStorage w.registry m (View.wrapped m v)) := by
  unfold viewStorage View.rootStorage World.kindOf
  dsimp only
  rw [if_neg hshown]
  rcases hroot with hk | hk | ⟨hk, -⟩
  · rw [World.kind_eq_ok.2 hk, hk]
    rfl
  · rw [World.kind_eq_ok.2 hk, hk]
    rfl
  · rw [World.kind_eq_ok.2 hk, hk]
    rfl

theorem locate_of_storedIn {offset : Nat} (hs : Arranged w.registry ∅ h values) (hu : u ∈ values)
    (hroot : IsRoot w.registry h.memory u) (hstored : View.StoredIn w.registry h.memory u hash offset t) :
    locate w h.memory u hash =
      .ok (.stored ((View.rootStorage w.registry h.memory u).toNat + offset) t) := by
  unfold View.rootStorage
  cases hstored with
  | «instance» hc hfound =>
    have hk : w.registry.kindAt h.memory u = some .object := Registry.kind?_of_classLayout hc
    rw [locate_instance hc, hfound, hk]
  | openField hk hfound =>
    rw [locate_open hk hash, hfound, hk]
  | @standalone l i p hl hi hp =>
    have hk : w.registry.kindAt h.memory u = some .virtual := Registry.kind?_of_viewLayout hl
    have hzero := hroot.wrapped hk
    obtain ⟨l', hl', hat⟩ := hs.views u hu hk
    obtain rfl : l = l' := Except.ok.inj (hl.symm.trans hl')
    have hpath := (hat.standalone hzero).2.2 i p hp
    rw [locate_view hl, inView_direct hl hi hpath hp (viewStorage_standalone hzero), hk]

/-- A root stores a field of a name, or it has a method of the name, or the name is not found. -/
theorem locate_root {target : Target} (hs : Arranged w.registry ∅ h values) (hu : u ∈ values)
    (hroot : IsRoot w.registry h.memory u) (hok : locate w h.memory u hash = .ok target) :
    (∃ offset t, View.StoredIn w.registry h.memory u hash offset t ∧
        target = .stored ((View.rootStorage w.registry h.memory u).toNat + offset) t) ∨
      ∃ function t, target = .method function t u := by
  have hstored {offset : Nat} {t : TypeId} (hin : View.StoredIn w.registry h.memory u hash offset t) :
      ∃ offset t, View.StoredIn w.registry h.memory u hash offset t ∧
        target = .stored ((View.rootStorage w.registry h.memory u).toNat + offset) t :=
    ⟨offset, t, hin, Except.ok.inj (hok.symm.trans (locate_of_storedIn hs hu hroot hin))⟩
  rcases hroot with hk | hk | ⟨hk, hzero⟩
  · obtain ⟨c, hc, -⟩ := hs.instances u hu hk
    rw [locate_instance hc] at hok
    cases hfound : c.resolve? hash with
    | none =>
      rw [hfound] at hok
      cases hok
    | some member =>
      cases member with
      | field index offset t => exact Or.inl (hstored (.instance hc hfound))
      | method slot function t =>
        rw [hfound] at hok
        exact Or.inr ⟨function, t, (Except.ok.inj hok).symm⟩
  · rw [locate_open hk hash] at hok
    cases hfound : OpenObject.find? (OpenObject.table h.memory u) hash with
    | none =>
      rw [hfound] at hok
      cases hok
    | some f => exact Or.inl (hstored (.openField hk hfound))
  · obtain ⟨l, hl, -⟩ := hs.views u hu hk
    cases hi : l.position? hash with
    | none =>
      rw [locate_view hl, inView_none hl hi, if_pos hzero] at hok
      cases hok
    | some i =>
      obtain ⟨p, hp, -⟩ := Registry.position?_ok hl hi
      exact Or.inl (hstored (.standalone hl hi hp))

/-- Where a name leads in a view, by where it leads in the value that the view shows: to the same method,
to the same place with a type that is the same, or to that value. -/
inductive Mirrors (r : Registry) (u : Addr) (root : Reading Target) : Target → Prop
  | stored {a : Nat} {type declared : TypeId} : root = .ok (.stored a type) →
    r.sameType type declared = true → Mirrors r u root (.stored a declared)
  | method {function : Nat} {type : TypeId} {receiver : Addr} :
    root = .ok (.method function type receiver) → Mirrors r u root (.method function type receiver)
  | forward : Mirrors r u root (.forward u)

theorem locate_mirrors (hs : Arranged w.registry ∅ h values) (hx : x ∈ values)
    (hk : w.registry.kindAt h.memory x = some .virtual) (hshown : View.wrapped h.memory x ≠ 0)
    (hash : NameHash) :
    ∃ target, locate w h.memory x hash = .ok target ∧
      Mirrors w.registry (View.wrapped h.memory x) (locate w h.memory (View.wrapped h.memory x) hash)
        target := by
  obtain ⟨l, hl, hat⟩ := hs.views x hx hk
  obtain ⟨hu, hroot, -⟩ := hat.shown hshown
  rw [locate_view hl]
  cases hi : l.position? hash with
  | none => exact ⟨_, by rw [inView_none hl hi, if_neg hshown], .forward⟩
  | some i =>
    have hforward (hpath : View.path h.memory x i = .indirect) :
        inView w h.memory x hash = .ok (.forward (View.wrapped h.memory x)) := by
      rw [inView_indirect hl hi hpath, if_neg hshown]
    obtain ⟨p, hp, rfl⟩ := Registry.position?_ok hl hi
    have hf : l.fields.values[i]? = some p.item := by
      rw [Region.values, List.getElem?_map]
      exact congrArg _ hp
    rcases View.path_cases hs hx hl hshown hf with
      ⟨offset, t, hstored, hpath⟩ | ⟨c, slot, function, t, hc, hfound, hpath | ⟨hpath, -⟩⟩
    · unfold View.storedPath at hpath
      split_ifs at hpath with hsame
      · refine ⟨_, inView_direct hl hi hpath hp (viewStorage_shown hshown hroot), ?_⟩
        exact .stored (locate_of_storedIn hs hu hroot hstored) hsame
      · exact ⟨_, hforward hpath, .forward⟩
    · exact ⟨_, hforward hpath, .forward⟩
    · obtain ⟨d, hd, rfl, rfl⟩ := ClassLayout.method_of_resolve? hfound
      refine ⟨_, inView_method hl hi hpath hshown hc hd, .method ?_⟩
      rw [locate_instance hc, hfound]

theorem root_or_view {target : Target} (hok : locate w m v hash = .ok target) :
    IsRoot w.registry m v ∨ (w.registry.kindAt m v = some .virtual ∧ View.wrapped m v ≠ 0) := by
  unfold locate at hok
  obtain ⟨k, hk, hok⟩ := Outcome.bind_eq_ok.1 hok
  have hkind : w.registry.kindAt m v = some k := World.kind_eq_ok.1 hk
  cases k with
  | object => exact Or.inl (Or.inl hkind)
  | dynobj => exact Or.inl (Or.inr (Or.inl hkind))
  | virtual =>
    by_cases hzero : View.wrapped m v = 0
    · exact Or.inl (Or.inr (Or.inr ⟨hkind, hzero⟩))
    · exact Or.inr ⟨hkind, hzero⟩
  | _ => cases hok

end Access

end ObjectModel
