import ObjectModel.Proofs.Value.Transparency

/-!
Names are passed on once at most. What a view shows is a value that no view comes between: an instance, an
open object, or a virtual value that stands alone; each of them has a name itself or not at all. So it does
not matter how many more steps than one an operation may follow values that show each other.
-/

set_option autoImplicit false
set_option relaxedAutoImplicit false

namespace ObjectModel

variable {values : Set Addr} {h : Heap} {u x : Addr} {w : World} {hash : NameHash} {t : TypeId} {s : Slot}

namespace Access

theorem not_forward_of_root (hs : Arranged w.registry ∅ h values) (hu : u ∈ values)
    (hroot : IsRoot w.registry h.memory u) (x : Addr) : locate w h.memory u hash ≠ .ok (.forward x) := by
  intro hok
  rcases locate_root hs hu hroot hok with ⟨offset, t, -, heq⟩ | ⟨function, t, heq⟩
  · cases heq
  · cases heq

/-- A name is passed on to the root of the value only. -/
theorem rootOf_of_forward (hs : Arranged w.registry ∅ h values) (hx : x ∈ values)
    (hok : locate w h.memory x hash = .ok (.forward u)) :
    u ∈ values ∧ RootOf w.registry h.memory u x ∧ w.registry.kindAt h.memory x = some .virtual := by
  rcases root_or_view hok with hroot | ⟨hk, hshown⟩
  · exact absurd hok (not_forward_of_root hs hx hroot u)
  · obtain ⟨l, -, hat⟩ := hs.views x hx hk
    obtain ⟨hmem, hroot, -⟩ := hat.shown hshown
    obtain ⟨target, hlocated, hmirrors⟩ := locate_mirrors hs hx hk hshown hash
    obtain rfl : target = .forward u := Except.ok.inj (hlocated.symm.trans hok)
    generalize heq : View.wrapped h.memory x = shown at hmem hroot hmirrors hshown
    cases hmirrors with
    | forward => exact ⟨hmem, ⟨hshown, hroot, Or.inr ⟨hk, heq⟩⟩, hk⟩

theorem root_of_forward (hs : Arranged w.registry ∅ h values) (hx : x ∈ values)
    (hok : locate w h.memory x hash = .ok (.forward u)) :
    u ∈ values ∧ IsRoot w.registry h.memory u := by
  obtain ⟨hu, hroot, -⟩ := rootOf_of_forward hs hx hok
  exact ⟨hu, hroot.root⟩

/-- The only way in which a value does not have a name is that it has no such member. In particular no path
of a virtual value that stands alone leads to a value that is not there. -/
theorem fieldNotFound_of_error (hs : Arranged w.registry ∅ h values) (hx : x ∈ values) {e : ValueError}
    (herror : locate w h.memory x hash = .error e) : e = .fieldNotFound hash := by
  obtain ⟨k, hk, -⟩ := hs.kinds x hx
  cases k with
  | object =>
    obtain ⟨c, hc, -⟩ := hs.instances x hx hk
    rw [locate_instance hc] at herror
    split at herror <;> cases herror
    rfl
  | dynobj =>
    rw [locate_open hk hash] at herror
    split at herror <;> cases herror
    rfl
  | virtual =>
    by_cases hzero : View.wrapped h.memory x = 0
    · obtain ⟨l, hl, -⟩ := hs.views x hx hk
      cases hi : l.position? hash with
      | none =>
        rw [locate_view hl, inView_none hl hi, if_pos hzero] at herror
        cases herror
        rfl
      | some i =>
        obtain ⟨p, hp, -⟩ := Registry.position?_ok hl hi
        have hstored := locate_of_storedIn hs hx (Or.inr (Or.inr ⟨hk, hzero⟩)) (.standalone hl hi hp)
        rw [hstored] at herror
        cases herror
    · obtain ⟨target, hok, -⟩ := locate_mirrors hs hx hk hzero hash
      rw [hok] at herror
      cases herror
  | _ =>
    have hnone : locate w h.memory x hash = .error (.fieldNotFound hash) := by
      unfold locate
      dsimp only
      rw [World.kind_eq_ok.2 hk]
      rfl
    exact Except.error.inj (herror.symm.trans hnone)

end Access

namespace Action

/-! One step is as good as many. -/

theorem ask_bind_congr {α β : Type} {q : World → Memory → Reading α} {f g : α → Action β}
    (hfg : ∀ a, q w h.memory = .ok a → f a w h = g a w h) : (ask q >>= f) w h = (ask q >>= g) w h := by
  cases hq : q w h.memory with
  | ok a => rw [ask_bind_ok hq, ask_bind_ok hq, hfg a hq]
  | error e => rw [bind_error (ask_error hq), bind_error (ask_error hq)]

theorem look_bind_congr {α β : Type} {view : Memory → α} {f g : α → Action β}
    (hfg : f (view h.memory) w h = g (view h.memory) w h) : (look view >>= f) w h = (look view >>= g) w h :=
  hfg

theorem world_bind_congr {β : Type} {f g : World → Action β} (hfg : f w w h = g w w h) :
    (world >>= f) w h = (world >>= g) w h :=
  hfg

theorem getFrom_bound (hs : Arranged w.registry ∅ h values) (hx : x ∈ values) (bound : Nat) :
    getFrom hash t (bound + 1) x w h = getFrom hash t 1 x w h := by
  rw [getFrom.eq_def, getFrom.eq_def hash t 1]
  refine ask_bind_congr fun target hlocated => ?_
  cases target with
  | stored a type => rfl
  | method function type receiver => rfl
  | forward u =>
    obtain ⟨hu, hroot⟩ := Access.root_of_forward hs hx hlocated
    exact getFrom_root hs hu hroot bound 0

private theorem setFrom_congr {bound bound' : Nat}
    (hforward : ∀ u, Access.locate w h.memory x hash = .ok (.forward u) →
      (match bound with
        | 0 => fail .endlessViews
        | bound + 1 => setFrom hash t s bound u : Action Unit) w h =
      (match bound' with
        | 0 => fail .endlessViews
        | bound + 1 => setFrom hash t s bound u : Action Unit) w h) :
    setFrom hash t s bound x w h = setFrom hash t s bound' x w h := by
  rw [setFrom.eq_def, setFrom.eq_def hash t s bound']
  refine ask_bind_congr fun k _ => ?_
  by_cases hopen : k = .dynobj
  · rw [if_pos hopen, if_pos hopen]
  · rw [if_neg hopen, if_neg hopen]
    refine ask_bind_congr fun target hlocated => ?_
    cases target with
    | stored a type => rfl
    | method function type receiver => rfl
    | forward u => exact hforward u hlocated

theorem setFrom_root (hs : Arranged w.registry ∅ h values) (hu : u ∈ values)
    (hroot : IsRoot w.registry h.memory u) (bound bound' : Nat) :
    setFrom hash t s bound u w h = setFrom hash t s bound' u w h :=
  setFrom_congr fun x hforward => absurd hforward (Access.not_forward_of_root hs hu hroot x)

theorem setFrom_bound (hs : Arranged w.registry ∅ h values) (hx : x ∈ values) (bound : Nat) :
    setFrom hash t s (bound + 1) x w h = setFrom hash t s 1 x w h := by
  refine setFrom_congr fun u hforward => ?_
  obtain ⟨hu, hroot⟩ := Access.root_of_forward hs hx hforward
  exact setFrom_root hs hu hroot bound 0

private theorem toViewFrom_congr {bound bound' : Nat}
    (hinner : w.registry.kindAt h.memory x = some .virtual → View.wrapped h.memory x ≠ 0 →
      (match bound with
        | 0 => fail .endlessViews
        | bound + 1 => toViewFrom t bound (View.wrapped h.memory x) : Action Addr) w h =
      (match bound' with
        | 0 => fail .endlessViews
        | bound + 1 => toViewFrom t bound (View.wrapped h.memory x) : Action Addr) w h) :
    toViewFrom t bound x w h = toViewFrom t bound' x w h := by
  rw [toViewFrom.eq_def, toViewFrom.eq_def t bound']
  refine look_bind_congr (ask_bind_congr fun k hk => ?_)
  cases k with
  | virtual =>
    refine world_bind_congr ?_
    by_cases hsame : w.registry.sameType (h.memory.typeOf x) t = true
    · rw [if_pos hsame, if_pos hsame]
    · rw [if_neg hsame, if_neg hsame]
      refine look_bind_congr ?_
      by_cases hzero : View.wrapped h.memory x = 0
      · rw [if_pos hzero, if_pos hzero]
      · rw [if_neg hzero, if_neg hzero]
        exact hinner (World.kind_eq_ok.1 hk) hzero
  | _ => rfl

theorem toViewFrom_root (hroot : IsRoot w.registry h.memory u) (bound bound' : Nat) :
    toViewFrom t bound u w h = toViewFrom t bound' u w h :=
  toViewFrom_congr fun hk hshown => absurd (hroot.wrapped hk) hshown

theorem toViewFrom_bound (hs : Arranged w.registry ∅ h values) (hx : x ∈ values) (bound : Nat) :
    toViewFrom t (bound + 1) x w h = toViewFrom t 1 x w h := by
  refine toViewFrom_congr fun hk hshown => ?_
  obtain ⟨l, -, hat⟩ := hs.views x hx hk
  exact toViewFrom_root (hat.shown hshown).2.1 bound 0

end Action

end ObjectModel
