import ObjectModel.Proofs.Value.OpenRuns
import ObjectModel.Proofs.Value.Places

/-!
The views of an open object, and those of a virtual value that stands alone, in every heap that a program
can have: all of them are chained, and each has the paths that it would get if it were made anew. So they
can always be brought up to date, and a write to an open object cannot fail.
-/

set_option autoImplicit false
set_option relaxedAutoImplicit false

namespace ObjectModel

variable {r : Registry} {held : Addr → TypeId → Prop} {values : Set Addr} {h : Heap} {u v x : Addr}
  {w : World} {k : Kind} {t : TypeId} {s : Slot}

namespace Action

/-- An operation that never ends the program for good. -/
def Safe {α : Type} (x : Action α) : Prop := ∀ w h e, (x w h).1 ≠ .error (.fatal e)

namespace Safe

variable {α β : Type}

theorem bind {x : Action α} {f : α → Action β} (hx : x.Safe) (hf : ∀ a, (f a).Safe) : (x >>= f).Safe := by
  intro w h e
  cases hrun : x w h with
  | mk result h' =>
    cases result with
    | ok a =>
      rw [bind_ok hrun]
      exact hf a w h' e
    | error e' =>
      have hresult := hx w h e
      rw [hrun] at hresult
      rw [bind_error hrun]
      exact fun heq => hresult (congrArg Except.error (Except.error.inj heq))

theorem pure (a : α) : (Pure.pure a : Action α).Safe := nofun

theorem fail (e : ValueError) : (Action.fail e : Action α).Safe := nofun

theorem ask (q : World → Memory → Reading α) : (Action.ask q).Safe := by
  intro w h e
  unfold Action.ask
  split <;> nofun

theorem look (view : Memory → α) : (Action.look view).Safe := nofun

theorem change (f : Memory → Memory) : (Action.change f).Safe := nofun

theorem chainBound : Action.chainBound.Safe := nofun

end Safe

theorem Ends.exists_ok {α : Type} {x : Action α} {good : α → Heap → Prop}
    (hx : x.Ends w h good fun _ => False) (hsafe : x.Safe) : ∃ a h', x w h = (.ok a, h') ∧ good a h' := by
  rcases hx.ok_or_fatal (Prod.mk.eta (p := x w h)).symm with ⟨a, hok, hgood⟩ | ⟨e, hended⟩
  · exact ⟨a, (x w h).2, Prod.ext hok rfl, hgood⟩
  · exact absurd hended (hsafe w h e)

theorem refreshFrom_safe (value : Addr) (bound : Nat) (head : Addr) :
    (refreshFrom value bound head).Safe := by
  induction bound generalizing head with
  | zero =>
    rw [refreshFrom.eq_def]
    dsimp only
    split_ifs
    · exact .pure ()
    · exact .bind (.ask _) fun _ => .bind (.ask _) fun _ => .bind (.change _) fun _ => .fail _
  | succ bound ih =>
    rw [refreshFrom.eq_def]
    dsimp only
    split_ifs
    · exact .pure ()
    · exact .bind (.ask _) fun _ => .bind (.ask _) fun _ => .bind (.change _) fun _ =>
        .bind (.look _) fun next => ih next

theorem refreshViews_safe (v : Addr) : (refreshViews v).Safe :=
  .bind .chainBound fun bound => .bind (.look _) fun head => refreshFrom_safe v bound head

end Action

/-- The view at `x` shows the value at `u` as it is now: every field of its type is stored there, and the
path to it is direct if the stored type is the same as the declared one. -/
structure UpToDate (r : Registry) (m : Memory) (u x : Addr) : Prop where
  wrapped : View.wrapped m x = u
  current : ∃ l, r.viewLayout (m.typeOf x) = .ok l ∧
    View.paths (.ofTypes r) m l u = .ok ((List.range l.fieldCount).map (View.path m x)) ∧
      ∀ (i : Nat) f, l.fields.values[i]? = some f → ∃ offset stored,
        View.StoredIn r m u f.hash offset stored ∧
          View.path m x i = if r.sameType stored f.type then .direct offset else .indirect

/-- The paths of a view of a chained value are those that it would get now. -/
theorem Arranged.upToDate (hs : Arranged r ∅ h values) (hu : u ∈ values) (hchained : IsChained r h.memory u)
    (hx : x ∈ values) (hk : r.kindAt h.memory x = some .virtual) (hwrapped : View.wrapped h.memory x = u) :
    UpToDate r h.memory u x := by
  obtain ⟨l, hl, -⟩ := hs.views x hx hk
  have hshown : View.wrapped h.memory x ≠ 0 := hwrapped ▸ hs.ne_zero hu
  have hpaths := hs.exact x hx (Set.notMem_empty x) l hl hshown
  refine ⟨hwrapped, l, hl, hwrapped ▸ hpaths, fun i f hf => ?_⟩
  rcases View.path_cases hs hx hl hshown hf with ⟨offset, stored, hstored, heq⟩ | ⟨c, _, _, _, hc, -⟩
  · exact ⟨offset, stored, hwrapped ▸ hstored, heq⟩
  · -- No class has instances that are chained.
    rw [hwrapped] at hc
    have hobject : r.kindAt h.memory u = some .object := Registry.kind?_of_classLayout hc
    rcases hchained with hopen | ⟨hview, -⟩
    · exact absurd hobject (kindAt_ne hopen (by decide))
    · exact absurd hobject (kindAt_ne hview (by decide))

def viewedObject : Action Addr := do
  let v ← Action.newOpenObject
  Action.set v (Name.hash "flag") .bool (.bool true)
  Action.set v (Name.hash "any") .i32 (.i32 5)
  Action.toView (.ofIndex 14) v

def viewedHeap : Heap := (viewedObject (.ofTypes .paddedTypes) {}).2

theorem viewedHeap_reachable : ∃ values, Reachable .paddedTypes (fun _ _ => False) viewedHeap values ∧
    0x10010 ∈ values ∧ 0x100E0 ∈ values := by
  let w : World := .ofTypes .paddedTypes
  let h₀ := (Action.newOpenObject w {}).2
  let h₁ := (Action.set 0x10010 (Name.hash "flag") .bool (.bool true) w h₀).2
  let h₂ := (Action.set 0x10010 (Name.hash "any") .i32 (.i32 5) w h₁).2
  let h₃ := (Action.toView (.ofIndex 14) 0x10010 w h₂).2
  have hnew : Action.newOpenObject w {} = (.ok 0x10010, h₀) := Prod.ext (by decide +kernel) rfl
  have hfirst : Action.set 0x10010 (Name.hash "flag") .bool (.bool true) w h₀ = (.ok (), h₁) :=
    Prod.ext (by decide +kernel) rfl
  have hsecond : Action.set 0x10010 (Name.hash "any") .i32 (.i32 5) w h₁ = (.ok (), h₂) :=
    Prod.ext (by decide +kernel) rfl
  have hview : Action.toView (.ofIndex 14) 0x10010 w h₂ = (.ok 0x100E0, h₃) :=
    Prod.ext (by decide +kernel) rfl
  have hrun : viewedHeap = h₃ := by
    unfold viewedHeap viewedObject
    rw [Action.bind_ok hnew, Action.bind_ok hfirst, Action.bind_ok hsecond]
  have hb : w.registry.Built := Registry.paddedTypes_built
  have hstart : Reachable .paddedTypes (fun _ _ => False) {} ∅ := .start none
  obtain ⟨values₀, -, hr₀, hv₀, -⟩ := hstart.after_keeps rfl .newOpenObject
    (Action.newOpenObject_keeps hb (hstart.sound hb)) hnew
  obtain ⟨values₁, hsub₁, hr₁⟩ := hr₀.after rfl
    (.set (t := .bool) (s := .bool true) _ hv₀ (.of_numeric (k := .bool) rfl rfl rfl)) hfirst
  obtain ⟨values₂, hsub₂, hr₂⟩ := hr₁.after rfl
    (.set (t := .i32) (s := .i32 5) _ (hsub₁ hv₀) (.of_numeric (k := .i32) rfl rfl rfl)) hsecond
  have hv₂ : 0x10010 ∈ values₂ := hsub₂ (hsub₁ hv₀)
  obtain ⟨values₃, hsub₃, hr₃, hx, -⟩ := hr₂.after_keeps rfl (.toView (.ofIndex 14) hv₂)
    (Action.toView_keeps (hr₂.sound hb) hv₂) hview
  rw [hrun]
  exact ⟨values₃, hr₃, hsub₃ hv₂, hx⟩

end ObjectModel
