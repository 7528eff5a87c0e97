import ObjectModel.Proofs.Value.Forwarding

/-!
Operations on values do not run out of steps. How far they may follow values that show each other, or the
chain of the views of a value, is limited by the number of blocks; in a sound heap they never get as far.
-/

set_option autoImplicit false
set_option relaxedAutoImplicit false

namespace ObjectModel

variable {r : Registry} {held : Addr → TypeId → Prop} {values : Set Addr} {h h' : Heap} {u v a : Addr}
  {w : World} {m : Memory} {t source target : TypeId} {s : Slot} {k : Kind} {hash : NameHash}

namespace Reading

variable {α β : Type}

/-- An answer is not that views lead from one to the next without end. -/
def Terminates (x : Reading α) : Prop := x ≠ .error .endlessViews

namespace Terminates

theorem bind {x : Reading α} {f : α → Reading β} (hx : x.Terminates) (hf : ∀ a, (f a).Terminates) :
    Reading.Terminates (x >>= f) := by
  cases x with
  | ok a => exact hf a
  | error e =>
    intro h
    exact hx (congrArg Except.error (Except.error.inj h))

theorem ok (a : α) : Reading.Terminates (.ok a) := nofun

theorem error {e : ValueError} (he : e ≠ .endlessViews) : Reading.Terminates (.error e : Reading α) :=
  fun h => he (Except.error.inj h)

theorem ofType (x : Except TypeError α) : (Reading.ofType x).Terminates := by
  cases x <;> nofun

theorem ofLayout (x : Except LayoutError α) : (Reading.ofLayout x).Terminates := by
  cases x <;> nofun

end Terminates

end Reading

theorem Box.content_terminates : (Box.content w m v).Terminates :=
  .bind (.ofType _) fun _ => .ok _

theorem Coercion.actual_terminates : (Coercion.actual w m a source k).Terminates := by
  unfold actual
  split
  · exact .bind (.ofType _) fun _ => .ok _
  · exact .ok _

theorem Coercion.number_terminates : (Coercion.number w m s source target).Terminates := by
  unfold number
  refine .bind (.ofType _) fun k => ?_
  split
  · split
    · exact .ok _
    · exact .error (by simp)
  · split
    · split
      · exact .ok _
      · refine .bind Box.content_terminates fun ⟨content, t⟩ => ?_
        dsimp only
        split
        · exact .ok _
        · exact .error (by simp)
    · exact .error (by simp)
  · exact .error (by simp)

namespace View

variable {l : ViewLayout}

private theorem require_terminates {path? : Field → Option Path} (fields : List Field) :
    (require path? fields).Terminates := by
  induction fields with
  | nil => exact .ok _
  | cons f rest ih =>
    rw [require]
    split
    · exact .error (by simp)
    · cases hrest : require path? rest with
      | ok paths => exact .ok _
      | error e =>
        rw [hrest] at ih
        exact .error fun he => ih (congrArg Except.error he)

theorem paths_terminates : (paths w m l v).Terminates := by
  unfold paths
  refine .bind (.ofType _) fun k => ?_
  cases k with
  | object => exact .bind (.ofLayout _) fun _ => require_terminates _
  | dynobj => exact require_terminates _
  | virtual => exact .bind (.ofLayout _) fun _ => require_terminates _
  | _ => exact .error (by simp)

/-- A search that may go as far as the chain is long comes to its end. -/
theorem findInChain_terminates {bound : Nat} {head : Addr} {chain : List Addr} (hl : Linked m head chain)
    (hbound : chain.length ≤ bound) : (findInChain r m t bound head).Terminates := by
  induction chain generalizing head bound with
  | nil =>
    obtain rfl : head = 0 := hl
    rw [findInChain.eq_def]
    exact .ok _
  | cons x rest ih =>
    obtain ⟨rfl, hne, hrest⟩ := hl
    rw [findInChain.eq_def]
    dsimp only
    rw [if_neg hne]
    split
    · exact .ok _
    · cases bound with
      | zero => simp at hbound
      | succ bound => exact ih hrest (by simpa using hbound)

end View

theorem Closure.accepts_terminates {param actual : TypeId} : (Closure.accepts w param actual).Terminates := by
  unfold accepts
  split
  · exact .ok _
  · refine .bind (.ofType _) fun k => .bind (.ofType _) fun l => ?_
    split <;> exact .ok _

theorem Closure.boundType_terminates {function : TypeId} : (Closure.boundType w function t).Terminates := by
  unfold boundType
  refine .bind (.ofType _) fun f => ?_
  split
  · exact .error (by simp)
  · refine .bind accepts_terminates fun ok => ?_
    split
    · split
      · exact .ok _
      · exact .error (by simp)
    · exact .error (by simp)

namespace Action

variable {α β : Type}

/-- An operation does not fail because views lead from one to the next without end. Irreducible, as else
goals about an operation would run it. -/
@[irreducible]
def Terminates (x : Action α) (w : World) (h : Heap) : Prop := (x w h).1 ≠ .error (.error .endlessViews)

namespace Terminates

theorem ne {x : Action α} (hx : x.Terminates w h) : (x w h).1 ≠ .error (.error .endlessViews) := by
  unfold Terminates at hx
  exact hx

theorem congr {x y : Action α} (hy : y.Terminates w h) (hxy : x w h = y w h) : x.Terminates w h := by
  unfold Terminates at hy ⊢
  rwa [hxy]

theorem bind {x : Action α} {f : α → Action β} (hx : x.Terminates w h)
    (hf : ∀ a h', x w h = (.ok a, h') → (f a).Terminates w h') : (x >>= f).Terminates w h := by
  unfold Terminates at hx ⊢
  cases hrun : x w h with
  | mk result h' =>
    cases result with
    | ok a =>
      have hnext := hf a h' hrun
      unfold Terminates at hnext
      rwa [bind_ok hrun]
    | error e =>
      rw [hrun] at hx
      rw [bind_error hrun]
      exact fun heq => hx (congrArg Except.error (Except.error.inj heq))

theorem pure (a : α) : (Pure.pure a : Action α).Terminates w h := by
  unfold Terminates
  nofun

theorem fail {e : ValueError} (he : e ≠ .endlessViews) : (Action.fail e : Action α).Terminates w h := by
  unfold Terminates
  intro heq
  exact he (Fault.error.inj (Except.error.inj heq))

theorem change (f : Memory → Memory) : (Action.change f).Terminates w h := by
  unfold Terminates
  nofun

theorem ask_bind {q : World → Memory → Reading α} {f : α → Action β} (hq : (q w h.memory).Terminates)
    (hf : ∀ a, q w h.memory = .ok a → (f a).Terminates w h) : (Action.ask q >>= f).Terminates w h := by
  cases hrun : q w h.memory with
  | ok a => exact (hf a hrun).congr (bind_ok (ask_ok hrun))
  | error e =>
    unfold Terminates
    rw [bind_error (ask_error hrun)]
    intro heq
    rw [hrun] at hq
    exact hq (congrArg Except.error (Fault.error.inj (Except.error.inj heq)))

theorem look_bind {view : Memory → α} {f : α → Action β} (hf : (f (view h.memory)).Terminates w h) :
    (Action.look view >>= f).Terminates w h :=
  hf.congr rfl

theorem world_bind {f : World → Action β} (hf : (f w).Terminates w h) :
    (Action.world >>= f).Terminates w h :=
  hf.congr rfl

theorem chainBound_bind {f : Nat → Action β} (hf : (f (h.blocks.size + 1)).Terminates w h) :
    (Action.chainBound >>= f).Terminates w h :=
  hf.congr rfl

theorem guard {p : Prop} [Decidable p] {a : α} {e : ValueError} (he : e ≠ .endlessViews) :
    (if p then Pure.pure a else Action.fail e : Action α).Terminates w h := by
  split
  · exact pure a
  · exact fail he

theorem of_ends {x : Action α} {good : α → Heap → Prop} (hx : x.Ends w h good fun _ => False) :
    x.Terminates w h := by
  unfold Terminates
  intro heq
  exact hx.of_error (Prod.ext heq rfl)

end Terminates

theorem newValue_terminates (size : Nat) (kind : BlockKind) (t : TypeId) :
    (newValue size kind t).Terminates w h := by
  refine .bind ?_ fun v _ _ => .bind (.change _) fun _ _ _ => .pure v
  unfold Terminates
  obtain ⟨e, hfatal⟩ | ⟨v, h', -, -, htaken⟩ := allocate_cases size kind w h
  · simp [hfatal]
  · simp [htaken]

theorem toDynamic_terminates : (toDynamic s t).Terminates w h := by
  have hfill : (toDynamic.fill s t).Terminates w h :=
    .bind (.ask_bind (.ofType _) fun _ _ => newValue_terminates _ _ _) fun v _ _ =>
      .bind (.change _) fun _ _ _ => .pure v
  unfold toDynamic
  refine .ask_bind (.ofType _) fun k _ => ?_
  split
  · cases s with
    | void => exact .pure _
    | pointer a =>
      dsimp only
      split
      · exact .pure _
      · exact hfill
    | _ => exact hfill
  · exact .fail (by simp)

theorem boxAs_terminates : (boxAs s source target).Terminates w h := by
  unfold boxAs
  refine .ask_bind (.ofType _) fun d _ => ?_
  cases d with
  | null inner =>
    refine .world_bind ?_
    dsimp only
    split
    · exact toDynamic_terminates
    · exact .fail (by simp)
  | _ => exact .fail (by simp)

theorem bindMethod_terminates {function : Nat} {type : TypeId} {receiver : Addr} :
    (bindMethod function type receiver).Terminates w h := by
  unfold bindMethod bindClosure
  refine .world_bind ?_
  split
  · refine .ask_bind Closure.boundType_terminates fun c _ => ?_
    refine .bind (newValue_terminates _ _ _) fun v _ _ => .bind (.change _) fun _ _ _ => .pure v
  · exact .fail (by simp)

/-! Views. -/

theorem newView_terminates : (newView t u).Terminates w h := by
  unfold newView
  refine .ask_bind (.ofLayout _) fun l _ => .ask_bind View.paths_terminates fun paths _ => ?_
  exact .bind (newValue_terminates _ _ _) fun v _ _ => .bind (.change _) fun _ _ _ => .pure v

theorem chainedView_terminates (hs : Ordered w.registry ∅ h values) (hu : u ∈ values)
    (hchained : IsChained w.registry h.memory u) :
    (chainedView t u (chainHead w.registry h.memory u)).Terminates w h := by
  obtain ⟨chain, hchain⟩ := hs.chains u hu hchained
  have hlength := length_le_blocks hs.arranged hchain.nodup fun x hx => ((hchain.mem x).1 hx).1
  unfold chainedView
  refine .chainBound_bind (.look_bind (.ask_bind ?_ fun found _ => ?_))
  · exact View.findInChain_terminates hchain.linked (hlength.trans (Nat.le_succ _))
  · cases found with
    | some x => exact .pure x
    | none => exact .bind newView_terminates fun v _ _ => .bind (.change _) fun _ _ _ => .pure v

private theorem toViewFrom_terminates_of_inner {bound : Nat} (hs : Ordered w.registry ∅ h values)
    (hv : v ∈ values)
    (hinner : w.registry.kindAt h.memory v = some .virtual → View.wrapped h.memory v ≠ 0 →
      (match bound with
        | 0 => Action.fail .endlessViews
        | bound + 1 => toViewFrom t bound (View.wrapped h.memory v) : Action Addr).Terminates w h) :
    (toViewFrom t bound v).Terminates w h := by
  rw [toViewFrom.eq_def]
  refine .look_bind (.ask_bind (.ofType _) fun k hk => ?_)
  have hkind : w.registry.kindAt h.memory v = some k := World.kind_eq_ok.1 hk
  cases k with
  | object => exact newView_terminates
  | dynobj =>
    have hview := chainedView_terminates (t := t) hs hv (Or.inl hkind)
    rwa [chainHead, if_pos hkind] at hview
  | virtual =>
    refine .world_bind ?_
    by_cases hsame : w.registry.sameType (h.memory.typeOf v) t = true
    · rw [if_pos hsame]
      exact .pure v
    · rw [if_neg hsame]
      refine .look_bind ?_
      by_cases hzero : View.wrapped h.memory v = 0
      · rw [if_pos hzero]
        have hview := chainedView_terminates (t := t) hs hv (Or.inr ⟨hkind, hzero⟩)
        rwa [chainHead, if_neg (kindAt_ne hkind (by decide))] at hview
      · rw [if_neg hzero]
        exact hinner hkind hzero
  | _ => exact .fail (by simp)

theorem toViewFrom_terminates (hs : Ordered w.registry ∅ h values) (hv : v ∈ values) (bound : Nat) :
    (toViewFrom t (bound + 1) v).Terminates w h := by
  refine toViewFrom_terminates_of_inner hs hv fun hk hshown => ?_
  obtain ⟨l, -, hat⟩ := hs.arranged.views v hv hk
  obtain ⟨hu, hroot, -⟩ := hat.shown hshown
  exact toViewFrom_terminates_of_inner hs hu fun hk hshown => absurd (hroot.wrapped hk) hshown

theorem toView_terminates (hs : Ordered w.registry ∅ h values) (hv : v ∈ values) :
    (toView t v).Terminates w h :=
  .chainBound_bind (toViewFrom_terminates hs hv _)

/-! Conversions. -/

theorem castActual_terminates {actual : TypeId} (hs : Sound w.registry held ∅ h values)
    (ha : Reveals w.registry held values h.memory a actual) :
    (castActual a actual target k).Terminates w h := by
  unfold castActual
  refine .world_bind (.ask_bind (.ofType _) fun l hl => ?_)
  have hactual : w.registry.kind? actual = some l := World.kind_eq_ok.1 hl
  dsimp only
  cases k with
  | virtual =>
    by_cases hmembers : l = .object ∨ l = .dynobj ∨ l = .virtual
    · rw [if_pos hmembers]
      refine toView_terminates hs.toOrdered ?_
      obtain ⟨l', hl', ⟨-, -, hmem, -⟩ | ⟨hraw, -⟩⟩ := ha
      · exact hmem
      · -- What is raw has no members.
        obtain rfl := Option.some.inj (hactual.symm.trans hl')
        rcases hmembers with rfl | rfl | rfl <;> cases hraw
    · rw [if_neg hmembers]
      exact .fail (by simp)
  | null =>
    by_cases hnumeric : l.isNumeric = true
    · rw [if_pos hnumeric]
      exact .ask_bind Box.content_terminates fun content _ => boxAs_terminates
    · rw [if_neg hnumeric]
      exact .guard (by simp)
  | _ => exact .guard (by simp)

theorem castPointer_terminates (hs : Sound w.registry held ∅ h values)
    (hslot : WellTyped w.registry held values h.memory source s) :
    (castPointer s source target).Terminates w h := by
  unfold castPointer
  refine .ask_bind (.ofType _) fun l hl => .ask_bind (.ofType _) fun k _ => ?_
  have hsource : w.registry.kind? source = some l := World.kind_eq_ok.1 hl
  cases s with
  | void => exact .pure _
  | pointer a =>
    refine .world_bind ?_
    by_cases hsame : a = 0 ∨ w.registry.sameType source target = true
    · rw [if_pos hsame]
      exact .pure _
    · rw [if_neg hsame]
      have hne : a ≠ 0 := fun hzero => hsame (Or.inl hzero)
      by_cases hdynamic : k = .dynamic
      · rw [if_pos hdynamic]
        split
        · exact .pure _
        · exact toDynamic_terminates
      · rw [if_neg hdynamic]
        refine .ask_bind Coercion.actual_terminates fun revealed hrevealed => ?_
        exact castActual_terminates hs (reveals_of_actual hs hslot hne hsource hrevealed)
  | _ =>
    cases k with
    | dynamic => exact toDynamic_terminates
    | null => exact boxAs_terminates
    | _ => exact .fail (by simp)

theorem convert_terminates (hs : Sound w.registry held ∅ h values)
    (hslot : WellTyped w.registry held values h.memory source s) :
    (convert s source target).Terminates w h := by
  unfold convert
  refine .ask_bind (.ofType _) fun k _ => ?_
  by_cases hvoid : k = .void
  · rw [if_pos hvoid]
    exact .pure _
  rw [if_neg hvoid]
  by_cases hnumeric : k.isNumeric = true
  · rw [if_pos hnumeric]
    refine .ask_bind Coercion.number_terminates fun n _ => ?_
    split
    · exact .pure _
    · exact .fail (by simp)
  · rw [if_neg hnumeric]
    exact .bind (castPointer_terminates hs hslot) fun v _ _ => .pure _

/-! Members by name. -/

private theorem locate_terminates (hs : Arranged w.registry ∅ h values) (hv : v ∈ values) :
    (Access.locate w h.memory v hash).Terminates := by
  intro herror
  have hnone := Access.fieldNotFound_of_error hs hv herror
  cases hnone

private theorem getFrom_terminates_of_forward {bound : Nat} (hb : w.registry.Built)
    (hs : Sound w.registry held ∅ h values) (hv : v ∈ values)
    (hforward : ∀ u, Access.locate w h.memory v hash = .ok (.forward u) →
      (match bound with
        | 0 => Action.fail .endlessViews
        | bound + 1 => getFrom hash t bound u : Action Slot).Terminates w h) :
    (getFrom hash t bound v).Terminates w h := by
  rw [getFrom.eq_def]
  refine .ask_bind (locate_terminates hs.arranged hv) fun target htarget => ?_
  cases target with
  | stored address type =>
    have hsense := Access.locate_sensible hs.arranged hv htarget
    refine .ask_bind (.ofType _) fun _ _ => .ask_bind (.ofType _) fun k hk => .look_bind ?_
    exact convert_terminates hs (hsense.wellTyped hs (World.kind_eq_ok.1 hk))
  | method function type receiver =>
    refine .ask_bind (.ofType _) fun k _ => ?_
    by_cases hpointer : k.isPointer = true
    · rw [if_pos hpointer]
      refine .bind bindMethod_terminates fun c h' hrun => .look_bind ?_
      obtain ⟨values', hkept, hc⟩ := (bindMethod_keeps hb hs function receiver).of_ok hrun
      have hslot : WellTyped w.registry held values' h'.memory (h'.memory.typeOf c) (.pointer c) :=
        .of_leadsTo hc.2 rfl ⟨hc.1, Registry.sameType_refl _ _⟩
      exact .bind (castPointer_terminates hkept.sound hslot) fun v _ _ => .pure _
    · rw [if_neg hpointer]
      exact .fail (by simp)
  | forward u => exact hforward u htarget

theorem get_terminates (hb : w.registry.Built) (hs : Sound w.registry held ∅ h values) (hv : v ∈ values) :
    (get v hash t).Terminates w h := by
  refine .chainBound_bind (getFrom_terminates_of_forward hb hs hv fun u hlocated => ?_)
  obtain ⟨hu, hroot⟩ := Access.root_of_forward hs.arranged hv hlocated
  exact getFrom_terminates_of_forward hb hs hu fun x hforward =>
    absurd hforward (Access.not_forward_of_root hs.arranged hu hroot x)

private theorem setFrom_terminates_of_forward {bound : Nat} (hs : Sound w.registry held ∅ h values)
    (hv : v ∈ values)
    (hslot : WellTyped w.registry held values h.memory t s)
    (hforward : ∀ u, Access.locate w h.memory v hash = .ok (.forward u) →
      (match bound with
        | 0 => Action.fail .endlessViews
        | bound + 1 => setFrom hash t s bound u : Action Unit).Terminates w h) :
    (setFrom hash t s bound v).Terminates w h := by
  rw [setFrom.eq_def]
  refine .ask_bind (.ofType _) fun k hk => ?_
  by_cases hopen : k = .dynobj
  · rw [if_pos hopen]
    subst hopen
    exact .of_ends (setOpenField_ends hs hv (World.kind_eq_ok.1 hk) hash hslot)
  · rw [if_neg hopen]
    refine .ask_bind (locate_terminates hs.arranged hv) fun target htarget => ?_
    cases target with
    | stored address type => exact .bind (convert_terminates hs hslot) fun s' _ _ => .change _
    | method function type receiver => exact .fail (by simp)
    | forward u => exact hforward u htarget

theorem set_terminates (hs : Sound w.registry held ∅ h values) (hv : v ∈ values)
    (hslot : WellTyped w.registry held values h.memory t s) : (set v hash t s).Terminates w h := by
  unfold set
  refine .ask_bind (.ofType _) fun k _ => ?_
  split
  · refine .chainBound_bind (setFrom_terminates_of_forward hs hv hslot fun u hlocated => ?_)
    obtain ⟨hu, hroot⟩ := Access.root_of_forward hs.arranged hv hlocated
    exact setFrom_terminates_of_forward hs hu hslot fun x hforward =>
      absurd hforward (Access.not_forward_of_root hs.arranged hu hroot x)
  · exact .fail (by simp)

end Action

/-- In every heap that a program can have, what a virtual value shows is null or a value that shows no other
one: an instance, an open object, or a virtual value that stands alone and reaches all its fields directly.
So in a virtual value a name is not found or leads somewhere, but never to null, and to a value only that
does not pass it on. Reads, writes and conversions to views need one step to another value at most, and they
do not run out of steps. -/
theorem Reachable.forwards_once (hb : r.Built) (hr : Reachable r held h values) (hw : w.registry = r) :
    (∀ x ∈ values, r.kindAt h.memory x = some .virtual → View.wrapped h.memory x = 0 ∨
      View.wrapped h.memory x ∈ values ∧ IsRoot r h.memory (View.wrapped h.memory x)) ∧
    (∀ x ∈ values, ∀ l, r.viewLayout (h.memory.typeOf x) = .ok l → View.wrapped h.memory x = 0 →
      ∀ i, i < l.fieldCount →
        ∃ p, l.fields.get? i = some p ∧ View.path h.memory x i = .direct p.offset) ∧
    (∀ x ∈ values, r.kindAt h.memory x = some .virtual → ∀ hash e,
      Access.inView w h.memory x hash = .error e → e = .fieldNotFound hash) ∧
    (∀ x ∈ values, ∀ hash u, Access.locate w h.memory x hash = .ok (.forward u) →
      u ∈ values ∧ ∀ u', Access.locate w h.memory u hash ≠ .ok (.forward u')) ∧
    (∀ x ∈ values, ∀ t bound,
      (∀ hash, Action.getFrom hash t (bound + 1) x w h = Action.getFrom hash t 1 x w h) ∧
      (∀ hash s, Action.setFrom hash t s (bound + 1) x w h = Action.setFrom hash t s 1 x w h) ∧
      Action.toViewFrom t (bound + 1) x w h = Action.toViewFrom t 1 x w h) ∧
    ∀ x ∈ values, ∀ t,
      (∀ hash, (Action.get x hash t w h).1 ≠ .error (.error .endlessViews)) ∧
      (∀ hash s, WellTyped r held values h.memory t s →
        (Action.set x hash t s w h).1 ≠ .error (.error .endlessViews)) ∧
      (Action.toView t x w h).1 ≠ .error (.error .endlessViews) := by
  subst hw
  have hs := hr.sound hb
  refine ⟨?_, ?_, ?_, ?_, ?_, ?_⟩
  · intro x hx hk
    obtain ⟨l, -, hat⟩ := hs.arranged.views x hx hk
    by_cases hzero : View.wrapped h.memory x = 0
    · exact Or.inl hzero
    · obtain ⟨hu, hroot, -⟩ := hat.shown hzero
      exact Or.inr ⟨hu, hroot⟩
  · intro x hx l hl hzero i hi
    obtain ⟨l', hl', hat⟩ := hs.arranged.views x hx (Registry.kind?_of_viewLayout hl)
    obtain rfl : l = l' := Except.ok.inj (hl.symm.trans hl')
    have hp : l.fields.items[i]? = some l.fields.items[i] := List.getElem?_eq_getElem hi
    exact ⟨_, hp, (hat.standalone hzero).2.2 i _ hp⟩
  · intro x hx hk hash e herror
    obtain ⟨l, hl, -⟩ := hs.arranged.views x hx hk
    rw [← Access.locate_view hl] at herror
    exact Access.fieldNotFound_of_error hs.arranged hx herror
  · intro x hx hash u hforward
    obtain ⟨hu, hroot⟩ := Access.root_of_forward hs.arranged hx hforward
    exact ⟨hu, Access.not_forward_of_root hs.arranged hu hroot⟩
  · intro x hx t bound
    refine ⟨?_, ?_, ?_⟩
    · exact fun hash => Action.getFrom_bound hs.arranged hx bound
    · exact fun hash s => Action.setFrom_bound hs.arranged hx bound
    · exact Action.toViewFrom_bound hs.arranged hx bound
  · intro x hx t
    refine ⟨?_, ?_, ?_⟩
    · exact fun hash => (Action.get_terminates hb hs hx).ne
    · exact fun hash s hslot => (Action.set_terminates hs hx hslot).ne
    · exact (Action.toView_terminates hs.toOrdered hx).ne

/-! A heap with a virtual value that stands alone, a view of it, and a view that was made of this view. -/

/-- Virtual types with a field of one name, but of different types. -/
def Registry.layeredTypes : Registry :=
  ⟨(Descriptor.builtins ++
    ([.virtual [⟨"any", .dynamic⟩], .virtual [⟨"any", .i32⟩], .virtual [⟨"any", .f64⟩]] :
      List Descriptor)).toArray⟩

theorem Registry.layeredTypes_built : Registry.layeredTypes.Built :=
  .of_adds (Registry.layeredTypes.types.toList.drop Descriptor.builtins.length) (by decide +kernel)
    (by decide +kernel)

def layeredObject : Action Addr := do
  let a ← Action.newStandalone (.ofIndex 12)
  let b ← Action.toView (.ofIndex 13) a
  Action.toView (.ofIndex 14) b

def layeredHeap : Heap := (layeredObject (.ofTypes .layeredTypes) {}).2

theorem layeredHeap_reachable : ∃ values, Reachable .layeredTypes (fun _ _ => False) layeredHeap values ∧
    0x10010 ∈ values ∧ 0x100A0 ∈ values := by
  let w : World := .ofTypes .layeredTypes
  let h₀ := (Action.newStandalone (.ofIndex 12) w {}).2
  let h₁ := (Action.toView (.ofIndex 13) 0x10010 w h₀).2
  let h₂ := (Action.toView (.ofIndex 14) 0x10060 w h₁).2
  have hnew : Action.newStandalone (.ofIndex 12) w {} = (.ok 0x10010, h₀) :=
    Prod.ext (by decide +kernel) rfl
  have hfirst : Action.toView (.ofIndex 13) 0x10010 w h₀ = (.ok 0x10060, h₁) :=
    Prod.ext (by decide +kernel) rfl
  have hsecond : Action.toView (.ofIndex 14) 0x10060 w h₁ = (.ok 0x100A0, h₂) :=
    Prod.ext (by decide +kernel) rfl
  have hrun : layeredHeap = h₂ := by
    unfold layeredHeap layeredObject
    rw [Action.bind_ok hnew, Action.bind_ok hfirst]
  have hb : w.registry.Built := Registry.layeredTypes_built
  have hstart : Reachable .layeredTypes (fun _ _ => False) {} ∅ := .start none
  obtain ⟨values₀, -, hr₀, ha, -⟩ := hstart.after_keeps rfl (.newStandalone (.ofIndex 12))
    (Action.newStandalone_keeps (hstart.sound hb)) hnew
  obtain ⟨values₁, hsub₁, hr₁, hv, -⟩ := hr₀.after_keeps rfl (.toView (.ofIndex 13) ha)
    (Action.toView_keeps (hr₀.sound hb) ha) hfirst
  obtain ⟨values₂, hsub₂, hr₂, hx, -⟩ := hr₁.after_keeps rfl (.toView (.ofIndex 14) hv)
    (Action.toView_keeps (hr₁.sound hb) hv) hsecond
  rw [hrun]
  exact ⟨values₂, hr₂, hsub₂ (hsub₁ ha), hx⟩

/-- The last view shows the value that stands alone, and not the view that it was made of. It passes the name
on, and the other value does not. -/
theorem layeredHeap_forwards :
    View.wrapped layeredHeap.memory 0x100A0 = 0x10010 ∧
    IsRoot .layeredTypes layeredHeap.memory 0x10010 ∧
    View.path layeredHeap.memory 0x10010 0 = .direct 0 ∧
    Access.locate (.ofTypes .layeredTypes) layeredHeap.memory 0x100A0 (Name.hash "any") =
      .ok (.forward 0x10010) ∧
    (∀ u, Access.locate (.ofTypes .layeredTypes) layeredHeap.memory 0x10010 (Name.hash "any") ≠
      .ok (.forward u)) ∧
    Action.toViewFrom (.ofIndex 13) 1000 0x100A0 (.ofTypes .layeredTypes) layeredHeap =
      Action.toViewFrom (.ofIndex 13) 1 0x100A0 (.ofTypes .layeredTypes) layeredHeap ∧
    (Action.get 0x100A0 (Name.hash "any") .f64 (.ofTypes .layeredTypes) layeredHeap).1 ≠
      .error (.error .endlessViews) := by
  obtain ⟨values, hr, ha, hx⟩ := layeredHeap_reachable
  obtain ⟨hshown, halone, -, honce, hbound, hends⟩ :=
    hr.forwards_once (w := .ofTypes .layeredTypes) Registry.layeredTypes_built rfl
  have hwrapped : View.wrapped layeredHeap.memory 0x100A0 = 0x10010 := by decide +kernel
  have hforward : Access.locate (.ofTypes .layeredTypes) layeredHeap.memory 0x100A0 (Name.hash "any") =
      .ok (.forward 0x10010) := by
    decide +kernel
  refine ⟨hwrapped, ?_, ?_, hforward, (honce _ hx _ _ hforward).2, ((hbound _ hx _ 999).2.2),
    (hends _ hx _).1 _⟩
  · have hroot := (hshown _ hx (by decide +kernel)).resolve_left (by rw [hwrapped]; decide)
    exact hwrapped ▸ hroot.2
  · have hlayout : (Registry.layeredTypes.viewLayout (layeredHeap.memory.typeOf 0x10010)).map
        (fun l => (l.fields.get? 0, l.fieldCount)) = .ok (some ⟨⟨"any", .dynamic⟩, 0⟩, 1) := by
      decide +kernel
    obtain ⟨l, hl, hfields⟩ := Outcome.map_eq_ok.1 hlayout
    obtain ⟨hfield, hcount⟩ := Prod.mk.inj hfields
    obtain ⟨p, hp, hpath⟩ := halone _ ha l hl (by decide +kernel) 0 (by omega)
    obtain rfl := Option.some.inj (hfield.symm.trans hp)
    exact hpath

end ObjectModel
