import ObjectModel.Proofs.Value.Conversions
import ObjectModel.Proofs.Value.Forwarding

/-!
What is left of an operation that fails. All that can be refused is refused before a block is taken and
before a byte is written, so a failed operation leaves the heap as it was. Only a read by name may have
taken a block already, for the closure over a method; no byte of the blocks that there were has changed then.
-/

set_option autoImplicit false
set_option relaxedAutoImplicit false

namespace ObjectModel

variable {r : Registry} {held : Addr → TypeId → Prop} {values : Set Addr} {h h' : Heap} {v : Addr}
  {w : World} {hash : NameHash} {s : Slot} {source target t : TypeId} {k : Kind}

namespace Action

/-- An operation that is never refused. -/
def Sure {α : Type} (x : Action α) : Prop := ∀ w h e, (x w h).1 ≠ .error (.error e)

/-- An operation that is refused, if it is, before it changes anything. -/
def Whole {α : Type} (x : Action α) : Prop := ∀ w h e h', x w h = (.error (.error e), h') → h' = h

section Rules

variable {α β : Type} {x : Action α} {f : α → Action β}

namespace Sure

theorem bind (hx : x.Sure) (hf : ∀ a, (f a).Sure) : (x >>= f).Sure := by
  intro w h e
  cases hrun : x w h with
  | mk result h' =>
    cases result with
    | ok a =>
      rw [bind_ok hrun]
      exact hf a w h' e
    | error fault =>
      have hresult := hx w h e
      rw [hrun] at hresult
      rw [bind_error hrun]
      exact fun heq => hresult (congrArg Except.error (Except.error.inj heq))

theorem pure (a : α) : (Pure.pure a : Action α).Sure := nofun

theorem change (f : Memory → Memory) : (Action.change f).Sure := nofun

theorem whole (hx : x.Sure) : x.Whole := by
  intro w h e h' hrun
  exact absurd (congrArg Prod.fst hrun) (hx w h e)

end Sure

namespace Whole

theorem bind_sure (hx : x.Whole) (hf : ∀ a, (f a).Sure) : (x >>= f).Whole := by
  intro w h e h' hrun
  cases hfirst : x w h with
  | mk result h₁ =>
    cases result with
    | ok a =>
      rw [bind_ok hfirst] at hrun
      exact absurd (congrArg Prod.fst hrun) (hf a w h₁ e)
    | error fault =>
      rw [bind_error hfirst] at hrun
      obtain ⟨heq, rfl⟩ := Prod.mk.inj hrun
      obtain rfl := Except.error.inj heq
      exact hx w h e h₁ hfirst

theorem ask_bind {q : World → Memory → Reading α} (hf : ∀ a, (f a).Whole) : (Action.ask q >>= f).Whole := by
  intro w h e h' hrun
  cases hq : q w h.memory with
  | ok a =>
    rw [bind_ok (ask_ok hq)] at hrun
    exact hf a w h e h' hrun
  | error e' =>
    rw [bind_error (ask_error hq)] at hrun
    exact (Prod.mk.inj hrun).2.symm

theorem look_bind {view : Memory → α} (hf : ∀ a, (f a).Whole) : (Action.look view >>= f).Whole :=
  fun w h e h' hrun => hf (view h.memory) w h e h' hrun

theorem world_bind {g : World → Action β} (hg : ∀ w, (g w).Whole) : (Action.world >>= g).Whole :=
  fun w h e h' hrun => hg w w h e h' hrun

theorem chainBound_bind {g : Nat → Action β} (hg : ∀ n, (g n).Whole) : (Action.chainBound >>= g).Whole :=
  fun w h e h' hrun => hg (h.blocks.size + 1) w h e h' hrun

theorem pure (a : α) : (Pure.pure a : Action α).Whole := (Sure.pure a).whole

theorem fail (e : ValueError) : (Action.fail e : Action α).Whole :=
  fun _ _ _ _ hrun => (Prod.mk.inj hrun).2.symm

theorem guard {ok : Bool} (a : α) (e : ValueError) :
    (if ok = true then Pure.pure a else Action.fail e : Action α).Whole := by
  cases ok with
  | false => exact fail e
  | true => exact pure a

theorem ends (hx : x.Whole) (w : World) (h : Heap) : x.Ends w h (fun _ _ => True) (· = h) := by
  unfold Ends
  split
  · trivial
  · exact hx w h _ _ ‹_›
  · trivial

end Whole

end Rules

/-! Values that are made. -/

theorem allocate_sure (size : Nat) (kind : BlockKind) : (allocate size kind).Sure := by
  intro w h e
  obtain ⟨e', hfatal⟩ | ⟨v, h', -, -, htaken⟩ := allocate_cases size kind w h
  · simp [hfatal]
  · simp [htaken]

theorem newValue_sure (size : Nat) (kind : BlockKind) (t : TypeId) : (newValue size kind t).Sure :=
  .bind (allocate_sure size kind) fun v => .bind (.change _) fun _ => .pure v

theorem newBox_whole (t : TypeId) : (newBox t).Whole :=
  .ask_bind fun _ => (newValue_sure _ _ t).whole

theorem newInstance_whole (t : TypeId) : (newInstance t).Whole :=
  .ask_bind fun _ => (newValue_sure _ _ t).whole

theorem newArray_whole (element : TypeId) (length : Nat) : (newArray element length).Whole := by
  refine .ask_bind fun k => ?_
  split
  · exact .fail _
  · exact (Sure.bind (newValue_sure _ _ _) fun v => .bind (.change _) fun _ => .pure v).whole

theorem newVariant_whole (t : TypeId) (index : Nat) : (newVariant t index).Whole :=
  .ask_bind fun _ => (Sure.bind (newValue_sure _ _ t) fun v => .bind (.change _) fun _ => .pure v).whole

theorem makeVariant_whole (t : TypeId) (index : Nat) (args : List Slot) :
    (makeVariant t index args).Whole := by
  refine .ask_bind fun c => ?_
  split
  · exact .fail _
  · exact .ask_bind fun _ => .bind_sure (newVariant_whole t index) fun v => .bind (.change _) fun _ => .pure v

theorem newClosure_whole (function : TypeId) (code : UInt64) : (newClosure function code).Whole :=
  .ask_bind fun _ => (Sure.bind (newValue_sure _ _ _) fun v => .bind (.change _) fun _ => .pure v).whole

theorem bindClosure_whole (function : TypeId) (code : UInt64) (receiver : Addr) :
    (bindClosure function code receiver).Whole :=
  .ask_bind fun _ => (Sure.bind (newValue_sure _ _ _) fun v => .bind (.change _) fun _ => .pure v).whole

theorem newStandalone_whole (t : TypeId) : (newStandalone t).Whole :=
  .ask_bind fun _ => (Sure.bind (newValue_sure _ _ t) fun v => .bind (.change _) fun _ => .pure v).whole

theorem toDynamic_whole (s : Slot) (t : TypeId) : (toDynamic s t).Whole := by
  have hfill : (toDynamic.fill s t).Whole :=
    .bind_sure (newBox_whole t) fun v => .bind (.change _) fun _ => .pure v
  refine .ask_bind fun k => ?_
  split
  · cases s with
    | void => exact .pure _
    | pointer a =>
      dsimp only
      split
      · exact .pure _
      · exact hfill
    | _ => exact hfill
  · exact .fail _

/-! Views. -/

theorem newView_whole (t : TypeId) (u : Addr) : (newView t u).Whole :=
  .ask_bind fun _ => .ask_bind fun _ =>
    (Sure.bind (newValue_sure _ _ t) fun v => .bind (.change _) fun _ => .pure v).whole

theorem chainedView_whole (t : TypeId) (u : Addr) (head : Nat) : (chainedView t u head).Whole := by
  refine .chainBound_bind fun bound => .look_bind fun first => .ask_bind fun found => ?_
  cases found with
  | some x => exact .pure x
  | none => exact .bind_sure (newView_whole t u) fun v => .bind (.change _) fun _ => .pure v

private theorem toViewFrom_whole_of_inner {bound : Nat}
    (hinner : ∀ bound', bound = bound' + 1 → ∀ u, (toViewFrom t bound' u).Whole) (v : Addr) :
    (toViewFrom t bound v).Whole := by
  rw [toViewFrom.eq_def]
  refine .look_bind fun source => .ask_bind fun k => ?_
  cases k with
  | object => exact newView_whole t v
  | dynobj => exact chainedView_whole t v _
  | virtual =>
    refine .world_bind fun w => ?_
    split
    · exact .pure v
    · refine .look_bind fun inner => ?_
      split
      · exact chainedView_whole t v _
      · cases bound with
        | zero => exact .fail _
        | succ bound => exact hinner bound rfl inner
  | _ => exact .fail _

theorem toViewFrom_whole (t : TypeId) (bound : Nat) (v : Addr) : (toViewFrom t bound v).Whole := by
  induction bound using Nat.strongRecOn generalizing v with
  | ind bound ih => exact toViewFrom_whole_of_inner (fun below hbelow u => ih below (by omega) u) v

theorem toView_whole (t : TypeId) (v : Addr) : (toView t v).Whole :=
  .chainBound_bind fun bound => toViewFrom_whole t bound v

/-! Conversions. -/

theorem boxAs_whole (s : Slot) (source target : TypeId) : (boxAs s source target).Whole := by
  refine .ask_bind fun d => ?_
  cases d with
  | null inner =>
    refine .world_bind fun w => ?_
    dsimp only
    split
    · exact toDynamic_whole _ inner
    · exact .fail _
  | _ => exact .fail _

theorem castActual_whole (a : Addr) (actual target : TypeId) (k : Kind) :
    (castActual a actual target k).Whole := by
  refine .world_bind fun w => .ask_bind fun l => ?_
  cases k with
  | virtual =>
    dsimp only
    split
    · exact toView_whole target a
    · exact .fail _
  | null =>
    dsimp only
    split
    · exact .ask_bind fun content => boxAs_whole _ actual target
    · exact .guard a _
  | _ => exact .guard a _

theorem castPointer_whole (s : Slot) (source target : TypeId) : (castPointer s source target).Whole := by
  refine .ask_bind fun k => .ask_bind fun l => ?_
  cases s with
  | void => exact .pure _
  | pointer a =>
    refine .world_bind fun w => ?_
    dsimp only
    split
    · exact .pure a
    · split
      · split
        · exact .pure a
        · exact toDynamic_whole _ source
      · exact .ask_bind fun revealed => castActual_whole _ _ target l
  | _ =>
    cases l with
    | dynamic => exact toDynamic_whole _ source
    | null => exact boxAs_whole _ source target
    | _ => exact .fail _

theorem convert_whole (s : Slot) (source target : TypeId) : (convert s source target).Whole := by
  refine .ask_bind fun k => ?_
  split
  · exact .pure _
  · split
    · refine .ask_bind fun n => ?_
      split
      · exact .pure _
      · exact .fail _
    · exact .bind_sure (castPointer_whole s source target) fun a => .pure _

theorem cast_whole (s : Slot) (source target : TypeId) : (cast s source target).Whole := by
  refine .ask_bind fun k => ?_
  split
  · exact convert_whole s source target
  · exact .fail _

/-! Writes. -/

private theorem setFrom_unchanged_of_inner {bound : Nat} (hs : Ordered w.registry ∅ h values)
    (hv : v ∈ values) (ht : w.registry.kind? t = some k) (hfits : s.fits k = true)
    (hinner : ∀ bound', bound = bound' + 1 → ∀ u ∈ values,
      (setFrom hash t s bound' u).Ends w h (fun _ _ => True) (· = h)) :
    (setFrom hash t s bound v).Ends w h (fun _ _ => True) (· = h) := by
  rw [setFrom.eq_def]
  refine Ends.ask_bind rfl fun l hl => ?_
  by_cases hopen : l = .dynobj
  · rw [if_pos hopen]
    subst hopen
    exact (setOpenField_wrote hs hv (World.kind_eq_ok.1 hl) hash ht hfits).imp (fun _ _ _ => trivial)
      fun _ => False.elim
  · rw [if_neg hopen]
    refine Ends.ask_bind rfl fun target htarget => ?_
    cases target with
    | stored a type => exact ((convert_whole s t type).bind_sure fun s => .change _).ends w h
    | method function type receiver => exact Ends.fail rfl
    | forward u =>
      cases bound with
      | zero => exact Ends.fail rfl
      | succ bound => exact hinner bound rfl u (Access.root_of_forward hs.arranged hv htarget).1

private theorem setFrom_unchanged {bound : Nat} (hs : Ordered w.registry ∅ h values) (hv : v ∈ values)
    (ht : w.registry.kind? t = some k) (hfits : s.fits k = true) :
    (setFrom hash t s bound v).Ends w h (fun _ _ => True) (· = h) := by
  induction bound using Nat.strongRecOn generalizing v with
  | ind bound ih =>
    exact setFrom_unchanged_of_inner hs hv ht hfits fun below hbelow u hu => ih below (by omega) hu

theorem set_unchanged (hs : Ordered w.registry ∅ h values) (hv : v ∈ values) (hash : NameHash) (t : TypeId)
    (s : Slot) : (set v hash t s).Ends w h (fun _ _ => True) (· = h) := by
  unfold set
  refine Ends.ask_bind rfl fun k hk => ?_
  by_cases hfits : s.fits k = true
  · rw [if_pos hfits]
    exact Ends.chainBound_bind (setFrom_unchanged hs hv (World.kind_eq_ok.1 hk) hfits)
  · rw [if_neg hfits]
    exact Ends.fail rfl

theorem setInt32_unchanged (hs : Ordered w.registry ∅ h values) (hv : v ∈ values) (hash : NameHash) (t : TypeId)
    (n : Int32) : (setInt32 v hash t n).Ends w h (fun _ _ => True) (· = h) := by
  unfold setInt32
  refine Ends.ask_bind rfl fun k _ => ?_
  split
  · exact set_unchanged hs hv hash t _
  · exact Ends.fail rfl

/-! Reads. -/

theorem bindMethod_grows {function : Nat} {type : TypeId} {receiver : Addr} (hwf : h.WellFormed) :
    (bindMethod function type receiver).Ends w h (fun _ => GrownBut ∅ h) (GrownBut ∅ h) := by
  have hrefl := GrownBut.refl ∅ hwf
  unfold bindMethod
  refine Ends.world_bind ?_
  cases w.functions.code? function with
  | none => exact Ends.fail hrefl
  | some code =>
    refine (bindClosure_grows hwf type code receiver).imp (fun _ _ => id) ?_
    rintro h' rfl
    exact hrefl

private theorem getFrom_grows_of_inner {bound : Nat} (hwf : h.WellFormed)
    (hinner : ∀ bound', bound = bound' + 1 → ∀ u,
      (getFrom hash t bound' u).Ends w h (fun _ _ => True) (GrownBut ∅ h)) :
    (getFrom hash t bound v).Ends w h (fun _ _ => True) (GrownBut ∅ h) := by
  have hrefl := GrownBut.refl ∅ hwf
  rw [getFrom.eq_def]
  refine Ends.ask_bind hrefl fun target _ => ?_
  cases target with
  | stored a type =>
    refine Ends.ask_bind hrefl fun _ _ => Ends.ask_bind hrefl fun k _ => Ends.look_bind ?_
    refine ((convert_whole _ type t).ends w h).imp (fun _ _ => id) ?_
    rintro h' rfl
    exact hrefl
  | method function type receiver =>
    refine Ends.ask_bind hrefl fun k _ => ?_
    split
    · refine (bindMethod_grows hwf).bind (fun _ => id) fun c h' hg => Ends.look_bind ?_
      have hcast : (castPointer (.pointer c) (h'.memory.typeOf c) t >>= fun a =>
          Pure.pure (Slot.pointer a)).Whole :=
        (castPointer_whole _ _ t).bind_sure fun a => .pure _
      refine (hcast.ends w h').imp (fun _ _ => id) ?_
      rintro h'' rfl
      exact hg
    · exact Ends.fail hrefl
  | forward u =>
    cases bound with
    | zero => exact Ends.fail hrefl
    | succ bound => exact hinner bound rfl u

private theorem getFrom_grows {bound : Nat} (hwf : h.WellFormed) :
    (getFrom hash t bound v).Ends w h (fun _ _ => True) (GrownBut ∅ h) := by
  induction bound using Nat.strongRecOn generalizing v with
  | ind bound ih => exact getFrom_grows_of_inner hwf fun below hbelow u => ih below (by omega)

/-- An operation that makes a value, converts a slot or writes a member, with any arguments; only what is
written to has to be a value. -/
inductive Refusable (values : Set Addr) : {α : Type} → Action α → Prop
  | newBox (t : TypeId) : Refusable values (newBox t)
  | newInstance (t : TypeId) : Refusable values (newInstance t)
  | newArray (element : TypeId) (length : Nat) : Refusable values (newArray element length)
  | newVariant (t : TypeId) (index : Nat) : Refusable values (newVariant t index)
  | makeVariant (t : TypeId) (index : Nat) (args : List Slot) : Refusable values (makeVariant t index args)
  | toDynamic (s : Slot) (t : TypeId) : Refusable values (toDynamic s t)
  | newClosure (function : TypeId) (code : UInt64) : Refusable values (newClosure function code)
  | bindClosure (function : TypeId) (code : UInt64) (receiver : Addr) :
    Refusable values (bindClosure function code receiver)
  | newStandalone (t : TypeId) : Refusable values (newStandalone t)
  | toView (t : TypeId) (v : Addr) : Refusable values (toView t v)
  | cast (s : Slot) (source target : TypeId) : Refusable values (cast s source target)
  | set {v : Addr} (hash : NameHash) (t : TypeId) (s : Slot) : v ∈ values → Refusable values (set v hash t s)
  | setInt32 {v : Addr} (hash : NameHash) (t : TypeId) (n : Int32) : v ∈ values →
    Refusable values (setInt32 v hash t n)
  | setF32 {v : Addr} (hash : NameHash) (bits : UInt32) : v ∈ values → Refusable values (setF32 v hash bits)
  | setF64 {v : Addr} (hash : NameHash) (bits : UInt64) : v ∈ values → Refusable values (setF64 v hash bits)
  | setPointer {v : Addr} (hash : NameHash) (t : TypeId) (a : Addr) : v ∈ values →
    Refusable values (setPointer v hash t a)

end Action

/-- A failed operation leaves the heap as it was: no block is taken, nothing is counted, and no byte has
changed. A failed read may have taken a block, but all bytes of those that there were are the same. -/
theorem Reachable.failure_unchanged (hb : r.Built) (hr : Reachable r held h values) (hw : w.registry = r) :
    (∀ {α : Type} {x : Action α}, x.Refusable values → ∀ e h', x w h = (.error (.error e), h') → h' = h) ∧
    ∀ v hash t e h', Action.get v hash t w h = (.error (.error e), h') →
      h.Extends h' ∧ ∀ a, h.Contains a → h'.memory.byte a = h.memory.byte a := by
  subst hw
  have hs := hr.sound hb
  constructor
  · intro α x hx e h' hrun
    cases hx with
    | newBox t => exact Action.newBox_whole t w h e h' hrun
    | newInstance t => exact Action.newInstance_whole t w h e h' hrun
    | newArray element length => exact Action.newArray_whole element length w h e h' hrun
    | newVariant t index => exact Action.newVariant_whole t index w h e h' hrun
    | makeVariant t index args => exact Action.makeVariant_whole t index args w h e h' hrun
    | toDynamic s t => exact Action.toDynamic_whole s t w h e h' hrun
    | newClosure function code => exact Action.newClosure_whole function code w h e h' hrun
    | bindClosure function code receiver =>
      exact Action.bindClosure_whole function code receiver w h e h' hrun
    | newStandalone t => exact Action.newStandalone_whole t w h e h' hrun
    | toView t v => exact Action.toView_whole t v w h e h' hrun
    | cast s source target => exact Action.cast_whole s source target w h e h' hrun
    | set hash t s hv => exact (Action.set_unchanged hs.toOrdered hv hash t s).of_error hrun
    | setInt32 hash t n hv => exact (Action.setInt32_unchanged hs.toOrdered hv hash t n).of_error hrun
    | setF32 hash bits hv => exact (Action.set_unchanged hs.toOrdered hv hash _ _).of_error hrun
    | setF64 hash bits hv => exact (Action.set_unchanged hs.toOrdered hv hash _ _).of_error hrun
    | setPointer hash t a hv => exact (Action.set_unchanged hs.toOrdered hv hash t _).of_error hrun
  · intro v hash t e h' hrun
    have hgrown := (Action.Ends.chainBound_bind (Action.getFrom_grows hs.arranged.blocks)).of_error hrun
    exact ⟨hgrown.blocks, fun a ha => hgrown.same a (ha.lt_next hs.arranged.blocks) (Set.notMem_empty a)⟩

/-- An enum value is refused for its last argument, and a write and a read through a view for a conversion. -/
theorem viewedHeap_unchanged :
    (∃ h', Action.makeVariant (.ofIndex 15) 0 [.i8 1, .bool true] (.ofTypes .paddedTypes) viewedHeap =
      (.error (.error (.argumentMismatch 1 .f64 (.slot (.bool true)))), h') ∧ h' = viewedHeap) ∧
    (∃ h', Action.set 0x100E0 (Name.hash "flag") (.ofIndex 14) (.pointer 0x100E0) (.ofTypes .paddedTypes)
      viewedHeap = (.error (.error (.invalidCast (.ofIndex 14) .bool)), h') ∧ h' = viewedHeap) ∧
    ∃ h', Action.get 0x100E0 (Name.hash "any") (.ofIndex 12) (.ofTypes .paddedTypes) viewedHeap =
      (.error (.error (.invalidCast .i32 (.ofIndex 12))), h') ∧ viewedHeap.Extends h' ∧
        ∀ a, viewedHeap.Contains a → h'.memory.byte a = viewedHeap.memory.byte a := by
  let w : World := .ofTypes .paddedTypes
  obtain ⟨values, hr, -, hx⟩ := viewedHeap_reachable
  obtain ⟨hrefused, hread⟩ := hr.failure_unchanged (w := w) Registry.paddedTypes_built rfl
  have hmake : Action.makeVariant (.ofIndex 15) 0 [.i8 1, .bool true] w viewedHeap =
      (.error (.error (.argumentMismatch 1 .f64 (.slot (.bool true)))), _) :=
    Prod.ext (by decide +kernel) rfl
  have hset : Action.set 0x100E0 (Name.hash "flag") (.ofIndex 14) (.pointer 0x100E0) w viewedHeap =
      (.error (.error (.invalidCast (.ofIndex 14) .bool)), _) :=
    Prod.ext (by decide +kernel) rfl
  have hget : Action.get 0x100E0 (Name.hash "any") (.ofIndex 12) w viewedHeap =
      (.error (.error (.invalidCast .i32 (.ofIndex 12))), _) :=
    Prod.ext (by decide +kernel) rfl
  exact ⟨⟨_, hmake, hrefused (.makeVariant (.ofIndex 15) 0 _) _ _ hmake⟩,
    ⟨_, hset, hrefused (.set _ _ _ hx) _ _ hset⟩, _, hget, hread _ _ _ _ _ hget⟩

end ObjectModel
