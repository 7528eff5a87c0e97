import ObjectModel.Proofs.Layout.Agreement
import ObjectModel.Proofs.Value.Access
import ObjectModel.Proofs.Value.Compound

/-!
The heaps that a program can have: those that come from an empty one by the operations of the runtime,
given values where they expect values and slots of the types that they name. All of them are sound.
-/

set_option autoImplicit false
set_option relaxedAutoImplicit false

namespace ObjectModel

variable {r : Registry} {held : Addr → TypeId → Prop} {values : Set Addr} {h h' : Heap} {m : Memory}
  {w : World}

/-- Blocks that were taken and are values, as they are not the table or the storage of an open object. -/
def Heap.newValues (r : Registry) (h : Heap) (values : Set Addr) (h' : Heap) : Set Addr :=
  {a | a ∈ h.fresh h' ∧
    ∀ u ∈ values, r.kindAt h'.memory u = some .dynobj → ¬IsPart h'.memory u a}

namespace Action

/-- An operation on values, with such arguments as it may be given. Empty boxes may only be asked for
numbers and for raw addresses. -/
inductive Permitted (r : Registry) (held : Addr → TypeId → Prop) (values : Set Addr) (m : Memory) :
    {α : Type} → Action α → Prop
  | newBox {t : TypeId} {k : Kind} : r.kind? t = some k → k.isBoxed = true →
    Permitted r held values m (newBox t)
  | newInstance (t : TypeId) : Permitted r held values m (newInstance t)
  | newArray (element : TypeId) (length : Nat) : Permitted r held values m (newArray element length)
  | setElement {v : Addr} {t : TypeId} {length i : Nat} {k : Kind} {s : Slot} : v ∈ values →
    ArrayValue.parts (.ofTypes r) m v = .ok (t, length) → i < length → r.kind? t = some k →
      s.fits k = true → Permitted r held values m (setElement v i s)
  | newOpenObject : Permitted r held values m newOpenObject
  | newStandalone (t : TypeId) : Permitted r held values m (newStandalone t)
  | newVariant (t : TypeId) (index : Nat) : Permitted r held values m (newVariant t index)
  | makeVariant (t : TypeId) (index : Nat) (args : List Slot) :
    Permitted r held values m (makeVariant t index args)
  | newClosure (function : TypeId) (code : UInt64) : Permitted r held values m (newClosure function code)
  | bindClosure (function : TypeId) (code : UInt64) {receiver : Addr} : receiver ∈ values →
    Permitted r held values m (bindClosure function code receiver)
  | toDynamic {s : Slot} {t : TypeId} : WellTyped r held values m t s →
    Permitted r held values m (toDynamic s t)
  | boxNumber {s : Slot} {t : TypeId} {k : Kind} : r.kind? t = some k → s.fits k = true →
    k.isNumeric = true → Permitted r held values m (boxNumber s t)
  | toView (t : TypeId) {v : Addr} : v ∈ values → Permitted r held values m (toView t v)
  | cast {s : Slot} {source : TypeId} (target : TypeId) : WellTyped r held values m source s →
    Permitted r held values m (cast s source target)
  | castPointer {s : Slot} {source : TypeId} (target : TypeId) : WellTyped r held values m source s →
    Permitted r held values m (castPointer s source target)
  | get {v : Addr} (hash : NameHash) (t : TypeId) : v ∈ values → Permitted r held values m (get v hash t)
  | getInt32 {v : Addr} (hash : NameHash) (t : TypeId) : v ∈ values →
    Permitted r held values m (getInt32 v hash t)
  | getF32 {v : Addr} (hash : NameHash) : v ∈ values → Permitted r held values m (getF32 v hash)
  | getF64 {v : Addr} (hash : NameHash) : v ∈ values → Permitted r held values m (getF64 v hash)
  | getPointer {v : Addr} (hash : NameHash) (t : TypeId) : v ∈ values →
    Permitted r held values m (getPointer v hash t)
  | set {v : Addr} (hash : NameHash) {t : TypeId} {s : Slot} : v ∈ values →
    WellTyped r held values m t s → Permitted r held values m (set v hash t s)
  | setInt32 {v : Addr} (hash : NameHash) (t : TypeId) (n : Int32) : v ∈ values →
    Permitted r held values m (setInt32 v hash t n)
  | setF32 {v : Addr} (hash : NameHash) (bits : UInt32) : v ∈ values →
    Permitted r held values m (setF32 v hash bits)
  | setF64 {v : Addr} (hash : NameHash) (bits : UInt64) : v ∈ values →
    Permitted r held values m (setF64 v hash bits)
  | setPointer {v : Addr} (hash : NameHash) {t : TypeId} {a : Addr} : v ∈ values →
    WellTyped r held values m t (.pointer a) → Permitted r held values m (setPointer v hash t a)

private theorem getInt32_keeps (hb : w.registry.Built) (hs : Sound w.registry held ∅ h values) {v : Addr}
    (hv : v ∈ values) (hash : NameHash) (t : TypeId) :
    Keeps held (getInt32 v hash t) w h values fun _ _ _ => True := by
  unfold getInt32
  refine (get_keeps hb hs hv hash t).bind fun s h' values' hkept _ => ?_
  split <;> first | exact Keeps.pure hkept.sound trivial | exact Keeps.fail hkept.sound

private theorem getF32_keeps (hb : w.registry.Built) (hs : Sound w.registry held ∅ h values) {v : Addr}
    (hv : v ∈ values) (hash : NameHash) : Keeps held (getF32 v hash) w h values fun _ _ _ => True := by
  unfold getF32
  refine (get_keeps hb hs hv hash .f32).bind fun s h' values' hkept _ => ?_
  split <;> first | exact Keeps.pure hkept.sound trivial | exact Keeps.fail hkept.sound

private theorem getF64_keeps (hb : w.registry.Built) (hs : Sound w.registry held ∅ h values) {v : Addr}
    (hv : v ∈ values) (hash : NameHash) : Keeps held (getF64 v hash) w h values fun _ _ _ => True := by
  unfold getF64
  refine (get_keeps hb hs hv hash .f64).bind fun s h' values' hkept _ => ?_
  split <;> first | exact Keeps.pure hkept.sound trivial | exact Keeps.fail hkept.sound

private theorem getPointer_keeps (hb : w.registry.Built) (hs : Sound w.registry held ∅ h values)
    {v : Addr} (hv : v ∈ values) (hash : NameHash) (t : TypeId) :
    Keeps held (getPointer v hash t) w h values fun _ _ _ => True := by
  unfold getPointer
  refine Keeps.ask_bind hs fun k _ => ?_
  by_cases hpointer : k.isPointer = true
  · rw [if_pos hpointer]
    refine (get_keeps hb hs hv hash t).bind fun s h' values' hkept _ => ?_
    split <;> first | exact Keeps.pure hkept.sound trivial | exact Keeps.fail hkept.sound
  · rw [if_neg hpointer]
    exact Keeps.fail hs

private theorem setNumber_ends (hs : Sound w.registry held ∅ h values) {v : Addr} (hv : v ∈ values)
    (hash : NameHash) {s : Slot} {t : TypeId} (hnumber : ∀ a, s ≠ .pointer a) :
    (set v hash t s).Ends w h
      (fun _ => Written w.registry held h values) (Written w.registry held h values) :=
  set_ends hs hv hash fun _ hk hfits => .of_not_pointer hk hfits hnumber

private theorem setInt32_ends (hs : Sound w.registry held ∅ h values) {v : Addr} (hv : v ∈ values)
    (hash : NameHash) (t : TypeId) (n : Int32) :
    (setInt32 v hash t n).Ends w h
      (fun _ => Written w.registry held h values) (Written w.registry held h values) := by
  have hfail : Written w.registry held h values h := Or.inl ⟨values, .refl hs⟩
  unfold setInt32
  refine Ends.ask_bind hfail fun k _ => ?_
  split
  · rename_i s hs'
    split_ifs at hs'
    exact setNumber_ends hs hv hash (Number.ne_pointer_of_toSlot? hs')
  · exact Ends.fail hfail

/-- An operation that is permitted leaves a sound heap, however it ends. -/
theorem Permitted.ends {α : Type} {x : Action α} (hx : x.Permitted w.registry held values h.memory)
    (hb : w.registry.Built) (hs : Sound w.registry held ∅ h values) :
    x.Ends w h (fun _ => Written w.registry held h values) (Written w.registry held h values) := by
  cases hx with
  | newBox hk hbox => exact (newBox_keeps hs hk hbox).written
  | newInstance t => exact (newInstance_keeps hs).written
  | newArray element length => exact (newArray_keeps hb hs element length).written
  | setElement hv hparts hi hk hfits => exact (setElement_keeps hs hv hparts hi hk hfits).written
  | newOpenObject => exact (newOpenObject_keeps hb hs).written
  | newStandalone t => exact (newStandalone_keeps hs).written
  | newVariant t index => exact (newVariant_keeps hs index).written
  | makeVariant t index args => exact (makeVariant_keeps hs index args).written
  | newClosure function code => exact (newClosure_keeps hs code).written
  | bindClosure function code => exact (bindClosure_keeps hb hs code _).written
  | toDynamic hslot =>
    obtain ⟨k, hk, -⟩ := id hslot
    exact (toDynamic_keeps hs hk hslot).written
  | boxNumber hk hfits hnumeric => exact (boxNumber_keeps hs hk hfits hnumeric).written
  | toView t hv => exact (toView_keeps hs hv).written
  | cast target hslot => exact (cast_keeps hs hslot).written
  | castPointer target hslot => exact (castPointer_keeps_heap hs hslot).written
  | get hash t hv => exact (get_keeps hb hs hv hash t).written
  | getInt32 hash t hv => exact (getInt32_keeps hb hs hv hash t).written
  | getF32 hash hv => exact (getF32_keeps hb hs hv hash).written
  | getF64 hash hv => exact (getF64_keeps hb hs hv hash).written
  | getPointer hash t hv => exact (getPointer_keeps hb hs hv hash t).written
  | set hash hv hslot => exact set_ends hs hv hash fun _ _ _ => hslot
  | setInt32 hash t n hv => exact setInt32_ends hs hv hash t n
  | setF32 hash bits hv => exact setNumber_ends hs hv hash (by simp)
  | setF64 hash bits hv => exact setNumber_ends hs hv hash (by simp)
  | setPointer hash hv hslot => exact set_ends hs hv hash fun _ _ _ => hslot

end Action

/-- How a heap comes right after a sound one: it is sound again, no blocks are given back, and slots stay of
their types. -/
structure Follows (r : Registry) (held : Addr → TypeId → Prop) (h : Heap) (values : Set Addr) (h' : Heap)
    (values' : Set Addr) : Prop where
  sound : Sound r held ∅ h' values'
  blocks : h.Extends h'
  goesOn : GoesOn r values h.memory values' h'.memory

namespace Action

theorem newBytes_ends (hs : Sound r held ∅ h values) (size : UInt64) :
    (newBytes size).Ends w h (fun _ h' => Follows r held h values h' values) (fun _ => False) := by
  unfold Ends newBytes allocateRaw
  cases hok : h.allocate size .noPointers with
  | error e => trivial
  | ok result =>
    obtain ⟨a, h'⟩ := result
    obtain ⟨hhanded, -⟩ := Heap.allocate_ok hs.arranged.blocks hok
    exact ⟨hs.grow hhanded.wellFormed hhanded.blocks hhanded.next hhanded.same, hhanded.blocks,
      goesOn_of_sameValue fun v hv => (hs.arranged.same_of_below hhanded.same hv).1⟩

theorem copyBytes_ends (hs : Sound r held ∅ h values) (bytes : List UInt8) :
    (copyBytes bytes).Ends w h (fun _ h' => Follows r held h values h' values) (fun _ => False) := by
  unfold copyBytes
  refine (allocate_ends hs.arranged.blocks _ _).bind (fun _ => id) ?_
  rintro a h' ⟨hg, -⟩
  refine Ends.change_bind (Ends.pure ?_)
  have hg' := hg.change le_rfl (Memory.changesOnly_setBytes h'.memory a.toNat bytes)
  exact ⟨hs.grow hg'.wellFormed hg'.blocks hg'.next hg'.same, hg'.blocks,
    goesOn_of_sameValue fun v hv => (hs.arranged.same_of_below hg'.same hv).1⟩

end Action

/-- A heap that a program can have, and the values in it: they are the blocks that operations on values
have taken. The world may change in between, but for its registry; after a fatal error there is no heap
any more. -/
inductive Reachable (r : Registry) (held : Addr → TypeId → Prop) : Heap → Set Addr → Prop
  | start (limit : Option UInt64) : Reachable r held { limit } ∅
  | step {α : Type} {x : Action α} {w : World} {h h' : Heap} {values : Set Addr} {result : Except Fault α} :
    Reachable r held h values → w.registry = r → x.Permitted r held values h.memory →
      x w h = (result, h') → (∀ e, result ≠ .error (.fatal e)) →
        Reachable r held h' (values ∪ h.newValues r values h')
  | newBytes {w : World} {h h' : Heap} {values : Set Addr} {size : UInt64} {a : Addr} :
    Reachable r held h values → Action.newBytes size w h = (.ok a, h') → Reachable r held h' values
  | copyBytes {w : World} {h h' : Heap} {values : Set Addr} {bytes : List UInt8} {a : Addr} :
    Reachable r held h values → Action.copyBytes bytes w h = (.ok a, h') → Reachable r held h' values

theorem sound_empty (r : Registry) (held : Addr → TypeId → Prop) (limit : Option UInt64) :
    Sound r held ∅ { limit } ∅ := by
  have hnone : ∀ a : Addr, a ∉ (∅ : Set Addr) := Set.notMem_empty
  have hblocks : ∀ b : Block, b ∉ ({ limit } : Heap).blocks.toList := fun _ => List.not_mem_nil
  have hnext : 0 < 0x10000 ∧ 0x10000 < UInt64.size := by decide
  refine ⟨⟨⟨⟨hnext.1, hnext.2, fun b hb => absurd hb (hblocks b), fun b hb => absurd hb (hblocks b),
      fun b hb => absurd hb (hblocks b)⟩,
    fun v hv => absurd hv (hnone v), fun v hv => absurd hv (hnone v), fun v hv => absurd hv (hnone v),
    fun v hv => absurd hv (hnone v), fun v hv => absurd hv (hnone v), fun v hv => absurd hv (hnone v),
    fun v hv => absurd hv (hnone v), fun v hv => absurd hv (hnone v), fun v hv => absurd hv (hnone v)⟩,
    fun v hv => absurd hv (hnone v)⟩, ?_⟩
  rintro b o t k (⟨hv, -, -⟩ | ⟨hv, -, -, -⟩ | ⟨hv, -, -⟩) -
  all_goals exact absurd hv (hnone _)

theorem Kept.values_eq {values' : Set Addr} (hk : Kept r held h values h' values') :
    values' = values ∪ h.newValues r values h' := by
  have hall : h.newValues r values h' = h.fresh h' := by
    refine Set.Subset.antisymm (fun a ha => ha.1) fun a ha => ⟨ha, fun u hu hku hpart => ?_⟩
    have hu' : u ∈ values' := hk.goesOn.subset hu
    refine (hk.sound.arranged.part_owned hu' hku hpart).1 ?_
    rw [hk.grown]
    exact Or.inr ha
  rw [hall, hk.grown]

theorem Action.Written.follows (hw : Action.Written r held h values h') :
    Follows r held h values h' (values ∪ h.newValues r values h') := by
  rcases hw with ⟨values', hkept⟩ | ⟨v, hv, hk, hreshaped⟩
  · rw [← hkept.values_eq]
    exact ⟨hkept.sound, hkept.blocks, hkept.goesOn⟩
  · have hnone : h.newValues r values h' = ∅ := by
      refine Set.eq_empty_of_forall_notMem fun a ha => ?_
      exact ha.2 v hv ((hreshaped.goesOn.kindAt hv).trans hk) (hreshaped.parts a ha.1)
    rw [hnone, Set.union_empty]
    exact ⟨hreshaped.sound, hreshaped.blocks, hreshaped.goesOn⟩

theorem Action.Permitted.follows {α : Type} {x : Action α} {result : Except Fault α}
    (hx : x.Permitted r held values h.memory) (hb : r.Built) (hs : Sound r held ∅ h values)
    (hw : w.registry = r) (hrun : x w h = (result, h')) (hfatal : ∀ e, result ≠ .error (.fatal e)) :
    Follows r held h values h' (values ∪ h.newValues r values h') := by
  subst hw
  have hends := hx.ends hb hs
  cases result with
  | ok a => exact (hends.of_ok hrun).follows
  | error e =>
    cases e with
    | error e => exact (hends.of_error hrun).follows
    | fatal e => exact absurd rfl (hfatal e)

/-- Every heap that a program can have is sound. -/
theorem Reachable.sound (hr : Reachable r held h values) (hb : r.Built) : Sound r held ∅ h values := by
  induction hr with
  | start limit => exact sound_empty r held limit
  | step _ hw hx hrun hfatal ih => exact (hx.follows hb ih hw hrun hfatal).sound
  | newBytes _ hrun ih => exact ((Action.newBytes_ends ih _).of_ok hrun).sound
  | copyBytes _ hrun ih => exact ((Action.copyBytes_ends ih _).of_ok hrun).sound

/-- What a program does next: an operation that does not end it, given what it expects. -/
inductive Step (r : Registry) (held : Addr → TypeId → Prop) : Heap × Set Addr → Heap × Set Addr → Prop
  | operation {α : Type} {x : Action α} {w : World} {h h' : Heap} {values : Set Addr}
    {result : Except Fault α} : w.registry = r → x.Permitted r held values h.memory →
      x w h = (result, h') → (∀ e, result ≠ .error (.fatal e)) →
        Step r held (h, values) (h', values ∪ h.newValues r values h')
  | newBytes {w : World} {h h' : Heap} {values : Set Addr} {size : UInt64} {a : Addr} :
    Action.newBytes size w h = (.ok a, h') → Step r held (h, values) (h', values)
  | copyBytes {w : World} {h h' : Heap} {values : Set Addr} {bytes : List UInt8} {a : Addr} :
    Action.copyBytes bytes w h = (.ok a, h') → Step r held (h, values) (h', values)

/-- A run of a program from one heap to another. -/
def Run (r : Registry) (held : Addr → TypeId → Prop) : Heap × Set Addr → Heap × Set Addr → Prop :=
  Relation.ReflTransGen (Step r held)

theorem Reachable.next {s : Heap × Set Addr} (hr : Reachable r held h values) (hs : Step r held (h, values) s) :
    Reachable r held s.1 s.2 := by
  cases hs with
  | operation hw hx hrun hfatal => exact hr.step hw hx hrun hfatal
  | newBytes hrun => exact hr.newBytes hrun
  | copyBytes hrun => exact hr.copyBytes hrun

namespace Step

variable {α : Type} {x : Action α} {a : α}

theorem after (hw : w.registry = r) (hx : x.Permitted r held values h.memory) (hrun : x w h = (.ok a, h')) :
    ∃ values', values ⊆ values' ∧ Step r held (h, values) (h', values') :=
  ⟨_, Set.subset_union_left, .operation hw hx hrun fun _ hfatal => nomatch hfatal⟩

theorem after_keeps {post : α → Heap → Set Addr → Prop} (hw : w.registry = r)
    (hx : x.Permitted r held values h.memory) (hkeeps : Action.Keeps held x w h values post)
    (hrun : x w h = (.ok a, h')) :
    ∃ values', values ⊆ values' ∧ Step r held (h, values) (h', values') ∧ post a h' values' := by
  subst hw
  obtain ⟨values', hkept, hpost⟩ := hkeeps.of_ok hrun
  refine ⟨values', hkept.goesOn.subset, ?_, hpost⟩
  rw [hkept.values_eq]
  exact .operation rfl hx hrun fun _ hfatal => nomatch hfatal

end Step

theorem Reachable.after {α : Type} {x : Action α} {a : α} (hr : Reachable r held h values)
    (hw : w.registry = r) (hx : x.Permitted r held values h.memory) (hrun : x w h = (.ok a, h')) :
    ∃ values', values ⊆ values' ∧ Reachable r held h' values' := by
  obtain ⟨values', hsub, hstep⟩ := Step.after hw hx hrun
  exact ⟨values', hsub, hr.next hstep⟩

theorem Reachable.after_keeps {α : Type} {x : Action α} {a : α} {post : α → Heap → Set Addr → Prop}
    (hr : Reachable r held h values) (hw : w.registry = r) (hx : x.Permitted r held values h.memory)
    (hkeeps : Action.Keeps held x w h values post) (hrun : x w h = (.ok a, h')) :
    ∃ values', values ⊆ values' ∧ Reachable r held h' values' ∧ post a h' values' := by
  obtain ⟨values', hsub, hstep, hpost⟩ := Step.after_keeps hw hx hkeeps hrun
  exact ⟨values', hsub, hr.next hstep, hpost⟩

/-- The heaps that a program can have are those at the ends of runs from an empty one. -/
theorem reachable_iff_run : Reachable r held h values ↔ ∃ limit, Run r held ({ limit }, ∅) (h, values) := by
  constructor
  · intro hr
    induction hr with
    | start limit => exact ⟨limit, .refl⟩
    | step _ hw hx hrun hfatal ih =>
      obtain ⟨limit, hbefore⟩ := ih
      exact ⟨limit, hbefore.tail (.operation hw hx hrun hfatal)⟩
    | newBytes _ hrun ih =>
      obtain ⟨limit, hbefore⟩ := ih
      exact ⟨limit, hbefore.tail (.newBytes hrun)⟩
    | copyBytes _ hrun ih =>
      obtain ⟨limit, hbefore⟩ := ih
      exact ⟨limit, hbefore.tail (.copyBytes hrun)⟩
  · rintro ⟨limit, hrun⟩
    suffices ∀ s, Run r held ({ limit }, ∅) s → Reachable r held s.1 s.2 from this (h, values) hrun
    intro s hs
    induction hs with
    | refl => exact .start limit
    | tail _ hstep ih => exact ih.next hstep

theorem Step.follows {s : Heap × Set Addr} (hs : Step r held (h, values) s) (hb : r.Built)
    (hsound : Sound r held ∅ h values) : Follows r held h values s.1 s.2 := by
  cases hs with
  | operation hw hx hrun hfatal => exact hx.follows hb hsound hw hrun hfatal
  | newBytes hrun => exact (Action.newBytes_ends hsound _).of_ok hrun
  | copyBytes hrun => exact (Action.copyBytes_ends hsound _).of_ok hrun

theorem Run.goesOn {s : Heap × Set Addr} (hrun : Run r held (h, values) s) (hb : r.Built)
    (hr : Reachable r held h values) :
    Reachable r held s.1 s.2 ∧ GoesOn r values h.memory s.2 s.1.memory := by
  induction hrun with
  | refl => exact ⟨hr, .refl r values h.memory⟩
  | tail _ hstep ih =>
    obtain ⟨hreach, hgoes⟩ := ih
    exact ⟨hreach.next hstep, hgoes.trans (hstep.follows hb (hreach.sound hb)).goesOn⟩

/-- Casts are type sound: in every heap that a program can have, a slot of a type becomes a slot of the
type that was asked for, and slots stay of their types. -/
theorem cast_wellTyped {source target : TypeId} {s s' : Slot} (hb : w.registry.Built)
    (hr : Reachable w.registry held h values)
    (hslot : WellTyped w.registry held values h.memory source s)
    (hcast : Action.cast s source target w h = (.ok s', h')) :
    Reachable w.registry held h' (values ∪ h.newValues w.registry values h') ∧
      WellTyped w.registry held (values ∪ h.newValues w.registry values h') h'.memory target s' ∧
        ∀ t u, WellTyped w.registry held values h.memory t u →
          WellTyped w.registry held (values ∪ h.newValues w.registry values h') h'.memory t u := by
  obtain ⟨values', hkept, hslot'⟩ := (Action.cast_keeps (hr.sound hb) hslot).of_ok hcast
  rw [← hkept.values_eq]
  refine ⟨?_, hslot', fun t u hu => hu.goesOn hkept.goesOn⟩
  rw [hkept.values_eq]
  exact hr.step rfl (.cast target hslot) hcast fun _ hfatal => nomatch hfatal

theorem Registry.twinClasses_built : Registry.twinClasses.Built :=
  .of_adds (Registry.twinClasses.types.toList.drop Descriptor.builtins.length) (by decide +kernel)
    (by decide +kernel)

/-- A new instance of a class is cast to the twin of its super class. -/
theorem leaf_cast_wellTyped :
    ∃ a h s' h' values, Reachable .twinClasses (fun _ _ => False) h values ∧ a ∈ values ∧
      h.memory.typeOf a = .ofIndex 16 ∧
      Action.cast (.pointer a) (.ofIndex 16) (.ofIndex 15) (.ofTypes .twinClasses) h = (.ok s', h') ∧
      WellTyped .twinClasses (fun _ _ => False) (values ∪ h.newValues .twinClasses values h') h'.memory
        (.ofIndex 15) s' := by
  have hb : (World.ofTypes .twinClasses).registry.Built := Registry.twinClasses_built
  have hstart : Reachable .twinClasses (fun _ _ => False) {} ∅ := .start none
  have hclass : Registry.twinClasses.kind? (.ofIndex 16) = some .object := by decide +kernel
  cases hnew : Action.newInstance (.ofIndex 16) (.ofTypes .twinClasses) {} with
  | mk result h =>
    cases result with
    | error e =>
      have hok : (Action.newInstance (.ofIndex 16) (.ofTypes .twinClasses) {}).1.isOk = true := by
        decide +kernel
      rw [hnew] at hok
      cases hok
    | ok a =>
      obtain ⟨values, hkept, ha, htype⟩ := (Action.newInstance_keeps (hstart.sound hb)).of_ok hnew
      have hreach := hstart.step rfl (.newInstance (.ofIndex 16)) hnew fun _ hfatal => nomatch hfatal
      have hvalues : values = ∅ ∪ Heap.newValues .twinClasses {} ∅ h := hkept.values_eq
      rw [← hvalues] at hreach
      have hslot : WellTyped .twinClasses (fun _ _ => False) values h.memory (.ofIndex 16)
          (.pointer a) := by
        refine .of_leadsTo hclass rfl ⟨ha, ?_⟩
        rw [htype]
        decide +kernel
      cases hcast : Action.cast (.pointer a) (.ofIndex 16) (.ofIndex 15) (.ofTypes .twinClasses) h with
      | mk result h' =>
        cases result with
        | error e =>
          have hok : ((Action.newInstance (.ofIndex 16) >>= fun v =>
              Action.cast (.pointer v) (.ofIndex 16) (.ofIndex 15)) (.ofTypes .twinClasses) {}).1.isOk =
                true := by
            decide +kernel
          rw [Action.bind_ok hnew, hcast] at hok
          cases hok
        | ok s' =>
          exact ⟨a, h, s', h', values, hreach, ha, htype, hcast,
            (cast_wellTyped hb hreach hslot hcast).2.1⟩

end ObjectModel
