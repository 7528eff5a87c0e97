import ObjectModel.Proofs.Value.Reachable

/-!
All that operations do to a heap is to take blocks from it and to change bytes. What both leave true of a heap
every operation leaves true, whatever its arguments and however it ends, and so it is true of every heap that
a program can have. In particular, all blocks and all contents start at multiples of sixteen.
-/

set_option autoImplicit false
set_option relaxedAutoImplicit false

namespace ObjectModel

variable {r : Registry} {held : Addr → TypeId → Prop} {values : Set Addr} {h h' : Heap} {P : Heap → Prop}

/-- A property of heaps that a granted request and any change of the bytes leave true. -/
structure Heap.Stable (P : Heap → Prop) : Prop where
  change : ∀ {h : Heap} (m : Memory), P h → P { h with memory := m }
  grant : ∀ {h h' : Heap} {size : UInt64} {kind : BlockKind} {a : Addr}, h.Grants size kind a h' → P h → P h'

namespace Action

/-- An operation after which a property of heaps is true if it was true before. -/
def Preserves {α : Type} (P : Heap → Prop) (x : Action α) : Prop := ∀ w h, P h → P (x w h).2

namespace Preserves

variable {α β : Type} {x : Action α} {f : α → Action β}

theorem bind (hx : x.Preserves P) (hf : ∀ a, (f a).Preserves P) : (x >>= f).Preserves P := by
  intro w h hP
  have hfirst := hx w h hP
  cases hrun : x w h with
  | mk result h' =>
    rw [hrun] at hfirst
    cases result with
    | ok a =>
      rw [bind_ok hrun]
      exact hf a w h' hfirst
    | error e =>
      rw [bind_error hrun]
      exact hfirst

theorem pure (a : α) : (Pure.pure a : Action α).Preserves P := fun _ _ => id

theorem fail (e : ValueError) : (Action.fail e : Action α).Preserves P := fun _ _ => id

theorem world : Action.world.Preserves P := fun _ _ => id

theorem look (view : Memory → α) : (Action.look view).Preserves P := fun _ _ => id

theorem chainBound : Action.chainBound.Preserves P := fun _ _ => id

theorem ask (q : World → Memory → Reading α) : (Action.ask q).Preserves P := by
  intro w h hP
  unfold Action.ask
  split <;> exact hP

theorem guard {ok : Bool} (a : α) (e : ValueError) :
    (if ok = true then Pure.pure a else Action.fail e : Action α).Preserves P := by
  cases ok with
  | false => exact fail e
  | true => exact pure a

end Preserves

section Operations

variable {hash : NameHash} {t : TypeId}

variable (hP : Heap.Stable P)

include hP

theorem change_preserves (f : Memory → Memory) : (change f).Preserves P := fun _ _ => hP.change _

theorem allocateRaw_preserves (size : UInt64) (kind : BlockKind) : (allocateRaw size kind).Preserves P := by
  intro w h hh
  unfold allocateRaw
  cases hrun : h.allocate size kind with
  | error e => exact hh
  | ok result => exact hP.grant (Heap.allocate_eq_ok hrun) hh

theorem allocate_preserves (size : Nat) (kind : BlockKind) : (allocate size kind).Preserves P := by
  intro w h hh
  obtain ⟨e, hfatal⟩ | ⟨v, h', -, hgranted, htaken⟩ := allocate_cases size kind w h
  · rw [hfatal]
    exact hh
  · rw [htaken]
    exact hP.grant (Heap.allocate_eq_ok hgranted) hh

theorem newBytes_preserves (size : UInt64) : (newBytes size).Preserves P :=
  allocateRaw_preserves hP size .noPointers

theorem copyBytes_preserves (bytes : List UInt8) : (copyBytes bytes).Preserves P :=
  .bind (allocate_preserves hP _ _) fun a => .bind (change_preserves hP _) fun _ => .pure a

theorem newValue_preserves (size : Nat) (kind : BlockKind) (t : TypeId) : (newValue size kind t).Preserves P :=
  .bind (allocate_preserves hP size kind) fun v => .bind (change_preserves hP _) fun _ => .pure v

theorem newValue_change_preserves (size : Nat) (kind : BlockKind) (t : TypeId) (f : Addr → Memory → Memory) :
    (do let v ← newValue size kind t; change (f v); return v : Action Addr).Preserves P :=
  .bind (newValue_preserves hP size kind t) fun v => .bind (change_preserves hP _) fun _ => .pure v

theorem newBox_preserves (t : TypeId) : (newBox t).Preserves P :=
  .bind (.ask _) fun _ => newValue_preserves hP _ _ t

theorem newInstance_preserves (t : TypeId) : (newInstance t).Preserves P :=
  .bind (.ask _) fun _ => newValue_preserves hP _ _ t

theorem newArray_preserves (element : TypeId) (length : Nat) : (newArray element length).Preserves P := by
  refine .bind (.ask _) fun k => ?_
  split
  · exact .fail _
  · exact newValue_change_preserves hP _ _ _ _

theorem setElement_preserves (v : Addr) (i : Nat) (s : Slot) : (setElement v i s).Preserves P :=
  .bind (.ask _) fun _ => change_preserves hP _

theorem newVariant_preserves (t : TypeId) (index : Nat) : (newVariant t index).Preserves P :=
  .bind (.ask _) fun _ => newValue_change_preserves hP _ _ _ _

theorem makeVariant_preserves (t : TypeId) (index : Nat) (args : List Slot) :
    (makeVariant t index args).Preserves P := by
  refine .bind (.ask _) fun c => ?_
  split
  · exact .fail _
  · exact .bind (.ask _) fun _ => .bind (newVariant_preserves hP t index) fun v =>
      .bind (change_preserves hP _) fun _ => .pure v

theorem newClosure_preserves (function : TypeId) (code : UInt64) : (newClosure function code).Preserves P :=
  .bind (.ask _) fun _ => newValue_change_preserves hP _ _ _ _

theorem bindClosure_preserves (function : TypeId) (code : UInt64) (receiver : Addr) :
    (bindClosure function code receiver).Preserves P :=
  .bind (.ask _) fun _ => newValue_change_preserves hP _ _ _ _

theorem bindMethod_preserves (function : Nat) (type : TypeId) (receiver : Addr) :
    (bindMethod function type receiver).Preserves P := by
  refine .bind .world fun w => ?_
  split
  · exact bindClosure_preserves hP type _ receiver
  · exact .fail _

theorem newStandalone_preserves (t : TypeId) : (newStandalone t).Preserves P :=
  .bind (.ask _) fun _ => newValue_change_preserves hP _ _ _ _

theorem toDynamic_preserves (s : Slot) (t : TypeId) : (toDynamic s t).Preserves P := by
  have hfill : (toDynamic.fill s t).Preserves P :=
    .bind (newBox_preserves hP t) fun v => .bind (change_preserves hP _) fun _ => .pure v
  refine .bind (.ask _) fun k => ?_
  split
  · cases s with
    | void => exact .pure _
    | pointer a =>
      dsimp only
      split
      · exact .pure _
      · exact hfill
    | _ => exact hfill
  · exact .fail _

theorem boxNumber_preserves (s : Slot) (t : TypeId) : (boxNumber s t).Preserves P := by
  refine .bind (toDynamic_preserves hP s t) fun v => ?_
  split
  · exact .fail _
  · exact .pure v

/-! Views. -/

theorem newView_preserves (t : TypeId) (u : Addr) : (newView t u).Preserves P :=
  .bind (.ask _) fun _ => .bind (.ask _) fun _ => newValue_change_preserves hP _ _ _ _

theorem chainedView_preserves (t : TypeId) (u : Addr) (head : Nat) : (chainedView t u head).Preserves P := by
  refine .bind .chainBound fun bound => .bind (.look _) fun first => .bind (.ask _) fun found => ?_
  cases found with
  | some x => exact .pure x
  | none => exact .bind (newView_preserves hP t u) fun v => .bind (change_preserves hP _) fun _ => .pure v

theorem toViewFrom_preserves (t : TypeId) (bound : Nat) (v : Addr) : (toViewFrom t bound v).Preserves P := by
  induction bound using Nat.strongRecOn generalizing v with
  | ind bound ih =>
    rw [toViewFrom.eq_def]
    refine .bind (.look _) fun source => .bind (.ask _) fun k => ?_
    cases k with
    | object => exact newView_preserves hP t v
    | dynobj => exact chainedView_preserves hP t v _
    | virtual =>
      refine .bind .world fun w => ?_
      split
      · exact .pure v
      · refine .bind (.look _) fun inner => ?_
        split
        · exact chainedView_preserves hP t v _
        · cases bound with
          | zero => exact .fail _
          | succ bound => exact ih bound (Nat.lt_succ_self bound) inner
    | _ => exact .fail _

theorem toView_preserves (t : TypeId) (v : Addr) : (toView t v).Preserves P :=
  .bind .chainBound fun bound => toViewFrom_preserves hP t bound v

/-! Conversions. -/

theorem boxAs_preserves (s : Slot) (source target : TypeId) : (boxAs s source target).Preserves P := by
  refine .bind (.ask _) fun d => ?_
  cases d with
  | null inner =>
    refine .bind .world fun w => ?_
    dsimp only
    split
    · exact toDynamic_preserves hP _ inner
    · exact .fail _
  | _ => exact .fail _

theorem castActual_preserves (a : Addr) (actual target : TypeId) (k : Kind) :
    (castActual a actual target k).Preserves P := by
  refine .bind .world fun w => .bind (.ask _) fun l => ?_
  cases k with
  | virtual =>
    dsimp only
    split
    · exact toView_preserves hP target a
    · exact .fail _
  | null =>
    dsimp only
    split
    · exact .bind (.ask _) fun content => boxAs_preserves hP _ actual target
    · exact .guard a _
  | _ => exact .guard a _

theorem castPointer_preserves (s : Slot) (source target : TypeId) : (castPointer s source target).Preserves P := by
  refine .bind (.ask _) fun k => .bind (.ask _) fun l => ?_
  cases s with
  | void => exact .pure _
  | pointer a =>
    refine .bind .world fun w => ?_
    dsimp only
    split
    · exact .pure a
    · split
      · split
        · exact .pure a
        · exact toDynamic_preserves hP _ source
      · exact .bind (.ask _) fun revealed => castActual_preserves hP _ _ target l
  | _ =>
    cases l with
    | dynamic => exact toDynamic_preserves hP _ source
    | null => exact boxAs_preserves hP _ source target
    | _ => exact .fail _

theorem convert_preserves (s : Slot) (source target : TypeId) : (convert s source target).Preserves P := by
  refine .bind (.ask _) fun k => ?_
  split
  · exact .pure _
  · split
    · refine .bind (.ask _) fun n => ?_
      split
      · exact .pure _
      · exact .fail _
    · exact .bind (castPointer_preserves hP s source target) fun a => .pure _

theorem cast_preserves (s : Slot) (source target : TypeId) : (cast s source target).Preserves P := by
  refine .bind (.ask _) fun k => ?_
  split
  · exact convert_preserves hP s source target
  · exact .fail _

/-! Open objects. -/

theorem refreshFrom_preserves (value : Addr) (bound : Nat) (head : Addr) :
    (refreshFrom value bound head).Preserves P := by
  induction bound using Nat.strongRecOn generalizing head with
  | ind bound ih =>
    rw [refreshFrom.eq_def]
    dsimp only
    split
    · exact .pure ()
    · refine .bind (.ask _) fun layout => .bind (.ask _) fun paths => .bind (change_preserves hP _) fun _ => ?_
      cases bound with
      | zero => exact .fail _
      | succ bound => exact .bind (.look _) fun next => ih bound (Nat.lt_succ_self bound) next

theorem refreshViews_preserves (v : Addr) : (refreshViews v).Preserves P :=
  .bind .chainBound fun bound => .bind (.look _) fun head => refreshFrom_preserves hP v bound head

theorem growStorage_preserves (v : Addr) (size : Nat) : (growStorage v size).Preserves P :=
  .bind (allocate_preserves hP size .pointers) fun _ => change_preserves hP _

theorem addField_preserves (v : Addr) (hash : NameHash) (t : TypeId) : (addField v hash t).Preserves P :=
  .bind (.ask _) fun _ => .bind (.look _) fun _ => .bind (.look _) fun _ =>
    .bind (allocate_preserves hP _ .noPointers) fun _ => .bind (change_preserves hP _) fun _ =>
      .bind (growStorage_preserves hP v _) fun _ => .bind (change_preserves hP _) fun _ => .pure _

theorem retypeField_preserves (v : Addr) (position : Nat) (old : OpenField) (t : TypeId) :
    (retypeField v position old t).Preserves P := by
  refine .bind (.ask _) fun k => .bind (.ask _) fun oldKind => ?_
  have hentry (f : OpenField) : (do
      change fun m => OpenObject.writeEntry m
        ((OpenObject.tableAddress m v).toNat + position * OpenObject.entrySize) f
      return f : Action OpenField).Preserves P := .bind (change_preserves hP _) fun _ => .pure f
  split
  · exact .bind (change_preserves hP _) fun _ => hentry _
  · exact .bind (.look _) fun offset => .bind (growStorage_preserves hP v _) fun _ => hentry _

theorem setOpenField_preserves (v : Addr) (hash : NameHash) (t : TypeId) (s : Slot) :
    (setOpenField v hash t s).Preserves P := by
  refine .bind (.look _) fun table => ?_
  split
  · refine .bind .world fun w => ?_
    split
    · exact change_preserves hP _
    · exact .bind (retypeField_preserves hP v _ _ t) fun _ => .bind (change_preserves hP _) fun _ =>
        refreshViews_preserves hP v
  · exact .bind (addField_preserves hP v hash t) fun _ => .bind (change_preserves hP _) fun _ =>
      refreshViews_preserves hP v

/-! Members by name. -/

theorem getFrom_preserves (bound : Nat) (v : Addr) : (getFrom hash t bound v).Preserves P := by
  induction bound using Nat.strongRecOn generalizing v with
  | ind bound ih =>
    rw [getFrom.eq_def]
    refine .bind (.ask _) fun target => ?_
    cases target with
    | stored a type =>
      exact .bind (.ask _) fun _ => .bind (.ask _) fun _ => .bind (.look _) fun _ =>
        convert_preserves hP _ type t
    | method function type receiver =>
      refine .bind (.ask _) fun k => ?_
      split
      · exact .bind (bindMethod_preserves hP function type receiver) fun c => .bind (.look _) fun _ =>
          .bind (castPointer_preserves hP _ _ t) fun _ => .pure _
      · exact .fail _
    | forward u =>
      cases bound with
      | zero => exact .fail _
      | succ bound => exact ih bound (Nat.lt_succ_self bound) u

theorem get_preserves (v : Addr) (hash : NameHash) (t : TypeId) : (get v hash t).Preserves P :=
  .bind .chainBound fun bound => getFrom_preserves hP bound v

theorem setFrom_preserves (s : Slot) (bound : Nat) (v : Addr) : (setFrom hash t s bound v).Preserves P := by
  induction bound using Nat.strongRecOn generalizing v with
  | ind bound ih =>
    rw [setFrom.eq_def]
    refine .bind (.ask _) fun k => ?_
    split
    · exact setOpenField_preserves hP v hash t s
    · refine .bind (.ask _) fun target => ?_
      cases target with
      | stored a type => exact .bind (convert_preserves hP s t type) fun _ => change_preserves hP _
      | method function type receiver => exact .fail _
      | forward u =>
        cases bound with
        | zero => exact .fail _
        | succ bound => exact ih bound (Nat.lt_succ_self bound) u

theorem set_preserves (v : Addr) (hash : NameHash) (t : TypeId) (s : Slot) : (set v hash t s).Preserves P := by
  refine .bind (.ask _) fun k => ?_
  split
  · exact .bind .chainBound fun bound => setFrom_preserves hP s bound v
  · exact .fail _

end Operations

/-- A stable property is left true by every operation on values. -/
theorem Permitted.preserves {α : Type} {x : Action α} {m : Memory} (hx : x.Permitted r held values m)
    (hP : Heap.Stable P) : x.Preserves P := by
  cases hx with
  | newBox => exact newBox_preserves hP _
  | newInstance t => exact newInstance_preserves hP t
  | newArray element length => exact newArray_preserves hP element length
  | setElement => exact setElement_preserves hP _ _ _
  | newOpenObject => exact newValue_preserves hP _ _ _
  | newStandalone t => exact newStandalone_preserves hP t
  | newVariant t index => exact newVariant_preserves hP t index
  | makeVariant t index args => exact makeVariant_preserves hP t index args
  | newClosure function code => exact newClosure_preserves hP function code
  | bindClosure function code => exact bindClosure_preserves hP function code _
  | toDynamic => exact toDynamic_preserves hP _ _
  | boxNumber => exact boxNumber_preserves hP _ _
  | toView t => exact toView_preserves hP t _
  | cast target => exact cast_preserves hP _ _ target
  | castPointer target => exact castPointer_preserves hP _ _ target
  | get hash t => exact get_preserves hP _ hash t
  | getInt32 hash t =>
    refine .bind (get_preserves hP _ hash t) fun s => ?_
    split <;> first | exact .pure _ | exact .fail _
  | getF32 hash =>
    refine .bind (get_preserves hP _ hash _) fun s => ?_
    split <;> first | exact .pure _ | exact .fail _
  | getF64 hash =>
    refine .bind (get_preserves hP _ hash _) fun s => ?_
    split <;> first | exact .pure _ | exact .fail _
  | getPointer hash t =>
    refine .bind (.ask _) fun k => ?_
    split
    · refine .bind (get_preserves hP _ hash t) fun s => ?_
      split <;> first | exact .pure _ | exact .fail _
    · exact .fail _
  | set hash => exact set_preserves hP _ hash _ _
  | setInt32 hash t n =>
    refine .bind (.ask _) fun k => ?_
    split
    · exact set_preserves hP _ hash t _
    · exact .fail _
  | setF32 hash bits => exact set_preserves hP _ hash _ _
  | setF64 hash bits => exact set_preserves hP _ hash _ _
  | setPointer hash => exact set_preserves hP _ hash _ _

end Action

/-- What is true of an empty heap, and stable, is true of every heap that a program can have. -/
theorem Reachable.of_stable (hr : Reachable r held h values) (hP : Heap.Stable P)
    (hstart : ∀ limit, P { limit }) : P h := by
  induction hr with
  | start limit => exact hstart limit
  | @step _ _ w h _ _ _ _ _ hx hrun _ ih =>
    have hend := hx.preserves hP w h ih
    rwa [hrun] at hend
  | @newBytes w h _ _ size _ _ hrun ih =>
    have hend := Action.newBytes_preserves hP size w h ih
    rwa [hrun] at hend
  | @copyBytes w h _ _ bytes _ _ hrun ih =>
    have hend := Action.copyBytes_preserves hP bytes w h ih
    rwa [hrun] at hend

namespace Heap

/-- The next block and the contents of all blocks start at multiples of sixteen. -/
structure Aligned (h : Heap) : Prop where
  next : 16 ∣ h.next
  blocks : ∀ b ∈ h.blocks.toList, 16 ∣ b.address.toNat

theorem aligned_stable : Stable Aligned where
  change := fun _ ha => ⟨ha.next, ha.blocks⟩
  grant := by
    rintro h h' size kind a hg ⟨hnext, hblocks⟩
    have hsize := dvd_blockSize size
    refine ⟨?_, fun b hb => ?_⟩
    · rw [hg.next]
      omega
    · rw [hg.blocks, Array.toList_push] at hb
      rcases List.mem_append.1 hb with hb | hb
      · exact hblocks b hb
      · obtain rfl := List.mem_singleton.1 hb
        change 16 ∣ a.toNat
        rw [hg.toNat_address]
        omega

theorem aligned_start (limit : Option UInt64) : ({ limit } : Heap).Aligned :=
  ⟨(by decide : 16 ∣ 0x10000), fun _ hb => absurd hb List.not_mem_nil⟩

end Heap

/-- In every heap that a program can have, blocks and contents start at multiples of sixteen. -/
theorem Reachable.aligned (hr : Reachable r held h values) : h.Aligned :=
  hr.of_stable Heap.aligned_stable Heap.aligned_start

end ObjectModel
