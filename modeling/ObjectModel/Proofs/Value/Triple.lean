import ObjectModel.Proofs.Value.NewValue

/-!
Triples for operations. An operation that ends well gives a result and a heap that satisfy what is
promised, one that fails leaves a heap of which something is known, and one that ends the program for
good promises nothing.
-/

set_option autoImplicit false
set_option relaxedAutoImplicit false

namespace ObjectModel

namespace Action

variable {α β : Type} {w : World} {h h' : Heap}

/-- How an operation ends from a heap. Irreducible, as else goals about an operation would run it. -/
@[irreducible]
def Ends (x : Action α) (w : World) (h : Heap) (good : α → Heap → Prop) (bad : Heap → Prop) : Prop :=
  match x w h with
  | (.ok a, h') => good a h'
  | (.error (.error _), h') => bad h'
  | (.error (.fatal _), _) => True

namespace Ends

variable {x : Action α} {f : α → Action β} {good good' : α → Heap → Prop} {next : β → Heap → Prop}
  {bad bad' : Heap → Prop}

theorem bind (hx : x.Ends w h good bad) (hbad : ∀ h', bad h' → bad' h')
    (hf : ∀ a h', good a h' → (f a).Ends w h' next bad') : (x >>= f).Ends w h next bad' := by
  unfold Ends at hx ⊢
  cases hrun : x w h with
  | mk result h' =>
    rw [hrun] at hx
    cases result with
    | ok a =>
      have hnext := hf a h' hx
      unfold Ends at hnext
      rw [bind_ok hrun]
      exact hnext
    | error e =>
      rw [bind_error hrun]
      cases e with
      | error e => exact hbad h' hx
      | fatal e => trivial

theorem imp (hx : x.Ends w h good bad) (hgood : ∀ a h', good a h' → good' a h')
    (hbad : ∀ h', bad h' → bad' h') : x.Ends w h good' bad' := by
  unfold Ends at hx ⊢
  split at hx
  · exact hgood _ _ hx
  · exact hbad _ hx
  · trivial

theorem and (hx : x.Ends w h good bad) (hx' : x.Ends w h good' bad') :
    x.Ends w h (fun a h' => good a h' ∧ good' a h') fun h' => bad h' ∧ bad' h' := by
  unfold Ends at hx hx' ⊢
  split at hx
  · exact ⟨hx, by simpa only [*] using hx'⟩
  · exact ⟨hx, by simpa only [*] using hx'⟩
  · trivial

theorem of_ok {a : α} (hx : x.Ends w h good bad) (hrun : x w h = (.ok a, h')) : good a h' := by
  unfold Ends at hx
  rw [hrun] at hx
  exact hx

theorem of_error {e : ValueError} (hx : x.Ends w h good bad)
    (hrun : x w h = (.error (.error e), h')) : bad h' := by
  unfold Ends at hx
  rw [hrun] at hx
  exact hx

theorem ok_or_fatal {result : Except Fault α} (hx : x.Ends w h good fun _ => False)
    (hrun : x w h = (result, h')) : (∃ a, result = .ok a ∧ good a h') ∨ ∃ e, result = .error (.fatal e) := by
  cases result with
  | ok a => exact Or.inl ⟨a, rfl, hx.of_ok hrun⟩
  | error e =>
    cases e with
    | error e => exact (hx.of_error hrun).elim
    | fatal e => exact Or.inr ⟨e, rfl⟩

theorem trivial (x : Action α) (w : World) (h : Heap) :
    x.Ends w h (fun _ _ => True) (fun _ => True) := by
  unfold Ends
  split <;> exact True.intro

theorem pure {a : α} (hgood : good a h) : Ends (Pure.pure a) w h good bad := by
  unfold Ends
  exact hgood

theorem pure_bind {a : α} (hf : (f a).Ends w h next bad) : (Pure.pure a >>= f).Ends w h next bad := by
  unfold Ends at hf ⊢
  exact hf

theorem fail {e : ValueError} (hbad : bad h) : Ends (Action.fail e) w h good bad := by
  unfold Ends
  exact hbad

theorem guard {ok : Bool} {a : α} {e : ValueError} (hgood : ok = true → good a h) (hbad : bad h) :
    Ends (if ok = true then Pure.pure a else Action.fail e) w h good bad := by
  cases ok with
  | false => exact fail hbad
  | true => exact pure (hgood rfl)

theorem ask_bind {q : World → Memory → Reading α} {post : β → Heap → Prop} (hbad : bad h)
    (hf : ∀ a, q w h.memory = .ok a → (f a).Ends w h post bad) :
    (Action.ask q >>= f).Ends w h post bad := by
  unfold Ends
  cases hq : q w h.memory with
  | ok a =>
    have hnext := hf a hq
    unfold Ends at hnext
    rw [bind_ok (ask_ok hq)]
    exact hnext
  | error e =>
    rw [bind_error (ask_error hq)]
    exact hbad

theorem ask_ok_bind {q : World → Memory → Reading α} {a : α} {post : β → Heap → Prop}
    (hq : q w h.memory = .ok a) (hf : (f a).Ends w h post bad) :
    (Action.ask q >>= f).Ends w h post bad := by
  unfold Ends at hf ⊢
  rw [bind_ok (ask_ok hq)]
  exact hf

theorem look_bind {view : Memory → α} {post : β → Heap → Prop}
    (hf : (f (view h.memory)).Ends w h post bad) : (Action.look view >>= f).Ends w h post bad := by
  unfold Ends at hf ⊢
  exact hf

theorem world_bind {g : World → Action β} {post : β → Heap → Prop} (hf : (g w).Ends w h post bad) :
    (Action.world >>= g).Ends w h post bad := by
  unfold Ends at hf ⊢
  exact hf

theorem chainBound_bind {g : Nat → Action β} {post : β → Heap → Prop}
    (hf : (g (h.blocks.size + 1)).Ends w h post bad) : (Action.chainBound >>= g).Ends w h post bad := by
  unfold Ends at hf ⊢
  exact hf

theorem change {f : Memory → Memory} {good : Unit → Heap → Prop}
    (hgood : good () { h with memory := f h.memory }) : (Action.change f).Ends w h good bad := by
  unfold Ends
  exact hgood

theorem change_bind {change : Memory → Memory} {g : Unit → Action β} {post : β → Heap → Prop}
    (hf : (g ()).Ends w { h with memory := change h.memory } post bad) :
    (Action.change change >>= g).Ends w h post bad := by
  unfold Ends at hf ⊢
  exact hf

end Ends

theorem allocate_cases (size : Nat) (kind : BlockKind) (w : World) (h : Heap) :
    (∃ e, allocate size kind w h = (.error (.fatal e), h)) ∨
      ∃ v h', size ≤ Heap.maxBlockSize ∧ h.allocate (.ofNat size) kind = .ok (v, h') ∧
        allocate size kind w h = (.ok v, h') := by
  by_cases hsize : Heap.maxBlockSize < size
  · exact .inl ⟨.invalidSize size, by simp [allocate, hsize]⟩
  · have hrun : allocate size kind = allocateRaw (.ofNat size) kind := by
      simp [allocate, hsize]
    rw [hrun, allocateRaw]
    cases hok : h.allocate (.ofNat size) kind with
    | error e => exact .inl ⟨e, rfl⟩
    | ok result => exact .inr ⟨result.1, result.2, Nat.le_of_not_lt hsize, rfl, rfl⟩

theorem allocate_ok {size : Nat} {kind : BlockKind} {v : Addr}
    (hrun : allocate size kind w h = (.ok v, h')) : h.allocate (.ofNat size) kind = .ok (v, h') := by
  obtain ⟨e, hfatal⟩ | ⟨v', h'', -, hok, htaken⟩ := allocate_cases size kind w h
  · cases hfatal.symm.trans hrun
  · cases htaken.symm.trans hrun
    exact hok

theorem allocate_ends (hwf : h.WellFormed) (size : Nat) (kind : BlockKind) :
    (allocate size kind).Ends w h
      (fun v h' => Gained h h' v size ∧ h.next + size + 16 ≤ h'.next ∧
        (∀ n, Memory.ZeroOn h'.memory v.toNat n) ∧ (kind = .pointers → h'.PointersAt v))
      (fun _ => False) := by
  unfold Ends
  obtain ⟨e, hfatal⟩ | ⟨v, h', hle, hok, htaken⟩ := allocate_cases size kind w h
  · rw [hfatal]
    trivial
  · rw [htaken]
    obtain ⟨hhanded, hnext, howned⟩ := Heap.allocate_ok hwf hok
    obtain ⟨hroom, hleast⟩ := Heap.le_room hle
    obtain ⟨howned, hpointed⟩ := howned hleast
    refine ⟨⟨hhanded.wellFormed, hhanded.blocks, hhanded.fresh, hhanded.address, hhanded.next,
      hhanded.same, howned.mono (by omega)⟩, ?_, hhanded.zero, hpointed⟩
    omega

theorem newValue_ends (hwf : h.WellFormed) (size : Nat) (kind : BlockKind) (t : TypeId) :
    (newValue size kind t).Ends w h
      (fun v h' => Gained h h' v size ∧ h'.memory.typeOf v = t ∧
        (∀ a n, v.toNat + 8 ≤ a → Memory.ZeroOn h'.memory a n) ∧ (kind = .pointers → h'.PointersAt v))
      (fun _ => False) := by
  unfold newValue
  refine (allocate_ends hwf size kind).bind (fun _ => id) fun v h' hv => ?_
  obtain ⟨hgained, -, hzero, hpointed⟩ := hv
  refine Ends.change_bind (Ends.pure ?_)
  have hchange := Memory.changesOnly_setType h'.memory v t
  refine ⟨hgained.change le_rfl hchange, Memory.typeOf_setType_same _ _ _, fun a n ha => ?_, hpointed⟩
  have hfar : Memory.ZeroOn h'.memory a n := (hzero (a + n)).mono (by omega) (by omega)
  exact hfar.same (hchange.sameOn (Or.inr ha))

end Action

/-! What an operation keeps of a sound heap. -/

/-- A sound heap that follows on another one: its values are the old ones and those in all blocks that
it has more, slots stay of their types, and fields stay where they are. -/
structure Kept (r : Registry) (held : Addr → TypeId → Prop) (h : Heap) (values : Set Addr) (h' : Heap)
    (values' : Set Addr) : Prop where
  sound : Sound r held ∅ h' values'
  blocks : h.Extends h'
  grown : values' = values ∪ h.fresh h'
  goesOn : GoesOn r values h.memory values' h'.memory
  holds : ∀ b o t, Holds r values h.memory b o t → Holds r values' h'.memory b o t

namespace Kept

variable {r : Registry} {held : Addr → TypeId → Prop} {values values' values'' : Set Addr}
  {h h' h'' : Heap} {v : Addr} {n : Nat}

theorem refl (hs : Sound r held ∅ h values) : Kept r held h values h values := by
  refine ⟨hs, .refl h, ?_, .refl r values h.memory, fun _ _ _ hb => hb⟩
  rw [Heap.fresh_self, Set.union_empty]

theorem trans (hk : Kept r held h values h' values') (hk' : Kept r held h' values' h'' values'') :
    Kept r held h values h'' values'' := by
  refine ⟨hk'.sound, hk.blocks.trans hk'.blocks, ?_, hk.goesOn.trans hk'.goesOn, ?_⟩
  · rw [hk'.grown, hk.grown, Heap.fresh_trans hk.blocks hk'.blocks, Set.union_assoc]
  · intro b o t hb
    exact hk'.holds b o t (hk.holds b o t hb)

theorem of_memory {m : Memory} (hs' : Sound r held ∅ { h with memory := m } values)
    (hsame : ∀ x ∈ values, SameValue r h.memory m x) :
    Kept r held h values { h with memory := m } values := by
  refine ⟨hs', .refl h, ?_, goesOn_of_sameValue hsame, fun b o t hb => hb.same hsame⟩
  change values = values ∪ h.fresh h
  rw [Heap.fresh_self, Set.union_empty]

theorem of_sameValue (hs' : Sound r held ∅ h' (insert v values)) (hext : h.Extends h')
    (hfresh : h.fresh h' = {v}) (hsame : ∀ x ∈ values, SameValue r h.memory h'.memory x) :
    Kept r held h values h' (insert v values) := by
  refine ⟨hs', hext, ?_, ?_, ?_⟩
  · rw [hfresh, Set.union_comm]
    rfl
  · exact (goesOn_of_sameValue hsame).trans (goesOn_insert h'.memory)
  · intro b o t hb
    exact (hb.same hsame).mono (Set.subset_insert v values)

theorem of_gained (hs : Sound r held ∅ h values) (hg : Gained h h' v n)
    (hs' : Sound r held ∅ h' (insert v values)) : Kept r held h values h' (insert v values) :=
  .of_sameValue hs' hg.blocks hg.fresh fun _ hx => (hs.arranged.same_of_below hg.same hx).1

end Kept

namespace Action

variable {α β : Type} {w : World} {held : Addr → TypeId → Prop} {h : Heap} {values : Set Addr}
  {post : α → Heap → Set Addr → Prop} {next : β → Heap → Set Addr → Prop}

/-- An operation keeps a heap sound, however it ends, and ends well with what is promised. -/
def Keeps (held : Addr → TypeId → Prop) (x : Action α) (w : World) (h : Heap) (values : Set Addr)
    (post : α → Heap → Set Addr → Prop) : Prop :=
  x.Ends w h
    (fun a h' => ∃ values', Kept w.registry held h values h' values' ∧ post a h' values')
    (fun h' => ∃ values', Kept w.registry held h values h' values')

namespace Keeps

theorem bind {x : Action α} {f : α → Action β} (hx : Keeps held x w h values post)
    (hf : ∀ a h' values', Kept w.registry held h values h' values' → post a h' values' →
      Keeps held (f a) w h' values' next) : Keeps held (x >>= f) w h values next := by
  refine Ends.bind hx (fun _ => id) ?_
  rintro a h' ⟨values', hkept, hpost⟩
  refine (hf a h' values' hkept hpost).imp ?_ ?_
  · rintro b h'' ⟨values'', hkept', hnext⟩
    exact ⟨values'', hkept.trans hkept', hnext⟩
  · rintro h'' ⟨values'', hkept'⟩
    exact ⟨values'', hkept.trans hkept'⟩

theorem imp {x : Action α} {post' : α → Heap → Set Addr → Prop} (hx : Keeps held x w h values post)
    (himp : ∀ a h' values', Kept w.registry held h values h' values' → post a h' values' →
      post' a h' values') : Keeps held x w h values post' := by
  refine Ends.imp hx ?_ (fun _ => id)
  rintro a h' ⟨values', hkept, hpost⟩
  exact ⟨values', hkept, himp a h' values' hkept hpost⟩

theorem pure {a : α} (hs : Sound w.registry held ∅ h values) (hpost : post a h values) :
    Keeps held (Pure.pure a) w h values post :=
  Ends.pure ⟨values, .refl hs, hpost⟩

theorem fail {e : ValueError} (hs : Sound w.registry held ∅ h values) :
    Keeps held (Action.fail e : Action α) w h values post :=
  Ends.fail ⟨values, .refl hs⟩

theorem guard {ok : Bool} {a : α} {e : ValueError} (hs : Sound w.registry held ∅ h values)
    (hpost : ok = true → post a h values) :
    Keeps held (if ok = true then Pure.pure a else Action.fail e) w h values post :=
  Ends.guard (fun hok => ⟨values, .refl hs, hpost hok⟩) ⟨values, .refl hs⟩

theorem ask_bind {q : World → Memory → Reading α} {f : α → Action β}
    (hs : Sound w.registry held ∅ h values)
    (hf : ∀ a, q w h.memory = .ok a → Keeps held (f a) w h values next) :
    Keeps held (Action.ask q >>= f) w h values next :=
  Ends.ask_bind ⟨values, .refl hs⟩ hf

theorem look_bind {view : Memory → α} {f : α → Action β}
    (hf : Keeps held (f (view h.memory)) w h values next) :
    Keeps held (Action.look view >>= f) w h values next := Ends.look_bind hf

theorem world_bind {f : World → Action β} (hf : Keeps held (f w) w h values next) :
    Keeps held (Action.world >>= f) w h values next := Ends.world_bind hf

theorem chainBound_bind {f : Nat → Action β} (hf : Keeps held (f (h.blocks.size + 1)) w h values next) :
    Keeps held (Action.chainBound >>= f) w h values next := Ends.chainBound_bind hf

end Keeps

end Action

end ObjectModel
