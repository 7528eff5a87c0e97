import ObjectModel.Proofs.Value.Chains

/-!
Views are transparent for reads. Whether a name is read through a view or from the value that the view
shows, the same comes out: a path leads to the place where the value stores the field, or to its method,
and any other name is passed on to the value. What a field holds is read with the type that the view
declares in place of the type that is stored, which is the same.
-/

set_option autoImplicit false
set_option relaxedAutoImplicit false

namespace ObjectModel

variable {r : Registry} {held : Addr → TypeId → Prop} {values : Set Addr} {h : Heap} {u x : Addr}
  {w : World} {hash : NameHash} {k : Kind} {s : Slot} {source source' target t : TypeId}

theorem Registry.sameType_congr (hsame : r.sameType source source' = true) (target : TypeId) :
    r.sameType source target = r.sameType source' target := by
  rw [Bool.eq_iff_iff]
  constructor
  · exact Registry.sameType_trans (Registry.sameType_symm hsame)
  · exact Registry.sameType_trans hsame

theorem Registry.sameType_congr_right (hsame : r.sameType target t = true) (source : TypeId) :
    r.sameType source target = r.sameType source t := by
  rw [Registry.sameType_comm, Registry.sameType_congr hsame, Registry.sameType_comm]

namespace Action

variable {α β : Type}

theorem bind_eq_ok {x : Action α} {f : α → Action β} {b : β} {h' : Heap} :
    (x >>= f) w h = (.ok b, h') ↔ ∃ a h₁, x w h = (.ok a, h₁) ∧ f a w h₁ = (.ok b, h') := by
  cases hx : x w h with
  | mk result h₁ =>
    cases result with
    | ok a =>
      rw [bind_ok hx]
      constructor
      · exact fun hf => ⟨a, h₁, rfl, hf⟩
      · rintro ⟨_, _, heq, hf⟩
        cases heq
        exact hf
    | error e =>
      rw [bind_error hx]
      constructor
      · intro heq
        cases heq
      · rintro ⟨_, _, heq, -⟩
        cases heq

theorem bind_congr {x y : Action α} {f : α → Action β} (hxy : x w h = y w h) :
    (x >>= f) w h = (y >>= f) w h := by
  cases hy : y w h with
  | mk result h' =>
    cases result with
    | ok a => rw [bind_ok (hxy.trans hy), bind_ok hy]
    | error e => rw [bind_error (hxy.trans hy), bind_error hy]

theorem ask_eq_ok {q : World → Memory → Reading α} {a : α} {h' : Heap} :
    ask q w h = (.ok a, h') ↔ q w h.memory = .ok a ∧ h' = h := by
  unfold ask
  split
  · rename_i a' hq
    rw [hq, Prod.mk.injEq, Except.ok.injEq, Except.ok.injEq, eq_comm (a := h)]
  · rename_i e hq
    rw [hq]
    constructor
    · intro heq
      cases heq
    · rintro ⟨heq, -⟩
      cases heq

theorem ask_bind_eq_ok {q : World → Memory → Reading α} {f : α → Action β} {b : β} {h' : Heap} :
    (ask q >>= f) w h = (.ok b, h') ↔ ∃ a, q w h.memory = .ok a ∧ f a w h = (.ok b, h') := by
  rw [bind_eq_ok]
  constructor
  · rintro ⟨a, h₁, hask, hf⟩
    obtain ⟨ha, rfl⟩ := ask_eq_ok.1 hask
    exact ⟨a, ha, hf⟩
  · rintro ⟨a, ha, hf⟩
    exact ⟨a, h, ask_ok ha, hf⟩

theorem eq_of_fst {x : Action α} {a : α} (hx : (x w h).1 = .ok a) : x w h = (.ok a, (x w h).2) :=
  Prod.ext hx rfl

/-- Two operations give the same, or neither gives anything. They may leave different heaps. Irreducible, as
else goals about an operation would run it. -/
@[irreducible]
def Agree (x y : Action α) (w : World) (h : Heap) : Prop :=
  ∀ a, (∃ h', x w h = (.ok a, h')) ↔ ∃ h', y w h = (.ok a, h')

namespace Agree

variable {x y : Action α} {f g : α → Action β}

theorem iff (hxy : x.Agree y w h) (a : α) :
    (∃ h', x w h = (.ok a, h')) ↔ ∃ h', y w h = (.ok a, h') := by
  unfold Agree at hxy
  exact hxy a

theorem refl (x : Action α) (w : World) (h : Heap) : x.Agree x w h := by
  unfold Agree
  exact fun _ => Iff.rfl

theorem symm (hxy : x.Agree y w h) : y.Agree x w h := by
  unfold Agree at hxy ⊢
  exact fun a => (hxy a).symm

theorem congr {x' y' : Action α} (hxy : x'.Agree y' w h) (hx : x w h = x' w h) (hy : y w h = y' w h) :
    x.Agree y w h := by
  unfold Agree at hxy ⊢
  rw [hx, hy]
  exact hxy

theorem fail (e e' : ValueError) : (Action.fail e : Action α).Agree (.fail e') w h := by
  unfold Agree
  intro a
  constructor
  · rintro ⟨_, heq⟩
    cases heq
  · rintro ⟨_, heq⟩
    cases heq

theorem world_bind {f g : World → Action β} (hfg : (f w).Agree (g w) w h) :
    (world >>= f).Agree (world >>= g) w h :=
  hfg.congr Action.world_bind Action.world_bind

theorem ask_ok_bind {γ : Type} {q : World → Memory → Reading α} {q' : World → Memory → Reading γ}
    {g : γ → Action β} {a : α} {c : γ} (hq : q w h.memory = .ok a) (hq' : q' w h.memory = .ok c)
    (hfg : (f a).Agree (g c) w h) : (ask q >>= f).Agree (ask q' >>= g) w h :=
  hfg.congr (ask_bind_ok hq) (ask_bind_ok hq')

theorem ask_bind {q q' : World → Memory → Reading α}
    (hq : ∀ a, q w h.memory = .ok a ↔ q' w h.memory = .ok a)
    (hfg : ∀ a, q w h.memory = .ok a → (f a).Agree (g a) w h) : (ask q >>= f).Agree (ask q' >>= g) w h := by
  cases hrun : q w h.memory with
  | ok a => exact ask_ok_bind hrun ((hq a).1 hrun) (hfg a hrun)
  | error e =>
    cases hrun' : q' w h.memory with
    | ok a => exact absurd ((hq a).2 hrun') (by simp [hrun])
    | error e' => exact (fail e e').congr (bind_error (ask_error hrun)) (bind_error (ask_error hrun'))

private theorem bind_imp {v : α → β} (hxy : x.Agree y w h) (hf : ∀ a h', ∃ h'', f a w h' = (.ok (v a), h''))
    (hg : ∀ a h', ∃ h'', g a w h' = (.ok (v a), h'')) {b : β} (hx : ∃ h', (x >>= f) w h = (.ok b, h')) :
    ∃ h', (y >>= g) w h = (.ok b, h') := by
  obtain ⟨h', hrun⟩ := hx
  obtain ⟨a, h₁, hx, hrest⟩ := bind_eq_ok.1 hrun
  obtain ⟨h₂, hfirst⟩ := hf a h₁
  obtain ⟨h₃, hy⟩ := (hxy.iff a).1 ⟨h₁, hx⟩
  obtain ⟨h₄, hlast⟩ := hg a h₃
  obtain rfl : v a = b := Except.ok.inj (congrArg Prod.fst (hfirst.symm.trans hrest))
  exact ⟨h₄, (bind_ok hy).trans hlast⟩

theorem bind (v : α → β) (hxy : x.Agree y w h) (hf : ∀ a h', ∃ h'', f a w h' = (.ok (v a), h''))
    (hg : ∀ a h', ∃ h'', g a w h' = (.ok (v a), h'')) : (x >>= f).Agree (y >>= g) w h := by
  unfold Agree
  exact fun _ => ⟨bind_imp hxy hf hg, bind_imp hxy.symm hg hf⟩

theorem map (v : α → β) (hxy : x.Agree y w h) :
    (x >>= fun a => Pure.pure (v a)).Agree (y >>= fun a => Pure.pure (v a)) w h :=
  .bind v hxy (fun _ h' => ⟨h', rfl⟩) fun _ h' => ⟨h', rfl⟩

theorem guard {p p' : Prop} [Decidable p] [Decidable p'] (hp : p ↔ p') (a : α) (e e' : ValueError) :
    (if p then Pure.pure a else Action.fail e).Agree (if p' then Pure.pure a else .fail e') w h := by
  by_cases hyes : p
  · rw [if_pos hyes, if_pos (hp.1 hyes)]
    exact refl _ w h
  · rw [if_neg hyes, if_neg fun hyes' => hyes (hp.2 hyes')]
    exact fail e e'

end Agree

variable {a : Addr}

theorem newBox_agree (hk : w.registry.kind? source = some k) (hk' : w.registry.kind? source' = some k) :
    (newBox source).Agree (newBox source') w h :=
  .ask_ok_bind (World.kind_eq_ok.2 hk) (World.kind_eq_ok.2 hk') <|
    .bind id (.refl _ w h) (fun _ _ => ⟨_, rfl⟩) fun _ _ => ⟨_, rfl⟩

theorem toDynamic_agree (hk : w.registry.kind? source = some k) (hk' : w.registry.kind? source' = some k) :
    (toDynamic s source).Agree (toDynamic s source') w h := by
  have hfill : (toDynamic.fill s source).Agree (toDynamic.fill s source') w h :=
    .bind id (newBox_agree hk hk') (fun _ _ => ⟨_, rfl⟩) fun _ _ => ⟨_, rfl⟩
  unfold toDynamic
  refine .ask_ok_bind (World.kind_eq_ok.2 hk) (World.kind_eq_ok.2 hk') ?_
  by_cases hfits : s.fits k = true
  · rw [if_pos hfits, if_pos hfits]
    cases s with
    | void => exact .refl _ w h
    | pointer a =>
      by_cases hpass : a = 0 ∨ k.isSelfDescribing = true
      · simp only [if_pos hpass]
        exact .refl _ w h
      · simp only [if_neg hpass]
        exact hfill
    | _ => exact hfill
  · rw [if_neg hfits, if_neg hfits]
    exact .fail _ _

theorem boxAs_agree : (boxAs s source target).Agree (boxAs s source' target) w h := by
  unfold boxAs
  refine .ask_bind (fun _ => Iff.rfl) fun d _ => ?_
  cases d with
  | null inner =>
    refine .world_bind ?_
    dsimp only
    split
    · exact .refl _ w h
    · exact .fail _ _
  | _ => exact .fail _ _

theorem castActual_agree (hk : w.registry.kind? source = some k) (hraw : k.isRaw = true)
    (hsame : w.registry.sameType source source' = true) (targetKind : Kind) :
    (castActual a source target targetKind).Agree (castActual a source' target targetKind) w h := by
  have hk' : w.registry.kind? source' = some k := Registry.kind?_eq_of_sameType hsame ▸ hk
  have hpass : (if w.registry.sameType source target = true then Pure.pure a
      else fail (.invalidCast source target)).Agree
        (if w.registry.sameType source' target = true then Pure.pure a
          else fail (.invalidCast source' target)) w h :=
    .guard (by rw [Registry.sameType_congr hsame]) a _ _
  unfold castActual
  refine .world_bind (.ask_ok_bind (World.kind_eq_ok.2 hk) (World.kind_eq_ok.2 hk') ?_)
  dsimp only
  cases targetKind with
  | object =>
    have hobject : k ≠ .object := by
      rintro rfl
      cases hraw
    exact .guard (by simp [hobject]) a _ _
  | virtual =>
    have hmembers : ¬(k = .object ∨ k = .dynobj ∨ k = .virtual) := by
      rintro (rfl | rfl | rfl) <;> cases hraw
    rw [if_neg hmembers, if_neg hmembers]
    exact .fail _ _
  | null =>
    have hnumeric : k.isNumeric ≠ true := by
      intro hnumeric
      simp [Kind.isRaw, Kind.isPointer, hnumeric] at hraw
    rw [if_neg hnumeric, if_neg hnumeric]
    exact hpass
  | array => exact .guard Iff.rfl a _ _
  | _ => exact hpass

theorem castPointer_agree (hk : w.registry.kind? source = some k) (hfits : s.fits k = true)
    (hsame : w.registry.sameType source source' = true) :
    (castPointer s source target).Agree (castPointer s source' target) w h := by
  have hk' : w.registry.kind? source' = some k := Registry.kind?_eq_of_sameType hsame ▸ hk
  unfold castPointer
  refine .ask_ok_bind (World.kind_eq_ok.2 hk) (World.kind_eq_ok.2 hk') ?_
  refine .ask_bind (fun _ => Iff.rfl) fun l _ => ?_
  cases s with
  | void => exact .refl _ w h
  | pointer a =>
    refine .world_bind ?_
    rw [Registry.sameType_congr hsame]
    by_cases hpass : a = 0 ∨ w.registry.sameType source' target = true
    · rw [if_pos hpass, if_pos hpass]
      exact .refl _ w h
    rw [if_neg hpass, if_neg hpass]
    by_cases hdynamic : l = .dynamic
    · rw [if_pos hdynamic, if_pos hdynamic]
      by_cases hself : k.isSelfDescribing = true
      · rw [if_pos hself, if_pos hself]
        exact .refl _ w h
      · rw [if_neg hself, if_neg hself]
        exact toDynamic_agree hk hk'
    rw [if_neg hdynamic, if_neg hdynamic]
    by_cases hself : k.isSelfDescribing = true
    · -- The type is read from the value, whatever it was taken for.
      have hactual : Coercion.actual w h.memory a source k = Coercion.actual w h.memory a source' k := by
        unfold Coercion.actual
        rw [if_pos hself, if_pos hself]
      exact .ask_bind (fun _ => by rw [hactual]) fun _ _ => .refl _ w h
    · have hactual (t : TypeId) : Coercion.actual w h.memory a t k = .ok (a, t) := by
        unfold Coercion.actual
        rw [if_neg hself]
        rfl
      have hraw : k.isRaw = true := by
        have hpointer : k.isPointer = true := hfits
        simp [Kind.isRaw, hpointer, hself]
      exact .ask_ok_bind (hactual source) (hactual source') (castActual_agree hk hraw hsame l)
  | _ =>
    cases l with
    | dynamic => exact toDynamic_agree hk hk'
    | null => exact boxAs_agree
    | _ => exact .fail _ _

theorem number_congr {m : Memory} {n : Number} (hk : w.registry.kind? source = some k)
    (hk' : w.registry.kind? source' = some k) (hn : Coercion.number w m s source target = .ok n) :
    Coercion.number w m s source' target = .ok n := by
  unfold Coercion.number at hn ⊢
  rw [World.kind_eq_ok.2 hk] at hn
  rw [World.kind_eq_ok.2 hk']
  cases hnumber : Number.ofSlot? s with
  | some n' =>
    simp only [hnumber, bind, Except.bind] at hn ⊢
    split_ifs at hn ⊢ with hnumeric
    exact hn
  | none =>
    simp only [hnumber, bind, Except.bind] at hn ⊢
    cases s with
    | pointer a =>
      dsimp only at hn ⊢
      by_cases hboxed : k = .dynamic ∨ k = .null
      · rw [if_pos hboxed] at hn ⊢
        exact hn
      · rw [if_neg hboxed] at hn
        cases hn
    | void => cases hn
    | _ => cases hnumber

/-- A slot is converted alike from two types that are the same. -/
theorem convert_agree (hk : w.registry.kind? source = some k) (hfits : s.fits k = true)
    (hsame : w.registry.sameType source source' = true) :
    (convert s source target).Agree (convert s source' target) w h := by
  have hk' : w.registry.kind? source' = some k := Registry.kind?_eq_of_sameType hsame ▸ hk
  unfold convert
  refine .ask_bind (fun _ => Iff.rfl) fun l _ => ?_
  by_cases hvoid : l = .void
  · rw [if_pos hvoid, if_pos hvoid]
    exact .refl _ w h
  rw [if_neg hvoid, if_neg hvoid]
  by_cases hnumeric : l.isNumeric = true
  · rw [if_pos hnumeric, if_pos hnumeric]
    refine .ask_bind (fun n => ⟨number_congr hk hk', number_congr hk' hk⟩) fun n _ => ?_
    split
    · exact .refl _ w h
    · exact .fail _ _
  · rw [if_neg hnumeric, if_neg hnumeric]
    exact .map Slot.pointer (castPointer_agree hk hfits hsame)

theorem getFrom_root (hs : Arranged w.registry ∅ h values) (hu : u ∈ values)
    (hroot : IsRoot w.registry h.memory u) (bound bound' : Nat) :
    getFrom hash t bound u w h = getFrom hash t bound' u w h := by
  rw [getFrom.eq_def, getFrom.eq_def hash t bound']
  dsimp only
  cases hlocated : Access.locate w h.memory u hash with
  | error e => rw [bind_error (ask_error hlocated), bind_error (ask_error hlocated)]
  | ok target =>
    rw [ask_bind_ok hlocated, ask_bind_ok hlocated]
    rcases Access.locate_root hs hu hroot hlocated with ⟨offset, t, -, rfl⟩ | ⟨function, t, rfl⟩
    · rfl
    · rfl

theorem getFrom_view (hs : Arranged w.registry ∅ h values) (hx : x ∈ values)
    (hk : w.registry.kindAt h.memory x = some .virtual) (hshown : View.wrapped h.memory x ≠ 0) (bound : Nat) :
    (getFrom hash t (bound + 1) x).Agree (getFrom hash t (bound + 1) (View.wrapped h.memory x)) w h := by
  obtain ⟨l, -, hat⟩ := hs.views x hx hk
  obtain ⟨hu, hroot, -⟩ := hat.shown hshown
  obtain ⟨target, hlocated, hmirrors⟩ := Access.locate_mirrors hs hx hk hshown hash
  cases hmirrors with
  | @stored a type declared hfound hsame =>
    rw [getFrom.eq_def, getFrom.eq_def hash t (bound + 1) (View.wrapped h.memory x)]
    refine .ask_ok_bind hlocated hfound (.ask_bind (fun _ => Iff.rfl) fun _ _ => ?_)
    have hkinds (k : Kind) : w.kind declared = .ok k ↔ w.kind type = .ok k := by
      rw [World.kind_eq_ok, World.kind_eq_ok, Registry.kind?_eq_of_sameType hsame]
    -- The same bytes are read, as slots of one kind; only the type that is named differs.
    refine .ask_bind hkinds fun k hk => ?_
    refine (convert_agree (World.kind_eq_ok.1 hk) ?_ (Registry.sameType_symm hsame)).congr look_bind look_bind
    exact Slot.fits_ofWord _ _
  | method hfound =>
    rw [getFrom.eq_def, getFrom.eq_def hash t (bound + 1) (View.wrapped h.memory x)]
    exact .ask_ok_bind hlocated hfound (.refl _ w h)
  | forward =>
    have hsame := Agree.refl (getFrom hash t bound (View.wrapped h.memory x)) w h
    refine hsame.congr ?_ (getFrom_root hs hu hroot _ _)
    rw [getFrom.eq_def]
    dsimp only
    rw [ask_bind_ok hlocated]

end Action

/-- A read through a view gives what the same read from the value gives that the view shows: it succeeds
exactly if the other one does, and with the same slot. -/
theorem Reachable.view_reads (hb : r.Built) (hr : Reachable r held h values) (hw : w.registry = r)
    (hx : x ∈ values) (hu : View.value w h.memory x = .ok u) (hne : u ≠ 0) (hash : NameHash) (t : TypeId)
    (s : Slot) :
    (∃ h', Action.get x hash t w h = (.ok s, h')) ↔ ∃ h', Action.get u hash t w h = (.ok s, h') := by
  subst hw
  unfold View.value at hu
  obtain ⟨k, hk, hu⟩ := Outcome.bind_eq_ok.1 hu
  split_ifs at hu with hvirtual
  obtain rfl := Outcome.pure_eq_ok.1 hu
  have hkind : w.registry.kindAt h.memory x = some .virtual :=
    hvirtual ▸ World.kind_eq_ok.1 hk
  exact (Action.getFrom_view (hr.sound hb).arranged hx hkind hne h.blocks.size).iff s

/-- A field that the view reaches directly, and one that it looks up by name, are read as from the open
object. -/
theorem viewedHeap_reads :
    (∃ h', Action.get 0x100E0 (Name.hash "flag") .bool (.ofTypes .paddedTypes) viewedHeap =
      (.ok (.bool true), h')) ∧
    ∃ h', Action.get 0x100E0 (Name.hash "any") .i32 (.ofTypes .paddedTypes) viewedHeap =
      (.ok (.i32 5), h') := by
  obtain ⟨values, hr, -, hx⟩ := viewedHeap_reachable
  have hb : Registry.paddedTypes.Built := Registry.paddedTypes_built
  have hu : View.value (.ofTypes .paddedTypes) viewedHeap.memory 0x100E0 = .ok 0x10010 := by decide +kernel
  constructor
  · exact (hr.view_reads hb rfl hx hu (by decide) _ _ _).2 ⟨_, Prod.ext (by decide +kernel) rfl⟩
  · exact (hr.view_reads hb rfl hx hu (by decide) _ _ _).2 ⟨_, Prod.ext (by decide +kernel) rfl⟩

end ObjectModel
