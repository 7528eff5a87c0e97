import ObjectModel.Proofs.Value.Conversions
import ObjectModel.Proofs.Value.Transparency

/-!
Operations in step. Two operations that run from one heap are compared by what they give and by the heaps
that they leave, operation by operation. So a slot is cast alike to two types that are the same: to the same
slot, with the same blocks taken and the same bytes written, but for the types in front of the values that
are new, which are the same too. Only where a view has to be made may one of the casts fail and the other one
not, as types that are the same may differ in having a layout.
-/

set_option autoImplicit false
set_option relaxedAutoImplicit false

namespace ObjectModel

variable {r : Registry} {held : Addr → TypeId → Prop} {values : Set Addr} {h h₁ h₂ : Heap} {u v a : Addr}
  {w : World} {s : Slot} {source t t' : TypeId} {k : Kind} {p : Prop}

/-- Two heaps that follow on one heap and differ in nothing but in the types of the values that are new in
them. Of each of these the two types are the same. -/
structure Matched (r : Registry) (h h₁ h₂ : Heap) : Prop where
  rest : { h₁ with memory := h₂.memory } = h₂
  above : ∀ v ∈ h.fresh h₁, h.next ≤ v.toNat
  types : ∀ v ∈ h.fresh h₁, r.sameType (h₁.memory.typeOf v) (h₂.memory.typeOf v) = true
  bytes : ∀ x, (∀ v ∈ h.fresh h₁, x < v.toNat ∨ v.toNat + 8 ≤ x) → h₁.memory.byte x = h₂.memory.byte x

namespace Matched

theorem refl (hgrown : ∀ v ∈ h.fresh h₁, h.next ≤ v.toNat) : Matched r h h₁ h₁ :=
  ⟨rfl, hgrown, fun _ _ => Registry.sameType_refl _ _, fun _ _ => rfl⟩

theorem self (r : Registry) (h : Heap) : Matched r h h h :=
  .refl fun v hv => absurd hv (h.notMem_fresh_self v)

theorem old (hm : Matched r h h₁ h₂) {x : Nat} (hx : x < h.next) :
    h₁.memory.byte x = h₂.memory.byte x :=
  hm.bytes x fun v hv => Or.inl (hx.trans_le (hm.above v hv))

theorem store (hm : Matched r h h₁ h₂) {b width : Nat}
    (hout : ∀ v ∈ h.fresh h₁, b + width ≤ v.toNat ∨ v.toNat + 8 ≤ b) (word : Nat) :
    Matched r h { h₁ with memory := h₁.memory.store b width word }
      { h₂ with memory := h₂.memory.store b width word } := by
  have hkeep (m : Memory) {v : Addr} (hv : v ∈ h.fresh h₁) :
      (m.store b width word).typeOf v = m.typeOf v :=
    ((Memory.changesOnly_store m b width word).sameOn (hout v hv).symm).typeOf
  refine ⟨?_, hm.above, fun v hv => ?_, fun x hx => ?_⟩
  · rw [← hm.rest]
  · change r.sameType ((h₁.memory.store b width word).typeOf v) ((h₂.memory.store b width word).typeOf v) = true
    rw [hkeep h₁.memory hv, hkeep h₂.memory hv]
    exact hm.types v hv
  · change (h₁.memory.store b width word).byte x = (h₂.memory.store b width word).byte x
    rw [Memory.byte_store, Memory.byte_store, hm.bytes x hx]

theorem setWord (hm : Matched r h h₁ h₂) {b : Nat}
    (hout : ∀ v ∈ h.fresh h₁, b + 8 ≤ v.toNat ∨ v.toNat + 8 ≤ b) (word : UInt64) :
    Matched r h { h₁ with memory := h₁.memory.setWord b word } { h₂ with memory := h₂.memory.setWord b word } :=
  hm.store hout word.toNat

theorem writePaths (hm : Matched r h h₁ h₂) {b : Nat} (hout : ∀ v ∈ h.fresh h₁, v.toNat + 8 ≤ b)
    (paths : List Path) :
    Matched r h { h₁ with memory := View.writePaths h₁.memory b paths }
      { h₂ with memory := View.writePaths h₂.memory b paths } := by
  induction paths generalizing h₁ h₂ b with
  | nil => exact hm
  | cons path rest ih =>
    have hfirst := hm.setWord (fun v hv => Or.inr (hout v hv)) path.toWord
    exact ih hfirst fun v hv => (hout v hv).trans (Nat.le_add_right _ _)

end Matched

/-! Of types that are the same the views have the same paths. -/

/-- Both types have a layout as virtual types, or neither has one. -/
def Registry.LaidOutAlike (r : Registry) (t t' : TypeId) : Prop :=
  (∃ l, r.viewLayout t = .ok l) ↔ ∃ l, r.viewLayout t' = .ok l

theorem Registry.viewLayout_alike {l l' : ViewLayout} (hsame : r.sameType t t' = true)
    (hl : r.viewLayout t = .ok l) (hl' : r.viewLayout t' = .ok l') :
    List.Forall₂ (fun f g => f.hash = g.hash ∧ r.sameType f.type g.type = true) l.fields.values
      l'.fields.values := by
  obtain ⟨d, hd, halike⟩ := alike_of_sameType hsame (viewLayout_ok hl).1
  obtain rfl : d = .virtual l'.fields.values := Option.some.inj (hd.symm.trans (viewLayout_ok hl').1)
  exact halike

namespace View

theorem findInChain_congr (hsame : r.sameType t t' = true) (m : Memory) (bound : Nat) (head : Addr) :
    findInChain r m t bound head = findInChain r m t' bound head := by
  have hhere := Registry.sameType_congr_right hsame
  induction bound generalizing head with
  | zero =>
    rw [findInChain.eq_def, findInChain.eq_def r m t']
    simp only [hhere]
  | succ bound ih =>
    rw [findInChain.eq_def, findInChain.eq_def r m t']
    simp only [hhere, ih]

theorem require_congr {path? : Field → Option Path} {fs gs : List Field} {paths : List Path}
    (hall : List.Forall₂ (fun f g => path? f = path? g) fs gs) :
    require path? fs = .ok paths ↔ require path? gs = .ok paths := by
  induction hall generalizing paths with
  | nil => rfl
  | @cons f g fs gs hfg _ ih =>
    rw [require, require, hfg]
    cases path? g with
    | none => simp
    | some first => simp only [Outcome.map_eq_ok, ih]

theorem paths_congr {l l' : ViewLayout} {m : Memory} {paths : List Path}
    (hfields : List.Forall₂ (fun f g => f.hash = g.hash ∧ w.registry.sameType f.type g.type = true)
      l.fields.values l'.fields.values) :
    View.paths w m l u = .ok paths ↔ View.paths w m l' u = .ok paths := by
  have hstored {f g : Field} (hsame : w.registry.sameType f.type g.type = true) (offset : Nat)
      (stored : TypeId) : storedPath w.registry f.type offset stored = storedPath w.registry g.type offset stored := by
    rw [storedPath, storedPath, Registry.sameType_congr_right hsame]
  unfold View.paths
  dsimp only
  cases w.kind (m.typeOf u) with
  | error e => rfl
  | ok k =>
    cases k with
    | object =>
      cases w.registry.classLayout (m.typeOf u) with
      | error e => rfl
      | ok c =>
        refine require_congr (hfields.imp fun f g hfg => ?_)
        have hbound (t : TypeId) : (w.registry.closureType? t).any (w.registry.sameType · f.type) =
            (w.registry.closureType? t).any (w.registry.sameType · g.type) := by
          simp only [Registry.sameType_congr_right hfg.2]
        simp only [instancePath?, hfg.1, hstored hfg.2, hbound]
    | dynobj =>
      refine require_congr (hfields.imp fun f g hfg => ?_)
      simp only [openPath?, hfg.1, hstored hfg.2]
    | virtual =>
      cases w.registry.viewLayout (m.typeOf u) with
      | error e => rfl
      | ok source =>
        refine require_congr (hfields.imp fun f g hfg => ?_)
        simp only [standalonePath?, hfg.1, hstored hfg.2]
    | _ => exact ⟨nofun, nofun⟩

end View

namespace Action

variable {α β γ : Type}

/-- Two operations, each from a heap of its own. If both end well they give the same, and `post` holds of it
and of the heaps that they leave. If `p` holds, one of them ends well exactly if the other one does. -/
structure InStep (p : Prop) (x y : Action α) (w : World) (h₁ h₂ : Heap) (post : α → Heap → Heap → Prop) :
    Prop where
  same : ∀ a b h₁' h₂', x w h₁ = (.ok a, h₁') → y w h₂ = (.ok b, h₂') → a = b ∧ post a h₁' h₂'
  ok_iff : p → ((∃ a h', x w h₁ = (.ok a, h')) ↔ ∃ a h', y w h₂ = (.ok a, h'))

namespace InStep

variable {x y : Action α} {f g : α → Action β} {post post' : α → Heap → Heap → Prop}
  {next : β → Heap → Heap → Prop}

theorem congr {x' y' : Action α} (hxy : x'.InStep p y' w h₁ h₂ post) (hx : x w h₁ = x' w h₁)
    (hy : y w h₂ = y' w h₂) : x.InStep p y w h₁ h₂ post := by
  constructor
  · rw [hx, hy]
    exact hxy.same
  · rw [hx, hy]
    exact hxy.ok_iff

theorem refl (hpost : ∀ a h', x w h = (.ok a, h') → post a h' h') : x.InStep p x w h h post := by
  refine ⟨fun a b h₁ h₂ hx hy => ?_, fun _ => Iff.rfl⟩
  obtain ⟨heq, rfl⟩ := Prod.mk.inj (hx.symm.trans hy)
  obtain rfl := Except.ok.inj heq
  exact ⟨rfl, hpost a h₁ hx⟩

theorem pure {a : α} (hpost : post a h₁ h₂) : InStep p (Pure.pure a) (Pure.pure a) w h₁ h₂ post := by
  refine ⟨fun b c h₁' h₂' hx hy => ?_, fun _ => ⟨fun _ => ⟨a, h₂, rfl⟩, fun _ => ⟨a, h₁, rfl⟩⟩⟩
  cases hx
  cases hy
  exact ⟨rfl, hpost⟩

theorem imp (hxy : x.InStep p y w h₁ h₂ post) (hpost : ∀ a h₁' h₂', post a h₁' h₂' → post' a h₁' h₂') :
    x.InStep p y w h₁ h₂ post' := by
  refine ⟨fun a b h₁' h₂' hx hy => ?_, hxy.ok_iff⟩
  obtain ⟨heq, hgood⟩ := hxy.same a b h₁' h₂' hx hy
  exact ⟨heq, hpost a h₁' h₂' hgood⟩

theorem and_ends (hxy : x.InStep p y w h₁ h₂ post) {good : α → Heap → Prop} {bad : Heap → Prop}
    (hx : x.Ends w h₁ good bad) :
    x.InStep p y w h₁ h₂ fun a h₁' h₂' => good a h₁' ∧ post a h₁' h₂' := by
  refine ⟨fun a b h₁' h₂' hok hok' => ?_, hxy.ok_iff⟩
  obtain ⟨heq, hpost⟩ := hxy.same a b h₁' h₂' hok hok'
  exact ⟨heq, hx.of_ok hok, hpost⟩

theorem error {e e' : Fault} {h₁' h₂' : Heap} (hx : x w h₁ = (.error e, h₁')) (hy : y w h₂ = (.error e', h₂')) :
    x.InStep p y w h₁ h₂ post := by
  refine ⟨fun a b h₁ h₂ hok => ?_, fun _ => ⟨?_, ?_⟩⟩
  · rw [hx] at hok
    cases hok
  · rintro ⟨a, h', hok⟩
    rw [hx] at hok
    cases hok
  · rintro ⟨a, h', hok⟩
    rw [hy] at hok
    cases hok

theorem fail (e e' : ValueError) : InStep p (Action.fail e) (Action.fail e') w h₁ h₂ post :=
  error rfl rfl

theorem guard {q q' : Prop} [Decidable q] [Decidable q'] (hq : q ↔ q') {a : α} {e e' : ValueError}
    (hpost : post a h₁ h₂) :
    InStep p (if q then Pure.pure a else Action.fail e) (if q' then Pure.pure a else .fail e') w h₁ h₂ post := by
  by_cases hyes : q
  · rw [if_pos hyes, if_pos (hq.1 hyes)]
    exact pure hpost
  · rw [if_neg hyes, if_neg fun hyes' => hyes (hq.2 hyes')]
    exact fail e e'

theorem bind (hxy : x.InStep p y w h₁ h₂ post)
    (hfg : ∀ a h₁' h₂', post a h₁' h₂' → (f a).InStep p (g a) w h₁' h₂' next) :
    (x >>= f).InStep p (y >>= g) w h₁ h₂ next := by
  refine ⟨fun b c h₁' h₂' hf hg => ?_, fun hp => ⟨?_, ?_⟩⟩
  · obtain ⟨a, k₁, hx, hf⟩ := bind_eq_ok.1 hf
    obtain ⟨a', k₂, hy, hg⟩ := bind_eq_ok.1 hg
    obtain ⟨rfl, hpost⟩ := hxy.same a a' k₁ k₂ hx hy
    exact (hfg a k₁ k₂ hpost).same b c h₁' h₂' hf hg
  · rintro ⟨b, h₁', hf⟩
    obtain ⟨a, k₁, hx, hf⟩ := bind_eq_ok.1 hf
    obtain ⟨a', k₂, hy⟩ := (hxy.ok_iff hp).1 ⟨a, k₁, hx⟩
    obtain ⟨rfl, hpost⟩ := hxy.same a a' k₁ k₂ hx hy
    obtain ⟨c, h₂', hg⟩ := ((hfg a k₁ k₂ hpost).ok_iff hp).1 ⟨b, h₁', hf⟩
    exact ⟨c, h₂', bind_eq_ok.2 ⟨a, k₂, hy, hg⟩⟩
  · rintro ⟨c, h₂', hg⟩
    obtain ⟨a', k₂, hy, hg⟩ := bind_eq_ok.1 hg
    obtain ⟨a, k₁, hx⟩ := (hxy.ok_iff hp).2 ⟨a', k₂, hy⟩
    obtain ⟨rfl, hpost⟩ := hxy.same a a' k₁ k₂ hx hy
    obtain ⟨b, h₁', hf⟩ := ((hfg a k₁ k₂ hpost).ok_iff hp).2 ⟨c, h₂', hg⟩
    exact ⟨b, h₁', bind_eq_ok.2 ⟨a, k₁, hx, hf⟩⟩

theorem ask_bind {q : World → Memory → Reading α} {q' : World → Memory → Reading γ} {g : γ → Action β}
    (hq : p → ((∃ a, q w h₁.memory = .ok a) ↔ ∃ c, q' w h₂.memory = .ok c))
    (hfg : ∀ a c, q w h₁.memory = .ok a → q' w h₂.memory = .ok c → (f a).InStep p (g c) w h₁ h₂ next) :
    (ask q >>= f).InStep p (ask q' >>= g) w h₁ h₂ next := by
  refine ⟨fun b b' h₁' h₂' hx hy => ?_, fun hp => ⟨?_, ?_⟩⟩
  · obtain ⟨a, ha, hf⟩ := ask_bind_eq_ok.1 hx
    obtain ⟨c, hc, hg⟩ := ask_bind_eq_ok.1 hy
    exact (hfg a c ha hc).same b b' h₁' h₂' hf hg
  · rintro ⟨b, h₁', hx⟩
    obtain ⟨a, ha, hf⟩ := ask_bind_eq_ok.1 hx
    obtain ⟨c, hc⟩ := (hq hp).1 ⟨a, ha⟩
    obtain ⟨b', h₂', hg⟩ := ((hfg a c ha hc).ok_iff hp).1 ⟨b, h₁', hf⟩
    exact ⟨b', h₂', ask_bind_eq_ok.2 ⟨c, hc, hg⟩⟩
  · rintro ⟨b', h₂', hy⟩
    obtain ⟨c, hc, hg⟩ := ask_bind_eq_ok.1 hy
    obtain ⟨a, ha⟩ := (hq hp).2 ⟨c, hc⟩
    obtain ⟨b, h₁', hf⟩ := ((hfg a c ha hc).ok_iff hp).2 ⟨b', h₂', hg⟩
    exact ⟨b, h₁', ask_bind_eq_ok.2 ⟨a, ha, hf⟩⟩

theorem ask_same_bind {q q' : World → Memory → Reading α}
    (hq : ∀ a, q w h₁.memory = .ok a ↔ q' w h₂.memory = .ok a)
    (hfg : ∀ a, q w h₁.memory = .ok a → (f a).InStep p (g a) w h₁ h₂ next) :
    (ask q >>= f).InStep p (ask q' >>= g) w h₁ h₂ next := by
  refine ask_bind (fun _ => exists_congr hq) fun a c ha hc => ?_
  obtain rfl := Except.ok.inj (ha.symm.trans ((hq c).2 hc))
  exact hfg a ha

theorem world_bind {f g : World → Action β} (hfg : (f w).InStep p (g w) w h₁ h₂ next) :
    (world >>= f).InStep p (world >>= g) w h₁ h₂ next :=
  hfg.congr rfl rfl

theorem chainBound_bind {f g : Nat → Action β}
    (hfg : (f (h.blocks.size + 1)).InStep p (g (h.blocks.size + 1)) w h h next) :
    (chainBound >>= f).InStep p (chainBound >>= g) w h h next :=
  hfg.congr rfl rfl

theorem look_bind {view : Memory → α} (hfg : (f (view h.memory)).InStep p (g (view h.memory)) w h h next) :
    (look view >>= f).InStep p (look view >>= g) w h h next :=
  hfg.congr rfl rfl

theorem change {c d : Memory → Memory} {post : Unit → Heap → Heap → Prop}
    (hpost : post () { h₁ with memory := c h₁.memory } { h₂ with memory := d h₂.memory }) :
    (Action.change c).InStep p (.change d) w h₁ h₂ post := by
  refine ⟨fun a b h₁' h₂' hx hy => ?_, fun _ => ⟨fun _ => ⟨(), _, rfl⟩, fun _ => ⟨(), _, rfl⟩⟩⟩
  cases hx
  cases hy
  exact ⟨rfl, hpost⟩

theorem change_bind {c d : Memory → Memory} {f g : Unit → Action β}
    (hfg : (f ()).InStep p (g ()) w { h₁ with memory := c h₁.memory } { h₂ with memory := d h₂.memory } next) :
    (Action.change c >>= f).InStep p (.change d >>= g) w h₁ h₂ next :=
  ⟨hfg.same, hfg.ok_iff⟩

end InStep

/-! Casts to two types that are the same. -/

private theorem kind_congr (hsame : w.registry.sameType t t' = true) (k : Kind) :
    w.kind t = .ok k ↔ w.kind t' = .ok k := by
  rw [World.kind_eq_ok, World.kind_eq_ok, Registry.kind?_eq_of_sameType hsame]

theorem newValue_inStep (hwf : h.WellFormed) (hsame : w.registry.sameType t t' = true) (n : Nat)
    (kind : BlockKind) :
    (newValue n kind t).InStep p (newValue n kind t') w h h fun v h₁ h₂ =>
      h.fresh h₁ = {v} ∧ Matched w.registry h h₁ h₂ := by
  have hblock : (allocate n kind).InStep p (allocate n kind) w h h fun v h₁ h₂ => h₁ = h₂ ∧ Gained h h₁ v n :=
    .refl fun v h₁ hrun => ⟨rfl, ((allocate_ends hwf n kind).of_ok hrun).1⟩
  unfold newValue
  refine hblock.bind ?_
  rintro v h₁ _ ⟨rfl, hg⟩
  have hnew (u : Addr) : u ∈ h.fresh h₁ ↔ u = v := by rw [hg.fresh, Set.mem_singleton_iff]
  refine .change_bind (.pure ⟨hg.fresh, rfl, fun u hu => ?_, fun u hu => ?_, fun x hx => ?_⟩)
  · obtain rfl := (hnew u).1 hu
    exact hg.address
  · obtain rfl := (hnew u).1 hu
    change w.registry.sameType ((h₁.memory.setType u t).typeOf u) ((h₁.memory.setType u t').typeOf u) = true
    rw [Memory.typeOf_setType_same, Memory.typeOf_setType_same]
    exact hsame
  · change (h₁.memory.setType v t).byte x = (h₁.memory.setType v t').byte x
    have hout := hx v ((hnew v).2 rfl)
    rw [Memory.changesOnly_setType _ _ _ x hout, Memory.changesOnly_setType _ _ _ x hout]

theorem newBox_inStep (hwf : h.WellFormed) (hsame : w.registry.sameType t t' = true) :
    (newBox t).InStep p (newBox t') w h h fun v h₁ h₂ => h.fresh h₁ = {v} ∧ Matched w.registry h h₁ h₂ := by
  unfold newBox
  exact .ask_same_bind (kind_congr hsame) fun k _ => newValue_inStep hwf hsame _ _

theorem fill_inStep (hwf : h.WellFormed) (hsame : w.registry.sameType t t' = true) (s : Slot) :
    (toDynamic.fill s t).InStep p (toDynamic.fill s t') w h h fun _ => Matched w.registry h := by
  unfold toDynamic.fill
  refine (newBox_inStep hwf hsame).bind ?_
  rintro v h₁ h₂ ⟨hfresh, hmatched⟩
  refine .change_bind (.pure (hmatched.store ?_ _))
  intro u hu
  obtain rfl : u = v := by rwa [hfresh] at hu
  exact Or.inr le_rfl

theorem toDynamic_inStep (hwf : h.WellFormed) (hsame : w.registry.sameType t t' = true) (s : Slot) :
    (toDynamic s t).InStep p (toDynamic s t') w h h fun _ => Matched w.registry h := by
  unfold toDynamic
  refine .ask_same_bind (kind_congr hsame) fun k _ => ?_
  by_cases hfits : s.fits k = true
  · rw [if_pos hfits, if_pos hfits]
    cases s with
    | void => exact .pure (.self _ h)
    | pointer a =>
      by_cases hpass : a = 0 ∨ k.isSelfDescribing = true
      · simp only [if_pos hpass]
        exact .pure (.self _ h)
      · simp only [if_neg hpass]
        exact fill_inStep hwf hsame _
    | _ => exact fill_inStep hwf hsame _
  · rw [if_neg hfits, if_neg hfits]
    exact .fail _ _

theorem boxAs_inStep (hwf : h.WellFormed) (hsame : w.registry.sameType t t' = true) (s : Slot)
    (source : TypeId) : (boxAs s source t).InStep p (boxAs s source t') w h h fun _ => Matched w.registry h := by
  have hget {t : TypeId} {d : Descriptor} : Reading.ofType (w.registry.get t) = .ok d ↔
      w.registry.get? t = some d :=
    Outcome.mapError_eq_ok.trans Registry.get_eq_ok
  unfold boxAs
  refine .ask_bind (fun _ => ?_) fun d d' hd hd' => ?_
  · simp only [hget]
    constructor
    · rintro ⟨d, hd⟩
      obtain ⟨d', hd', -⟩ := Registry.alike_of_sameType hsame hd
      exact ⟨d', hd'⟩
    · rintro ⟨d', hd'⟩
      obtain ⟨d, hd, -⟩ := Registry.alike_of_sameType (Registry.sameType_symm hsame) hd'
      exact ⟨d, hd⟩
  rw [hget] at hd hd'
  cases d with
  | null inner =>
    obtain ⟨inner', hinner', hsame'⟩ := Registry.get?_null_of_sameType hsame hd
    obtain rfl : d' = .null inner' := Option.some.inj (hd'.symm.trans hinner')
    refine .world_bind ?_
    rw [Registry.kind?_eq_of_sameType hsame']
    dsimp only
    split
    · exact toDynamic_inStep hwf hsame' _
    · exact .fail _ _
  | _ =>
    cases d' with
    | null inner' =>
      obtain ⟨inner, hinner, -⟩ := Registry.get?_null_of_sameType (Registry.sameType_symm hsame) hd'
      cases hd.symm.trans hinner
    | _ => exact .fail _ _

theorem newView_inStep (hwf : h.WellFormed) (hsame : w.registry.sameType t t' = true)
    (hp : p → w.registry.LaidOutAlike t t') (u : Addr) :
    (newView t u).InStep p (newView t' u) w h h fun v h₁ h₂ =>
      h.fresh h₁ = {v} ∧ Matched w.registry h h₁ h₂ := by
  have hlayout {t : TypeId} : (∃ l, Reading.ofLayout (w.registry.viewLayout t) = .ok l) ↔
      ∃ l, w.registry.viewLayout t = .ok l :=
    exists_congr fun l => Outcome.mapError_eq_ok
  unfold newView
  refine .ask_bind (fun hyes => hlayout.trans ((hp hyes).trans hlayout.symm)) fun l l' hl hl' => ?_
  have hfields := Registry.viewLayout_alike hsame (Outcome.mapError_eq_ok.1 hl) (Outcome.mapError_eq_ok.1 hl')
  refine .ask_same_bind (fun paths => View.paths_congr hfields) fun paths _ => ?_
  refine (newValue_inStep hwf hsame _ _).bind ?_
  rintro v h₁ h₂ ⟨hfresh, hmatched⟩
  have hout (m : Memory) {n : Nat} (hn : 8 ≤ n) :
      ∀ x ∈ h.fresh { h₁ with memory := m }, x.toNat + 8 ≤ v.toNat + n := by
    intro x hx
    change x ∈ h.fresh h₁ at hx
    obtain rfl : x = v := by rwa [hfresh] at hx
    omega
  have hwrapped := hmatched.setWord (fun x hx => Or.inr (hout h₁.memory (n := View.wrappedOffset) le_rfl x hx)) u
  have hpathsAt := hwrapped.setWord (fun x hx => Or.inr (hout _ (n := View.pathsOffset) (by decide) x hx))
    (UInt64.ofNat (v.toNat + View.size))
  have hdone := hpathsAt.writePaths (hout _ (n := View.size) (by decide)) paths
  exact .change_bind (.pure ⟨hfresh, hdone⟩)

theorem chainedView_inStep (hs : Arranged w.registry ∅ h values) (hu : u ∈ values)
    (hchained : IsChained w.registry h.memory u) {head : Nat}
    (hhead : head = chainHead w.registry h.memory u) (hsame : w.registry.sameType t t' = true)
    (hp : p → w.registry.LaidOutAlike t t') :
    (chainedView t u head).InStep p (chainedView t' u head) w h h fun _ => Matched w.registry h := by
  have hroom : head + 8 ≤ h.next := by
    have howned := (hs.owned u hu).le_next hs.blocks
    rcases chainHead_bounds hchained with ⟨-, heq, hsize⟩ | ⟨-, heq, hsize⟩ <;> omega
  unfold chainedView
  refine .chainBound_bind (.look_bind (.ask_same_bind (fun found => ?_) fun found _ => ?_))
  · rw [View.findInChain_congr hsame]
  cases found with
  | some v => exact .pure (.self _ h)
  | none =>
    refine (newView_inStep hs.blocks hsame hp u).bind ?_
    rintro v h₁ h₂ ⟨hfresh, hmatched⟩
    have hnext := hmatched.setWord (b := v.toNat + View.nextOffset) (fun x hx => Or.inr ?_) (h.memory.word head)
    · have hlinked := hnext.setWord (b := head) (fun x hx => Or.inl (hroom.trans (hnext.above x hx))) v
      exact .change_bind (.pure hlinked)
    · obtain rfl : x = v := by rwa [hfresh] at hx
      exact Nat.add_le_add_left (by decide) _

private theorem toViewFrom_inStep_step {bound : Nat} (hs : Arranged w.registry ∅ h values) (hv : v ∈ values)
    (hsame : w.registry.sameType t t' = true) (hp : p → w.registry.LaidOutAlike t t')
    (hinner : ∀ bound', bound = bound' + 1 → ∀ u ∈ values,
      (toViewFrom t bound' u).InStep p (toViewFrom t' bound' u) w h h fun _ => Matched w.registry h) :
    (toViewFrom t bound v).InStep p (toViewFrom t' bound v) w h h fun _ => Matched w.registry h := by
  rw [toViewFrom.eq_def, toViewFrom.eq_def t']
  refine .look_bind (.ask_same_bind (fun _ => Iff.rfl) fun k hk => ?_)
  have hkind : w.registry.kindAt h.memory v = some k := World.kind_eq_ok.1 hk
  cases k with
  | object =>
    refine ((newView_inStep hs.blocks hsame hp v).imp ?_)
    exact fun x h₁ h₂ hview => hview.2
  | dynobj =>
    refine chainedView_inStep hs hv (Or.inl hkind) ?_ hsame hp
    rw [chainHead, if_pos hkind]
  | virtual =>
    refine .world_bind ?_
    rw [Registry.sameType_congr_right hsame]
    by_cases hself : w.registry.sameType (h.memory.typeOf v) t' = true
    · rw [if_pos hself, if_pos hself]
      exact .pure (.self _ h)
    rw [if_neg hself, if_neg hself]
    refine .look_bind ?_
    by_cases hzero : View.wrapped h.memory v = 0
    · rw [if_pos hzero, if_pos hzero]
      refine chainedView_inStep hs hv (Or.inr ⟨hkind, hzero⟩) ?_ hsame hp
      rw [chainHead, if_neg (kindAt_ne hkind (by decide))]
    · rw [if_neg hzero, if_neg hzero]
      cases bound with
      | zero => exact .fail _ _
      | succ bound =>
        obtain ⟨l, -, hat⟩ := hs.views v hv hkind
        exact hinner bound rfl _ (hat.shown hzero).1
  | _ => exact .fail _ _

theorem toViewFrom_inStep (bound : Nat) (hs : Arranged w.registry ∅ h values) (hv : v ∈ values)
    (hsame : w.registry.sameType t t' = true) (hp : p → w.registry.LaidOutAlike t t') :
    (toViewFrom t bound v).InStep p (toViewFrom t' bound v) w h h fun _ => Matched w.registry h := by
  induction bound using Nat.strongRecOn generalizing v with
  | ind bound ih => exact toViewFrom_inStep_step hs hv hsame hp fun below hbelow u hu => ih below (by omega) hu

theorem toView_inStep (hs : Arranged w.registry ∅ h values) (hv : v ∈ values)
    (hsame : w.registry.sameType t t' = true) (hp : p → w.registry.LaidOutAlike t t') :
    (toView t v).InStep p (toView t' v) w h h fun _ => Matched w.registry h :=
  .chainBound_bind (toViewFrom_inStep _ hs hv hsame hp)

private theorem castActual_inStep {actual : TypeId} (hs : Arranged w.registry ∅ h values)
    (hmem : ∀ l, w.registry.kind? actual = some l → l = .object ∨ l = .dynobj ∨ l = .virtual → a ∈ values)
    (hsame : w.registry.sameType t t' = true) (hp : p → w.registry.LaidOutAlike t t') (k : Kind) :
    (castActual a actual t k).InStep p (castActual a actual t' k) w h h fun _ => Matched w.registry h := by
  have hpass := Registry.sameType_congr_right hsame actual
  unfold castActual
  refine .world_bind (.ask_same_bind (fun _ => Iff.rfl) fun l hl => ?_)
  dsimp only
  cases k with
  | object =>
    refine .guard ?_ (.self _ h)
    have hsub : w.registry.isSubclass actual t = w.registry.isSubclass actual t' := by
      rw [Bool.eq_iff_iff]
      constructor
      · exact fun hsub => Registry.isSubclass_of_sameType hsub hsame
      · exact fun hsub => Registry.isSubclass_of_sameType hsub (Registry.sameType_symm hsame)
    rw [hsub]
  | virtual =>
    by_cases hmembers : l = .object ∨ l = .dynobj ∨ l = .virtual
    · rw [if_pos hmembers, if_pos hmembers]
      exact toView_inStep hs (hmem l (World.kind_eq_ok.1 hl) hmembers) hsame hp
    · rw [if_neg hmembers, if_neg hmembers]
      exact .fail _ _
  | null =>
    by_cases hnumeric : l.isNumeric = true
    · rw [if_pos hnumeric, if_pos hnumeric]
      exact .ask_same_bind (fun _ => Iff.rfl) fun content _ => boxAs_inStep hs.blocks hsame _ _
    · rw [if_neg hnumeric, if_neg hnumeric]
      exact .guard (by rw [hpass]) (.self _ h)
  | array => exact .guard Iff.rfl (.self _ h)
  | _ => exact .guard (by rw [hpass]) (.self _ h)

private theorem castPointer_inStep (hs : Arranged w.registry ∅ h values)
    (hslot : Suits w.registry values source s) (hsame : w.registry.sameType t t' = true)
    (hp : p → w.registry.LaidOutAlike t t') :
    (castPointer s source t).InStep p (castPointer s source t') w h h fun _ => Matched w.registry h := by
  unfold castPointer
  refine .ask_same_bind (fun _ => Iff.rfl) fun k hk => .ask_same_bind (kind_congr hsame) fun l _ => ?_
  have hsource : w.registry.kind? source = some k := World.kind_eq_ok.1 hk
  have hboxed : (toDynamic s source).InStep p (toDynamic s source) w h h fun _ => Matched w.registry h :=
    toDynamic_inStep hs.blocks (Registry.sameType_refl _ _) s
  cases s with
  | void => exact .pure (.self _ h)
  | pointer a =>
    refine .world_bind ?_
    rw [Registry.sameType_congr_right hsame]
    by_cases hpass : a = 0 ∨ w.registry.sameType source t' = true
    · rw [if_pos hpass, if_pos hpass]
      exact .pure (.self _ h)
    rw [if_neg hpass, if_neg hpass]
    by_cases hdynamic : l = .dynamic
    · rw [if_pos hdynamic, if_pos hdynamic]
      by_cases hself : k.isSelfDescribing = true
      · rw [if_pos hself]
        exact .pure (.self _ h)
      · rw [if_neg hself]
        exact hboxed
    rw [if_neg hdynamic, if_neg hdynamic]
    refine .ask_same_bind (fun _ => Iff.rfl) fun revealed hrevealed => ?_
    obtain ⟨raw, actual⟩ := revealed
    have hne : a ≠ 0 := fun hzero => hpass (Or.inl hzero)
    refine castActual_inStep hs (fun l' hl' hmembers => ?_) hsame hp l
    obtain ⟨rfl, ha⟩ := mem_of_actual hslot hne hsource hrevealed hl' hmembers
    exact ha
  | _ =>
    cases l with
    | dynamic => exact hboxed
    | null => exact boxAs_inStep hs.blocks hsame _ source
    | _ => exact .fail _ _

private theorem number_target {m : Memory} {n : Number} (target target' : TypeId)
    (hn : Coercion.number w m s source target = .ok n) : Coercion.number w m s source target' = .ok n := by
  unfold Coercion.number at hn ⊢
  obtain ⟨k, hk, hn⟩ := Outcome.bind_eq_ok.1 hn
  refine Outcome.bind_eq_ok.2 ⟨k, hk, ?_⟩
  split at hn
  · split_ifs at hn ⊢
    exact hn
  · split_ifs at hn ⊢
    · exact hn
    · obtain ⟨⟨content, t⟩, hcontent, hn⟩ := Outcome.bind_eq_ok.1 hn
      refine Outcome.bind_eq_ok.2 ⟨(content, t), hcontent, ?_⟩
      cases hnumber : Number.ofSlot? content with
      | some n' =>
        simp only [hnumber] at hn ⊢
        exact hn
      | none =>
        simp only [hnumber] at hn
        cases hn
  · cases hn

theorem convert_inStep (hs : Arranged w.registry ∅ h values) (hslot : Suits w.registry values source s)
    (hsame : w.registry.sameType t t' = true) (hp : p → w.registry.LaidOutAlike t t') :
    (convert s source t).InStep p (convert s source t') w h h fun _ => Matched w.registry h := by
  unfold convert
  refine .ask_same_bind (kind_congr hsame) fun k _ => ?_
  by_cases hvoid : k = .void
  · rw [if_pos hvoid, if_pos hvoid]
    exact .pure (.self _ h)
  rw [if_neg hvoid, if_neg hvoid]
  by_cases hnumeric : k.isNumeric = true
  · rw [if_pos hnumeric, if_pos hnumeric]
    refine .ask_same_bind (fun n => ⟨number_target t t', number_target t' t⟩) fun n _ => ?_
    split
    · exact .pure (.self _ h)
    · exact .fail _ _
  · rw [if_neg hnumeric, if_neg hnumeric]
    exact (castPointer_inStep hs hslot hsame hp).bind fun _ _ _ hmatched => .pure hmatched

/-- A slot is cast alike to two types that are the same, where both have a layout or neither has. -/
theorem cast_inStep (hs : Arranged w.registry ∅ h values) (hslot : Suits w.registry values source s)
    (hsame : w.registry.sameType t t' = true) (hp : p → w.registry.LaidOutAlike t t') :
    (cast s source t).InStep p (cast s source t') w h h fun _ => Matched w.registry h := by
  unfold cast
  refine .ask_same_bind (fun _ => Iff.rfl) fun k _ => ?_
  by_cases hfits : s.fits k = true
  · rw [if_pos hfits, if_pos hfits]
    exact convert_inStep hs hslot hsame hp
  · rw [if_neg hfits, if_neg hfits]
    exact .fail _ _

end Action

end ObjectModel
