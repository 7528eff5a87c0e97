import Mathlib.Data.Finset.Card
import Mathlib.Data.Finset.Prod
import Mathlib.Data.List.Forall2
import ObjectModel.Registry

/-!
Structural equality decides bisimilarity. Two descriptors are alike up to a relation if they have the
same payload and mention related types at the same places; a bisimulation is a relation of registered
types whose descriptors are alike up to it and equality. The comparison assumes pairs and never takes
one back, which is sound because a single difference ends the whole comparison.
-/

set_option autoImplicit false
set_option relaxedAutoImplicit false

namespace ObjectModel

namespace Descriptor

variable {R S : TypeId → TypeId → Prop} {d e f : Descriptor}

/-- The same payload, with related types at the same places. The types of methods do not count, and
neither do the names of the fields of virtual types beyond their hashes. -/
def Alike (R : TypeId → TypeId → Prop) : Descriptor → Descriptor → Prop
  | function args ret, function args' ret' => List.Forall₂ R args args' ∧ R ret ret'
  | object c, object c' =>
    c.name = c'.name ∧ Option.Rel R c.super c'.super ∧
      List.Forall₂ (fun f g => f.name = g.name ∧ R f.type g.type) c.fields c'.fields ∧
      List.Forall₂ (fun m n => m.name = n.name ∧ m.function = n.function) c.methods c'.methods
  | virtual fs, virtual gs => List.Forall₂ (fun f g => f.hash = g.hash ∧ R f.type g.type) fs gs
  | enum name cs, enum name' ds =>
    name = name' ∧ List.Forall₂ (fun c d => c.name = d.name ∧ List.Forall₂ R c.params d.params) cs ds
  | abstract name, abstract name' => name = name'
  | array t, array u | ref t, ref u | null t, null u => R t u
  | d, e => d.kind = e.kind

private theorem forall₂_key_part {α κ : Type} (key : α → κ) (part : α → TypeId) {xs ys : List α} :
    List.Forall₂ (fun x y => key x = key y ∧ R (part x) (part y)) xs ys ↔
      xs.map key = ys.map key ∧ List.Forall₂ R (xs.map part) (ys.map part) := by
  induction xs generalizing ys with
  | nil => cases ys <;> simp
  | cons x xs ih =>
    cases ys with
    | nil => simp
    | cons y ys =>
      simp only [List.forall₂_cons, List.map_cons, List.cons.injEq, ih]
      tauto

private theorem forall₂_append_iff {xs ys us vs : List TypeId} (h : xs.length = ys.length) :
    List.Forall₂ R (xs ++ us) (ys ++ vs) ↔ List.Forall₂ R xs ys ∧ List.Forall₂ R us vs := by
  induction xs generalizing ys with
  | nil =>
    cases ys with
    | nil => simp
    | cons y ys => simp at h
  | cons x xs ih =>
    cases ys with
    | nil => simp at h
    | cons y ys =>
      simp only [List.length_cons, Nat.add_right_cancel_iff] at h
      simp only [List.cons_append, List.forall₂_cons, ih h, and_assoc]

private theorem forall₂_constructs {cs ds : List Construct} :
    List.Forall₂ (fun c d => c.name = d.name ∧ List.Forall₂ R c.params d.params) cs ds ↔
      cs.map (fun c => (c.name, c.params.length)) = ds.map (fun c => (c.name, c.params.length)) ∧
        List.Forall₂ R (cs.flatMap Construct.params) (ds.flatMap Construct.params) := by
  induction cs generalizing ds with
  | nil => cases ds <;> simp
  | cons c cs ih =>
    cases ds with
    | nil => simp
    | cons d ds =>
      simp only [List.forall₂_cons, List.map_cons, List.cons.injEq, Prod.mk.injEq,
        List.flatMap_cons, ih]
      constructor
      · rintro ⟨⟨hname, hparams⟩, hmap, hrest⟩
        have hlen := hparams.length_eq
        exact ⟨⟨⟨hname, hlen⟩, hmap⟩, (forall₂_append_iff hlen).2 ⟨hparams, hrest⟩⟩
      · rintro ⟨⟨⟨hname, hlen⟩, hmap⟩, hall⟩
        obtain ⟨hparams, hrest⟩ := (forall₂_append_iff hlen).1 hall
        exact ⟨⟨hname, hparams⟩, hmap, hrest⟩

private theorem forall₂_methods {ms ns : List Method} :
    List.Forall₂ (fun m n => m.name = n.name ∧ m.function = n.function) ms ns ↔
      ms.map (fun m => (m.name, m.function)) = ns.map (fun m => (m.name, m.function)) := by
  induction ms generalizing ns with
  | nil => cases ns <;> simp
  | cons m ms ih => cases ns <;> simp [ih]

private theorem rel_super {p q : Option TypeId} :
    Option.Rel R p q ↔ p.isSome = q.isSome ∧ List.Forall₂ R p.toList q.toList := by
  cases p <;> cases q <;> simp

/-- Descriptors are alike if they show the same face and the types behind it are related. -/
theorem alike_iff : d.Alike R e ↔ d.face = e.face ∧ List.Forall₂ R d.parts e.parts := by
  cases d <;> cases e <;> simp [Alike, face, parts, kind]
  case function.function args ret args' ret' =>
    constructor
    · rintro ⟨hargs, hret⟩
      have hlen := hargs.length_eq
      exact ⟨hlen, (forall₂_append_iff hlen).2 ⟨hargs, by simpa using hret⟩⟩
    · rintro ⟨hlen, hall⟩
      simpa using (forall₂_append_iff hlen).1 hall
  case object.object c c' =>
    rw [rel_super, forall₂_key_part Field.name Field.type, forall₂_methods]
    constructor
    · rintro ⟨hname, ⟨hsome, hsuper⟩, ⟨hnames, htypes⟩, hmethods⟩
      exact ⟨⟨hname, hsome, hnames, hmethods⟩,
        (forall₂_append_iff hsuper.length_eq).2 ⟨hsuper, htypes⟩⟩
    · rintro ⟨⟨hname, hsome, hnames, hmethods⟩, hall⟩
      have hlen : c.super.toList.length = c'.super.toList.length := by
        cases hc : c.super <;> cases hc' : c'.super <;> simp [hc, hc'] at hsome <;> rfl
      obtain ⟨hsuper, htypes⟩ := (forall₂_append_iff hlen).1 hall
      exact ⟨hname, ⟨hsome, hsuper⟩, ⟨hnames, htypes⟩, hmethods⟩
  case virtual.virtual fs gs => simpa using forall₂_key_part (R := R) Field.hash Field.type
  case enum.enum name cs name' ds => rw [forall₂_constructs, and_assoc]

private theorem length_parts_of_face (h : d.face = e.face) : d.parts.length = e.parts.length := by
  cases d <;> cases e <;> simp [face, parts, kind] at h ⊢
  case function.function => exact h
  case object.object c c' =>
    obtain ⟨-, hsome, hnames, -⟩ := h
    have hfields := congrArg List.length hnames
    have hsuper : c.super.toList.length = c'.super.toList.length := by
      cases hc : c.super <;> cases hc' : c'.super <;> simp [hc, hc'] at hsome <;> rfl
    simp only [List.length_map] at hfields
    omega
  case virtual.virtual => simpa using congrArg List.length h
  case enum.enum name cs name' ds =>
    have hcounts := congrArg (List.map Prod.snd) h.2
    simpa [List.length_flatMap, Function.comp_def] using congrArg List.sum hcounts

theorem Alike.imp (hRS : ∀ t u, R t u → S t u) (h : d.Alike R e) : d.Alike S e := by
  rw [alike_iff] at h ⊢
  exact ⟨h.1, h.2.imp hRS⟩

theorem Alike.refl (hR : ∀ t, R t t) : d.Alike R d :=
  alike_iff.2 ⟨rfl, List.forall₂_same.2 fun t _ => hR t⟩

theorem Alike.symm (h : d.Alike R e) : e.Alike (fun t u => R u t) d := by
  rw [alike_iff] at h ⊢
  exact ⟨h.1.symm, h.2.flip⟩

private theorem forall₂_comp {xs ys zs : List TypeId} (hxy : List.Forall₂ R xs ys)
    (hyz : List.Forall₂ S ys zs) : List.Forall₂ (fun t v => ∃ u, R t u ∧ S u v) xs zs := by
  induction hxy generalizing zs with
  | nil =>
    cases hyz
    exact .nil
  | cons hR _ ih =>
    cases hyz with
    | cons hS hrest => exact .cons ⟨_, hR, hS⟩ (ih hrest)

theorem Alike.trans (hde : d.Alike R e) (hef : e.Alike S f) :
    d.Alike (fun t v => ∃ u, R t u ∧ S u v) f := by
  rw [alike_iff] at hde hef ⊢
  exact ⟨hde.1.trans hef.1, forall₂_comp hde.2 hef.2⟩

theorem Alike.kind_eq (h : d.Alike R e) : d.kind = e.kind := by
  cases d <;> cases e <;> first | rfl | exact h

theorem Alike.of_function {args : List TypeId} {ret : TypeId} (h : (function args ret).Alike R e) :
    ∃ args' ret', e = function args' ret' ∧ List.Forall₂ R args args' ∧ R ret ret' := by
  cases e <;> simp_all [Alike, kind]

end Descriptor

namespace Registry

variable {r : Registry}

/-- Related types are registered and alike, where the types that they mention are equal or related. -/
def IsBisimulation (r : Registry) (R : TypeId → TypeId → Prop) : Prop :=
  ∀ a b, R a b → ∃ d e, r.get? a = some d ∧ r.get? b = some e ∧ d.Alike (fun t u => t = u ∨ R t u) e

/-- Two types are equal, or some bisimulation relates them. -/
def Bisimilar (r : Registry) (a b : TypeId) : Prop := a = b ∨ ∃ R, r.IsBisimulation R ∧ R a b

/-! Bisimilarity is an equivalence. -/

theorem Bisimilar.symm {a b : TypeId} (h : r.Bisimilar a b) : r.Bisimilar b a := by
  rcases h with rfl | ⟨R, hR, hab⟩
  · exact Or.inl rfl
  · refine Or.inr ⟨fun t u => R u t, ?_, hab⟩
    intro t u htu
    obtain ⟨d, e, hd, he, halike⟩ := hR u t htu
    refine ⟨e, d, he, hd, halike.symm.imp ?_⟩
    rintro x y (hxy | hxy)
    · exact Or.inl hxy.symm
    · exact Or.inr hxy

private theorem isBisimulation_comp {R S : TypeId → TypeId → Prop} (hR : r.IsBisimulation R)
    (hS : r.IsBisimulation S) :
    r.IsBisimulation fun t v => R t v ∨ S t v ∨ ∃ u, R t u ∧ S u v := by
  intro t v htv
  rcases htv with htv | htv | ⟨u, htu, huv⟩
  · obtain ⟨d, e, hd, he, halike⟩ := hR t v htv
    exact ⟨d, e, hd, he, halike.imp fun x y hxy => hxy.imp id Or.inl⟩
  · obtain ⟨d, e, hd, he, halike⟩ := hS t v htv
    exact ⟨d, e, hd, he, halike.imp fun x y hxy => hxy.imp id fun h => Or.inr (Or.inl h)⟩
  · obtain ⟨d, e, hd, he, hde⟩ := hR t u htu
    obtain ⟨e', f, he', hf, hef⟩ := hS u v huv
    obtain rfl : e = e' := Option.some.inj (he.symm.trans he')
    refine ⟨d, f, hd, hf, (hde.trans hef).imp ?_⟩
    rintro x z ⟨y, rfl | hxy, rfl | hyz⟩
    · exact Or.inl rfl
    · exact Or.inr (Or.inr (Or.inl hyz))
    · exact Or.inr (Or.inl hxy)
    · exact Or.inr (Or.inr (Or.inr ⟨y, hxy, hyz⟩))

theorem Bisimilar.trans {a b c : TypeId} (hab : r.Bisimilar a b) (hbc : r.Bisimilar b c) :
    r.Bisimilar a c := by
  rcases hab with rfl | ⟨R, hR, hab⟩
  · exact hbc
  · rcases hbc with rfl | ⟨S, hS, hbc⟩
    · exact Or.inr ⟨R, hR, hab⟩
    · exact Or.inr ⟨_, isBisimulation_comp hR hS, Or.inr (Or.inr ⟨b, hab, hbc⟩)⟩

theorem Bisimilar.alike {a b : TypeId} {d : Descriptor} (h : r.Bisimilar a b)
    (hd : r.get? a = some d) : ∃ e, r.get? b = some e ∧ d.Alike r.Bisimilar e := by
  rcases h with rfl | ⟨R, hR, hab⟩
  · exact ⟨d, hd, .refl fun _ => Or.inl rfl⟩
  · obtain ⟨d', e, hd', he, halike⟩ := hR a b hab
    obtain rfl : d = d' := Option.some.inj (hd.symm.trans hd')
    refine ⟨e, he, halike.imp ?_⟩
    rintro x y (rfl | hxy)
    · exact Or.inl rfl
    · exact Or.inr ⟨R, hR, hxy⟩

/-! A comparison that finds no difference leaves a set of pairs that support each other. -/

private def Supported (r : Registry) (pairs : List Pair) (p : Pair) : Prop :=
  ∃ below, r.below? p = some below ∧ ∀ q ∈ below, q.1 = q.2 ∨ q ∈ pairs

/-- Nothing that was assumed is lost, and every new pair is supported in the end. -/
private def Settles (r : Registry) (assumed after : List Pair) : Prop :=
  assumed ⊆ after ∧ ∀ q ∈ after, q ∉ assumed → Supported r after q

private theorem Settles.trans {assumed mid after : List Pair} (h : Settles r assumed mid)
    (h' : Settles r mid after) : Settles r assumed after := by
  refine ⟨List.Subset.trans h.1 h'.1, ?_⟩
  intro q hq hnew
  by_cases hmid : q ∈ mid
  · obtain ⟨below, hbelow, hall⟩ := h.2 q hmid hnew
    exact ⟨below, hbelow, fun x hx => (hall x hx).imp id fun h => h'.1 h⟩
  · exact h'.2 q hq hmid

private theorem foldlM_cons_cases (step : List Pair → Pair → Except Stop (List Pair))
    (assumed todo : List Pair) (p : Pair) :
    (∃ stop, step assumed p = .error stop ∧ (p :: todo).foldlM step assumed = .error stop) ∨
      ∃ mid, step assumed p = .ok mid ∧ (p :: todo).foldlM step assumed = todo.foldlM step mid := by
  rw [List.foldlM_cons]
  cases step assumed p with
  | error stop => exact Or.inl ⟨stop, rfl, rfl⟩
  | ok mid => exact Or.inr ⟨mid, rfl, rfl⟩

private theorem foldlM_settles {step : List Pair → Pair → Except Stop (List Pair)}
    (hstep : ∀ assumed p after, step assumed p = .ok after →
      Settles r assumed after ∧ (p.1 = p.2 ∨ p ∈ after))
    {todo assumed after : List Pair} (h : todo.foldlM step assumed = .ok after) :
    Settles r assumed after ∧ ∀ p ∈ todo, p.1 = p.2 ∨ p ∈ after := by
  induction todo generalizing assumed with
  | nil =>
    cases h
    exact ⟨⟨List.Subset.refl _, fun q hq hnew => (hnew hq).elim⟩, by simp⟩
  | cons p todo ih =>
    obtain ⟨stop, -, hfold⟩ | ⟨mid, hmid, hfold⟩ := foldlM_cons_cases step assumed todo p
    · rw [hfold] at h
      cases h
    · rw [hfold] at h
      obtain ⟨hsettles, hp⟩ := hstep assumed p mid hmid
      obtain ⟨hsettles', htodo⟩ := ih h
      refine ⟨hsettles.trans hsettles', ?_⟩
      intro q hq
      rcases List.mem_cons.1 hq with rfl | hq
      · exact hp.imp id fun h => hsettles'.1 h
      · exact htodo q hq

private theorem compareFrom_settles (depth : Nat) {assumed after : List Pair} {p : Pair}
    (h : r.compareFrom depth assumed p = .ok after) :
    Settles r assumed after ∧ (p.1 = p.2 ∨ p ∈ after) := by
  -- A pair that is taken up is supported by what comparing the pairs below it leaves behind.
  fun_induction r.compareFrom depth assumed p generalizing after with
  | case1 depth assumed p hknown =>
    cases h
    exact ⟨⟨List.Subset.refl _, fun q hq hnew => (hnew hq).elim⟩, hknown⟩
  | case2 => cases h
  | case3 => cases h
  | case4 assumed p hopen below depth hbelow ih =>
    obtain ⟨⟨hsub, hnew⟩, hall⟩ := foldlM_settles (fun _ _ _ => ih _ _) h
    have hp : p ∈ after := hsub List.mem_cons_self
    refine ⟨⟨fun q hq => hsub (List.mem_cons_of_mem p hq), ?_⟩, Or.inr hp⟩
    intro q hq hold
    by_cases hqp : q = p
    · exact hqp ▸ ⟨below, hbelow, hall⟩
    · exact hnew q hq (by simp [hqp, hold])

private theorem alike_of_supported {pairs : List Pair} {p : Pair} (h : Supported r pairs p) :
    ∃ d e, r.get? p.1 = some d ∧ r.get? p.2 = some e ∧
      d.Alike (fun t u => t = u ∨ (t, u) ∈ pairs) e := by
  obtain ⟨below, hbelow, hall⟩ := h
  unfold below? at hbelow
  split at hbelow
  · rename_i d e hd he
    split_ifs at hbelow with hface
    cases hbelow
    refine ⟨d, e, hd, he, Descriptor.alike_iff.2 ⟨hface, List.forall₂_iff_zip.2 ⟨?_, ?_⟩⟩⟩
    · exact Descriptor.length_parts_of_face hface
    · intro t u htu
      exact hall (t, u) htu
  · cases hbelow

private theorem bisimilar_of_compareFrom {depth : Nat} {after : List Pair} {a b : TypeId}
    (h : r.compareFrom depth [] (a, b) = .ok after) : r.Bisimilar a b := by
  obtain ⟨⟨-, hnew⟩, hab⟩ := compareFrom_settles depth h
  rcases hab with hab | hab
  · exact Or.inl hab
  · refine Or.inr ⟨fun t u => (t, u) ∈ after, ?_, hab⟩
    intro t u htu
    exact alike_of_supported (hnew (t, u) htu List.not_mem_nil)

/-! A comparison finds a difference only if there is one, and it comes to an end before the depth does:
the pairs assumed on the way are registered and different from each other, and there are only so
many. -/

private theorem length_le_of_registered {pairs : List Pair} (hnodup : pairs.Nodup)
    (hreg : ∀ p ∈ pairs, r.contains p.1 = true ∧ r.contains p.2 = true) :
    pairs.length ≤ r.size * r.size := by
  let place : Pair → Nat × Nat := fun p => (p.1.index, p.2.index)
  have hinj : Function.Injective place := by
    rintro ⟨⟨a⟩, ⟨b⟩⟩ ⟨⟨c⟩, ⟨d⟩⟩ h
    simp only [place, TypeId.index, Prod.mk.injEq, UInt32.toNat_inj] at h
    rw [h.1, h.2]
  have hsub : (pairs.map place).toFinset ⊆ Finset.range r.size ×ˢ Finset.range r.size := by
    intro x hx
    obtain ⟨p, hp, rfl⟩ := List.mem_map.1 (List.mem_toFinset.1 hx)
    have hreg1 : p.1.index < r.size := of_decide_eq_true (hreg p hp).1
    have hreg2 : p.2.index < r.size := of_decide_eq_true (hreg p hp).2
    exact Finset.mem_product.2 ⟨Finset.mem_range.2 hreg1, Finset.mem_range.2 hreg2⟩
  have hcard := Finset.card_le_card hsub
  rwa [List.toFinset_card_of_nodup (hnodup.map hinj), List.length_map, Finset.card_product,
    Finset.card_range] at hcard

/-- Pairs that can be assumed together: registered and without repetition. -/
private def Sensible (r : Registry) (pairs : List Pair) : Prop :=
  pairs.Nodup ∧ ∀ p ∈ pairs, r.contains p.1 = true ∧ r.contains p.2 = true

private theorem contains_of_get? {t : TypeId} {d : Descriptor} (h : r.get? t = some d) :
    r.contains t = true := by
  obtain ⟨hlt, -⟩ := Array.getElem?_eq_some_iff.1 h
  simpa [contains] using hlt

private theorem below?_of_bisimilar {p : Pair} (hp : r.Bisimilar p.1 p.2) (hne : p.1 ≠ p.2) :
    ∃ below, r.below? p = some below ∧ ∀ q ∈ below, r.Bisimilar q.1 q.2 := by
  rcases hp with hp | ⟨R, hR, hp⟩
  · exact (hne hp).elim
  · obtain ⟨d, e, hd, he, halike⟩ := hR p.1 p.2 hp
    obtain ⟨hface, hparts⟩ := Descriptor.alike_iff.1 halike
    refine ⟨d.parts.zip e.parts, by simp [below?, hd, he, hface], ?_⟩
    rintro ⟨t, u⟩ htu
    exact (List.forall₂_zip hparts htu).imp id fun h => ⟨R, hR, h⟩

private theorem foldlM_ne_different {step : List Pair → Pair → Except Stop (List Pair)}
    {todo : List Pair} (hstep : ∀ assumed, ∀ p ∈ todo, step assumed p ≠ .error .different)
    (assumed : List Pair) : todo.foldlM step assumed ≠ .error .different := by
  induction todo generalizing assumed with
  | nil => exact nofun
  | cons p todo ih =>
    obtain ⟨stop, hstop, hfold⟩ | ⟨mid, -, hfold⟩ := foldlM_cons_cases step assumed todo p
    · rw [hfold, ← hstop]
      exact hstep assumed p List.mem_cons_self
    · rw [hfold]
      exact ih (fun assumed q hq => hstep assumed q (List.mem_cons_of_mem p hq)) mid

private theorem compareFrom_ne_different (depth : Nat) (assumed : List Pair) {p : Pair}
    (hp : r.Bisimilar p.1 p.2) : r.compareFrom depth assumed p ≠ .error .different := by
  fun_induction r.compareFrom depth assumed p with
  | case1 => exact nofun
  | case2 depth assumed p hopen hnone =>
    obtain ⟨below, hbelow, -⟩ := below?_of_bisimilar hp (not_or.1 hopen).1
    rw [hnone] at hbelow
    cases hbelow
  | case3 => exact nofun
  | case4 assumed p hopen below depth hbelow ih =>
    obtain ⟨below', hbelow', hall⟩ := below?_of_bisimilar hp (not_or.1 hopen).1
    obtain rfl : below = below' := Option.some.inj (hbelow.symm.trans hbelow')
    exact foldlM_ne_different (fun assumed q hq => ih assumed q (hall q hq)) _

/-- A comparison that came to its end, with no fewer pairs than before or with a difference. -/
private def Ended (r : Registry) (assumed : List Pair) : Except Stop (List Pair) → Prop
  | .ok after => Sensible r after ∧ assumed.length ≤ after.length
  | .error stop => stop = .different

private theorem Ended.of_le {assumed mid : List Pair} {result : Except Stop (List Pair)}
    (h : Ended r mid result) (hlen : assumed.length ≤ mid.length) : Ended r assumed result := by
  cases result with
  | ok after => exact ⟨h.1, hlen.trans h.2⟩
  | error stop => exact h

private theorem foldlM_ended {enough : Nat} {step : List Pair → Pair → Except Stop (List Pair)}
    (hstep : ∀ assumed p, Sensible r assumed → enough ≤ assumed.length →
      Ended r assumed (step assumed p))
    (todo : List Pair) {assumed : List Pair} (hassumed : Sensible r assumed)
    (henough : enough ≤ assumed.length) : Ended r assumed (todo.foldlM step assumed) := by
  induction todo generalizing assumed with
  | nil => exact ⟨hassumed, le_rfl⟩
  | cons p todo ih =>
    have hp := hstep assumed p hassumed henough
    obtain ⟨stop, hstop, hfold⟩ | ⟨mid, hmid, hfold⟩ := foldlM_cons_cases step assumed todo p
    · rw [hstop] at hp
      rw [hfold]
      exact hp
    · rw [hmid] at hp
      rw [hfold]
      obtain ⟨hsensible, hlen⟩ := hp
      exact (ih hsensible (henough.trans hlen)).of_le hlen

private theorem sensible_cons {assumed below : List Pair} {p : Pair} (hassumed : Sensible r assumed)
    (hnew : p ∉ assumed) (hbelow : r.below? p = some below) : Sensible r (p :: assumed) := by
  refine ⟨List.nodup_cons.2 ⟨hnew, hassumed.1⟩, ?_⟩
  intro q hq
  rcases List.mem_cons.1 hq with rfl | hq
  · unfold below? at hbelow
    split at hbelow
    · rename_i d e hd he
      exact ⟨contains_of_get? hd, contains_of_get? he⟩
    · cases hbelow
  · exact hassumed.2 q hq

private theorem compareFrom_ended (depth : Nat) {assumed : List Pair} (p : Pair)
    (hassumed : Sensible r assumed) (hdepth : r.size * r.size ≤ depth + assumed.length) :
    Ended r assumed (r.compareFrom depth assumed p) := by
  -- Each pair that is taken up makes the assumed ones more, and there are at most `size * size` of them.
  fun_induction r.compareFrom depth assumed p with
  | case1 => exact ⟨hassumed, le_rfl⟩
  | case2 => rfl
  | case3 assumed p hopen below hbelow =>
    have hmore := sensible_cons hassumed (not_or.1 hopen).2 hbelow
    have hroom := length_le_of_registered hmore.1 hmore.2
    rw [List.length_cons] at hroom
    omega
  | case4 assumed p hopen below depth hbelow ih =>
    have hmore := sensible_cons hassumed (not_or.1 hopen).2 hbelow
    have henough : r.size * r.size - depth ≤ (p :: assumed).length := by
      rw [List.length_cons]
      omega
    have hbelow := foldlM_ended (fun assumed q h hlen => ih assumed q h (by omega)) below hmore henough
    exact hbelow.of_le (Nat.le_succ _)

private theorem compareFrom_ne_tooDeep {depth : Nat} (hdepth : r.size * r.size ≤ depth)
    (a b : TypeId) : r.compareFrom depth [] (a, b) ≠ .error .tooDeep := by
  intro h
  have hnone : Sensible r [] := ⟨List.nodup_nil, by simp⟩
  have hended := compareFrom_ended depth (a, b) hnone (by simpa)
  rw [h] at hended
  cases hended

private theorem isOk_compareFrom_iff {depth : Nat} (hdepth : r.size * r.size ≤ depth)
    (a b : TypeId) : (r.compareFrom depth [] (a, b)).isOk = true ↔ r.Bisimilar a b := by
  cases h : r.compareFrom depth [] (a, b) with
  | ok after => exact iff_of_true rfl (bisimilar_of_compareFrom h)
  | error stop =>
    refine iff_of_false Bool.false_ne_true fun hab => ?_
    cases stop with
    | different =>
      have hp : r.Bisimilar (a, b).1 (a, b).2 := hab
      exact compareFrom_ne_different depth [] hp h
    | tooDeep => exact compareFrom_ne_tooDeep hdepth a b h

/-- Structural equality is bisimilarity. -/
theorem sameType_iff {a b : TypeId} : r.sameType a b = true ↔ r.Bisimilar a b :=
  isOk_compareFrom_iff le_rfl a b

@[simp] theorem sameType_refl (r : Registry) (a : TypeId) : r.sameType a a = true :=
  sameType_iff.2 (Or.inl rfl)

theorem sameType_symm {a b : TypeId} (h : r.sameType a b = true) : r.sameType b a = true :=
  sameType_iff.2 (sameType_iff.1 h).symm

theorem sameType_trans {a b c : TypeId} (hab : r.sameType a b = true) (hbc : r.sameType b c = true) :
    r.sameType a c = true :=
  sameType_iff.2 ((sameType_iff.1 hab).trans (sameType_iff.1 hbc))

theorem sameType_comm (r : Registry) (a b : TypeId) : r.sameType a b = r.sameType b a := by
  rw [Bool.eq_iff_iff]
  exact ⟨sameType_symm, sameType_symm⟩

theorem alike_of_sameType {a b : TypeId} {d : Descriptor} (h : r.sameType a b = true)
    (hd : r.get? a = some d) :
    ∃ e, r.get? b = some e ∧ d.Alike (fun t u => r.sameType t u = true) e := by
  obtain ⟨e, he, halike⟩ := (sameType_iff.1 h).alike hd
  exact ⟨e, he, halike.imp fun _ _ => sameType_iff.2⟩

theorem kind?_eq_of_sameType {a b : TypeId} (h : r.sameType a b = true) : r.kind? a = r.kind? b := by
  cases hd : r.get? a with
  | some d =>
    obtain ⟨e, he, halike⟩ := alike_of_sameType h hd
    simp [kind?, hd, he, halike.kind_eq]
  | none =>
    cases he : r.get? b with
    | none => simp [kind?, hd, he]
    | some e =>
      obtain ⟨d, hd', -⟩ := alike_of_sameType (sameType_symm h) he
      rw [hd] at hd'
      cases hd'

theorem sameType_eq_false_of_kind {a b : TypeId} {k l : Kind} (ha : r.kind? a = some k)
    (hb : r.kind? b = some l) (hne : k ≠ l) : r.sameType a b = false := by
  rw [Bool.eq_false_iff]
  intro hsame
  exact hne (Option.some.inj (ha.symm.trans ((kind?_eq_of_sameType hsame).trans hb)))

/-- Structural equality holds of two types exactly if they are equal or a bisimulation relates them. The
comparison comes to its end whatever the types are, and it is an equivalence. -/
theorem sameType_decides_bisimilarity (r : Registry) :
    (∀ a b, r.sameType a b = true ↔ a = b ∨ ∃ R, r.IsBisimulation R ∧ R a b) ∧
      (∀ a b depth, r.size * r.size ≤ depth →
        r.compareFrom depth [] (a, b) ≠ .error .tooDeep ∧
          (r.compareFrom depth [] (a, b)).isOk = r.sameType a b) ∧
      Equivalence fun a b => r.sameType a b = true := by
  refine ⟨fun a b => sameType_iff, ?_, ⟨sameType_refl r, sameType_symm, sameType_trans⟩⟩
  intro a b depth hdepth
  refine ⟨compareFrom_ne_tooDeep hdepth a b, ?_⟩
  rw [Bool.eq_iff_iff, sameType_iff]
  exact isOk_compareFrom_iff hdepth a b

end Registry

end ObjectModel
