import Mathlib.Data.Finset.Card
import ObjectModel.Machine
import ObjectModel.Proofs.Layout.Members
import ObjectModel.Proofs.Registry.Bisimulation

/-!
Which types have a signature, and what it depends on. A signature is read off a type and the types that
it is made of, which may lead back to it; there is one exactly if this comes to an end everywhere. It is
then the same for all types that are the same by structure.
-/

set_option autoImplicit false
set_option relaxedAutoImplicit false

namespace ObjectModel

/-- The shape of the types of a kind, where they are not made of other types. -/
def Kind.shape? : Kind → Option Shape
  | void => some .void
  | i8 => some .i8
  | i16 => some .i16
  | i32 => some .i32
  | f32 => some .f32
  | f64 => some .f64
  | bool => some .bool
  | bytes => some .bytes
  | dynamic | virtual | dynobj | abstract | enum => some .dynamic
  | object => some .object
  | array => some .array
  | type => some .type
  | function | ref | null => none

private theorem TypeId.eq_of_index {t u : TypeId} (h : t.index = u.index) : t = u := by
  cases t
  cases u
  exact congrArg mk (UInt32.toNat_inj.1 h)

namespace Descriptor

/-- The types that a shape is made of. -/
def shapeParts : Descriptor → List TypeId
  | function args ret => args ++ [ret]
  | ref t | null t => [t]
  | _ => []

theorem shape_cases (d : Descriptor) :
    (∃ s, d.kind.shape? = some s ∧ d.shapeParts = []) ∨ (∃ t, d = ref t) ∨ (∃ t, d = null t) ∨
      ∃ args ret, d = function args ret := by
  cases d <;> simp [kind, Kind.shape?, shapeParts]

variable {R : TypeId → TypeId → Prop} {e : Descriptor} {t : TypeId}

theorem Alike.of_ref (h : (ref t).Alike R e) : ∃ u, e = ref u ∧ R t u := by
  cases e <;> simp_all [Alike, kind]

theorem Alike.of_null (h : (null t).Alike R e) : ∃ u, e = null u ∧ R t u := by
  cases e <;> simp_all [Alike, kind]

end Descriptor

namespace Registry

variable {r : Registry} {t u : TypeId} {n : Nat} {s : Shape} {c : Signature}

/-- A signature ends at a type: the type is registered, and the signature ends at all types that the
type's shape is made of. -/
inductive Unfolds (r : Registry) : TypeId → Prop
  | of_parts {t : TypeId} {d : Descriptor} : r.get? t = some d → (∀ u ∈ d.shapeParts, Unfolds r u) →
    Unfolds r t

/-! ### Reading a shape one level deep -/

/-- The arguments and the result of a call have these shapes, each found by `shape`. -/
def Calls (shape : TypeId → Except TypeError Shape) (args : List TypeId) (ret : TypeId) (c : Signature) :
    Prop :=
  List.Forall₂ (fun t s => shape t = .ok s) args c.args ∧ shape ret = .ok c.result

variable {shape : TypeId → Except TypeError Shape} {args args' : List TypeId} {ret ret' : TypeId}

theorem calls_iff : (do
    let shapes ← args.mapM shape
    return Signature.ofArgs shapes (← shape ret) : Except TypeError Signature) = .ok c ↔
      Calls shape args ret c := by
  simp only [Outcome.bind_eq_ok, Outcome.pure_eq_ok, Outcome.mapM_eq_ok, Calls]
  constructor
  · rintro ⟨shapes, hargs, s, hret, rfl⟩
    rw [Signature.args_ofArgs, Signature.result_ofArgs]
    exact ⟨hargs, hret⟩
  · rintro ⟨hargs, hret⟩
    exact ⟨_, hargs, _, hret, Signature.ofArgs_args_result c⟩

theorem exists_calls : (∃ c, Calls shape args ret c) ↔ ∀ t ∈ args ++ [ret], ∃ s, shape t = .ok s := by
  rw [List.forall_mem_append, List.forall_mem_singleton, ← Outcome.exists_mapM]
  constructor
  · rintro ⟨c, hargs, hret⟩
    exact ⟨⟨_, Outcome.mapM_eq_ok.2 hargs⟩, _, hret⟩
  · rintro ⟨⟨shapes, hargs⟩, s, hret⟩
    refine ⟨.ofArgs shapes s, ?_, ?_⟩
    · rw [Signature.args_ofArgs]
      exact Outcome.mapM_eq_ok.1 hargs
    · rw [Signature.result_ofArgs]
      exact hret

theorem Calls.trans (h : Calls shape args ret c) {R : TypeId → TypeId → Prop}
    (hshape : ∀ t u s, R t u → shape t = .ok s → shape u = .ok s) (hargs : List.Forall₂ R args args')
    (hret : R ret ret') : Calls shape args' ret' c := by
  obtain ⟨hshapes, hresult⟩ := h
  refine ⟨?_, hshape _ _ _ hret hresult⟩
  generalize c.args = shapes at hshapes ⊢
  induction hargs generalizing shapes with
  | nil => exact hshapes
  | cons htu _ ih =>
    cases hshapes with
    | cons hs hrest => exact .cons (hshape _ _ _ htu hs) (ih _ hrest)

theorem shapeAt_plain {d : Descriptor} (hd : r.get? t = some d) (hs : d.kind.shape? = some s) :
    r.shapeAt (n + 1) t = .ok s := by
  rw [shapeAt, get_eq_ok.2 hd]
  cases d <;> cases hs <;> rfl

theorem shapeAt_ref (hd : r.get? t = some (.ref u)) :
    r.shapeAt (n + 1) t = .ok s ↔ ∃ x, r.shapeAt n u = .ok x ∧ Shape.ref x = s := by
  rw [shapeAt, get_eq_ok.2 hd]
  change (r.shapeAt n u >>= fun x => pure (Shape.ref x)) = .ok s ↔ _
  simp only [Outcome.bind_eq_ok, Outcome.pure_eq_ok]

theorem shapeAt_null (hd : r.get? t = some (.null u)) :
    r.shapeAt (n + 1) t = .ok s ↔ ∃ x, r.shapeAt n u = .ok x ∧ Shape.null x = s := by
  rw [shapeAt, get_eq_ok.2 hd]
  change (r.shapeAt n u >>= fun x => pure (Shape.null x)) = .ok s ↔ _
  simp only [Outcome.bind_eq_ok, Outcome.pure_eq_ok]

theorem shapeAt_function (hd : r.get? t = some (.function args ret)) :
    r.shapeAt (n + 1) t = .ok s ↔ ∃ c, Calls (r.shapeAt n) args ret c ∧ Shape.function c = s := by
  rw [shapeAt, get_eq_ok.2 hd]
  change (args.mapM (r.shapeAt n) >>= fun shapes =>
    r.shapeAt n ret >>= fun x => pure (Shape.function (.ofArgs shapes x))) = .ok s ↔ _
  simp only [← calls_iff, Outcome.bind_eq_ok, Outcome.pure_eq_ok]
  constructor
  · rintro ⟨shapes, hargs, x, hret, rfl⟩
    exact ⟨_, ⟨shapes, hargs, x, hret, rfl⟩, rfl⟩
  · rintro ⟨_, ⟨shapes, hargs, x, hret, rfl⟩, rfl⟩
    exact ⟨shapes, hargs, x, hret, rfl⟩

theorem signatureOf_function (hd : r.get? t = some (.function args ret)) :
    r.signatureOf t = .ok c ↔ Calls r.shapeOf args ret c := by
  rw [signatureOf, function, hd]
  exact calls_iff

/-! ### Signatures that end -/

/-- A signature ends below a type within a number of levels. -/
def EndsWithin (r : Registry) : Nat → TypeId → Prop
  | 0, _ => False
  | n + 1, t => ∃ d, r.get? t = some d ∧ ∀ u ∈ d.shapeParts, r.EndsWithin n u

theorem EndsWithin.mono {m : Nat} (h : r.EndsWithin n t) (hnm : n ≤ m) : r.EndsWithin m t := by
  induction n generalizing m t with
  | zero => exact h.elim
  | succ n ih =>
    obtain ⟨d, hd, hparts⟩ := h
    cases m with
    | zero => omega
    | succ m => exact ⟨d, hd, fun u hu => ih (hparts u hu) (by omega)⟩

theorem EndsWithin.unfolds (h : r.EndsWithin n t) : r.Unfolds t := by
  induction n generalizing t with
  | zero => exact h.elim
  | succ n ih =>
    obtain ⟨d, hd, hparts⟩ := h
    exact .of_parts hd fun u hu => ih (hparts u hu)

theorem exists_endsWithin_all {parts : List TypeId} (h : ∀ u ∈ parts, ∃ n, r.EndsWithin n u) :
    ∃ n, ∀ u ∈ parts, r.EndsWithin n u := by
  induction parts with
  | nil => exact ⟨0, List.forall_mem_nil _⟩
  | cons u parts ih =>
    obtain ⟨⟨m, hm⟩, hrest⟩ := List.forall_mem_cons.1 h
    obtain ⟨n, hn⟩ := ih hrest
    exact ⟨max m n, List.forall_mem_cons.2
      ⟨hm.mono (le_max_left _ _), fun v hv => (hn v hv).mono (le_max_right _ _)⟩⟩

theorem exists_endsWithin (h : r.Unfolds t) : ∃ n, r.EndsWithin n t := by
  induction h with
  | of_parts hd _ ih =>
    obtain ⟨n, hn⟩ := exists_endsWithin_all ih
    exact ⟨n + 1, _, hd, hn⟩

/-- The levels of a signature that just ends. -/
def Levels (r : Registry) (n : Nat) (t : TypeId) : Prop := r.EndsWithin (n + 1) t ∧ ¬r.EndsWithin n t

theorem Levels.below (h : r.Levels (n + 1) t) : ∃ u, r.Levels n u := by
  obtain ⟨⟨d, hd, hparts⟩, hnot⟩ := h
  by_contra hnone
  refine hnot ⟨d, hd, fun u hu => ?_⟩
  by_contra hu'
  exact hnone ⟨u, hparts u hu, hu'⟩

theorem Levels.exists_of_le {k : Nat} (h : r.Levels n t) (hk : k ≤ n) : ∃ u, r.Levels k u := by
  induction hk using Nat.decreasingInduction with
  | self => exact ⟨t, h⟩
  | of_succ k hk ih =>
    obtain ⟨u, hu⟩ := ih
    exact hu.below

theorem Levels.unique {m : Nat} (hn : r.Levels n t) (hm : r.Levels m t) : n = m := by
  rcases Nat.lt_trichotomy n m with hlt | heq | hlt
  · exact absurd (hn.1.mono hlt) hm.2
  · exact heq
  · exact absurd (hm.1.mono hlt) hn.2

theorem Levels.lt_size (h : r.Levels n t) : n < r.size := by
  choose! u hu using fun k (hk : k ≤ n) => h.exists_of_le hk
  have hmaps : ∀ k ∈ Finset.range (n + 1), (u k).index ∈ Finset.range r.size := by
    intro k hk
    obtain ⟨⟨d, hd, -⟩, -⟩ := hu k (Finset.mem_range_succ_iff.1 hk)
    obtain ⟨hlt, -⟩ := Array.getElem?_eq_some_iff.1 hd
    exact Finset.mem_range.2 hlt
  have hinj : Set.InjOn (fun k => (u k).index) (Finset.range (n + 1)) := by
    intro k hk l hl heq
    have hk' := hu k (Finset.mem_range_succ_iff.1 hk)
    have hl' := hu l (Finset.mem_range_succ_iff.1 hl)
    rw [TypeId.eq_of_index heq] at hk'
    exact hk'.unique hl'
  have hcard := Finset.card_le_card_of_injOn _ hmaps hinj
  rwa [Finset.card_range, Finset.card_range] at hcard

theorem EndsWithin.le_size (h : r.EndsWithin n t) : r.EndsWithin r.size t := by
  induction n with
  | zero => exact h.elim
  | succ n ih =>
    by_cases hless : r.EndsWithin n t
    · exact ih hless
    · have hlevels : r.Levels n t := ⟨h, hless⟩
      exact h.mono hlevels.lt_size

/-- A shape is found within as many levels as it has. -/
theorem exists_shapeAt : (∃ s, r.shapeAt n t = .ok s) ↔ r.EndsWithin n t := by
  induction n generalizing t with
  | zero => simp [shapeAt, EndsWithin]
  | succ n ih =>
    cases hd : r.get? t with
    | none => simp [shapeAt, EndsWithin, get, hd, bind, Except.bind]
    | some d =>
      have hends : r.EndsWithin (n + 1) t ↔ ∀ u ∈ d.shapeParts, ∃ s, r.shapeAt n u = .ok s := by
        simp only [EndsWithin, hd, Option.some.injEq, exists_eq_left', ih]
      rw [hends]
      rcases d.shape_cases with ⟨s, hs, hparts⟩ | ⟨u, rfl⟩ | ⟨u, rfl⟩ | ⟨args, ret, rfl⟩
      · exact iff_of_true ⟨s, shapeAt_plain hd hs⟩ (hparts ▸ List.forall_mem_nil _)
      · simp [shapeAt_ref hd, Descriptor.shapeParts]
      · simp [shapeAt_null hd, Descriptor.shapeParts]
      · rw [Descriptor.shapeParts, ← exists_calls]
        simp [shapeAt_function hd]

theorem exists_shapeOf : (∃ s, r.shapeOf t = .ok s) ↔ r.Unfolds t := by
  rw [shapeOf, exists_shapeAt]
  refine ⟨EndsWithin.unfolds, fun h => ?_⟩
  obtain ⟨n, hn⟩ := exists_endsWithin h
  exact hn.le_size.mono (Nat.le_succ _)

/-! ### Signatures of types that are the same -/

theorem shapeAt_of_sameType (h : r.sameType t u = true) (hs : r.shapeAt n t = .ok s) :
    r.shapeAt n u = .ok s := by
  induction n generalizing t u s with
  | zero => cases hs
  | succ n ih =>
    obtain ⟨d, hd, -⟩ := exists_shapeAt.1 ⟨s, hs⟩
    obtain ⟨e, he, halike⟩ := alike_of_sameType h hd
    rcases d.shape_cases with ⟨x, hx, -⟩ | ⟨v, rfl⟩ | ⟨v, rfl⟩ | ⟨args, ret, rfl⟩
    · rw [← hs, shapeAt_plain hd hx, shapeAt_plain he (halike.kind_eq ▸ hx)]
    · obtain ⟨v', rfl, hv⟩ := halike.of_ref
      obtain ⟨x, hx, rfl⟩ := (shapeAt_ref hd).1 hs
      exact (shapeAt_ref he).2 ⟨x, ih hv hx, rfl⟩
    · obtain ⟨v', rfl, hv⟩ := halike.of_null
      obtain ⟨x, hx, rfl⟩ := (shapeAt_null hd).1 hs
      exact (shapeAt_null he).2 ⟨x, ih hv hx, rfl⟩
    · obtain ⟨args', ret', rfl, hargs, hret⟩ := halike.of_function
      obtain ⟨c, hc, rfl⟩ := (shapeAt_function hd).1 hs
      exact (shapeAt_function he).2 ⟨c, hc.trans (fun _ _ _ => ih) hargs hret, rfl⟩

theorem shapeOf_iff_of_sameType (h : r.sameType t u = true) : r.shapeOf t = .ok s ↔ r.shapeOf u = .ok s :=
  ⟨shapeAt_of_sameType h, shapeAt_of_sameType (sameType_symm h)⟩

/-- A function type whose signature ends has a signature. -/
theorem exists_signatureOf (hf : r.get? t = some (.function args ret)) (h : r.Unfolds t) :
    ∃ c, r.signatureOf t = .ok c := by
  cases h with
  | of_parts hd hparts =>
    obtain rfl := Option.some.inj (hf.symm.trans hd)
    simp only [signatureOf_function hf]
    exact exists_calls.2 fun u hu => exists_shapeOf.2 (hparts u hu)

/-- Types that are the same by structure pass alike in calls. A type has a shape exactly if its signature
ends, and all types that are the same have that shape; so two function types that are the same have
one signature, and resolve every native function alike. -/
theorem signature_of_structure (r : Registry) :
    (∀ t, (∃ s, r.shapeOf t = .ok s) ↔ r.Unfolds t) ∧
    (∀ t u s, r.sameType t u = true → (r.shapeOf t = .ok s ↔ r.shapeOf u = .ok s)) ∧
    ∀ f g args ret, r.get? f = some (.function args ret) → r.Unfolds f → r.sameType f g = true →
      ∃ c, r.signatureOf f = .ok c ∧ r.signatureOf g = .ok c ∧
        ∀ (table : NativeTable) (lib name : String),
          table.resolve r lib name g = table.resolve r lib name f := by
  refine ⟨fun t => exists_shapeOf, fun t u s => shapeOf_iff_of_sameType, ?_⟩
  intro f g args ret hf hends hsame
  obtain ⟨c, hc⟩ := exists_signatureOf hf hends
  obtain ⟨e, he, halike⟩ := alike_of_sameType hsame hf
  obtain ⟨args', ret', rfl, hargs, hret⟩ := halike.of_function
  have hc' : r.signatureOf g = .ok c :=
    (signatureOf_function he).2 (((signatureOf_function hf).1 hc).trans
      (fun _ _ _ h => (shapeOf_iff_of_sameType h).1) hargs hret)
  refine ⟨c, hc, hc', fun table lib name => ?_⟩
  rw [NativeTable.resolve, NativeTable.resolve, hc, hc']

/-- Two functions that take a function which takes a reference to a node. The nodes lead to themselves, and
are the same by structure. -/
def callbackTypes : Registry :=
  ⟨(Descriptor.builtins ++
    ([.object ⟨"Node", none, [⟨"next", .ofIndex 13⟩], []⟩, .ref (.ofIndex 12),
      .object ⟨"Node", none, [⟨"next", .ofIndex 15⟩], []⟩, .ref (.ofIndex 14),
      .function [.ofIndex 13, .i32] .void, .function [.ofIndex 15, .i32] .void, .null .f64,
      .function [.ofIndex 16] (.ofIndex 18), .function [.ofIndex 17] (.ofIndex 18)] :
        List Descriptor)).toArray⟩

theorem callbackTypes_signature :
    callbackTypes.sameType (.ofIndex 19) (.ofIndex 20) = true ∧ ∃ c, c.text = "PPROi_v_Nd" ∧
      callbackTypes.signatureOf (.ofIndex 19) = .ok c ∧ callbackTypes.signatureOf (.ofIndex 20) = .ok c := by
  have hf : callbackTypes.get? (.ofIndex 19) = some (.function [.ofIndex 16] (.ofIndex 18)) := by decide +kernel
  have hsame : callbackTypes.sameType (.ofIndex 19) (.ofIndex 20) = true := by decide +kernel
  have htext : (callbackTypes.signatureOf (.ofIndex 19)).map Signature.text = .ok "PPROi_v_Nd" := by
    decide +kernel
  obtain ⟨hunfolds, -, hfunctions⟩ := signature_of_structure callbackTypes
  have hends : callbackTypes.Unfolds (.ofIndex 19) := (hunfolds _).1 ⟨_, rfl⟩
  obtain ⟨c, hc, hc', -⟩ := hfunctions _ _ _ _ hf hends hsame
  rw [hc] at htext
  exact ⟨hsame, c, Except.ok.inj htext, hc, hc'⟩

end Registry

end ObjectModel
