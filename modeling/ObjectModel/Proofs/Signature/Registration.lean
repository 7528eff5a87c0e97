import Mathlib.Data.List.Induction
import ObjectModel.Proofs.Signature.RoundTrip
import ObjectModel.Proofs.Signature.Unfolding

/-!
Native functions after any number of registrations. What is found under a library and a name is the last
registration there whose text spells a signature, and it is given out exactly if this text is the one of
the expected signature.
-/

set_option autoImplicit false
set_option relaxedAutoImplicit false

namespace ObjectModel

/-- A call that registers a native function: its library and name, the text of its signature, and its
code address. -/
structure Registration where
  lib : String
  name : String
  text : String
  code : UInt64
  deriving DecidableEq, Repr, Inhabited

namespace Registration

/-- The text spells a signature. -/
def isAccepted (c : Registration) : Bool := (Signature.parse c.text).isOk

/-- The call is one for a library and a name, and accepted. -/
def concerns (lib name : String) (c : Registration) : Bool :=
  decide ((c.lib, c.name) = (lib, name)) && c.isAccepted

/-- The last accepted call for a library and a name. -/
def last? (calls : List Registration) (lib name : String) : Option Registration :=
  (calls.filter (concerns lib name)).getLast?

variable {calls before later : List Registration} {c : Registration} {lib name : String}

theorem isAccepted_iff : c.isAccepted = true ↔ ∃ s, Signature.parse c.text = .ok s := by
  unfold isAccepted
  cases Signature.parse c.text <;> simp [Except.isOk, Except.toBool]

theorem concerns_iff :
    c.concerns lib name = true ↔ (c.lib, c.name) = (lib, name) ∧ c.isAccepted = true := by
  rw [concerns, Bool.and_eq_true, decide_eq_true_eq]

theorem last?_concat : last? (calls ++ [c]) lib name =
    if c.concerns lib name then some c else last? calls lib name := by
  by_cases hc : c.concerns lib name = true
  · rw [last?, List.filter_append, List.filter_cons_of_pos hc, List.filter_nil,
      List.getLast?_concat, if_pos hc]
  · rw [last?, List.filter_append, List.filter_cons_of_neg hc, List.filter_nil, List.append_nil,
      if_neg hc, last?]

theorem last?_insert (hc : c.concerns lib name = false) :
    last? (before ++ c :: later) lib name = last? (before ++ later) lib name := by
  rw [last?, last?, List.filter_append, List.filter_append, List.filter_cons_of_neg (by simp [hc])]

theorem accepted_of_last? (hc : last? calls lib name = some c) :
    ∃ s, Signature.parse c.text = .ok s := by
  obtain ⟨-, hconcerns⟩ := List.mem_filter.1 (List.mem_of_getLast? hc)
  exact isAccepted_iff.1 (concerns_iff.1 hconcerns).2

end Registration

theorem Signature.text_inj {s s' : Signature} : s.text = s'.text ↔ s = s' := by
  refine ⟨fun h => ?_, congrArg text⟩
  have hparse := parse_text s
  rw [h, parse_text] at hparse
  exact (Except.ok.inj hparse).symm

namespace NativeTable

variable {table : NativeTable} {calls before later : List Registration} {c : Registration}
  {lib name : String} {r : Registry} {t : TypeId} {sig : Signature}

/-- The table after a call, which leaves it as it is if the text spells no signature. -/
def after (table : NativeTable) (c : Registration) : NativeTable :=
  match table.register c.lib c.name c.text c.code with
  | .ok table => table
  | .error _ => table

/-- The table after calls, one after the other. -/
def afterAll (calls : List Registration) : NativeTable := calls.foldl after {}

theorem register_error {e : SignatureError} (h : Signature.parse c.text = .error e) :
    table.register c.lib c.name c.text c.code = .error e := by
  rw [register, h]

private theorem lookup_filter {κ ν : Type} [BEq κ] [LawfulBEq κ] {k j : κ} (hne : j ≠ k)
    (entries : List (κ × ν)) : (entries.filter (·.1 != k)).lookup j = entries.lookup j := by
  induction entries with
  | nil => rfl
  | cons p rest ih =>
    obtain ⟨i, x⟩ := p
    by_cases hik : i = k
    · have hij : (j == i) = false := beq_false_of_ne (hik ▸ hne)
      rw [List.filter_cons_of_neg (by simp [hik]), ih, List.lookup_cons, hij]
    · rw [List.filter_cons_of_pos (by simpa using hik), List.lookup_cons, List.lookup_cons, ih]

theorem get?_after_accepted (h : Signature.parse c.text = .ok sig) :
    (table.after c).get? lib name =
      if (c.lib, c.name) = (lib, name) then some ⟨sig, c.code⟩ else table.get? lib name := by
  have hafter : table.after c =
      ⟨((c.lib, c.name), ⟨sig, c.code⟩) :: table.entries.filter (·.1 != (c.lib, c.name))⟩ := by
    rw [after, register, h]
  rw [hafter, get?, get?]
  by_cases heq : (c.lib, c.name) = (lib, name)
  · rw [if_pos heq, heq, List.lookup_cons_self]
  · have hne : (lib, name) ≠ (c.lib, c.name) := fun h => heq h.symm
    rw [if_neg heq, List.lookup_cons, beq_false_of_ne hne]
    exact lookup_filter hne _

theorem get?_after : (table.after c).get? lib name =
    if c.concerns lib name then (Signature.parse c.text).toOption.map (⟨·, c.code⟩)
    else table.get? lib name := by
  cases hparse : Signature.parse c.text with
  | error e =>
    have hrefused : c.concerns lib name = false := by
      simp [Registration.concerns, Registration.isAccepted, hparse, Except.isOk, Except.toBool]
    rw [after, register_error hparse, hrefused]
    rfl
  | ok s =>
    have haccepted : c.isAccepted = true := Registration.isAccepted_iff.2 ⟨s, hparse⟩
    rw [get?_after_accepted hparse]
    simp only [Registration.concerns_iff, haccepted, and_true]
    rfl

/-- What is found after any calls was registered by the last accepted one for the library and the name. -/
theorem get?_afterAll : (afterAll calls).get? lib name =
    (Registration.last? calls lib name).bind fun c =>
      (Signature.parse c.text).toOption.map (⟨·, c.code⟩) := by
  induction calls using List.reverseRecOn with
  | nil => rfl
  | append_singleton calls c ih =>
    rw [afterAll, List.foldl_append, List.foldl_cons, List.foldl_nil, get?_after,
      Registration.last?_concat, ← afterAll, ih]
    split <;> rfl

theorem resolve_congr {table' : NativeTable} (h : table.get? lib name = table'.get? lib name) :
    table.resolve r lib name t = table'.resolve r lib name t := by
  rw [resolve, resolve, h]

theorem resolve_insert (hc : c.concerns lib name = false) :
    (afterAll (before ++ c :: later)).resolve r lib name t =
      (afterAll (before ++ later)).resolve r lib name t := by
  apply resolve_congr
  rw [get?_afterAll, get?_afterAll, Registration.last?_insert hc]

theorem resolve_none (hsig : r.signatureOf t = .ok sig)
    (hlast : Registration.last? calls lib name = none) :
    (afterAll calls).resolve r lib name t = .error (.nativeNotFound lib name) := by
  rw [resolve, hsig, get?_afterAll, hlast]
  rfl

theorem resolve_some (hsig : r.signatureOf t = .ok sig)
    (hlast : Registration.last? calls lib name = some c) :
    (c.text = sig.text ∧ (afterAll calls).resolve r lib name t = .ok c.code) ∨
      ∃ found, c.text ≠ sig.text ∧ found.text = c.text ∧
        (afterAll calls).resolve r lib name t = .error (.nativeSignature lib name sig found) := by
  obtain ⟨found, hparse⟩ := Registration.accepted_of_last? hlast
  have htext := Signature.text_of_parse hparse
  have hresolve : (afterAll calls).resolve r lib name t =
      if found = sig then .ok c.code else .error (.nativeSignature lib name sig found) := by
    rw [resolve, hsig, get?_afterAll, hlast, Option.bind_some, hparse]
    rfl
  rw [hresolve]
  by_cases heq : found = sig
  · exact .inl ⟨by rw [← htext, heq], if_pos heq⟩
  · refine .inr ⟨found, fun h => heq ?_, htext, if_neg heq⟩
    exact Signature.text_inj.1 (htext.trans h)

/-- After any registrations a function type whose signature ends resolves a library and a name by the last
accepted call for them: to its code address if its text is, letter by letter, that of the signature, and
to a mismatch of signatures otherwise; without such a call nothing is found. A call whose text spells no
signature fails with the fault in the text, and neither such calls nor those for other libraries or names
ever matter. -/
theorem resolve_last_registered {args : List TypeId} {ret : TypeId}
    (hf : r.get? t = some (.function args ret)) (hends : r.Unfolds t) :
    (∃ sig, r.signatureOf t = .ok sig ∧ ∀ calls lib name,
      (∀ a, (afterAll calls).resolve r lib name t = .ok a ↔
        ∃ c, Registration.last? calls lib name = some c ∧ c.code = a ∧ c.text = sig.text) ∧
      ((afterAll calls).resolve r lib name t = .error (.nativeNotFound lib name) ↔
        Registration.last? calls lib name = none) ∧
      ∀ c, Registration.last? calls lib name = some c → c.text ≠ sig.text → ∃ found, found.text = c.text ∧
        (afterAll calls).resolve r lib name t = .error (.nativeSignature lib name sig found)) ∧
    (∀ (table : NativeTable) (c : Registration) e, Signature.parse c.text = .error e →
      table.register c.lib c.name c.text c.code = .error e) ∧
    ∀ before c later lib name, c.isAccepted = false ∨ (c.lib, c.name) ≠ (lib, name) → ∀ r t,
      (afterAll (before ++ c :: later)).resolve r lib name t =
        (afterAll (before ++ later)).resolve r lib name t := by
  obtain ⟨sig, hsig⟩ := Registry.exists_signatureOf hf hends
  refine ⟨⟨sig, hsig, fun calls lib name => ?_⟩, fun _ _ _ => register_error, ?_⟩
  · cases hlast : Registration.last? calls lib name with
    | none => simp [resolve_none hsig hlast]
    | some c =>
      obtain ⟨htext, hok⟩ | ⟨found, htext, hfound, herror⟩ := resolve_some hsig hlast
      · simp [hok, htext]
      · refine ⟨by simp [herror, htext], by simp [herror], ?_⟩
        rintro _ ⟨⟩ -
        exact ⟨found, hfound, herror⟩
  · intro before c later lib name hc r t
    refine resolve_insert (Bool.eq_false_iff.2 fun hconcerns => ?_)
    obtain ⟨hpair, haccepted⟩ := Registration.concerns_iff.1 hconcerns
    rcases hc with hrefused | hother
    · exact Bool.false_ne_true (hrefused.symm.trans haccepted)
    · exact hother hpair

/-- The second call for `std@each` is refused, so that the first one still counts. -/
theorem callbacks_registered :
    let calls : List Registration :=
      [⟨"std", "each", "PROi_v", 1⟩, ⟨"std", "each", "PROi", 2⟩, ⟨"std", "map", "Pi_v", 3⟩]
    Registry.callbackTypes.get? (.ofIndex 16) = some (.function [.ofIndex 13, .i32] .void) ∧
      Registry.callbackTypes.Unfolds (.ofIndex 16) ∧ ∃ sig,
        Registry.callbackTypes.signatureOf (.ofIndex 16) = .ok sig ∧ sig.text = "PROi_v" ∧
        (afterAll calls).resolve .callbackTypes "std" "each" (.ofIndex 16) = .ok 1 ∧
        (afterAll calls).resolve .callbackTypes "std" "fold" (.ofIndex 16) =
          .error (.nativeNotFound "std" "fold") ∧
        ∃ found, found.text = "Pi_v" ∧ (afterAll calls).resolve .callbackTypes "std" "map" (.ofIndex 16) =
          .error (.nativeSignature "std" "map" sig found) := by
  intro calls
  have hf : Registry.callbackTypes.get? (.ofIndex 16) = some (.function [.ofIndex 13, .i32] .void) := by
    decide +kernel
  have hends : Registry.callbackTypes.Unfolds (.ofIndex 16) := Registry.exists_shapeOf.1 ⟨_, rfl⟩
  obtain ⟨⟨sig, hsig, hlast⟩, -⟩ := resolve_last_registered hf hends
  have htext : (Registry.callbackTypes.signatureOf (.ofIndex 16)).map Signature.text = .ok "PROi_v" := by
    decide +kernel
  rw [hsig] at htext
  replace htext : sig.text = "PROi_v" := Except.ok.inj htext
  have heach : Registration.last? calls "std" "each" = some ⟨"std", "each", "PROi_v", 1⟩ := by
    decide +kernel
  have hmap : Registration.last? calls "std" "map" = some ⟨"std", "map", "Pi_v", 3⟩ := by decide +kernel
  have hfold : Registration.last? calls "std" "fold" = none := by decide +kernel
  refine ⟨hf, hends, sig, hsig, htext, ?_, ?_, ?_⟩
  · exact ((hlast calls _ _).1 1).2 ⟨_, heach, rfl, htext.symm⟩
  · exact (hlast calls _ _).2.1.2 hfold
  · exact (hlast calls _ _).2.2 _ hmap (by rw [htext]; decide)

end NativeTable

end ObjectModel
