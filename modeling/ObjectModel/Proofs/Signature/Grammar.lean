import Mathlib.Data.List.Infix
import Mathlib.Data.Set.List
import ObjectModel.Proofs.Signature.RoundTrip

/-!
The grammar of signatures, and what is found wrong with a text that it does not derive. What is open
at any byte can still be brought to an end, so that the reading goes on exactly as long as the bytes so
far are the beginning of a sentence.
-/

set_option autoImplicit false
set_option relaxedAutoImplicit false

namespace ObjectModel

namespace Signature

/-! ### The grammar -/

/-- The letters of the shapes that stand alone. -/
def leaves : List Char := ['v', 'c', 's', 'i', 'f', 'd', 'b', 'B', 'X', 'O', 'A', 'T']

mutual

/-- The letters of a shape: a leaf, a reference or a nullable of a shape, or a call. -/
inductive IsShape : List Char → Prop
  | leaf {c : Char} (h : c ∈ leaves) : IsShape [c]
  | ref {t : List Char} (h : IsShape t) : IsShape ('R' :: t)
  | null {t : List Char} (h : IsShape t) : IsShape ('N' :: t)
  | call {t : List Char} (h : IsCall t) : IsShape t

/-- The letters of a call: any number of shapes between `P` and `_`, and one more for the result. -/
inductive IsCall : List Char → Prop
  | mk {args : List (List Char)} {result : List Char} (hargs : ∀ a ∈ args, IsShape a)
      (hresult : IsShape result) : IsCall ('P' :: args.flatten ++ '_' :: result)

end

private theorem letters_eq (call : Signature) :
    call.letters = 'P' :: (call.args.map Shape.letters).flatten ++ '_' :: call.result.letters := by
  have hbody : (call : Signature) →
      call.body = (call.args.map Shape.letters).flatten ++ '_' :: call.result.letters := by
    intro call
    induction call using Signature.rec (motive_1 := fun _ => True) with
    | returns s => rfl
    | takes s call _ ih =>
      rw [Signature.body, ih, args, result, List.map_cons, List.flatten_cons, List.append_assoc]
    | _ => trivial
  rw [Signature.letters, hbody, List.cons_append]

mutual

private theorem isShape_letters : (s : Shape) → IsShape s.letters
  | .void | .i8 | .i16 | .i32 | .f32 | .f64 | .bool | .bytes | .dynamic | .object | .array | .type =>
    .leaf (by decide)
  | .ref s => .ref (isShape_letters s)
  | .null s => .null (isShape_letters s)
  | .function call => by
    obtain ⟨hargs, hresult⟩ := isShape_parts call
    have hcall : IsCall call.letters := by
      rw [letters_eq]
      exact .mk (List.forall_mem_map.2 hargs) hresult
    exact .call hcall

private theorem isShape_parts :
    (call : Signature) → (∀ s ∈ call.args, IsShape s.letters) ∧ IsShape call.result.letters
  | .returns s => ⟨List.forall_mem_nil _, isShape_letters s⟩
  | .takes s call => by
    obtain ⟨hargs, hresult⟩ := isShape_parts call
    exact ⟨List.forall_mem_cons.2 ⟨isShape_letters s, hargs⟩, hresult⟩

end

private theorem exists_leaf {c : Char} (h : c ∈ leaves) : ∃ s : Shape, s.letters = [c] := by
  simp only [leaves, List.mem_cons, List.not_mem_nil, or_false] at h
  rcases h with rfl | rfl | rfl | rfl | rfl | rfl | rfl | rfl | rfl | rfl | rfl | rfl
  exacts [⟨.void, rfl⟩, ⟨.i8, rfl⟩, ⟨.i16, rfl⟩, ⟨.i32, rfl⟩, ⟨.f32, rfl⟩, ⟨.f64, rfl⟩, ⟨.bool, rfl⟩,
    ⟨.bytes, rfl⟩, ⟨.dynamic, rfl⟩, ⟨.object, rfl⟩, ⟨.array, rfl⟩, ⟨.type, rfl⟩]

mutual

private theorem exists_shape {t : List Char} : IsShape t → ∃ s : Shape, s.letters = t
  | .leaf h => exists_leaf h
  | .ref h => by
    obtain ⟨s, rfl⟩ := exists_shape h
    exact ⟨.ref s, rfl⟩
  | .null h => by
    obtain ⟨s, rfl⟩ := exists_shape h
    exact ⟨.null s, rfl⟩
  | .call h => by
    obtain ⟨call, rfl⟩ := exists_call h
    exact ⟨.function call, rfl⟩

private theorem exists_call {t : List Char} : IsCall t → ∃ call : Signature, call.letters = t
  | @IsCall.mk args result hargs hresult => by
    have hall : ∀ a ∈ args, ∃ s : Shape, s.letters = a := fun a ha => exists_shape (hargs a ha)
    obtain ⟨r, rfl⟩ := exists_shape hresult
    obtain ⟨shapes, rfl⟩ : args ∈ Set.range (List.map Shape.letters) := by
      rw [Set.range_list_map]
      exact hall
    refine ⟨ofArgs shapes r, ?_⟩
    rw [letters_eq, args_ofArgs, result_ofArgs]

end

/-- The grammar derives exactly the letters of signatures. -/
theorem isCall_iff {t : List Char} : IsCall t ↔ ∃ call : Signature, call.letters = t := by
  refine ⟨exists_call, ?_⟩
  rintro ⟨call, rfl⟩
  obtain ⟨hargs, hresult⟩ := isShape_parts call
  rw [letters_eq]
  exact .mk (List.forall_mem_map.2 hargs) hresult

/-! ### The bytes of a text -/

/-- The bytes of a text. -/
def bytesOf (text : String) : List UInt8 := text.toUTF8.data.toList

/-- The bytes of a text that the grammar derives. -/
def Sentence (bytes : List UInt8) : Prop := ∃ letters, IsCall letters ∧ bytes = encoded letters

/-- Bytes with which a sentence may begin. -/
def Viable (bytes : List UInt8) : Prop := ∃ y, Sentence y ∧ bytes <+: y

private theorem sentence_iff {bytes : List UInt8} :
    Sentence bytes ↔ ∃ call : Signature, bytes = callByte :: call.encoding := by
  have hencoded (call : Signature) : encoded call.letters = callByte :: call.encoding :=
    encoding_function call
  simp only [Sentence, isCall_iff]
  constructor
  · rintro ⟨_, ⟨call, rfl⟩, rfl⟩
    exact ⟨call, hencoded call⟩
  · rintro ⟨call, rfl⟩
    exact ⟨call.letters, ⟨call, rfl⟩, (hencoded call).symm⟩

private theorem sentence_bytesOf {text : String} : Sentence (bytesOf text) ↔ IsCall text.toList := by
  constructor
  · rintro ⟨letters, hcall, hbytes⟩
    rw [← bytes_ofList] at hbytes
    obtain rfl := String.toByteArray_inj.1 (ByteArray.ext (Array.toList_inj.1 hbytes))
    rwa [String.toList_ofList]
  · intro hcall
    refine ⟨text.toList, hcall, ?_⟩
    rw [← bytes_ofList, String.ofList_toList]
    rfl

theorem Viable.of_isPrefix {x y : List UInt8} (hy : Viable y) (h : x <+: y) : Viable x := by
  obtain ⟨z, hz, hyz⟩ := hy
  exact ⟨z, hz, h.trans hyz⟩

theorem Sentence.viable {bytes : List UInt8} (h : Sentence bytes) : Viable bytes :=
  ⟨bytes, h, List.prefix_rfl⟩

/-! ### How far a reading comes -/

/-- The reading of `bytes` comes to position `pos`, where `p` is open and `rest` is still to be read. -/
inductive ComesTo (bytes : List UInt8) : (pos : Nat) → (p : Progress) → (rest : List UInt8) → Prop
  | start : ComesTo bytes 0 .start bytes
  | next {pos : Nat} {p q : Progress} {b : UInt8} {rest : List UInt8}
      (h : ComesTo bytes pos p (b :: rest)) (hstep : step pos b p = .ok q) :
      ComesTo bytes (pos + 1) q rest

namespace ComesTo

variable {bytes rest : List UInt8} {pos : Nat} {p : Progress} {b : UInt8}

private theorem consumed (h : ComesTo bytes pos p rest) :
    p.InCall ∧ p.encoding.length = pos ∧ bytes = p.encoding ++ rest := by
  induction h with
  | start => exact ⟨trivial, rfl, rfl⟩
  | next _ hstep ih =>
    obtain ⟨hcall, rfl, rfl⟩ := ih
    obtain ⟨hencoding, hcall'⟩ := step_encoding hcall hstep
    rw [hencoding, List.length_append, List.append_assoc]
    exact ⟨hcall', rfl, rfl⟩

theorem read_eq (h : ComesTo bytes pos p rest) : read 0 .start bytes = read pos p rest := by
  induction h with
  | start => rfl
  | next _ hstep ih => rw [ih, read_cons _ hstep]

private theorem congr (h : ComesTo bytes pos p rest) (rest' : List UInt8) :
    ComesTo (p.encoding ++ rest') pos p rest' := by
  induction h generalizing rest' with
  | start => exact .start
  | @next pos p q b rest h hstep ih =>
    obtain ⟨hencoding, -⟩ := step_encoding h.consumed.1 hstep
    rw [hencoding, List.append_assoc]
    exact .next (ih (b :: rest')) hstep

private theorem exists_end (bytes : List UInt8) :
    (∃ pos p, ComesTo bytes pos p []) ∨
      ∃ pos p b rest e, ComesTo bytes pos p (b :: rest) ∧ step pos b p = .error e := by
  have hfrom : ∀ rest pos p, ComesTo bytes pos p rest →
      (∃ pos p, ComesTo bytes pos p []) ∨
        ∃ pos p b rest e, ComesTo bytes pos p (b :: rest) ∧ step pos b p = .error e := by
    intro rest
    induction rest with
    | nil => exact fun pos p h => Or.inl ⟨pos, p, h⟩
    | cons b rest ih =>
      intro pos p h
      cases hstep : step pos b p with
      | error e => exact Or.inr ⟨pos, p, b, rest, e, h, hstep⟩
      | ok q => exact ih (pos + 1) q (h.next hstep)
  exact hfrom bytes 0 .start .start

end ComesTo

/-- The signature is not yet complete. -/
def Progress.IsOpen : Progress → Prop
  | .start | .inside _ => True
  | .complete _ => False

private theorem step_error {pos : Nat} {b : UInt8} {p : Progress} {e : SignatureError}
    (h : step pos b p = .error e) :
    (∃ call, p = .complete call ∧ e = .trailing pos) ∨ p.IsOpen ∧ e = .invalidCode b pos := by
  have hshape {frames : List Frame} (h : expectShape pos b frames = .error e) :
      e = .invalidCode b pos := by
    unfold expectShape at h
    split at h <;> cases h
    rfl
  unfold step at h
  split at h
  · split_ifs at h
    exact Or.inr ⟨trivial, (Except.error.inj h).symm⟩
  · split_ifs at h
    exact Or.inr ⟨trivial, hshape h⟩
  · exact Or.inr ⟨trivial, hshape h⟩
  · exact Or.inl ⟨_, rfl, (Except.error.inj h).symm⟩

private theorem exists_completion {frames : List Frame} (hcall : (Progress.inside frames).InCall) (s : Shape) :
    ∃ rest, Sentence (framesEncoding frames ++ s.encoding ++ rest) := by
  have hclose {frames : List Frame}
      (ih : (Progress.inside frames).InCall → ∀ s : Shape,
        ∃ rest, Sentence (framesEncoding frames ++ s.encoding ++ rest))
      (hinner : frames ≠ [] → (Progress.inside frames).InCall) (call : Signature) :
      ∃ rest, Sentence (framesEncoding frames ++ callByte :: call.encoding ++ rest) := by
    by_cases hnil : frames = []
    · subst hnil
      exact ⟨[], sentence_iff.2 ⟨call, List.append_nil _⟩⟩
    · rw [← encoding_function]
      exact ih (hinner hnil) (.function call)
  induction frames generalizing s with
  | nil => cases hcall
  | cons f frames ih =>
    rw [framesEncoding_cons]
    cases f with
    | ref =>
      have hinner := inCall_of_cons hcall fun href => absurd href Bool.false_ne_true
      simpa [Frame.encoding, Shape.encoding_ref] using ih hinner (.ref s)
    | null =>
      have hinner := inCall_of_cons hcall fun hnull => absurd hnull Bool.false_ne_true
      simpa [Frame.encoding, Shape.encoding_null] using ih hinner (.null s)
    | args before =>
      have hinner (hne : frames ≠ []) := inCall_of_cons hcall (fun _ => hne)
      obtain ⟨rest, hrest⟩ := hclose ih hinner (ofArgs (before.reverse ++ [s]) .void)
      refine ⟨resultByte :: (Shape.encoding .void ++ rest), ?_⟩
      simpa [Frame.encoding, encoding_ofArgs] using hrest
    | result before =>
      have hinner (hne : frames ≠ []) := inCall_of_cons hcall (fun _ => hne)
      obtain ⟨rest, hrest⟩ := hclose ih hinner (ofArgs before.reverse s)
      refine ⟨rest, ?_⟩
      simpa [Frame.encoding, encoding_ofArgs] using hrest

private theorem Progress.IsOpen.begins {p : Progress} (hopen : p.IsOpen) (hcall : p.InCall) :
    ∃ y, Sentence y ∧ p.encoding <+: y ∧ p.encoding ≠ y := by
  cases p with
  | start =>
    exact ⟨_, sentence_iff.2 ⟨.returns .void, rfl⟩, List.nil_prefix, (List.cons_ne_nil _ _).symm⟩
  | inside frames =>
    obtain ⟨rest, hrest⟩ := exists_completion hcall .void
    rw [List.append_assoc] at hrest
    refine ⟨_, hrest, List.prefix_append _ _, ?_⟩
    intro heq
    have hlength := congrArg List.length heq
    have hvoid : (Shape.encoding .void).length = 1 := rfl
    simp only [Progress.encoding, List.length_append] at hlength
    omega
  | complete call => exact hopen.elim

/-! ### What is found in a text -/

/-- The bytes can be read up to position `p` and not further. -/
def EndsAt (bytes : List UInt8) (p : Nat) : Prop :=
  p < bytes.length ∧ Viable (bytes.take p) ∧ ¬ Viable (bytes.take (p + 1))

/-- What the reading of some bytes comes to, the signature that is read apart. -/
inductive Verdict (bytes : List UInt8) : Except SignatureError Unit → Prop
  | sentence (h : Sentence bytes) : Verdict bytes (.ok ())
  | unfinished (hviable : Viable bytes) (hopen : ¬ Sentence bytes) :
      Verdict bytes (.error .unexpectedEnd)
  | trailing {p : Nat} (hends : EndsAt bytes p) (h : Sentence (bytes.take p)) :
      Verdict bytes (.error (.trailing p))
  | invalid {c : UInt8} {p : Nat} (hends : EndsAt bytes p) (hopen : ¬ Sentence (bytes.take p))
      (hc : bytes[p]? = some c) : Verdict bytes (.error (.invalidCode c p))

section

variable {bytes y z : List UInt8} {p p' : Nat} {o o' : Except SignatureError Unit}

private theorem Sentence.read_ok (hy : Sentence y) : ∃ call, read 0 .start y = .ok call := by
  obtain ⟨call, rfl⟩ := sentence_iff.1 hy
  refine ⟨call, ?_⟩
  have hread := read_text call []
  rwa [List.append_nil] at hread

/-- No sentence begins another one. -/
theorem Sentence.eq_of_isPrefix (hy : Sentence y) (hz : Sentence z) (h : y <+: z) : y = z := by
  obtain ⟨rest, rfl⟩ := h
  obtain ⟨call, rfl⟩ := sentence_iff.1 hy
  obtain ⟨call', hok⟩ := hz.read_ok
  rw [read_text] at hok
  cases rest with
  | nil => exact (List.append_nil _).symm
  | cons b rest => cases hok

private theorem unfinished_iff :
    (∃ y, Sentence y ∧ bytes <+: y ∧ bytes ≠ y) ↔ Viable bytes ∧ ¬ Sentence bytes := by
  constructor
  · rintro ⟨y, hy, hbegins, hproper⟩
    exact ⟨⟨y, hy, hbegins⟩, fun hbytes => hproper (hbytes.eq_of_isPrefix hy hbegins)⟩
  · rintro ⟨⟨y, hy, hbegins⟩, hopen⟩
    refine ⟨y, hy, hbegins, ?_⟩
    rintro rfl
    exact hopen hy

private theorem endsAt_of_sentence (h : Sentence (bytes.take p)) (hlt : p < bytes.length) :
    EndsAt bytes p := by
  refine ⟨hlt, h.viable, ?_⟩
  rintro ⟨z, hz, hbegins⟩
  have hless : bytes.take p <+: bytes.take (p + 1) := List.take_prefix_take_left (Nat.le_succ p)
  obtain rfl := h.eq_of_isPrefix hz (hless.trans hbegins)
  have hlength := hbegins.length_le
  simp only [List.length_take] at hlength
  omega

private theorem EndsAt.not_viable (h : EndsAt bytes p) : ¬ Viable bytes :=
  fun hviable => h.2.2 (hviable.of_isPrefix (List.take_prefix _ _))

private theorem EndsAt.le (h : EndsAt bytes p) (h' : EndsAt bytes p') : p ≤ p' := by
  by_contra hlt
  have hless : bytes.take (p' + 1) <+: bytes.take p := List.take_prefix_take_left (by omega)
  exact h'.2.2 (h.2.1.of_isPrefix hless)

private theorem EndsAt.unique (h : EndsAt bytes p) (h' : EndsAt bytes p') : p = p' :=
  Nat.le_antisymm (h.le h') (h'.le h)

private theorem Verdict.unique (h : Verdict bytes o) (h' : Verdict bytes o') : o = o' := by
  cases h with
  | sentence h =>
    cases h' with
    | sentence _ => rfl
    | unfinished _ hopen => exact absurd h hopen
    | trailing hends _ => exact absurd h.viable hends.not_viable
    | invalid hends _ _ => exact absurd h.viable hends.not_viable
  | unfinished hviable hopen =>
    cases h' with
    | sentence h => exact absurd h hopen
    | unfinished _ _ => rfl
    | trailing hends _ => exact absurd hviable hends.not_viable
    | invalid hends _ _ => exact absurd hviable hends.not_viable
  | trailing hends h =>
    cases h' with
    | sentence h => exact absurd h.viable hends.not_viable
    | unfinished hviable _ => exact absurd hviable hends.not_viable
    | trailing hends' _ => rw [hends.unique hends']
    | invalid hends' hopen _ =>
      obtain rfl := hends.unique hends'
      exact absurd h hopen
  | invalid hends hopen hc =>
    cases h' with
    | sentence h => exact absurd h.viable hends.not_viable
    | unfinished hviable _ => exact absurd hviable hends.not_viable
    | trailing hends' h =>
      obtain rfl := hends.unique hends'
      exact absurd h hopen
    | invalid hends' _ hc' =>
      obtain rfl := hends.unique hends'
      rw [Option.some.inj (hc.symm.trans hc')]

private theorem ComesTo.not_viable {pos : Nat} {p : Progress} {b : UInt8} {rest : List UInt8}
    {e : SignatureError} (h : ComesTo bytes pos p (b :: rest)) (hstep : step pos b p = .error e) :
    ¬ Viable (p.encoding ++ [b]) := by
  rintro ⟨z, hz, rest', rfl⟩
  obtain ⟨call, hok⟩ := hz.read_ok
  rw [List.append_assoc, List.singleton_append, (h.congr (b :: rest')).read_eq, read, hstep] at hok
  cases hok

private theorem verdict_read (bytes : List UInt8) :
    Verdict bytes ((read 0 .start bytes).map fun _ => ()) := by
  have hunfinished {p : Progress} (hopen : p.IsOpen) (hcall : p.InCall) :=
    unfinished_iff.1 (hopen.begins hcall)
  rcases ComesTo.exists_end bytes with ⟨pos, p, h⟩ | ⟨pos, p, b, rest, e, h, hstep⟩
  · obtain ⟨hcall, -, rfl⟩ := h.consumed
    rw [h.read_eq, List.append_nil]
    cases p with
    | complete call => exact .sentence (sentence_iff.2 ⟨call, rfl⟩)
    | start | inside frames =>
      obtain ⟨hviable, hnot⟩ := hunfinished (by trivial) hcall
      exact .unfinished hviable hnot
  · obtain ⟨hcall, rfl, rfl⟩ := h.consumed
    have hread : read p.encoding.length p (b :: rest) = .error e := by rw [read, hstep]
    have hlt : p.encoding.length < (p.encoding ++ b :: rest).length := by simp
    have htake : (p.encoding ++ b :: rest).take p.encoding.length = p.encoding := List.take_left
    rw [h.read_eq, hread]
    rcases step_error hstep with ⟨call, rfl, rfl⟩ | ⟨hopen, rfl⟩
    · have hsentence := sentence_iff.2 ⟨call, htake⟩
      exact .trailing (endsAt_of_sentence hsentence hlt) hsentence
    · obtain ⟨hviable, hnot⟩ := hunfinished hopen hcall
      have hnext : (p.encoding ++ b :: rest).take (p.encoding.length + 1) = p.encoding ++ [b] := by
        simp [List.take_append]
      refine .invalid ⟨hlt, ?_, ?_⟩ ?_ ?_
      · rwa [htake]
      · rw [hnext]
        exact h.not_viable hstep
      · rwa [htake]
      · simp

private theorem verdict_iff : Verdict bytes o ↔ (read 0 .start bytes).map (fun _ => ()) = o := by
  constructor
  · exact (verdict_read bytes).unique
  · rintro rfl
    exact verdict_read bytes

end

/-- Every text is judged at the earliest byte that decides. It is read exactly if the grammar derives it; it
ends too early exactly if it is the beginning of a sentence; what stands behind a sentence is reported where
it begins, which is one place only as no sentence begins another one; and else the first byte with which no
sentence goes on. The reading looks at each byte in its place, and never past the last one. -/
theorem parse_judges (text : String) :
    ((∃ call, parse text = .ok call) ↔ IsCall text.toList) ∧
    (parse text = .error .unexpectedEnd ↔
      ∃ y, Sentence y ∧ bytesOf text <+: y ∧ bytesOf text ≠ y) ∧
    (∀ p, parse text = .error (.trailing p) ↔
      Sentence ((bytesOf text).take p) ∧ p < (bytesOf text).length) ∧
    (∀ y z, Sentence y → Sentence z → y <+: z → y = z) ∧
    (∀ c p, parse text = .error (.invalidCode c p) ↔
      Viable ((bytesOf text).take p) ∧ ¬ Viable ((bytesOf text).take (p + 1)) ∧
        ¬ Sentence ((bytesOf text).take p) ∧ (bytesOf text)[p]? = some c) ∧
    ∀ pos p rest, ComesTo (bytesOf text) pos p rest →
      pos ≤ (bytesOf text).length ∧ rest = (bytesOf text).drop pos ∧ parse text = read pos p rest := by
  have hparse : parse text = read 0 .start (bytesOf text) := rfl
  have hok : (∃ call, parse text = .ok call) ↔ Verdict (bytesOf text) (.ok ()) := by
    rw [verdict_iff, hparse]
    cases read 0 .start (bytesOf text) <;> simp [Except.map]
  have herror (e : SignatureError) : parse text = .error e ↔ Verdict (bytesOf text) (.error e) := by
    rw [verdict_iff, hparse]
    cases read 0 .start (bytesOf text) <;> simp [Except.map]
  refine ⟨?_, ?_, ?_, fun y z hy hz => hy.eq_of_isPrefix hz, ?_, ?_⟩
  · rw [hok, ← sentence_bytesOf]
    exact ⟨fun h => by cases h; assumption, .sentence⟩
  · rw [herror, unfinished_iff]
    constructor
    · rintro (_ | ⟨hviable, hopen⟩)
      exact ⟨hviable, hopen⟩
    · exact fun h => .unfinished h.1 h.2
  · intro p
    rw [herror]
    constructor
    · rintro (_ | _ | ⟨hends, h⟩)
      exact ⟨h, hends.1⟩
    · exact fun h => .trailing (endsAt_of_sentence h.1 h.2) h.1
  · intro c p
    rw [herror]
    constructor
    · rintro (_ | _ | _ | ⟨hends, hopen, hc⟩)
      exact ⟨hends.2.1, hends.2.2, hopen, hc⟩
    · rintro ⟨hbefore, hafter, hopen, hc⟩
      exact .invalid ⟨(List.getElem?_eq_some_iff.1 hc).1, hbefore, hafter⟩ hopen hc
  · intro pos p rest h
    have hread := h.read_eq
    obtain ⟨-, rfl, hbytes⟩ := h.consumed
    refine ⟨?_, ?_, hread⟩
    · simp [hbytes]
    · simp [hbytes]

end Signature

end ObjectModel
