import ObjectModel.Signature

/-!
Texts and signatures determine each other. Reading a printed shape takes exactly its bytes, whatever
follows them; and what is open at any byte spells all the bytes that were read before it.
-/

set_option autoImplicit false
set_option relaxedAutoImplicit false

namespace ObjectModel

/-- The bytes of a text with these letters. -/
def encoded (letters : List Char) : List UInt8 := letters.flatMap String.utf8EncodeChar

theorem bytes_ofList (letters : List Char) :
    (String.ofList letters).toUTF8.data.toList = encoded letters := by
  rw [String.toUTF8, String.toByteArray_ofList, List.utf8Encode, encoded]
  simp

private theorem encoded_append (l l' : List Char) : encoded (l ++ l') = encoded l ++ encoded l' :=
  List.flatMap_append

private theorem encoded_cons (c : Char) (l : List Char) : encoded (c :: l) = encoded [c] ++ encoded l :=
  encoded_append [c] l

private theorem encoded_of_shown {b : UInt8} {c : Char} (h : Char.ofNat b.toNat = c)
    (hascii : c.toNat ≤ 127) : encoded [c] = [b] := by
  have hvalid : b.toNat.isValidChar := Or.inl (Nat.lt_trans b.toNat_lt (by decide))
  have hval : c.val.toNat = b.toNat := by
    rw [← h, Char.ofNat, dif_pos hvalid]
    rfl
  have hsmall : c.val.toNat ≤ 127 := hascii
  rw [encoded, List.flatMap_singleton, String.utf8EncodeChar, if_pos hsmall, hval, UInt8.ofNat_toNat]

namespace Shape

def refByte : UInt8 := 82

def nullByte : UInt8 := 78

/-- The bytes of the text of a shape. -/
def encoding (s : Shape) : List UInt8 := encoded s.letters

theorem encoding_ref (s : Shape) : (ref s).encoding = refByte :: s.encoding := encoded_cons _ _

theorem encoding_null (s : Shape) : (null s).encoding = nullByte :: s.encoding := encoded_cons _ _

end Shape

namespace Signature

open Shape (refByte nullByte)

/-- The bytes of the text of a call after its `P`. -/
def encoding (call : Signature) : List UInt8 := encoded call.body

theorem encoding_function (call : Signature) :
    (Shape.function call).encoding = callByte :: call.encoding := encoded_cons _ _

theorem encoding_returns (s : Shape) : (returns s).encoding = resultByte :: s.encoding :=
  encoded_cons _ _

theorem encoding_takes (s : Shape) (rest : Signature) :
    (takes s rest).encoding = s.encoding ++ rest.encoding := encoded_append _ _

theorem encoding_ofArgs (args : List Shape) (result : Shape) :
    (ofArgs args result).encoding = args.flatMap Shape.encoding ++ resultByte :: result.encoding := by
  induction args with
  | nil => exact encoding_returns result
  | cons s args ih =>
    rw [List.flatMap_cons, List.append_assoc, ← ih]
    exact encoding_takes s _

theorem bytes_text (s : Signature) : s.text.toUTF8.data.toList = callByte :: s.encoding :=
  (bytes_ofList _).trans (encoded_cons _ _)

/-- The bytes of what is known of a shape from its start. -/
def Start.encoding : Start → List UInt8
  | .whole s => s.encoding
  | .ref => [refByte]
  | .null => [nullByte]
  | .function => [callByte]

theorem encoding_of_start {b : UInt8} {x : Start} (h : start? b = some x) : x.encoding = [b] := by
  unfold start? at h
  split at h
  case h_16 => cases h
  all_goals
    next hshown =>
      obtain rfl := Option.some.inj h
      exact encoded_of_shown hshown (by decide)

/-! ### Reading what was printed -/

/-- A call is complete: it is the signature itself, or a shape that an outer frame waited for. -/
def finish (call : Signature) : List Frame → Progress
  | [] => .complete call
  | f :: frames => close (.function call) (f :: frames)

private theorem close_result (s : Shape) (before : List Shape) (frames : List Frame) :
    close s (.result before :: frames) = finish (ofArgs before.reverse s) frames := by
  cases frames <;> rfl

theorem step_inside {b : UInt8} (pos : Nat) (frames : List Frame) (h : b ≠ resultByte) :
    step pos b (.inside frames) = expectShape pos b frames := by
  rcases frames with - | ⟨_ | _ | before | _, frames⟩
  case cons.args => exact if_neg h
  all_goals rfl

theorem read_cons {pos : Nat} {b : UInt8} {p q : Progress} (rest : List UInt8)
    (h : step pos b p = .ok q) : read pos p (b :: rest) = read (pos + 1) q rest := by
  rw [read, h]

private theorem read_leaf {s : Shape} {b : UInt8} (pos : Nat) (frames : List Frame) (rest : List UInt8)
    (hstart : start? b = some (.whole s)) (hb : b ≠ resultByte) :
    read pos (.inside frames) (s.encoding ++ rest) =
      read (pos + s.encoding.length) (close s frames) rest := by
  have hbytes : s.encoding = [b] := encoding_of_start hstart
  rw [hbytes]
  apply read_cons
  rw [step_inside pos frames hb, expectShape, hstart]

mutual

private theorem read_shape (pos : Nat) (f : Frame) (frames : List Frame) (rest : List UInt8) :
    (s : Shape) → read pos (.inside (f :: frames)) (s.encoding ++ rest) =
      read (pos + s.encoding.length) (close s (f :: frames)) rest
  | .void => read_leaf (b := 118) pos _ rest (by decide) (by decide)
  | .i8 => read_leaf (b := 99) pos _ rest (by decide) (by decide)
  | .i16 => read_leaf (b := 115) pos _ rest (by decide) (by decide)
  | .i32 => read_leaf (b := 105) pos _ rest (by decide) (by decide)
  | .f32 => read_leaf (b := 102) pos _ rest (by decide) (by decide)
  | .f64 => read_leaf (b := 100) pos _ rest (by decide) (by decide)
  | .bool => read_leaf (b := 98) pos _ rest (by decide) (by decide)
  | .bytes => read_leaf (b := 66) pos _ rest (by decide) (by decide)
  | .dynamic => read_leaf (b := 88) pos _ rest (by decide) (by decide)
  | .object => read_leaf (b := 79) pos _ rest (by decide) (by decide)
  | .array => read_leaf (b := 65) pos _ rest (by decide) (by decide)
  | .type => read_leaf (b := 84) pos _ rest (by decide) (by decide)
  | .ref s => by
    have hstep : step pos refByte (.inside (f :: frames)) = .ok (.inside (.ref :: f :: frames)) :=
      step_inside pos _ (by decide)
    have hread := read_shape (pos + 1) .ref (f :: frames) rest s
    rw [Shape.encoding_ref, List.cons_append, read_cons _ hstep, hread, List.length_cons,
      Nat.add_right_comm, Nat.add_assoc]
    rfl
  | .null s => by
    have hstep : step pos nullByte (.inside (f :: frames)) = .ok (.inside (.null :: f :: frames)) :=
      step_inside pos _ (by decide)
    have hread := read_shape (pos + 1) .null (f :: frames) rest s
    rw [Shape.encoding_null, List.cons_append, read_cons _ hstep, hread, List.length_cons,
      Nat.add_right_comm, Nat.add_assoc]
    rfl
  | .function call => by
    have hstep : step pos callByte (.inside (f :: frames)) = .ok (.inside (.args [] :: f :: frames)) :=
      step_inside pos _ (by decide)
    have hread := read_body (pos + 1) [] (f :: frames) rest call
    rw [encoding_function, List.cons_append, read_cons _ hstep, hread, List.length_cons,
      Nat.add_right_comm, Nat.add_assoc, List.reverse_nil, List.nil_append, ofArgs_args_result]
    rfl

private theorem read_body (pos : Nat) (before : List Shape) (frames : List Frame) (rest : List UInt8) :
    (call : Signature) → read pos (.inside (.args before :: frames)) (call.encoding ++ rest) =
      read (pos + call.encoding.length)
        (finish (ofArgs (before.reverse ++ call.args) call.result) frames) rest
  | .returns s => by
    have hstep : step pos resultByte (.inside (.args before :: frames)) =
        .ok (.inside (.result before :: frames)) := by rw [step, if_pos rfl]
    have hread := read_shape (pos + 1) (.result before) frames rest s
    rw [encoding_returns, List.cons_append, read_cons _ hstep, hread, List.length_cons,
      Nat.add_right_comm, Nat.add_assoc, close_result, args, List.append_nil, result]
  | .takes s call => by
    have hread := read_shape pos (.args before) frames (call.encoding ++ rest) s
    have hbody := read_body (pos + s.encoding.length) (s :: before) frames rest call
    rw [encoding_takes, List.append_assoc, hread, close, hbody, List.length_append, Nat.add_assoc,
      List.reverse_cons, List.append_assoc, List.singleton_append, args, result]

end

/-- The bytes of a signature are read as this signature, whatever follows them. -/
theorem read_text (s : Signature) (rest : List UInt8) :
    read 0 .start (callByte :: s.encoding ++ rest) =
      read (callByte :: s.encoding).length (.complete s) rest := by
  have hstep : step 0 callByte .start = .ok (.inside [.args []]) := by rw [step, if_pos rfl]
  have hread := read_body 1 [] [] rest s
  rw [List.reverse_nil, List.nil_append, ofArgs_args_result] at hread
  rw [List.cons_append, read_cons _ hstep, hread, List.length_cons, Nat.add_comm]
  rfl

theorem parse_text (s : Signature) : parse s.text = .ok s := by
  have hread := read_text s []
  rw [List.append_nil] at hread
  rw [parse, bytes_text, hread]
  rfl

/-! ### Printing what was read -/

/-- The bytes that opened a frame and filled it so far. -/
def Frame.encoding : Frame → List UInt8
  | .ref => [refByte]
  | .null => [nullByte]
  | .args before => callByte :: before.reverse.flatMap Shape.encoding
  | .result before => callByte :: before.reverse.flatMap Shape.encoding ++ [resultByte]

/-- The bytes that all open frames were read from, the outermost first. -/
def framesEncoding (frames : List Frame) : List UInt8 := frames.reverse.flatMap Frame.encoding

def Progress.encoding : Progress → List UInt8
  | .start => []
  | .inside frames => framesEncoding frames
  | .complete s => callByte :: s.encoding

def Frame.isCall : Frame → Bool
  | .ref | .null => false
  | .args _ | .result _ => true

/-- The outermost open frame is a call, as everywhere inside a signature. -/
def Progress.InCall : Progress → Prop
  | .inside frames => frames.getLast?.any Frame.isCall = true
  | .start | .complete _ => True

theorem framesEncoding_cons (f : Frame) (frames : List Frame) :
    framesEncoding (f :: frames) = framesEncoding frames ++ f.encoding := by
  simp [framesEncoding]

theorem inCall_of_cons {f : Frame} {frames : List Frame}
    (hcall : (Progress.inside (f :: frames)).InCall) (h : f.isCall = true → frames ≠ []) :
    (Progress.inside frames).InCall := by
  cases frames with
  | nil =>
    have : f.isCall = true := hcall
    exact absurd rfl (h this)
  | cons g frames => exact hcall

private theorem Progress.InCall.cons {frames : List Frame} (h : (Progress.inside frames).InCall)
    (f : Frame) : (Progress.inside (f :: frames)).InCall := by
  cases frames with
  | nil => exact absurd h Bool.false_ne_true
  | cons g frames => exact h

private theorem Progress.InCall.replace {f g : Frame} {frames : List Frame}
    (h : (Progress.inside (f :: frames)).InCall) (hg : g.isCall = true) :
    (Progress.inside (g :: frames)).InCall := by
  cases frames with
  | nil => exact hg
  | cons outer frames => exact h

private theorem close_encoding (s : Shape) (frames : List Frame) (h : (Progress.inside frames).InCall) :
    (close s frames).encoding = framesEncoding frames ++ s.encoding ∧ (close s frames).InCall := by
  fun_induction close s frames with
  | case1 s frames ih =>
    obtain ⟨hencoding, hcall⟩ := ih (inCall_of_cons h (fun href => nomatch href))
    refine ⟨?_, hcall⟩
    rw [hencoding, framesEncoding_cons, Shape.encoding_ref, Frame.encoding, List.append_assoc]
    rfl
  | case2 s frames ih =>
    obtain ⟨hencoding, hcall⟩ := ih (inCall_of_cons h (fun hnull => nomatch hnull))
    refine ⟨?_, hcall⟩
    rw [hencoding, framesEncoding_cons, Shape.encoding_null, Frame.encoding, List.append_assoc]
    rfl
  | case3 s before frames =>
    refine ⟨?_, h.replace rfl⟩
    rw [Progress.encoding, framesEncoding_cons, framesEncoding_cons, Frame.encoding, Frame.encoding]
    simp
  | case4 s before =>
    refine ⟨?_, trivial⟩
    rw [Progress.encoding, encoding_ofArgs]
    simp [framesEncoding, Frame.encoding]
  | case5 s before frames hne ih =>
    obtain ⟨hencoding, hcall⟩ := ih (inCall_of_cons h (fun _ => hne))
    refine ⟨?_, hcall⟩
    rw [hencoding, framesEncoding_cons, encoding_function, encoding_ofArgs, Frame.encoding]
    simp
  | case6 s => cases h

private theorem expectShape_encoding {pos : Nat} {b : UInt8} {frames : List Frame} {p : Progress}
    (hcall : (Progress.inside frames).InCall) (h : expectShape pos b frames = .ok p) :
    p.encoding = framesEncoding frames ++ [b] ∧ p.InCall := by
  unfold expectShape at h
  split at h
  case h_1 s hstart =>
    obtain rfl := Except.ok.inj h
    have hb : s.encoding = [b] := encoding_of_start hstart
    rw [← hb]
    exact close_encoding s frames hcall
  case h_5 => cases h
  all_goals
    next hstart =>
      obtain rfl := Except.ok.inj h
      refine ⟨?_, hcall.cons _⟩
      rw [← encoding_of_start hstart]
      exact framesEncoding_cons _ _

private theorem step_inside_ok {pos : Nat} {b : UInt8} {frames : List Frame} {q : Progress}
    (h : step pos b (.inside frames) = .ok q) :
    (∃ before outer, frames = .args before :: outer ∧ b = resultByte ∧
        q = .inside (.result before :: outer)) ∨
      expectShape pos b frames = .ok q := by
  rcases frames with - | ⟨_ | _ | before | _, outer⟩
  case cons.args =>
    rw [step] at h
    split at h
    case isTrue hb => exact Or.inl ⟨before, outer, rfl, hb, (Except.ok.inj h).symm⟩
    case isFalse => exact Or.inr h
  all_goals exact Or.inr h

/-- Every byte that is read is added to what is open. -/
theorem step_encoding {pos : Nat} {b : UInt8} {p q : Progress} (hcall : p.InCall)
    (h : step pos b p = .ok q) : q.encoding = p.encoding ++ [b] ∧ q.InCall := by
  cases p with
  | start =>
    rw [step] at h
    split at h
    case isTrue hb =>
      obtain rfl := Except.ok.inj h
      rw [hb]
      exact ⟨rfl, rfl⟩
    case isFalse => cases h
  | inside frames =>
    rcases step_inside_ok h with ⟨before, outer, rfl, rfl, rfl⟩ | hshape
    · refine ⟨?_, hcall.replace rfl⟩
      rw [Progress.encoding, Progress.encoding, framesEncoding_cons, framesEncoding_cons, List.append_assoc]
      rfl
    · exact expectShape_encoding hcall hshape
  | complete s => cases h

private theorem read_encoding {pos : Nat} {p : Progress} {bytes : List UInt8} {s : Signature}
    (hcall : p.InCall) (h : read pos p bytes = .ok s) :
    callByte :: s.encoding = p.encoding ++ bytes := by
  induction bytes generalizing pos p with
  | nil =>
    cases p with
    | complete s' =>
      obtain rfl := Except.ok.inj h
      exact (List.append_nil _).symm
    | start => cases h
    | inside frames => cases h
  | cons b rest ih =>
    rw [read] at h
    split at h
    case h_1 q hstep =>
      obtain ⟨hencoding, hcall⟩ := step_encoding hcall hstep
      rw [ih hcall h, hencoding, List.append_assoc, List.singleton_append]
    case h_2 => cases h

theorem text_of_parse {text : String} {s : Signature} (h : parse text = .ok s) : s.text = text := by
  have hstart : Progress.start.InCall := trivial
  have hbytes : s.text.toUTF8.data.toList = text.toUTF8.data.toList := by
    rw [bytes_text]
    exact read_encoding hstart h
  exact String.toByteArray_inj.1 (ByteArray.ext (Array.toList_inj.1 hbytes))

/-- The text of a signature is read back as this signature, nothing else spells it, and so two
signatures are the same exactly when their texts are. -/
theorem parse_inverts_text :
    (∀ s : Signature, parse s.text = .ok s) ∧
    (∀ (text : String) (s : Signature), parse text = .ok s ↔ s.text = text) ∧
    ∀ s s' : Signature, s = s' ↔ s.text = s'.text := by
  have hiff (text : String) (s : Signature) : parse text = .ok s ↔ s.text = text := by
    refine ⟨text_of_parse, ?_⟩
    rintro rfl
    exact parse_text s
  refine ⟨parse_text, hiff, ?_⟩
  intro s s'
  rw [← hiff, parse_text, Except.ok.injEq, eq_comm]

end Signature

end ObjectModel
