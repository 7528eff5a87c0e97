import ObjectModel.Proofs.Registry.ClosureTypes
import ObjectModel.Proofs.Value.BoxedNumbers
import ObjectModel.Proofs.Value.CallChecks

/-!
Methods that are read by name. The name leads to a slot of the class that the instance really has, and so to
the override that comes last; a view leads to the same method of the instance that it shows, whether it knows
the slot or passes the name on. The method comes out as a closure: it runs the code that the function of the
slot has at this time, the instance is its receiver, and of its type the first argument is gone.
-/

set_option autoImplicit false
set_option relaxedAutoImplicit false

namespace ObjectModel

variable {r : Registry} {held : Addr → TypeId → Prop} {values : Set Addr} {h : Heap} {a u v x : Addr}
  {type first t d bound : TypeId} {args : List TypeId} {ret : TypeId} {k : Kind} {w : World} {m : Memory}
  {hash : NameHash} {c : ClassLayout} {slot function : Nat} {code : UInt64}

namespace Closure

/-- A closure that runs some code with a receiver, and takes the arguments that are left. -/
structure Binds (w : World) (m : Memory) (a : Addr) (code : UInt64) (receiver : Addr) (args : List TypeId)
    (ret : TypeId) : Prop where
  code : Closure.code m a = code
  receiver : Closure.receiver m a = receiver
  signature : Closure.signature w m a = .ok (args, ret)

theorem accepts_subclass (hclass : w.registry.kind? first = some .object)
    (hsub : w.registry.isSubclass t first = true) : accepts w first t = .ok true := by
  have hk : w.registry.kind? t = some .object := Registry.kind?_of_isSubclass hsub hclass
  unfold accepts
  by_cases hsame : w.registry.sameType first t = true
  · rw [if_pos hsame]
    rfl
  · rw [if_neg hsame, World.kind_eq_ok.2 hclass, World.kind_eq_ok.2 hk]
    exact congrArg _ hsub

theorem exists_boundType (hb : w.registry.Built) (hfunction : w.registry.function type = .ok (first :: args, ret))
    (haccepts : accepts w first t = .ok true) :
    ∃ bound, boundType w type t = .ok bound ∧ w.registry.function bound = .ok (args, ret) := by
  obtain ⟨bound, hclosure, hget⟩ := hb.exists_closureType (Registry.function_eq_ok.1 hfunction)
  refine ⟨bound, ?_, Registry.function_eq_ok.2 hget⟩
  unfold boundType
  rw [hfunction]
  simp only [Reading.ofType, Except.mapError, bind, Except.bind, haccepts, hclosure, if_true]
  rfl

end Closure

namespace ClassLayout

theorem declared_of_resolve? (hc : r.classLayout t = .ok c)
    (hmethod : c.resolve? hash = some (.method slot function type)) :
    ∃ chain declared, (∀ n : Nat, chain[n]? = (r.ancestor? n t).bind r.class?) ∧
      Name.hash declared.name = hash ∧
      (declaredMethods chain).reverse.find? (·.name == declared.name) = some declared ∧
      declared.function = function ∧ declared.type = type := by
  obtain ⟨chain, hchain, hmembers, hindex, -⟩ := Registry.classLayout_ok hc
  have hcollected : Collected r chain c := ⟨hindex, Members.collects_membersOf hmembers⟩
  obtain ⟨name, hname, hstands, -⟩ := hcollected.resolve?_eq_some.1 hmethod
  cases hstands with
  | @method _ declared _ hlast =>
    have hfound := List.find?_some hlast
    obtain rfl : declared.name = name := beq_iff_eq.1 hfound
    exact ⟨chain, declared, Registry.getElem?_lineageFrom hchain, hname, hlast, rfl, rfl⟩

end ClassLayout

namespace Action

/-- Where a name leads to a method, a closure over it is read. -/
theorem get_of_method (hlocated : Access.locate w h.memory v hash = .ok (.method function type u))
    (hd : w.registry.kind? d = some k) (hpointer : k.isPointer = true) :
    get v hash d w h = (bindMethod function type u >>= fun c => look (·.typeOf c) >>= fun t =>
      castPointer (.pointer c) t d >>= fun a => Pure.pure (.pointer a)) w h := by
  change getFrom hash d (h.blocks.size + 1) v w h = _
  rw [getFrom.eq_def]
  dsimp only
  rw [ask_bind_ok hlocated]
  dsimp only
  rw [ask_bind_ok (World.kind_eq_ok.2 hd), if_pos hpointer]

theorem get_of_rootOf (hs : Arranged w.registry ∅ h values) (hx : x ∈ values)
    (hroot : RootOf w.registry h.memory v x)
    (hlocated : Access.locate w h.memory v hash = .ok (.method function type u))
    (hd : w.registry.kind? d = some k) (hpointer : k.isPointer = true) :
    get x hash d w h = get v hash d w h := by
  rcases hroot.reached with rfl | ⟨hk, rfl⟩
  · rfl
  · obtain ⟨target, htarget, hmirrors⟩ := Access.locate_mirrors hs hx hk hroot.ne_zero hash
    generalize hshown : View.wrapped h.memory x = shown at *
    cases hmirrors with
    | stored hother _ => cases hlocated.symm.trans hother
    | method hsame =>
      cases Except.ok.inj (hlocated.symm.trans hsame)
      rw [get_of_method htarget hd hpointer, get_of_method hlocated hd hpointer]
    | forward => exact (get_of_forward hs hx htarget d).2

theorem get_method_takesBlock (hb : w.registry.Built)
    (hlocated : Access.locate w h.memory v hash = .ok (.method function type u))
    (hfunction : w.registry.function type = .ok (first :: args, ret))
    (haccepts : Closure.accepts w first (h.memory.typeOf u) = .ok true)
    (hd : w.registry.kind? d = some .dynamic) (hcode : w.functions.code? function = some code) :
    (get v hash d).TakesBlock Closure.size .pointers w h fun s h' =>
      ∃ a, s = .pointer a ∧ Closure.Binds w h'.memory a code u args ret := by
  obtain ⟨bound, hbound, hleft⟩ := Closure.exists_boundType hb hfunction haccepts
  have hbind : (bindMethod function type u).TakesBlock Closure.size .pointers w h fun c h' =>
      h'.memory.typeOf c = bound ∧ Closure.code h'.memory c = code ∧ Closure.receiver h'.memory c = u := by
    refine (bindClosure_takesBlock hbound).congr ?_
    unfold bindMethod
    rw [world_bind, hcode]
  refine (hbind.bind ?_).congr (get_of_method hlocated hd rfl)
  rintro c h' ⟨htype, hrun, hreceiver⟩
  have hkind : w.registry.kind? (h'.memory.typeOf c) = some .function := htype ▸ Registry.kind?_of_function hleft
  refine ⟨.pointer c, h', ?_, c, rfl, hrun, hreceiver, ?_⟩
  · rw [look_bind, bind_ok (castPointer_selfDescribing hkind rfl hd)]
    rfl
  · unfold Closure.signature
    rw [htype, hleft]
    rfl

theorem get_method_unbound (hlocated : Access.locate w h.memory v hash = .ok (.method function type u))
    (hd : w.registry.kind? d = some k) (hpointer : k.isPointer = true)
    (hcode : w.functions.code? function = none) :
    get v hash d w h = (.error (.error .nullAccess), h) := by
  have hbind : bindMethod function type u w h = (.error (.error .nullAccess), h) := by
    unfold bindMethod
    rw [world_bind, hcode]
    rfl
  rw [get_of_method hlocated hd hpointer, bind_error hbind]

end Action

theorem View.method?_of_resolve? (hroot : RootOf w.registry m v x) (hk : w.registry.kindAt m x = some .virtual)
    (hc : w.registry.classLayout (m.typeOf v) = .ok c)
    (hmethod : c.resolve? hash = some (.method slot function type)) :
    View.method? w m x hash = .ok (w.functions.code? function) := by
  have hobject : w.registry.kindAt m v = some .object := Registry.kind?_of_classLayout hc
  have hvalue : View.value w m x = .ok v := by
    rcases hroot.reached with rfl | ⟨-, hwrapped⟩
    · exact absurd hk (kindAt_ne hobject (by decide))
    · exact View.value_eq_ok.2 ⟨hk, hwrapped⟩
  have hkind : w.kindOf m v = .ok .object := World.kind_eq_ok.2 hobject
  unfold View.method?
  rw [hvalue]
  simp only [bind, Except.bind, if_neg hroot.ne_zero, hkind, if_true, hc, Reading.ofLayout, Except.mapError,
    hmethod]
  rfl

/-- A method of an instance is read from the instance, and from each view of it, as a closure over the last
override, unless the heap has no block for the closure: it runs the code of the function that is in the slot,
the instance is its receiver, and it is of the type of the method without the first argument. This code is
also what the views find. Where the function has no code there is nothing to read, and nothing has changed. -/
theorem Reachable.method_reads (hb : r.Built) (hr : Reachable r held h values) (hw : w.registry = r)
    (hx : x ∈ values) (hroot : RootOf r h.memory v x)
    (hc : r.classLayout (h.memory.typeOf v) = .ok c)
    (hmethod : c.resolve? hash = some (.method slot function type))
    (hfunction : r.function type = .ok (first :: args, ret)) (hclass : r.kind? first = some .object)
    (hfirst : r.isSubclass (h.memory.typeOf v) first = true) (hd : r.kind? d = some .dynamic) :
    (∃ entry, c.methods.get? slot = some entry ∧ entry.function = function ∧ entry.type = type) ∧
    (∃ chain declared, (∀ n : Nat, chain[n]? = (r.ancestor? n (h.memory.typeOf v)).bind r.class?) ∧
      Name.hash declared.name = hash ∧
      (declaredMethods chain).reverse.find? (·.name == declared.name) = some declared ∧
      declared.function = function ∧ declared.type = type) ∧
    (∀ code, w.functions.code? function = some code →
      (Action.get x hash d).TakesBlock Closure.size .pointers w h fun s h' =>
        ∃ a, s = .pointer a ∧ Closure.Binds w h'.memory a code v args ret) ∧
    (w.functions.code? function = none →
      Action.get x hash d w h = (.error (.error .nullAccess), h)) ∧
    (r.kindAt h.memory x = some .virtual →
      View.method? w h.memory x hash = .ok (w.functions.code? function)) := by
  subst hw
  have hs := (hr.sound hb).arranged
  have hlocated : Access.locate w h.memory v hash = .ok (.method function type v) := by
    rw [Access.locate_instance hc, hmethod]
  have hsame : Action.get x hash d w h = Action.get v hash d w h :=
    Action.get_of_rootOf hs hx hroot hlocated hd rfl
  have haccepts := Closure.accepts_subclass hclass hfirst
  refine ⟨ClassLayout.method_of_resolve? hmethod, ClassLayout.declared_of_resolve? hc hmethod, ?_, ?_, ?_⟩
  · intro code hcode
    exact (Action.get_method_takesBlock hb hlocated hfunction haccepts hd hcode).congr hsame
  · intro hcode
    exact hsame.trans (Action.get_method_unbound hlocated hd rfl hcode)
  · intro hk
    exact View.method?_of_resolve? hroot hk hc hmethod

/-! An instance whose class overrides a method, and two views of it: the first one has a field for the method,
the second one passes its name on. -/

def Registry.overriddenTypes : Registry :=
  ⟨(Descriptor.builtins ++
    ([.function [.ofIndex 14] .i32, .function [.ofIndex 15] .i32,
      .object ⟨"Base", none, [], [⟨"show", 0, .ofIndex 12⟩]⟩,
      .object ⟨"Derived", some (.ofIndex 14), [], [⟨"show", 1, .ofIndex 13⟩]⟩,
      .function [] .i32, .virtual [⟨"show", .ofIndex 16⟩], .virtual []] : List Descriptor)).toArray⟩

theorem Registry.overriddenTypes_built : overriddenTypes.Built :=
  .of_adds (overriddenTypes.types.toList.drop Descriptor.builtins.length) (by decide +kernel)
    (by decide +kernel)

/-- A world in which both methods have code. -/
def World.overridden : World where
  registry := .overriddenTypes
  functions := (({} : FunctionTable).define 0 3 (.ofIndex 12)).define 1 7 (.ofIndex 13)

def overriddenHeap : Heap :=
  ((do
    let v ← Action.newInstance (.ofIndex 15)
    let _ ← Action.toView (.ofIndex 17) v
    Action.toView (.ofIndex 18) v) (.ofTypes .overriddenTypes) {}).2

theorem overriddenHeap_reachable : ∃ values,
    Reachable .overriddenTypes (fun _ _ => False) overriddenHeap values ∧
      0x10030 ∈ values ∧ 0x10070 ∈ values := by
  let w : World := .ofTypes .overriddenTypes
  let h₀ := (Action.newInstance (.ofIndex 15) w {}).2
  let h₁ := (Action.toView (.ofIndex 17) 0x10010 w h₀).2
  let h₂ := (Action.toView (.ofIndex 18) 0x10010 w h₁).2
  have hnew : Action.newInstance (.ofIndex 15) w {} = (.ok 0x10010, h₀) := Action.eq_of_fst (by decide +kernel)
  have hfirst : Action.toView (.ofIndex 17) 0x10010 w h₀ = (.ok 0x10030, h₁) :=
    Action.eq_of_fst (by decide +kernel)
  have hsecond : Action.toView (.ofIndex 18) 0x10010 w h₁ = (.ok 0x10070, h₂) :=
    Action.eq_of_fst (by decide +kernel)
  have hrun : overriddenHeap = h₂ := by
    unfold overriddenHeap
    rw [Action.bind_ok hnew, Action.bind_ok hfirst]
  have hb : w.registry.Built := Registry.overriddenTypes_built
  have hstart : Reachable .overriddenTypes (fun _ _ => False) {} ∅ := .start none
  obtain ⟨values₀, -, hr₀, hv, -⟩ := hstart.after_keeps rfl (.newInstance (.ofIndex 15))
    (Action.newInstance_keeps (hstart.sound hb)) hnew
  obtain ⟨values₁, hsub₁, hr₁, hx, -⟩ := hr₀.after_keeps rfl (.toView (.ofIndex 17) hv)
    (Action.toView_keeps (hr₀.sound hb) hv) hfirst
  obtain ⟨values₂, hsub₂, hr₂, hy, -⟩ := hr₁.after_keeps rfl (.toView (.ofIndex 18) (hsub₁ hv))
    (Action.toView_keeps (hr₁.sound hb) (hsub₁ hv)) hsecond
  rw [hrun]
  exact ⟨values₂, hr₂, hsub₂ hx, hy⟩

/-- Both views give the override with the instance as its receiver. In a world in which no function has code
there is nothing to read. -/
theorem overriddenHeap_reads : ([0x10030, 0x10070] : List Addr).Forall fun x =>
    (∃ a h', Action.get x (Name.hash "show") .dynamic .overridden overriddenHeap = (.ok (.pointer a), h') ∧
      Closure.Binds .overridden h'.memory a 7 0x10010 [] .i32) ∧
    View.method? .overridden overriddenHeap.memory x (Name.hash "show") = .ok (some 7) ∧
    Action.get x (Name.hash "show") .dynamic (.ofTypes .overriddenTypes) overriddenHeap =
      (.error (.error .nullAccess), overriddenHeap) ∧
    View.method? (.ofTypes .overriddenTypes) overriddenHeap.memory x (Name.hash "show") = .ok none := by
  refine List.forall_iff_forall_mem.2 fun x hx => ?_
  have hx' : x = 0x10030 ∨ x = 0x10070 := by simpa using hx
  obtain ⟨values, hr, hfirst, hsecond⟩ := overriddenHeap_reachable
  have hb := Registry.overriddenTypes_built
  obtain ⟨hmem, hroot, hview⟩ : x ∈ values ∧
      RootOf .overriddenTypes overriddenHeap.memory 0x10010 x ∧
      Registry.overriddenTypes.kindAt overriddenHeap.memory x = some .virtual := by
    rcases hx' with rfl | rfl
    · exact ⟨hfirst, ⟨by decide, Or.inl (by decide +kernel), Or.inr (by decide +kernel)⟩, by decide +kernel⟩
    · exact ⟨hsecond, ⟨by decide, Or.inl (by decide +kernel), Or.inr (by decide +kernel)⟩, by decide +kernel⟩
  have hlayout : (Registry.overriddenTypes.classLayout (overriddenHeap.memory.typeOf 0x10010)).map
      (·.resolve? (Name.hash "show")) = .ok (some (.method 0 1 (.ofIndex 13))) := by
    decide +kernel
  obtain ⟨c, hc, hmethod⟩ := Outcome.map_eq_ok.1 hlayout
  have hblock : (overriddenHeap.allocate (.ofNat Closure.size) .pointers).map Prod.fst = .ok 0x100B0 := by
    decide +kernel
  obtain ⟨⟨v, h₁⟩, hgranted, -⟩ := Outcome.map_eq_ok.1 hblock
  have hfunction : Registry.overriddenTypes.function (.ofIndex 13) = .ok ([.ofIndex 15], .i32) := by
    decide +kernel
  have hclass : Registry.overriddenTypes.kind? (.ofIndex 15) = some .object := by decide +kernel
  have hfirst : Registry.overriddenTypes.isSubclass (overriddenHeap.memory.typeOf 0x10010) (.ofIndex 15) =
      true := by
    decide +kernel
  obtain ⟨-, -, hbound, -, hcode⟩ := hr.method_reads (w := .overridden) (d := .dynamic) hb rfl hmem hroot hc
    hmethod hfunction hclass hfirst rfl
  obtain ⟨-, -, -, hnull, hnone⟩ := hr.method_reads (w := .ofTypes .overriddenTypes) (d := .dynamic) hb rfl
    hmem hroot hc hmethod hfunction hclass hfirst rfl
  obtain ⟨_, h', hread, a, rfl, hbinds⟩ := (hbound 7 rfl).granted v h₁ hgranted
  exact ⟨⟨a, h', hread, hbinds⟩, hcode hview, hnull rfl, hnone hview⟩

end ObjectModel
