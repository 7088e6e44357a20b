import EffectMachine.Effect.Node
import EffectMachine.Text.Quoted

/-!
# Typed effects

An `Effect S a` describes a computation that yields an element of the type coded by `a` or fails.
It is a plan whose values are promised to have that type. Combinators check the promise where a
typed function receives a value: `receive` casts, and a value of another type is a defect.

`Effect.relabel` makes a promise without a proof, so a mismatch can arise; without it no
combinator here breaks a promise.
-/

namespace EffectMachine

/-- An effect that yields elements of the type coded by `a`. -/
structure Effect (S : Signature) (a : Ty) where
  plan : Plan S

namespace Effect

variable {S : Signature} {a b : Ty}

/-- An effect given by its node. -/
def ofNode (n : Node S) : Effect S a := ⟨.node n⟩

/-- An effect that a program defines. -/
def named (d : S.Name) : Effect S a := ⟨.named d⟩

/-- The node of an effect. A named effect is built when it is visited. -/
def node (e : Effect S a) : Node S :=
  match e.plan with
  | .node n => n
  | .named d => .suspend (.done (.named d))

/-- The same effect under another promise about its values. -/
def relabel (b : Ty) (e : Effect S a) : Effect S b := ⟨e.plan⟩

/-- The kind of an effect. -/
def tag (e : Effect S a) : Tag := e.node.tag

/-- The description of an effect: the type of its values and the kind of its node. -/
def text (e : Effect S a) : String :=
  Layout.record "Effect" [("value", Quoted.text a.name), ("node", e.tag.name)]

/-! ### Constructors -/

/-- Yield an element. -/
def succeed (x : a.El) : Effect S a := ofNode (.pure (.done ⟨a, x⟩))

/-- Fail with a cause. -/
def failCause (c : Cause S.Error) : Effect S a := ofNode (.fail c)

/-- Fail with an error. -/
def fail (e : S.Error) : Effect S a := failCause (.fail e)

/-- Fail with a defect. -/
def die (d : Defect) : Effect S a := failCause (.defect d)

/-- Reject data. -/
def invalid (e : ValidationError) : Effect S a := failCause (.validation e)

/-- Yield an element that passed a check, or report why it did not. -/
def ofValidation : Except ValidationError a.El → Effect S a
  | .ok x => succeed x
  | .error e => invalid e

/-- Yield an element, or fail with an error. -/
def ofExcept : Except S.Error a.El → Effect S a
  | .ok x => succeed x
  | .error e => fail e

/-- Yield the unit value. -/
def unit : Effect S .unit := ofNode .unit

/-- Build the effect anew on every visit. -/
def suspend (thunk : Action S (Effect S a)) : Effect S a :=
  ofNode (.suspend do return (← thunk).plan)

/-- Wait for a duration. -/
def sleep (d : Duration) : Effect S .unit := ofNode (.sleep d)

/-- Wait for the slot that a registration settles. -/
def async (start : SlotId → Action S Unit) : Effect S a := ofNode (.async start)

/-- Wait for a slot that nothing settles. -/
def never : Effect S a := async fun _ ↦ .done ()

/-! ### Sequencing -/

/-- A continuation that expects elements of one type; any other value is a defect. -/
def receive (a : Ty) (k : a.El → Action S (Step S)) (v : Value) : Action S (Step S) :=
  match v.cast? a with
  | some x => k x
  | none => .done (.failure (.defect (.typeMismatch a.name)))

/-- Hand the element to a continuation. -/
def andThen (e : Effect S a) (k : a.El → Action S (Step S)) : Effect S b :=
  ofNode (.bind e.node (receive a k))

/-- Apply a function to the element. -/
def map (e : Effect S a) (f : a.El → Action S b.El) : Effect S b :=
  e.andThen fun x ↦ do return .value ⟨b, ← f x⟩

/-- Continue with an effect that depends on the element. -/
def flatMap (e : Effect S a) (f : a.El → Action S (Effect S b)) : Effect S b :=
  e.andThen fun x ↦ do return .effect (← f x).plan

/-- Forget the element. -/
def asUnit (e : Effect S a) : Effect S .unit := e.map fun _ ↦ .done ()

/-- Look at the element and keep it. -/
def tap (e : Effect S a) (f : a.El → Action S Unit) : Effect S a :=
  e.map fun x ↦ do f x; return x

/-- Run two effects, one after the other, and pair their elements. -/
def zip (e : Effect S a) (o : Effect S b) : Effect S (.pair a b) :=
  e.flatMap fun x ↦ .done (o.map fun y ↦ .done (x, y))

/-- Run an action on every visit. -/
def sync (f : Action S a.El) : Effect S a := unit.map fun _ ↦ f

/-- Run an action that may fail with an error on every visit. -/
def attempt (f : Action S (Except S.Error a.El)) : Effect S a :=
  unit.andThen fun _ ↦ do
    match ← f with
    | .ok x => return .value ⟨a, x⟩
    | .error e => return .failure (.fail e)

/-! ### Services -/

/-- Take a service handle at the type of its key. -/
def resolve (p : Plain) (v : Value) : Step S :=
  match v.cast? .service with
  | none => .failure (.defect (.typeMismatch Ty.service.name))
  | some s =>
    match s.cast? p with
    | none => .failure (.defect (.typeMismatch p.name))
    | some x => .value ⟨.shared p, x⟩

/-- The service under a key. -/
def service (k : Key) : Effect S (.shared k.type) :=
  ofNode (.bind (.service k) fun v ↦ .done (resolve k.type v))

/-- Run in the context that a layer builds. -/
def provide (e : Effect S a) (l : Layer S) : Effect S a := ofNode (.provide l e.node)

/-! ### Branches -/

/-- Cast every value of a list. -/
def castAll (a : Ty) : List Value → Except Defect (List a.El)
  | [] => .ok []
  | v :: vs =>
    match v.cast? a with
    | none => .error (.typeMismatch a.name)
    | some x => (castAll a vs).map (x :: ·)

/-- Run every effect and list the elements in order; the first failure wins. -/
def all (es : List (Effect S a)) : Effect S (.list a) :=
  ofNode (.parallel (es.map node) fun vs ↦ .done ((castAll a vs).map fun xs ↦ ⟨.list a, xs⟩))

/-- The first effect to succeed wins. -/
def race (es : List (Effect S a)) : Effect S a := ofNode (.race (es.map node))

end Effect

end EffectMachine
