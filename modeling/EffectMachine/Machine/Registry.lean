import EffectMachine.Machine.Handler

/-!
# Registries

A registry says which handler a kind of node goes to. Registries are assembled by a builder, which
refuses a second handler for a kind and hands out a registry only when every kind has one. A
builder is empty again after it has handed out a registry.
-/

namespace EffectMachine

/-- Handlers by the kind they serve. -/
structure Registry (S : Signature) where
  handlers : List (Tag × Handler S)

/-- Why a registry could not be assembled. -/
inductive RegistryError where
  /-- A kind has a handler already. -/
  | duplicate (tag : Tag)
  /-- A kind has no handler. -/
  | missing (tag : Tag)
deriving DecidableEq

/-- The wording of a registry error. -/
def RegistryError.text : RegistryError → String
  | .duplicate tag => "a handler for " ++ tag.name ++ " is already registered"
  | .missing tag => "no handler registered for " ++ tag.name

namespace Registry

variable {S : Signature}

/-- The handler of a kind. -/
def find? (r : Registry S) (t : Tag) : Option (Handler S) :=
  (r.handlers.find? fun e ↦ e.1 = t).map Prod.snd

/-- Whether a kind has a handler. -/
def contains (r : Registry S) (t : Tag) : Bool := (r.find? t).isSome

/-- The number of handlers. -/
def size (r : Registry S) : Nat := r.handlers.length

/-- The kinds that have a handler, in order. -/
def tags (r : Registry S) : List Tag := Tag.all.filter r.contains

/-- The description of a registry. -/
def text (r : Registry S) : String :=
  Layout.record "HandlerRegistry" [("handlers", Layout.list (r.tags.map Tag.name))]

/-- A registry without handlers, which is where a builder starts. -/
def empty : Registry S := ⟨[]⟩

/-- The standard handlers. -/
def standard : Registry S := ⟨Tag.all.map fun t ↦ (t, Handler.standard t)⟩

/-- Hand a node to the handler of its kind. -/
def dispatch (r : Registry S) : Handler S := fun h node st ↦
  match r.find? node.tag with
  | some handler => handler h node st
  | none => return st.die (.missingHandler node.tag.name)

/-! ### Building -/

/-- Register a handler for a kind that has none. -/
def register (r : Registry S) (t : Tag) (h : Handler S) : Except RegistryError (Registry S) :=
  if r.contains t then .error (.duplicate t) else .ok ⟨(t, h) :: r.handlers⟩

/-- Give every kind that has no handler its standard one. -/
def complete (r : Registry S) : Registry S :=
  Tag.all.foldl
    (fun r t ↦ if r.contains t then r else ⟨(t, Handler.standard t) :: r.handlers⟩) r

/-- The finished registry, or the first kind without a handler. -/
def build (r : Registry S) : Except RegistryError (Registry S) :=
  match Tag.all.find? fun t ↦ !r.contains t with
  | some t => .error (.missing t)
  | none => .ok r

end Registry

/-- A call on a builder. -/
inductive BuilderCall (S : Signature) where
  | register (t : Tag) (h : Handler S)
  /-- Give every kind that has no handler its standard one. -/
  | complete
  | build

/-- What a builder answers. -/
inductive BuilderReply (S : Signature) where
  | done
  /-- The call changed nothing. -/
  | refused (e : RegistryError)
  /-- The registry that is handed out. -/
  | built (r : Registry S)

/-- Answer a call on a builder, given what it holds; the second part is what it holds afterwards.
After it has handed out a registry it holds nothing. -/
def Registry.answer {S : Signature} (r : Registry S) :
    BuilderCall S → BuilderReply S × Registry S
  | .register t h =>
    match r.register t h with
    | .ok r' => (.done, r')
    | .error e => (.refused e, r)
  | .complete => (.done, r.complete)
  | .build =>
    match r.build with
    | .ok b => (.built b, .empty)
    | .error e => (.refused e, r)

end EffectMachine
