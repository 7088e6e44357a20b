import EffectMachine.Data.Duration
import EffectMachine.Data.Value

/-!
# Defects, rejected data and service keys

The failures that carry no error of the application's own: defects, which report a bug or misuse,
validation errors, which report rejected data, and missing services, which report a key under
which nothing was found. Each has one wording, given here.
-/

namespace EffectMachine

/-- The identity of a service: its type, and a tag that tells services of one type apart. An
absent tag and an empty tag are different. -/
structure Key where
  type : Plain
  tag : Option String := none
deriving DecidableEq

/-- The text of a key: the type's name, then the tag after a number sign. -/
def Key.text (k : Key) : String :=
  match k.tag with
  | none => k.type.name
  | some t => k.type.name ++ "#" ++ t

/-- The description of a key. -/
def Key.describe (k : Key) : String := "TypeKey(" ++ k.text ++ ")"

/-- The description of a key as a handle on a service. -/
def Key.describeTag (k : Key) : String := "Tag(" ++ k.text ++ ")"

/-- A service was required under a key that holds none. -/
structure MissingService where
  key : Key
deriving DecidableEq

/-- The wording of a missing service. -/
def MissingService.text (m : MissingService) : String :=
  "service not found: " ++ m.key.text

/-- Why a closure panicked. -/
inductive Panic where
  /-- A panic with a text. -/
  | message (text : String)
  /-- A panic with a payload that is no text. -/
  | payload
deriving DecidableEq

/-- The text under which a panic is reported. -/
def Panic.text : Panic → String
  | .message s => s
  | .payload => "unknown panic"

/-- Failures that report a bug or misuse. -/
inductive Defect where
  /-- A closure panicked. -/
  | panic (message : String)
  /-- An asynchronous effect was awaited but its registration never settled it. -/
  | neverSettled
  /-- A value reached a continuation that expects another type. -/
  | typeMismatch (expected : String)
  /-- A finalizer was offered to a scope that had been closed. -/
  | scopeClosed (id : Nat)
  /-- A race without branches. -/
  | emptyRace
  /-- The registry holds no handler for a kind of node. -/
  | missingHandler (tag : String)
  /-- A handler was given a node of another kind. -/
  | misrouted (expected found : String)
  /-- A handler returned without deciding what happens next. -/
  | stalled (tag : String)
  /-- A run took more steps than it was allowed. -/
  | stepLimitExceeded (limit : Nat)
  /-- A branch was handed to a strategy that cannot join it. -/
  | foreignFork (id : Nat) (strategy : String)
deriving DecidableEq

/-- The wording of a defect. -/
def Defect.text : Defect → String
  | .panic message => "panic: " ++ message
  | .neverSettled => "async effect never settled"
  | .typeMismatch expected => "type mismatch: expected " ++ expected
  | .scopeClosed id => "scope " ++ toString id ++ " is already closed"
  | .emptyRace => "race over an empty set of effects"
  | .missingHandler tag => "no handler registered for " ++ tag
  | .misrouted expected found => "handler for " ++ expected ++ " received " ++ found
  | .stalled tag => "handler for " ++ tag ++ " did not produce a next state"
  | .stepLimitExceeded limit => "step limit of " ++ toString limit ++ " exceeded"
  | .foreignFork id strategy =>
    "fork " ++ toString id ++ " cannot be joined by strategy " ++ strategy

/-- Data from outside was rejected. -/
structure ValidationError where
  /-- Where the offending data sits. -/
  path : String
  /-- Why it was rejected. -/
  message : String
deriving DecidableEq

namespace ValidationError

/-- A rejection of the data as a whole. -/
def atRoot (message : String) : ValidationError := ⟨"$", message⟩

/-- The wording of a rejection; the path stands between grave accents. -/
def text (e : ValidationError) : String :=
  "validation failed at \x60" ++ e.path ++ "\x60: " ++ e.message

end ValidationError

end EffectMachine
