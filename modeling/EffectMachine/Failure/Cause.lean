import EffectMachine.Failure.Defect

/-!
# Causes

A `Cause` says why an effect failed: with an error of its own, for a reason of the machine's, or
for several reasons at once. `Cause.combine` joins two causes and splices one level of composites
on either side; `Cause.flatten` is the sequence of leaves, the view through which the other
queries are characterised.
-/

namespace EffectMachine

/-- Why an effect failed. -/
inductive Cause (ε : Type) where
  /-- An error of the application. -/
  | fail (error : ε)
  /-- Data was rejected. -/
  | validation (error : ValidationError)
  /-- A service lookup found nothing. -/
  | serviceNotFound (key : Key)
  /-- The source took longer than allowed. -/
  | timeout (limit : Duration)
  /-- Several failures, in the order they happened. -/
  | composite (causes : List (Cause ε))
  /-- A bug or misuse. -/
  | defect (defect : Defect)
deriving Inhabited

/-- How an effect, or a part of one, ended. -/
abbrev Outcome (ε α : Type) := Except (Cause ε) α

namespace Cause

variable {ε ζ : Type}

/-! ### Joining -/

/-- The causes that a cause contributes to a composite: those of a composite, else itself. -/
def parts : Cause ε → List (Cause ε)
  | .composite causes => causes
  | cause => [cause]

/-- Two failures observed together, composites spliced on either side. -/
def combine (a b : Cause ε) : Cause ε :=
  .composite (a.parts ++ b.parts)

@[simp] theorem parts_combine (a b : Cause ε) : (a.combine b).parts = a.parts ++ b.parts := rfl

/-! ### Queries -/

/-- Whether the cause is a bare error of the application. -/
def isFail : Cause ε → Bool
  | .fail _ => true
  | _ => false

/-- Whether the cause is a bare defect. -/
def isDefect : Cause ε → Bool
  | .defect _ => true
  | _ => false

/-- Whether the cause is a composite. -/
def isComposite : Cause ε → Bool
  | .composite _ => true
  | _ => false

/-- The error of a bare failure. -/
def error? : Cause ε → Option ε
  | .fail e => some e
  | _ => none

/-- The defect of a bare defect. -/
def defect? : Cause ε → Option Defect
  | .defect d => some d
  | _ => none

mutual

/-- Every cause inside a cause, itself first, depth first. -/
def subcauses : Cause ε → List (Cause ε)
  | .composite causes => .composite causes :: subcausesAll causes
  | cause => [cause]

/-- The subcauses of several causes, one after the other. -/
def subcausesAll : List (Cause ε) → List (Cause ε)
  | [] => []
  | c :: cs => c.subcauses ++ subcausesAll cs

end

/-- Every error inside a cause, depth first. -/
def errors (c : Cause ε) : List ε := c.subcauses.filterMap error?

/-- The first error inside a cause. -/
def firstError? (c : Cause ε) : Option ε := c.errors.head?

/-- Every defect inside a cause, depth first. -/
def defects (c : Cause ε) : List Defect := c.subcauses.filterMap defect?

mutual

/-- The leaves of a cause, in order. -/
def flatten : Cause ε → List (Cause ε)
  | .composite causes => flattenAll causes
  | cause => [cause]

/-- The leaves of several causes, one after the other. -/
def flattenAll : List (Cause ε) → List (Cause ε)
  | [] => []
  | c :: cs => c.flatten ++ flattenAll cs

end

@[simp] theorem flatten_composite (causes : List (Cause ε)) :
    (composite causes).flatten = flattenAll causes := by
  rw [flatten]

theorem flattenAll_append (xs ys : List (Cause ε)) :
    flattenAll (xs ++ ys) = flattenAll xs ++ flattenAll ys := by
  induction xs with
  | nil => simp [flattenAll]
  | cons x xs ih => simp [flattenAll, ih]

/-- Splicing a composite changes no leaf. -/
@[simp] theorem flattenAll_parts (c : Cause ε) : flattenAll c.parts = c.flatten := by
  cases c <;> simp [parts, flatten, flattenAll]

theorem flatten_combine (a b : Cause ε) : (a.combine b).flatten = a.flatten ++ b.flatten := by
  simp [combine, flattenAll_append]

mutual

/-- Change the errors and keep the shape. -/
def map (f : ε → ζ) : Cause ε → Cause ζ
  | .fail e => .fail (f e)
  | .validation e => .validation e
  | .serviceNotFound k => .serviceNotFound k
  | .timeout d => .timeout d
  | .composite causes => .composite (mapAll f causes)
  | .defect d => .defect d

/-- Change the errors of several causes. -/
def mapAll (f : ε → ζ) : List (Cause ε) → List (Cause ζ)
  | [] => []
  | c :: cs => c.map f :: mapAll f cs

end

/-! ### Text -/

mutual

/-- The wording of a cause. -/
def text [ToString ε] : Cause ε → String
  | .fail e => toString e
  | .validation e => e.text
  | .serviceNotFound k => (MissingService.mk k).text
  | .timeout limit => "timed out after " ++ limit.text
  | .composite causes =>
    toString causes.length ++ " failures: [" ++ "; ".intercalate (textAll causes) ++ "]"
  | .defect d => "defect: " ++ d.text

/-- The wordings of several causes. -/
def textAll [ToString ε] : List (Cause ε) → List String
  | [] => []
  | c :: cs => c.text :: textAll cs

end

/-- The name of the kind of a cause. -/
def kind : Cause ε → String
  | .fail _ => "Fail"
  | .validation _ => "Validation"
  | .serviceNotFound _ => "ServiceNotFound"
  | .timeout _ => "Timeout"
  | .composite _ => "Composite"
  | .defect _ => "Defect"

/-! ### Equality -/

mutual

/-- Equality of causes is structural. -/
def decEq [DecidableEq ε] : (a b : Cause ε) → Decidable (a = b)
  | .fail x, b => match b with
    | .fail y => if h : x = y then isTrue (h ▸ rfl) else isFalse fun e ↦ h (Cause.fail.inj e)
    | .validation _ | .serviceNotFound _ | .timeout _ | .composite _ | .defect _ => isFalse nofun
  | .validation x, b => match b with
    | .validation y =>
      if h : x = y then isTrue (h ▸ rfl) else isFalse fun e ↦ h (Cause.validation.inj e)
    | .fail _ | .serviceNotFound _ | .timeout _ | .composite _ | .defect _ => isFalse nofun
  | .serviceNotFound x, b => match b with
    | .serviceNotFound y =>
      if h : x = y then isTrue (h ▸ rfl) else isFalse fun e ↦ h (Cause.serviceNotFound.inj e)
    | .fail _ | .validation _ | .timeout _ | .composite _ | .defect _ => isFalse nofun
  | .timeout x, b => match b with
    | .timeout y => if h : x = y then isTrue (h ▸ rfl) else isFalse fun e ↦ h (Cause.timeout.inj e)
    | .fail _ | .validation _ | .serviceNotFound _ | .composite _ | .defect _ => isFalse nofun
  | .composite xs, b => match b with
    | .composite ys => match decEqAll xs ys with
      | isTrue h => isTrue (h ▸ rfl)
      | isFalse h => isFalse fun e ↦ h (Cause.composite.inj e)
    | .fail _ | .validation _ | .serviceNotFound _ | .timeout _ | .defect _ => isFalse nofun
  | .defect x, b => match b with
    | .defect y => if h : x = y then isTrue (h ▸ rfl) else isFalse fun e ↦ h (Cause.defect.inj e)
    | .fail _ | .validation _ | .serviceNotFound _ | .timeout _ | .composite _ => isFalse nofun

/-- Lists of causes are compared element by element. -/
def decEqAll [DecidableEq ε] : (xs ys : List (Cause ε)) → Decidable (xs = ys)
  | [], [] => isTrue rfl
  | [], _ :: _ => isFalse nofun
  | _ :: _, [] => isFalse nofun
  | x :: xs, y :: ys => match decEq x y, decEqAll xs ys with
    | isTrue h, isTrue hs => isTrue (h ▸ hs ▸ rfl)
    | isFalse h, _ => isFalse fun e ↦ h (List.cons.inj e).1
    | _, isFalse hs => isFalse fun e ↦ hs (List.cons.inj e).2

end

instance [DecidableEq ε] : DecidableEq (Cause ε) := decEq

end Cause

/-! ### Outcomes -/

namespace Outcome

variable {ε α : Type}

/-- The outcome of guarded code that answers with an outcome: a panic of it is a failure. -/
def ofGuarded : Except Defect (Outcome ε α) → Outcome ε α
  | .ok outcome => outcome
  | .error d => .error (.defect d)

/-- The outcome of what was done in a scope, given how the scope closed: failures of finalizers
are added to it. -/
def merge : Outcome ε α → Outcome ε Unit → Outcome ε α
  | outcome, .ok () => outcome
  | .ok _, .error failures => .error failures
  | .error cause, .error failures => .error (cause.combine failures)

end Outcome

end EffectMachine
