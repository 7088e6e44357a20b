import EffectMachine.World.Basic

/-!
# Sessions

What scripts read and write: a log, named cells, scopes and slots under the names that scripts
gave them, and how many branches a scripted strategy has started. `scripted` is the signature of
scripted effects.
-/

namespace EffectMachine.Script

/-! ### Names -/

/-- Values under names, the innermost or newest binding first. -/
abbrev Bindings (α : Type) := List (String × α)

/-- The value under a name. -/
def Bindings.find? {α : Type} (b : Bindings α) (name : String) : Option α := b.lookup name

/-- Bind a name on top of the other bindings. -/
def Bindings.push {α : Type} (b : Bindings α) (name : String) (a : α) : Bindings α :=
  (name, a) :: b

/-- Bind a name in place of an older binding of it. -/
def Bindings.put {α : Type} (b : Bindings α) (name : String) (a : α) : Bindings α :=
  (name, a) :: b.filter fun e ↦ e.1 != name

/-! ### Expressions -/

/-- An operation on integers. -/
inductive Arith where
  | add
  | sub
  | mul
deriving DecidableEq

/-- The result of an operation, before any question of its size. -/
def Arith.apply : Arith → Int → Int → Int
  | .add, a, b => a + b
  | .sub, a, b => a - b
  | .mul, a, b => a * b

/-- An expression of the script language. -/
inductive Expr where
  | const (d : Datum)
  | list (items : List Expr)
  | var (name : String)
  | arith (op : Arith) (a b : Expr)
  | eq (a b : Expr)
  | less (a b : Expr)
  | not (a : Expr)
  | and (a b : Expr)
  | or (a b : Expr)
  | cond (c a b : Expr)
  /-- Evaluate in order; the last value counts. -/
  | seq (items : List Expr)
  /-- Join the plain texts. -/
  | concat (items : List Expr)
  | length (a : Expr)
  | nth (l i : Expr)
  /-- Append to the log. -/
  | log (a : Expr)
  | panic (a : Expr)
  | panicLiteral
  | panicPayload
  | throw (a : Expr)
  | get (cell : String)
  | set (cell : String) (a : Expr)
  | incr (cell : String)
  /-- The clock in milliseconds, as a text. -/
  | now
  | advance (d : Duration)
  | scopePending (scope : String)
  | scopeClosed (scope : String)
  | scopeClose (scope : String)
  /-- Offer a finalizer to a scope. -/
  | scopeAdd (scope : String) (run : Expr) (cause : Option (Cause String))
  /-- Settle a stashed slot. -/
  | resume (slot : String) (a : Expr)
deriving Inhabited

/-- A finalizer that a script registers: what it evaluates, in which bindings, and the cause that
it reports afterwards, if any. -/
structure Cleanup where
  run : Expr
  vars : Bindings Datum
  cause : Option (Cause String)

/-- A call of a defined effect. -/
structure Call where
  name : String
  args : List Datum

/-- What scripts read and write. -/
structure Session where
  log : Array Datum := #[]
  cells : Bindings Datum := []
  scopes : Bindings ScopeId := []
  slots : Bindings SlotId := []
  /-- Branches that the scripted strategy has started. -/
  forked : Nat := 0
  /-- The clock that expressions see, where it is not the one that runs are timed by. -/
  ownClock : Option Clock := none

/-- The signature of scripted effects. -/
abbrev scripted : Signature := ⟨String, Session, Call, Cleanup⟩

/-- Application code of scripts. -/
abbrev Code := Action scripted

/-- The session. -/
def session : Code Session := .get

/-- Change the session. -/
def updateSession (f : Session → Session) : Code Unit := .modify f

/-- Append to the log. -/
def record (d : Datum) : Code Unit := updateSession fun s ↦ { s with log := s.log.push d }

/-- Everything logged since the log was last taken. -/
def takeLog : Code (List Datum) :=
  .modifyGet fun s ↦ (s.log.toList, { s with log := #[] })

/-- Look at a scope. -/
def scopeStatus (s : ScopeId) : Code ScopeStatus := .inspect s .done

/-- Close a scope. -/
def closeScope (s : ScopeId) : Code (Outcome String Unit) := .closeScope s .done

/-- Offer a finalizer to a scope. -/
def addCleanup (s : ScopeId) (c : Cleanup) : Code (Except Defect Unit) := .addCleanup s c .done

/-- Settle a slot; the answer says whether this was the first settlement. -/
def settleSlot (s : SlotId) (o : Outcome String Value) : Code Bool := .settle s o .done

/-- Panic with a text. -/
def panicWith {α : Type} (text : String) : Code α := .panic (.message text)

end EffectMachine.Script
