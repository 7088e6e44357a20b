import EffectMachine.Script.Session

/-!
# Evaluation of expressions

An expression evaluates to a payload, throws a text or panics. Operands are evaluated from left to
right, and an operand of the wrong kind panics before the next one is evaluated.
-/

namespace EffectMachine.Script

/-- Evaluation: application code that may throw a text. -/
abbrev Eval := ExceptT String Code

namespace Eval

/-- Panic with a text. -/
def panic {α : Type} (text : String) : Eval α := ExceptT.lift (panicWith text)

/-- Throw a text. -/
def raise {α : Type} (text : String) : Eval α := ExceptT.mk (.done (.error text))

/-- Panic because an operand has the wrong kind. -/
def badOperand {α : Type} : Eval α := panic "bad operand"

/-- An operand that has to be an integer. -/
def int : Datum → Eval Int64
  | .int n => return n
  | _ => badOperand

/-- An operand that has to be a truth value. -/
def flag : Datum → Eval Bool
  | .flag b => return b
  | _ => badOperand

/-- Evaluation as application code; a throw has no meaning there and becomes a panic. -/
def toCode {α : Type} (e : Eval α) : Code α := do
  match ← e.run with
  | .ok a => return a
  | .error text => panicWith ("uncaught throw: " ++ text)

end Eval

/-- An integer that may not fit the words of payloads. -/
def wordOrOverflow (n : Int) : Eval Datum :=
  if Int64.minValue.toInt ≤ n ∧ n ≤ Int64.maxValue.toInt then return .int (Int64.ofInt n)
  else Eval.panic "arithmetic overflow"

/-- The scope that a script registered under a name. -/
def scopeNamed (name : String) : Eval ScopeId := do
  match (← session).scopes.find? name with
  | some s => return s
  | none => Eval.panic ("unknown scope " ++ name)

/-- Whole milliseconds on the clock that expressions see. -/
def millisNow : Code Nat := do
  match (← session).ownClock with
  | some c => return c.millis
  | none => .now fun nanos ↦ .done (nanos / nanosPerMilli)

/-- Move the clock that expressions see. -/
def advanceClock (d : Duration) : Code Unit := do
  match (← session).ownClock with
  | some c => updateSession fun s ↦ { s with ownClock := some (c.advance d) }
  | none => .advance d (.done ())

/-- The element of a list at a position. -/
def element (items : List Datum) (i : Int64) : Eval Datum :=
  match if i < 0 then none else items[i.toInt.toNat]? with
  | some d => return d
  | none => Eval.panic ("index " ++ toString i.toInt ++ " out of range")

/-- The plain text of a cause as a payload, and null for none. -/
def causeDatum : Outcome String Unit → Datum
  | .ok () => .null
  | .error cause => .text cause.text

/-- The plain text of a defect as a payload, and null for none. -/
def defectDatum : Except Defect Unit → Datum
  | .ok () => .null
  | .error d => .text d.text

mutual

/-- Evaluate an expression. -/
def Expr.eval (vars : Bindings Datum) : Expr → Eval Datum
  | .const d => return d
  | .list items => return .list (← evalAll vars items)
  | .var name =>
    match vars.find? name with
    | some d => return d
    | none => Eval.panic ("unknown variable " ++ name)
  | .arith op a b => do
    let x ← Eval.int (← a.eval vars)
    let y ← Eval.int (← b.eval vars)
    wordOrOverflow (op.apply x.toInt y.toInt)
  | .eq a b => do
    let x ← a.eval vars
    let y ← b.eval vars
    return .flag (x = y)
  | .less a b => do
    let x ← Eval.int (← a.eval vars)
    let y ← Eval.int (← b.eval vars)
    return .flag (x < y)
  | .not a => return .flag (!(← Eval.flag (← a.eval vars)))
  | .and a b => do
    if ← Eval.flag (← a.eval vars) then return .flag (← Eval.flag (← b.eval vars))
    else return .flag false
  | .or a b => do
    if ← Eval.flag (← a.eval vars) then return .flag true
    else return .flag (← Eval.flag (← b.eval vars))
  | .cond c a b => do
    if ← Eval.flag (← c.eval vars) then a.eval vars else b.eval vars
  | .seq items => return (← evalAll vars items).getLast?.getD .null
  | .concat items => return .text ("".intercalate ((← evalAll vars items).map Datum.plain))
  | .length a => do
    match ← a.eval vars with
    | .text s => return .int (Int64.ofNat s.length)
    | .list items => return .int (Int64.ofNat items.length)
    | _ => Eval.badOperand
  | .nth l i => do
    match ← l.eval vars with
    | .list items => element items (← Eval.int (← i.eval vars))
    | _ => Eval.badOperand
  | .log a => do
    record (← a.eval vars)
    return .null
  | .panic a => do Eval.panic (← a.eval vars).plain
  | .panicLiteral => Eval.panic "literal panic"
  | .panicPayload => ExceptT.lift (.panic .payload)
  | .throw a => do Eval.raise (← a.eval vars).plain
  | .get cell => return ((← session).cells.find? cell).getD (.int 0)
  | .set cell a => do
    let d ← a.eval vars
    updateSession fun s ↦ { s with cells := s.cells.put cell d }
    return .null
  | .incr cell => do
    let n ← Eval.int (((← session).cells.find? cell).getD (.int 0))
    let d ← wordOrOverflow (n.toInt + 1)
    updateSession fun s ↦ { s with cells := s.cells.put cell d }
    return d
  | .now => return .text (toString (← millisNow))
  | .advance d => do
    advanceClock d
    return .null
  | .scopePending scope => do
    let s ← scopeNamed scope
    return .int (Int64.ofNat (← scopeStatus s).pending)
  | .scopeClosed scope => do
    let s ← scopeNamed scope
    return .flag (← scopeStatus s).closed
  | .scopeClose scope => do
    let s ← scopeNamed scope
    return causeDatum (← Script.closeScope s)
  | .scopeAdd scope run cause => do
    let s ← scopeNamed scope
    return defectDatum (← addCleanup s ⟨run, vars, cause⟩)
  | .resume slot a => do
    let d ← a.eval vars
    match (← session).slots.find? slot with
    | some s => return .flag (← settleSlot s (.ok (.ofDatum d)))
    | none => Eval.panic "unknown resume"

/-- Evaluate expressions in order. -/
def Expr.evalAll (vars : Bindings Datum) : List Expr → Eval (List Datum)
  | [] => return []
  | e :: es => do
    let d ← e.eval vars
    return d :: (← evalAll vars es)

end

/-- Evaluate where a throw has no meaning. -/
def Expr.compute (vars : Bindings Datum) (e : Expr) : Code Datum := (e.eval vars).toCode

/-- Evaluate to a truth value where a throw has no meaning. -/
def Expr.holds (vars : Bindings Datum) (e : Expr) : Code Bool :=
  Eval.toCode do Eval.flag (← e.eval vars)

/-- Evaluate to a plain text where a throw has no meaning. -/
def Expr.plain (vars : Bindings Datum) (e : Expr) : Code String := do
  return (← e.compute vars).plain

/-- Run a finalizer: evaluate, then report its cause. A throw is an error of its own. -/
def Cleanup.perform (c : Cleanup) : Code (Outcome String Unit) := do
  match ← (c.run.eval c.vars).run with
  | .error text => return .error (.fail text)
  | .ok _ =>
    match c.cause with
    | some cause => return .error cause
    | none => return .ok ()

end EffectMachine.Script
