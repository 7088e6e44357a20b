/-!
# Layout of descriptions

Descriptions of structured things share four shapes: a named record `Name { a: 1, b: 2 }`, a list
`[a, b]`, a set written in braces, and an optional `Some(a)` or `None`.
-/

namespace EffectMachine.Layout

/-- A list in brackets. -/
def list (items : List String) : String :=
  "[" ++ ", ".intercalate items ++ "]"

/-- A set in braces. -/
def set (items : List String) : String :=
  "\x7b" ++ ", ".intercalate items ++ "\x7d"

/-- One field of a record. -/
def field (entry : String × String) : String :=
  entry.1 ++ ": " ++ entry.2

/-- A record: its name, then its fields in order. -/
def record (name : String) (fields : List (String × String)) : String :=
  name ++ " \x7b " ++ ", ".intercalate (fields.map field) ++ " \x7d"

/-- A thing that may be absent. -/
def option : Option String → String
  | none => "None"
  | some s => "Some(" ++ s ++ ")"

/-- A truth value. -/
def bool (b : Bool) : String :=
  if b then "true" else "false"

end EffectMachine.Layout
