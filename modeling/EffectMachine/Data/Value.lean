import EffectMachine.Data.Datum

/-!
# Typed values

Intermediate results of different types travel through one machine. A `Value` is therefore a
type code together with an element of that type; `Value.cast?` recovers the element exactly when
the code is the expected one. Services are values of a plain type, kept with their code in the
same way.
-/

namespace EffectMachine

/-- The plain types: those a service may have. -/
inductive Plain where
  | unit
  | int
  | text
  | flag
deriving DecidableEq

namespace Plain

/-- The elements of a plain type. -/
abbrev El : Plain → Type
  | .unit => Unit
  | .int => Int64
  | .text => String
  | .flag => Bool

/-- The name of a plain type in keys and messages. -/
def name : Plain → String
  | .unit => "()"
  | .int => "i64"
  | .text => "alloc::string::String"
  | .flag => "bool"

/-- Read a payload as an element of a plain type; null is the only element of the unit type. -/
def ofDatum? : (p : Plain) → Datum → Option p.El
  | .unit, .null => some ()
  | .int, .int n => some n
  | .text, .text s => some s
  | .flag, .flag b => some b
  | _, _ => none

/-- The payload of an element of a plain type. -/
def toDatum : (p : Plain) → p.El → Datum
  | .unit, () => .null
  | .int, n => .int n
  | .text, s => .text s
  | .flag, b => .flag b

/-- Reading back a written element gives that element. -/
theorem ofDatum?_toDatum (p : Plain) (x : p.El) : p.ofDatum? (p.toDatum x) = some x := by
  cases p <;> rfl

end Plain

/-- A service instance: an element of a plain type together with the type. -/
structure Service where
  type : Plain
  value : type.El

/-- Take a service at type `p`; another type gives nothing. -/
def Service.cast? (p : Plain) (s : Service) : Option p.El :=
  if h : s.type = p then some (h ▸ s.value) else none

@[simp] theorem Service.cast?_mk (p : Plain) (x : p.El) : Service.cast? p ⟨p, x⟩ = some x := by
  simp [Service.cast?]

/-- Codes of the types that values may have. -/
inductive Ty where
  /-- A plain type. -/
  | plain (p : Plain)
  /-- Payloads. -/
  | datum
  /-- Service instances of a type not known statically. -/
  | service
  /-- Shared instances of a plain type. -/
  | shared (p : Plain)
  | list (t : Ty)
  | pair (s t : Ty)
deriving DecidableEq

namespace Ty

/-- The unit type. -/
abbrev unit : Ty := .plain .unit

/-- The elements of a type. -/
abbrev El : Ty → Type
  | .plain p => p.El
  | .datum => Datum
  | .service => Service
  | .shared p => p.El
  | .list t => List t.El
  | .pair s t => s.El × t.El

/-- The name of a type in messages. -/
def name : Ty → String
  | .plain p => p.name
  | .datum => "Val"
  | .service => "alloc::rc::Rc<dyn core::any::Any>"
  | .shared p => "alloc::rc::Rc<" ++ p.name ++ ">"
  | .list t => "alloc::vec::Vec<" ++ t.name ++ ">"
  | .pair s t => "(" ++ s.name ++ ", " ++ t.name ++ ")"

end Ty

/-- A value on its way through the machine: an element together with its type. -/
structure Value where
  type : Ty
  el : type.El

namespace Value

/-- The value of the unit type. -/
def unit : Value := ⟨.unit, ()⟩

/-- A payload as a value. -/
def ofDatum (d : Datum) : Value := ⟨.datum, d⟩

/-- Take a value at type `t`; another type gives nothing. -/
def cast? (t : Ty) (v : Value) : Option t.El :=
  if h : v.type = t then some (h ▸ v.el) else none

@[simp] theorem cast?_mk (t : Ty) (x : t.El) : cast? t ⟨t, x⟩ = some x := by simp [cast?]

/-- A cast succeeds exactly at the type the value was made with. -/
theorem cast?_eq_none_iff (t : Ty) (v : Value) : v.cast? t = none ↔ v.type ≠ t := by
  simp [cast?]

end Value

end EffectMachine
