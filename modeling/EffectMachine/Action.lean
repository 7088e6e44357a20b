import EffectMachine.Failure.Cause
import EffectMachine.Random.Sample

/-!
# Actions

Closures that an application hands to its effects may look at the world and change it: they read
and write the application's own state, look at the clock and move it, draw random numbers, open,
fill and close scopes, and settle the slots of asynchronous effects. An `Action` is such a closure's
body as data: a tree of requests, each followed by what to do with the reply, ending in a result or
a panic. Running an action is the machine's business (`Action.perform`); that an action is data is
what lets statements quantify over closures.

**Code that outlives its closure is named.** A finalizer registered by an action, and an effect
that refers to itself, are given by a name; a `Program` says what the names stand for. So an
effect may unfold without end although each node is a finite object.
-/

namespace EffectMachine

/-- The types that an application chooses. -/
structure Signature where
  /-- The errors its effects fail with. -/
  Error : Type
  /-- The state that its closures read and write. -/
  State : Type
  /-- The names of effects that it defines. -/
  Name : Type
  /-- The names of finalizers that its actions register. -/
  Cleanup : Type

/-- A scope in the world. Scopes are numbered from one in the order of opening. -/
structure ScopeId where
  index : Nat
deriving DecidableEq

/-- The number under which a scope is reported. -/
def ScopeId.number (s : ScopeId) : Nat := s.index + 1

/-- The slot of one visit of an asynchronous effect. -/
structure SlotId where
  index : Nat
deriving DecidableEq

/-- A step budget that an interpretation and the finalizers it registers share. -/
structure BudgetId where
  index : Nat
deriving DecidableEq

/-- What can be seen of a scope from outside. -/
structure ScopeStatus where
  /-- Finalizers waiting to run. -/
  pending : Nat
  closed : Bool
deriving DecidableEq

/-- A closure's body: a tree of requests to the world that ends in a result or a panic. -/
inductive Action (S : Signature) (α : Type) : Type where
  | done (a : α)
  | panic (p : Panic)
  /-- Read the application's state. -/
  | read (next : S.State → Action S α)
  /-- Replace the application's state. -/
  | write (state : S.State) (next : Action S α)
  /-- Read the clock, in nanoseconds. -/
  | now (next : Nat → Action S α)
  /-- Move the clock forward. -/
  | advance (duration : Duration) (next : Action S α)
  /-- Sleep on the clock: move it forward and have it remember the duration. -/
  | sleep (duration : Duration) (next : Action S α)
  /-- Draw a sample from the noise of the world. -/
  | draw (next : Sample → Action S α)
  /-- Open a scope. -/
  | openScope (next : ScopeId → Action S α)
  /-- Offer a finalizer to a scope. -/
  | addCleanup (scope : ScopeId) (cleanup : S.Cleanup) (next : Except Defect Unit → Action S α)
  /-- Close a scope. -/
  | closeScope (scope : ScopeId) (next : Outcome S.Error Unit → Action S α)
  /-- Look at a scope. -/
  | inspect (scope : ScopeId) (next : ScopeStatus → Action S α)
  /-- Settle a slot; the reply says whether this was the first settlement. -/
  | settle (slot : SlotId) (outcome : Outcome S.Error Value) (next : Bool → Action S α)
  /-- Take the outcome out of a slot, if one is there. -/
  | take (slot : SlotId) (next : Option (Outcome S.Error Value) → Action S α)

namespace Action

variable {S : Signature} {α β : Type}

instance [Inhabited α] : Inhabited (Action S α) := ⟨.done default⟩

/-! ### Sequencing -/

/-- Continue an action with another one that depends on its result. -/
def bind : Action S α → (α → Action S β) → Action S β
  | .done a, f => f a
  | .panic p, _ => .panic p
  | .read k, f => .read fun r ↦ (k r).bind f
  | .write s k, f => .write s (k.bind f)
  | .now k, f => .now fun r ↦ (k r).bind f
  | .advance d k, f => .advance d (k.bind f)
  | .sleep d k, f => .sleep d (k.bind f)
  | .draw k, f => .draw fun x ↦ (k x).bind f
  | .openScope k, f => .openScope fun r ↦ (k r).bind f
  | .addCleanup s c k, f => .addCleanup s c fun r ↦ (k r).bind f
  | .closeScope s k, f => .closeScope s fun r ↦ (k r).bind f
  | .inspect s k, f => .inspect s fun r ↦ (k r).bind f
  | .settle s o k, f => .settle s o fun r ↦ (k r).bind f
  | .take s k, f => .take s fun r ↦ (k r).bind f

instance : Monad (Action S) where
  pure := .done
  bind := .bind

@[simp] theorem pure_eq_done (a : α) : (pure a : Action S α) = .done a := rfl

@[simp] theorem bind_eq_bind (x : Action S α) (f : α → Action S β) : x >>= f = x.bind f := rfl

@[simp] theorem done_bind (a : α) (f : α → Action S β) : (Action.done a).bind f = f a := rfl

@[simp] theorem panic_bind (p : Panic) (f : α → Action S β) :
    (Action.panic p : Action S α).bind f = .panic p := rfl

theorem bind_done (x : Action S α) : x.bind .done = x := by
  induction x with
  | done | panic => rfl
  | write _ _ ih | advance _ _ ih | sleep _ _ ih => rw [bind, ih]
  | read _ ih | now _ ih | draw _ ih | openScope _ ih | addCleanup _ _ _ ih | closeScope _ _ ih
  | inspect _ _ ih | settle _ _ _ ih | take _ _ ih => rw [bind, funext ih]

theorem bind_assoc {γ : Type} (x : Action S α) (f : α → Action S β) (g : β → Action S γ) :
    (x.bind f).bind g = x.bind fun a ↦ (f a).bind g := by
  induction x with
  | done | panic => rfl
  | write _ _ ih | advance _ _ ih | sleep _ _ ih => rw [bind, bind, ih, bind]
  | read _ ih | now _ ih | draw _ ih | openScope _ ih | addCleanup _ _ _ ih | closeScope _ _ ih
  | inspect _ _ ih | settle _ _ _ ih | take _ _ ih => rw [bind, bind, funext ih, bind]

instance : LawfulMonad (Action S) :=
  LawfulMonad.mk' _ (fun x ↦ bind_done x) (fun _ _ ↦ rfl) fun x f g ↦ bind_assoc x f g

/-! ### Single requests -/

/-- The application's state. -/
def get : Action S S.State := .read .done

/-- Replace the application's state. -/
def set (s : S.State) : Action S Unit := .write s (.done ())

/-- Change the application's state and return what the change yields. -/
def modifyGet (f : S.State → α × S.State) : Action S α :=
  .read fun s ↦ let r := f s; .write r.2 (.done r.1)

/-- Change the application's state. -/
def modify (f : S.State → S.State) : Action S Unit :=
  .read fun s ↦ .write (f s) (.done ())

/-- An action that is worked out only when it is performed, so that it may refer to itself by way
of a name. -/
def later (f : Unit → Action S α) : Action S α := .read fun _ ↦ f ()

/-- Repeat an action `n` times from round `i` on, handing each round its number and the result of
the one before. -/
def iterate (f : Nat → α → Action S α) : (n i : Nat) → α → Action S α
  | 0, _, a => .done a
  | n + 1, i, a =>
    match f i a with
    | .done b => iterate f n (i + 1) b
    | x => x.bind (iterate f n (i + 1))

end Action

end EffectMachine
