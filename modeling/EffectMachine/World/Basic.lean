import EffectMachine.Effect.Node
import EffectMachine.World.Budget
import EffectMachine.World.Clock
import EffectMachine.World.Heap
import EffectMachine.World.Slot

/-!
# The world

Everything that outlives a step of the machine and that closures, scopes and interpretations
share: the application's state, the clock, the noise, and cells for scopes, slots and step budgets.

A scope keeps its finalizers newest first, which is the order in which it runs them. A finalizer
is a named one, registered by application code, or a release effect, registered by an
interpretation together with the context and the budget that were in force.

**What is done to the finalizers of a scope is one step.** Adding one, counting those that wait and
taking all of them away hold the list while they last, and nothing else runs meanwhile: a finalizer
that is offered is stored and not called, and a scope that closes has given its list back, empty,
when it calls the first of those that it took. So no closure ever finds the list of a scope held by
another call, and the world need not say who holds it.

**The world has a history**: the events in the lives of scopes and finalizers, and the step limits
that runs exceeded. Nothing that runs looks at it; it is what statements about the order of things
are about.
-/

namespace EffectMachine

/-- What a scope does when it closes. -/
inductive Finalizer (S : Signature) where
  /-- Run a finalizer that the application named. -/
  | cleanup (c : S.Cleanup)
  /-- Build a release effect and interpret it. -/
  | release (build : Action S (Plan S)) (context : Context) (budget : BudgetId)

/-- A scope: whether it has been closed, and the finalizers waiting to run, newest first. -/
structure Scope (S : Signature) where
  closed : Bool := false
  finalizers : List (Finalizer S) := []

namespace Scope

variable {S : Signature}

/-- A scope that has just been opened. -/
def fresh : Scope S := {}

/-- A scope that has been closed. -/
def shut : Scope S := { closed := true }

/-- Add a finalizer. -/
def add (s : Scope S) (f : Finalizer S) : Scope S := { s with finalizers := f :: s.finalizers }

/-- What can be seen of a scope. -/
def status (s : Scope S) : ScopeStatus := ⟨s.finalizers.length, s.closed⟩

end Scope

/-- The description of a scope. -/
def ScopeStatus.text (st : ScopeStatus) (id : ScopeId) : String :=
  Layout.record "Scope" [
    ("id", toString id.number),
    ("pending", toString st.pending),
    ("closed", Layout.bool st.closed)]

/-- Something that happened to a scope, to a finalizer or to a run. -/
inductive Event (S : Signature) where
  /-- A run or a region opened a scope. -/
  | opened (s : ScopeId)
  /-- A scope accepted a finalizer. -/
  | accepted (s : ScopeId) (f : Finalizer S)
  /-- A closed scope refused a finalizer. -/
  | refused (s : ScopeId) (f : Finalizer S)
  /-- A scope began to close. -/
  | closing (s : ScopeId)
  /-- A closing scope invoked a finalizer. -/
  | invoked (s : ScopeId) (f : Finalizer S)
  /-- A finalizer that a closing scope had invoked ended. -/
  | ended (s : ScopeId) (f : Finalizer S) (outcome : Outcome S.Error Unit)
  /-- A scope had run all its finalizers. -/
  | closed (s : ScopeId)
  /-- A run took more steps than its limit. -/
  | exceeded (b : BudgetId) (limit : Nat)

/-- The state shared by closures, scopes and interpretations. -/
structure World (S : Signature) where
  /-- The application's state. -/
  state : S.State
  clock : Clock
  /-- What random numbers are drawn from. -/
  noise : Noise
  scopes : Heap (Scope S) := {}
  slots : Heap (Slot S.Error) := {}
  budgets : Heap Budget := {}
  /-- Branches forked so far. -/
  forks : Nat := 0
  /-- What has happened so far, newest first. -/
  history : List (Event S) := []

namespace World

variable {S : Signature}

/-- Add an event to the history. -/
def record (w : World S) (e : Event S) : World S := { w with history := e :: w.history }

/-! ### Scopes -/

/-- Open a scope. -/
def openScope (w : World S) : ScopeId × World S :=
  (⟨w.scopes.size⟩, { w with scopes := w.scopes.alloc .fresh })

/-- Open a scope for a run or a region, which closes it in the end. -/
def enterScope (w : World S) : ScopeId × World S :=
  let r := w.openScope
  (r.1, r.2.record (.opened r.1))

/-- The scope behind an identifier. A scope that was never opened counts as closed. -/
def scope (w : World S) (s : ScopeId) : Scope S := (w.scopes.get? s.index).getD .shut

/-- Offer a finalizer to a scope; a closed scope refuses it. -/
def addFinalizer (w : World S) (s : ScopeId) (f : Finalizer S) : Except Defect Unit × World S :=
  if (w.scope s).closed then (.error (.scopeClosed s.number), w.record (.refused s f))
  else
    (.ok (), { w with scopes := w.scopes.modify s.index fun c ↦ c.add f }.record (.accepted s f))

/-- Mark a scope closed and take its finalizers away from it. -/
def shutScope (w : World S) (s : ScopeId) : World S :=
  { w with scopes := w.scopes.modify s.index fun _ ↦ .shut }.record (.closing s)

/-! ### Slots -/

/-- Make a fresh slot. -/
def newSlot (w : World S) : SlotId × World S :=
  (⟨w.slots.size⟩, { w with slots := w.slots.alloc .fresh })

/-- The slot behind an identifier. -/
def slot (w : World S) (s : SlotId) : Slot S.Error := (w.slots.get? s.index).getD .fresh

/-- Settle a slot; the answer says whether this was the first settlement. -/
def settle (w : World S) (s : SlotId) (o : Outcome S.Error Value) : Bool × World S :=
  (!(w.slot s).settled, { w with slots := w.slots.modify s.index fun c ↦ c.settle o })

/-- Take the outcome out of a slot. -/
def takeOutcome (w : World S) (s : SlotId) : Option (Outcome S.Error Value) × World S :=
  ((w.slot s).outcome, { w with slots := w.slots.modify s.index Slot.take })

/-! ### Budgets -/

/-- Make a budget. -/
def newBudget (w : World S) (b : Budget) : BudgetId × World S :=
  (⟨w.budgets.size⟩, { w with budgets := w.budgets.alloc b })

/-- The budget behind an identifier. -/
def budget (w : World S) (b : BudgetId) : Budget := (w.budgets.get? b.index).getD {}

/-- Change a budget. -/
def modifyBudget (w : World S) (b : BudgetId) (f : Budget → Budget) : World S :=
  { w with budgets := w.budgets.modify b.index f }

/-! ### Clock, noise and forks -/

/-- Change the clock. -/
def modifyClock (w : World S) (f : Clock → Clock) : World S := { w with clock := f w.clock }

/-- Draw a sample. -/
def draw (w : World S) : Sample × World S := (w.noise.next, { w with noise := w.noise.advance })

/-- Number a new fork, from one on. -/
def newFork (w : World S) : Nat × World S := (w.forks + 1, { w with forks := w.forks + 1 })

end World

end EffectMachine
