/-!
# Kinds of nodes

Every node of an effect is of one of fifteen kinds. The kind decides which handler a node goes to;
`Tag.all` lists the kinds in the order in which registries report them.
-/

namespace EffectMachine

/-- The kind of a node. -/
inductive Tag where
  | pure
  | fail
  | suspend
  | bind
  | service
  | provide
  | sleep
  | async
  | recover
  | parallel
  | race
  | retry
  | region
  | finalizer
  | timeout
deriving DecidableEq

namespace Tag

/-- Every kind, in order. -/
def all : List Tag :=
  [.pure, .fail, .suspend, .bind, .service, .provide, .sleep, .async, .recover, .parallel, .race,
    .retry, .region, .finalizer, .timeout]

/-- The name of a kind. -/
def name : Tag → String
  | .pure => "Pure"
  | .fail => "Fail"
  | .suspend => "Suspend"
  | .bind => "Bind"
  | .service => "Service"
  | .provide => "Provide"
  | .sleep => "Sleep"
  | .async => "Async"
  | .recover => "Catch"
  | .parallel => "Parallel"
  | .race => "Race"
  | .retry => "Retry"
  | .region => "Scoped"
  | .finalizer => "Finalizer"
  | .timeout => "Timeout"

/-- The kind of a name. -/
def ofName? (s : String) : Option Tag := all.find? fun t ↦ t.name == s

theorem mem_all (t : Tag) : t ∈ all := by cases t <;> decide

/-- Names tell kinds apart. -/
theorem name_injective {s t : Tag} (h : s.name = t.name) : s = t := by
  revert h
  cases s <;> cases t <;> decide

end Tag

end EffectMachine
