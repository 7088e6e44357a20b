import EffectMachine.Failure.Defect

/-!
# Contexts

A context maps service keys to instances. It keeps its entries in the order in which the keys
were first bound; binding a key again replaces the instance and keeps the place. `Context.merge`
binds every entry of the right context on top of the left one.

Statements about contexts go through two views: `Context.keys`, the keys in order, and
`Context.find?`, the instance under a key.
-/

namespace EffectMachine

/-- Services in the order in which their keys were first bound, with at most one under each key. -/
@[ext] structure Context where
  entries : List (Key × Service)
  distinct : (entries.map Prod.fst).Nodup

namespace Context

/-- The context without services. -/
def empty : Context := ⟨[], List.nodup_nil⟩

instance : Inhabited Context := ⟨empty⟩

/-- Bind a key in a list of entries: in place if it is bound, else at the end. -/
def insertEntry (k : Key) (s : Service) : List (Key × Service) → List (Key × Service)
  | [] => [(k, s)]
  | e :: es => if e.1 = k then (e.1, s) :: es else e :: insertEntry k s es

/-- Binding a key appends it to the keys unless it is one of them. -/
theorem keys_insertEntry (k : Key) (s : Service) (es : List (Key × Service)) :
    (insertEntry k s es).map Prod.fst
      = if k ∈ es.map Prod.fst then es.map Prod.fst else es.map Prod.fst ++ [k] := by
  induction es with
  | nil => rfl
  | cons e es ih =>
    by_cases h : e.1 = k
    · simp [insertEntry, h]
    · rw [insertEntry, if_neg h, List.map_cons, List.map_cons, ih]
      by_cases hk : k ∈ es.map Prod.fst
      · rw [if_pos hk, if_pos (List.mem_cons_of_mem _ hk)]
      · rw [if_neg hk, if_neg (by simp [Ne.symm h, hk]), List.cons_append]

theorem distinct_insertEntry {es : List (Key × Service)} (h : (es.map Prod.fst).Nodup) (k : Key)
    (s : Service) : ((insertEntry k s es).map Prod.fst).Nodup := by
  rw [keys_insertEntry]
  by_cases hk : k ∈ es.map Prod.fst
  · rwa [if_pos hk]
  · rw [if_neg hk]
    refine List.nodup_append.mpr ⟨h, by simp, fun a ha b hb hab ↦ hk ?_⟩
    rwa [← List.mem_singleton.mp hb, ← hab]

/-- Bind a key to an instance whose type need not be the key's. -/
def insert (c : Context) (k : Key) (s : Service) : Context :=
  ⟨insertEntry k s c.entries, distinct_insertEntry c.distinct k s⟩

/-- Bind each key of a list to the instance beside it, from left to right. -/
def insertAll (c : Context) (es : List (Key × Service)) : Context :=
  es.foldl (fun c e ↦ c.insert e.1 e.2) c

/-- Bind a key to an instance of its type. -/
def bind (c : Context) (k : Key) (x : k.type.El) : Context :=
  c.insert k ⟨k.type, x⟩

/-- The keys in order. -/
def keys (c : Context) : List Key := c.entries.map Prod.fst

/-- The number of services. -/
def size (c : Context) : Nat := c.entries.length

/-- Whether the context is empty. -/
def isEmpty (c : Context) : Bool := c.entries.isEmpty

/-- The instance under a key. -/
def find? (c : Context) (k : Key) : Option Service :=
  (c.entries.find? fun e ↦ e.1 = k).map Prod.snd

/-- Whether a key is bound. -/
def contains (c : Context) (k : Key) : Bool := (c.find? k).isSome

/-- The element under a key, provided the instance has the key's type. -/
def get? (c : Context) (k : Key) : Option k.type.El :=
  (c.find? k).bind (Service.cast? k.type)

/-- The element under a key, or the report that it is missing. An instance of another type counts
as missing. -/
def require (c : Context) (k : Key) : Except MissingService k.type.El :=
  match c.get? k with
  | some x => .ok x
  | none => .error ⟨k⟩

/-- Both contexts' services; the right one wins where both bind a key. -/
def merge (a b : Context) : Context :=
  if b.isEmpty then a
  else if a.isEmpty then b
  else a.insertAll b.entries

/-- A context with the services under the listed keys, in that order; absent keys are skipped. -/
def select (c : Context) (ks : List Key) : Context :=
  ks.foldl (fun out k ↦ match c.find? k with
    | some s => out.insert k s
    | none => out) empty

/-! ### Lookup after binding -/

theorem find?_insertEntry_self (k : Key) (s : Service) (es : List (Key × Service)) :
    ((insertEntry k s es).find? fun e ↦ e.1 = k).map Prod.snd = some s := by
  induction es with
  | nil => simp [insertEntry]
  | cons e es ih =>
    by_cases h : e.1 = k
    · simp [insertEntry, h]
    · simpa [insertEntry, h] using ih

theorem find?_insertEntry_of_ne {k l : Key} (h : l ≠ k) (s : Service)
    (es : List (Key × Service)) :
    ((insertEntry k s es).find? fun e ↦ e.1 = l).map Prod.snd
      = (es.find? fun e ↦ e.1 = l).map Prod.snd := by
  induction es with
  | nil => simp [insertEntry, Ne.symm h]
  | cons e es ih =>
    by_cases hk : e.1 = k
    · simp [insertEntry, hk, Ne.symm h]
    · by_cases hl : e.1 = l
      · simp [insertEntry, hl, h]
      · simpa [insertEntry, hk, hl] using ih

/-- The last binding of a key is the one that is found. -/
@[simp] theorem find?_insert_self (c : Context) (k : Key) (s : Service) :
    (c.insert k s).find? k = some s :=
  find?_insertEntry_self k s c.entries

/-- Binding a key leaves the other keys alone. -/
theorem find?_insert_of_ne (c : Context) {k l : Key} (h : l ≠ k) (s : Service) :
    (c.insert k s).find? l = c.find? l :=
  find?_insertEntry_of_ne h s c.entries

end Context

end EffectMachine
