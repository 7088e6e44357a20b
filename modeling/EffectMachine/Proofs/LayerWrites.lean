import EffectMachine.Proofs.Layers
import EffectMachine.Proofs.Typing

/-!
# What layers write

A layer that is composed of values and factories writes instances one after the other
(`Layer.Expr.Writes`). What it builds finds the last instance that was written under a key, and what
the input finds where none was (`Layer.Expr.Writes.find?`). What is written is of its key's type, so
such a layer keeps contexts typed, like binding and merging.

**A layer writes less on the left of another one.** The right one hands on the input, so of what the
left one writes a merge keeps what is under keys that the input does not bind.

Layers that are built inside one another write one after the other, the outermost first. So the
innermost layer that writes a key decides what is found under it (`Layer.Written.find?`).
-/

namespace EffectMachine

variable {S : Signature}

/-! ### Typed contexts -/

namespace Context

variable {c c' : Context} {k : Key}

theorem typed_empty : empty.Typed := nofun

namespace Typed

/-- What is found under a key of a typed context is an element of its type. -/
theorem find? (h : c.Typed) {s : Service} (hs : c.find? k = some s) :
    ∃ x : k.type.El, s = ⟨k.type, x⟩ := by
  have htype : s.type = k.type := (forall_entries_iff fun k s ↦ s.type = k.type).mp h k s hs
  obtain ⟨t, x⟩ := s
  obtain rfl : t = k.type := htype
  exact ⟨x, rfl⟩

theorem insert (h : c.Typed) {s : Service} (hs : s.type = k.type) : (c.insert k s).Typed :=
  forall_entries_insert (fun k s ↦ s.type = k.type) h hs

theorem bind (h : c.Typed) (x : k.type.El) : (c.bind k x).Typed := h.insert rfl

theorem merge (h : c.Typed) (h' : c'.Typed) : (c.merge c').Typed :=
  forall_entries_merge (fun k s ↦ s.type = k.type) h h'

end Typed

end Context

/-! ### Writes -/

namespace Layer

namespace Expr

/-- The layer is composed of values and factories. -/
def Standard : Expr S → Prop
  | .custom _ => False
  | .andThen a b | .after a b | .beside a b => a.Standard ∧ b.Standard
  | .empty | .value _ _ | .factory _ _ => True

/-- Building the layer from a context may write the listed instances, the last one last, and lead to
another context. Of a layer with another one on its right only what is under keys that the context
does not bind counts as written. -/
inductive Writes : Expr S → Context → List (Key × Service) → Context → Prop where
  | empty (c : Context) : Writes .empty c [] c
  | value (c : Context) (k : Key) (x : k.type.El) :
      Writes (.value k x) c [(k, ⟨k.type, x⟩)] (c.bind k x)
  | factory {c : Context} {k : Key} {make : Context → Action S (Except MissingService k.type.El)}
      {x : k.type.El} (h : (make c).Yields (.ok x)) :
      Writes (.factory k make) c [(k, ⟨k.type, x⟩)] (c.bind k x)
  | andThen {a b : Expr S} {c d c' : Context} {ws ws' : List (Key × Service)}
      (ha : Writes a c ws d) (hb : Writes b d ws' c') : Writes (.andThen a b) c (ws ++ ws') c'
  | after {a b : Expr S} {c d c' : Context} {ws ws' : List (Key × Service)}
      (hb : Writes b c ws d) (ha : Writes a d ws' c') : Writes (.after a b) c (ws ++ ws') c'
  | beside {a b : Expr S} {c left right : Context} {ws ws' : List (Key × Service)}
      (ha : Writes a c ws left) (hb : Writes b c ws' right) :
      Writes (.beside a b) c (ws.filter (fun w ↦ !c.contains w.1) ++ ws') (left.merge right)

/-- Going on after a layer that was built. -/
theorem yields_onBuilt {x : Action S (Except MissingService Context)}
    {k : Context → Action S (Except MissingService Context)} {c' : Context}
    (h : (x.bind (onBuilt k)).Yields (.ok c')) :
    ∃ built, x.Yields (.ok built) ∧ (k built).Yields (.ok c') := by
  obtain ⟨r, hr, h⟩ := Action.yields_bind.mp h
  cases r with
  | error m => cases h
  | ok built => exact ⟨built, hr, h⟩

theorem writes_of_yields {e : Expr S} (he : e.Standard) {c c' : Context}
    (h : (e.eval.build c).Yields (.ok c')) : ∃ ws, e.Writes c ws c' := by
  induction e generalizing c c' with
  | custom build => exact he.elim
  | empty =>
    cases h
    exact ⟨_, .empty c⟩
  | value k x =>
    cases h
    exact ⟨_, .value c k x⟩
  | factory k make =>
    obtain ⟨r, hr, h⟩ := Action.yields_bind.mp h
    cases r with
    | error m => cases h
    | ok x =>
      cases h
      exact ⟨_, .factory hr⟩
  | andThen a b iha ihb =>
    obtain ⟨d, ha, hb⟩ := yields_onBuilt h
    obtain ⟨ws, hws⟩ := iha he.1 ha
    obtain ⟨ws', hws'⟩ := ihb he.2 hb
    exact ⟨_, .andThen hws hws'⟩
  | after a b iha ihb =>
    obtain ⟨d, hb, ha⟩ := yields_onBuilt h
    obtain ⟨ws, hws⟩ := ihb he.2 hb
    obtain ⟨ws', hws'⟩ := iha he.1 ha
    exact ⟨_, .after hws hws'⟩
  | beside a b iha ihb =>
    rw [eval, build_beside] at h
    obtain ⟨left, ha, h⟩ := yields_onBuilt h
    obtain ⟨right, hb, h⟩ := yields_onBuilt h
    cases h
    obtain ⟨ws, hws⟩ := iha he.1 ha
    obtain ⟨ws', hws'⟩ := ihb he.2 hb
    exact ⟨_, .beside hws hws'⟩

theorem Writes.yields {e : Expr S} {c c' : Context} {ws : List (Key × Service)}
    (h : e.Writes c ws c') : (e.eval.build c).Yields (.ok c') := by
  induction h with
  | empty | value => rfl
  | factory h => exact Action.yields_bind.mpr ⟨_, h, rfl⟩
  | andThen _ _ iha ihb => exact Action.yields_bind.mpr ⟨_, iha, ihb⟩
  | after _ _ ihb iha => exact Action.yields_bind.mpr ⟨_, ihb, iha⟩
  | beside _ _ iha ihb =>
    rw [eval, build_beside]
    exact Action.yields_bind.mpr ⟨_, iha, Action.yields_bind.mpr ⟨_, ihb, rfl⟩⟩

/-- **What can be built is what can be written.** -/
theorem yields_iff_writes {e : Expr S} (he : e.Standard) {c c' : Context} :
    (e.eval.build c).Yields (.ok c') ↔ ∃ ws, e.Writes c ws c' :=
  ⟨writes_of_yields he, fun ⟨_, h⟩ ↦ h.yields⟩

/-- What is listed for a key if only keys of a kind are kept. -/
theorem lookup_filter (p : Key → Bool) (ws : List (Key × Service)) (k : Key) :
    (ws.filter fun w ↦ p w.1).lookup k = if p k then ws.lookup k else none := by
  induction ws with
  | nil => exact (ite_self _).symm
  | cons w ws ih =>
    rw [List.filter_cons]
    by_cases hk : k = w.1
    · subst hk
      by_cases hp : p w.1 = true
      · rw [if_pos hp, if_pos hp, List.lookup_cons_self, List.lookup_cons_self]
      · rw [if_neg hp, if_neg hp, ih, if_neg hp]
    · rw [List.lookup_cons, beq_false_of_ne hk]
      by_cases hp : p w.1 = true
      · rw [if_pos hp, List.lookup_cons, beq_false_of_ne hk, ih]
      · rw [if_neg hp, ih]

namespace Writes

variable {e : Expr S} {c c' : Context} {ws : List (Key × Service)}

theorem find?_bind (c : Context) (k l : Key) (x : k.type.El) :
    (c.bind k x).find? l = ([(k, (⟨k.type, x⟩ : Service))].reverse.lookup l).or (c.find? l) :=
  c.find?_insertAll [(k, ⟨k.type, x⟩)] l

theorem find?_append {d : Context} {ws' : List (Key × Service)} {k : Key}
    (hd : d.find? k = (ws.reverse.lookup k).or (c.find? k))
    (hc' : c'.find? k = (ws'.reverse.lookup k).or (d.find? k)) :
    c'.find? k = ((ws ++ ws').reverse.lookup k).or (c.find? k) := by
  rw [hc', hd, List.reverse_append, List.lookup_append, Option.or_assoc]

/-- **What is found in what a layer builds**: the last instance written under the key, or what the
input finds. -/
theorem find? (h : e.Writes c ws c') (k : Key) :
    c'.find? k = (ws.reverse.lookup k).or (c.find? k) := by
  induction h with
  | empty c => rfl
  | value c l x => exact find?_bind c l k x
  | factory h => exact find?_bind _ _ k _
  | andThen _ _ iha ihb => exact find?_append iha ihb
  | after _ _ ihb iha => exact find?_append ihb iha
  | @beside a b c left right ws ws' _ _ iha ihb =>
    have hunbound : (ws.filter fun w ↦ !c.contains w.1).reverse.lookup k =
        if c.contains k then none else ws.reverse.lookup k := by
      rw [← List.filter_reverse, lookup_filter fun l ↦ !c.contains l]
      cases c.contains k <;> rfl
    rw [Context.find?_merge, iha, ihb, List.reverse_append, List.lookup_append, hunbound,
      Context.contains]
    -- if the input binds the key, the right side hands that on
    cases c.find? k with
    | none => rw [Option.or_none, Option.or_none, Option.or_none]; rfl
    | some s =>
      rw [Option.or_assoc, Option.or_assoc]
      rfl

/-- A layer keeps contexts typed. -/
theorem typed_built (h : e.Writes c ws c') (hc : c.Typed) : c'.Typed := by
  induction h with
  | empty => exact hc
  | value | factory => exact hc.bind _
  | andThen _ _ iha ihb => exact ihb (iha hc)
  | after _ _ ihb iha => exact iha (ihb hc)
  | beside _ _ iha ihb => exact (iha hc).merge (ihb hc)

end Writes

end Expr

/-- The layer is composed of values and factories, in whatever way. -/
def Standard (l : Layer S) : Prop := ∃ e : Expr S, e.Standard ∧ e.eval = l

/-- Layers built inside one another, the innermost first, with the contexts that they were built
from. They lead from the ambient context to the one inside all of them. -/
inductive Nested (ambient : Context) : List (Layer S) → List Context → Context → Prop where
  | ambient : Nested ambient [] [] ambient
  | inside {ls : List (Layer S)} {cs : List Context} {c c' : Context} {l : Layer S}
      (h : Nested ambient ls cs c) (hb : (l.build c).Yields (.ok c')) :
      Nested ambient (l :: ls) (c :: cs) c'

/-- Layers built inside one another, the innermost first, with what each of them wrote. -/
inductive Written (ambient : Context) :
    List (Layer S) → List (List (Key × Service)) → Context → Prop where
  | ambient : Written ambient [] [] ambient
  | inside {ls : List (Layer S)} {wss : List (List (Key × Service))} {c c' : Context}
      {ws : List (Key × Service)} {e : Expr S} (h : Written ambient ls wss c) (he : e.Standard)
      (hw : e.Writes c ws c') : Written ambient (e.eval :: ls) (ws :: wss) c'

variable {ambient c : Context} {ls : List (Layer S)}

theorem Nested.written {cs : List Context} (h : Nested ambient ls cs c)
    (hls : ∀ l ∈ ls, l.Standard) : ∃ wss, Written ambient ls wss c := by
  induction h with
  | ambient => exact ⟨[], .ambient⟩
  | inside _ hb ih =>
    obtain ⟨⟨e, he, rfl⟩, hrest⟩ := List.forall_mem_cons.mp hls
    obtain ⟨wss, h⟩ := ih hrest
    obtain ⟨ws, hw⟩ := (Expr.yields_iff_writes he).mp hb
    exact ⟨ws :: wss, h.inside he hw⟩

namespace Written

variable {wss : List (List (Key × Service))}

/-- **The innermost layer that writes a key decides what is found under it**, and the ambient
context does if none writes it. -/
theorem find? (h : Written ambient ls wss c) (k : Key) :
    c.find? k = (wss.findSome? fun ws ↦ ws.reverse.lookup k).or (ambient.find? k) := by
  induction h with
  | ambient => rfl
  | @inside ls wss c c' ws e _ _ hw ih =>
    rw [hw.find?, ih, List.findSome?_cons]
    cases ws.reverse.lookup k <;> rfl

theorem typed (h : Written ambient ls wss c) (ha : ambient.Typed) : c.Typed := by
  induction h with
  | ambient => exact ha
  | inside _ _ hw ih => exact hw.typed_built ih

end Written

end Layer

/-! ### Contexts that arise -/

/-- The contexts that arise from typed ones by binding instances of the right type, by merging and
by building layers. -/
inductive Context.Arises (S : Signature) : Context → Prop where
  | given {c : Context} (h : c.Typed) : Arises S c
  | bind {c : Context} (h : Arises S c) (k : Key) (x : k.type.El) : Arises S (c.bind k x)
  | insert {c : Context} (h : Arises S c) {k : Key} {s : Service} (hs : s.type = k.type) :
      Arises S (c.insert k s)
  | merge {c c' : Context} (h : Arises S c) (h' : Arises S c') : Arises S (c.merge c')
  | built {c c' : Context} (h : Arises S c) {l : Layer S} (hl : l.Standard)
      (hb : (l.build c).Yields (.ok c')) : Arises S c'

theorem Context.Arises.typed {c : Context} (h : Context.Arises S c) : c.Typed := by
  induction h with
  | given h => exact h
  | bind _ k x ih => exact ih.bind x
  | insert _ hs ih => exact ih.insert hs
  | merge _ _ ih ih' => exact ih.merge ih'
  | built _ hl hb ih =>
    obtain ⟨e, he, rfl⟩ := hl
    obtain ⟨ws, hws⟩ := (Layer.Expr.yields_iff_writes he).mp hb
    exact hws.typed_built ih

end EffectMachine
