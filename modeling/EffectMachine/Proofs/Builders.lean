import EffectMachine.Machine.Registry
import Mathlib.Data.List.DropRight
import Mathlib.Data.List.Perm.Basic

/-!
# Registries and their builders

A builder may be called in any order and any number of times. It goes on after it has refused a
call, and it starts over when it has handed out a registry. `Builder.first_handlers_serve` says what
it does at any time, in terms of what it was asked and what it answered until then.

**The history is read apart from the table.** A `Builder` is what a builder holds together with
every call and reply so far. `Builder.first?` looks at these exchanges alone, back to the last one
in which a registry was handed out, and takes the first handler that was placed under a kind. That
the builder holds this handler (`Builder.find?_eq_first?`) rests on one equation for both sides,
which says what a call does (`Registry.find?_answer`, `Builder.first?_ask`).

**Handing out is all or nothing.** A registry that is handed out lists every kind once. So each node
finds the one handler of its kind, and dispatching never meets a missing one.
-/

namespace EffectMachine

variable {S : Signature}

theorem Tag.nodup_all : Tag.all.Nodup := by decide

namespace Registry

variable (r : Registry S) (t u : Tag) (h : Handler S)

/-! ### What a registry holds -/

/-- The kinds that have a handler, as they are listed. -/
def kinds : List Tag := r.handlers.map Prod.fst

/-- The handler stands under the kind, and every node of the kind goes to it. -/
def Serves : Prop :=
  r.find? t = some h ∧ ∀ host node st, node.tag = t → r.dispatch host node st = h host node st

/-- The first kind, in the order of all kinds, that has no handler. -/
def Lacks : Prop :=
  r.contains t = false ∧
    ∃ before later, Tag.all = before ++ t :: later ∧ ∀ s ∈ before, r.contains s = true

theorem contains_iff_mem_kinds : r.contains t = true ↔ t ∈ r.kinds := by
  simp [contains, find?, kinds]

variable {r t h} in
/-- A handler that stands under a kind serves it. -/
theorem serves_of_find? (hf : r.find? t = some h) : r.Serves t h := by
  refine ⟨hf, ?_⟩
  rintro host node st rfl
  rw [dispatch, hf]

theorem serves_standard : (standard : Registry S).Serves t (.standard t) :=
  serves_of_find? (by cases t <;> rfl)

variable {r} in
/-- If every kind has a handler and none is listed twice, each kind is listed once. -/
theorem kinds_perm_all (hr : r.kinds.Nodup) (hfull : ∀ t, r.contains t = true) :
    r.kinds.Perm Tag.all := by
  refine (List.perm_ext_iff_of_nodup hr Tag.nodup_all).2 fun t ↦ ?_
  rw [← contains_iff_mem_kinds]
  exact iff_of_true (hfull t) t.mem_all

/-! ### Placing handlers -/

/-- List a handler under a kind. -/
def place : Registry S := ⟨(t, h) :: r.handlers⟩

theorem find?_place : (r.place t h).find? u = if t = u then some h else r.find? u := by
  by_cases htu : t = u
  · rw [if_pos htu, place, find?, List.find?_cons_of_pos (by simpa using htu), Option.map_some]
  · rw [if_neg htu, place, find?, List.find?_cons_of_neg (by simpa using htu), find?]

variable {r t} in
/-- Placing a handler under a kind that has none replaces nothing. -/
theorem find?_place_of_not_contains (hc : r.contains t = false) :
    (r.place t h).find? u = (r.find? u).or (if t = u then some h else none) := by
  rw [find?_place]
  split_ifs with htu
  · subst htu
    rw [Option.isNone_iff_eq_none.1 (Option.isSome_eq_false_iff.1 hc), Option.none_or]
  · rw [Option.or_none]

variable {r t} in
theorem nodup_place (hr : r.kinds.Nodup) (hc : r.contains t = false) :
    (r.place t h).kinds.Nodup := by
  refine List.nodup_cons.2 ⟨fun hm ↦ ?_, hr⟩
  rw [(r.contains_iff_mem_kinds t).2 hm] at hc
  cases hc

/-- Place the standard handler under a kind that has none. -/
def fill : Registry S := if r.contains t then r else r.place t (.standard t)

theorem complete_eq_foldl : r.complete = Tag.all.foldl fill r := rfl

theorem find?_fill :
    (r.fill t).find? u = (r.find? u).or (if t = u then some (.standard t) else none) := by
  cases hc : r.contains t with
  | false => rw [fill, if_neg (by simp [hc]), find?_place_of_not_contains _ _ hc]
  | true =>
    rw [fill, if_pos hc]
    split_ifs with htu
    · subst htu
      obtain ⟨h, hh⟩ := Option.isSome_iff_exists.1 hc
      rw [hh, Option.some_or]
    · rw [Option.or_none]

variable {r} in
theorem nodup_fill (hr : r.kinds.Nodup) : (r.fill t).kinds.Nodup := by
  cases hc : r.contains t with
  | true => rwa [fill, if_pos hc]
  | false =>
    rw [fill, if_neg (by simp [hc])]
    exact nodup_place _ hr hc

theorem find?_foldl_fill (ts : List Tag) :
    (ts.foldl fill r).find? u = (r.find? u).or (if u ∈ ts then some (.standard u) else none) := by
  induction ts generalizing r with
  | nil => rw [List.foldl_nil, if_neg List.not_mem_nil, Option.or_none]
  | cons t ts ih =>
    rw [List.foldl_cons, ih, find?_fill, Option.or_assoc]
    congr 1
    by_cases htu : t = u
    · subst htu
      rw [if_pos rfl, if_pos List.mem_cons_self, Option.some_or]
    · have hmem : u ∈ t :: ts ↔ u ∈ ts := List.mem_cons.trans (or_iff_right (Ne.symm htu))
      rw [if_neg htu, Option.none_or, if_congr hmem rfl rfl]

/-- Completing a registry replaces nothing. -/
theorem find?_complete : r.complete.find? t = (r.find? t).or (some (.standard t)) := by
  rw [complete_eq_foldl, find?_foldl_fill, if_pos t.mem_all]

theorem nodup_foldl_fill (ts : List Tag) (hr : r.kinds.Nodup) :
    (ts.foldl fill r).kinds.Nodup := by
  induction ts generalizing r with
  | nil => exact hr
  | cons t ts ih => exact ih _ (nodup_fill t hr)

/-! ### Answers -/

variable {r t}

theorem answer_register_of_contains (hc : r.contains t = true) :
    r.answer (.register t h) = (.refused (.duplicate t), r) := by
  rw [answer, register, if_pos hc]

theorem answer_register_of_not_contains (hc : r.contains t = false) :
    r.answer (.register t h) = (.done, r.place t h) := by
  rw [answer, register, if_neg (by simp [hc])]
  rfl

/-- A registration is refused at an occupied kind and nowhere else. -/
theorem answer_register_eq_refused_iff {e : RegistryError} {r' : Registry S} :
    r.answer (.register t h) = (.refused e, r') ↔
      r.contains t = true ∧ e = .duplicate t ∧ r' = r := by
  cases hc : r.contains t with
  | true =>
    rw [answer_register_of_contains h hc, Prod.mk.injEq, BuilderReply.refused.injEq]
    exact ⟨fun ⟨he, hr⟩ ↦ ⟨rfl, he.symm, hr.symm⟩, fun ⟨_, he, hr⟩ ↦ ⟨he.symm, hr.symm⟩⟩
  | false =>
    rw [answer_register_of_not_contains h hc]
    exact ⟨nofun, fun ⟨h, _⟩ ↦ (Bool.false_ne_true h).elim⟩

theorem answer_complete : r.answer .complete = (.done, r.complete) := rfl

theorem find?_eq_some_iff_lacks :
    (Tag.all.find? fun t ↦ !r.contains t) = some t ↔ r.Lacks t := by
  rw [List.find?_eq_some_iff_append, Lacks]
  simp

theorem answer_build_of_lacks (hl : r.Lacks t) :
    r.answer .build = (.refused (.missing t), r) := by
  rw [answer, build, find?_eq_some_iff_lacks.2 hl]

theorem answer_build_of_full (hfull : ∀ t, r.contains t = true) :
    r.answer .build = (.built r, .empty) := by
  have hnone : (Tag.all.find? fun t ↦ !r.contains t) = none :=
    List.find?_eq_none.2 fun t _ ↦ by simp [hfull t]
  rw [answer, build, hnone]

variable (r) in
/-- Either every kind has a handler, or there is a first one that has none. -/
theorem full_or_lacks : (∀ t, r.contains t = true) ∨ ∃ t, r.Lacks t := by
  cases hf : Tag.all.find? fun t ↦ !r.contains t with
  | none => exact .inl fun t ↦ by simpa using List.find?_eq_none.1 hf t t.mem_all
  | some t => exact .inr ⟨t, find?_eq_some_iff_lacks.1 hf⟩

/-- Building is refused if there is a first kind without a handler, and that kind is named. -/
theorem answer_build_eq_refused_iff {e : RegistryError} {r' : Registry S} :
    r.answer .build = (.refused e, r') ↔ ∃ t, r.Lacks t ∧ e = .missing t ∧ r' = r := by
  constructor
  · intro hb
    rcases r.full_or_lacks with hfull | ⟨t, hl⟩
    · rw [answer_build_of_full hfull] at hb
      cases hb
    · rw [answer_build_of_lacks hl] at hb
      cases hb
      exact ⟨t, hl, rfl, rfl⟩
  · rintro ⟨t, hl, rfl, rfl⟩
    exact answer_build_of_lacks hl

variable (r) in
/-- If some kind has no handler, there is a first one. -/
theorem exists_lacks_iff : (∃ t, r.Lacks t) ↔ ∃ t, r.contains t = false := by
  refine ⟨fun ⟨t, hl⟩ ↦ ⟨t, hl.1⟩, fun ⟨t, ht⟩ ↦ r.full_or_lacks.resolve_left fun hfull ↦ ?_⟩
  rw [hfull t] at ht
  cases ht

end Registry

/-! ### Builders and their history -/

/-- A call on a builder with the reply to it. -/
abbrev Exchange (S : Signature) := BuilderCall S × BuilderReply S

/-- Whether a registry is handed out. -/
def BuilderReply.isBuilt : BuilderReply S → Bool
  | .built _ => true
  | .done | .refused _ => false

/-- The handler that a call has placed under a kind, unless the kind was occupied before. A
registration that was refused has placed none. -/
def Exchange.placed? (t : Tag) : Exchange S → Option (Handler S)
  | (.register u h, .done) => if u = t then some h else none
  | (.complete, .done) => some (.standard t)
  | _ => none

/-- **What a call does to a kind.** The kind keeps its handler or takes the one that is placed
there, and handing out a registry leaves it without one. -/
theorem Registry.find?_answer (r : Registry S) (c : BuilderCall S) (t : Tag) :
    (r.answer c).2.find? t = if (r.answer c).1.isBuilt then none else
      (r.find? t).or (Exchange.placed? t (c, (r.answer c).1)) := by
  cases c with
  | complete =>
    simp only [answer_complete, BuilderReply.isBuilt, Bool.false_eq_true, if_false,
      find?_complete, Exchange.placed?]
  | register u h =>
    cases hc : r.contains u with
    | true =>
      rw [answer_register_of_contains h hc]
      exact (Option.or_none).symm
    | false =>
      rw [answer_register_of_not_contains h hc]
      exact find?_place_of_not_contains t h hc
  | build =>
    rcases r.full_or_lacks with hfull | ⟨u, hl⟩
    · rw [answer_build_of_full hfull]
      rfl
    · rw [answer_build_of_lacks hl]
      exact (Option.or_none).symm

theorem Registry.nodup_answer {r : Registry S} (hr : r.kinds.Nodup) (c : BuilderCall S) :
    (r.answer c).2.kinds.Nodup := by
  cases c with
  | complete =>
    simp only [answer_complete, complete_eq_foldl]
    exact r.nodup_foldl_fill Tag.all hr
  | register u h =>
    cases hc : r.contains u with
    | true => rwa [answer_register_of_contains h hc]
    | false =>
      rw [answer_register_of_not_contains h hc]
      exact nodup_place h hr hc
  | build =>
    rcases r.full_or_lacks with hfull | ⟨u, hl⟩
    · rw [answer_build_of_full hfull]
      exact List.nodup_nil
    · rwa [answer_build_of_lacks hl]

/-- A builder at some time: what it holds, and every call so far with the reply, oldest first. -/
structure Builder (S : Signature) where
  table : Registry S := .empty
  past : List (Exchange S) := []

namespace Builder

/-- The builder after one more call. -/
def ask (b : Builder S) (c : BuilderCall S) : Builder S where
  table := (b.table.answer c).2
  past := b.past ++ [(c, (b.table.answer c).1)]

/-- A new builder after some calls. -/
def after (calls : List (BuilderCall S)) : Builder S := calls.foldl ask {}

variable (b : Builder S) (c : BuilderCall S) (t : Tag)

/-- What was asked and answered since a registry was handed out last. -/
def recent : List (Exchange S) := b.past.rtakeWhile fun e ↦ !e.2.isBuilt

/-- The first handler that was placed under a kind since a registry was handed out last. -/
def first? : Option (Handler S) := b.recent.findSome? (Exchange.placed? t)

theorem recent_ask : (b.ask c).recent =
    if (b.table.answer c).1.isBuilt then [] else b.recent ++ [(c, (b.table.answer c).1)] := by
  rw [recent, ask, List.rtakeWhile_concat, recent]
  cases (b.table.answer c).1.isBuilt <;> rfl

/-- What was placed first stays the first until a registry is handed out. -/
theorem first?_ask : (b.ask c).first? t = if (b.table.answer c).1.isBuilt then none else
    (b.first? t).or (Exchange.placed? t (c, (b.table.answer c).1)) := by
  rw [first?, recent_ask]
  split_ifs with hb
  · rfl
  · rw [List.findSome?_append, ← first?, List.findSome?_singleton]

theorem after_concat (calls : List (BuilderCall S)) :
    after (calls ++ [c]) = (after calls).ask c := List.foldl_append ..

/-- **A builder holds what was placed first.** -/
theorem find?_eq_first? (calls : List (BuilderCall S)) :
    (after calls).table.find? t = (after calls).first? t := by
  induction calls using List.reverseRecOn with
  | nil => rfl
  | append_singleton calls c ih =>
    rw [after_concat, first?_ask, ← ih]
    exact (after calls).table.find?_answer c t

theorem nodup_kinds (calls : List (BuilderCall S)) : (after calls).table.kinds.Nodup := by
  induction calls using List.reverseRecOn with
  | nil => exact List.nodup_nil
  | append_singleton calls c ih =>
    rw [after_concat]
    exact Registry.nodup_answer ih c

/-! ### What a builder does next -/

/-- What a builder does on its next call, whichever it is. -/
structure Lawful : Prop where
  /-- Under each kind stands the first handler that was placed there since a registry was handed out
  last, if there is one. -/
  holds : ∀ t, b.table.find? t = b.first? t
  /-- A registration is refused exactly if the kind is occupied. The kind is named and nothing
  changes. -/
  refuses : ∀ t h e r, b.table.answer (.register t h) = (.refused e, r) ↔
    b.table.contains t = true ∧ e = .duplicate t ∧ r = b.table
  /-- Otherwise the handler stands under the kind, and the other kinds are as they were. -/
  registers : ∀ t h, b.table.contains t = false →
    ∃ r, b.table.answer (.register t h) = (.done, r) ∧
      ∀ u, r.find? u = if t = u then some h else b.table.find? u
  /-- Completing fills exactly the kinds that are not occupied, and replaces nothing. -/
  completes : ∃ r, b.table.answer .complete = (.done, r) ∧
    ∀ t, r.find? t = if b.table.contains t then b.table.find? t else some (.standard t)
  /-- Building is refused exactly if some kind is not occupied. The first such kind is named and
  nothing changes. -/
  misses : (∃ e r, b.table.answer .build = (.refused e, r)) ↔ ∃ t, b.table.contains t = false
  names : ∀ e r, b.table.answer .build = (.refused e, r) →
    ∃ t, b.table.Lacks t ∧ e = .missing t ∧ r = b.table
  /-- Otherwise a registry is handed out, and the builder holds nothing. The registry lists each
  kind once, and every node of a kind goes to the handler that was placed there first. -/
  builds : (∀ t, b.table.contains t = true) → ∃ r, b.table.answer .build = (.built r, .empty) ∧
    r.kinds.Perm Tag.all ∧ ∀ t, ∃ h, b.first? t = some h ∧ r.Serves t h

/-- **The handler that was placed first serves its kind.** Whatever a builder has been asked, in
whatever order, it refuses a second handler for a kind and an incomplete registry, and a call that
it refuses changes nothing. A registry that it hands out has for each kind the one handler that was
placed there first since it handed out the last one. The standard registry has the standard handler
for each kind. Every node is dispatched to the handler of its kind, so none is ever reported
missing. -/
theorem first_handlers_serve (S : Signature) :
    (∀ calls : List (BuilderCall S), (after calls).Lawful) ∧
      ∀ t, (Registry.standard : Registry S).Serves t (.standard t) := by
  refine ⟨fun calls ↦ ?_, Registry.serves_standard⟩
  have hholds : ∀ t, (after calls).table.find? t = (after calls).first? t :=
    fun t ↦ find?_eq_first? t calls
  exact {
    holds := hholds
    refuses := fun t h e r ↦ Registry.answer_register_eq_refused_iff h
    registers := fun t h hc ↦ ⟨_, Registry.answer_register_of_not_contains h hc,
      fun u ↦ Registry.find?_place _ t u h⟩
    completes := ⟨_, Registry.answer_complete, fun t ↦ by
      rw [Registry.find?_complete, Registry.contains]
      cases (after calls).table.find? t <;> rfl⟩
    misses := by
      rw [← Registry.exists_lacks_iff]
      simp only [Registry.answer_build_eq_refused_iff]
      exact ⟨fun ⟨_, _, t, hl, _⟩ ↦ ⟨t, hl⟩, fun ⟨t, hl⟩ ↦ ⟨_, _, t, hl, rfl, rfl⟩⟩
    names := fun e r ↦ Registry.answer_build_eq_refused_iff.1
    builds := fun hfull ↦ by
      refine ⟨_, Registry.answer_build_of_full hfull,
        Registry.kinds_perm_all (nodup_kinds calls) hfull, fun t ↦ ?_⟩
      obtain ⟨h, hh⟩ := Option.isSome_iff_exists.1 (hfull t)
      exact ⟨h, (hholds t).symm.trans hh, Registry.serves_of_find? hh⟩ }

/-- A handler gives way neither to a second one nor to the standard one, until a registry has been
handed out. -/
example (h h' : Handler S) :
    (after [.register .sleep h, .build, .register .sleep h', .complete]).table.find? .sleep =
        some h ∧
      (after [.register .sleep h, .complete, .build, .register .sleep h']).table.find? .sleep =
        some h' := by
  constructor <;> cbv

end Builder

end EffectMachine
