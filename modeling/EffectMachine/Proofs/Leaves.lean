import EffectMachine.Failure.Cause
import Mathlib.Data.List.Forall2

/-!
# The algebra of causes

A cause is a tree whose inner nodes are composites, and what can be asked of one is decided by the
sequence of its leaves. The queries do not go through that sequence: `Cause.errors` and
`Cause.defects` visit every node of the tree, composites included, while `Cause.flatten` recurses
into the parts.

## What the laws rest on

* **One induction principle.** `Cause.leafInduction` has one case for all leaves and one for
  composites, with the hypothesis for every part. Each law about a whole tree is one such
  induction; the list-level recursions are rewritten to `List.flatMap` and `List.map` beforehand.
* **The leaves are the nodes that are not composites** (`flatten_eq_filter`). A visitor that
  ignores composites therefore sees exactly the leaves, in their order, and the agreement of the
  two families of queries needs no induction of its own.
* **Splicing is invisible to the leaves** (`flattenAll_parts`), so joining two causes appends
  their leaves although it opens one level of composites only.
-/

namespace EffectMachine

namespace Cause

variable {ε ζ η : Type} {a b c : Cause ε}

/-! ### Trees of causes -/

theorem flattenAll_eq_flatMap (cs : List (Cause ε)) : flattenAll cs = cs.flatMap flatten := by
  induction cs with
  | nil => rfl
  | cons c cs ih => rw [flattenAll, ih, List.flatMap_cons]

theorem subcausesAll_eq_flatMap (cs : List (Cause ε)) :
    subcausesAll cs = cs.flatMap subcauses := by
  induction cs with
  | nil => rfl
  | cons c cs ih => rw [subcausesAll, ih, List.flatMap_cons]

theorem mapAll_eq_map (f : ε → ζ) (cs : List (Cause ε)) : mapAll f cs = cs.map (map f) := by
  induction cs with
  | nil => rfl
  | cons c cs ih => rw [mapAll, ih, List.map_cons]

theorem flatten_composite_eq (cs : List (Cause ε)) :
    (composite cs).flatten = cs.flatMap flatten := by
  rw [flatten_composite, flattenAll_eq_flatMap]

theorem subcauses_composite (cs : List (Cause ε)) :
    (composite cs).subcauses = composite cs :: cs.flatMap subcauses := by
  rw [subcauses, subcausesAll_eq_flatMap]

theorem map_composite (f : ε → ζ) (cs : List (Cause ε)) :
    (composite cs).map f = composite (cs.map (map f)) := by
  rw [map, mapAll_eq_map]

theorem flatten_leaf (h : c.isComposite = false) : c.flatten = [c] := by
  cases c <;> first | rfl | cases h

theorem subcauses_leaf (h : c.isComposite = false) : c.subcauses = [c] := by
  cases c <;> first | rfl | cases h

@[simp] theorem isComposite_map (f : ε → ζ) (c : Cause ε) :
    (c.map f).isComposite = c.isComposite := by
  cases c <;> simp [map, isComposite]

/-- Induction over a cause, with one case for the leaves and one for the composites. -/
@[elab_as_elim]
theorem leafInduction {motive : Cause ε → Prop}
    (leaf : ∀ c, c.isComposite = false → motive c)
    (composite : ∀ cs, (∀ c ∈ cs, motive c) → motive (.composite cs)) :
    ∀ c, motive c
  | .fail _ | .validation _ | .serviceNotFound _ | .timeout _ | .defect _ => leaf _ rfl
  | .composite cs => composite cs fun c _ ↦ leafInduction leaf composite c

/-! ### Joining -/

/-- Joining is associative: only the outermost composites are opened. -/
theorem combine_assoc (a b c : Cause ε) :
    (a.combine b).combine c = a.combine (b.combine c) := by
  simp only [combine, parts, List.append_assoc]

/-! ### Leaves and nodes -/

/-- The leaves are the nodes that are not composites, in the order in which they are met. -/
theorem flatten_eq_filter (c : Cause ε) :
    c.flatten = c.subcauses.filter (fun c ↦ !c.isComposite) := by
  induction c using leafInduction with
  | leaf c h => simp [flatten_leaf h, subcauses_leaf h, h]
  | composite cs ih =>
    rw [flatten_composite_eq, subcauses_composite, List.filter_cons_of_neg (by simp [isComposite]),
      List.filter_flatMap]
    exact List.flatMap_congr ih

/-- No leaf is a composite. -/
theorem isComposite_of_mem_flatten (h : b ∈ a.flatten) : b.isComposite = false := by
  rw [flatten_eq_filter, List.mem_filter] at h
  simpa using h.2

/-- A visitor that takes nothing from a composite sees the leaves only. -/
theorem filterMap_subcauses {α : Type} {visit : Cause ε → Option α}
    (hvisit : ∀ cs, visit (.composite cs) = none) (c : Cause ε) :
    c.subcauses.filterMap visit = c.flatten.filterMap visit := by
  rw [flatten_eq_filter, List.filterMap_filter]
  refine List.filterMap_congr fun c _ ↦ ?_
  cases c with
  | composite cs => simp [isComposite, hvisit]
  | fail | validation | serviceNotFound | timeout | defect => simp [isComposite]

/-- The errors of a cause are those of its leaves. -/
theorem errors_eq (c : Cause ε) : c.errors = c.flatten.filterMap error? :=
  filterMap_subcauses (fun _ ↦ rfl) c

/-- The defects of a cause are those of its leaves. -/
theorem defects_eq (c : Cause ε) : c.defects = c.flatten.filterMap defect? :=
  filterMap_subcauses (fun _ ↦ rfl) c

/-! ### Changing the errors -/

/-- What becomes of a leaf when the errors are changed: an error is changed, every other leaf
stays what it is. -/
inductive Relabels (f : ε → ζ) : Cause ε → Cause ζ → Prop
  | fail (e : ε) : Relabels f (.fail e) (.fail (f e))
  | validation (e : ValidationError) : Relabels f (.validation e) (.validation e)
  | serviceNotFound (k : Key) : Relabels f (.serviceNotFound k) (.serviceNotFound k)
  | timeout (limit : Duration) : Relabels f (.timeout limit) (.timeout limit)
  | defect (d : Defect) : Relabels f (.defect d) (.defect d)

theorem relabels_map (f : ε → ζ) (h : c.isComposite = false) : Relabels f c (c.map f) := by
  cases c with
  | composite cs => cases h
  | fail | validation | serviceNotFound | timeout | defect => constructor

/-- Changing the errors of the leaves gives the leaves of the changed cause. -/
theorem flatten_map (f : ε → ζ) (c : Cause ε) : (c.map f).flatten = c.flatten.map (map f) := by
  induction c using leafInduction with
  | leaf c h =>
    rw [flatten_leaf h, flatten_leaf (by rw [isComposite_map, h]), List.map_singleton]
  | composite cs ih =>
    rw [map_composite, flatten_composite_eq, flatten_composite_eq, List.flatMap_map,
      List.map_flatMap]
    exact List.flatMap_congr ih

/-- Changing the errors keeps every leaf that is not an error, in its place. -/
theorem forall₂_relabels (f : ε → ζ) (c : Cause ε) :
    List.Forall₂ (Relabels f) c.flatten (c.map f).flatten := by
  rw [flatten_map, List.forall₂_map_right_iff, List.forall₂_same]
  exact fun leaf hleaf ↦ relabels_map f (isComposite_of_mem_flatten hleaf)

theorem parts_map (f : ε → ζ) (c : Cause ε) : (c.map f).parts = c.parts.map (map f) := by
  cases c with
  | composite cs => rw [map_composite]; rfl
  | fail | validation | serviceNotFound | timeout | defect => rfl

theorem map_combine (f : ε → ζ) (a b : Cause ε) :
    (a.combine b).map f = (a.map f).combine (b.map f) := by
  rw [combine, combine, map_composite, List.map_append, parts_map, parts_map]

theorem errors_map (f : ε → ζ) (c : Cause ε) : (c.map f).errors = c.errors.map f := by
  rw [errors_eq, errors_eq, flatten_map, List.filterMap_map, List.map_filterMap]
  refine List.filterMap_congr fun c _ ↦ ?_
  cases c <;> simp [map, error?]

theorem defects_map (f : ε → ζ) (c : Cause ε) : (c.map f).defects = c.defects := by
  rw [defects_eq, defects_eq, flatten_map, List.filterMap_map]
  refine List.filterMap_congr fun c _ ↦ ?_
  cases c <;> simp [map, defect?]

theorem map_id (c : Cause ε) : c.map id = c := by
  induction c using leafInduction with
  | leaf c h => cases c <;> first | rfl | cases h
  | composite cs ih => rw [map_composite, List.map_congr_left ih, List.map_id']

theorem map_map (f : ε → ζ) (g : ζ → η) (c : Cause ε) :
    (c.map f).map g = c.map (g ∘ f) := by
  induction c using leafInduction with
  | leaf c h => cases c <;> first | rfl | cases h
  | composite cs ih =>
    rw [map_composite, map_composite, map_composite, List.map_map]
    exact congrArg composite (List.map_congr_left ih)

/-! ### The laws together -/

/-- **The algebra of causes**, whatever their nesting. Joining is associative and appends the
leaves, so it loses, repeats and reorders none. The leaves hold no composite, and the errors, the
first error and the defects of a cause are those of its leaves. Changing the errors keeps every
other leaf in its place, commutes with flattening, with joining and with taking the errors, does
nothing when no error changes, and two changes in a row are one. -/
theorem algebra_of_leaves (a b c : Cause ε) (f : ε → ζ) (g : ζ → η) :
    (a.combine b).combine c = a.combine (b.combine c) ∧
    (a.combine b).flatten = a.flatten ++ b.flatten ∧
    (∀ leaf ∈ a.flatten, leaf.isComposite = false) ∧
    a.errors = a.flatten.filterMap error? ∧
    a.defects = a.flatten.filterMap defect? ∧
    a.firstError? = a.errors.head? ∧
    List.Forall₂ (Relabels f) a.flatten (a.map f).flatten ∧
    (a.map f).flatten = a.flatten.map (map f) ∧
    (a.combine b).map f = (a.map f).combine (b.map f) ∧
    (a.map f).errors = a.errors.map f ∧
    (a.map f).defects = a.defects ∧
    a.map id = a ∧
    (a.map f).map g = a.map (g ∘ f) :=
  ⟨combine_assoc a b c, flatten_combine a b, fun _ ↦ isComposite_of_mem_flatten, errors_eq a,
    defects_eq a, rfl, forall₂_relabels f a, flatten_map f a, map_combine f a b, errors_map f a,
    defects_map f a, map_id a, map_map f g a⟩

end Cause

end EffectMachine
