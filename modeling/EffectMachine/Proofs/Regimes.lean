import EffectMachine.Proofs.Closures
import EffectMachine.Proofs.Leaves

/-!
# What closures agree on

Nothing in a `Value` stops a closure from settling a slot with a value of another type than the slot
was made for, or from leaving a state behind that another closure cannot cope with. A `Regime` is
what the closures of an application agree on instead: which states they leave behind, which
finalizers they register by name, which effects they refer to by name, which of the machine's own
defects they raise themselves, and under which keys contexts may hold an instance of a wrong type.

Slots are made while a run is under way, so what a slot holds is agreed on at its making: the types
of the slots made so far, in order, are written `Γ` throughout. They are only ever extended, and an
agreement that holds of some slots holds of more.

* `Action.Proper` says that the requests of a closure are as agreed, provided the replies are;
* `Action.Reaches` says what the closure may end in then, and with which slots.

Both are read off the tree of requests, like `Action.Yields`. Closing a scope runs finalizers, which
may make slots; every other request leaves them as they are.
-/

namespace EffectMachine

variable {S : Signature} {α β : Type}

namespace Defect

/-- A defect with which the machine reports that a value, a node or a branch went where it does not
belong. -/
def IsStray : Defect → Bool
  | .typeMismatch _ | .missingHandler _ | .misrouted _ _ | .stalled _ | .foreignFork _ _ => true
  | .panic _ | .neverSettled | .scopeClosed _ | .emptyRace | .stepLimitExceeded _ => false

end Defect

/-- What the closures of an application agree on, by the types of the slots made so far. -/
structure Regime (S : Signature) where
  /-- States that closures leave behind. -/
  state : List Ty → S.State → Prop
  /-- Named finalizers that closures register. -/
  cleanup : List Ty → S.Cleanup → Prop
  /-- Named effects that closures refer to, with the types of their elements. -/
  name : List Ty → S.Name → Ty → Prop
  /-- Stray defects that closures and effects raise themselves. -/
  raises : Defect → Prop
  /-- Types of keys that contexts may bind to an instance of another type. -/
  mistyped : Plain → Prop
  state_mono : ∀ {Γ Γ' s}, Γ <+: Γ' → state Γ s → state Γ' s
  cleanup_mono : ∀ {Γ Γ' c}, Γ <+: Γ' → cleanup Γ c → cleanup Γ' c
  name_mono : ∀ {Γ Γ' d a}, Γ <+: Γ' → name Γ d a → name Γ' d a
  /-- Looking up such a key fails, and the application has asked for it. -/
  mistyped_raises : ∀ {p}, mistyped p → raises (.typeMismatch p.name)

namespace Regime

variable (G : Regime S)

/-- Every stray defect inside a cause is one that the application raises itself. -/
def Owns (c : Cause S.Error) : Prop := ∀ d ∈ c.defects, d.IsStray = true → G.raises d

/-- Values are of a type, and failures own. -/
def Fits (a : Ty) : Outcome S.Error Value → Prop
  | .ok v => v.type = a
  | .error c => G.Owns c

/-- The failures of an outcome, if any, are own. -/
def OwnsOutcome {γ : Type} (o : Outcome S.Error γ) : Prop := ∀ c, o = .error c → G.Owns c

/-- The outcome is one for a slot that has been made. -/
def FitsSlot (Γ : List Ty) (s : SlotId) (o : Outcome S.Error Value) : Prop :=
  ∃ a, Γ[s.index]? = some a ∧ G.Fits a o

variable {G} {a : Ty} {c c' : Cause S.Error}

/-! ### Own causes -/

theorem owns_defect {d : Defect} : G.Owns (.defect d) ↔ (d.IsStray = true → G.raises d) := by
  simp [Owns, Cause.defects, Cause.subcauses, Cause.defect?]

/-- A defect that is not stray is nobody's fault but the machine's or a panic's. -/
theorem owns_of_isStray {d : Defect} (h : d.IsStray = false) : G.Owns (.defect d) :=
  owns_defect.mpr fun h' ↦ by rw [h] at h'; cases h'

theorem owns_fail (e : S.Error) : G.Owns (.fail e) := by
  simp [Owns, Cause.defects, Cause.subcauses, Cause.defect?]

theorem owns_validation (e : ValidationError) : G.Owns (.validation e) := by
  simp [Owns, Cause.defects, Cause.subcauses, Cause.defect?]

theorem owns_serviceNotFound (k : Key) : G.Owns (.serviceNotFound k) := by
  simp [Owns, Cause.defects, Cause.subcauses, Cause.defect?]

theorem owns_timeout (limit : Duration) : G.Owns (.timeout limit) := by
  simp [Owns, Cause.defects, Cause.subcauses, Cause.defect?]

/-- A composite is own if its parts are. -/
theorem owns_composite {cs : List (Cause S.Error)} :
    G.Owns (.composite cs) ↔ ∀ c ∈ cs, G.Owns c := by
  have hdefects : (Cause.composite cs).defects = cs.flatMap Cause.defects := by
    rw [Cause.defects_eq, Cause.flatten_composite_eq, List.filterMap_flatMap]
    exact List.flatMap_congr fun c _ ↦ (Cause.defects_eq c).symm
  constructor
  · intro h c hc d hd
    exact h d (hdefects ▸ List.mem_flatMap.mpr ⟨c, hc, hd⟩)
  · intro h d hd
    obtain ⟨c, hc, hd⟩ := List.mem_flatMap.mp (hdefects ▸ hd)
    exact h c hc d hd

theorem owns_parts (h : G.Owns c) : ∀ c' ∈ c.parts, G.Owns c' := by
  cases c with
  | composite cs => exact owns_composite.mp h
  | fail | validation | serviceNotFound | timeout | defect =>
    intro c' hc'
    rw [List.mem_singleton.mp hc']
    exact h

theorem Owns.combine (h : G.Owns c) (h' : G.Owns c') : G.Owns (c.combine c') :=
  owns_composite.mpr fun d hd ↦ (List.mem_append.mp hd).elim (owns_parts h d) (owns_parts h' d)

/-- Adding the failures of a closing scope. -/
theorem Fits.merge {o : Outcome S.Error Value} {r : Outcome S.Error Unit} (h : G.Fits a o)
    (hr : G.OwnsOutcome r) : G.Fits a (o.merge r) := by
  rcases o with c | v <;> rcases r with f | ⟨⟩
  · exact Owns.combine h (hr f rfl)
  · exact h
  · exact hr f rfl
  · exact h

theorem FitsSlot.mono {Γ Γ' : List Ty} {s : SlotId} {o : Outcome S.Error Value} (h : Γ <+: Γ')
    (ho : G.FitsSlot Γ s o) : G.FitsSlot Γ' s o := by
  obtain ⟨a, ha, ho⟩ := ho
  obtain ⟨more, rfl⟩ := h
  have hlt := (List.getElem?_eq_some_iff.mp ha).1
  exact ⟨a, by rw [List.getElem?_append_left hlt]; exact ha, ho⟩

/-- What is in a slot is of the type that the slot was made for. -/
theorem FitsSlot.fits {Γ Γ' : List Ty} {o : Outcome S.Error Value}
    (ho : G.FitsSlot Γ' ⟨Γ.length⟩ o) (h : Γ ++ [a] <+: Γ') : G.Fits a o := by
  obtain ⟨b, hb, ho⟩ := ho
  obtain ⟨more, rfl⟩ := h
  have hslot : (Γ ++ [a] ++ more)[Γ.length]? = some a := by simp
  rw [hslot] at hb
  cases hb
  exact ho

end Regime

/-! ### Requests and replies -/

namespace Action

variable (G : Regime S)

/-- The requests of a closure are as agreed as long as the replies are. -/
def Proper : List Ty → Action S α → Prop
  | _, .done _ => True
  | _, .panic _ => True
  | Γ, .read k => ∀ s, G.state Γ s → (k s).Proper Γ
  | Γ, .write s k => G.state Γ s ∧ k.Proper Γ
  | Γ, .now k => ∀ t, (k t).Proper Γ
  | Γ, .advance _ k => k.Proper Γ
  | Γ, .sleep _ k => k.Proper Γ
  | Γ, .draw k => ∀ x, (k x).Proper Γ
  | Γ, .openScope k => ∀ s, (k s).Proper Γ
  | Γ, .addCleanup _ c k => G.cleanup Γ c ∧ ∀ r, (k r).Proper Γ
  | Γ, .closeScope _ k => ∀ Γ' o, Γ <+: Γ' → G.OwnsOutcome o → (k o).Proper Γ'
  | Γ, .inspect _ k => ∀ st, (k st).Proper Γ
  | Γ, .settle s o k => G.FitsSlot Γ s o ∧ ∀ first, (k first).Proper Γ
  | Γ, .take s k => ∀ o, (∀ x, o = some x → G.FitsSlot Γ s x) → (k o).Proper Γ

/-- What a closure may end in, and with which slots, as long as replies are as agreed. -/
def Reaches : List Ty → Action S α → List Ty → α → Prop
  | Γ, .done a, Γ', b => Γ' = Γ ∧ b = a
  | _, .panic _, _, _ => False
  | Γ, .read k, Γ', b => ∃ s, G.state Γ s ∧ (k s).Reaches Γ Γ' b
  | Γ, .write _ k, Γ', b => k.Reaches Γ Γ' b
  | Γ, .now k, Γ', b => ∃ t, (k t).Reaches Γ Γ' b
  | Γ, .advance _ k, Γ', b => k.Reaches Γ Γ' b
  | Γ, .sleep _ k, Γ', b => k.Reaches Γ Γ' b
  | Γ, .draw k, Γ', b => ∃ x, (k x).Reaches Γ Γ' b
  | Γ, .openScope k, Γ', b => ∃ s, (k s).Reaches Γ Γ' b
  | Γ, .addCleanup _ _ k, Γ', b => ∃ r, (k r).Reaches Γ Γ' b
  | Γ, .closeScope _ k, Γ', b => ∃ Γ₁ o, Γ <+: Γ₁ ∧ G.OwnsOutcome o ∧ (k o).Reaches Γ₁ Γ' b
  | Γ, .inspect _ k, Γ', b => ∃ st, (k st).Reaches Γ Γ' b
  | Γ, .settle _ _ k, Γ', b => ∃ first, (k first).Reaches Γ Γ' b
  | Γ, .take s k, Γ', b => ∃ o, (∀ x, o = some x → G.FitsSlot Γ s x) ∧ (k o).Reaches Γ Γ' b

variable {G} {Γ Γ' : List Ty} {a : α} {b : β} {x : Action S α} {f : α → Action S β}

/-- Slots are only ever made. -/
theorem Reaches.extends (h : x.Reaches G Γ Γ' a) : Γ <+: Γ' := by
  induction x generalizing Γ with
  | done b => exact h.1 ▸ List.prefix_rfl
  | panic p => exact h.elim
  | write _ _ ih | advance _ _ ih | sleep _ _ ih => exact ih h
  | read _ ih =>
    obtain ⟨s, -, h⟩ := h
    exact ih s h
  | now _ ih | draw _ ih | openScope _ ih | addCleanup _ _ _ ih | inspect _ _ ih
  | settle _ _ _ ih =>
    obtain ⟨r, h⟩ := h
    exact ih r h
  | closeScope s k ih =>
    obtain ⟨Γ₁, o, hΓ, -, h⟩ := h
    exact hΓ.trans (ih o h)
  | take s k ih =>
    obtain ⟨o, -, h⟩ := h
    exact ih o h

/-- A sequence is as agreed if both parts are. -/
theorem Proper.bind (hx : x.Proper G Γ)
    (hf : ∀ Γ' a, x.Reaches G Γ Γ' a → (f a).Proper G Γ') : (x.bind f).Proper G Γ := by
  induction x generalizing Γ with
  | done a => exact hf Γ a ⟨rfl, rfl⟩
  | panic p => trivial
  | advance _ _ ih | sleep _ _ ih => exact ih hx hf
  | write _ _ ih => exact ⟨hx.1, ih hx.2 hf⟩
  | read _ ih => exact fun s hs ↦ ih s (hx s hs) fun Γ' a ha ↦ hf Γ' a ⟨s, hs, ha⟩
  | now _ ih | draw _ ih | openScope _ ih | inspect _ _ ih =>
    exact fun r ↦ ih r (hx r) fun Γ' a ha ↦ hf Γ' a ⟨r, ha⟩
  | addCleanup _ _ _ ih | settle _ _ _ ih =>
    exact ⟨hx.1, fun r ↦ ih r (hx.2 r) fun Γ' a ha ↦ hf Γ' a ⟨r, ha⟩⟩
  | closeScope _ _ ih =>
    exact fun Γ₁ o hΓ ho ↦ ih o (hx Γ₁ o hΓ ho) fun Γ' a ha ↦ hf Γ' a ⟨Γ₁, o, hΓ, ho, ha⟩
  | take _ _ ih => exact fun o ho ↦ ih o (hx o ho) fun Γ' a ha ↦ hf Γ' a ⟨o, ho, ha⟩

/-- A sequence ends in what its second part ends in after its first part. -/
theorem reaches_bind : (x.bind f).Reaches G Γ Γ' b ↔
    ∃ Γ₁ a, x.Reaches G Γ Γ₁ a ∧ (f a).Reaches G Γ₁ Γ' b := by
  induction x generalizing Γ with
  | done a =>
    constructor
    · exact fun h ↦ ⟨Γ, a, ⟨rfl, rfl⟩, h⟩
    · rintro ⟨_, _, ⟨rfl, rfl⟩, h⟩
      exact h
  | panic p => simp [Reaches, bind]
  | write _ _ ih | advance _ _ ih | sleep _ _ ih => simpa [Reaches, bind] using ih
  | read _ ih | now _ ih | draw _ ih | openScope _ ih | addCleanup _ _ _ ih | inspect _ _ ih
  | settle _ _ _ ih | closeScope _ _ ih | take _ _ ih =>
    simp only [Reaches, bind, ih]
    grind

end Action

end EffectMachine
