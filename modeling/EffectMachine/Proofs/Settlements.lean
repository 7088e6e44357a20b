import EffectMachine.Proofs.Visits

/-!
# Asynchronous effects settle once

Every visit of an asynchronous effect makes a slot, hands it to the registration and asks the
strategy for its outcome. The handle may be kept and called at any later time, also when the visit
and its run are over. `Interpreter.SettlesOnce` says what becomes of all these calls.

**What the theorem rests on.**

* Calls are answered as an account of the slots says (`World.Accounts.settle_eq`): the first one
  since the slot was made is accepted. Every instant has an account, whatever happened before it.
* The runtime reads a slot once, when the registration has returned, and it reads what the first
  call of an account brought (`World.Accounts.outcome_eq`). A registration that panics is not asked.
* **A late call is seen by calls on the same slot only.** Worlds that differ in the contents of one
  slot (`World.ApartAt`) go on in step unless one of them changes this very slot
  (`Machine.Oblivious`). That the slot is in the end what it was is enough to know that nothing
  changed it on the way, because slots only grow old.
* Slots are never given back, so a further visit has a slot of its own.
* **Closures that only settle slots cannot interfere.** Then the machine takes outcomes only out of
  slots that its own visits have made (`Interpreter.TakesOwn`): not out of this one while its
  registration runs, and not out of it when the visit is over. So a late call is overlooked by
  whatever does not call on the slot itself.
-/

namespace EffectMachine

variable {S : Signature} {α β : Type}

open Machine (Along)

/-! ### Worlds that differ in one slot -/

namespace Heap

variable {γ : Type} {h h' : Heap γ}

theorem get?_alloc (h : Heap γ) (a : γ) (i : Nat) :
    (h.alloc a).get? i = if i = h.size then some a else h.get? i :=
  Array.getElem?_push

theorem get?_modify (h : Heap γ) (i j : Nat) (f : γ → γ) :
    (h.modify i f).get? j = if i = j then (h.get? j).map f else h.get? j :=
  Array.getElem?_modify

/-- A change that leaves the cell as it is changes nothing. -/
theorem modify_eq_self {i : Nat} {f : γ → γ} (hf : ∀ a, h.get? i = some a → f a = a) :
    h.modify i f = h := by
  refine congrArg Heap.mk (Array.ext_getElem? fun j ↦ ?_)
  rw [Array.getElem?_modify]
  split
  · subst j
    cases ha : h.cells[i]? with
    | none => rfl
    | some a => exact congrArg some (hf a ha)
  · rfl

end Heap

namespace World

variable {w w' : World S} {s s' : SlotId}

/-- The worlds are the same but for the contents of one slot. -/
structure ApartAt (s : SlotId) (w w' : World S) : Prop where
  rest : { w with slots := w'.slots } = w'
  exists_slot : s.index < w.slots.size
  size : w'.slots.size = w.slots.size
  others : ∀ i, i ≠ s.index → w'.slots.get? i = w.slots.get? i

/-- A settled slot is not touched by a further call. -/
theorem settle_of_settled (h : (w.slot s).settled = true) (o : Outcome S.Error Value) :
    (w.settle s o).2 = w := by
  have hslots : w.slots.modify s.index (fun c ↦ c.settle o) = w.slots := by
    refine Heap.modify_eq_self fun c hc ↦ Slot.settle_of_settled ?_ o
    rw [slot, hc] at h
    exact h
  exact congrArg (fun slots ↦ { w with slots }) hslots

/-- Offers have nothing to do with slots. -/
theorem addFinalizer_with_slots (w : World S) (slots : Heap (Slot S.Error)) (s : ScopeId)
    (f : Finalizer S) : { w with slots }.addFinalizer s f =
      ((w.addFinalizer s f).1, { (w.addFinalizer s f).2 with slots }) := by
  have hscope : World.scope { w with slots } s = w.scope s := rfl
  rw [addFinalizer, addFinalizer, hscope]
  split <;> rfl

/-- A call changes one slot at most. -/
theorem apartAt_settle (hs : s.index < w.slots.size) (o : Outcome S.Error Value) :
    w.ApartAt s (w.settle s o).2 where
  rest := rfl
  exists_slot := hs
  size := w.slots.size_modify _ _
  others _ hi := w.slots.get?_modify_of_ne hi.symm _

namespace ApartAt

variable (h : w.ApartAt s w')
include h

theorem slot_eq (hs : s' ≠ s) : w'.slot s' = w.slot s' :=
  slot_of_cell (h.others s'.index fun hi ↦ hs (by cases s; cases s'; cases hi; rfl))

theorem newSlot_eq : w'.newSlot.1 = w.newSlot.1 := congrArg SlotId.mk h.size

theorem newSlot : w.newSlot.2.ApartAt s w'.newSlot.2 where
  rest := congrArg (fun v : World S ↦ { v with slots := w'.slots.alloc .fresh }) h.rest
  exists_slot := by
    rw [size_newSlot]
    exact Nat.lt_succ_of_lt h.exists_slot
  size := by rw [size_newSlot, size_newSlot, h.size]
  others i hi := by
    show (w'.slots.alloc .fresh).get? i = (w.slots.alloc .fresh).get? i
    rw [Heap.get?_alloc, Heap.get?_alloc, h.size, h.others i hi]

theorem modify (j : Nat) (f : Slot S.Error → Slot S.Error) :
    ApartAt s { w with slots := w.slots.modify j f } { w' with slots := w'.slots.modify j f } where
  rest := congrArg (fun v : World S ↦ { v with slots := w'.slots.modify j f }) h.rest
  exists_slot := by
    rw [Heap.size_modify]
    exact h.exists_slot
  size := by rw [Heap.size_modify, Heap.size_modify, h.size]
  others i hi := by
    rw [Heap.get?_modify, Heap.get?_modify, h.others i hi]

end ApartAt

end World

/-! ### Computations that do not see a slot -/

/-- From worlds that differ in the contents of the slot, the computation answers the same and leaves
worlds that differ there only, unless the slot is changed in one of them. -/
def Machine.Oblivious (s : SlotId) (m : Machine S α) : Prop :=
  ∀ ⦃w w'⦄, World.ApartAt s w w' → (m w).2.slot s = w.slot s → (m w').2.slot s = w'.slot s →
    (m w').1 = (m w).1 ∧ World.ApartAt s (m w).2 (m w').2

namespace Machine.Oblivious

variable {s : SlotId}

/-- An operation that neither looks at slots nor changes them. -/
theorem blind {m : Machine S α}
    (hm : ∀ w slots, m { w with slots } = ((m w).1, { (m w).2 with slots })) : m.Oblivious s := by
  intro w w' h _ _
  have hw : m w = ((m w).1, { (m w).2 with slots := w.slots }) := hm w w.slots
  have hw' : m w' = ((m w).1, { (m w).2 with slots := w'.slots }) := by
    rw [← hm w w'.slots, h.rest]
  rw [hw']
  refine ⟨rfl, rfl, ?_, ?_, fun i hi ↦ ?_⟩ <;> rw [hw]
  · exact h.exists_slot
  · exact h.size
  · exact h.others i hi

theorem bind {m : Machine S α} {f : α → Machine S β} (hm : m.Accountable)
    (hf : ∀ a, (f a).Accountable) (h : m.Oblivious s) (hf' : ∀ a, (f a).Oblivious s) :
    (m >>= f).Oblivious s := by
  -- what the slot is between the two parts, when it is in the end what it was
  have hmiddle : ∀ {w : World S} {a w₁}, m w = (.ok a, w₁) → s.index < w.slots.size →
      (f a w₁).2.slot s = w.slot s → w₁.slot s = w.slot s := by
    intro w a w₁ heq hs hend
    obtain ⟨rs, hrs⟩ := hm w
    rw [heq] at hrs
    obtain ⟨rs', hrs'⟩ := hf a w₁
    rw [hrs'.slot (Nat.lt_of_lt_of_le hs hrs.size_le), hrs.slot hs] at hend
    rw [hrs.slot hs, Slot.eq_of_after_eq hend]
  intro w w' hw hslot hslot'
  have hfirst := h hw
  rcases heq : m w with ⟨e | a, w₁⟩
  · rw [bind_error heq] at hslot ⊢
    rcases heq' : m w' with ⟨e' | a', w₁'⟩
    · rw [bind_error heq'] at hslot' ⊢
      rw [heq, heq'] at hfirst
      obtain ⟨he, hw₁⟩ := hfirst hslot hslot'
      exact ⟨by rw [Except.error.inj he], hw₁⟩
    · rw [bind_ok heq'] at hslot'
      have hslot₁' := hmiddle heq' (hw.size ▸ hw.exists_slot) hslot'
      rw [heq, heq'] at hfirst
      cases (hfirst hslot hslot₁').1
  · rw [bind_ok heq] at hslot ⊢
    have hslot₁ := hmiddle heq hw.exists_slot hslot
    rcases heq' : m w' with ⟨e' | a', w₁'⟩
    · rw [bind_error heq'] at hslot'
      rw [heq, heq'] at hfirst
      cases (hfirst hslot₁ hslot').1
    · rw [bind_ok heq'] at hslot' ⊢
      have hslot₁' := hmiddle heq' (hw.size ▸ hw.exists_slot) hslot'
      rw [heq, heq'] at hfirst
      obtain ⟨ha, hw₁⟩ := hfirst hslot₁ hslot₁'
      obtain rfl : a' = a := Except.ok.inj ha
      exact hf' a' hw₁ (hslot.trans hslot₁.symm) (hslot'.trans hslot₁'.symm)

theorem guard {m : Machine S α} (h : m.Oblivious s) : m.guard.Oblivious s := by
  intro w w' hw hslot hslot'
  rw [guard_apply] at hslot hslot' ⊢
  rw [guard_apply]
  obtain ⟨hx, hw₁⟩ := h hw hslot hslot'
  exact ⟨congrArg guarded hx, hw₁⟩

theorem newSlot : (Machine.modifyGet World.newSlot : Machine S SlotId).Oblivious s :=
  fun _ _ hw _ _ ↦ ⟨congrArg Except.ok hw.newSlot_eq, hw.newSlot⟩

/-- A call that does not settle the slot is refused. -/
theorem settle (s' : SlotId) (o : Outcome S.Error Value) :
    (Machine.modifyGet fun w : World S ↦ w.settle s' o).Oblivious s := by
  -- a call on the slot itself that changes nothing found it settled
  have hself : ∀ {w : World S}, s.index < w.slots.size → (w.settle s o).2.slot s = w.slot s →
      (w.slot s).settled = true := by
    intro w hs h
    rw [World.slot_modify (f := fun c ↦ c.settle o) hs rfl] at h
    rw [← h, Slot.settled_settle]
  intro w w' hw hslot hslot'
  refine ⟨congrArg Except.ok ?_, hw.modify _ _⟩
  show (!(w'.slot s').settled) = !(w.slot s').settled
  by_cases hs : s' = s
  · subst s'
    rw [hself hw.exists_slot hslot, hself (hw.size ▸ hw.exists_slot) hslot']
  · rw [hw.slot_eq hs]

/-- Taking nothing out of the slot finds nothing. -/
theorem takeOutcome (s' : SlotId) :
    (Machine.modifyGet fun w : World S ↦ w.takeOutcome s').Oblivious s := by
  -- taking from the slot itself without changing it found nothing
  have hself : ∀ {w : World S}, s.index < w.slots.size → (w.takeOutcome s).2.slot s = w.slot s →
      (w.slot s).outcome = none := by
    intro w hs h
    rw [World.slot_modify (f := Slot.take) hs rfl] at h
    rw [← h]
    rfl
  intro w w' hw hslot hslot'
  refine ⟨congrArg Except.ok ?_, hw.modify _ _⟩
  show (w'.slot s').outcome = (w.slot s').outcome
  by_cases hs : s' = s
  · subst s'
    rw [hself hw.exists_slot hslot, hself (hw.size ▸ hw.exists_slot) hslot']
  · rw [hw.slot_eq hs]

/-- Everything that is put together from operations on the world is oblivious of every slot. -/
theorem compositional (s : SlotId) : Compositional.Closing (S := S)
    fun ⦃α⦄ (m : Machine S α) ↦ m.Accountable ∧ m.Oblivious s where
  pure a := ⟨Accountable.compositional.pure a, blind fun _ _ ↦ rfl⟩
  escape e := ⟨Accountable.compositional.escape e, blind fun _ _ ↦ rfl⟩
  bind h hf := ⟨Accountable.compositional.bind h.1 fun a ↦ (hf a).1,
    bind h.1 (fun a ↦ (hf a).1) h.2 fun a ↦ (hf a).2⟩
  guard h := ⟨Accountable.compositional.guard h.1, guard h.2⟩
  gets f hf := ⟨Accountable.compositional.gets f hf, blind fun w slots ↦ by
    rw [gets_apply, hf, gets_apply]⟩
  write state := ⟨Accountable.compositional.write state, blind fun _ _ ↦ rfl⟩
  advance d := ⟨Accountable.compositional.advance d, blind fun _ _ ↦ rfl⟩
  sleep d := ⟨Accountable.compositional.sleep d, blind fun _ _ ↦ rfl⟩
  draw := ⟨Accountable.compositional.draw, blind fun _ _ ↦ rfl⟩
  openScope := ⟨Accountable.compositional.openScope, blind fun _ _ ↦ rfl⟩
  enterScope := ⟨Accountable.compositional.enterScope, blind fun _ _ ↦ rfl⟩
  addFinalizer s' f := ⟨Accountable.compositional.addFinalizer s' f, blind fun w slots ↦ by
    rw [modifyGet_apply, modifyGet_apply, w.addFinalizer_with_slots]⟩
  newSlot := ⟨Accountable.compositional.newSlot, newSlot⟩
  settle s' o := ⟨Accountable.compositional.settle s' o, settle s' o⟩
  takeOutcome s' := ⟨Accountable.compositional.takeOutcome s', takeOutcome s'⟩
  newFork := ⟨Accountable.compositional.newFork, blind fun _ _ ↦ rfl⟩
  newBudget b := ⟨Accountable.compositional.newBudget b, blind fun _ _ ↦ rfl⟩
  modifyBudget b f := ⟨Accountable.compositional.modifyBudget b f, blind fun _ _ ↦ rfl⟩
  exceeded b n := ⟨Accountable.compositional.exceeded b n, blind fun _ _ ↦ rfl⟩
  shutScope s' := ⟨Accountable.compositional.shutScope s', blind fun _ _ ↦ rfl⟩
  record e := ⟨Accountable.compositional.record e, blind fun _ _ ↦ rfl⟩

/-- Two runs of a computation, the second one after a late call. Neither takes an outcome out of the
slot, so what was called on in neither of them is in the end what it was. -/
theorem overlooks {p : Program S} {m : Machine S α} (hm : m.Oblivious s)
    (hown : Along (World.TakesOwn p) True m fun _ ↦ True) {v v₁ v₁' : World S}
    (hs : s.index < v.slots.size) (hv : v.Awaits (Finalizer.SettlesOnly p))
    {x x' : Except Escape α} {rs : List (SlotRequest S.Error)} (heq : m v = (x, v₁))
    (hrs : v.Accounts rs v₁) (htake : .take s ∉ rs) (hcalls : calls s rs = [])
    {o : Outcome S.Error Value} (heq' : m (v.settle s o).2 = (x', v₁'))
    (hx' : x' ≠ .error .exhausted) : x' = x ∧ v₁.ApartAt s v₁' := by
  have hapart := World.apartAt_settle hs o
  have hs' : s.index < (v.settle s o).2.slots.size := hapart.size ▸ hs
  obtain ⟨rs', hrs', htake'⟩ :=
    ((hown heq' hx').1 (hv.congr rfl)).2.exists_not_mem hs'
  have hsettled : ((v.settle s o).2.slot s).settled = true := by
    rw [World.slot_modify (f := fun c ↦ c.settle o) hs rfl]
    exact Slot.settled_settle _ _
  have hslot : (m v).2.slot s = v.slot s := by
    rw [heq, hrs.slot hs, Slot.after_of_not_take htake (.inl hcalls)]
  have hslot' : (m (v.settle s o).2).2.slot s = (v.settle s o).2.slot s := by
    rw [heq', hrs'.slot hs', Slot.after_of_not_take htake' (.inr hsettled)]
  have hsame := hm hapart hslot hslot'
  rw [heq, heq'] at hsame
  exact hsame

end Machine.Oblivious

/-! ### Visits -/

namespace Interpreter

variable {it : Interpreter S}

/-- What becomes of the calls on the handle of an asynchronous effect that is visited in a world.
The slot of the visit is `w.newSlot.1`, and the registration starts in the world `w.newSlot.2`. An
instant since then is a world for which there is an account of the slots. -/
structure SettlesOnce (it : Interpreter S) (fuel : Nat) (w : World S) : Prop where
  /-- Closures, rounds, runs and closings do nothing but operations on the world and closings, -/
  composed : it.Composes fuel
  /-- and all that does no more leads from instants to instants. -/
  instants : ∀ {α : Type} (m : Machine S α), m.Composed (it.closeScope fuel) → m.Accountable
  /-- Of any sequence of calls exactly the first one is accepted, whatever other requests come in
  between. -/
  sequence : ∀ rs, (w.newSlot.2.slot w.newSlot.1).answers w.newSlot.1 rs =
    firstOnly (calls w.newSlot.1 rs)
  /-- **A call is accepted if it is the first one**, whenever it is made. It is the only request
  about slots that is made by making it. -/
  replies : ∀ rs v, w.newSlot.2.Accounts rs v →
    ∀ {α : Type} (o : Outcome S.Error Value) (k : Bool → Action S α),
      (it.host (it.closeScope fuel)).perform (.settle w.newSlot.1 o k) v =
          (it.host (it.closeScope fuel)).perform (k (calls w.newSlot.1 rs).isEmpty)
            (v.settle w.newSlot.1 o).2 ∧
        w.newSlot.2.Accounts (rs ++ [.settle w.newSlot.1 o]) (v.settle w.newSlot.1 o).2
  /-- **A visit whose registration returned** goes on with what the first call until then brought,
  or with a defect if there was none. -/
  returned : it.strategy = .sync → ∀ (start : SlotId → Action S Unit) (v : World S),
    (it.host (it.closeScope fuel)).perform (start w.newSlot.1) w.newSlot.2 = (.ok (), v) →
      ∀ rs, w.newSlot.2.Accounts rs v → .take w.newSlot.1 ∉ rs → ∀ b n (st : State S),
        it.pursue (it.closeScope fuel) b n (st.continueWith (.async start)) w =
          it.rounds (it.closeScope fuel) b n (st.holding (.ofOutcome
            ((calls w.newSlot.1 rs).head?.getD (.error (.defect .neverSettled)))))
            (v.takeOutcome w.newSlot.1).2
  /-- A visit whose registration panicked goes on with that defect, whatever calls were made. -/
  panicked : it.strategy = .sync → ∀ (start : SlotId → Action S Unit) (p : Panic) (v : World S),
    (it.host (it.closeScope fuel)).perform (start w.newSlot.1) w.newSlot.2 =
        (.error (.panic p), v) → ∀ b n (st : State S),
      it.pursue (it.closeScope fuel) b n (st.continueWith (.async start)) w =
        it.rounds (it.closeScope fuel) b n (st.die (.panic p.text)) v
  /-- A call that is not the first one does nothing. -/
  repeated : ∀ rs v, w.newSlot.2.Accounts rs v → calls w.newSlot.1 rs ≠ [] →
    ∀ o, (v.settle w.newSlot.1 o).2 = v
  /-- Any call changes the slot and nothing else, -/
  late : ∀ rs v, w.newSlot.2.Accounts rs v → ∀ o,
    v.ApartAt w.newSlot.1 (v.settle w.newSlot.1 o).2
  /-- **and nothing sees the difference** until the same slot is settled or read once more. -/
  unseen : ∀ {α : Type} (m : Machine S α), m.Composed (it.closeScope fuel) →
    m.Oblivious w.newSlot.1
  /-- **The machine takes outcomes only out of slots that its own visits have made**, if closures do
  nothing to slots but settle them. -/
  own : it.strategy = .sync → it.program.CleanupsSettleOnly → it.TakesOwn fuel
  /-- So a registration of that kind leaves its slot to the visit, which goes on as above, -/
  registered : it.strategy = .sync → it.program.CleanupsSettleOnly →
    w.Awaits (Finalizer.SettlesOnly it.program) → ∀ start : SlotId → Action S Unit,
      (start w.newSlot.1).SettlesOnly → ∀ v : World S,
        (it.host (it.closeScope fuel)).perform (start w.newSlot.1) w.newSlot.2 = (.ok (), v) →
          ∃ rs, w.newSlot.2.Accounts rs v ∧ .take w.newSlot.1 ∉ rs
  /-- **and a late call is overlooked** by all that ends and does not call on the slot itself. -/
  overlooked : ∀ rs v, w.newSlot.2.Accounts rs v → v.Awaits (Finalizer.SettlesOnly it.program) →
    ∀ {α : Type} (m : Machine S α), m.Composed (it.closeScope fuel) →
      Along (World.TakesOwn it.program) True m (fun _ ↦ True) →
        ∀ x v₁, m v = (x, v₁) → x ≠ .error .exhausted →
          ∃ rs', v.Accounts rs' v₁ ∧ .take w.newSlot.1 ∉ rs' ∧ (calls w.newSlot.1 rs' = [] →
            ∀ o x' v₁', m (v.settle w.newSlot.1 o).2 = (x', v₁') → x' ≠ .error .exhausted →
              x' = x ∧ v₁.ApartAt w.newSlot.1 v₁')
  /-- **A further visit has a slot of its own**, and as long as that one is not called on itself,
  nothing settles it. -/
  further : ∀ rs v, w.newSlot.2.Accounts rs v → v.newSlot.1 ≠ w.newSlot.1 ∧
    ∀ rs' v', v.newSlot.2.Accounts rs' v' → calls v.newSlot.1 rs' = [] →
      (v'.slot v.newSlot.1).settled = false

/-- **Asynchronous effects settle once per visit, and handles that are called late do no harm.** -/
theorem async_settles_once (hr : it.registry = .standard) (fuel : Nat) (w : World S) :
    it.SettlesOnce fuel w where
  composed := composes (.of_eq hr) fuel
  instants m hm := by
    have C := Machine.Accountable.compositional (S := S)
    exact hm C.toCompositional (closeScope_composed C (.of_eq hr) fuel)
  sequence rs := by
    rw [World.slot_newSlot]
    exact (Slot.after_fresh w.newSlot.1 rs).2.2
  replies rs v hv α o k := by
    rw [Host.perform_settle, Machine.bind_ok (Machine.modifyGet_apply _ v), hv.settle_eq]
    exact ⟨rfl, hv.trans (.settle v w.newSlot.1 o)⟩
  returned hσ start v hperform rs hrs htake b n st := by
    have hattempt : (it.host (it.closeScope fuel)).attempt (start w.newSlot.1) w.newSlot.2 =
        (.ok (.ok ()), v) := by
      rw [Host.attempt, Machine.guard_apply, hperform]
      rfl
    rw [it.pursue_async (it.closeScope fuel) b hr n st hσ,
      Machine.bind_ok (Machine.modifyGet_apply World.newSlot w), Machine.bind_ok hattempt]
    show it.rounds _ b n (st.holding (.ofOutcome ((v.takeOutcome w.newSlot.1).1.getD _))) _ = _
    rw [hrs.outcome_eq htake]
  panicked hσ start p v hperform b n st := by
    have hattempt : (it.host (it.closeScope fuel)).attempt (start w.newSlot.1) w.newSlot.2 =
        (.ok (.error (.panic p.text)), v) := by
      rw [Host.attempt, Machine.guard_apply, hperform]
      rfl
    rw [it.pursue_async (it.closeScope fuel) b hr n st hσ,
      Machine.bind_ok (Machine.modifyGet_apply World.newSlot w), Machine.bind_ok hattempt]
  repeated rs v hv hcalls o := World.settle_of_settled (hv.settled_iff.mpr hcalls) o
  late rs v hv o := World.apartAt_settle (Nat.lt_of_lt_of_le World.newSlot_lt hv.size_le) o
  unseen m hm := by
    have C := Machine.Oblivious.compositional (S := S) w.newSlot.1
    exact (hm C.toCompositional (closeScope_composed C (.of_eq hr) fuel)).2
  own hσ hcleanup := takesOwn hr hσ hcleanup fuel
  registered hσ hcleanup hw start hstart v hperform := by
    have hown := (takesOwn hr hσ hcleanup fuel).closures _ hstart
    exact ((hown hperform nofun).1 (hw.congr rfl)).2.exists_not_mem World.newSlot_lt
  overlooked rs v hv hawaits α m hm hown x v₁ heq hx := by
    have C := Machine.Oblivious.compositional (S := S) w.newSlot.1
    have hoblivious : m.Oblivious w.newSlot.1 :=
      (hm C.toCompositional (closeScope_composed C (.of_eq hr) fuel)).2
    have hs := Nat.lt_of_lt_of_le World.newSlot_lt hv.size_le
    obtain ⟨rs', hrs', htake⟩ := ((hown heq hx).1 hawaits).2.exists_not_mem hs
    exact ⟨rs', hrs', htake, fun hcalls o x' v₁' heq' hx' ↦
      hoblivious.overlooks hown hs hawaits heq hrs' htake hcalls heq' hx'⟩
  further rs v hv := by
    refine ⟨hv.newSlot_ne, fun rs' v' hv' hcalls ↦ ?_⟩
    rw [← Bool.not_eq_true, hv'.settled_iff, hcalls]
    exact fun h ↦ h rfl

/-- A registration that succeeds, then fails, and insists on how its calls are answered. -/
def insistent (s : SlotId) : Action Tally Unit :=
  .settle s (.ok .unit) fun first ↦ .settle s (.error (.fail 3)) fun second ↦
    if first && !second then .done () else .panic .payload

/-- The registration only settles its slot and returns, and the run succeeds. -/
theorem insistent_settles_once :
    ({ program := tally } : Interpreter Tally).SettlesOnce 9 tallyWorld ∧
      tally.CleanupsSettleOnly ∧ tally.SettlesOnly (.async insistent) ∧
      tallyWorld.Awaits (Finalizer.SettlesOnly tally) ∧
      (({ program := tally } : Interpreter Tally).interpretOn 9 (.async insistent) .empty ⟨0⟩
        tallyWorld).1.toOption.map (·.isOk) = some true := by
  refine ⟨async_settles_once rfl 9 tallyWorld, cleanupsSettleOnly_tally, ?_, fun s ↦ ?_,
    by decide +kernel⟩
  · refine Program.all_of (fun s first second ↦ ?_) fun m hm ↦ hm.elim
    cases first <;> cases second <;> trivial
  · rw [tallyWorld.scope_of_size_le (Nat.zero_le _)]
    exact nofun

end Interpreter

end EffectMachine
