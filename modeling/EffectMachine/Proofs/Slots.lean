import EffectMachine.Proofs.Composition

/-!
# Requests about slots

What is ever done to slots is to make one, to settle one and to take the outcome out of one. These
are the requests about slots, and a list of them, oldest first, *accounts* for what happened to the
slots of a world if carrying them out again gives the slots that are there now (`World.Accounts`).
The requests that a computation made, in their order, are such an account, and everything that is
put together from operations on the world has one (`Machine.accountable_compositional`), however it
ends.

**One slot at a time.** Of a slot that exists an account is a list of changes of one cell
(`World.Accounts.slot`). The first call on a fresh slot settles it, and whether there was one is
all that the reply to a further call depends on.

**A slot grows old.** Settling it for the first time and taking its outcome out leave it older than
it was, and nothing makes it younger (`Slot.age`). So a slot that is in the end what it was in the
beginning has never been anything else on the way.
-/

namespace EffectMachine

variable {S : Signature} {α β : Type}

/-! ### Requests -/

/-- A request about slots. -/
inductive SlotRequest (ε : Type) where
  /-- Make a slot. -/
  | make
  /-- Settle a slot, which is what a call on the handle of an asynchronous effect does. -/
  | settle (s : SlotId) (o : Outcome ε Value)
  /-- Take the outcome out of a slot. -/
  | take (s : SlotId)

namespace SlotRequest

variable {ε : Type}

/-- What a request does to the slots. -/
def run : SlotRequest ε → Heap (Slot ε) → Heap (Slot ε)
  | .make, slots => slots.alloc .fresh
  | .settle s o, slots => slots.modify s.index fun c ↦ c.settle o
  | .take s, slots => slots.modify s.index Slot.take

/-- What a request does to one slot that exists. -/
def change (s : SlotId) : SlotRequest ε → Slot ε → Slot ε
  | .make, c => c
  | .settle s' o, c => if s' = s then c.settle o else c
  | .take s', c => if s' = s then c.take else c

theorem change_settle (s s' : SlotId) (o : Outcome ε Value) (c : Slot ε) :
    (settle s' o).change s c = if s' = s then c.settle o else c := rfl

theorem change_take (s s' : SlotId) (c : Slot ε) :
    (take s' : SlotRequest ε).change s c = if s' = s then c.take else c := rfl

/-- The outcome with which a request calls on a slot. -/
def call? (s : SlotId) : SlotRequest ε → Option (Outcome ε Value)
  | .settle s' o => if s' = s then some o else none
  | .make | .take _ => none

end SlotRequest

section

variable {ε : Type} (s : SlotId)

/-- The slots after some requests. -/
def Heap.after (slots : Heap (Slot ε)) (rs : List (SlotRequest ε)) : Heap (Slot ε) :=
  rs.foldl (fun slots r ↦ r.run slots) slots

/-- One slot after some requests. -/
def Slot.after (c : Slot ε) (rs : List (SlotRequest ε)) : Slot ε :=
  rs.foldl (fun c r ↦ r.change s c) c

/-- The calls on a slot among some requests. -/
def calls (rs : List (SlotRequest ε)) : List (Outcome ε Value) := rs.filterMap (SlotRequest.call? s)

/-- How the calls on a slot are answered when some requests are carried out in order. -/
def Slot.answers (c : Slot ε) : List (SlotRequest ε) → List Bool
  | [] => []
  | r :: rs => ((r.call? s).map fun _ ↦ !c.settled).toList ++ Slot.answers (r.change s c) rs

@[simp] theorem calls_nil : calls s ([] : List (SlotRequest ε)) = [] := rfl

theorem calls_cons (r : SlotRequest ε) (rs : List (SlotRequest ε)) :
    calls s (r :: rs) = (r.call? s).toList ++ calls s rs := by
  cases hr : r.call? s <;> simp [calls, hr]

end

/-- Yes to the first of a list and no to the others. -/
def firstOnly {γ : Type} : List γ → List Bool
  | [] => []
  | _ :: rest => true :: rest.map fun _ ↦ false

namespace Slot

variable {ε : Type} {s : SlotId} {c : Slot ε}

/-- A request that is no call on a slot does not settle it. It changes nothing but by taking an
outcome out. -/
theorem change_of_no_call {r : SlotRequest ε} (hr : r.call? s = none) :
    (r.change s c).settled = c.settled ∧
      (r ≠ .take s ∨ c.outcome = none → r.change s c = c) := by
  cases r with
  | make => exact ⟨rfl, fun _ ↦ rfl⟩
  | settle s' o =>
    have hs : s' ≠ s := by
      rintro rfl
      simp [SlotRequest.call?] at hr
    rw [SlotRequest.change_settle, if_neg hs]
    exact ⟨rfl, fun _ ↦ rfl⟩
  | take s' =>
    rw [SlotRequest.change_take]
    split
    · subst s'
      refine ⟨rfl, fun h ↦ ?_⟩
      rw [take, ← h.resolve_left fun hne ↦ hne rfl]
    · exact ⟨rfl, fun _ ↦ rfl⟩

/-- What a call on a slot does. -/
theorem change_of_call {r : SlotRequest ε} {o : Outcome ε Value} (hr : r.call? s = some o) :
    r.change s c = c.settle o := by
  cases r with
  | make | take => cases hr
  | settle s' o' =>
    obtain ⟨rfl, rfl⟩ : s' = s ∧ o' = o := by simpa [SlotRequest.call?] using hr
    rw [SlotRequest.change_settle, if_pos rfl]

/-- A settled slot stays settled, with the outcome that it has until that is taken out, and refuses
all calls. -/
theorem after_settled (hc : c.settled = true) (rs : List (SlotRequest ε)) :
    (c.after s rs).settled = true ∧
      (.take s ∉ rs → (c.after s rs).outcome = c.outcome) ∧
        c.answers s rs = (calls s rs).map fun _ ↦ false := by
  induction rs generalizing c with
  | nil => exact ⟨hc, fun _ ↦ rfl, rfl⟩
  | cons r rs ih =>
    have hchange : (r.change s c).settled = true ∧
        (r ≠ .take s → (r.change s c).outcome = c.outcome) := by
      cases hr : r.call? s with
      | none =>
        obtain ⟨hsettled, hsame⟩ := change_of_no_call (c := c) hr
        exact ⟨hsettled.trans hc, fun htake ↦ by rw [hsame (.inl htake)]⟩
      | some o =>
        rw [change_of_call hr, settle_of_settled hc]
        exact ⟨hc, fun _ ↦ rfl⟩
    obtain ⟨hsettled, houtcome, hanswers⟩ := ih hchange.1
    refine ⟨hsettled, fun htake ↦ ?_, ?_⟩
    · obtain ⟨hne, htake⟩ := List.ne_and_not_mem_of_not_mem_cons htake
      rw [← hchange.2 hne.symm]
      exact houtcome htake
    · rw [answers, hanswers, calls_cons, List.map_append, hc]
      cases r.call? s <;> rfl

/-- A slot that none of the requests changes stays what it is. -/
theorem after_eq_self {rs : List (SlotRequest ε)} (h : ∀ r ∈ rs, r.change s c = c) :
    c.after s rs = c := by
  induction rs with
  | nil => rfl
  | cons r rs ih =>
    obtain ⟨hr, hrs⟩ := List.forall_mem_cons.1 h
    have hafter : c.after s (r :: rs) = (r.change s c).after s rs := rfl
    rw [hafter, hr, ih hrs]

/-- Nothing but calls on it changes a slot whose outcome is not taken, and calls do not change it
either once it is settled. -/
theorem after_of_not_take {rs : List (SlotRequest ε)} (htake : .take s ∉ rs)
    (h : calls s rs = [] ∨ c.settled = true) : c.after s rs = c := by
  refine after_eq_self fun r hr ↦ ?_
  cases hcall : r.call? s with
  | none => exact (change_of_no_call hcall).2 (.inl fun heq ↦ htake (heq ▸ hr))
  | some o =>
    have hmem : o ∈ calls s rs := List.mem_filterMap.2 ⟨r, hr, hcall⟩
    have hc := h.resolve_left (List.ne_nil_of_mem hmem)
    rw [change_of_call hcall, settle_of_settled hc]

/-- **The first call settles a fresh slot**, with the outcome that it brings. Calls that come later
change nothing and are refused. -/
theorem after_fresh (s : SlotId) (rs : List (SlotRequest ε)) :
    (fresh.after s rs).settled = !(calls s rs).isEmpty ∧
      (.take s ∉ rs → (fresh.after s rs).outcome = (calls s rs).head?) ∧
        fresh.answers s rs = firstOnly (calls s rs) := by
  induction rs with
  | nil => exact ⟨rfl, fun _ ↦ rfl, rfl⟩
  | cons r rs ih =>
    have hafter : fresh.after s (r :: rs) = (r.change s fresh).after s rs := rfl
    cases hr : r.call? s with
    | none =>
      -- a slot that has not been settled has no outcome to take out
      have hchange : r.change s fresh = fresh := (change_of_no_call hr).2 (.inr rfl)
      rw [hafter, answers, hchange, calls_cons, hr]
      exact ⟨ih.1, fun htake ↦ ih.2.1 (List.ne_and_not_mem_of_not_mem_cons htake).2, ih.2.2⟩
    | some o =>
      have hchange : r.change s fresh = ⟨true, some o⟩ := change_of_call hr
      obtain ⟨hsettled, houtcome, hanswers⟩ :=
        after_settled (s := s) (c := ⟨true, some o⟩) rfl rs
      rw [hafter, answers, hchange, calls_cons, hr, hanswers]
      exact ⟨hsettled, fun htake ↦ houtcome (List.ne_and_not_mem_of_not_mem_cons htake).2, rfl⟩

/-- How far a slot is in its life: settling it and taking its outcome out let it grow older. -/
def age (c : Slot ε) : Nat := (if c.settled then 2 else 0) + if c.outcome.isNone then 1 else 0

theorem change_eq_or_age_lt (s : SlotId) (r : SlotRequest ε) (c : Slot ε) :
    r.change s c = c ∨ c.age < (r.change s c).age := by
  obtain ⟨settled, outcome⟩ := c
  cases r with
  | make => exact .inl rfl
  | settle s' o =>
    rw [SlotRequest.change_settle]
    split
    · cases settled <;> cases outcome <;> simp [Slot.settle, age]
    · exact .inl rfl
  | take s' =>
    rw [SlotRequest.change_take]
    split
    · cases settled <;> cases outcome <;> simp [Slot.take, age]
    · exact .inl rfl

/-- A slot stays what it is or grows older. -/
theorem after_eq_or_age_lt (s : SlotId) (rs : List (SlotRequest ε)) (c : Slot ε) :
    c.after s rs = c ∨ c.age < (c.after s rs).age := by
  induction rs generalizing c with
  | nil => exact .inl rfl
  | cons r rs ih =>
    have hafter : c.after s (r :: rs) = (r.change s c).after s rs := rfl
    rw [hafter]
    rcases change_eq_or_age_lt s r c with hr | hr <;> rcases ih (r.change s c) with hrs | hrs
    · exact .inl (hrs.trans hr)
    · rw [hr] at hrs ⊢
      exact .inr hrs
    · rw [hrs]
      exact .inr hr
    · exact .inr (Nat.lt_trans hr hrs)

/-- A slot that is in the end what it was in the beginning has not changed on the way. -/
theorem eq_of_after_eq {rs rs' : List (SlotRequest ε)}
    (h : (c.after s rs).after s rs' = c) : c.after s rs = c := by
  have hfirst := after_eq_or_age_lt s rs c
  have hsecond := after_eq_or_age_lt s rs' (c.after s rs)
  rw [h] at hsecond
  rcases hfirst with hfirst | hfirst
  · exact hfirst
  · rcases hsecond with hsecond | hsecond
    · exact hsecond.symm
    · omega

end Slot

/-! ### Accounts -/

namespace World

variable {w w' w'' : World S} {s : SlotId} {rs rs' : List (SlotRequest S.Error)}

/-- Carrying out the requests on the slots of the first world gives those of the second. -/
def Accounts (w : World S) (rs : List (SlotRequest S.Error)) (w' : World S) : Prop :=
  w'.slots = w.slots.after rs

namespace Accounts

theorem trans (h : w.Accounts rs w') (h' : w'.Accounts rs' w'') : w.Accounts (rs ++ rs') w'' := by
  rw [Accounts, h', h, Heap.after, Heap.after, Heap.after, List.foldl_append]

/-- Nothing has happened to the slots. -/
theorem of_slots (h : w'.slots = w.slots) : w.Accounts [] w' := h

theorem newSlot (w : World S) : w.Accounts [.make] w.newSlot.2 := rfl

theorem settle (w : World S) (s : SlotId) (o : Outcome S.Error Value) :
    w.Accounts [.settle s o] (w.settle s o).2 := rfl

theorem takeOutcome (w : World S) (s : SlotId) : w.Accounts [.take s] (w.takeOutcome s).2 := rfl

end Accounts

/-- A slot is what its cell is. -/
theorem slot_of_cell (h : w'.slots.get? s.index = w.slots.get? s.index) :
    w'.slot s = w.slot s := by
  rw [slot, slot, h]

theorem slot_modify (hs : s.index < w.slots.size) {f : Slot S.Error → Slot S.Error}
    (h : w'.slots = w.slots.modify s.index f) : w'.slot s = f (w.slot s) := by
  have hcell : w.slots.get? s.index = some _ := Array.getElem?_eq_getElem hs
  rw [slot, slot, h, Heap.get?_modify_self, hcell]
  rfl

theorem slot_modify_of_ne {s' : SlotId} (hs : s' ≠ s) {f : Slot S.Error → Slot S.Error}
    (h : w'.slots = w.slots.modify s'.index f) : w'.slot s = w.slot s := by
  refine slot_of_cell ?_
  rw [h, Heap.get?_modify_of_ne]
  exact fun hi ↦ hs (by cases s; cases s'; cases hi; rfl)

/-- A slot that has just been made is fresh. -/
theorem slot_newSlot : w.newSlot.2.slot w.newSlot.1 = .fresh := by
  have hcell : w.newSlot.2.slots.get? w.newSlot.1.index = some .fresh :=
    w.slots.get?_alloc_self .fresh
  rw [slot, hcell]
  rfl

theorem size_newSlot : w.newSlot.2.slots.size = w.slots.size + 1 := w.slots.size_alloc .fresh

theorem newSlot_lt : w.newSlot.1.index < w.newSlot.2.slots.size := by
  rw [size_newSlot]
  exact Nat.lt_succ_self _

theorem slots_addFinalizer (w : World S) (s : ScopeId) (f : Finalizer S) :
    (w.addFinalizer s f).2.slots = w.slots := by
  unfold addFinalizer
  split <;> rfl

/-- Slots are made and never given back. -/
theorem Accounts.size_le (h : w.Accounts rs w') : w.slots.size ≤ w'.slots.size := by
  rw [h]
  clear h
  generalize w.slots = slots
  induction rs generalizing slots with
  | nil => exact Nat.le_refl _
  | cons r rs ih =>
    have hr : slots.size ≤ (r.run slots).size := by
      cases r <;> simp [SlotRequest.run]
    exact Nat.le_trans hr (ih (r.run slots))

/-- What an account says of one slot that exists. -/
theorem Accounts.slot (h : w.Accounts rs w') (hs : s.index < w.slots.size) :
    w'.slot s = (w.slot s).after s rs := by
  induction rs generalizing w with
  | nil => exact slot_of_cell (congrArg (Heap.get? · s.index) h)
  | cons r rs ih =>
    -- the world after the first request
    obtain ⟨w₁, hw₁⟩ : ∃ w₁ : World S, w₁.slots = r.run w.slots :=
      ⟨{ w with slots := r.run w.slots }, rfl⟩
    have hrest : w₁.Accounts rs w' := by
      rw [Accounts, hw₁]
      exact h
    have hfirst : w₁.slot s = r.change s (w.slot s) := by
      cases r with
      | make => exact slot_of_cell (by rw [hw₁]; exact w.slots.get?_alloc_of_lt .fresh hs)
      | settle s' o =>
        rw [SlotRequest.change_settle]
        split
        · subst s'
          exact slot_modify hs hw₁
        · exact slot_modify_of_ne ‹_› hw₁
      | take s' =>
        rw [SlotRequest.change_take]
        split
        · subst s'
          exact slot_modify hs hw₁
        · exact slot_modify_of_ne ‹_› hw₁
    have hsize : w.slots.size ≤ w₁.slots.size :=
      (show w.Accounts [r] w₁ from hw₁).size_le
    rw [ih hrest (Nat.lt_of_lt_of_le hs hsize), hfirst]
    rfl

/-- A slot is settled when it has been called on since it was made. -/
theorem Accounts.settled_iff (h : w.newSlot.2.Accounts rs w') :
    (w'.slot w.newSlot.1).settled = true ↔ calls w.newSlot.1 rs ≠ [] := by
  rw [h.slot newSlot_lt, slot_newSlot, (Slot.after_fresh w.newSlot.1 rs).1]
  simp

/-- **How a call is answered**: the first call on a slot since it was made is accepted, and no
other one. -/
theorem Accounts.settle_eq (h : w.newSlot.2.Accounts rs w') (o : Outcome S.Error Value) :
    (w'.settle w.newSlot.1 o).1 = (calls w.newSlot.1 rs).isEmpty := by
  have hslot := h.slot newSlot_lt
  rw [slot_newSlot] at hslot
  rw [World.settle, hslot, (Slot.after_fresh w.newSlot.1 rs).1, Bool.not_not]

/-- What can be taken out of a slot is what the first call brought. -/
theorem Accounts.outcome_eq (h : w.newSlot.2.Accounts rs w') (htake : .take w.newSlot.1 ∉ rs) :
    (w'.takeOutcome w.newSlot.1).1 = (calls w.newSlot.1 rs).head? := by
  have hslot := h.slot newSlot_lt
  rw [slot_newSlot] at hslot
  rw [World.takeOutcome, hslot, (Slot.after_fresh w.newSlot.1 rs).2.1 htake]

/-- A later slot is another one. -/
theorem Accounts.newSlot_ne (h : w.newSlot.2.Accounts rs w') : w'.newSlot.1 ≠ w.newSlot.1 := by
  intro heq
  have hindex : w'.slots.size = w.slots.size := congrArg SlotId.index heq
  have hle := h.size_le
  rw [size_newSlot] at hle
  omega

end World

/-! ### Accounts of computations -/

/-- There is an account of what the computation does to slots, wherever it starts and however it
ends. -/
def Machine.Accountable (m : Machine S α) : Prop := ∀ w : World S, ∃ rs, w.Accounts rs (m w).2

namespace Machine.Accountable

/-- An operation that leaves the slots alone. -/
theorem silent {m : Machine S α} (h : ∀ w, (m w).2.slots = w.slots) : m.Accountable :=
  fun w ↦ ⟨[], .of_slots (h w)⟩

/-- Everything that is put together from operations on the world has an account. -/
theorem compositional :
    Compositional.Closing (S := S) fun ⦃α⦄ (m : Machine S α) ↦ m.Accountable where
  pure _ := silent fun _ ↦ rfl
  escape _ := silent fun _ ↦ rfl
  bind {α β m f} h hf := by
    intro w
    obtain ⟨rs, hrs⟩ := h w
    rcases hm : m w with ⟨e | a, w₁⟩
    · rw [hm] at hrs
      rw [bind_error hm]
      exact ⟨rs, hrs⟩
    · rw [hm] at hrs
      rw [bind_ok hm]
      obtain ⟨rs', hrs'⟩ := hf a w₁
      exact ⟨rs ++ rs', hrs.trans hrs'⟩
  guard {α m} h := by
    intro w
    rw [guard_apply]
    exact h w
  gets _ _ := silent fun _ ↦ rfl
  write _ := silent fun _ ↦ rfl
  advance _ := silent fun _ ↦ rfl
  sleep _ := silent fun _ ↦ rfl
  draw := silent fun _ ↦ rfl
  openScope := silent fun _ ↦ rfl
  enterScope := silent fun _ ↦ rfl
  addFinalizer s f := silent fun w ↦ w.slots_addFinalizer s f
  newSlot := fun w ↦ ⟨_, World.Accounts.newSlot w⟩
  settle s o := fun w ↦ ⟨_, World.Accounts.settle w s o⟩
  takeOutcome s := fun w ↦ ⟨_, World.Accounts.takeOutcome w s⟩
  newFork := silent fun _ ↦ rfl
  newBudget _ := silent fun _ ↦ rfl
  modifyBudget _ _ := silent fun _ ↦ rfl
  exceeded _ _ := silent fun _ ↦ rfl
  shutScope _ := silent fun _ ↦ rfl
  record _ := silent fun _ ↦ rfl

end Machine.Accountable

end EffectMachine
