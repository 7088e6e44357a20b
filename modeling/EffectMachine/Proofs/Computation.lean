import EffectMachine.Machine.Interpreter

/-!
# How computations answer

Equations and inversions for computations in the world. `Machine.bind_apply` and
`Machine.guard_apply` say what sequencing and guarding do with an answer; the inversions take an
answer of a sequence apart.
-/

namespace EffectMachine

variable {S : Signature} {α β : Type}

/-- An escape that is handed on, whatever was to be returned. -/
theorem Escape.ne_exhausted {e : Escape} (h : (.error e : Except Escape α) ≠ .error .exhausted) :
    (.error e : Except Escape β) ≠ .error .exhausted := fun he ↦ h (by rw [Except.error.inj he])

namespace Machine

@[simp] theorem pure_apply (a : α) (w : World S) : (pure a : Machine S α) w = (.ok a, w) := rfl

@[simp] theorem escape_apply (e : Escape) (w : World S) :
    (escape e : Machine S α) w = (.error e, w) := rfl

@[simp] theorem modifyGet_apply (f : World S → α × World S) (w : World S) :
    modifyGet f w = (.ok (f w).1, (f w).2) := rfl

@[simp] theorem gets_apply (f : World S → α) (w : World S) : gets f w = (.ok (f w), w) := rfl

@[simp] theorem modify_apply (f : World S → World S) (w : World S) :
    modify f w = (.ok (), f w) := rfl

theorem bind_apply (m : Machine S α) (f : α → Machine S β) (w : World S) :
    (m >>= f) w = match m w with
      | (.ok a, w) => f a w
      | (.error e, w) => (.error e, w) := rfl

theorem bind_ok {m : Machine S α} {a : α} {w w' : World S} (h : m w = (.ok a, w'))
    (f : α → Machine S β) : (m >>= f) w = f a w' := by
  rw [bind_apply, h]

theorem bind_error {m : Machine S α} {e : Escape} {w w' : World S} (h : m w = (.error e, w'))
    (f : α → Machine S β) : (m >>= f) w = (.error e, w') := by
  rw [bind_apply, h]

/-- What follows a computation that never returns never begins. -/
theorem bind_exhausted {m : Machine S α} {w : World S} (h : (m w).1 = .error .exhausted)
    (f : α → Machine S β) : ((m >>= f) w).1 = .error .exhausted := by
  rw [bind_error (Prod.ext h rfl)]

/-- A sequence answers as its second part does, or escapes where its first part does. -/
theorem bind_eq {m : Machine S α} {f : α → Machine S β} {w w'' : World S} {y : Except Escape β}
    (h : (m >>= f) w = (y, w'')) :
    (∃ a w', m w = (.ok a, w') ∧ f a w' = (y, w'')) ∨
      ∃ e, m w = (.error e, w'') ∧ y = .error e := by
  rcases hm : m w with ⟨e | a, w'⟩
  · rw [bind_error hm] at h
    cases h
    exact .inr ⟨e, rfl, rfl⟩
  · rw [bind_ok hm] at h
    exact .inl ⟨a, w', rfl, h⟩

/-- A sequence that yields a result went through both parts. -/
theorem bind_eq_ok {m : Machine S α} {f : α → Machine S β} {w w'' : World S} {b : β}
    (h : (m >>= f) w = (.ok b, w'')) : ∃ a w', m w = (.ok a, w') ∧ f a w' = (.ok b, w'') := by
  rcases bind_eq h with h | ⟨e, -, he⟩
  · exact h
  · cases he

/-- A body in a fresh scope answers as it does and as the closing of the scope does, or escapes
where the one or the other does. -/
theorem inScope_eq {close : Closer S} {body : ScopeId → Machine S (Outcome S.Error α)}
    {w w' : World S} {x : Except Escape (Outcome S.Error α)} (h : inScope close body w = (x, w')) :
    (∃ o w₁, body w.enterScope.1 w.enterScope.2 = (.ok o, w₁) ∧
      ((∃ r, close w.enterScope.1 w₁ = (.ok r, w') ∧ x = .ok (o.merge r)) ∨
        ∃ e, close w.enterScope.1 w₁ = (.error e, w') ∧ x = .error e)) ∨
    ∃ e, body w.enterScope.1 w.enterScope.2 = (.error e, w') ∧ x = .error e := by
  change (body w.enterScope.1 >>= fun o ↦ close w.enterScope.1 >>= fun r ↦ pure (o.merge r))
    w.enterScope.2 = (x, w') at h
  rcases bind_eq h with ⟨o, w₁, ho, h⟩ | hbody
  · refine .inl ⟨o, w₁, ho, ?_⟩
    rcases bind_eq h with ⟨r, w₂, hr, h⟩ | hclose
    · cases h
      exact .inl ⟨r, hr, rfl⟩
    · exact .inr hclose
  · exact .inr hbody

/-- A body in a fresh scope that yields an outcome has had the scope closed. -/
theorem inScope_eq_ok {close : Closer S} {body : ScopeId → Machine S (Outcome S.Error α)}
    {w w' : World S} {o : Outcome S.Error α} (h : inScope close body w = (.ok o, w')) :
    ∃ o₁ w₁ r, body w.enterScope.1 w.enterScope.2 = (.ok o₁, w₁) ∧
      close w.enterScope.1 w₁ = (.ok r, w') ∧ o = o₁.merge r := by
  rcases inScope_eq h with ⟨o₁, w₁, ho, ⟨r, hr, heq⟩ | ⟨e, -, heq⟩⟩ | ⟨e, -, heq⟩
  · exact ⟨o₁, w₁, r, ho, hr, Except.ok.inj heq⟩
  · cases heq
  · cases heq

/-- What a guard makes of an answer. -/
def guarded : Except Escape α → Except Escape (Except Defect α)
  | .ok a => .ok (.ok a)
  | .error (.panic p) => .ok (.error (.panic p.text))
  | .error .exhausted => .error .exhausted

theorem guard_apply (m : Machine S α) (w : World S) : m.guard w = (guarded (m w).1, (m w).2) := by
  unfold guard
  rcases m w with ⟨(p | _) | a, w'⟩ <;> rfl

@[simp] theorem guarded_eq_exhausted {x : Except Escape α} :
    guarded x = .error .exhausted ↔ x = .error .exhausted := by
  rcases x with (p | _) | a <;> simp [guarded]

/-- A guarded computation does not panic. -/
theorem guarded_ne_panic (x : Except Escape α) (p : Panic) : guarded x ≠ .error (.panic p) := by
  rcases x with (p | _) | a <;> simp [guarded]

/-- A guarded computation that does not run out of fuel yields a result. -/
theorem guard_eq {m : Machine S α} {w w' : World S} {y : Except Escape (Except Defect α)}
    (h : m.guard w = (y, w')) (hy : y ≠ .error .exhausted) :
    ∃ x a, m w = (x, w') ∧ x ≠ .error .exhausted ∧ y = .ok a := by
  rw [guard_apply] at h
  obtain ⟨rfl, rfl⟩ := Prod.mk.inj h
  refine ⟨(m w).1, ?_⟩
  rcases hx : (m w).1 with (p | _) | a
  · exact ⟨_, by rw [← hx], nofun, rfl⟩
  · exact absurd (guarded_eq_exhausted.2 hx) hy
  · exact ⟨_, by rw [← hx], nofun, rfl⟩

end Machine

/-! ### Running actions, request by request -/

theorem Action.perform_bind (close : Closer S) (x : Action S α) (f : α → Action S β)
    (w : World S) :
    (x.bind f).perform close w = match x.perform close w with
      | (.ok a, w) => (f a).perform close w
      | (.error e, w) => (.error e, w) := by
  induction x generalizing w with
  | done | panic => rfl
  | write _ _ ih | advance _ _ ih | sleep _ _ ih => exact ih _
  | read _ ih | now _ ih | draw _ ih | openScope _ ih | addCleanup _ _ _ ih | inspect _ _ ih
  | settle _ _ _ ih | take _ _ ih => exact ih _ _
  | closeScope s k ih =>
    rw [Action.bind, Action.perform, Action.perform]
    rcases close s w with ⟨_ | r, v⟩
    · rfl
    · exact ih r v

namespace Host

variable (h : Host S)

theorem perform_done (a : α) : h.perform (.done a) = pure a := rfl

theorem perform_panic (p : Panic) : h.perform (.panic p : Action S α) = .escape (.panic p) := rfl

theorem perform_read (k : S.State → Action S α) :
    h.perform (.read k) = .gets World.state >>= fun s ↦ h.perform (k s) := rfl

theorem perform_write (s : S.State) (k : Action S α) :
    h.perform (.write s k) = .modify (fun w ↦ { w with state := s }) >>= fun _ ↦ h.perform k := rfl

theorem perform_now (k : Nat → Action S α) :
    h.perform (.now k) = .gets (fun w ↦ w.clock.nanos) >>= fun t ↦ h.perform (k t) := rfl

theorem perform_advance (d : Duration) (k : Action S α) :
    h.perform (.advance d k) =
      .modify (fun w ↦ w.modifyClock fun c ↦ c.advance d) >>= fun _ ↦ h.perform k := rfl

theorem perform_sleep (d : Duration) (k : Action S α) :
    h.perform (.sleep d k) =
      .modify (fun w ↦ w.modifyClock fun c ↦ c.sleep d) >>= fun _ ↦ h.perform k := rfl

theorem perform_draw (k : Sample → Action S α) :
    h.perform (.draw k) = .modifyGet World.draw >>= fun x ↦ h.perform (k x) := rfl

theorem perform_openScope (k : ScopeId → Action S α) :
    h.perform (.openScope k) = .modifyGet World.openScope >>= fun s ↦ h.perform (k s) := rfl

theorem perform_addCleanup (s : ScopeId) (c : S.Cleanup)
    (k : Except Defect Unit → Action S α) :
    h.perform (.addCleanup s c k) =
      .modifyGet (fun w ↦ w.addFinalizer s (.cleanup c)) >>= fun r ↦ h.perform (k r) := rfl

theorem perform_closeScope (s : ScopeId) (k : Outcome S.Error Unit → Action S α) :
    h.perform (.closeScope s k) = h.close s >>= fun r ↦ h.perform (k r) := by
  funext w
  rw [Machine.bind_apply]
  show (Action.closeScope s k).perform h.close w = _
  rw [Action.perform]
  rcases h.close s w with ⟨_ | _, _⟩ <;> rfl

theorem perform_inspect (s : ScopeId) (k : ScopeStatus → Action S α) :
    h.perform (.inspect s k) = .gets (fun w ↦ (w.scope s).status) >>= fun r ↦ h.perform (k r) :=
  rfl

theorem perform_settle (s : SlotId) (o : Outcome S.Error Value) (k : Bool → Action S α) :
    h.perform (.settle s o k) = .modifyGet (fun w ↦ w.settle s o) >>= fun r ↦ h.perform (k r) := rfl

theorem perform_take (s : SlotId) (k : Option (Outcome S.Error Value) → Action S α) :
    h.perform (.take s k) = .modifyGet (fun w ↦ w.takeOutcome s) >>= fun r ↦ h.perform (k r) := rfl

end Host

end EffectMachine
