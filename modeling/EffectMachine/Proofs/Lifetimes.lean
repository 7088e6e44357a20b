import EffectMachine.Proofs.Courses

/-!
# Lifetimes of scopes

What closing a scope comes to, and what a run has come to at every moment of it, in terms of
courses. `Closes` is the specification of a closer and `Releases` that of interpreting release
effects; each is proved from the other one with less fuel (`Interpreter.closeScope_closes`).

In a run `Reached` is the invariant of all moves: everything opened so far is closed, but for the
scopes that the stack will close and the root, which are open and nested as they lie on the stack.
It also lists the causes with which finalizers of the run have failed.
-/

namespace EffectMachine

variable {S : Signature}

/-- The outcome of closing a scope whose finalizers failed with the causes. -/
def Outcome.ofFailures {ε : Type} : List (Cause ε) → Outcome ε Unit
  | [] => .ok ()
  | causes => .error (.composite causes)

/-! ### Closing a scope -/

/-- What interpreting something comes to. The events are orderly, those inside finalizers only if
asked for. -/
structure Stretch (p : Program S) (deep : Bool) (w : World S) (u : List (Event S))
    (w' : World S) : Prop where
  history : w'.history = u.reverse ++ w.history
  course : Course p [] w.phase u w'.phase
  balanced : Balanced u
  orderly : deep = true → Orderly deep u

/-- What closing a scope comes to. -/
structure Closing (p : Program S) (deep : Bool) (s : ScopeId) (w : World S) (u : List (Event S))
    (w' : World S) : Prop where
  history : w'.history = (.closing s :: (u ++ [.closed s])).reverse ++ w.history
  course : Course p [s] w.phase (.closing s :: (u ++ [.closed s])) w'.phase
  orderly : Orderly deep u
  /-- Outside finalizers there are the invocations of the scope's own. -/
  outer : ∀ e ∈ outer 0 u, (∃ f, e = .invoked s f) ∨ ∃ f o, e = .ended s f o
  /-- Finalizers of scopes that were born before do not end inside others. -/
  outside : ∀ s', w.phase s' ≠ .unborn → EndsOutside s' u

/-- What invoking the finalizers of a closing scope comes to. -/
structure Invocations (p : Program S) (deep : Bool) (s : ScopeId) (fs : List (Finalizer S))
    (w : World S) (u : List (Event S)) (w' : World S) : Prop where
  history : w'.history = u.reverse ++ w.history
  course : Course p [s] (phasesWith w.phase s (.closing fs)) u
    (phasesWith w'.phase s (.closing []))
  closed : w'.phase s = .closed
  orderly : Orderly deep u
  outer : ∀ e ∈ outer 0 u, (∃ f, e = .invoked s f) ∨ ∃ f o, e = .ended s f o
  outside : ∀ s', w.phase s' ≠ .unborn → EndsOutside s' u

/-- Quiet release effects are interpreted as they should. -/
def Releases (p : Program S) (deep : Bool) (release : Releaser S) : Prop :=
  ∀ ⦃node context b w x w'⦄, p.Quiet node → release node context b w = (x, w') →
    x ≠ .error .exhausted → ∃ u, Stretch p deep w u w'

/-- Open scopes with quiet finalizers are closed as they should. Closing them does not panic, and it
reports the failures of their finalizers. -/
def Closes (p : Program S) (deep : Bool) (close : Closer S) : Prop :=
  ∀ ⦃s fs w x w'⦄, w.phase s = .open fs → (∀ f ∈ fs, f.Quiet p) → close s w = (x, w') →
    x ≠ .error .exhausted →
      ∃ u, x = .ok (.ofFailures (failures (outer 0 u))) ∧ Closing p deep s w u w'

namespace Stretch

variable {p : Program S} {deep : Bool} {w w' w'' : World S} {u v : List (Event S)}

theorem trans (h : Stretch p deep w u w') (h' : Stretch p deep w' v w'') :
    Stretch p deep w (u ++ v) w'' where
  history := by rw [h'.history, h.history, List.reverse_append, List.append_assoc]
  course := h.course.trans h'.course
  balanced := h.balanced.append h'.balanced
  orderly hd := (h.orderly hd).append (h'.orderly hd)

theorem of_offers (h : Offers p w w') : ∃ u, Stretch p deep w u w' := by
  obtain ⟨u, hu, hh, hc⟩ := h
  have ho : Orderly true u := .plain hu
  exact ⟨u, hh, hc, ho.balanced, fun hd ↦ hd ▸ ho⟩

end Stretch

namespace Host

section

variable {h : Host S} {release : Releaser S} {s : ScopeId} {f : Finalizer S} {w w' : World S}

/-- An invocation does not panic. It ends as what it invoked did, if that did not panic. -/
theorem invoke_eq {x : Except Escape (Outcome S.Error Unit)}
    (heq : h.invoke release s f w = (x, w')) (hx : x ≠ .error .exhausted) :
    ∃ y w₁ o, h.finalize release f (w.record (.invoked s f)) = (y, w₁) ∧
      y ≠ .error .exhausted ∧ (∀ o', y = .ok o' → o = o') ∧ x = .ok o ∧
        w' = w₁.record (.ended s f o) := by
  rw [invoke, Machine.bind_ok (Machine.modify_apply _ w)] at heq
  rcases Machine.bind_eq heq with ⟨y, w₁, hy, heq⟩ | ⟨e, hy, rfl⟩
  · rw [Machine.guard_apply] at hy
    rcases hz : h.finalize release f (w.record (.invoked s f)) with ⟨(p | _) | o, w₂⟩ <;>
      rw [hz] at hy <;> cases hy <;> cases heq
    · exact ⟨_, _, _, rfl, nofun, nofun, rfl, rfl⟩
    · refine ⟨_, _, _, rfl, nofun, ?_, rfl, rfl⟩
      rintro _ ⟨⟩
      rfl
  · obtain ⟨z, a, -, -, he⟩ := Machine.guard_eq hy (Escape.ne_exhausted hx)
    cases he

theorem invokeAll_cons (fs : List (Finalizer S)) :
    h.invokeAll release s (f :: fs) = h.invoke release s f >>= fun o ↦
      h.invokeAll release s fs >>= fun causes ↦
        pure ((Event.failed? (.ended s f o)).toList ++ causes) := by
  refine bind_congr fun o ↦ ?_
  rcases o with cause | ⟨⟩
  · rfl
  · exact (bind_pure _).symm

/-- A scope that closes invokes the finalizers that wait on it and reports those that fail. A scope
that is closed already does nothing. -/
theorem shut_eq {x : Except Escape (Outcome S.Error Unit)}
    (heq : h.shut release s w = (x, w')) :
    (w.scope s).closed = true ∧ x = .ok (.ok ()) ∧ w' = w ∨
      (w.scope s).closed = false ∧ ∃ y w₁,
        h.invokeAll release s (w.scope s).finalizers (w.shutScope s) = (y, w₁) ∧
          x = y.map .ofFailures ∧ ∀ causes, y = .ok causes → w' = w₁.record (.closed s) := by
  rw [shut, Machine.bind_ok (Machine.gets_apply _ w)] at heq
  cases hc : (w.scope s).closed with
  | true =>
    rw [hc] at heq
    cases heq
    exact .inl ⟨rfl, rfl, rfl⟩
  | false =>
    rw [hc] at heq
    refine .inr ⟨rfl, ?_⟩
    rcases Machine.bind_eq (m := h.invokeAll release s (w.scope s).finalizers) heq with
      ⟨causes, w₁, hinvoke, heq⟩ | ⟨e, he, rfl⟩
    · rw [Machine.bind_ok (Machine.modify_apply _ w₁)] at heq
      refine ⟨_, _, hinvoke, ?_, ?_⟩
      · cases causes <;> cases heq <;> rfl
      · rintro _ -
        cases causes <;> cases heq <;> rfl
    · exact ⟨_, _, he, rfl, nofun⟩

end

variable {h : Host S} {deep : Bool} {release : Releaser S} (hσ : h.strategy.Quiet h.program)
  (htidy : h.program.Tidy) (hrelease : Releases h.program deep release) {s : ScopeId}
  {f : Finalizer S} {w w' : World S}
include hσ htidy hrelease

theorem finalize_stretch (hf : f.Quiet h.program) {x : Except Escape (Outcome S.Error Unit)}
    (heq : h.finalize release f w = (x, w')) (hx : x ≠ .error .exhausted) :
    ∃ u, Stretch h.program deep w u w' := by
  cases f with
  | cleanup c =>
    exact Stretch.of_offers (h.perform_along (Offers.drift _) _ (.inl (htidy c))
      (.inr Offers.takeOutcome) heq hx).1
  | release build context b =>
    have D := Discipline.quiet hσ (Program.hereditary_quiet _)
    have hbuild := Machine.Along.build (E := True) (D.obeys _ hf)
    rcases Machine.bind_eq heq with ⟨y, w₁, hy, heq⟩ | ⟨e, hy, rfl⟩
    · obtain ⟨hoffers, hbuilt, -⟩ := hbuild hy nofun
      obtain ⟨u, hu⟩ : ∃ u, Stretch h.program deep w u w₁ := Stretch.of_offers hoffers
      cases y with
      | error d =>
        cases heq
        exact ⟨u, hu⟩
      | ok node =>
        have hnode := hbuilt _ rfl node rfl
        rcases Machine.bind_eq heq with ⟨z, w₂, hz, heq⟩ | ⟨e, hz, rfl⟩
        · cases heq
          obtain ⟨v, hv⟩ := hrelease hnode hz nofun
          exact ⟨_, hu.trans hv⟩
        · obtain ⟨v, hv⟩ := hrelease hnode hz (Escape.ne_exhausted hx)
          exact ⟨_, hu.trans hv⟩
    · exact Stretch.of_offers (hbuild hy (Escape.ne_exhausted hx)).1

/-- An invocation does not panic. What happens in it stands between its beginning and its end. -/
theorem invoke_stretch (hf : f.Quiet h.program) {x : Except Escape (Outcome S.Error Unit)}
    (heq : h.invoke release s f w = (x, w')) (hx : x ≠ .error .exhausted) :
    ∃ u w₁ o, x = .ok o ∧ Stretch h.program deep (w.record (.invoked s f)) u w₁ ∧
      w' = w₁.record (.ended s f o) := by
  obtain ⟨y, w₁, o, hy, hne, -, rfl, rfl⟩ := invoke_eq heq hx
  obtain ⟨u, hu⟩ := finalize_stretch hσ htidy hrelease hf hy hne
  exact ⟨u, w₁, o, rfl, hu, rfl⟩

omit hσ htidy hrelease in
/-- A scope that is closing invokes a finalizer, and then others. -/
theorem invocations_cons {p : Program S} {u v : List (Event S)} {w₁ : World S}
    {fs : List (Finalizer S)} {o : Outcome S.Error Unit} (hs : w.phase s = .closed)
    (hu : Stretch p deep (w.record (.invoked s f)) u w₁)
    (hv : Invocations p deep s fs (w₁.record (.ended s f o)) v w') :
    Invocations p deep s (f :: fs) w ((.invoked s f :: (u ++ [.ended s f o])) ++ v) w' := by
  have hbegin : Course p [s] (phasesWith w.phase s (.closing (f :: fs))) [.invoked s f]
      (phasesWith w.phase s (.closing fs)) :=
    .event (.invoked (.done _)) (fun s' hs' h ↦ hs' h.symm) nofun nofun
  have hinside : Course p [s] (phasesWith w.phase s (.closing fs)) u
      (phasesWith w₁.phase s (.closing fs)) :=
    hu.course.mono.inside hs _
  have hend : Course p [s] (phasesWith w₁.phase s (.closing fs)) [.ended s f o]
      (phasesWith w₁.phase s (.closing fs)) :=
    .idle (by simp [Event.Concerns])
  have horderly := Orderly.invocation (s := s) hu.balanced hu.orderly f o
  refine ⟨?_, (hbegin.trans (hinside.trans hend)).trans hv.course, hv.closed,
    horderly.append hv.orderly, ?_, fun s' hs' ↦ ?_⟩
  · rw [hv.history]
    simp [World.record, hu.history]
  · rw [horderly.balanced.outer_append, hu.balanced.outer_invocation, List.forall_mem_append]
    refine ⟨?_, hv.outer⟩
    rintro e (_ | ⟨_, _ | ⟨_, ⟨⟩⟩⟩)
    · exact .inl ⟨f, rfl⟩
    · exact .inr ⟨f, o, rfl⟩
  · have hnone := hu.course.endings_eq_nil hu.balanced hs' (w.phase_ne_closing s')
    exact (EndsOutside.invocation hnone hu.balanced f o).append horderly.balanced
      (hv.outside s' (hu.course.born hs'))

/-- Invoking the finalizers of a closing scope, which reports those that fail. -/
theorem invokeAll_invocations {fs : List (Finalizer S)} (hs : w.phase s = .closed)
    (hfs : ∀ f ∈ fs, f.Quiet h.program) {x : Except Escape (List (Cause S.Error))}
    (heq : h.invokeAll release s fs w = (x, w')) (hx : x ≠ .error .exhausted) :
    ∃ u, x = .ok (failures (outer 0 u)) ∧ Invocations h.program deep s fs w u w' := by
  induction fs generalizing w x with
  | nil =>
    cases heq
    exact ⟨[], rfl, rfl, .nil, hs, .nil, nofun, fun _ _ ↦ rfl⟩
  | cons f fs ih =>
    obtain ⟨hf, hfs⟩ := List.forall_mem_cons.1 hfs
    rw [invokeAll_cons] at heq
    rcases Machine.bind_eq heq with ⟨o, w₂, ho, heq⟩ | ⟨e, he, rfl⟩
    · obtain ⟨u, w₁, _, ⟨⟩, hu, rfl⟩ := invoke_stretch hσ htidy hrelease hf ho nofun
      have hs₁ : (w₁.record (.ended s f o)).phase s = .closed := hu.course.closed hs
      rcases Machine.bind_eq heq with ⟨causes, w₃, hrest, heq⟩ | ⟨e, hrest, rfl⟩
      · cases heq
        obtain ⟨v, ⟨⟩, hv⟩ := ih hs₁ hfs hrest nofun
        refine ⟨_, ?_, invocations_cons hs hu hv⟩
        rw [(hu.balanced.invocation .nil).outer_append, hu.balanced.outer_invocation]
        simp [Event.failed?]
      · obtain ⟨v, hv, -⟩ := ih hs₁ hfs hrest (Escape.ne_exhausted hx)
        cases hv
    · obtain ⟨u, w₁, o, ho, -, -⟩ := invoke_stretch hσ htidy hrelease hf he (Escape.ne_exhausted hx)
      cases ho

/-- Closing a scope that is open. -/
theorem shut_closes : Closes h.program deep (h.shut release) := by
  intro s fs w x w' hs hfs heq hx
  have hscope : w.scope s = ⟨false, fs⟩ := World.phase_eq_open.1 hs
  have hphase : (w.shutScope s).phase = phasesWith w.phase s .closed := World.phase_shutScope hs
  have hclosed : (w.shutScope s).phase s = .closed := by rw [hphase, phasesWith_same]
  rcases shut_eq heq with ⟨hc, -⟩ | ⟨-, y, w₁, hinvoke, rfl, hw'⟩
  · rw [hscope] at hc
    cases hc
  · rw [hscope] at hinvoke
    have hy : y ≠ .error .exhausted := fun hy ↦ hx (by rw [hy]; rfl)
    obtain ⟨u, rfl, hu⟩ := invokeAll_invocations hσ htidy hrelease hclosed hfs hinvoke hy
    obtain rfl := hw' _ rfl
    have hc := hu.course
    have hbegin : Course h.program [s] (phasesWith w.phase s (.open fs)) [.closing s]
        (phasesWith w.phase s (.closing fs)) :=
      .event (.closing (.done _)) (fun s' hs' h ↦ hs' h.symm) (by simp) nofun
    have hend : Course h.program [s] (phasesWith w₁.phase s (.closing [])) [.closed s]
        (phasesWith w₁.phase s .closed) :=
      .event (.closed (.done _)) (fun s' hs' h ↦ hs' h.symm) nofun nofun
    rw [phasesWith_of_eq hs] at hbegin
    rw [phasesWith_of_eq hu.closed] at hend
    rw [hphase, phasesWith_phasesWith] at hc
    refine ⟨u, rfl, ?_, hbegin.trans (hc.trans hend), hu.orderly, hu.outer, fun s' hs' ↦ ?_⟩
    · simp [World.record, hu.history, World.shutScope]
    · refine hu.outside s' ?_
      rw [hphase]
      unfold phasesWith
      split
      · nofun
      · exact hs'

end Host

/-! ### The state of a run -/

/-- What has happened in a run. The given scopes, newest first, are open; all others that were
opened have been closed. -/
structure Running (p : Program S) (deep : Bool) (w₀ : World S) (O : List ScopeId)
    (u : List (Event S)) (w : World S) : Prop where
  history : w.history = u.reverse ++ w₀.history
  course : Course p [] w₀.phase u w.phase
  nested : Nested deep O u
  live : ∀ s ∈ O, ∃ fs, w.phase s = .open fs
  nodup : O.Nodup
  /-- The finalizers of the run's own scopes, and no others, end outside of finalizers. -/
  own : ∀ s f o, .ended s f o ∈ outer 0 u → Opens false s u
  outside : ∀ s, Opens false s u → EndsOutside s u

/-- A run has come to have the given scopes open, and finalizers of it have failed with the
causes. -/
def Reached (p : Program S) (deep : Bool) (w₀ : World S) (O : List ScopeId)
    (causes : List (Cause S.Error)) (w : World S) : Prop :=
  ∃ u, Running p deep w₀ O u w ∧ failures (outer 0 u) = causes

namespace Reached

variable {p : Program S} {deep : Bool} {w₀ w w' : World S} {O : List ScopeId}
  {causes : List (Cause S.Error)} {s : ScopeId}

theorem refl (w : World S) : Reached p deep w [] [] w :=
  ⟨[], ⟨rfl, .nil, .nil, nofun, .nil, nofun, nofun⟩, rfl⟩

/-- Plain events change nothing about what is open. -/
theorem extend {v : List (Event S)} (h : Reached p deep w₀ O causes w) (hv : ∀ e ∈ v, e.Plain)
    (hh : w'.history = v.reverse ++ w.history) (hc : Course p [] w.phase v w'.phase) :
    Reached p deep w₀ O causes w' := by
  obtain ⟨u, hu, rfl⟩ := h
  have hb := hu.nested.balanced
  have houter : outer 0 v = v := outer_level fun e he ↦ (hv e he).level
  refine ⟨u ++ v, ⟨?_, hu.course.trans hc, hu.nested.append (.plain hv), fun s hs ↦ ?_, hu.nodup,
    fun s f o he ↦ ?_, fun s hs ↦ ?_⟩, ?_⟩
  · rw [hh, hu.history, List.reverse_append, List.append_assoc]
  · obtain ⟨fs, hfs⟩ := hu.live s hs
    exact hc.stays_open hfs List.not_mem_nil
  · rw [hb.outer_append, houter] at he
    rcases List.mem_append.1 he with he | he
    · exact hb.opens_append.2 (.inl (hu.own s f o he))
    · cases hv _ he
  · rcases hb.opens_append.1 hs with hs | hs
    · exact (hu.outside s hs).append hb (endsOutside_plain hv s)
    · cases hv _ hs.mem
  · rw [hb.outer_append, failures_append, houter, failures_plain hv, List.append_nil]

theorem offers (h : Reached p deep w₀ O causes w) (ho : Offers p w w') :
    Reached p deep w₀ O causes w' := by
  obtain ⟨v, hv, hh, hc⟩ := ho
  exact h.extend hv hh hc

theorem exceeded (h : Reached p deep w₀ O causes w) (b : BudgetId) (limit : Nat) :
    Reached p deep w₀ O causes (w.record (.exceeded b limit)) :=
  h.extend (v := [.exceeded b limit]) (by simp [Event.Plain]) rfl
    (.idle (by simp [Event.Concerns]))

/-- A run or a region opens a scope. -/
theorem enter (h : Reached p deep w₀ O causes w) :
    Reached p deep w₀ (w.enterScope.1 :: O) causes w.enterScope.2 := by
  obtain ⟨u, hu, rfl⟩ := h
  have hb := hu.nested.balanced
  have hphase : w.enterScope.2.phase = phasesWith w.phase w.enterScope.1 (.open []) :=
    w.phase_openScope
  have hunborn : w.phase w.enterScope.1 = .unborn := w.phase_next
  have hcourse : Course p [] (phasesWith w.phase w.enterScope.1 .unborn)
      [.opened w.enterScope.1] (phasesWith w.phase w.enterScope.1 (.open [])) :=
    .event (.opened (.done _)) (fun s' hs' h ↦ hs' h.symm) nofun nofun
  rw [phasesWith_of_eq hunborn, ← hphase] at hcourse
  have hfresh : w.enterScope.1 ∉ O := fun hs ↦ by
    obtain ⟨fs, hfs⟩ := hu.live _ hs
    cases hunborn.symm.trans hfs
  have hunused : ∀ e ∈ u, ¬e.Concerns w.enterScope.1 := by
    have hlives := hu.course.lives w.enterScope.1
    rw [hunborn] at hlives
    exact hlives.to_unborn.2
  have hlevel : Event.Level (.opened w.enterScope.1 : Event S) := fun _ ↦ rfl
  refine ⟨u ++ [.opened w.enterScope.1], ⟨?_, hu.course.trans hcourse, hu.nested.push _, ?_,
    List.nodup_cons.2 ⟨hfresh, hu.nodup⟩, fun s f o he ↦ ?_, fun s hs ↦ ?_⟩, ?_⟩
  · simp [World.enterScope, World.record, World.openScope, hu.history]
  · intro s hs
    rcases List.mem_cons.1 hs with rfl | hs
    · exact ⟨[], by rw [hphase, phasesWith_same]⟩
    · obtain ⟨fs, hfs⟩ := hu.live s hs
      exact hcourse.stays_open hfs List.not_mem_nil
  · rw [hb.outer_append] at he
    rcases List.mem_append.1 he with he | he
    · exact hb.opens_append.2 (.inl (hu.own s f o he))
    · simp [outer] at he
  · refine EndsOutside.append ?_ hb (by simp [EndsOutside, outer, hlevel 0])
    rcases hb.opens_append.1 hs with hs | hs
    · exact hu.outside s hs
    · rcases (Balanced.opens_cons hlevel).1 hs with hs | hs
      · cases hs
        have hnone : endings w.enterScope.1 u = [] := endings_eq_nil fun f o he ↦
          hunused _ (hb.mem_invoked he) rfl
        have hnone' : endings w.enterScope.1 (outer 0 u) = [] := endings_eq_nil fun f o he ↦
          hunused _ (hb.mem_invoked (mem_of_mem_outer he)) rfl
        rw [EndsOutside, hnone, hnone']
      · cases hs.mem
  · rw [hb.outer_append]
    simp [outer, Event.failed?]

/-- The finalizers that wait on an open scope are quiet. -/
theorem quiet (h : Reached p deep w₀ O causes w) (hs : s ∈ O) {fs : List (Finalizer S)}
    (hfs : w.phase s = .open fs) {f : Finalizer S} (hf : f ∈ fs) : f.Quiet p := by
  obtain ⟨u, hu, -⟩ := h
  have hlives := hu.course.lives s
  rw [hfs] at hlives
  rcases hlives.mem_open hf with h | ⟨gs, hgs, -⟩
  · exact hu.course.accepted s f h
  · rw [hgs] at hlives
    exact absurd (hu.nested.opened hs) (hlives.not_opened nofun)

/-- The newest open scope closes, which adds the failures of its finalizers. -/
theorem close {close : Closer S} (hclose : Closes p deep close)
    (h : Reached p deep w₀ (s :: O) causes w) {x : Except Escape (Outcome S.Error Unit)}
    (heq : close s w = (x, w')) (hx : x ≠ .error .exhausted) :
    ∃ more, x = .ok (.ofFailures more) ∧ Reached p deep w₀ O (causes ++ more) w' := by
  have hquiet : ∀ {fs}, w.phase s = .open fs → ∀ f ∈ fs, f.Quiet p :=
    fun hfs f hf ↦ h.quiet List.mem_cons_self hfs hf
  obtain ⟨u, hu, rfl⟩ := h
  obtain ⟨fs, hfs⟩ := hu.live s List.mem_cons_self
  obtain ⟨hs, hnodup⟩ := List.nodup_cons.1 hu.nodup
  have hopens : Opens false s u := hu.nested.opens_newest
  have hopened := hopens.mem
  obtain ⟨v, rfl, hv⟩ := hclose hfs (hquiet hfs) heq hx
  have hb := hu.nested.balanced
  have houter : outer 0 (.closing s :: (v ++ [.closed s])) =
      .closing s :: (outer 0 v ++ [.closed s]) := by
    simp [outer, Event.depth, hv.orderly.balanced.outer_append]
  refine ⟨_, rfl, u ++ .closing s :: (v ++ [.closed s]), ⟨?_, ?_, hu.nested.pop hv.orderly,
    fun s' hs' ↦ ?_, hnodup, fun s' f o he ↦ ?_, fun s' hs' ↦ ?_⟩, ?_⟩
  · rw [hv.history, hu.history, List.reverse_append, List.append_assoc]
  · exact (hu.course.mono.trans hv.course).absorb (List.mem_append_left _ hopened)
  · obtain ⟨gs, hgs⟩ := hu.live s' (List.mem_cons_of_mem _ hs')
    refine hv.course.stays_open hgs fun h ↦ ?_
    cases List.mem_singleton.1 h
    exact hs hs'
  · refine hb.opens_append.2 (.inl ?_)
    rw [hb.outer_append, houter] at he
    rcases List.mem_append.1 he with he | he
    · exact hu.own s' f o he
    · have hv' : .ended s' f o ∈ outer 0 v := by simpa using he
      rcases hv.outer _ hv' with ⟨g, ⟨⟩⟩ | ⟨g, r, ⟨⟩⟩
      exact hopens
  · rcases hb.opens_append.1 hs' with hs' | hs'
    · have hborn : w.phase s' ≠ .unborn := fun hunborn ↦ by
        have hlives := hu.course.lives s'
        rw [hunborn] at hlives
        exact hlives.to_unborn.2 _ hs'.mem rfl
      refine (hu.outside s' hs').append hb ?_
      have hv' : endings s' v = endings s' (outer 0 v) := hv.outside s' hborn
      simp only [EndsOutside, houter, endings, List.filterMap_cons, List.filterMap_append] at hv' ⊢
      simp [Event.ended?, hv']
    · have hv' : .opened s' ∈ outer 0 v := by
        simpa [Opens, houter] using hs'
      rcases hv.outer _ hv' with ⟨g, ⟨⟩⟩ | ⟨g, r, ⟨⟩⟩
  · rw [hb.outer_append, houter]
    simp [Event.failed?]

end Reached

/-! ### Runs -/

namespace Host

/-- An abort closes all scopes on the stack. -/
theorem abort_reached {h : Host S} {deep : Bool} (hclose : Closes h.program deep h.close)
    {w₀ w w' : World S} {R : List ScopeId} {stack : List (Frame S)} {causes : List (Cause S.Error)}
    (hw : Reached h.program deep w₀ (openScopes stack ++ R) causes w) {cause : Cause S.Error}
    {x : Except Escape (Cause S.Error)} (heq : h.abort stack cause w = (x, w'))
    (hx : x ≠ .error .exhausted) :
    ∃ cause' causes', x = .ok cause' ∧ Reached h.program deep w₀ R causes' w' := by
  induction stack generalizing cause causes w with
  | nil =>
    cases heq
    exact ⟨cause, causes, rfl, hw⟩
  | cons f rest ih =>
    cases f with
    | closeScope s parent =>
      rw [abort, closing, bind_assoc] at heq
      rcases Machine.bind_eq heq with ⟨o, w₁, ho, heq⟩ | ⟨e, he, rfl⟩
      · obtain ⟨more, -, hw₁⟩ := hw.close hclose ho (by simp)
        rcases o with c | ⟨⟩
        · exact ih hw₁ heq
        · exact ih hw₁ heq
      · obtain ⟨more, ⟨⟩, -⟩ := hw.close hclose he (Escape.ne_exhausted hx)
    | resume | recover | restoreContext | retry | timeout | parallel | race => exact ih hw heq

end Host

namespace Interpreter

variable {it : Interpreter S} {close : Closer S} {deep : Bool} {w₀ w w' : World S}
  {O R : List ScopeId} {causes : List (Cause S.Error)} {st st' : State S} {b : BudgetId}

section Moves

variable (hr : it.registry = .standard) (hσ : it.strategy.Quiet it.program)
  (hclose : Closes it.program deep close)
include hr hσ hclose

/-- A move keeps the scopes that the stack will close open, and closes all others. It panics only if
the strategy does. -/
theorem move_reached (hst : st.Sound it.program.Quiet)
    (hw : Reached it.program deep w₀ (openScopes st.stack ++ R) causes w)
    {x : Except Escape (State S)} (heq : it.move close st w = (x, w'))
    (hx : x ≠ .error .exhausted) :
    (∃ st' causes', x = .ok st' ∧ st'.Sound it.program.Quiet ∧
      Reached it.program deep w₀ (openScopes st'.stack ++ R) causes' w') ∨
      ∃ pn, x = .error (.panic pn) ∧ ¬it.strategy.Steady ∧
        Reached it.program deep w₀ (openScopes st.stack ++ R) causes w' := by
  have D := Discipline.quiet (h := it.host close) hσ (Program.hereditary_quiet _)
  cases move_cases D hr hst heq hx with
  | inside _ hoffers hok hpanic =>
    have hreached := hw.offers hoffers
    rcases x with (p | _) | st'
    · exact .inr ⟨p, rfl, hpanic p rfl, hreached⟩
    · exact absurd rfl hx
    · have hfollows := hok st' rfl
      refine .inl ⟨st', causes, rfl, hfollows.toSound, ?_⟩
      rw [hfollows.scopes]
      exact hreached
  | registered hc hfollows =>
    refine .inl ⟨_, causes, rfl, hfollows.toSound, ?_⟩
    rw [hfollows.scopes]
    exact hw.offers (Offers.register (Program.hereditary_quiet _) hst hc w)
  | entered hc hoffers hst' hbudget hscope hregions =>
    refine .inl ⟨_, causes, rfl, hst', ?_⟩
    rw [openScopes, hregions]
    exact hw.enter.offers hoffers
  | left hs hc hclosed hy hok =>
    rw [hs] at hw
    obtain ⟨more, rfl, hw'⟩ := hw.close hclose hclosed fun he ↦ hx (by rw [hy, he]; rfl)
    exact .inl ⟨_, _, hy, hok _ hy, hw'⟩

/-- At every moment of a run the scopes that the stack will close are open, and all others that were
opened have been closed. -/
theorem Moves.reached (h : it.Moves close b st w st' w') (hst : st.Sound it.program.Quiet)
    (hw : Reached it.program deep w₀ (openScopes st.stack ++ R) causes w) :
    st'.Sound it.program.Quiet ∧
      ∃ causes', Reached it.program deep w₀ (openScopes st'.stack ++ R) causes' w' := by
  induction h with
  | refl => exact ⟨hst, causes, hw⟩
  | tick _ ih =>
    obtain ⟨hst', causes', hw'⟩ := ih hw
    exact ⟨hst', causes', hw'.offers (.silent rfl rfl)⟩
  | move _ hm ih =>
    obtain ⟨hst', causes', hw'⟩ := ih hw
    rcases move_reached hr hσ hclose hst' hw' hm nofun with
      ⟨st'', causes'', ⟨⟩, hst'', hw''⟩ | ⟨pn, ⟨⟩, -⟩
    exact ⟨hst'', causes'', hw''⟩

/-- When the loop ends no scope of the stack is open, unless the strategy has panicked. -/
theorem drive_reached (hst : st.Sound it.program.Quiet)
    (hw : Reached it.program deep w₀ (openScopes st.stack ++ R) causes w) {fuel : Nat}
    {x : Except Escape (Outcome S.Error Value)} (heq : it.drive close b fuel st w = (x, w'))
    (hx : x ≠ .error .exhausted) :
    (∃ o causes', x = .ok o ∧ Reached it.program deep w₀ R causes' w') ∨
      ∃ pn O causes', x = .error (.panic pn) ∧ ¬it.strategy.Steady ∧
        Reached it.program deep w₀ O causes' w' := by
  obtain ⟨st₁, w₁, hmoves, hend⟩ := drive_ends heq hx
  obtain ⟨hst₁, causes₁, hw₁⟩ := hmoves.reached hr hσ hclose hst hw
  cases hend with
  | settled hs =>
    rw [hs] at hw₁
    exact .inl ⟨_, causes₁, rfl, hw₁⟩
  | aborted hl ha =>
    rename_i limit y
    have hticked : Reached it.program deep w₀ _ causes₁ (w₁.modifyBudget b Budget.tick) :=
      hw₁.offers (.silent rfl rfl)
    have hexceeded := hticked.exceeded b limit
    have hw₂ : Reached it.program deep w₀ _ causes₁ (((w₁.modifyBudget b Budget.tick).record
        (.exceeded b limit)).modifyBudget st₁.budget Budget.beginAbort) :=
      hexceeded.offers (.silent rfl rfl)
    change ((it.host close).abort st₁.stack (.defect (.stepLimitExceeded limit)) >>= fun cause ↦
      Machine.modify (fun w ↦ w.modifyBudget st₁.budget Budget.endAbort) >>= fun _ ↦ pure cause)
        (((w₁.modifyBudget b Budget.tick).record (.exceeded b limit)).modifyBudget st₁.budget
          Budget.beginAbort) = _ at ha
    rcases Machine.bind_eq ha with ⟨c, w₃, hc, ha⟩ | ⟨e, he, rfl⟩
    · obtain ⟨cause', causes', ⟨⟩, hw₃⟩ :=
        Host.abort_reached (h := it.host close) hclose hw₂ hc nofun
      cases ha
      exact .inl ⟨_, causes', rfl, hw₃.offers (.silent rfl rfl)⟩
    · obtain ⟨cause', causes', ⟨⟩, -⟩ := Host.abort_reached (h := it.host close) hclose hw₂ he
        fun he ↦ hx (by rw [Except.error.inj he]; rfl)
  | panicked hm =>
    rcases move_reached hr hσ hclose hst₁ hw₁ hm nofun with ⟨st'', causes'', ⟨⟩, -⟩ |
      ⟨_, ⟨⟩, hsteady, hw''⟩
    exact .inr ⟨_, _, causes₁, rfl, hsteady, hw''⟩

/-- When an interpretation ends everything that it opened is closed, unless the strategy has
panicked. -/
theorem interpretWith_reached {fuel : Nat} {node : Node S} (hnode : it.program.Quiet node)
    (context : Context) {x : Except Escape (Outcome S.Error Value)}
    (heq : it.interpretWith close fuel node context b w = (x, w')) (hx : x ≠ .error .exhausted) :
    (∃ o causes', x = .ok o ∧ Reached it.program deep w [] causes' w') ∨
      ∃ pn O causes', x = .error (.panic pn) ∧ ¬it.strategy.Steady ∧
        Reached it.program deep w O causes' w' := by
  have hstart : (State.start node context w.enterScope.1 b).Sound it.program.Quiet := by
    refine ⟨?_, nofun⟩
    rintro _ ⟨⟩
    exact hnode
  have hentered : Reached it.program deep w [w.enterScope.1] [] w.enterScope.2 :=
    (Reached.refl w).enter
  rcases Machine.inScope_eq heq with ⟨o, w₁, ho, hroot⟩ | ⟨e, he, rfl⟩
  · rcases drive_reached hr hσ hclose hstart hentered ho nofun with
      ⟨o, causes', ⟨⟩, hw₁⟩ | ⟨pn, O, causes', ⟨⟩, -⟩
    rcases hroot with ⟨r, hc, rfl⟩ | ⟨e, he, rfl⟩
    · obtain ⟨more, -, hw₂⟩ := hw₁.close hclose hc nofun
      exact .inl ⟨_, _, rfl, hw₂⟩
    · obtain ⟨more, ⟨⟩, -⟩ := hw₁.close hclose he (Escape.ne_exhausted hx)
  · rcases drive_reached hr hσ hclose hstart hentered he (Escape.ne_exhausted hx) with
      ⟨o, causes', ⟨⟩, -⟩ | ⟨pn, O, causes', ⟨⟩, h⟩
    exact .inr ⟨pn, O, causes', rfl, h⟩

/-- Interpreting release effects does as it should if closing scopes does. -/
theorem interpretWith_releases (hsteady : deep = true → it.strategy.Steady) (fuel : Nat) :
    Releases it.program deep (it.interpretWith close fuel) := by
  intro node context b w x w' hnode heq hx
  rcases interpretWith_reached hr hσ hclose hnode context heq hx with
    ⟨o, causes, -, u, hu, -⟩ | ⟨pn, O, causes, -, hpanic, u, hu, -⟩
  · exact ⟨u, hu.history, hu.course, hu.nested.balanced, fun _ ↦ hu.nested⟩
  · exact ⟨u, hu.history, hu.course, hu.nested.balanced, fun hd ↦ absurd (hsteady hd) hpanic⟩

end Moves

/-- Scopes are closed as they should. With less fuel for each of the two, closing them and
interpreting release effects do as they should in turn. -/
theorem closeScope_closes (hr : it.registry = .standard) (hσ : it.strategy.Quiet it.program)
    (htidy : it.program.Tidy) (hsteady : deep = true → it.strategy.Steady) (fuel : Nat) :
    Closes it.program deep (it.closeScope fuel) := by
  induction fuel with
  | zero =>
    intro s fs w x w' _ _ heq hx
    cases heq
    exact absurd rfl hx
  | succ fuel ih =>
    exact Host.shut_closes (h := it.host (it.closeScope fuel)) hσ htidy
      (interpretWith_releases hr hσ ih hsteady fuel)

end Interpreter

end EffectMachine
