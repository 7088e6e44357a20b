import EffectMachine.Proofs.Spending

/-!
# The step limit is transparent until it is exceeded

A run under a step limit is compared with the run of the same effect, in the same world, without the
limit. Either no step exceeds the limit, and then the two runs are the same
(`Interpreter.WithinLimit`); or some step does, and then the two are the same up to the first one,
from which the limited run does not recover (`Interpreter.BeyondLimit`).

A step may exceed the limit in a release effect, while a scope closes. So the comparison is by
induction on the depth to which scopes may close in each other: closing scopes compares if
interpreting release effects does (`Interpreter.closes_succ`), and interpretations compare if
closing scopes does (`Interpreter.runs_alike`).

**What may go on for ever.** An abort runs release effects exempt from the limit, and nothing makes
them end. So that a limited run ends once a step has exceeded the limit is said under an exception
(`BeyondLimit.ends`), and the exception does arise.

**Fuel.** A step that is within the limit has been paid for by the limit, and a release effect is
interpreted only after a step of the run that registered it. So `n + 2` is fuel enough to come to
the first step that exceeds a limit of `n`, and to start release effects after it.
-/

namespace EffectMachine

variable {S : Signature} {α : Type}

open Machine (Along Firm)

theorem Budget.exceeds_none (b : Budget) : b.exceeds none = none := rfl

namespace Interpreter

variable {it : Interpreter S} {b : BudgetId} {n fuel d : Nat} {root : ScopeId} {st st' : State S}
  {w w' : World S}

/-- Interpreting quiet effects compares with interpreting them without the limit. -/
def RunsAlike (it : Interpreter S) (b : BudgetId) (n fuel d : Nat) : Prop :=
  ∀ ⦃node : Node S⦄ (context : Context) ⦃w : World S⦄, it.program.Quiet node → Unspent b n w →
    (Ample n fuel → fuel ≤ d + (w.budget b).used) →
      it.Compares b n fuel d (.running node context) w (w.budget b).used
        (Outcome.Carries (.stepLimitExceeded n)) (it.interpretOn d node context b w)
        (it.unlimited.interpretOn d node context b w)

/-- Closing scopes of the run compares with closing them without the limit. -/
def ClosesAlike (it : Interpreter S) (b : BudgetId) (n fuel d : Nat) : Prop :=
  ∀ ⦃s : ScopeId⦄ ⦃w : World S⦄, Held it.program b w s → Unspent b n w →
    (Ample n fuel → fuel < d + (w.budget b).used) →
      it.Compares b n fuel d (.closing s) w (w.budget b).used
        (Outcome.Carries (.stepLimitExceeded n)) (it.closeScope d s w)
        (it.unlimited.closeScope d s w)

/-! ### Closing scopes -/

section

variable (hit : it.Limited n) (hruns : it.RunsAlike b n fuel d)
  (hroom : Ample n fuel → fuel ≤ d + (w.budget b).used)
include hit hruns hroom

/-- Building and interpreting a release effect that is due. -/
theorem release_compares {s : ScopeId} {build : Action S (Plan S)} {context : Context}
    (fs : List (Finalizer S)) (hquiet : it.program.Quiet (.finalizer build)) (hw : Unspent b n w) :
    it.Compares b n fuel d (.invoking s (.release build context b :: fs)) w (w.budget b).used
      (Outcome.Carries (.stepLimitExceeded n))
      ((it.host (it.closeScope d)).finalize (it.interpretOn d) (.release build context b)
        (w.record (.invoked s (.release build context b))))
      ((it.unlimited.host (it.unlimited.closeScope d)).finalize (it.unlimited.interpretOn d)
        (.release build context b) (w.record (.invoked s (.release build context b)))) := by
  have hfirm := (it.host (it.closeScope d)).build_firm (it.unlimited.closeScope d)
    (Program.Descends.first hquiet)
  have D := Discipline.calm (h := it.host (it.closeScope d)) hit.quiet
  have hbuild : Along World.Calm False ((it.host (it.closeScope d)).build build)
      (Built it.program.Quiet) := (D.obeys (.finalizer build) hquiet).build
  have hbuilt : it.Compares b n fuel d (.invoking s (.release build context b :: fs)) w
      (w.budget b).used (fun _ ↦ False)
      ((it.host (it.closeScope d)).build build (w.record (.invoked s (.release build context b))))
      ((it.unlimited.host (it.unlimited.closeScope d)).build build
        (w.record (.invoked s (.release build context b)))) :=
    .calm (hw.of_budgets rfl) (.record w nofun) hfirm hbuild fun _ ↦ Nat.le_refl _
  refine hbuilt.bind (fun x w₁ hx hx' hw₁ hunexceeded hused ↦ ?_) fun _ _ _ h ↦ h.elim
  cases x with
  | error defect => exact .pure hw₁ hunexceeded hused
  | ok node =>
    -- building counts no step, so the limit can only be exceeded in the release effect
    have hnode : it.program.Quiet node := (hbuild hx nofun).2.1 _ rfl node rfl
    have hleads : it.Leads b d (.invoking s (.release build context b :: fs)) w d
        (.running node context) w₁ := ⟨.releases hx, .releases hx', hunexceeded⟩
    have hroom₁ : Ample n fuel → fuel ≤ d + (w₁.budget b).used := fun hample ↦
      Nat.le_trans (hroom hample) (Nat.add_le_add_left (hused hample) d)
    have hrun := (hruns context hnode hw₁ hroom₁).leads hleads
    refine hrun.bind (fun o w₂ _ _ hw₂ hunexceeded₂ hused₂ ↦ ?_) fun o w₂ _ ho hw₂ ↦ ?_
    · exact .pure hw₂ hunexceeded₂ fun hample ↦ Nat.le_trans (hused hample) (hused₂ hample)
    · refine .pure ?_ hw₂
      rcases o with cause | v
      · exact ho
      · exact ho.elim

/-- Invoking a finalizer that is due. -/
theorem invoke_compares {s : ScopeId} {f : Finalizer S} (fs : List (Finalizer S))
    (hf : f.Due it.program b) (hw : Unspent b n w) :
    it.Compares b n fuel d (.invoking s (f :: fs)) w (w.budget b).used
      (Outcome.Carries (.stepLimitExceeded n))
      ((it.host (it.closeScope d)).invoke (it.interpretOn d) s f w)
      ((it.unlimited.host (it.unlimited.closeScope d)).invoke (it.unlimited.interpretOn d) s f
        w) := by
  have hfinalize : it.Compares b n fuel d (.invoking s (f :: fs)) w (w.budget b).used
      (fun x ↦ ∃ o, x = .ok o ∧ o.Carries (.stepLimitExceeded n))
      (((it.host (it.closeScope d)).finalize (it.interpretOn d) f).guard (w.record (.invoked s f)))
      (((it.unlimited.host (it.unlimited.closeScope d)).finalize (it.unlimited.interpretOn d)
        f).guard (w.record (.invoked s f))) := by
    cases f with
    | cleanup c =>
      have hfirm := (it.host (it.closeScope d)).perform_firm (it.unlimited.closeScope d)
        (hit.tidy c)
      have hcalm := (it.host (it.closeScope d)).perform_along World.Calm.drift
        (it.program.cleanup c) (.inl (hit.tidy c)) (.inr World.Calm.takeOutcome)
      exact .calm (hw.of_budgets rfl) (.record w nofun) hfirm.guard hcalm.guard
        fun _ ↦ Nat.le_refl _
    | release build context b' =>
      obtain rfl := hf.budget build context b' rfl
      exact (release_compares hit hruns hroom fs hf.quiet hw).guard
  refine hfinalize.bind (fun x w₁ _ _ hw₁ hunexceeded hused ↦ ?_) ?_
  · have hended : w₁.Unexceeded (w₁.record (.ended s f (.ofGuarded x))) := .record w₁ nofun
    exact .pure (hw₁.of_budgets rfl) (hunexceeded.trans hended) hused
  · rintro _ w₁ - ⟨o, rfl, ho⟩ hw₁
    exact .pure ho (hw₁.of_budget rfl)

end

section

variable (hit : it.Limited n) (hruns : it.RunsAlike b n fuel d)
include hit hruns

/-- Invoking finalizers that are due, one after the other. -/
theorem invokeAll_compares {s : ScopeId} {fs : List (Finalizer S)}
    (hfs : ∀ f ∈ fs, f.Due it.program b) (hw : Unspent b n w)
    (hroom : Ample n fuel → fuel ≤ d + (w.budget b).used) :
    it.Compares b n fuel d (.invoking s fs) w (w.budget b).used
      (fun causes ↦ .defect (.stepLimitExceeded n) ∈ Cause.flattenAll causes)
      ((it.host (it.closeScope d)).invokeAll (it.interpretOn d) s fs w)
      ((it.unlimited.host (it.unlimited.closeScope d)).invokeAll (it.unlimited.interpretOn d) s
        fs w) := by
  induction fs generalizing w with
  | nil => exact .pure hw (.silent rfl) fun _ ↦ Nat.le_refl _
  | cons f fs ih =>
    obtain ⟨hf, hfs⟩ := List.forall_mem_cons.1 hfs
    rw [Host.invokeAll_cons, Host.invokeAll_cons]
    have hinvoke := invoke_compares hit hruns hroom (s := s) fs hf hw
    refine hinvoke.bind (fun o w₁ ho ho' hw₁ hunexceeded hused ↦ ?_) fun o w₁ ho hcarries hw₁ ↦ ?_
    · have hleads : it.Leads b d (.invoking s (f :: fs)) w d (.invoking s fs) w₁ :=
        ⟨.invoked ho, .invoked ho', hunexceeded⟩
      have hroom₁ : Ample n fuel → fuel ≤ d + (w₁.budget b).used := fun hample ↦
        Nat.le_trans (hroom hample) (Nat.add_le_add_left (hused hample) d)
      have hrest := (ih hfs hw₁ hroom₁).leads hleads
      refine hrest.bind (fun causes w₂ _ _ hw₂ hunexceeded₂ hused₂ ↦ ?_)
        fun causes w₂ _ hcauses hw₂ ↦ .pure ?_ hw₂
      · exact .pure hw₂ hunexceeded₂ fun hample ↦ Nat.le_trans (hused hample) (hused₂ hample)
      · rw [Cause.flattenAll_append]
        exact List.mem_append_right _ hcauses
    · have hd : Ample n fuel → 1 ≤ d := fun hample ↦
        Nat.le_of_succ_le (hample.two_le hw (hroom hample))
      -- the first failure carries the defect, and whatever the other finalizers do is added to it
      refine (invokeAll_doomed hit hw₁ hfs hd).bind fun causes w₂ _ _ hw₂ ↦ .pure ?_ hw₂
      rw [Cause.flattenAll_append]
      refine List.mem_append_left _ ?_
      rcases o with cause | ⟨⟩
      · have hcause : .defect (.stepLimitExceeded n) ∈ cause.flatten := hcarries
        simpa [Event.failed?, Cause.flattenAll] using hcause
      · exact hcarries.elim

/-- Closing a scope, given how release effects are interpreted. -/
theorem closes_succ : it.ClosesAlike b n fuel (d + 1) := by
  intro s w hs hw hroom
  change it.Compares b n fuel (d + 1) (.closing s) w (w.budget b).used _
    ((it.host (it.closeScope d)).shut (it.interpretOn d) s w)
    ((it.unlimited.host (it.unlimited.closeScope d)).shut (it.unlimited.interpretOn d) s w)
  rw [Host.shut, Host.shut, Machine.bind_ok (Machine.gets_apply _ w),
    Machine.bind_ok (Machine.gets_apply _ w)]
  cases hc : (w.scope s).closed with
  | true => exact .pure hw (.silent rfl) fun _ ↦ Nat.le_refl _
  | false =>
    have hleads : it.Leads b (d + 1) (.closing s) w d (.invoking s (w.scope s).finalizers)
        (w.shutScope s) := ⟨.closes hc, .closes hc, .record _ (by simp)⟩
    have hroom₁ : Ample n fuel → fuel ≤ d + ((w.shutScope s).budget b).used := fun hample ↦ by
      have hroom := hroom hample
      change fuel ≤ d + (w.budget b).used
      omega
    have hinvoke := (invokeAll_compares hit hruns (s := s) hs.due
      (hw.of_budgets rfl : Unspent b n (w.shutScope s)) hroom₁).leads hleads
    refine hinvoke.bind (fun causes w₁ _ _ hw₁ hunexceeded hused ↦ ?_)
      fun causes w₁ _ hcauses hw₁ ↦ ?_
    · have hclosed : w₁.Unexceeded (w₁.record (.closed s)) := .record w₁ (by simp)
      cases causes with
      | nil => exact .pure (hw₁.of_budgets rfl) (hunexceeded.trans hclosed) hused
      | cons c cs => exact .pure (hw₁.of_budgets rfl) (hunexceeded.trans hclosed) hused
    · have hclosed : Spent b n (w₁.record (.closed s)) := hw₁.of_budget rfl
      cases causes with
      | nil => cases hcauses
      | cons c cs =>
        refine Doomed.pure ?_ hclosed
        change _ ∈ (Cause.composite (c :: cs)).flatten
        rwa [Cause.flatten_composite]

end

/-! ### Rounds -/

section

variable (hit : it.Limited n) (hcloses : it.ClosesAlike b n fuel d)
include hit

omit hit in
/-- A failure falls on the frame of a region, whose scope closes. -/
theorem fall_closeScope (it : Interpreter S) {close : Closer S} {s : ScopeId} (parent : ScopeId)
    (cause : Cause S.Error) (st : State S) {r : Outcome S.Error Unit}
    (hr : close s w = (.ok r, w')) :
    ∃ c, Outcome.merge (.error cause : Outcome S.Error Value) r = .error c ∧
      (it.host close).fall (.closeScope s parent) cause st w =
        (.ok (.on c { st with scope := parent }), w') := by
  simp only [Host.fall, Host.closing, host, bind_assoc]
  rw [Machine.bind_ok hr]
  rcases r with failures | ⟨⟩
  · exact ⟨cause.combine failures, rfl, rfl⟩
  · exact ⟨cause, rfl, rfl⟩

/-- A move that leaves no region is the same whatever the limit, and budgets are left alone. -/
theorem move_calm (hst : st.Sound it.program.Quiet) (close : Closer S)
    (hleaves : ∀ s parent rest o, st.stack = .closeScope s parent :: rest →
      st.control ≠ .ofOutcome o) :
    Along World.Calm False (it.move close st) fun _ ↦ True := by
  intro w x w' heq hx
  have D := Discipline.calm (h := it.host close) hit.quiet
  cases move_cases D hit.registry hst heq hx with
  | inside _ hcalm _ hpanic => exact ⟨hcalm, fun _ _ ↦ trivial, fun p hp ↦ hpanic p hp hit.steady⟩
  | registered _ _ => exact ⟨.addFinalizer w _ _, fun _ _ ↦ trivial, nofun⟩
  | entered _ hcalm _ _ _ _ =>
    exact ⟨World.Calm.drift.trans (.enterScope w) hcalm, fun _ _ ↦ trivial, nofun⟩
  | left hs hc _ _ _ => exact absurd hc (hleaves _ _ _ _ hs)

theorem resume_same {f : Frame S} {rest : List (Frame S)} (hst : st.Sound it.program.Quiet)
    (hs : st.stack = f :: rest) (hclose : ∀ s parent, f ≠ .closeScope s parent) (v : Value)
    (close close' : Closer S) :
    Firm ((it.host close).resume f v { st.awaiting with stack := rest })
      ((it.unlimited.host close').resume f v { st.awaiting with stack := rest }) := by
  have hf : f.From it.program.Quiet := hst.stack f (by rw [hs]; exact List.mem_cons_self)
  exact (it.host close).resume_firm close' hit.quiet _ hf hclose v

include hcloses

/-- Leaving a region, whatever is done with its outcome then. -/
theorem leaving_compares {s parent : ScopeId} {rest : List (Frame S)}
    {o : Outcome S.Error Value} (hs : st.stack = .closeScope s parent :: rest)
    (hc : st.control = .ofOutcome o) (hin : it.Inside b d root st w) (hw : Unspent b n w)
    (hroom : Ample n fuel → fuel < d + (w.budget b).used)
    (hgoes : ∀ r w₁, it.closeScope d s w = (.ok r, w₁) →
      it.unlimited.closeScope d s w = (.ok r, w₁) → Unspent b n w₁ → w.Unexceeded w₁ →
        (Ample n fuel → (w.budget b).used ≤ (w₁.budget b).used) →
          it.Compares b n fuel d (.acting st) w (w.budget b).used (Progress.Goes n)
            (it.leaving (it.closeScope d) st rest parent o r w₁)
            (it.unlimited.leaving (it.unlimited.closeScope d) st rest parent o r w₁)) :
    it.Compares b n fuel d (.acting st) w (w.budget b).used (Progress.Goes n)
      (it.advance (it.closeScope d) st w)
      (it.unlimited.advance (it.unlimited.closeScope d) st w) := by
  rw [advance_closeScope hs hc, advance_closeScope hs hc]
  have hheld : Held it.program b w s := hin.held hit.tame (by rw [hs]; exact List.mem_cons_self)
  have hleads : it.Leads b d (.acting st) w d (.closing s) w :=
    ⟨.leaves hs hc, .leaves hs hc, .silent rfl⟩
  refine ((hcloses hheld hw hroom).leads hleads).bind hgoes fun r w₁ hr hcarries hw₁ ↦ ?_
  have hd : Ample n fuel → 2 ≤ d := fun hample ↦ hample.two_le hw (Nat.le_of_lt (hroom hample))
  cases o with
  | ok v => exact .pure trivial hw₁
  | error cause =>
    obtain ⟨failures, rfl⟩ : ∃ failures, r = .error failures := by
      rcases r with failures | ⟨⟩
      · exact ⟨failures, rfl⟩
      · exact hcarries.elim
    have hcause : Outcome.Carries (.stepLimitExceeded n)
        (Outcome.merge (.error cause : Outcome S.Error Value) (.error failures)) :=
      .merge (.inr hcarries)
    exact advance_doomed hit hd rfl rfl hcause (hin.leaves hs hc hr) hw₁

/-- A failure falls on one frame after the other until one recovers. -/
theorem failure_compares {stack : List (Frame S)} (hs : st.stack = stack) {cause : Cause S.Error}
    (hc : st.control = .failure cause) (hin : it.Inside b d root st w) (hw : Unspent b n w)
    (hroom : Ample n fuel → fuel < d + (w.budget b).used) :
    it.Compares b n fuel d (.acting st) w (w.budget b).used (Progress.Goes n)
      (it.advance (it.closeScope d) st w)
      (it.unlimited.advance (it.unlimited.closeScope d) st w) := by
  induction stack generalizing st cause w with
  | nil =>
    obtain ⟨context, _, scope, _, b'⟩ := st
    cases hs
    cases hc
    exact .pure hw (.silent rfl) fun _ ↦ Nat.le_refl _
  | cons f rest ih =>
    -- what the frame lets pass falls on the next one
    have hon : ∀ {c st' w₁}, (it.host (it.closeScope d)).fall f cause
        { st with stack := rest, control := .pending } w = (.ok (.on c st'), w₁) →
      (it.unlimited.host (it.unlimited.closeScope d)).fall f cause
        { st with stack := rest, control := .pending } w = (.ok (.on c st'), w₁) →
      Unspent b n w₁ → w.Unexceeded w₁ →
      (Ample n fuel → (w.budget b).used ≤ (w₁.budget b).used) →
        it.Compares b n fuel d (.acting st) w (w.budget b).used (Progress.Goes n)
          (it.advance (it.closeScope d) ({ st' with stack := rest }.fail c) w₁)
          (it.unlimited.advance (it.unlimited.closeScope d) ({ st' with stack := rest }.fail c)
            w₁) := by
      intro c st' w₁ hx hx' hw₁ hunexceeded hused
      have hleads :
          it.Leads b d (.acting st) w d (.acting ({ st' with stack := rest }.fail c)) w₁ :=
        ⟨.falls hc hs hx, .falls hc hs hx', hunexceeded⟩
      have hroom₁ : Ample n fuel → fuel < d + (w₁.budget b).used := fun hample ↦
        Nat.lt_of_lt_of_le (hroom hample) (Nat.add_le_add_left (hused hample) d)
      exact ((ih rfl rfl (hin.falls hs hc hx) hw₁ hroom₁).leads hleads).weaken hused fun _ ↦ id
    by_cases hclose : ∃ s parent, f = .closeScope s parent
    · obtain ⟨s, parent, rfl⟩ := hclose
      have hc' : st.control = .ofOutcome (.error cause) := hc
      refine leaving_compares hit hcloses hs hc' hin hw hroom
        fun r w₁ hr hr' hw₁ hunexceeded hused ↦ ?_
      obtain ⟨c, hmerge, hx⟩ := fall_closeScope it parent cause
        { st with stack := rest, control := .pending } hr
      obtain ⟨c', hmerge', hx'⟩ := fall_closeScope it.unlimited parent cause
        { st with stack := rest, control := .pending } hr'
      cases hmerge.symm.trans hmerge'
      rw [leaving, leaving, hmerge]
      exact hon hx hx' hw₁ hunexceeded hused
    · have hclose : ∀ s parent, f ≠ .closeScope s parent := fun s parent hf ↦
        hclose ⟨s, parent, hf⟩
      have hst := hin.sound hit.tame
      have hfirm := fall_same hit (it.closeScope d) hst hs hclose cause (it.unlimited.closeScope d)
      have hcalm := fall_calm hit (it.closeScope d) hst hs hclose cause
      have hfall : it.Compares b n fuel d (.acting st) w (w.budget b).used (fun _ ↦ False) _ _ :=
        .calm hw (.silent rfl) hfirm hcalm fun _ ↦ Nat.le_refl _
      rw [advance_failure hs hc, advance_failure hs hc]
      refine hfall.bind (fun x w₁ hx hx' hw₁ hunexceeded hused ↦ ?_) fun _ _ _ h ↦ h.elim
      cases x with
      | caught st' => exact .pure hw₁ hunexceeded hused
      | on c st' => exact hon hx hx' hw₁ hunexceeded hused

omit hit hcloses in
/-- A move that is the same whatever the limit, after which the loop goes on. -/
theorem running_compares {m m' : Machine S (State S)} (hfirm : Firm m m')
    (halong : Along World.Calm False m fun _ ↦ True) (hw : Unspent b n w) :
    it.Compares b n fuel d (.acting st) w (w.budget b).used (Progress.Goes n)
      ((m >>= fun st ↦ pure (Progress.running st)) w)
      ((m' >>= fun st ↦ pure (Progress.running st)) w) := by
  have hmove :
      it.Compares b n fuel d (.acting st) w (w.budget b).used (fun _ ↦ False) (m w) (m' w) :=
    .calm hw (.silent rfl) hfirm halong fun _ ↦ Nat.le_refl _
  refine hmove.bind (fun st' w₁ _ _ hw₁ hunexceeded hused ↦ ?_) fun _ _ _ h ↦ h.elim
  exact .pure hw₁ hunexceeded hused

/-- Acting on what is held in hand. -/
theorem advance_compares (hin : it.Inside b d root st w) (hw : Unspent b n w)
    (hroom : Ample n fuel → fuel < d + (w.budget b).used) :
    it.Compares b n fuel d (.acting st) w (w.budget b).used (Progress.Goes n)
      (it.advance (it.closeScope d) st w)
      (it.unlimited.advance (it.unlimited.closeScope d) st w) := by
  have hst := hin.sound hit.tame
  cases hc : st.control with
  | failure cause => exact failure_compares hit hcloses rfl hc hin hw hroom
  | effect node =>
    have hcalm := move_calm hit hst (it.closeScope d) fun _ _ _ o _ ho ↦ by
      rw [hc] at ho
      cases o <;> cases ho
    obtain ⟨context, stack, scope, _, b'⟩ := st
    cases hc
    have hfirm := dispatch_firm (it.closeScope d) (it.unlimited.closeScope d) hit.registry hit.quiet
      (hst.control node rfl) ⟨context, stack, scope, .pending, b'⟩
    exact running_compares hfirm hcalm hw
  | pending =>
    obtain ⟨context, stack, scope, _, b'⟩ := st
    cases hc
    exact .pure hw (.silent rfl) fun _ ↦ Nat.le_refl _
  | value v =>
    have hc' : st.control = .ofOutcome (.ok v) := hc
    cases hs : st.stack with
    | nil =>
      obtain ⟨context, _, scope, _, b'⟩ := st
      cases hs
      cases hc
      exact .pure hw (.silent rfl) fun _ ↦ Nat.le_refl _
    | cons f rest =>
      by_cases hclose : ∃ s parent, f = .closeScope s parent
      · obtain ⟨s, parent, rfl⟩ := hclose
        exact leaving_compares hit hcloses hs hc' hin hw hroom
          fun r w₁ _ _ hw₁ hunexceeded hused ↦ .pure hw₁ hunexceeded hused
      · have hclose : ∀ s parent, f ≠ .closeScope s parent := fun s parent hf ↦
          hclose ⟨s, parent, hf⟩
        have hcalm := move_calm hit hst (it.closeScope d) fun s parent _ _ hs' _ ↦ by
          rw [hs] at hs'
          exact hclose s parent (List.cons.inj hs').1
        have hfirm := resume_same hit hst hs hclose v (it.closeScope d) (it.unlimited.closeScope d)
        obtain ⟨context, _, scope, _, b'⟩ := st
        cases hs
        cases hc
        exact running_compares hfirm hcalm hw

end

/-! ### Runs -/

/-- Without the limit no step exceeds it. -/
theorem tick_unlimited (it : Interpreter S) (b : BudgetId) (w : World S) :
    it.unlimited.tick b w = (.ok none, w.modifyBudget b Budget.tick) := by
  have hnone : it.unlimited.config.stepLimit = none := rfl
  rw [tick_eq, hnone, Budget.exceeds_none]

/-- The loop on a spent budget aborts with its next step. -/
theorem rounds_doomed (hit : it.Limited n) {a : Activity S} (hm : it.Counts b d a w' ⟨d, st, w⟩)
    (hw : Spent b n w) (hdepth : Ample n fuel → fuel ≤ d + n) {left : Nat}
    (hleft : Ample n fuel → 1 ≤ left) :
    Doomed b n fuel (it.Stuck b n fuel d a w') (Outcome.Carries (.stepLimitExceeded n))
      (it.rounds (it.closeScope d) b left st w) := by
  cases left with
  | zero =>
    refine ⟨nofun, ?_⟩
    rintro _ ⟨⟩
    exact ⟨rfl, fun hample ↦ absurd (hleft hample) (by omega)⟩
  | succ left =>
    rw [rounds_exceeded (tick_spent hit.stepLimit hw)]
    exact abort_doomed hit hm hw.exceeds hdepth

/-- The loop, when its next step exceeds the limit. This is the moment at which the runs part. -/
theorem exceeded_compares (hit : it.Limited n) (hdepth : Ample n fuel → fuel ≤ d + n) (left : Nat)
    (hexceeds : ((w.modifyBudget b Budget.tick).budget b).exceeds (some n) = some n)
    {r' : Except Escape (Outcome S.Error Value) × World S} :
    it.Compares b n fuel d (.looping st) w ((w.budget b).used + 1)
      (Outcome.Carries (.stepLimitExceeded n)) (it.rounds (it.closeScope d) b (left + 1) st w)
      r' := by
  have htick : it.tick b w = (.ok (some n), w.modifyBudget b Budget.tick) := by
    rw [tick_eq, hit.stepLimit, hexceeds]
  have hm : ∀ it : Interpreter S, it.Counts b d (.looping st) w ⟨d, st, w⟩ := fun it ↦
    .here d st w
  rw [rounds_exceeded htick]
  refine .cut ⟨_, hm it, hm it.unlimited, .silent rfl, hexceeds⟩ ?_
  exact abort_doomed hit (hm it) hexceeds hdepth

/-- A round whose step is within the limit and the rest of the loop, given how the rest compares. -/
theorem within_compares (hit : it.Limited n) (hcloses : it.ClosesAlike b n fuel d) {left : Nat}
    (hin : it.Inside b d root st w) (hw : Unspent b n w)
    (hleft : Ample n fuel → fuel ≤ left + 1 + (w.budget b).used)
    (hroom : Ample n fuel → fuel ≤ d + (w.budget b).used)
    (hexceeds : ((w.modifyBudget b Budget.tick).budget b).exceeds (some n) = none)
    (hrest : ∀ st' w', it.Inside b d root st' w' → Unspent b n w' →
      (Ample n fuel → (w.budget b).used + 1 ≤ (w'.budget b).used) →
        it.Compares b n fuel d (.looping st') w' ((w'.budget b).used + 1)
          (Outcome.Carries (.stepLimitExceeded n)) (it.rounds (it.closeScope d) b left st' w')
          (it.unlimited.rounds (it.unlimited.closeScope d) b left st' w')) :
    it.Compares b n fuel d (.looping st) w ((w.budget b).used + 1)
      (Outcome.Carries (.stepLimitExceeded n)) (it.rounds (it.closeScope d) b (left + 1) st w)
      (it.unlimited.rounds (it.unlimited.closeScope d) b (left + 1) st w) := by
  have htick : it.tick b w = (.ok none, w.modifyBudget b Budget.tick) := by
    rw [tick_eq, hit.stepLimit, hexceeds]
  have htick' := tick_unlimited it b w
  have hticked : w.Unexceeded (w.modifyBudget b Budget.tick) := .silent rfl
  obtain ⟨hw₁, hused⟩ := hw.tick hexceeds
  have hroom₁ : Ample n fuel →
      fuel < d + ((w.modifyBudget b Budget.tick).budget b).used := fun hample ↦ by
    have hroom := hroom hample
    rw [hused hample.word]
    omega
  have hleads : it.Leads b d (.looping st) w d (.acting st) (w.modifyBudget b Budget.tick) :=
    ⟨.within htick, .within htick', hticked⟩
  have hacting := (advance_compares hit hcloses hin.tick hw₁ hroom₁).leads hleads
  rw [rounds_within htick, rounds_within htick']
  have hcounted : Ample n fuel →
      (w.budget b).used + 1 ≤ ((w.modifyBudget b Budget.tick).budget b).used := fun hample ↦
    Nat.le_of_eq (hused hample.word).symm
  refine (hacting.weaken hcounted fun _ ↦ id).bind
    (fun p w₂ hp hp' hw₂ hunexceeded hused₂ ↦ ?_) fun p w₂ hp hgoes hw₂ ↦ ?_
  · cases p with
    | settled o => exact .pure hw₂ hunexceeded hused₂
    | running st' =>
      have hon := hrest st' w₂ (hin.tick.advance hp) hw₂ hused₂
      have hstep := (step_within htick st).trans hp
      have hstep' := (step_within htick' st).trans hp'
      refine (hon.leads ⟨.next hstep, .next hstep', hunexceeded⟩).weaken (fun hample ↦ ?_)
        fun _ ↦ id
      exact Nat.le_succ_of_le (hused₂ hample)
  · cases p with
    | settled o => exact .pure hgoes hw₂
    | running st' =>
      have hstep := (step_within htick st).trans hp
      have hdepth : Ample n fuel → fuel ≤ d + n := fun hample ↦
        Nat.le_trans (hroom hample) (Nat.add_le_add_left hw.within d)
      refine rounds_doomed hit (.next hstep (.here d st' w₂)) hw₂ hdepth fun hample ↦ ?_
      exact Nat.le_of_succ_le_succ (hample.two_le hw (hleft hample))

/-- The loop, given how scopes close. The induction is on the rounds that it may make. -/
theorem rounds_compares (hit : it.Limited n) (hcloses : it.ClosesAlike b n fuel d) {left : Nat}
    (hin : it.Inside b d root st w) (hw : Unspent b n w)
    (hleft : Ample n fuel → fuel ≤ left + (w.budget b).used)
    (hroom : Ample n fuel → fuel ≤ d + (w.budget b).used) :
    it.Compares b n fuel d (.looping st) w ((w.budget b).used + 1)
      (Outcome.Carries (.stepLimitExceeded n)) (it.rounds (it.closeScope d) b left st w)
      (it.unlimited.rounds (it.unlimited.closeScope d) b left st w) := by
  induction left generalizing st w with
  | zero =>
    rw [rounds_zero, rounds_zero]
    exact .same hw (.silent rfl) fun hample ↦ absurd (hample.two_le hw (hleft hample)) (by decide)
  | succ left ih =>
    cases hexceeds : ((w.modifyBudget b Budget.tick).budget b).exceeds (some n) with
    | some n' =>
      obtain ⟨⟨⟩, -⟩ := Budget.exceeds_eq_some.1 hexceeds
      exact exceeded_compares hit (fun hample ↦
        Nat.le_trans (hroom hample) (Nat.add_le_add_left hw.within d)) left hexceeds
    | none =>
      -- each round counts a step, so what is left of the fuel stays enough
      refine within_compares hit hcloses hin hw hleft hroom hexceeds
        fun st' w' hin' hw' hused ↦ ih hin' hw' (fun hample ↦ ?_) fun hample ↦ ?_
      · have hleft := hleft hample
        have hused := hused hample
        omega
      · have hroom := hroom hample
        have hused := hused hample
        omega

/-- When the loop has ended nothing waits on the root scope but what is due. -/
theorem rounds_held (hit : it.Tame) (hin : it.Inside b d root st w) {left : Nat}
    {o : Outcome S.Error Value} (heq : it.rounds (it.closeScope d) b left st w = (.ok o, w')) :
    Held it.program b w' root := by
  have hclose := closeScope_shuts hit.registry b d
  obtain ⟨st₁, w₁, hmoves, hend⟩ := drive_ends heq nofun
  have hheld : Held it.program b w₁ root :=
    (hin.trans hmoves).held hit (List.mem_append_right _ (List.mem_singleton_self root))
  generalize hx : (Except.ok o : Except Escape (Outcome S.Error Value)) = x at hend
  cases hend with
  | settled => exact hheld
  | panicked => cases hx
  | aborted hl ha =>
    obtain ⟨u, cause, w₂, -, hu, rfl, -⟩ := abort_conduct hclose ha fun he ↦ by
      rw [he] at hx
      cases hx
    have htick : Conduct b w₁ [] (w₁.modifyBudget b Budget.tick) := .tick w₁ b
    exact hheld.conducts ⟨_, (htick.trans (.exceeded hl)).trans hu.aborted⟩

/-- An interpretation, given how scopes close. -/
theorem runs_alike (hit : it.Limited n) (hcloses : it.ClosesAlike b n fuel d) :
    it.RunsAlike b n fuel d := by
  intro node context w hnode hw hroom
  have hin : it.Inside b d w.enterScope.1 (.start node context w.enterScope.1 b) w.enterScope.2 :=
    .start hnode context w
  have hentered : Unspent b n w.enterScope.2 := hw.of_budgets rfl
  have hleads : it.Leads b d (.running node context) w d
      (.looping (.start node context w.enterScope.1 b)) w.enterScope.2 :=
    ⟨.body, .body, .record _ nofun⟩
  have hloop := (rounds_compares hit hcloses hin hentered hroom hroom).leads hleads
  change it.Compares b n fuel d (.running node context) w (w.budget b).used _
    ((it.rounds (it.closeScope d) b d (.start node context w.enterScope.1 b) >>= fun o ↦
      it.closeScope d w.enterScope.1 >>= fun r ↦ pure (o.merge r)) w.enterScope.2)
    ((it.unlimited.rounds (it.unlimited.closeScope d) b d (.start node context w.enterScope.1 b)
      >>= fun o ↦ it.unlimited.closeScope d w.enterScope.1 >>= fun r ↦ pure (o.merge r))
        w.enterScope.2)
  refine hloop.bind (fun o w₁ ho ho' hw₁ hunexceeded hused ↦ ?_) fun o w₁ ho hcarries hw₁ ↦ ?_
  · have hused₁ : Ample n fuel → (w.budget b).used + 1 ≤ (w₁.budget b).used := hused
    have hroom₁ : Ample n fuel → fuel < d + (w₁.budget b).used := fun hample ↦ by
      have hroom := hroom hample
      have hused := hused₁ hample
      omega
    have hroot := (hcloses (rounds_held hit.tame hin ho) hw₁ hroom₁).leads
      ⟨.root ho, .root ho', hunexceeded⟩
    refine hroot.bind (fun r w₂ _ _ hw₂ hunexceeded₂ hused₂ ↦ ?_)
      fun r w₂ _ hcarries hw₂ ↦ .pure (.merge (.inr hcarries)) hw₂
    exact .pure hw₂ hunexceeded₂ fun hample ↦
      Nat.le_trans (Nat.le_of_succ_le (hused₁ hample)) (hused₂ hample)
  · have hd : Ample n fuel → 2 ≤ d := fun hample ↦ hample.two_le hw (hroom hample)
    have hroot : Doomed b n fuel (it.Stuck b n fuel d (.running node context) w) (fun _ ↦ True)
        (it.closeScope d w.enterScope.1 w₁) :=
      closeScope_doomed hit hw₁ (rounds_held hit.tame hin ho) hd
    exact hroot.bind fun r w₂ _ _ hw₂ ↦ .pure (.merge (.inl hcarries)) hw₂

/-- Closing scopes, to any depth. -/
theorem closes_alike (hit : it.Limited n) (d : Nat) : it.ClosesAlike b n fuel d := by
  induction d with
  | zero =>
    intro s w hs hw hroom
    refine .same hw (.silent rfl) fun hample ↦ ?_
    exact absurd (hample.two_le hw (Nat.le_of_lt (hroom hample))) (by decide)
  | succ d ih => exact closes_succ hit (runs_alike hit ih)

/-! ### A run with a limit and without it -/

/-- No step of the limited run exceeds the limit. -/
structure WithinLimit (it : Interpreter S) (n fuel : Nat) (node : Node S) (context : Context)
    (w : World S) : Prop where
  unexceeded : w.Unexceeded (it.interpret fuel node context w).2
  /-- The outcome and the world in the end are those of the run without the limit. -/
  same : it.interpret fuel node context w = it.unlimited.interpret fuel node context w
  used : ((it.interpret fuel node context w).2.budget (w.newBudget {}).1).used ≤ n
  ends : Ample n fuel → ∃ o, (it.interpret fuel node context w).1 = .ok o

/-- A step of the limited run exceeds the limit, at the moment for the first time. -/
structure BeyondLimit (it : Interpreter S) (n fuel : Nat) (node : Node S) (context : Context)
    (w : World S) (m : Moment S) : Prop where
  exceeds : m.Exceeds (w.newBudget {}).1 n
  first : w.Unexceeded m.world
  /-- The limited run comes to the moment. -/
  limited : it.Counts (w.newBudget {}).1 fuel (.running node context) (w.newBudget {}).2 m
  /-- The run without the limit comes to the same moment, so by then the two have done the same. -/
  unlimited :
    it.unlimited.Counts (w.newBudget {}).1 fuel (.running node context) (w.newBudget {}).2 m
  /-- What has happened by then happens first in the run without the limit. -/
  earlier : ∀ x w', it.unlimited.interpret fuel node context w = (x, w') →
    x ≠ .error .exhausted → m.world.Extends w'
  recorded : ∀ x w', it.interpret fuel node context w = (x, w') → x ≠ .error .exhausted →
    .exceeded (w.newBudget {}).1 n ∈ w'.history
  /-- The limited run fails, and has the defect of the limit among the leaves of its cause. -/
  fails : ∀ x w', it.interpret fuel node context w = (x, w') → x ≠ .error .exhausted →
    ∃ cause, x = .ok (.error cause) ∧ .defect (.stepLimitExceeded n) ∈ cause.flatten
  /-- It does end, unless a release effect that is exempt from the limit goes on for ever. -/
  ends : n + 2 ≤ fuel → (∃ o, (it.interpret fuel node context w).1 = .ok o) ∨
    it.Stuck (w.newBudget {}).1 n fuel fuel (.running node context) (w.newBudget {}).2

/-- If the run ends that comes to a moment, what has happened by then is part of its history. -/
theorem Counts.extends (hr : it.registry = .standard) {a : Activity S} {m : Moment S}
    (h : it.Counts b d a w m) (hend : it.Concludes b d a w w') : m.world.Extends w' := by
  obtain ⟨w₁, ⟨left, x, hloop, hx⟩, hlater⟩ := h.ends persistent_extends hr hend
  have hclose := closeScope_along persistent_extends hr m.depth
  exact (drive_along persistent_extends.toLasting hr hclose b left m.state hloop hx).1.trans hlater

/-- If a step exceeds the limit at the moment, the history says so. -/
theorem Counts.recorded (hit : it.Limited n) {a : Activity S} {m : Moment S}
    (h : it.Counts b d a w m) (hm : m.Exceeds b n) (hend : it.Concludes b d a w w') :
    .exceeded b n ∈ w'.history := by
  obtain ⟨w₁, ⟨left, x, hloop, hx⟩, hlater⟩ := h.ends persistent_extends hit.registry hend
  have hclose := closeScope_along persistent_extends hit.registry m.depth
  have habort : Along World.Extends False (it.abort (it.closeScope m.depth) n m.state >>=
      fun cause ↦ pure (.error cause : Outcome S.Error Value)) fun _ ↦ True :=
    .bind persistent_extends.toDrift (abort_along persistent_extends.toDrift
      persistent_extends.abort hclose n m.state) fun _ _ ↦
      .pure persistent_extends.toDrift trivial
  have htick : it.tick b m.world = (.ok (some n), m.world.modifyBudget b Budget.tick) := by
    rw [tick_eq, hit.stepLimit, hm]
  cases left with
  | zero =>
    cases hloop
    exact absurd rfl hx
  | succ left =>
    rw [rounds_exceeded htick] at hloop
    exact ((habort hloop hx).1.trans hlater).subset List.mem_cons_self

/-- How a run compares, if it comes to a moment at which a step exceeds the limit. -/
theorem Cut.beyond (hit : it.Limited n) {node : Node S} {context : Context} {w : World S}
    (hcut : it.Cut (w.newBudget {}).1 n fuel (.running node context) (w.newBudget {}).2)
    (hdoomed : Doomed (w.newBudget {}).1 n fuel
      (it.Stuck (w.newBudget {}).1 n fuel fuel (.running node context) (w.newBudget {}).2)
      (Outcome.Carries (.stepLimitExceeded n)) (it.interpret fuel node context w)) :
    ∃ m, it.BeyondLimit n fuel node context w m := by
  obtain ⟨m, hm, hm', hfirst, hexceeds⟩ := hcut
  have hopened : w.Unexceeded (w.newBudget {}).2 := .silent rfl
  refine ⟨m, hexceeds, hopened.trans hfirst, hm, hm', fun x w' heq hx ↦ ?_,
    fun x w' heq hx ↦ ?_, fun x w' heq hx ↦ ?_, fun hfuel ↦ ?_⟩
  · have hend : it.unlimited.Concludes (w.newBudget {}).1 fuel (.running node context)
        (w.newBudget {}).2 w' := ⟨x, heq, hx⟩
    have hr : it.unlimited.registry = .standard := hit.registry
    exact hm'.extends hr hend
  · have hend : it.Concludes (w.newBudget {}).1 fuel (.running node context)
        (w.newBudget {}).2 w' := ⟨x, heq, hx⟩
    exact hm.recorded hit hexceeds hend
  · rw [heq] at hdoomed
    rcases x with e | o
    · obtain ⟨rfl, -⟩ := hdoomed.error e rfl
      exact absurd rfl hx
    · obtain ⟨hcarries, -⟩ := hdoomed.ok o rfl
      rcases o with cause | v
      · exact ⟨cause, rfl, hcarries⟩
      · exact hcarries.elim
  · rcases hx : (it.interpret fuel node context w).1 with e | o
    · have hspent := Spent.of_exceeds hexceeds
      have hample : Ample n fuel := ⟨Nat.lt_of_lt_of_le hspent.exceeded hspent.word, hfuel⟩
      exact .inr ((hdoomed.error e hx).2 hample)
    · exact .inl ⟨o, rfl⟩

/-- **A step limit is transparent until exceeded, and cannot be recovered from once it is.** -/
theorem interpret_transparent (hit : it.Limited n) {node : Node S} (hnode : it.program.Quiet node)
    (fuel : Nat) (context : Context) (w : World S) :
    it.WithinLimit n fuel node context w ∨ ∃ m, it.BeyondLimit n fuel node context w m := by
  have hopened : w.Unexceeded (w.newBudget {}).2 := .silent rfl
  have hruns : it.RunsAlike (w.newBudget {}).1 n fuel fuel := runs_alike hit (closes_alike hit fuel)
  have hcompares := hruns context hnode (.newBudget n w) fun _ ↦ Nat.le_add_right fuel _
  have hrun : ∀ it : Interpreter S, it.interpretOn fuel node context (w.newBudget {}).1
      (w.newBudget {}).2 = it.interpret fuel node context w := fun _ ↦ rfl
  rw [hrun it, hrun it.unlimited] at hcompares
  generalize hlimited : it.interpret fuel node context w = r at hcompares
  generalize hunlimited : it.unlimited.interpret fuel node context w = r' at hcompares
  cases hcompares with
  | same hunspent hunexceeded hends =>
    refine .inl ⟨?_, hlimited.trans hunlimited.symm, ?_, fun hample ↦ ?_⟩
    · rw [hlimited]
      exact hopened.trans hunexceeded
    · rw [hlimited]
      exact hunspent.within
    · obtain ⟨o, ho, -⟩ := hends hample
      exact ⟨o, by rw [hlimited, ho]⟩
  | cut hcut hdoomed =>
    rw [← hlimited] at hdoomed
    exact .inr (hcut.beyond hit hdoomed)

/-- A limit of four steps is exceeded in a region, and not by an effect that is a value. -/
theorem hastyTally_transparent :
    (∃ m, hastyTally.BeyondLimit 4 9 failingRegion .empty tallyWorld m) ∧
      hastyTally.WithinLimit 4 9 .unit .empty tallyWorld := by
  have hit : hastyTally.Limited 4 :=
    ⟨rfl, Strategy.quiet_sync _, Strategy.steady_sync, tidy_tally, rfl⟩
  have hunit : tally.Quiet .unit := Program.all_of trivial nofun
  constructor
  · refine (interpret_transparent hit quiet_failingRegion 9 .empty tallyWorld).resolve_left ?_
    intro h
    have hused := h.used
    revert hused
    decide +kernel
  · refine (interpret_transparent hit hunit 9 .empty tallyWorld).resolve_right ?_
    rintro ⟨m, h⟩
    obtain ⟨cause, hcause, -⟩ := h.fails _ _ rfl nofun
    cases hcause

end Interpreter

/-! ### A release effect that goes on for ever -/

/-- One effect has a name. -/
abbrev Refrain : Signature where
  Error := Nat
  State := Nat
  Name := Unit
  Cleanup := Empty

/-- The named effect is to build itself anew. -/
def again : Node Refrain := .suspend (.done (.named ()))

def refrain : Program Refrain where
  effect _ := .done again
  cleanup := nofun

/-- An interpreter that allows four steps. -/
def hastyRefrain : Interpreter Refrain where
  program := refrain
  config := { stepLimit := some 4 }

def refrainWorld : World Refrain where
  state := 0
  clock := {}
  noise := .ofSeed 0

/-- A region whose release effect builds itself anew, with a step after the registration. -/
def lastingRegion : Node Refrain :=
  .region fun _ ↦ .done (.node (.bind (.finalizer (.done (.named ()))) fun _ ↦
    .done (.effect (.node .unit))))

/-- The world in which an abort closes scopes, if the next step exceeds the limit. -/
def World.aborting (w : World S) (b : BudgetId) (n : Nat) : World S :=
  ((w.modifyBudget b Budget.tick).record (.exceeded b n)).modifyBudget b Budget.beginAbort

theorem quiet_again : refrain.Quiet again := by
  have hagain : ∀ {n m}, refrain.Descends n m → n = again → m = again := by
    intro n m h hn
    induction h with
    | refl => exact hn
    | step hc _ ih =>
      subst hn
      cases hc
      exact ih rfl
  intro m h
  rw [hagain h rfl]
  trivial

namespace Interpreter

variable {close : Closer Refrain} {b : BudgetId} {w : World Refrain}

/-- While an abort exempts the budget, the loop never ends: each round leads to the same effect. -/
theorem drive_again (hw : 0 < (w.budget b).aborting) (fuel : Nat) {st : State Refrain}
    (hst : st.control = .effect again) :
    (hastyRefrain.drive close b fuel st w).1 = .error .exhausted := by
  induction fuel generalizing st w with
  | zero => rfl
  | succ fuel ih =>
    have hticked : 0 < ((w.modifyBudget b Budget.tick).budget b).aborting := by
      rwa [(World.Ages.tick w b).aborting]
    have htick : hastyRefrain.tick b w = (.ok none, w.modifyBudget b Budget.tick) := by
      rw [tick_eq, Budget.exceeds_of_aborting hticked]
    have hstep : hastyRefrain.step close b st w =
        (.ok (.running (st.awaiting.continueWith again)), w.modifyBudget b Budget.tick) := by
      rw [step_within htick, advance, hst]
      rfl
    rw [drive, hstep]
    exact ih hticked rfl

/-- Neither does the closing of a scope on which the release effect waits. -/
theorem closeScope_again {s : ScopeId} {context : Context} (hw : 0 < (w.budget b).aborting)
    (hs : w.scope s = ⟨false, [.release (.done (.named ())) context b]⟩) (fuel : Nat) :
    (hastyRefrain.closeScope fuel s w).1 = .error .exhausted := by
  cases fuel with
  | zero => rfl
  | succ fuel =>
    let f : Finalizer Refrain := .release (.done (.named ())) context b
    have hrun : ∀ w : World Refrain, 0 < (w.budget b).aborting →
        (hastyRefrain.interpretOn fuel again context b w).1 = .error .exhausted := fun w hw ↦
      Machine.bind_exhausted (w := w.enterScope.2) (drive_again (w := w.enterScope.2) hw fuel rfl) _
    have hfinalize : ((hastyRefrain.host (hastyRefrain.closeScope fuel)).finalize
        (hastyRefrain.interpretOn fuel) f ((w.shutScope s).record (.invoked s f))).1 =
          .error .exhausted :=
      Machine.bind_exhausted (hrun ((w.shutScope s).record (.invoked s f)) hw) _
    have hinvoke : ((hastyRefrain.host (hastyRefrain.closeScope fuel)).invoke
        (hastyRefrain.interpretOn fuel) s f (w.shutScope s)).1 = .error .exhausted := by
      refine Machine.bind_exhausted (w := (w.shutScope s).record (.invoked s f)) ?_ _
      rw [Machine.guard_apply]
      exact Machine.guarded_eq_exhausted.2 hfinalize
    rcases hshut : hastyRefrain.closeScope (fuel + 1) s w with ⟨x, w'⟩
    rcases Host.shut_eq hshut with ⟨hclosed, -⟩ | ⟨-, y, w₁, hall, rfl, -⟩
    · rw [hs] at hclosed
      cases hclosed
    · rw [hs] at hall
      have hy : y = .error .exhausted :=
        (congrArg Prod.fst hall).symm.trans (Machine.bind_exhausted hinvoke _)
      rw [hy]
      rfl

/-- **A run that exceeds its limit need not return.** The fifth step exceeds the limit, and the
abort runs the release effect exempt from it. So whatever the fuel, the run comes to no outcome, and
in particular to none that has the defect of the limit among its leaves. -/
theorem lastingRegion_never_returns :
    hastyRefrain.Limited 4 ∧ refrain.Quiet lastingRegion ∧
      (∀ fuel, ∃ m, hastyRefrain.Counts ⟨0⟩ fuel (.running lastingRegion .empty)
        (refrainWorld.newBudget {}).2 m ∧ m.Exceeds ⟨0⟩ 4) ∧
      ∀ fuel, (hastyRefrain.interpret fuel lastingRegion .empty refrainWorld).1 =
        .error .exhausted := by
  have harrives : ∀ fuel, ∃ st w, hastyRefrain.Arrives (hastyRefrain.closeScope fuel) ⟨0⟩
      (.start lastingRegion .empty ⟨0⟩ ⟨0⟩) (refrainWorld.newBudget {}).2.enterScope.2 st w ∧
        ((w.modifyBudget ⟨0⟩ Budget.tick).budget ⟨0⟩).exceeds (some 4) = some 4 ∧
          st.budget = ⟨0⟩ ∧ st.stack = [.closeScope ⟨1⟩ ⟨0⟩] ∧
            ((w.aborting ⟨0⟩ 4).budget ⟨0⟩).aborting = 1 ∧ (w.aborting ⟨0⟩ 4).scope ⟨1⟩ =
              ⟨false, [.release (.done (.named ())) .empty ⟨0⟩]⟩ := fun fuel ↦
    ⟨_, _, .round rfl (.round rfl (.round rfl (.round rfl (.here _ _)))), rfl, rfl, rfl, rfl, rfl⟩
  refine ⟨⟨rfl, Strategy.quiet_sync _, Strategy.steady_sync, nofun, rfl⟩, ?_, fun fuel ↦ ?_,
    fun fuel ↦ ?_⟩
  · refine Program.all_of (fun _ ↦ trivial) ?_
    rintro m ⟨s, r, ⟨⟩⟩
    refine Program.all_of (fun _ ↦ trivial) ?_
    rintro m (rfl | ⟨v, ⟨⟩⟩)
    · refine Program.all_of trivial ?_
      rintro m ⟨⟩
      exact quiet_again
    · exact Program.all_of trivial nofun
  · obtain ⟨st, w, harrives, hexceeds, -⟩ := harrives fuel
    exact ⟨⟨fuel, st, w⟩, .body harrives.counts, hexceeds⟩
  · obtain ⟨st, w, harrives, hexceeds, hbudget, hstack, haborting, hs⟩ := harrives fuel
    have habort : (hastyRefrain.abort (hastyRefrain.closeScope fuel) 4 st
        ((w.modifyBudget ⟨0⟩ Budget.tick).record (.exceeded ⟨0⟩ 4))).1 = .error .exhausted := by
      rw [abort, hstack, hbudget]
      have hclose := closeScope_again (haborting ▸ Nat.one_pos) hs fuel
      exact Machine.bind_exhausted (w := w.aborting ⟨0⟩ 4)
        (Machine.bind_exhausted (Machine.bind_exhausted hclose _) _) _
    refine Machine.bind_exhausted (w := (refrainWorld.newBudget {}).2.enterScope.2) ?_ _
    refine Classical.byContradiction fun hends ↦ ?_
    obtain ⟨left, hleft⟩ := harrives.drive rfl hends
    obtain ⟨y, hy, hends'⟩ := drive_exceeds hexceeds hleft hends
    rw [hy] at habort
    obtain rfl : y = .error .exhausted := habort
    exact hends hends'

end Interpreter

end EffectMachine
