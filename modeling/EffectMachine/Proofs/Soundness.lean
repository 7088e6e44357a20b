import EffectMachine.Proofs.TypedStates

/-!
# Soundness of erasure

Effects that typed combinators build lose their types when they become nodes, and every combinator
checks again what it is handed. `Interpreter.erasure_sound` says that the checks never fail: in
every state that a run reaches, what is in hand is what the newest frame expects, so that no defect
arises by which the machine reports a stray value, node or branch, other than those that the
application raises itself.

## What the theorem rests on

* **Moves keep states typed** (`Interpreter.move_upholds`), and a run is made of moves.
* **Closing scopes keeps worlds typed** (`Interpreter.closeScope_upholds`), which is what moves are
  proved under. A scope that closes interprets release effects, whose scopes close in turn: the
  induction is on how deep closings may nest, and a run is looked at once for each depth.

A run that closes a scope interprets release effects from states of their own. These are typed
because the finalizers that wait in a typed world are, and the theorem applies to them as it does to
the effect of the application.
-/

namespace EffectMachine

variable {S : Signature}

open Machine (Upholds)

/-! ### Closing scopes -/

/-- Interpreting a typed release effect upholds a regime. -/
def Releaser.Upholds (G : Regime S) (release : Releaser S) : Prop :=
  ∀ {Γ n context} (b : BudgetId), Plan.Typed G Γ .unit (.node n) → context.Suits G →
    Machine.Upholds G Γ (release n context b) fun _ o ↦ G.OwnsOutcome o

namespace Host

variable {G : Regime S} {Γ : List Ty} {h : Host S} (hclose : Closer.Upholds G h.close)
  (hp : h.program.Respects G) {release : Releaser S} (hrelease : release.Upholds G)
include hclose

theorem closing_upholds (s : ScopeId) {cause : Cause S.Error} (hcause : G.Owns cause) :
    Upholds G Γ (h.closing s cause) fun _ c ↦ G.Owns c := by
  refine .bind (hclose Γ s) fun Γ' r _ hr ↦ ?_
  rcases r with failures | ⟨⟩
  · exact .pure (Regime.Owns.combine hcause (hr failures rfl))
  · exact .pure hcause

/-- An abort closes scopes, and that is all. -/
theorem abort_upholds (stack : List (Frame S)) {cause : Cause S.Error} (hcause : G.Owns cause) :
    Upholds G Γ (h.abort stack cause) fun _ c ↦ G.Owns c := by
  induction stack generalizing Γ cause with
  | nil => exact .pure hcause
  | cons f rest ih =>
    cases f with
    | closeScope s parent => exact .bind (closing_upholds hclose s hcause) fun _ _ _ hc ↦ ih hc
    | resume | recover | restoreContext | retry | timeout | parallel | race => exact ih hcause

include hp hrelease

theorem finalize_upholds {f : Finalizer S} (hf : f.Typed G Γ) :
    Upholds G Γ (h.finalize release f) fun _ o ↦ G.OwnsOutcome o := by
  cases f with
  | cleanup c =>
    have hcleanup := hp.cleanup hf
    exact (h.perform_upholds hclose (hcleanup.proper List.prefix_rfl)).post fun Γ' o _ ho ↦
      hcleanup.reaches List.prefix_rfl ho
  | release build context b =>
    refine .bind (h.build_ensures hclose hp hf.2) fun Γ' x _ hx ↦ ?_
    cases x with
    | error d =>
      refine .pure ?_
      rintro _ ⟨⟩
      exact hx.2 d rfl
    | ok n =>
      refine .bind (hrelease b (hx.1 n rfl) hf.1) fun Γ'' o _ ho ↦ .pure ?_
      rcases o with c | v
      · rintro _ ⟨⟩
        exact ho c rfl
      · exact nofun

theorem invoke_upholds (s : ScopeId) {f : Finalizer S} (hf : f.Typed G Γ) :
    Upholds G Γ (h.invoke release s f) fun _ o ↦ G.OwnsOutcome o := by
  refine .alter (fun w hw ↦ hw.record _) ?_
  refine .bind (finalize_upholds hclose hp hrelease hf).guard fun Γ' x _ hx ↦ ?_
  refine .alter (fun w hw ↦ hw.record _) (.pure ?_)
  cases x with
  | ok o => exact hx.1 o rfl
  | error d =>
    rintro _ ⟨⟩
    exact hx.2 d rfl

theorem invokeAll_upholds (s : ScopeId) {fs : List (Finalizer S)} (hfs : ∀ f ∈ fs, f.Typed G Γ) :
    Upholds G Γ (h.invokeAll release s fs) fun _ causes ↦ ∀ c ∈ causes, G.Owns c := by
  induction fs generalizing Γ with
  | nil => exact .pure nofun
  | cons f fs ih =>
    obtain ⟨hf, hfs⟩ := List.forall_mem_cons.mp hfs
    refine .bind (invoke_upholds hclose hp hrelease s hf) fun Γ' o hΓ ho ↦ ?_
    have hrest := ih fun f hf ↦ (hfs f hf).mono hΓ
    rcases o with c | ⟨⟩
    · refine .bind hrest fun Γ'' causes _ hcauses ↦ .pure ?_
      exact List.forall_mem_cons.mpr ⟨ho c rfl, hcauses⟩
    · exact hrest

theorem shut_upholds (s : ScopeId) : Upholds G Γ (h.shut release s) fun _ o ↦ G.OwnsOutcome o := by
  refine .look (R := fun scope ↦ ∀ f ∈ scope.finalizers, f.Typed G Γ)
    (fun w hw ↦ hw.finalizers s) fun scope hscope ↦ ?_
  cases scope.closed with
  | true => exact .pure nofun
  | false =>
    refine .alter (fun w hw ↦ hw.shutScope s) ?_
    refine .bind (invokeAll_upholds hclose hp hrelease s hscope) fun Γ' causes _ hcauses ↦ ?_
    refine .alter (fun w hw ↦ hw.record _) ?_
    cases causes with
    | nil => exact .pure nofun
    | cons c causes =>
      refine .pure ?_
      rintro _ ⟨⟩
      exact Regime.owns_composite.mpr hcauses

end Host

/-! ### Runs -/

namespace Interpreter

variable {G : Regime S} {Γ : List Ty} {a : Ty} {it : Interpreter S} {close : Closer S}
  (hr : it.registry = .standard) (hsync : it.strategy = .sync) (hp : it.program.Respects G)
include hr hsync hp

section

variable (hclose : Closer.Upholds G close)
include hclose

/-- Whatever a run reaches is typed. -/
theorem Moves.typed {b : BudgetId} {st st' : State S} {w w' : World S}
    (h : it.Moves close b st w st' w') (hst : st.Typed G Γ a) (hw : w.Typed G Γ) :
    ∃ Γ', Γ <+: Γ' ∧ st'.Typed G Γ' a ∧ w'.Typed G Γ' := by
  induction h with
  | refl => exact ⟨Γ, List.prefix_rfl, hst, hw⟩
  | tick _ ih =>
    obtain ⟨Γ', hΓ, hst', hw'⟩ := ih hw
    exact ⟨Γ', hΓ, hst', hw'.withBudget _ _⟩
  | move _ hm ih =>
    obtain ⟨Γ', hΓ, hst', hw'⟩ := ih hw
    obtain ⟨Γ'', hΓ', hw'', hok⟩ := move_upholds hr hsync hp hclose hst' hw' hm nofun
    exact ⟨Γ'', hΓ.trans hΓ', hok _ rfl, hw''⟩

omit hr hsync hp in
/-- An abort fails with the step limit and the failures of the scopes that it closes. -/
theorem abort_upholds (n : Nat) (st : State S) :
    Upholds G Γ (it.abort close n st) fun _ c ↦ G.Owns c := by
  have hclose : Closer.Upholds G (it.host close).close := hclose
  refine .alter (fun w hw ↦ hw.withBudget _ _) ?_
  refine .bind (Host.abort_upholds hclose st.stack (Regime.owns_of_isStray rfl)) ?_
  exact fun Γ' c _ hc ↦ .alter (fun w hw ↦ hw.withBudget _ _) (.pure hc)

/-- The loop, from a typed state. -/
theorem drive_upholds (b : BudgetId) (fuel : Nat) {st : State S} (hst : st.Typed G Γ a) :
    Upholds G Γ (it.drive close b fuel st) fun _ o ↦ G.Fits a o := by
  intro w x w' hw heq hx
  obtain ⟨st₁, w₁, hmoves, hend⟩ := drive_ends heq hx
  obtain ⟨Γ₁, hΓ, ⟨hc, σ, hcontrol, hs⟩, hw₁⟩ := hmoves.typed hr hsync hp hclose hst hw
  cases hend with
  | settled hstack ho =>
    rename_i o
    refine ⟨Γ₁, hΓ, hw₁, ?_⟩
    rintro _ ⟨⟩
    -- below the last frame the type of the whole effect is expected
    rw [hstack] at hs
    cases hs
    rw [ho] at hcontrol
    cases o with
    | ok v => exact hcontrol
    | error c => exact hcontrol
  | aborted hl ha =>
    rename_i limit y
    have hy : y ≠ .error .exhausted := by
      rintro rfl
      exact hx rfl
    obtain ⟨Γ₂, hΓ', hw₂, hcause⟩ :=
      abort_upholds hclose limit st₁ ((hw₁.withBudget b _).record _) ha hy
    refine ⟨Γ₂, hΓ.trans hΓ', hw₂, fun o ho ↦ ?_⟩
    rcases y with e | c
    · cases ho
    · cases ho
      exact hcause c rfl
  | panicked hm =>
    obtain ⟨Γ₂, hΓ', hw₂, -⟩ :=
      move_upholds hr hsync hp hclose ⟨hc, σ, hcontrol, hs⟩ hw₁ hm nofun
    exact ⟨Γ₂, hΓ.trans hΓ', hw₂, nofun⟩

theorem interpretWith_upholds (fuel : Nat) {n : Node S} (hn : Plan.Typed G Γ a (.node n))
    {context : Context} (hc : context.Suits G) (b : BudgetId) :
    Upholds G Γ (it.interpretWith close fuel n context b) fun _ o ↦ G.Fits a o := by
  refine .change (R := fun _ ↦ True) (fun w hw ↦ ⟨hw.enterScope, trivial⟩) fun root _ ↦ ?_
  have hstart : (State.start n context root b).Typed G Γ a := ⟨hc, .of a, hn, .nil⟩
  refine .bind (drive_upholds hr hsync hp hclose b fuel hstart) fun Γ' o _ ho ↦ ?_
  exact .bind (hclose Γ' root) fun Γ'' r _ hr ↦ .pure (ho.merge hr)

end

/-- **Closing scopes upholds the regime**, however deep closings nest. -/
theorem closeScope_upholds (depth : Nat) : Closer.Upholds G (it.closeScope depth) := by
  induction depth with
  | zero => exact fun _ _ ↦ .exhausted
  | succ depth ih =>
    intro Γ s
    have hclose : Closer.Upholds G (it.host (it.closeScope depth)).close := ih
    refine Host.shut_upholds hclose hp (fun b hn hc ↦ ?_) s
    refine (interpretWith_upholds hr hsync hp ih depth hn hc b).post fun Γ' o _ ho ↦ ?_
    rintro c rfl
    exact ho

end Interpreter

/-! ### Soundness -/

/-- The value is one that the continuation or the collector of a frame takes: an element of the type
that it receives, the handle of a service of the type that it resolves, or one more element for a
list of its kind. Other frames take any value and hand it on. -/
def Frame.Expects (f : Frame S) (v : Value) : Prop :=
  match f with
  | .resume next =>
    (∃ a k, next = Effect.receive a k ∧ v.type = a) ∨
      ∃ p, next = Effect.resolver p ∧ ∃ x : p.El, v = ⟨.service, ⟨p, x⟩⟩
  | .parallel _ collected collect =>
    ∃ a, collect = Effect.collector a ∧ v.type = a ∧ ∀ u ∈ collected, u.type = a
  | .recover _ _ | .restoreContext _ | .closeScope _ _ | .retry _ | .timeout _ _ | .race _ _ => True

/-- A frame is handed what it expects, unless contexts may hold services of wrong types. -/
theorem Frame.Typed.expects {G : Regime S} (hG : ∀ p, ¬G.mistyped p) {Γ : List Ty} {σ τ : Shape}
    {f : Frame S} (h : f.Typed G Γ σ τ) {v : Value} (hv : σ.Fits G v) : f.Expects v := by
  cases h with
  | @resume a b k hk => exact .inl ⟨a, k, rfl, hv⟩
  | resolve p =>
    obtain ⟨⟨_, x⟩, rfl, hservice⟩ := hv
    cases hservice.resolve_right (hG p)
    exact .inr ⟨_, rfl, x, rfl⟩
  | @parallel a rest collected hrest hcollected => exact ⟨a, rfl, hv, hcollected⟩
  | recover | restoreContext | closeScope | retry | timeout | race => trivial

namespace Interpreter

variable {G : Regime S} {Γ : List Ty} {a : Ty} {it : Interpreter S}

/-- **Soundness of erasure.** Let an effect be built by typed combinators and run in a typed
context, and let layers keep contexts typed.

* In every state that the run reaches, a value in hand is what the newest frame expects, and one
  that meets no frame is an element of the effect's type; a failure in hand holds no stray defect
  but those that the application raises; the hand is not empty; and the world is typed again, so
  that the same is true of the release effects that wait in it.
* An outcome of the run holds no other stray defect either, and the cast to the effect's type that
  ends the run succeeds whenever the run does. -/
theorem erasure_sound (hr : it.registry = .standard) (hsync : it.strategy = .sync)
    (hp : it.program.Respects G) (hG : ∀ p, ¬G.mistyped p) {e : Effect S a} (he : e.Typed G Γ)
    {context : Context} (hc : context.Typed) {w : World S} (hw : w.Typed G Γ) :
    (∀ depth b scope st w',
      it.Moves (it.closeScope depth) b (.start e.node context scope b) w st w' →
      (∀ v f rest, st.control = .value v → st.stack = f :: rest → f.Expects v) ∧
      (∀ v, st.control = .value v → st.stack = [] → v.type = a) ∧
      (∀ cause, st.control = .failure cause → G.Owns cause) ∧
      st.control ≠ .pending ∧ ∃ Γ', Γ <+: Γ' ∧ w'.Typed G Γ') ∧
    ∀ fuel o w', it.interpret fuel e.node context w = (.ok o, w') →
      (∀ v, o = .ok v → ∃ x : a.El, v = ⟨a, x⟩ ∧
        it.run fuel e context w = (.ok (.ok x), w')) ∧
      ∀ cause, o = .error cause → G.Owns cause ∧
        it.run fuel e context w = (.ok (.error cause), w') := by
  refine ⟨fun depth b scope st w' hmoves ↦ ?_, fun fuel o w' heq ↦ ?_⟩
  · have hstart : (State.start e.node context scope b).Typed G Γ a :=
      ⟨hc.suits, .of a, he.node, .nil⟩
    obtain ⟨Γ', hΓ, ⟨-, σ, hcontrol, hs⟩, hw'⟩ :=
      hmoves.typed hr hsync hp (closeScope_upholds hr hsync hp depth) hstart hw
    refine ⟨fun v f rest hv hf ↦ ?_, fun v hv hnil ↦ ?_, fun cause hcause ↦ ?_, fun hpending ↦ ?_,
      Γ', hΓ, hw'⟩
    · rw [hv] at hcontrol
      rw [hf] at hs
      cases hs with
      | cons hf _ => exact hf.expects hG hcontrol
    · rw [hv] at hcontrol
      rw [hnil] at hs
      cases hs
      exact hcontrol
    · rw [hcause] at hcontrol
      exact hcontrol
    · rw [hpending] at hcontrol
      exact hcontrol
  · have hbudget : (w.newBudget {}).2.Typed G Γ := hw.congr rfl rfl rfl
    have hrun : it.run fuel e context w = (.ok (downcast a o), w') := Machine.bind_ok heq _
    obtain ⟨Γ', -, -, hfits⟩ := interpretWith_upholds hr hsync hp
      (closeScope_upholds hr hsync hp fuel) fuel he.node hc.suits _ hbudget heq nofun
    have hfits : G.Fits a o := hfits o rfl
    refine ⟨?_, ?_⟩
    · rintro ⟨t, x⟩ rfl
      -- the cast compares types, and nothing else
      obtain rfl : t = a := hfits
      refine ⟨x, rfl, ?_⟩
      rw [hrun, downcast, Value.cast?_mk]
    · rintro cause rfl
      exact ⟨hfits, hrun⟩

/-- In the small application any state will do, any finalizer may be registered, and no closure
raises a stray defect. -/
def tallyRegime : Regime Tally where
  state _ _ := True
  cleanup _ _ := True
  name _ _ _ := False
  raises _ := False
  mistyped _ := False
  state_mono _ := id
  cleanup_mono _ := id
  name_mono _ := id
  mistyped_raises := id

theorem tally_respects : tally.Respects tallyRegime where
  effect h := h.elim
  cleanup _ := by
    intro Γ' _
    refine ⟨fun _ _ ↦ ⟨trivial, trivial⟩, ?_⟩
    rintro _ _ ⟨_, -, rfl, rfl⟩
    exact nofun

theorem typed_tallyWorld : tallyWorld.Typed tallyRegime [] where
  state := trivial
  size := rfl
  slots s o h := by cases s; cases h
  finalizers s f hf := by cases s; cases hf

/-- A number taken from the context and a completion, collected from two branches. -/
def mixedEffect : Effect Tally (.pair (.shared .int) (.list .unit)) :=
  (Effect.service ⟨.int, none⟩).zip
    (.all [.async fun s ↦ .settle s (.ok .unit) fun _ ↦ .done (), .sleep ⟨5, by decide⟩])

theorem typed_mixedEffect : mixedEffect.Typed tallyRegime [] := by
  refine (Effect.typed_service _).zip (Effect.typed_all ?_)
  refine List.forall_mem_cons.mpr ⟨?_, List.forall_mem_singleton.mpr (Effect.typed_sleep _)⟩
  exact Effect.typed_async fun Γ' _ ↦ ⟨⟨.unit, by simp, rfl⟩, fun _ ↦ trivial⟩

/-- Run in a context with a number it yields a pair. -/
theorem erasure_sound_mixedEffect :
    mixedEffect.Typed tallyRegime [] ∧ (Context.empty.bind ⟨.int, none⟩ 7).Typed ∧
      tallyWorld.Typed tallyRegime [] ∧ ∃ x w', (plain tally "mixed" false).run 20 mixedEffect
        (Context.empty.bind ⟨.int, none⟩ 7) tallyWorld = (.ok (.ok x), w') := by
  have hcontext : (Context.empty.bind ⟨.int, none⟩ 7).Typed := List.forall_mem_singleton.mpr rfl
  have hsync : (plain tally "mixed" false).strategy = .sync := rfl
  have hsound := erasure_sound rfl hsync tally_respects (fun _ ↦ id) typed_mixedEffect hcontext
    typed_tallyWorld
  have hinterpret : ∃ v w', (plain tally "mixed" false).interpret 20 mixedEffect.node
      (Context.empty.bind ⟨.int, none⟩ 7) tallyWorld = (.ok (.ok v), w') := ⟨_, _, rfl⟩
  obtain ⟨v, w', hinterpret⟩ := hinterpret
  obtain ⟨x, -, hrun⟩ := (hsound.2 20 _ w' hinterpret).1 v rfl
  exact ⟨typed_mixedEffect, hcontext, typed_tallyWorld, x, w', hrun⟩

end Interpreter

end EffectMachine
