import EffectMachine.Proofs.Layers
import EffectMachine.Proofs.RewrittenRuns
import EffectMachine.Proofs.SequencingLaws

/-!
# Laws of providing

To provide a layer in what another layer provides is to provide the two in a row, and to provide the
empty layer is to do nothing. Applied anywhere in an effect, neither law makes a difference to what
the machine does (`Interpreter.provide_laws`).

**What a law spares.** Two layers that are provided one inside the other leave two frames on the
stack, and their builders run in two rounds. Provided in a row they leave one frame, and both
builders run under one guard. That this comes to the same rests on guards being distributive
(`Host.call_bind`): a panic of either builder is the failure of the effect, and a service that
either of them misses is reported by it.

The laws are equations between evaluations, up to one unit of fuel (`ProvideLaw.defers`). What is
said of runs is said for any such laws (`Interpreter.endsRewritten`, `Interpreter.handsRewritten`).
-/

namespace EffectMachine

variable {S : Signature}

/-- The two laws. -/
inductive ProvideLaw : Node S → Node S → Prop where
  /-- A layer provided in what another one provides. -/
  | fuse (a b : Layer S) (x : Node S) :
      ProvideLaw (.provide b (.provide a x)) (.provide (b.andThen a) x)
  /-- A layer that provides nothing. -/
  | idle (x : Node S) : ProvideLaw (.provide .empty x) x

namespace Host

variable (h : Host S) (b : BudgetId) (fuel : Nat) (n : Node S) (scope : ScopeId)

/-- Go on in the context that was built. -/
def within : Except MissingService Context → Machine S (Outcome S.Error Value)
  | .ok context => h.evaluate b fuel n context scope
  | .error m => pure (.error (.serviceNotFound m.key))

theorem evaluate_provide (layer : Layer S) (context : Context) :
    h.evaluate b (fuel + 1) (.provide layer n) context scope =
      h.call (layer.build context) (h.within b fuel n scope) := by
  simp only [evaluate]
  refine bind_congr fun r ↦ ?_
  rcases r with d | m | context' <;> rfl

/-- Building two layers in a row is building the second one from the first one's call. -/
theorem call_andThen (a a' : Layer S) (context : Context)
    (k : Except MissingService Context → Machine S (Outcome S.Error Value)) :
    h.call ((a'.andThen a).build context) k = h.call (a'.build context) fun r ↦
      h.call (Layer.onBuilt a.build r) k := by
  rw [Layer.build_andThen, call_bind]

end Host

theorem ProvideLaw.defers {n n' : Node S} (h : ProvideLaw n n') : n.Defers n' := by
  cases h with
  | fuse a a' x =>
    refine ⟨fun h b fuel context scope ↦ ?_, fun h b context scope w w₁ y heq hy ↦ ?_⟩
    · rw [h.evaluate_provide, h.evaluate_provide, h.call_andThen]
      congr 1
      funext r
      cases r with
      | error m => rfl
      | ok context' => exact h.evaluate_provide b fuel x scope a context'
    · rw [h.evaluate_provide] at heq ⊢
      rw [h.call_andThen]
      -- there is no fuel for the inner layer, so it is the outer one which has decided
      rcases Machine.bind_eq heq with ⟨d | m | context', w₂, hr, hk⟩ | ⟨e, hr, rfl⟩
      · exact (Machine.bind_ok hr _).trans hk
      · exact (Machine.bind_ok hr _).trans hk
      · have hzero : h.evaluate b 0 (.provide a x) context' scope w₂ = (y, w₁) := hk
        rw [h.evaluate_zero] at hzero
        cases hzero
        exact absurd rfl hy
      · exact Machine.bind_error hr _
  | idle =>
    refine ⟨fun h b fuel context scope ↦ ?_, fun h b context scope w w₁ y heq hy ↦ ?_⟩
    · exact h.evaluate_provide b (fuel + 1) n' scope .empty context
    · rw [h.evaluate_provide] at heq
      have hzero : h.evaluate b 0 n' context scope w = (y, w₁) := heq
      rw [h.evaluate_zero] at hzero
      cases hzero
      exact absurd rfl hy

/-! ### In typed effects -/

namespace Effect

variable {L : Node S → Node S → Prop} {a b : Ty}

/-- Two effects that are the same up to replaced parts. -/
def Rewrites (L : Node S → Node S → Prop) (e e' : Effect S a) : Prop :=
  e.node.Rewrites L e'.node

/-- A continuation that goes on with an effect whatever the element is. -/
theorem receive_const (e : Effect S b) :
    (receive a fun _ ↦ .done (.effect e.plan) : Value → Action S (Step S)) = fun v ↦
      (Action.done ()).bind fun _ ↦ .done (match v.cast? a with
        | some _ => .effect e.plan
        | none => .failure (.defect (.typeMismatch a.name))) := by
  funext v
  rw [receive]
  cases v.cast? a <;> rfl

/-- Before a finalizer, and in the finalizer. -/
theorem Rewrites.ensuring {e e' : Effect S a} {f f' : Effect S .unit}
    (h : e.plan.Rewrites L e'.plan) (hf : f.plan.Rewrites L f'.plan) :
    (e.ensuring f).Rewrites L (e'.ensuring f') := by
  refine Plan.Rewrites.region (x := fun _ ↦ .done ())
    (l := fun _ _ ↦ .node (.bind (.finalizer (.done f.plan))
      (receive .unit fun _ ↦ .done (.effect e.plan))))
    (r := fun _ _ ↦ .node (.bind (.finalizer (.done f'.plan))
      (receive .unit fun _ ↦ .done (.effect e'.plan)))) fun _ _ ↦ ?_
  rw [receive_const, receive_const]
  refine .bind (.finalizer (x := .done ()) (l := fun _ ↦ f.plan) (r := fun _ ↦ f'.plan)
    fun _ ↦ hf) (fun v _ ↦ ?_) fun v _ q q' hq hq' ↦ ?_
  · cases v.cast? .unit with
    | none => rfl
    | some y => trivial
  · cases hcast : v.cast? .unit with
    | none =>
      rw [hcast] at hq
      cases hq
    | some y =>
      rw [hcast] at hq hq'
      cases hq
      cases hq'
      exact h

end Effect

namespace Interpreter

open Layer (Expr)

/-- **Laws of layers and of providing.** Layers in a row are associative with the empty layer as
identity, to build a layer after another one is to build the two in a row, and layers side by side
are associative. These are equations: the same contexts are built from every context, with the same
order of keys, or the same reports and panics come out, after the same requests. A composite fails
with the report of its first part that fails, and no later part is built (`Layer.Expr.Reports`).

To provide a layer in what another one provides is to provide the two in a row, and to provide the
empty layer is to do nothing. Either law may be applied anywhere in an effect, and in the effects
that the names of the program stand for (`Plan.Rewrites`, `Program.Rewrites`). Wherever the one
effect ends, in whatever context and world, the other one ends with the same outcome, after the same
sleeps, with the same state of the application and with the same finalizers offered, accepted,
invoked and ended in the same order, and in the same contexts. And wherever the one effect is met in
a run, above whatever frames, if it hands an outcome to them, so does the other one, with the
context and the scope in force in which they were met. -/
theorem provide_laws {p p' : Program S} (hp : p.Rewrites ProvideLaw p') (name : String)
    (traceSteps : Bool) :
    (∀ a b c : Layer S, (a.andThen b).andThen c = a.andThen (b.andThen c)) ∧
    (∀ a : Layer S, Layer.empty.andThen a = a ∧ a.andThen .empty = a) ∧
    (∀ a b : Layer S, a.after b = b.andThen a) ∧
    (∀ a b c : Layer S, (a.beside b).beside c = a.beside (b.beside c)) ∧
    (∀ (e : Expr S) (context : Context),
      Expr.answer (e.logged context) = e.eval.build context ∧
      ∀ (h : Host S) w log w', h.perform (e.logged context) w = (.ok log, w') →
        Expr.Reports e.parts log) ∧
    (∀ {t} (x : Effect S t) (a b : Layer S),
      ((x.provide a).provide b).Rewrites ProvideLaw (x.provide (b.andThen a))) ∧
    (∀ {t} (x : Effect S t), (x.provide .empty).Rewrites ProvideLaw x) ∧
    ∀ {t} (e e' : Effect S t), e.Rewrites ProvideLaw e' →
      (∀ context w,
        EndsRewritten ProvideLaw w
          (fun fuel ↦ (plain p name traceSteps).interpret fuel e.node context)
          (fun fuel ↦ (plain p' name traceSteps).interpret fuel e'.node context) ∧
        EndsRewritten ProvideLaw w
          (fun fuel ↦ (plain p' name traceSteps).interpret fuel e'.node context)
          (fun fuel ↦ (plain p name traceSteps).interpret fuel e.node context)) ∧
      ∀ ground (w w' : World S), w.Rewrites ProvideLaw w' →
        HandsRewritten ProvideLaw (plain p name traceSteps) (plain p' name traceSteps) ground w w'
          e.node e'.node ∧
        HandsRewritten ProvideLaw (plain p' name traceSteps) (plain p name traceSteps) ground w' w
          e'.node e.node := by
  have hL : ∀ n n' : Node S, ProvideLaw n n' → n.Defers n' := fun _ _ h ↦ h.defers
  refine ⟨Layer.andThen_assoc, fun a ↦ ⟨Layer.empty_andThen a, Layer.andThen_empty a⟩,
    fun _ _ ↦ rfl, Layer.beside_assoc, fun e context ↦ ⟨Expr.answer_logged e context, ?_⟩,
    fun x a b ↦ .law (.fuse a b x.node), fun x ↦ .law (.idle x.node), fun e e' he ↦ ⟨?_, ?_⟩⟩
  · intro h w log w' heq
    exact Expr.reports_of_yields (h.perform_answers _ heq)
  · intro context w
    exact ⟨endsRewritten name traceSteps hL hp he context w,
      endsRewritten name traceSteps hL hp.symm he.symm context w⟩
  · intro ground w w' hw
    exact ⟨handsRewritten name traceSteps hL hp he ground hw,
      handsRewritten name traceSteps hL hp.symm he.symm ground hw.symm⟩

/-- A layer that binds a number. -/
def numberLayer : Layer Tally := .ofValue ⟨.int, none⟩ (2 : Int64)

/-- A layer that raises a flag where there is a number. -/
def flagLayer : Layer Tally :=
  .ofFactory ⟨.flag, none⟩ fun c ↦ .done ((c.require ⟨.int, none⟩).map fun _ ↦ true)

/-- The flag is looked up where both layers have been provided, one inside the other. -/
def nestedLayers : Effect Tally (.shared .flag) :=
  (((Effect.service ⟨.flag, none⟩).provide flagLayer).provide numberLayer).ensuring
    (increment.provide .empty)

/-- The flag is looked up where both layers have been provided in a row. -/
def layersInARow : Effect Tally (.shared .flag) :=
  ((Effect.service ⟨.flag, none⟩).provide (numberLayer.andThen flagLayer)).ensuring increment

/-- The flag is found, and the state is counted up to one. -/
theorem interpret_nestedLayers : ∃ w,
    (plain tally "layers" false).interpret 20 nestedLayers.node .empty tallyWorld =
      (.ok (.ok ⟨.shared .flag, true⟩), w) ∧ w.state = 1 :=
  ⟨_, rfl, rfl⟩

/-- Both find the flag, and count up to one when they are over. -/
theorem provide_laws_nestedLayers :
    tally.Rewrites ProvideLaw tally ∧ nestedLayers.Rewrites ProvideLaw layersInARow ∧
      ∃ w₁ w₂,
        EffectMachine.Ends
          (fun fuel ↦ (plain tally "layers" false).interpret fuel nestedLayers.node .empty)
          tallyWorld (.ok (.ok ⟨.shared .flag, true⟩)) w₁ ∧
        EffectMachine.Ends
          (fun fuel ↦ (plain tally "layers" false).interpret fuel layersInARow.node .empty)
          tallyWorld (.ok (.ok ⟨.shared .flag, true⟩)) w₂ ∧
        w₁.Rewrites ProvideLaw w₂ ∧ w₁.state = 1 := by
  have hp : tally.Rewrites ProvideLaw tally := .refl tally
  obtain ⟨-, -, -, -, -, hfuse, hidle, hends⟩ := provide_laws hp "layers" false
  have hrewrites : nestedLayers.Rewrites ProvideLaw layersInARow :=
    .ensuring (hfuse (Effect.service ⟨.flag, none⟩) flagLayer numberLayer) (hidle increment)
  obtain ⟨w₁, hrun, hstate⟩ := interpret_nestedLayers
  have hnested : EffectMachine.Ends
      (fun fuel ↦ (plain tally "layers" false).interpret fuel nestedLayers.node .empty)
      tallyWorld (.ok (.ok ⟨.shared .flag, true⟩)) w₁.uncounted := ⟨nofun, 20, w₁, hrun, rfl⟩
  obtain ⟨w₂, hrow, hw⟩ := ((hends _ _ hrewrites).1 .empty tallyWorld).1 _ _ hnested
  exact ⟨hp, hrewrites, w₁.uncounted, w₂, hnested, hrow, hw, hstate⟩

end Interpreter

end EffectMachine
