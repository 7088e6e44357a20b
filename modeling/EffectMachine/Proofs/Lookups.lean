import EffectMachine.Proofs.Furnishing

/-!
# Looking services up

A key is looked up in four ways: by asking whether it is bound, by taking its element or nothing, by
requiring its element, and by running the effect that resolves the service at the point that a run
has come to. In a typed context the four agree (`Interpreter.agree`), so resolving a service fails
with the report that it is missing or not at all.

`Interpreter.lookups_agree` says this of every point of every run that begins in a typed context,
and what is found there: **the instance written by the innermost enclosing layer that writes the
key**, or what the ambient context finds. It rests on three facts.

* **Standard layers keep contexts typed**, whatever their factories do (`Context.Arises.typed`).
* **The layers around a point were built inside one another**, from the ambient context to the one
  in force (`Interpreter.Within.nested`).
* **Release effects are runs of their own**, begun in typed contexts
  (`Interpreter.closeScope_furnished`).

A layer may write less than it binds: beside another one, what it binds under a key of the ambient
context is undone (`Interpreter.provided_value_undone`).
-/

namespace EffectMachine

variable {S : Signature}

/-! ### In a context -/

namespace Context

variable {c : Context} {k : Key}

theorem get?_of_find? {x : k.type.El} (h : c.find? k = some ⟨k.type, x⟩) : c.get? k = some x := by
  rw [get?, h, Option.bind_some, Service.cast?_mk]

theorem require_of_get? {x : k.type.El} (h : c.get? k = some x) : c.require k = .ok x := by
  rw [require, h]

theorem get?_of_find?_eq_none (h : c.find? k = none) : c.get? k = none := by
  rw [get?, h, Option.bind_none]

theorem require_of_get?_eq_none (h : c.get? k = none) : c.require k = .error ⟨k⟩ := by
  rw [require, h]

end Context

/-! ### At a point of a run -/

namespace Interpreter

variable (it : Interpreter S) (close : Closer S)

/-- Resolving a service in the context in force takes three moves, which end in the outcome and
leave everything else as it was. -/
def Resolves (st : State S) (k : Key) (o : Outcome S.Error Value) : Prop :=
  it.move close (st.continueWith (Effect.service k).node) >>= it.move close >>= it.move close =
    pure (st.holding (.ofOutcome o))

/-- All ways to look a key up agree on an instance, or on there being none. -/
inductive Agree (st : State S) (k : Key) : Option Service → Prop where
  | found (x : k.type.El) (hcontains : st.context.contains k = true)
      (hget : st.context.get? k = some x) (hrequire : st.context.require k = .ok x)
      (hservice : it.Resolves close st k (.ok ⟨.shared k.type, x⟩)) :
      Agree st k (some ⟨k.type, x⟩)
  | missing (hcontains : st.context.contains k = false) (hget : st.context.get? k = none)
      (hrequire : st.context.require k = .error ⟨k⟩)
      (hservice : it.Resolves close st k (.error (.serviceNotFound k))) : Agree st k none

variable {it close} (hr : it.registry = .standard) {st : State S} {k : Key}
include hr

/-- A move in which a standard handler decides what is next. -/
theorem move_standard {node : Node S} {next : State S}
    (h : Handler.standard node.tag (it.host close) node st.awaiting = pure next)
    (hn : next.control.isPending = false) :
    it.move close (st.continueWith node) = pure next := by
  show it.dispatch close node st.awaiting = pure next
  rw [dispatch, hr, Registry.dispatch_standard, h, pure_bind, hn]
  rfl

/-- Resolving a service looks its handle up, above a continuation that takes the handle. -/
theorem resolves_of_move {o : Outcome S.Error Value} {next : State S}
    (hlookup : it.move close ((st.push (.resume (Effect.resolver k.type))).continueWith
      (.service k)) = pure next)
    (hhand : it.move close next = pure (st.holding (.ofOutcome o))) : it.Resolves close st k o := by
  have hbind : it.move close (st.continueWith (Effect.service k).node) = pure
      ((st.push (.resume (Effect.resolver k.type))).continueWith (.service k)) :=
    move_standard hr rfl rfl
  rw [Resolves, hbind, pure_bind, hlookup, pure_bind, hhand]

theorem resolves_of_find? {x : k.type.El} (h : st.context.find? k = some ⟨k.type, x⟩) :
    it.Resolves close st k (.ok ⟨.shared k.type, x⟩) := by
  have hlookup : it.move close ((st.push (.resume (Effect.resolver k.type))).continueWith
      (.service k)) = pure ((st.push (.resume (Effect.resolver k.type))).succeed
        ⟨.service, ⟨k.type, x⟩⟩) := by
    refine move_standard hr ?_ rfl
    have hfind : (st.push (.resume (Effect.resolver k.type))).awaiting.context.find? k = _ := h
    simp only [Handler.standard, Node.tag, Handler.onService, hfind]
    rfl
  refine resolves_of_move hr hlookup ?_
  show (it.host close).attempt (it.program.continuing (Effect.resolver k.type
    ⟨.service, ⟨k.type, x⟩⟩)) >>= _ = _
  rw [Effect.resolver_mk]
  rfl

theorem resolves_of_find?_eq_none (h : st.context.find? k = none) :
    it.Resolves close st k (.error (.serviceNotFound k)) := by
  have hlookup : it.move close ((st.push (.resume (Effect.resolver k.type))).continueWith
      (.service k)) = pure ((st.push (.resume (Effect.resolver k.type))).fail
        (.serviceNotFound k)) := by
    refine move_standard hr ?_ rfl
    have hfind : (st.push (.resume (Effect.resolver k.type))).awaiting.context.find? k = _ := h
    simp only [Handler.standard, Node.tag, Handler.onService, hfind]
    rfl
  -- the failure falls past the continuation
  exact resolves_of_move hr hlookup rfl

/-- **In a typed context all lookups agree.** -/
theorem agree (h : st.context.Typed) (k : Key) : it.Agree close st k (st.context.find? k) := by
  cases hk : st.context.find? k with
  | some s =>
    obtain ⟨x, rfl⟩ := h.find? hk
    have hget := Context.get?_of_find? hk
    exact .found x (by rw [Context.contains, hk]; rfl) hget (Context.require_of_get? hget)
      (resolves_of_find? hr hk)
  | none =>
    have hget := Context.get?_of_find?_eq_none hk
    exact .missing (by rw [Context.contains, hk]; rfl) hget (Context.require_of_get?_eq_none hget)
      (resolves_of_find?_eq_none hr hk)

/-! ### Along runs -/

/-- **Lookups agree at every point of every run.** Contexts that arise from typed ones are typed.
Every point of a run is within some layers. If these are standard and the run began in a typed
context, the one in force is typed, too, and all ways to look a key up agree: on the instance
written by the innermost of the layers that writes the key, or on what the ambient context finds if
none does. If the effect furnishes the layers are standard, and the release effects that wait in
scopes furnish as well, in typed contexts. -/
theorem lookups_agree (hσ : it.strategy.KeepsJobs) (node : Node S) {context : Context}
    (hcontext : context.Typed) (root : ScopeId) (b b' : BudgetId) (w₀ : World S) :
    (∀ c, Context.Arises S c → c.Typed) ∧
    (∀ close st w, it.Moves close b (.start node context root b') w₀ st w →
      ∃ ls, it.Within close b (.start node context root b') w₀ ls st w) ∧
    (∀ close ls st w, it.Within close b (.start node context root b') w₀ ls st w →
      (∀ l ∈ ls, l.Standard) → st.context.Typed ∧
        ∃ wss, Layer.Written context ls wss st.context ∧ ∀ k,
          it.Agree close st k
            ((wss.findSome? fun ws ↦ ws.reverse.lookup k).or (context.find? k))) ∧
    (it.program.Furnishes node → ∀ depth ls st w,
      it.Within (it.closeScope depth) b (.start node context root b') w₀ ls st w →
        (∀ l ∈ ls, l.Standard) ∧ (w₀.Furnished it.program → w.Furnished it.program)) := by
  refine ⟨fun c h ↦ h.typed, fun close st w h ↦ h.within hr hσ rfl, ?_, ?_⟩
  · intro close ls st w h hls
    obtain ⟨wss, hwritten⟩ : ∃ wss, Layer.Written context ls wss st.context :=
      (h.nested hr hσ rfl).written hls
    have htyped : st.context.Typed := h.typed hr hσ rfl hcontext hls
    refine ⟨htyped, wss, hwritten, fun k ↦ ?_⟩
    rw [← hwritten.find?]
    exact agree hr htyped k
  · intro hnode depth ls st w h
    obtain ⟨hls, -, hw⟩ := h.furnished hr hσ (closeScope_furnished hr hσ depth) hnode hcontext
    exact ⟨hls, hw⟩

omit hr

/-- A number is looked up where it is provided beside a flag. -/
def besideFlag : Node Tally := .provide Layer.numberWithFlag (.service ⟨.int, none⟩)

theorem standard_numberWithFlag : Layer.numberWithFlag.Standard :=
  ⟨.beside (.value ⟨.int, none⟩ (2 : Int64)) (.value ⟨.flag, none⟩ true), ⟨trivial, trivial⟩, rfl⟩

theorem furnishes_besideFlag : tally.Furnishes besideFlag :=
  Program.all_of standard_numberWithFlag fun _ hm ↦ by
    cases hm
    exact Program.all_of trivial nofun

theorem typed_numbered : Layer.numbered.Typed := Context.typed_empty.bind _

/-- In a context that binds the number to one, the number is about to be looked up. -/
theorem within_besideFlag : ∃ st w,
    (plain tally "lookups" false).Within ((plain tally "lookups" false).closeScope 9) ⟨0⟩
      (.start besideFlag Layer.numbered ⟨0⟩ ⟨0⟩) tallyWorld [Layer.numberWithFlag] st w ∧
    st.context.find? ⟨.int, none⟩ = some ⟨.int, (1 : Int64)⟩ :=
  ⟨_, _, .enters .start rfl rfl rfl, rfl⟩

/-- All ways to look the number up find one, which the ambient context has bound it to. -/
theorem lookups_agree_besideFlag :
    Layer.numbered.Typed ∧ (Strategy.sync : Strategy Tally).KeepsJobs ∧ ∃ st w,
      (plain tally "lookups" false).Within ((plain tally "lookups" false).closeScope 9) ⟨0⟩
        (.start besideFlag Layer.numbered ⟨0⟩ ⟨0⟩) tallyWorld [Layer.numberWithFlag] st w ∧
      (plain tally "lookups" false).Agree ((plain tally "lookups" false).closeScope 9) st
        ⟨.int, none⟩ (some ⟨.int, (1 : Int64)⟩) ∧
      tally.Furnishes besideFlag ∧ w.Furnished tally := by
  obtain ⟨-, -, hagree, hfurnished⟩ := @lookups_agree Tally (plain tally "lookups" false) rfl
    Strategy.keepsJobs_sync besideFlag _ typed_numbered ⟨0⟩ ⟨0⟩ ⟨0⟩ tallyWorld
  obtain ⟨st, w, hwithin, hint⟩ := within_besideFlag
  obtain ⟨hls, hw⟩ := hfurnished furnishes_besideFlag 9 _ st w hwithin
  obtain ⟨-, wss, hwritten, hall⟩ := hagree _ _ st w hwithin hls
  have hnumber := hall ⟨.int, none⟩
  rw [← hwritten.find?, hint] at hnumber
  exact ⟨typed_numbered, Strategy.keepsJobs_sync, st, w, hwithin, hnumber, furnishes_besideFlag,
    hw fun _ ↦ nofun⟩

/-- **What a layer binds can be undone by the layer beside it**, although that binds another key.
The only layer around the point where the number is looked up binds it to two, which is not
found. -/
theorem provided_value_undone :
    (∃ st w, (plain tally "lookups" false).Within ((plain tally "lookups" false).closeScope 9) ⟨0⟩
        (.start besideFlag Layer.numbered ⟨0⟩ ⟨0⟩) tallyWorld [Layer.numberWithFlag] st w ∧
      st.context.get? ⟨.int, none⟩ = some (1 : Int64)) ∧
    ¬∀ (node : Node Tally) (context : Context) (ka kb : Key) (va : ka.type.El) (vb : kb.type.El)
      (st : State Tally) (w : World Tally), context.Typed → ka ≠ kb →
        (plain tally "lookups" false).Within ((plain tally "lookups" false).closeScope 9) ⟨0⟩
          (.start node context ⟨0⟩ ⟨0⟩) tallyWorld
          [(Layer.ofValue ka va).beside (Layer.ofValue kb vb)] st w →
        st.context.get? ka = some va := by
  obtain ⟨st, w, hwithin, hint⟩ := within_besideFlag
  have hone : st.context.get? ⟨.int, none⟩ = some (1 : Int64) := Context.get?_of_find? hint
  refine ⟨⟨st, w, hwithin, hone⟩, fun h ↦ ?_⟩
  have htwo := h besideFlag Layer.numbered ⟨.int, none⟩ ⟨.flag, none⟩ (2 : Int64) true st w
    typed_numbered (by decide) hwithin
  exact absurd (Option.some.inj (hone.symm.trans htwo)) (by decide)

end Interpreter

end EffectMachine
