import EffectMachine.Proofs.Rounds

/-!
# What unwinding does to a stack

A failure on its way down passes frames until one recovers. What a single frame does with a cause is
one of three things, each a relation between the cause, the frame and the worlds before and after:

```
Passes    the failure goes on, and the frame adds a cause of its own or none
Recovers  the interpretation goes on in another state
Breaks    something that the frame asks for does not end, or the strategy panics
```

`Host.Unwinds` reads the answer for a whole stack off these: a prefix of the stack is passed, and
then the stack is over, or the next frame recovers, or it breaks.

**The cause is threaded through the prefix.** A frame is shown the cause with everything that the
frames above it have added (`Cause.joined`), and the world as they have left it. So a scope that
fails to close turns an error into a composite, which a retry session below no longer looks at.

**First means first.** A frame that passes a cause does not recover from it in the same world
(`Host.Passes.not_recovers`), so there is one way only to split a stack.
-/

namespace EffectMachine

variable {S : Signature} {α : Type}

/-! ### Causes that frames add -/

/-- A cause combined with the causes that frames have added to it, one after the other. -/
def Cause.joined {ε : Type} (cause : Cause ε) (added : List (Cause ε)) : Cause ε :=
  added.foldl Cause.combine cause

@[simp] theorem Cause.joined_nil {ε : Type} (cause : Cause ε) : cause.joined [] = cause := rfl

@[simp] theorem Cause.joined_singleton {ε : Type} (cause other : Cause ε) :
    cause.joined [other] = cause.combine other := rfl

theorem Cause.joined_append {ε : Type} (cause : Cause ε) (xs ys : List (Cause ε)) :
    cause.joined (xs ++ ys) = (cause.joined xs).joined ys :=
  List.foldl_append

/-! ### Closers and guarded closures -/

/-- Closing a scope ends well, or with a composite of failures, or not at all. -/
def Closer.Proper (close : Closer S) : Prop :=
  ∀ ⦃s w x w'⦄, close s w = (x, w') →
    x = .ok (.ok ()) ∨ (∃ failures, failures ≠ [] ∧ x = .ok (.error (.composite failures))) ∨
      x = .error .exhausted

namespace Host

variable {h : Host S} {w w' : World S}

theorem attempt_eq_ok {a : Action S α} {x : α} :
    h.attempt a w = (.ok (.ok x), w') ↔ h.perform a w = (.ok x, w') := by
  rw [attempt, Machine.guard_apply]
  rcases h.perform a w with ⟨(p | _) | y, w₁⟩ <;> simp [Machine.guarded]

theorem attempt_eq_defect {a : Action S α} {d : Defect} :
    h.attempt a w = (.ok (.error d), w') ↔
      ∃ p, h.perform a w = (.error (.panic p), w') ∧ d = .panic p.text := by
  rw [attempt, Machine.guard_apply]
  rcases h.perform a w with ⟨(p | _) | y, w₁⟩
  · constructor
    · intro heq
      cases heq
      exact ⟨p, rfl, rfl⟩
    · rintro ⟨_, heq, rfl⟩
      cases heq
      rfl
  · exact ⟨nofun, fun ⟨_, hd, _⟩ ↦ nomatch hd⟩
  · exact ⟨nofun, fun ⟨_, hd, _⟩ ↦ nomatch hd⟩

/-- A guarded closure escapes only where a scope that it closes does not finish closing. -/
theorem attempt_eq_error {a : Action S α} {e : Escape} :
    h.attempt a w = (.error e, w') ↔
      h.perform a w = (.error .exhausted, w') ∧ e = .exhausted := by
  rw [attempt, Machine.guard_apply]
  rcases h.perform a w with ⟨(p | _) | y, w₁⟩
  · exact ⟨nofun, fun hd ↦ nomatch hd.1⟩
  · constructor
    · intro heq
      cases heq
      exact ⟨rfl, rfl⟩
    · rintro ⟨heq, rfl⟩
      cases heq
      rfl
  · exact ⟨nofun, fun hd ↦ nomatch hd.1⟩

theorem invoke_ne_panic (release : Releaser S) (s : ScopeId) (f : Finalizer S) (p : Panic) :
    h.invoke release s f w ≠ (.error (.panic p), w') := by
  intro heq
  rw [invoke, Machine.bind_ok (Machine.modify_apply _ w)] at heq
  rcases Machine.bind_eq heq with ⟨x, w₁, -, heq⟩ | ⟨e, hguard, he⟩
  · cases heq
  · rw [Machine.guard_apply] at hguard
    rw [Except.error.inj he.symm] at hguard
    exact Machine.guarded_ne_panic _ p (Prod.mk.inj hguard).1

theorem invokeAll_ne_panic (release : Releaser S) (s : ScopeId) (fs : List (Finalizer S))
    (p : Panic) : h.invokeAll release s fs w ≠ (.error (.panic p), w') := by
  induction fs generalizing w w' with
  | nil => nofun
  | cons f fs ih =>
    intro heq
    rw [invokeAll] at heq
    rcases Machine.bind_eq heq with ⟨x, w₁, -, heq⟩ | ⟨e, hf, he⟩
    · rcases x with cause | ⟨⟩
      · rcases Machine.bind_eq heq with ⟨_, _, -, heq⟩ | ⟨e, hfs, he⟩
        · cases heq
        · cases he
          exact ih hfs
      · exact ih heq
    · cases he
      exact h.invoke_ne_panic release s f p hf

/-- Closing a scope reports failures as one composite. -/
theorem proper_shut (h : Host S) (release : Releaser S) : Closer.Proper (h.shut release) := by
  intro s w x w' heq
  rw [shut, Machine.bind_ok (Machine.gets_apply _ w)] at heq
  split at heq
  · cases heq
    exact .inl rfl
  · rw [Machine.bind_ok (Machine.modify_apply _ w)] at heq
    rcases Machine.bind_eq heq with ⟨failures, w₁, -, heq⟩ | ⟨e, hall, rfl⟩
    · rw [Machine.bind_ok (Machine.modify_apply _ w₁)] at heq
      cases failures with
      | nil =>
        cases heq
        exact .inl rfl
      | cons cause causes =>
        cases heq
        exact .inr (.inl ⟨cause :: causes, List.cons_ne_nil _ _, rfl⟩)
    · cases e with
      | panic p => exact absurd hall (h.invokeAll_ne_panic release s _ p)
      | exhausted => exact .inr (.inr rfl)

end Host

theorem Interpreter.proper_closeScope (it : Interpreter S) (fuel : Nat) :
    Closer.Proper (it.closeScope fuel) := by
  cases fuel with
  | zero =>
    rintro s w _ _ ⟨⟩
    exact .inr (.inr rfl)
  | succ fuel => exact Host.proper_shut _ _

/-- Closing a scope does not panic. -/
theorem Interpreter.closeScope_ne_panic {it : Interpreter S} {fuel : Nat} {s : ScopeId}
    {w w' : World S} {x : Except Escape (Outcome S.Error Unit)}
    (heq : it.closeScope fuel s w = (x, w')) {p : Panic} (hx : x = .error (.panic p)) : False := by
  subst hx
  rcases it.proper_closeScope fuel heq with h | ⟨_, -, h⟩ | h <;> cases h

/-! ### One frame -/

/-- What a session shows its schedule of an error. -/
def RetrySession.failed (session : RetrySession S) (error : S.Error) (w : World S) :
    Failed S.Error :=
  ⟨session.attempt, w.clock.since session.startedAt, error⟩

/-- The state when a failure has left a frame: the context or the scope outside it is in force
again. -/
def State.leave (st : State S) : Frame S → State S
  | .restoreContext context => { st with context }
  | .closeScope _ parent => { st with scope := parent }
  | .resume _ | .recover _ _ | .retry _ | .timeout _ _ | .parallel _ _ _ | .race _ _ => st

theorem State.leave_stack (st : State S) (stack : List (Frame S)) (f : Frame S) :
    { st with stack }.leave f = { st.leave f with stack } := by
  cases f <;> rfl

namespace Host

/-- A failure passes a frame, which adds some causes to it. -/
inductive Passes (h : Host S) :
    Frame S → Cause S.Error → World S → List (Cause S.Error) → World S → Prop where
  | resume {next : Value → Action S (Step S)} {cause : Cause S.Error} {w : World S} :
      Passes h (.resume next) cause w [] w
  | timeout {limit : Duration} {startedAt : Nat} {cause : Cause S.Error} {w : World S} :
      Passes h (.timeout limit startedAt) cause w [] w
  | parallel {rest : List (Fork S)} {collected : List Value}
      {collect : List Value → Action S (Except Defect Value)} {cause : Cause S.Error}
      {w : World S} : Passes h (.parallel rest collected collect) cause w [] w
  | restoreContext {context : Context} {cause : Cause S.Error} {w : World S} :
      Passes h (.restoreContext context) cause w [] w
  /-- The scope is closed, and all its finalizers succeed. -/
  | closed {scope parent : ScopeId} {cause : Cause S.Error} {w w' : World S}
      (hclose : h.close scope w = (.ok (.ok ()), w')) :
      Passes h (.closeScope scope parent) cause w [] w'
  /-- The scope is closed, and some of its finalizers fail. -/
  | closedBadly {scope parent : ScopeId} {cause : Cause S.Error} {w w' : World S}
      {failures : List (Cause S.Error)} (hne : failures ≠ [])
      (hclose : h.close scope w = (.ok (.error (.composite failures)), w')) :
      Passes h (.closeScope scope parent) cause w [.composite failures] w'
  /-- The predicate rejects the cause. -/
  | rejected {accepts : Cause S.Error → Action S Bool}
      {handler : Cause S.Error → Action S (Plan S)} {cause : Cause S.Error} {w w' : World S}
      (haccepts : h.perform (accepts cause) w = (.ok false, w')) :
      Passes h (.recover accepts handler) cause w [] w'
  /-- The predicate panics. -/
  | undecided {accepts : Cause S.Error → Action S Bool}
      {handler : Cause S.Error → Action S (Plan S)} {cause : Cause S.Error} {w w' : World S}
      {p : Panic} (haccepts : h.perform (accepts cause) w = (.error (.panic p), w')) :
      Passes h (.recover accepts handler) cause w [.defect (.panic p.text)] w'
  /-- The cause is no bare error, and the schedule is not asked. -/
  | unasked {session : RetrySession S} {cause : Cause S.Error} {w : World S}
      (hcause : cause.isFail = false) : Passes h (.retry session) cause w [] w
  /-- The schedule says stop. -/
  | stopped {session : RetrySession S} {error : S.Error} {w w' : World S} {jitter : JitterSource}
      (hdecide : h.perform (session.schedule.decideFrom session.jitter (session.failed error w)) w =
        (.ok (.stop, jitter), w')) :
      Passes h (.retry session) (.fail error) w [] w'
  /-- The schedule panics. -/
  | unscheduled {session : RetrySession S} {error : S.Error} {w w' : World S} {p : Panic}
      (hdecide : h.perform (session.schedule.decideFrom session.jitter (session.failed error w)) w =
        (.error (.panic p), w')) :
      Passes h (.retry session) (.fail error) w [.defect (.panic p.text)] w'

/-- A frame that has been taken off a stack recovers: the interpretation goes on in another
state. -/
inductive Recovers (h : Host S) :
    Frame S → Cause S.Error → State S → World S → State S → World S → Prop where
  /-- The predicate accepts the cause, and the handler builds an effect or panics. -/
  | accepted {accepts : Cause S.Error → Action S Bool}
      {handler : Cause S.Error → Action S (Plan S)} {cause : Cause S.Error} {st : State S}
      {w w₁ w' : World S} {x : Except Defect (Node S)}
      (haccepts : h.perform (accepts cause) w = (.ok true, w₁))
      (hbuild : h.build (handler cause) w₁ = (.ok x, w')) :
      Recovers h (.recover accepts handler) cause st w (st.continueBuilt x) w'
  /-- The cause is a bare error and the schedule says to try again. Its delay is slept, and the
  source runs again above the session. -/
  | again {session : RetrySession S} {error : S.Error} {st : State S} {w w₁ w' : World S}
      {delay : Duration} {jitter : JitterSource}
      (hdecide : h.perform (session.schedule.decideFrom session.jitter (session.failed error w)) w =
        (.ok (.retry delay, jitter), w₁))
      (hsleep : h.perform (h.strategy.sleep delay) w₁ = (.ok (), w')) :
      Recovers h (.retry session) (.fail error) st w
        ((st.push (.retry { session with jitter, attempt := session.attempt + 1 })).continueWith
          session.source) w'
  /-- A race goes on with its next branch, or fails with all its causes. -/
  | race {branches : List (Fork S)} {failures : List (Cause S.Error)} {cause : Cause S.Error}
      {st st' : State S} {w w' : World S}
      (hnext : h.nextRace branches (cause :: failures) st w = (.ok st', w')) :
      Recovers h (.race branches failures) cause st w st' w'

/-- A frame that has been taken off a stack breaks off the interpretation: a scope that it closes,
or that a closure of it closes, does not finish closing, or the strategy escapes. -/
inductive Breaks (h : Host S) :
    Frame S → Cause S.Error → State S → World S → Escape → World S → Prop where
  | closing {scope parent : ScopeId} {cause : Cause S.Error} {st : State S} {w w' : World S}
      (hclose : h.close scope w = (.error .exhausted, w')) :
      Breaks h (.closeScope scope parent) cause st w .exhausted w'
  | accepting {accepts : Cause S.Error → Action S Bool}
      {handler : Cause S.Error → Action S (Plan S)} {cause : Cause S.Error} {st : State S}
      {w w' : World S} (haccepts : h.perform (accepts cause) w = (.error .exhausted, w')) :
      Breaks h (.recover accepts handler) cause st w .exhausted w'
  | handling {accepts : Cause S.Error → Action S Bool}
      {handler : Cause S.Error → Action S (Plan S)} {cause : Cause S.Error} {st : State S}
      {w w₁ w' : World S} {e : Escape} (haccepts : h.perform (accepts cause) w = (.ok true, w₁))
      (hbuild : h.build (handler cause) w₁ = (.error e, w')) :
      Breaks h (.recover accepts handler) cause st w e w'
  | scheduling {session : RetrySession S} {error : S.Error} {st : State S} {w w' : World S}
      (hdecide : h.perform (session.schedule.decideFrom session.jitter (session.failed error w)) w =
        (.error .exhausted, w')) :
      Breaks h (.retry session) (.fail error) st w .exhausted w'
  | sleeping {session : RetrySession S} {error : S.Error} {st : State S} {w w₁ w' : World S}
      {delay : Duration} {jitter : JitterSource} {e : Escape}
      (hdecide : h.perform (session.schedule.decideFrom session.jitter (session.failed error w)) w =
        (.ok (.retry delay, jitter), w₁))
      (hsleep : h.perform (h.strategy.sleep delay) w₁ = (.error e, w')) :
      Breaks h (.retry session) (.fail error) st w e w'
  | racing {branches : List (Fork S)} {failures : List (Cause S.Error)} {cause : Cause S.Error}
      {st : State S} {w w' : World S} {e : Escape}
      (hnext : h.nextRace branches (cause :: failures) st w = (.error e, w')) :
      Breaks h (.race branches failures) cause st w e w'

variable {h : Host S} {f : Frame S} {cause : Cause S.Error} {st st' : State S}
  {w w' : World S} {added : List (Cause S.Error)} {e : Escape}

/-! ### What a frame does is one of the three -/

theorem Passes.fall (hp : h.Passes f cause w added w') (st : State S) :
    h.fall f cause st w = (.ok (.on (cause.joined added) (st.leave f)), w') := by
  cases hp with
  | resume | timeout | parallel | restoreContext => rfl
  | closed hclose =>
    have hclosing : h.closing _ cause w = (.ok cause, w') := Machine.bind_ok hclose _
    exact Machine.bind_ok hclosing _
  | closedBadly hne hclose =>
    have hclosing : h.closing _ cause w = (.ok (cause.combine _), w') := Machine.bind_ok hclose _
    exact Machine.bind_ok hclosing _
  | rejected haccepts => exact Machine.bind_ok (attempt_eq_ok.2 haccepts) _
  | undecided haccepts => exact Machine.bind_ok (attempt_eq_defect.2 ⟨_, haccepts, rfl⟩) _
  | @unasked session _ _ hcause =>
    have hconsult : h.consult session cause w = (.ok (.giveUp cause), w) := by
      cases cause with
      | fail error => cases hcause
      | validation | serviceNotFound | timeout | composite | defect => rfl
    exact Machine.bind_ok hconsult _
  | @stopped session error _ _ jitter hdecide =>
    have hconsult : h.consult session (.fail error) w = (.ok (.giveUp (.fail error)), w') :=
      Machine.bind_ok (attempt_eq_ok.2 hdecide) _
    exact Machine.bind_ok hconsult _
  | @unscheduled session error _ _ p hdecide =>
    have hconsult : h.consult session (.fail error) w =
        (.ok (.giveUp ((Cause.fail error).combine (.defect (.panic p.text)))), w') :=
      Machine.bind_ok (attempt_eq_defect.2 ⟨p, hdecide, rfl⟩) _
    exact Machine.bind_ok hconsult _

theorem Recovers.fall (hr : h.Recovers f cause st w st' w') :
    h.fall f cause st w = (.ok (.caught st'), w') := by
  cases hr with
  | accepted haccepts hbuild =>
    exact (Machine.bind_ok (attempt_eq_ok.2 haccepts) _).trans (Machine.bind_ok hbuild _)
  | @again session error _ _ _ _ delay jitter hdecide hsleep =>
    have hconsult : h.consult session (.fail error) w =
        (.ok (.again { session with jitter, attempt := session.attempt + 1 }), w') :=
      (Machine.bind_ok (attempt_eq_ok.2 hdecide) _).trans (Machine.bind_ok hsleep _)
    exact Machine.bind_ok hconsult _
  | race hnext => exact Machine.bind_ok hnext _

theorem Breaks.fall (hb : h.Breaks f cause st w e w') :
    h.fall f cause st w = (.error e, w') := by
  cases hb with
  | closing hclose => exact Machine.bind_error (Machine.bind_error hclose _) _
  | accepting haccepts => exact Machine.bind_error (attempt_eq_error.2 ⟨haccepts, rfl⟩) _
  | handling haccepts hbuild =>
    exact (Machine.bind_ok (attempt_eq_ok.2 haccepts) _).trans (Machine.bind_error hbuild _)
  | @scheduling session error _ _ _ hdecide =>
    have hconsult : h.consult session (.fail error) w = (.error .exhausted, w') :=
      Machine.bind_error (attempt_eq_error.2 ⟨hdecide, rfl⟩) _
    exact Machine.bind_error hconsult _
  | @sleeping session error _ _ _ _ delay jitter _ hdecide hsleep =>
    have hconsult : h.consult session (.fail error) w = (.error e, w') :=
      (Machine.bind_ok (attempt_eq_ok.2 hdecide) _).trans (Machine.bind_error hsleep _)
    exact Machine.bind_error hconsult _
  | racing hnext => exact Machine.bind_error hnext _

/-- **Every frame passes a cause, recovers from it or breaks.** -/
theorem fall_cases (hclose : Closer.Proper h.close) (f : Frame S) (cause : Cause S.Error)
    (st : State S) (w : World S) :
    (∃ added w', h.Passes f cause w added w') ∨ (∃ st' w', h.Recovers f cause st w st' w') ∨
      ∃ e w', h.Breaks f cause st w e w' := by
  cases f with
  | resume | timeout | parallel | restoreContext => exact .inl ⟨[], w, by constructor⟩
  | closeScope scope parent =>
    rcases hc : h.close scope w with ⟨x, w'⟩
    rcases hclose hc with rfl | ⟨failures, hne, rfl⟩ | rfl
    · exact .inl ⟨_, _, .closed hc⟩
    · exact .inl ⟨_, _, .closedBadly hne hc⟩
    · exact .inr (.inr ⟨_, _, .closing hc⟩)
  | recover accepts handler =>
    rcases ha : h.perform (accepts cause) w with ⟨(p | _) | _ | _, w₁⟩
    · exact .inl ⟨_, _, .undecided ha⟩
    · exact .inr (.inr ⟨_, _, .accepting ha⟩)
    · exact .inl ⟨_, _, .rejected ha⟩
    · rcases hb : h.build (handler cause) w₁ with ⟨e | x, w'⟩
      · exact .inr (.inr ⟨_, _, .handling ha hb⟩)
      · exact .inr (.inl ⟨_, _, .accepted ha hb⟩)
  | race branches failures =>
    rcases hn : h.nextRace branches (cause :: failures) st w with ⟨e | st', w'⟩
    · exact .inr (.inr ⟨_, _, .racing hn⟩)
    · exact .inr (.inl ⟨_, _, .race hn⟩)
  | retry session =>
    cases cause with
    | validation | serviceNotFound | timeout | composite | defect =>
      exact .inl ⟨_, _, .unasked rfl⟩
    | fail error =>
      rcases hd : h.perform (session.schedule.decideFrom session.jitter (session.failed error w)) w
        with ⟨(p | _) | ⟨_ | delay, jitter⟩, w₁⟩
      · exact .inl ⟨_, _, .unscheduled hd⟩
      · exact .inr (.inr ⟨_, _, .scheduling hd⟩)
      · exact .inl ⟨_, _, .stopped hd⟩
      · rcases hs : h.perform (h.strategy.sleep delay) w₁ with ⟨e | ⟨⟩, w'⟩
        · exact .inr (.inr ⟨_, _, .sleeping hd hs⟩)
        · exact .inr (.inl ⟨_, _, .again hd hs⟩)

/-- A frame does not recover from a cause that passes it. -/
theorem Passes.not_recovers (hp : h.Passes f cause w added w') {w'' : World S} :
    ¬h.Recovers f cause st w st' w'' :=
  fun hr ↦ by cases (hp.fall st).symm.trans hr.fall

/-- The branch of a race that goes on runs above what is left of the race, and nothing below it
changes. -/
theorem nextRace_stack {branches : List (Fork S)} {failures : List (Cause S.Error)}
    (hnext : h.nextRace branches failures st w = (.ok st', w')) :
    st'.stack = st.stack ∨ ∃ rest failures', st'.stack = .race rest failures' :: st.stack := by
  induction branches generalizing failures w with
  | nil =>
    cases hnext
    exact .inl rfl
  | cons f rest ih =>
    obtain ⟨turn, w₁, -, hnext⟩ := Machine.bind_eq_ok hnext
    rcases turn with job | cause | v
    · cases hnext
      exact .inr ⟨rest, failures, rfl⟩
    · exact ih hnext
    · cases hnext
      exact .inl rfl

/-- A frame that recovers leaves the frames below it alone. It is gone, or a frame of its kind is
in its place. -/
theorem Recovers.stack (hr : h.Recovers f cause st w st' w') :
    st'.stack = st.stack ∨ ∃ f', f'.kind = f.kind ∧ st'.stack = f' :: st.stack := by
  cases hr with
  | @accepted _ _ _ _ _ _ _ x haccepts hbuild => cases x <;> exact .inl rfl
  | @again session _ _ _ _ _ delay jitter hdecide hsleep =>
    exact .inr ⟨.retry { session with jitter, attempt := session.attempt + 1 }, rfl, rfl⟩
  | race hnext =>
    refine (nextRace_stack hnext).imp_right ?_
    rintro ⟨rest, failures, hstack⟩
    exact ⟨.race rest failures, rfl, hstack⟩

/-! ### A whole stack -/

/-- A failure passes several frames, newest first. Every frame is shown the cause with everything
that the frames before it have added. -/
inductive PassesAll (h : Host S) :
    List (Frame S) → Cause S.Error → World S → List (Cause S.Error) → World S → Prop where
  | nil {cause : Cause S.Error} {w : World S} : PassesAll h [] cause w [] w
  | cons {f : Frame S} {fs : List (Frame S)} {cause : Cause S.Error} {w w₁ w' : World S}
      {added added' : List (Cause S.Error)} (hf : h.Passes f cause w added w₁)
      (hfs : PassesAll h fs (cause.joined added) w₁ added' w') :
      PassesAll h (f :: fs) cause w (added ++ added') w'

/-- What unwinding a stack comes to. -/
inductive Unwinds (h : Host S) (stack : List (Frame S)) (cause : Cause S.Error) (st : State S)
    (w : World S) : Except Escape (Outcome S.Error (State S)) → World S → Prop where
  /-- Every frame is passed, and the interpretation fails. -/
  | failed {added : List (Cause S.Error)} {w' : World S}
      (hpasses : h.PassesAll stack cause w added w') :
      Unwinds h stack cause st w (.ok (.error (cause.joined added))) w'
  /-- The first frame that is not passed recovers, above the frames below it. -/
  | recovered {passed below : List (Frame S)} {f : Frame S} {added : List (Cause S.Error)}
      {w₁ w' : World S} {st' : State S} (hstack : stack = passed ++ f :: below)
      (hpasses : h.PassesAll passed cause w added w₁)
      (hrecovers : h.Recovers f (cause.joined added)
        { passed.foldl State.leave st with stack := below } w₁ st' w') :
      Unwinds h stack cause st w (.ok (.ok st')) w'
  /-- The first frame that is not passed breaks off the interpretation. -/
  | broken {passed below : List (Frame S)} {f : Frame S} {added : List (Cause S.Error)}
      {w₁ w' : World S} {e : Escape} (hstack : stack = passed ++ f :: below)
      (hpasses : h.PassesAll passed cause w added w₁)
      (hbreaks : h.Breaks f (cause.joined added)
        { passed.foldl State.leave st with stack := below } w₁ e w') :
      Unwinds h stack cause st w (.error e) w'

/-- Frames that are passed leave the rest of the stack to be unwound. -/
theorem PassesAll.unwind {passed : List (Frame S)} (hp : h.PassesAll passed cause w added w')
    (st : State S) (below : List (Frame S)) :
    h.unwind (passed ++ below) cause st w =
      h.unwind below (cause.joined added) (passed.foldl State.leave st) w' := by
  induction hp generalizing st with
  | nil => rfl
  | @cons f fs cause w w₁ w' added added' hf hfs ih =>
    have hfall := hf.fall { st with stack := fs ++ below }
    rw [List.cons_append, Host.unwind, Machine.bind_ok hfall, State.leave_stack,
      Cause.joined_append, List.foldl_cons, ← ih]
    exact congrFun (h.unwind_stack (fs ++ below) (cause.joined added) (st.leave f) _) w₁

/-- Unwinding does what the reading of it says. -/
theorem Unwinds.unwind {stack : List (Frame S)} {x : Except Escape (Outcome S.Error (State S))}
    (hu : h.Unwinds stack cause st w x w') : h.unwind stack cause st w = (x, w') := by
  cases hu with
  | failed hpasses =>
    have hall := hpasses.unwind st []
    rw [List.append_nil] at hall
    rw [hall]
    rfl
  | recovered hstack hpasses hrecovers =>
    rw [hstack, hpasses.unwind, Host.unwind, Machine.bind_ok hrecovers.fall]
    rfl
  | broken hstack hpasses hbreaks =>
    rw [hstack, hpasses.unwind, Host.unwind]
    exact Machine.bind_error hbreaks.fall _

/-- A frame that is passed comes before the frames that are passed below it. -/
theorem Unwinds.cons {rest : List (Frame S)} {x : Except Escape (Outcome S.Error (State S))}
    {w₁ : World S} (hf : h.Passes f cause w added w₁)
    (hu : h.Unwinds rest (cause.joined added) (st.leave f) w₁ x w') :
    h.Unwinds (f :: rest) cause st w x w' := by
  cases hu with
  | failed hpasses =>
    rw [← Cause.joined_append]
    exact .failed (.cons hf hpasses)
  | recovered hstack hpasses hrecovers =>
    rw [← Cause.joined_append] at hrecovers
    exact .recovered (congrArg (f :: ·) hstack) (.cons hf hpasses) hrecovers
  | broken hstack hpasses hbreaks =>
    rw [← Cause.joined_append] at hbreaks
    exact .broken (congrArg (f :: ·) hstack) (.cons hf hpasses) hbreaks

/-- Every stack has a reading. -/
theorem exists_unwinds (hclose : Closer.Proper h.close) (stack : List (Frame S))
    (cause : Cause S.Error) (st : State S) (w : World S) :
    ∃ x w', h.Unwinds stack cause st w x w' := by
  induction stack generalizing cause st w with
  | nil => exact ⟨_, w, .failed .nil⟩
  | cons f rest ih =>
    rcases fall_cases hclose f cause { st with stack := rest } w with
      ⟨added, w₁, hf⟩ | ⟨st', w', hf⟩ | ⟨e, w', hf⟩
    · obtain ⟨x, w', hu⟩ := ih (cause.joined added) (st.leave f) w₁
      exact ⟨x, w', hu.cons hf⟩
    · exact ⟨_, w', .recovered (List.nil_append (f :: rest)).symm .nil hf⟩
    · exact ⟨_, w', .broken (List.nil_append (f :: rest)).symm .nil hf⟩

/-- **Unwinding a stack is passing frames until one recovers or breaks.** -/
theorem unwind_iff (hclose : Closer.Proper h.close) {stack : List (Frame S)}
    {x : Except Escape (Outcome S.Error (State S))} :
    h.unwind stack cause st w = (x, w') ↔ h.Unwinds stack cause st w x w' := by
  refine ⟨fun heq ↦ ?_, Unwinds.unwind⟩
  obtain ⟨y, w'', hu⟩ := exists_unwinds hclose stack cause st w
  obtain ⟨rfl, rfl⟩ := Prod.mk.inj (hu.unwind.symm.trans heq)
  exact hu

end Host

/-- **What unwinding does to every stack.** The answer is read off the frames from the newest one
on; a frame that passes a cause does not recover from it, so the frame that recovers is the first
one that does; and recovering touches no frame below. -/
theorem Interpreter.unwind_reads_stack (it : Interpreter S) (fuel : Nat) (stack : List (Frame S))
    (cause : Cause S.Error) (st : State S) (w : World S) :
    (∀ x w', (it.host (it.closeScope fuel)).unwind stack cause st w = (x, w') ↔
        (it.host (it.closeScope fuel)).Unwinds stack cause st w x w') ∧
      (∀ f cause st w added w₁ st' w₂,
        (it.host (it.closeScope fuel)).Passes f cause w added w₁ →
          ¬(it.host (it.closeScope fuel)).Recovers f cause st w st' w₂) ∧
      ∀ f cause st w st' w', (it.host (it.closeScope fuel)).Recovers f cause st w st' w' →
        st'.stack = st.stack ∨ ∃ f', f'.kind = f.kind ∧ st'.stack = f' :: st.stack :=
  ⟨fun _ _ ↦ Host.unwind_iff (it.proper_closeScope fuel),
    fun _ _ _ _ _ _ _ _ hp ↦ hp.not_recovers,
    fun _ _ _ _ _ _ hr ↦ hr.stack⟩

end EffectMachine
