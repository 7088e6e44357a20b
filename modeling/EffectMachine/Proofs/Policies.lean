import EffectMachine.Proofs.Closures

/-!
# The normal form of a schedule

A schedule keeps its rules, its ceiling and its jitter apart, and every combinator treats the three
differently: rules are appended, the ceiling is replaced or taken from below, the jitter is replaced
or kept from the left. A `Policy` is the expression that a schedule is built by, and its readings
say what the expression means without looking at rules: `Policy.ceiling`, `Policy.jitter`,
`Policy.delay`, and `Policy.Vetoes` for the limits and predicates that stand anywhere in it.

## What the normal form rests on

* **Consulting is the conjunction of the rules**: `consult_rules` reads a whole list of rules off
  the expression that built it. A scan that stops at the first objection decides no more than that
  some rule objects, since rules without side effects are all that an expression holds.
* **A shorter delay is a minimum**: it is associative (`Duration.shorter_assoc`), so what a scan
  gathers from left to right is what the expression gathers from its leaves.

`decideFrom_schedule` is the normal form of one decision, with the session's source of samples.
-/

namespace EffectMachine

namespace Duration

theorem nanos_shorter (a b : Duration) : (a.shorter b).nanos = min a.nanos b.nanos := by
  rw [shorter]
  split <;> rename_i h
  · exact (Nat.min_eq_left h).symm
  · exact (Nat.min_eq_right (Nat.le_of_not_le h)).symm

theorem shorter_assoc (a b c : Duration) :
    (a.shorter b).shorter c = a.shorter (b.shorter c) :=
  ext_nanos (by simp only [nanos_shorter]; omega)

/-- The shorter of two delays is at least a third one just if both are. -/
theorem le_shorter {a b c : Duration} : a ≤ b.shorter c ↔ a ≤ b ∧ a ≤ c := by
  show a.nanos ≤ (b.shorter c).nanos ↔ a.nanos ≤ b.nanos ∧ a.nanos ≤ c.nanos
  rw [nanos_shorter]
  omega

theorem shorter_eq_or (a b : Duration) : a.shorter b = a ∨ a.shorter b = b := by
  rw [shorter]
  split
  · exact .inl rfl
  · exact .inr rfl

end Duration

/-! ### Expressions -/

/-- The expression that a schedule is built by. Predicates are functions: they see the error, and
neither panic nor touch the world. -/
inductive Policy (S : Signature) where
  | backoff (b : Backoff)
  | upToRetries (p : Policy S) (n : Nat)
  | upToElapsed (p : Policy S) (limit : Duration)
  | onlyErrors (p : Policy S) (accepts : S.Error → Bool)
  | withJitter (p : Policy S) (factor : Float) (seed : Option UInt64)
  | intersect (p q : Policy S)

namespace Policy

variable {S : Signature}

/-- The schedule that an expression builds. -/
def schedule : Policy S → Schedule S
  | backoff b => .ofBackoff b
  | upToRetries p n => p.schedule.upToRetries n
  | upToElapsed p limit => p.schedule.upToElapsed limit
  | onlyErrors p accepts => p.schedule.onlyErrors fun e ↦ .done (accepts e)
  | withJitter p factor seed => p.schedule.withJitter factor seed
  | intersect p q => p.schedule.intersect q.schedule

/-! ### Readings -/

/-- The retries that an expression allows: ten unless it says otherwise. -/
def ceiling : Policy S → Nat
  | backoff _ => 10
  | upToRetries _ n => n
  | upToElapsed p _ => p.ceiling
  | onlyErrors p _ => p.ceiling
  | withJitter p _ _ => p.ceiling
  | intersect p q => min p.ceiling q.ceiling

/-- The jitter that an expression sets last. -/
def jitter : Policy S → Option Jitter
  | backoff _ => none
  | upToRetries p _ => p.jitter
  | upToElapsed p _ => p.jitter
  | onlyErrors p _ => p.jitter
  | withJitter _ factor seed => some (.ofFactor factor seed)
  | intersect p q => p.jitter.or q.jitter

/-- The backoffs at the leaves. -/
def backoffs : Policy S → List Backoff
  | backoff b => [b]
  | upToRetries p _ => p.backoffs
  | upToElapsed p _ => p.backoffs
  | onlyErrors p _ => p.backoffs
  | withJitter p _ _ => p.backoffs
  | intersect p q => p.backoffs ++ q.backoffs

/-- The limits on the elapsed time that stand in an expression. -/
def limits : Policy S → List Duration
  | backoff _ => []
  | upToRetries p _ => p.limits
  | upToElapsed p limit => p.limits ++ [limit]
  | onlyErrors p _ => p.limits
  | withJitter p _ _ => p.limits
  | intersect p q => p.limits ++ q.limits

/-- The predicates on errors that stand in an expression. -/
def predicates : Policy S → List (S.Error → Bool)
  | backoff _ => []
  | upToRetries p _ => p.predicates
  | upToElapsed p _ => p.predicates
  | onlyErrors p accepts => p.predicates ++ [accepts]
  | withJitter p _ _ => p.predicates
  | intersect p q => p.predicates ++ q.predicates

/-- The shortest delay that the leaves propose before retry number `attempt`. -/
def delay (attempt : Nat) : Policy S → Duration
  | backoff b => b.delay attempt
  | upToRetries p _ => p.delay attempt
  | upToElapsed p _ => p.delay attempt
  | onlyErrors p _ => p.delay attempt
  | withJitter p _ _ => p.delay attempt
  | intersect p q => (p.delay attempt).shorter (q.delay attempt)

/-- Some limit is exceeded, or some predicate rejects the error. -/
def Vetoes (p : Policy S) (f : Failed S.Error) : Prop :=
  (∃ limit ∈ p.limits, limit < f.elapsed) ∨ ∃ accepts ∈ p.predicates, accepts f.error = false

/-- The expression allows no further retry. -/
def Objects (p : Policy S) (f : Failed S.Error) : Prop := p.ceiling ≤ f.attempt ∨ p.Vetoes f

instance (p : Policy S) (f : Failed S.Error) : Decidable (p.Vetoes f) :=
  inferInstanceAs (Decidable (_ ∨ _))

instance (p : Policy S) (f : Failed S.Error) : Decidable (p.Objects f) :=
  inferInstanceAs (Decidable (_ ∨ _))

theorem vetoes_upToElapsed {p : Policy S} {limit : Duration} {f : Failed S.Error} :
    (p.upToElapsed limit).Vetoes f ↔ p.Vetoes f ∨ limit < f.elapsed := by
  simp [Vetoes, limits, predicates, or_and_right, exists_or, or_right_comm]

theorem vetoes_onlyErrors {p : Policy S} {accepts : S.Error → Bool} {f : Failed S.Error} :
    (p.onlyErrors accepts).Vetoes f ↔ p.Vetoes f ∨ accepts f.error = false := by
  simp [Vetoes, limits, predicates, or_and_right, exists_or, or_assoc]

theorem vetoes_intersect {p q : Policy S} {f : Failed S.Error} :
    (p.intersect q).Vetoes f ↔ p.Vetoes f ∨ q.Vetoes f := by
  simp [Vetoes, limits, predicates, or_and_right, exists_or]
  grind

/-- Two expressions object together if one of them does. -/
theorem objects_intersect {p q : Policy S} {f : Failed S.Error} :
    (p.intersect q).Objects f ↔ p.Objects f ∨ q.Objects f := by
  simp only [Objects, vetoes_intersect, ceiling]
  grind

/-! ### The delay is least -/

theorem delay_mem (p : Policy S) (attempt : Nat) :
    p.delay attempt ∈ p.backoffs.map (·.delay attempt) := by
  induction p with
  | backoff b => exact List.mem_singleton.mpr rfl
  | upToRetries _ _ ih | upToElapsed _ _ ih | onlyErrors _ _ ih | withJitter _ _ _ ih => exact ih
  | intersect p q ihp ihq =>
    rw [backoffs, List.map_append, List.mem_append, delay]
    rcases (p.delay attempt).shorter_eq_or (q.delay attempt) with h | h <;> rw [h]
    · exact .inl ihp
    · exact .inr ihq

theorem delay_le (p : Policy S) (attempt : Nat) :
    ∀ b ∈ p.backoffs, p.delay attempt ≤ b.delay attempt := by
  induction p with
  | backoff b =>
    intro b' hb
    rw [List.mem_singleton.mp hb]
    exact Nat.le_refl _
  | upToRetries _ _ ih | upToElapsed _ _ ih | onlyErrors _ _ ih | withJitter _ _ _ ih => exact ih
  | intersect p q ihp ihq =>
    intro b hb
    have hle := Duration.le_shorter.mp (Nat.le_refl ((p.intersect q).delay attempt).nanos)
    rcases List.mem_append.mp hb with hb | hb
    · exact Nat.le_trans hle.1 (ihp b hb)
    · exact Nat.le_trans hle.2 (ihq b hb)

end Policy

/-! ### Consulting the rules -/

namespace Schedule

variable {S : Signature} {f : Failed S.Error}

/-- Rules in a row are consulted one part after the other, with the delay at hand. -/
theorem consult_append (rs rs' : List (Rule S)) (d : Option Duration) :
    consult f (rs ++ rs') d = (consult f rs d).bind fun
      | none => .done none
      | some d => consult f rs' d := by
  induction rs generalizing d with
  | nil => rfl
  | cons r rs ih =>
    show (r.verdict f).bind _ = ((r.verdict f).bind _).bind _
    rw [Action.bind_assoc]
    congr 1
    funext v
    cases v with
    | stop => rfl
    | pass | delay => exact ih _

end Schedule

namespace Policy

variable {S : Signature}

/-- The delay at hand, or the one of an expression if that is shorter. -/
def improve (p : Policy S) (attempt : Nat) : Option Duration → Duration
  | none => p.delay attempt
  | some d => d.shorter (p.delay attempt)

/-- **The rules of an expression object just if it vetoes**, and else hand on its delay, or the one
at hand if that is shorter. -/
theorem consult_rules (p : Policy S) (f : Failed S.Error) (d : Option Duration) :
    Schedule.consult f p.schedule.rules d =
      .done (if p.Vetoes f then none else some (some (p.improve f.attempt d))) := by
  induction p generalizing d with
  | backoff b =>
    have hb : ¬(backoff b : Policy S).Vetoes f := by simp [Vetoes, limits, predicates]
    rw [if_neg hb]
    cases d <;> rfl
  | upToRetries p n ih => exact ih d
  | withJitter p factor seed ih => exact ih d
  | upToElapsed p limit ih =>
    show Schedule.consult f (p.schedule.rules ++ [.within limit]) d = _
    rw [Schedule.consult_append, ih, Action.done_bind]
    by_cases hp : p.Vetoes f
    · rw [if_pos hp, if_pos (vetoes_upToElapsed.mpr (.inl hp))]
    · by_cases hl : limit < f.elapsed <;>
        simp [hp, hl, vetoes_upToElapsed, Schedule.consult, Rule.verdict, improve, delay]
  | onlyErrors p accepts ih =>
    show Schedule.consult f (p.schedule.rules ++ [.onError fun e ↦ .done (accepts e)]) d = _
    rw [Schedule.consult_append, ih, Action.done_bind]
    by_cases hp : p.Vetoes f
    · rw [if_pos hp, if_pos (vetoes_onlyErrors.mpr (.inl hp))]
    · cases ha : accepts f.error <;>
        simp [hp, ha, vetoes_onlyErrors, Schedule.consult, Rule.verdict, improve, delay]
  | intersect p q ihp ihq =>
    show Schedule.consult f (p.schedule.rules ++ q.schedule.rules) d = _
    rw [Schedule.consult_append, ihp, Action.done_bind]
    by_cases hp : p.Vetoes f
    · rw [if_pos hp, if_pos (vetoes_intersect.mpr (.inl hp))]
    · rw [if_neg hp]
      show Schedule.consult f q.schedule.rules (some (p.improve f.attempt d)) = _
      -- the minimum that was gathered on the left goes into the scan on the right
      have himprove : q.improve f.attempt (some (p.improve f.attempt d)) =
          (p.intersect q).improve f.attempt d := by
        cases d with
        | none => rfl
        | some d => exact Duration.shorter_assoc d _ _
      rw [ihq, himprove]
      simp only [vetoes_intersect, hp, false_or]

/-! ### The fields of the schedule -/

theorem schedule_ceiling (p : Policy S) : p.schedule.ceiling = p.ceiling := by
  induction p with
  | backoff | upToRetries => rfl
  | upToElapsed _ _ ih | onlyErrors _ _ ih | withJitter _ _ _ ih => exact ih
  | intersect p q ihp ihq =>
    show min p.schedule.ceiling q.schedule.ceiling = min p.ceiling q.ceiling
    rw [ihp, ihq]

theorem schedule_jitter (p : Policy S) : p.schedule.jitter = p.jitter := by
  induction p with
  | backoff | withJitter => rfl
  | upToRetries _ _ ih | upToElapsed _ _ ih | onlyErrors _ _ ih => exact ih
  | intersect p q ihp ihq =>
    show p.schedule.jitter.or q.schedule.jitter = p.jitter.or q.jitter
    rw [ihp, ihq]

/-! ### The normal form -/

/-- What an expression answers once it does not object: its delay, perturbed with one sample of the
source if there is jitter. -/
def proposal (p : Policy S) (source : JitterSource) (attempt : Nat) :
    Action S (Decision × JitterSource) :=
  match p.jitter with
  | none => .done (.retry (p.delay attempt), source)
  | some j => source.draw.bind fun r ↦ .done (.retry (j.perturb r.1 (p.delay attempt)), r.2)

/-- A decision is the objection of the expression or its proposal. -/
theorem decideFrom_schedule (p : Policy S) (source : JitterSource) (f : Failed S.Error) :
    p.schedule.decideFrom source f =
      if p.Objects f then .done (.stop, source) else p.proposal source f.attempt := by
  rw [Schedule.decideFrom, schedule_ceiling]
  by_cases hc : p.ceiling ≤ f.attempt
  · have hf : p.Objects f := .inl hc
    rw [if_pos hc, if_pos hf]
    rfl
  · rw [if_neg hc, consult_rules]
    by_cases hv : p.Vetoes f
    · have hf : p.Objects f := .inr hv
      rw [if_pos hv, if_pos hf]
      rfl
    · have hf : ¬p.Objects f := not_or.mpr ⟨hc, hv⟩
      rw [if_neg hv, if_neg hf, schedule_jitter, proposal]
      cases p.jitter with
      | none => rfl
      | some j => cases source <;> rfl

/-- Without jitter a decision needs no source. -/
theorem decide_schedule {p : Policy S} (hp : p.jitter = none) (f : Failed S.Error) :
    p.schedule.decide f =
      .done (if p.Objects f then .stop else .retry (p.delay f.attempt)) := by
  show (p.schedule.decideFrom _ f).bind _ = _
  rw [decideFrom_schedule, proposal, hp]
  by_cases hf : p.Objects f <;> simp [hf]

/-- The decision of two schedules at once: stop if one does, else the shorter delay. -/
def both : Decision → Decision → Decision
  | .retry d, .retry d' => .retry (d.shorter d')
  | _, _ => .stop

/-- Without jitter an intersection decides as its two sides do together. -/
theorem decide_intersect {p q : Policy S} (hp : p.jitter = none) (hq : q.jitter = none)
    (f : Failed S.Error) : ∃ a b, p.schedule.decide f = .done a ∧ q.schedule.decide f = .done b ∧
      (p.intersect q).schedule.decide f = .done (both a b) := by
  have hpq : (p.intersect q).jitter = none := by rw [jitter, hp, hq]; rfl
  refine ⟨_, _, decide_schedule hp f, decide_schedule hq f, ?_⟩
  rw [decide_schedule hpq]
  simp only [objects_intersect]
  by_cases hpf : p.Objects f <;> by_cases hqf : q.Objects f <;> simp [hpf, hqf, both, delay]

end Policy

/-! ### Drawing one sample -/

/-- Exactly one sample is drawn from a source in a world. A source with a seed goes one place on in
its own stream, and the world stays as it is. A source without a seed stays as it is, and the noise
of the world goes one place on; nothing else changes. -/
inductive JitterSource.DrawsOne {S : Signature} :
    JitterSource → World S → Sample → JitterSource → World S → Prop where
  | seeded (seed : UInt64) (drawn : Nat) (w : World S) :
      DrawsOne (.seeded seed drawn) w (.ofWord (Keystream.word seed drawn))
        (.seeded seed (drawn + 1)) w
  | shared (w : World S) :
      DrawsOne .shared w (w.noise.samples w.noise.drawn) .shared
        { w with noise := { w.noise with drawn := w.noise.drawn + 1 } }

namespace Policy

variable {S : Signature} {p : Policy S}

/-- A proposal without jitter draws nothing. -/
theorem perform_proposal (hp : p.jitter = none) (source : JitterSource) (attempt : Nat)
    (close : Closer S) (w : World S) : (p.proposal source attempt).perform close w =
      (.ok (.retry (p.delay attempt), source), w) := by
  rw [proposal, hp]
  rfl

/-- A proposal with jitter draws one sample, and perturbs the delay with it. -/
theorem perform_proposal_jitter {j : Jitter} (hp : p.jitter = some j) (source : JitterSource)
    (attempt : Nat) (close : Closer S) (w : World S) : ∃ x source' w',
      (p.proposal source attempt).perform close w =
        (.ok (.retry (j.perturb x (p.delay attempt)), source'), w') ∧
      source.DrawsOne w x source' w' := by
  rw [proposal, hp]
  cases source with
  | seeded seed drawn => exact ⟨_, _, _, rfl, .seeded seed drawn w⟩
  | shared => exact ⟨_, _, _, rfl, .shared w⟩

/-- **The normal form of every schedule expression.** A decision stops exactly if the attempt has
reached the ceiling, the elapsed time exceeds a limit anywhere in the expression or a predicate
anywhere in it rejects the error. It then draws nothing. Otherwise it retries after the least delay
that a leaf proposes: as it is and without a sample if there is no jitter, and if there is, after
exactly one sample from zero up to one has been drawn, with which the delay is perturbed once.
Without jitter an intersection stops if and only if a side does, and else waits for the shorter of
their delays. -/
theorem decides_by_normal_form (p : Policy S) (source : JitterSource) (f : Failed S.Error) :
    (∀ (close : Closer S) (w : World S), ∃ d source' w',
      (p.schedule.decideFrom source f).perform close w = (.ok (d, source'), w') ∧
      (d = .stop ↔ p.ceiling ≤ f.attempt ∨ (∃ limit ∈ p.limits, limit < f.elapsed) ∨
        ∃ accepts ∈ p.predicates, accepts f.error = false) ∧
      (d = .stop → source' = source ∧ w' = w) ∧
      ∀ delay, d = .retry delay → ∃ least,
        (least ∈ p.backoffs.map (·.delay f.attempt) ∧
          ∀ b ∈ p.backoffs, least ≤ b.delay f.attempt) ∧
        match p.jitter with
        | none => delay = least ∧ source' = source ∧ w' = w
        | some j => ∃ x : Sample, (0 ≤ x.value ∧ x.value < 1) ∧
            source.DrawsOne w x source' w' ∧ delay = j.perturb x least) ∧
    (∀ q : Policy S, p.jitter = none → q.jitter = none →
      ∃ a b, p.schedule.decide f = .done a ∧ q.schedule.decide f = .done b ∧
        (p.intersect q).schedule.decide f = .done (both a b)) := by
  refine ⟨fun close w ↦ ?_, fun q hp hq ↦ decide_intersect hp hq f⟩
  have hleast : p.delay f.attempt ∈ p.backoffs.map (·.delay f.attempt) ∧
      ∀ b ∈ p.backoffs, p.delay f.attempt ≤ b.delay f.attempt := ⟨p.delay_mem _, p.delay_le _⟩
  rw [decideFrom_schedule]
  by_cases hf : p.Objects f
  · rw [if_pos hf]
    exact ⟨_, _, _, rfl, ⟨fun _ ↦ hf, fun _ ↦ rfl⟩, fun _ ↦ ⟨rfl, rfl⟩, nofun⟩
  · rw [if_neg hf]
    cases hj : p.jitter with
    | none =>
      refine ⟨_, _, _, perform_proposal hj source f.attempt close w, ?_, nofun, ?_⟩
      · exact ⟨nofun, fun h ↦ absurd h hf⟩
      · rintro _ ⟨⟩
        exact ⟨_, hleast, rfl, rfl, rfl⟩
    | some j =>
      obtain ⟨x, source', w', heq, hdraws⟩ := perform_proposal_jitter hj source f.attempt close w
      refine ⟨_, _, _, heq, ⟨nofun, fun h ↦ absurd h hf⟩, nofun, ?_⟩
      rintro _ ⟨⟩
      exact ⟨_, hleast, x, ⟨x.value_nonneg, x.value_lt_one⟩, hdraws, rfl⟩

/-- Three retries, after two nanoseconds more each time. -/
def patience : Policy Tally :=
  (backoff (.linear (.ofNanos 2))).upToRetries 3

/-- Errors below seven, after five nanoseconds each. -/
def tolerance : Policy Tally :=
  (backoff (.fixed (.ofNanos 5))).onlyErrors (· < 7)

/-- The same three retries, perturbed by up to a half of each delay. -/
def restlessness (seed : Option UInt64) : Policy Tally := patience.withJitter 0.5 seed

/-- A session that is five samples into the stream of its seed draws the sixth, and one without a
seed draws the first of the noise. -/
theorem decides_by_normal_form_restlessness :
    patience.jitter = none ∧ tolerance.jitter = none ∧
      (∃ a b, patience.schedule.decide ⟨1, .zero, 6⟩ = .done a ∧
        tolerance.schedule.decide ⟨1, .zero, 6⟩ = .done b ∧
        (patience.intersect tolerance).schedule.decide ⟨1, .zero, 6⟩ = .done (both a b)) ∧
      (∀ close, ((restlessness (some 9)).schedule.decideFrom (.seeded 9 5) ⟨1, .zero, 6⟩).perform
          close tallyWorld =
        (.ok (.retry ((Jitter.ofFactor 0.5 (some 9)).perturb (.ofWord (Keystream.word 9 5))
          (.ofNanos 4)), .seeded 9 6), tallyWorld)) ∧
      ∀ close, ((restlessness none).schedule.decideFrom .shared ⟨1, .zero, 6⟩).perform
          close tallyWorld =
        (.ok (.retry ((Jitter.ofFactor 0.5 none).perturb (.ofWord (Keystream.word 0 0))
          (.ofNanos 4)), .shared), { tallyWorld with noise := ⟨tallyWorld.noise.samples, 1⟩ }) := by
  refine ⟨rfl, rfl, (decides_by_normal_form patience .shared ⟨1, .zero, 6⟩).2 tolerance rfl rfl,
    fun close ↦ ?_, fun close ↦ ?_⟩
  · obtain ⟨d, source', w', heq, hstop, -, hretry⟩ :=
      (decides_by_normal_form (restlessness (some 9)) (.seeded 9 5) ⟨1, .zero, 6⟩).1 close
        tallyWorld
    cases d with
    | stop => exact absurd (hstop.mp rfl) (by decide)
    | retry delay =>
      obtain ⟨least, ⟨hmem, -⟩, x, -, hdraws, rfl⟩ := hretry delay rfl
      obtain rfl := List.mem_singleton.mp hmem
      cases hdraws
      exact heq
  · obtain ⟨d, source', w', heq, hstop, -, hretry⟩ :=
      (decides_by_normal_form (restlessness none) .shared ⟨1, .zero, 6⟩).1 close tallyWorld
    cases d with
    | stop => exact absurd (hstop.mp rfl) (by decide)
    | retry delay =>
      obtain ⟨least, ⟨hmem, -⟩, x, -, hdraws, rfl⟩ := hretry delay rfl
      obtain rfl := List.mem_singleton.mp hmem
      cases hdraws
      exact heq

/-- The shorter of four and five nanoseconds. -/
example : (patience.intersect tolerance).schedule.decide ⟨1, .zero, 6⟩ =
    .done (.retry (.ofNanos 4)) := rfl

end Policy

end EffectMachine
