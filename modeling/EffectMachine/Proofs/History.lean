import EffectMachine.World.Basic

/-!
# Histories

The vocabulary for what happens to scopes and finalizers, over lists of events, oldest first.

The invocation of a finalizer and its end bracket what the finalizer does, and `Balanced` says that
these brackets match. `outer 0` is what is left of a history when what happens inside finalizers
is left out: the events of a run itself, as opposed to those of the runs that its finalizers make.

The events that concern one scope take it through phases (`Phase`). `Lives s p t q` says that the
events take the scope from one phase to another, and it leaves no freedom: finalizers are accepted
only before the scope begins to close, and when it closes those accepted are invoked once each, the
last first (`Lives.lifo`).
-/

namespace EffectMachine

variable {S : Signature}

/-! ### Counting -/

namespace Event

/-- The finalizer that a scope accepted. -/
def accepted? (s : ScopeId) : Event S → Option (Finalizer S)
  | .accepted s' f => if s' = s then some f else none
  | _ => none

/-- The finalizer of a scope that was invoked. -/
def invoked? (s : ScopeId) : Event S → Option (Finalizer S)
  | .invoked s' f => if s' = s then some f else none
  | _ => none

/-- The cause with which a finalizer failed. -/
def failed? : Event S → Option (Cause S.Error)
  | .ended _ _ (.error cause) => some cause
  | _ => none

/-- How a finalizer of a scope ended. -/
def ended? (s : ScopeId) : Event S → Option (Outcome S.Error Unit)
  | .ended s' _ o => if s' = s then some o else none
  | _ => none

end Event

/-- The finalizers that a scope accepted, in order. -/
def acceptances (s : ScopeId) (t : List (Event S)) : List (Finalizer S) :=
  t.filterMap (Event.accepted? s)

/-- The finalizers of a scope that were invoked, in order. -/
def invocations (s : ScopeId) (t : List (Event S)) : List (Finalizer S) :=
  t.filterMap (Event.invoked? s)

/-- The causes with which finalizers failed, in order. -/
def failures (t : List (Event S)) : List (Cause S.Error) := t.filterMap Event.failed?

/-- How the finalizers of a scope ended, in order. -/
def endings (s : ScopeId) (t : List (Event S)) : List (Outcome S.Error Unit) :=
  t.filterMap (Event.ended? s)

@[simp] theorem acceptances_nil (s : ScopeId) : acceptances s ([] : List (Event S)) = [] := rfl

@[simp] theorem invocations_nil (s : ScopeId) : invocations s ([] : List (Event S)) = [] := rfl

@[simp] theorem failures_nil : failures ([] : List (Event S)) = [] := rfl

@[simp] theorem acceptances_cons (s : ScopeId) (e : Event S) (t : List (Event S)) :
    acceptances s (e :: t) = (e.accepted? s).toList ++ acceptances s t := by
  cases he : e.accepted? s <;> simp [acceptances, he]

@[simp] theorem invocations_cons (s : ScopeId) (e : Event S) (t : List (Event S)) :
    invocations s (e :: t) = (e.invoked? s).toList ++ invocations s t := by
  cases he : e.invoked? s <;> simp [invocations, he]

@[simp] theorem failures_cons (e : Event S) (t : List (Event S)) :
    failures (e :: t) = e.failed?.toList ++ failures t := by
  cases he : e.failed? <;> simp [failures, he]

@[simp] theorem endings_append (s : ScopeId) (u v : List (Event S)) :
    endings s (u ++ v) = endings s u ++ endings s v :=
  List.filterMap_append

/-- Nothing is counted of a scope none of whose finalizers ends. -/
theorem endings_eq_nil {s : ScopeId} {t : List (Event S)} (h : ∀ f o, .ended s f o ∉ t) :
    endings s t = [] := by
  refine List.filterMap_eq_nil_iff.2 fun e he ↦ ?_
  cases e with
  | ended s' f o =>
    refine if_neg ?_
    rintro rfl
    exact h f o he
  | opened | accepted | refused | closing | invoked | closed | exceeded => rfl

@[simp] theorem acceptances_append (s : ScopeId) (u v : List (Event S)) :
    acceptances s (u ++ v) = acceptances s u ++ acceptances s v :=
  List.filterMap_append

@[simp] theorem invocations_append (s : ScopeId) (u v : List (Event S)) :
    invocations s (u ++ v) = invocations s u ++ invocations s v :=
  List.filterMap_append

@[simp] theorem failures_append (u v : List (Event S)) :
    failures (u ++ v) = failures u ++ failures v :=
  List.filterMap_append

theorem mem_invocations {s : ScopeId} {f : Finalizer S} {t : List (Event S)}
    (h : f ∈ invocations s t) : .invoked s f ∈ t := by
  obtain ⟨e, he, hf⟩ := List.mem_filterMap.1 h
  cases e with
  | invoked s' g =>
    obtain ⟨rfl, rfl⟩ : s' = s ∧ g = f := by simpa [Event.invoked?] using hf
    exact he
  | opened | accepted | refused | closing | ended | closed | exceeded => cases hf

/-! ### Inside and outside finalizers -/

/-- How many finalizers are running after an event, given how many before it. -/
def Event.depth : Event S → Nat → Nat
  | .invoked _ _, d => d + 1
  | .ended _ _ _, d => d - 1
  | _, d => d

/-- The event neither begins nor ends a finalizer. -/
def Event.Level (e : Event S) : Prop := ∀ d, e.depth d = d

/-- The events outside finalizers, the beginnings and the ends of finalizers included, given how
many finalizers are running before the first event. -/
def outer : Nat → List (Event S) → List (Event S)
  | _, [] => []
  | d, e :: t =>
    if d = 0 ∨ e.depth d = 0 then e :: outer (e.depth d) t else outer (e.depth d) t

/-- Every finalizer that began has ended. -/
inductive Balanced : List (Event S) → Prop where
  | nil : Balanced []
  | cons {e : Event S} {t : List (Event S)} (he : e.Level) (ht : Balanced t) : Balanced (e :: t)
  | invocation {u t : List (Event S)} {s : ScopeId} {f : Finalizer S}
      {o : Outcome S.Error Unit} (hu : Balanced u) (ht : Balanced t) :
      Balanced (.invoked s f :: (u ++ .ended s f o :: t))

namespace Balanced

variable {u v : List (Event S)}

theorem append (hu : Balanced u) (hv : Balanced v) : Balanced (u ++ v) := by
  induction hu with
  | nil => exact hv
  | cons he _ ih => exact ih.cons he
  | invocation hu _ _ ih =>
    rw [List.cons_append, List.append_assoc, List.cons_append]
    exact hu.invocation ih

theorem level (h : ∀ e ∈ u, e.Level) : Balanced u := by
  induction u with
  | nil => exact .nil
  | cons e u ih =>
    obtain ⟨he, hu⟩ := List.forall_mem_cons.1 h
    exact (ih hu).cons he

/-- Inside finalizers a balanced history changes nothing. -/
theorem outer_succ (hu : Balanced u) (d : Nat) (v : List (Event S)) :
    outer (d + 1) (u ++ v) = outer (d + 1) v := by
  induction hu generalizing d v with
  | nil => rfl
  | cons he _ ih => simp [outer, he (d + 1), ih]
  | invocation _ _ ihu iht =>
    simp [outer, Event.depth, ihu, iht]

theorem outer_append (hu : Balanced u) (v : List (Event S)) :
    outer 0 (u ++ v) = outer 0 u ++ outer 0 v := by
  induction hu with
  | nil => rfl
  | cons he _ ih => simp [outer, he 0, ih]
  | invocation hu _ _ iht => simp [outer, Event.depth, hu.outer_succ, iht]

/-- A finalizer that ended was invoked. -/
theorem mem_invoked (hu : Balanced u) {s : ScopeId} {f : Finalizer S} {o : Outcome S.Error Unit}
    (h : .ended s f o ∈ u) : .invoked s f ∈ u := by
  induction hu with
  | nil => cases h
  | cons he _ ih =>
    rcases List.mem_cons.1 h with rfl | h
    · cases he 1
    · exact List.mem_cons_of_mem _ (ih h)
  | invocation _ _ ihu iht =>
    simp only [List.mem_cons, List.mem_append, reduceCtorEq, false_or] at h ⊢
    rcases h with h | h | h
    · exact .inr (.inl (ihu h))
    · cases h
      exact .inl rfl
    · exact .inr (.inr (iht h))

/-- What is left of an invocation is its beginning and its end. -/
theorem outer_invocation (hu : Balanced u) (s : ScopeId) (f : Finalizer S)
    (o : Outcome S.Error Unit) :
    outer 0 (.invoked s f :: (u ++ [.ended s f o])) = [.invoked s f, .ended s f o] := by
  simp [outer, Event.depth, hu.outer_succ]

end Balanced

/-- The finalizers of a scope that end do so outside of other finalizers. -/
def EndsOutside (s : ScopeId) (u : List (Event S)) : Prop := endings s u = endings s (outer 0 u)

theorem EndsOutside.append {s : ScopeId} {u v : List (Event S)} (hu : EndsOutside s u)
    (hb : Balanced u) (hv : EndsOutside s v) : EndsOutside s (u ++ v) := by
  rw [EndsOutside, hb.outer_append, endings_append, endings_append, hu, hv]

/-- The end of an invocation is outside of others if what happens inside it is not about the
scope. -/
theorem EndsOutside.invocation {s s' : ScopeId} {u : List (Event S)} (hu : endings s' u = [])
    (hb : Balanced u) (f : Finalizer S) (o : Outcome S.Error Unit) :
    EndsOutside s' (.invoked s f :: (u ++ [.ended s f o])) := by
  rw [EndsOutside, hb.outer_invocation]
  simp only [endings, List.filterMap_cons, List.filterMap_append] at hu ⊢
  simp [hu]

theorem outer_level {u : List (Event S)} (h : ∀ e ∈ u, e.Level) : outer 0 u = u := by
  induction u with
  | nil => rfl
  | cons e u ih =>
    obtain ⟨he, hu⟩ := List.forall_mem_cons.1 h
    simp [outer, he 0, ih hu]

theorem mem_of_mem_outer {u : List (Event S)} {d : Nat} {e : Event S} (h : e ∈ outer d u) :
    e ∈ u := by
  induction u generalizing d with
  | nil => exact h
  | cons e' u ih =>
    rw [outer] at h
    split at h
    · rcases List.mem_cons.1 h with rfl | h
      · exact List.mem_cons_self
      · exact List.mem_cons_of_mem _ (ih h)
    · exact List.mem_cons_of_mem _ (ih h)

/-- The event is an offer of a finalizer or the report of a step limit. -/
def Event.Plain : Event S → Prop
  | .accepted _ _ | .refused _ _ | .exceeded _ _ => True
  | .opened _ | .closing _ | .invoked _ _ | .ended _ _ _ | .closed _ => False

theorem Event.Plain.level {e : Event S} (h : e.Plain) : e.Level := by
  intro d
  cases e <;> first | rfl | cases h

/-- No finalizer ends in plain events. -/
theorem failures_plain {u : List (Event S)} (h : ∀ e ∈ u, e.Plain) : failures u = [] := by
  refine List.filterMap_eq_nil_iff.2 fun e he ↦ ?_
  have hplain := h e he
  cases e <;> first | rfl | cases hplain

theorem endsOutside_plain {u : List (Event S)} (h : ∀ e ∈ u, e.Plain) (s : ScopeId) :
    EndsOutside s u := by
  rw [EndsOutside, outer_level fun e he ↦ (h e he).level]

/-! ### The life of a scope -/

/-- The phases in the life of a scope. The finalizers that wait are listed newest first. -/
inductive Phase (S : Signature) where
  | unborn
  | open (waiting : List (Finalizer S))
  | closing (waiting : List (Finalizer S))
  | closed

/-- The event belongs to the life of the scope. -/
def Event.Concerns (s : ScopeId) : Event S → Prop
  | .opened s' | .accepted s' _ | .closing s' | .invoked s' _ | .closed s' => s' = s
  | .refused _ _ | .ended _ _ _ | .exceeded _ _ => False

theorem Event.accepted?_eq_none {e : Event S} {s : ScopeId} (h : ¬e.Concerns s) :
    e.accepted? s = none := by
  cases e <;> simp_all [accepted?, Concerns]

theorem Event.invoked?_eq_none {e : Event S} {s : ScopeId} (h : ¬e.Concerns s) :
    e.invoked? s = none := by
  cases e <;> simp_all [invoked?, Concerns]

/-- Events that do not concern a scope have it accept nothing and invoke nothing. -/
theorem counts_idle {s : ScopeId} {u : List (Event S)} (h : ∀ e ∈ u, ¬e.Concerns s) :
    acceptances s u = [] ∧ invocations s u = [] :=
  ⟨List.filterMap_eq_nil_iff.2 fun e he ↦ Event.accepted?_eq_none (h e he),
    List.filterMap_eq_nil_iff.2 fun e he ↦ Event.invoked?_eq_none (h e he)⟩

/-- Events take a scope from one phase to another. A scope that application code opens is born
without an event. -/
inductive Lives (s : ScopeId) : Phase S → List (Event S) → Phase S → Prop where
  | done (p : Phase S) : Lives s p [] p
  | born {t : List (Event S)} {q : Phase S} (h : Lives s (.open []) t q) : Lives s .unborn t q
  | opened {t : List (Event S)} {q : Phase S} (h : Lives s (.open []) t q) :
      Lives s .unborn (.opened s :: t) q
  | accepted {f : Finalizer S} {fs : List (Finalizer S)} {t : List (Event S)} {q : Phase S}
      (h : Lives s (.open (f :: fs)) t q) : Lives s (.open fs) (.accepted s f :: t) q
  | closing {fs : List (Finalizer S)} {t : List (Event S)} {q : Phase S}
      (h : Lives s (.closing fs) t q) : Lives s (.open fs) (.closing s :: t) q
  | invoked {f : Finalizer S} {fs : List (Finalizer S)} {t : List (Event S)} {q : Phase S}
      (h : Lives s (.closing fs) t q) : Lives s (.closing (f :: fs)) (.invoked s f :: t) q
  | closed {t : List (Event S)} {q : Phase S} (h : Lives s .closed t q) :
      Lives s (.closing []) (.closed s :: t) q
  | other {p q : Phase S} {e : Event S} {t : List (Event S)} (he : ¬e.Concerns s)
      (h : Lives s p t q) : Lives s p (e :: t) q

/-- How far a phase is in the life of a scope. -/
def Phase.rank : Phase S → Nat
  | .unborn => 0
  | .open _ => 1
  | .closing _ => 2
  | .closed => 3

namespace Lives

variable {s : ScopeId} {p q r : Phase S} {u v : List (Event S)} {fs gs : List (Finalizer S)}

theorem append (h : Lives s p u q) (h' : Lives s q v r) : Lives s p (u ++ v) r := by
  induction h with
  | done => exact h'
  | born _ ih => exact .born (ih h')
  | opened _ ih => exact .opened (ih h')
  | accepted _ ih => exact .accepted (ih h')
  | closing _ ih => exact .closing (ih h')
  | invoked _ ih => exact .invoked (ih h')
  | closed _ ih => exact .closed (ih h')
  | other he _ ih => exact .other he (ih h')

theorem of_append (h : Lives s p (u ++ v) r) : ∃ q, Lives s p u q ∧ Lives s q v r := by
  induction u generalizing p with
  | nil => exact ⟨p, .done p, h⟩
  | cons e u ih =>
    generalize ht : e :: u ++ v = t at h
    induction h with
    | done => cases ht
    | born h ihb =>
      obtain ⟨q, hq, hv⟩ := ihb (fun h ↦ ih h) ht
      exact ⟨q, .born hq, hv⟩
    | opened h =>
      cases ht
      obtain ⟨q, hq, hv⟩ := ih h
      exact ⟨q, .opened hq, hv⟩
    | accepted h =>
      cases ht
      obtain ⟨q, hq, hv⟩ := ih h
      exact ⟨q, .accepted hq, hv⟩
    | closing h =>
      cases ht
      obtain ⟨q, hq, hv⟩ := ih h
      exact ⟨q, .closing hq, hv⟩
    | invoked h =>
      cases ht
      obtain ⟨q, hq, hv⟩ := ih h
      exact ⟨q, .invoked hq, hv⟩
    | closed h =>
      cases ht
      obtain ⟨q, hq, hv⟩ := ih h
      exact ⟨q, .closed hq, hv⟩
    | other he h =>
      cases ht
      obtain ⟨q, hq, hv⟩ := ih h
      exact ⟨q, .other he hq, hv⟩

/-- Events that do not concern a scope leave it where it is. -/
theorem idle (h : ∀ e ∈ u, ¬e.Concerns s) : Lives s p u p := by
  induction u with
  | nil => exact .done p
  | cons e u ih =>
    obtain ⟨he, hu⟩ := List.forall_mem_cons.1 h
    exact .other he (ih hu)

/-- A life never goes back. -/
theorem rank_le (h : Lives s p u q) : p.rank ≤ q.rank := by
  induction h <;> simp_all [Phase.rank] <;> omega

/-- As long as a scope has not begun to close it accepts finalizers, and none is invoked. -/
theorem open_open (h : Lives s (.open fs) u (.open gs)) :
    gs = (acceptances s u).reverse ++ fs ∧ invocations s u = [] ∧ .closing s ∉ u := by
  generalize hp : Phase.open fs = p at h
  generalize hq : Phase.open gs = q at h
  induction h generalizing fs with
  | done =>
    cases hp.trans hq.symm
    exact ⟨rfl, rfl, List.not_mem_nil⟩
  | born | opened | invoked | closed => cases hp
  | accepted _ ih =>
    cases hp
    obtain ⟨rfl, hi, hc⟩ := ih rfl hq
    simp [Event.accepted?, Event.invoked?, hi, hc]
  | closing h =>
    subst hq
    exact absurd h.rank_le (by simp [Phase.rank])
  | @other p q e t he _ ih =>
    obtain ⟨rfl, hi, hc⟩ := ih hp hq
    refine ⟨by simp [Event.accepted?_eq_none he], by simp [Event.invoked?_eq_none he, hi], ?_⟩
    rintro (_ | _)
    · exact he rfl
    · exact hc ‹_›

/-- While a scope closes it accepts no finalizer, and those that wait are invoked in order. -/
theorem closing_closing (h : Lives s (.closing fs) u (.closing gs)) :
    fs = invocations s u ++ gs ∧ acceptances s u = [] := by
  generalize hp : Phase.closing fs = p at h
  generalize hq : Phase.closing gs = q at h
  induction h generalizing fs with
  | done =>
    cases hp.trans hq.symm
    exact ⟨rfl, rfl⟩
  | born | opened | accepted | closing => cases hp
  | invoked _ ih =>
    cases hp
    obtain ⟨rfl, ha⟩ := ih rfl hq
    simp [Event.accepted?, Event.invoked?, ha]
  | closed h =>
    subst hq
    exact absurd h.rank_le (by simp [Phase.rank])
  | other he _ ih =>
    obtain ⟨rfl, ha⟩ := ih hp hq
    simp [Event.accepted?_eq_none he, Event.invoked?_eq_none he, ha]

/-- No event concerns a scope that has been closed. -/
theorem of_closed (h : Lives s .closed u q) : q = .closed ∧ ∀ e ∈ u, ¬e.Concerns s := by
  generalize hp : Phase.closed = p at h
  induction h with
  | done => exact ⟨rfl, nofun⟩
  | born | opened | accepted | closing | invoked | closed => cases hp
  | other he _ ih =>
    obtain ⟨hq, hu⟩ := ih hp
    exact ⟨hq, List.forall_mem_cons.2 ⟨he, hu⟩⟩

/-- No event concerns a scope before it is born. -/
theorem to_unborn (h : Lives s p u .unborn) : p = .unborn ∧ ∀ e ∈ u, ¬e.Concerns s := by
  generalize hq : Phase.unborn = q at h
  induction h with
  | done => exact ⟨rfl, nofun⟩
  | other he _ ih =>
    obtain ⟨hp, hu⟩ := ih hq
    exact ⟨hp, List.forall_mem_cons.2 ⟨he, hu⟩⟩
  | born h | opened h | accepted h | closing h | invoked h | closed h =>
    subst hq
    exact absurd h.rank_le (by simp [Phase.rank])

/-- A scope is not opened twice. -/
theorem not_opened (h : Lives s p u q) (hp : p ≠ .unborn) : .opened s ∉ u := by
  induction h with
  | done => exact List.not_mem_nil
  | born | opened => exact absurd rfl hp
  | accepted _ ih | closing _ ih | invoked _ ih | closed _ ih =>
    simpa using ih nofun
  | other he _ ih =>
    rintro (_ | _)
    · exact he rfl
    · exact ih hp ‹_›

/-- A scope that has not begun to close stays open as long as it does not begin to. -/
theorem stays_open (h : Lives s (.open fs) u q) (hu : .closing s ∉ u) : ∃ gs, q = .open gs := by
  generalize hp : Phase.open fs = p at h
  induction h generalizing fs with
  | done => exact ⟨fs, hp.symm⟩
  | born | opened | invoked | closed => cases hp
  | accepted _ ih =>
    cases hp
    exact ih (fun h ↦ hu (List.mem_cons_of_mem _ h)) rfl
  | closing => exact absurd List.mem_cons_self hu
  | other _ _ ih => exact ih (fun h ↦ hu (List.mem_cons_of_mem _ h)) hp

/-- A finalizer that waits in an open scope was waiting before or has been accepted since. -/
theorem mem_open (h : Lives s p u (.open gs)) {f : Finalizer S} (hf : f ∈ gs) :
    .accepted s f ∈ u ∨ ∃ fs, p = .open fs ∧ f ∈ fs := by
  generalize hq : Phase.open gs = q at h
  induction h with
  | done => exact .inr ⟨gs, hq.symm, hf⟩
  | born _ ih | opened _ ih =>
    rcases ih hq with h | ⟨fs, hfs, hf⟩
    · exact .inl (by simp [h])
    · cases hfs
      cases hf
  | accepted _ ih =>
    rcases ih hq with h | ⟨fs, hfs, hf⟩
    · exact .inl (by simp [h])
    · cases hfs
      rcases List.mem_cons.1 hf with rfl | hf
      · exact .inl List.mem_cons_self
      · exact .inr ⟨_, rfl, hf⟩
  | closing h | invoked h | closed h =>
    subst hq
    exact absurd h.rank_le (by simp [Phase.rank])
  | other _ _ ih => exact (ih hq).imp_left (List.mem_cons_of_mem _)

/-- A scope that is open has not begun to close. -/
theorem not_closing (h : Lives s p u (.open gs)) : .closing s ∉ u := by
  generalize hq : Phase.open gs = q at h
  induction h with
  | done => exact List.not_mem_nil
  | born _ ih => exact ih hq
  | opened _ ih | accepted _ ih => simpa using ih hq
  | closing h | invoked h | closed h =>
    subst hq
    exact absurd h.rank_le (by simp [Phase.rank])
  | other he _ ih =>
    rintro (_ | _)
    · exact he rfl
    · exact ih hq ‹_›

/-- No finalizer is invoked unless the scope begins to close. -/
theorem no_invocations (h : Lives s p u q) (hp : ∀ fs, p ≠ .closing fs) (hu : .closing s ∉ u) :
    invocations s u = [] := by
  induction h with
  | done => rfl
  | born _ ih => exact ih nofun hu
  | opened _ ih | accepted _ ih =>
    simpa [Event.invoked?] using ih nofun fun h ↦ hu (List.mem_cons_of_mem _ h)
  | closing => exact absurd List.mem_cons_self hu
  | invoked | closed => exact absurd rfl (hp _)
  | other he _ ih =>
    simpa [Event.invoked?_eq_none he] using ih hp fun h ↦ hu (List.mem_cons_of_mem _ h)

/-! ### Taking a life apart -/

theorem at_opened (h : Lives s p (.opened s :: u) q) : p = .unborn ∧ Lives s (.open []) u q := by
  cases h with
  | born h =>
    cases h with
    | other he _ => exact absurd rfl he
  | opened h => exact ⟨rfl, h⟩
  | other he _ => exact absurd rfl he

theorem at_closing (h : Lives s p (.closing s :: u) q) (hp : p ≠ .unborn) :
    ∃ fs, p = .open fs ∧ Lives s (.closing fs) u q := by
  cases h with
  | born h => exact absurd rfl hp
  | closing h => exact ⟨_, rfl, h⟩
  | other he _ => exact absurd rfl he

theorem at_closed (h : Lives s p (.closed s :: u) q) : p = .closing [] ∧ Lives s .closed u q := by
  cases h with
  | born h =>
    cases h with
    | other he _ => exact absurd rfl he
  | closed h => exact ⟨rfl, h⟩
  | other he _ => exact absurd rfl he

/-- **A scope invokes the finalizers that it accepted, once each, the last first.** It accepts them
between opening and beginning to close, and invokes them between that and having closed. -/
theorem lifo {before body finals after : List (Event S)}
    (h : Lives s p
      (before ++ .opened s :: (body ++ .closing s :: (finals ++ .closed s :: after))) q) :
    q = .closed ∧
      acceptances s
          (before ++ .opened s :: (body ++ .closing s :: (finals ++ .closed s :: after))) =
        acceptances s body ∧
      invocations s
          (before ++ .opened s :: (body ++ .closing s :: (finals ++ .closed s :: after))) =
        invocations s finals ∧
      invocations s finals = (acceptances s body).reverse := by
  obtain ⟨p₁, hbefore, h₁⟩ := h.of_append
  obtain ⟨rfl, h₂⟩ := h₁.at_opened
  obtain ⟨p₂, hbody, h₃⟩ := h₂.of_append
  obtain ⟨fs, rfl, h₄⟩ := h₃.at_closing fun hp ↦ by
    subst hp
    exact absurd hbody.rank_le (by simp [Phase.rank])
  obtain ⟨p₃, hfinals, h₅⟩ := h₄.of_append
  obtain ⟨rfl, h₆⟩ := h₅.at_closed
  obtain ⟨rfl, hafter⟩ := h₆.of_closed
  obtain ⟨rfl, hbody, -⟩ := hbody.open_open
  obtain ⟨hinvoked, hfinals⟩ := hfinals.closing_closing
  have hbefore := counts_idle hbefore.to_unborn.2
  have hafter := counts_idle hafter
  simp only [List.append_nil] at hinvoked
  simp [Event.accepted?, Event.invoked?, hbefore, hafter, hbody, hfinals, hinvoked]

end Lives

/-! ### Order among scopes -/

/-- The scope is opened, anywhere or outside finalizers only. -/
def Opens (deep : Bool) (s : ScopeId) (u : List (Event S)) : Prop :=
  .opened s ∈ if deep then u else outer 0 u

/-- Every scope that is opened is closed. -/
def Whole (deep : Bool) (u : List (Event S)) : Prop := ∀ s, Opens deep s u → .closed s ∈ u

/-- The scope opens, closes and has closed. What opens while it is open is closed before it begins
to close, and what opens while it closes is closed before it has closed. -/
def Spans (deep : Bool) (s : ScopeId) (t : List (Event S)) : Prop :=
  ∃ before body finals after,
    t = before ++ .opened s :: (body ++ .closing s :: (finals ++ .closed s :: after)) ∧
      Whole deep body ∧ Whole deep finals

/-- The whole life of a scope is part of the history. It accepts finalizers between opening and
beginning to close; between that and having closed it invokes each of them once, the last first. -/
def Lifetime (deep : Bool) (s : ScopeId) (t : List (Event S)) : Prop :=
  ∃ before body finals after,
    t = before ++ .opened s :: (body ++ .closing s :: (finals ++ .closed s :: after)) ∧
      Whole deep body ∧ Whole deep finals ∧
      acceptances s t = acceptances s body ∧ invocations s t = invocations s finals ∧
      invocations s finals = (acceptances s body).reverse

/-- Finalizers and scopes that begin end, and do so in nested order. -/
structure Orderly (deep : Bool) (u : List (Event S)) : Prop where
  balanced : Balanced u
  spans : ∀ s, Opens deep s u → Spans deep s u

/-- What has happened is orderly but for some scopes that are open, newest first. -/
def Nested (deep : Bool) : List ScopeId → List (Event S) → Prop
  | [], u => Orderly deep u
  | s :: O, u => ∃ before body,
    u = before ++ .opened s :: body ∧ Orderly deep body ∧ Nested deep O before

section Order

variable {deep : Bool} {s : ScopeId} {O : List ScopeId} {u v : List (Event S)}

theorem Opens.mem (h : Opens deep s u) : .opened s ∈ u := by
  cases deep with
  | true => exact h
  | false => exact mem_of_mem_outer h

theorem Balanced.opens_append (hu : Balanced u) :
    Opens deep s (u ++ v) ↔ Opens deep s u ∨ Opens deep s v := by
  cases deep <;> simp [Opens, hu.outer_append]

theorem Balanced.opens_cons {e : Event S} (he : e.Level) :
    Opens deep s (e :: u) ↔ e = .opened s ∨ Opens deep s u := by
  cases deep <;> simp [Opens, outer, he 0, eq_comm]

/-- The life of a scope is part of every longer history. -/
theorem Spans.extend (h : Spans deep s u) (before after : List (Event S)) :
    Spans deep s (before ++ (u ++ after)) := by
  obtain ⟨before', body, finals, after', rfl, hbody, hfinals⟩ := h
  exact ⟨before ++ before', body, finals, after' ++ after, by simp, hbody, hfinals⟩

theorem Spans.closed (h : Spans deep s u) : .closed s ∈ u := by
  obtain ⟨before, body, finals, after, rfl, -, -⟩ := h
  simp

theorem Spans.lifetime {p q : Phase S} (h : Spans deep s u) (hl : Lives s p u q) :
    Lifetime deep s u ∧ q = .closed := by
  obtain ⟨before, body, finals, after, rfl, hbody, hfinals⟩ := h
  obtain ⟨hq, ha, hi, hlifo⟩ := hl.lifo
  exact ⟨⟨before, body, finals, after, rfl, hbody, hfinals, ha, hi, hlifo⟩, hq⟩

namespace Orderly

theorem nil : Orderly deep ([] : List (Event S)) where
  balanced := .nil
  spans _ hs := absurd hs.mem List.not_mem_nil

theorem whole (h : Orderly deep u) : Whole deep u := fun s hs ↦ (h.spans s hs).closed

theorem append (hu : Orderly deep u) (hv : Orderly deep v) : Orderly deep (u ++ v) where
  balanced := hu.balanced.append hv.balanced
  spans _ hs := by
    rcases hu.balanced.opens_append.1 hs with hs | hs
    · exact (hu.spans _ hs).extend [] v
    · simpa using (hv.spans _ hs).extend u []

/-- Events that open no scope are orderly. -/
theorem of_not_opened (hu : Balanced u) (h : ∀ s, .opened s ∉ u) : Orderly deep u where
  balanced := hu
  spans s hs := absurd hs.mem (h s)

theorem plain (h : ∀ e ∈ u, e.Plain) : Orderly deep u :=
  of_not_opened (.level fun e he ↦ (h e he).level) fun _ hs ↦ h _ hs

/-- The invocation of a finalizer is orderly if what happens inside it is. -/
theorem invocation (hu : Balanced u) (h : deep = true → Orderly deep u) (f : Finalizer S)
    (o : Outcome S.Error Unit) : Orderly deep (.invoked s f :: (u ++ [.ended s f o])) where
  balanced := hu.invocation .nil
  spans s' hs := by
    cases deep with
    | false => simp [Opens, hu.outer_invocation] at hs
    | true =>
      have hs : .opened s' ∈ u := by simpa [Opens] using hs
      exact ((h rfl).spans s' hs).extend [.invoked s f] [.ended s f o]

/-- The whole life of a scope is orderly if what happens between opening, closing and having closed
is. -/
theorem life (hu : Orderly deep u) (hv : Orderly deep v) :
    Orderly deep (.opened s :: (u ++ .closing s :: (v ++ [.closed s]))) where
  balanced := by
    refine .cons (fun _ ↦ rfl) (hu.balanced.append (.cons (fun _ ↦ rfl) (hv.balanced.append ?_)))
    exact .cons (fun _ ↦ rfl) .nil
  spans s' hs := by
    have hlevel : Event.Level (.closing s : Event S) := fun _ ↦ rfl
    rcases (Balanced.opens_cons fun _ ↦ rfl).1 hs with hs | hs
    · cases hs
      exact ⟨[], u, v, [], by simp, hu.whole, hv.whole⟩
    · rcases hu.balanced.opens_append.1 hs with hs | hs
      · exact (hu.spans s' hs).extend [.opened s] (.closing s :: (v ++ [.closed s]))
      · rcases (Balanced.opens_cons hlevel).1 hs with hs | hs
        · cases hs
        · rcases hv.balanced.opens_append.1 hs with hs | hs
          · have h := (hv.spans s' hs).extend (.opened s :: (u ++ [.closing s])) [.closed s]
            simpa using h
          · simpa using hs.mem

end Orderly

namespace Nested

theorem append (h : Nested deep O u) (hv : Orderly deep v) : Nested deep O (u ++ v) := by
  cases O with
  | nil => exact Orderly.append h hv
  | cons s O =>
    obtain ⟨before, body, rfl, hbody, hO⟩ := h
    exact ⟨before, body ++ v, by simp, hbody.append hv, hO⟩

theorem push (h : Nested deep O u) (s : ScopeId) : Nested deep (s :: O) (u ++ [.opened s]) :=
  ⟨u, [], rfl, .nil, h⟩

/-- The newest open scope closes. -/
theorem pop (h : Nested deep (s :: O) u) (hv : Orderly deep v) :
    Nested deep O (u ++ .closing s :: (v ++ [.closed s])) := by
  obtain ⟨before, body, rfl, hbody, hO⟩ := h
  simpa using hO.append (hbody.life hv)

theorem balanced (h : Nested deep O u) : Balanced u := by
  induction O generalizing u with
  | nil => exact Orderly.balanced h
  | cons s O ih =>
    obtain ⟨before, body, rfl, hbody, hO⟩ := h
    exact (ih hO).append (.cons (fun _ ↦ rfl) hbody.balanced)

/-- Every scope that is open has been opened. -/
theorem opened (h : Nested deep O u) (hs : s ∈ O) : .opened s ∈ u := by
  induction O generalizing u with
  | nil => cases hs
  | cons s' O ih =>
    obtain ⟨before, body, rfl, -, hO⟩ := h
    rcases List.mem_cons.1 hs with rfl | hs
    · exact List.mem_append_right _ List.mem_cons_self
    · exact List.mem_append_left _ (ih hO hs)

/-- The scope that is open and newest was opened outside finalizers. -/
theorem opens_newest (h : Nested deep (s :: O) u) : Opens false s u := by
  obtain ⟨before, body, rfl, -, hO⟩ := h
  exact hO.balanced.opens_append.2 (.inr ((Balanced.opens_cons fun _ ↦ rfl).2 (.inl rfl)))

/-- A scope that has been opened is open or has lived its life. -/
theorem spans (h : Nested deep O u) (hs : Opens deep s u) : s ∈ O ∨ Spans deep s u := by
  induction O generalizing u with
  | nil => exact .inr (Orderly.spans h s hs)
  | cons s' O ih =>
    obtain ⟨before, body, rfl, hbody, hO⟩ := h
    rcases hO.balanced.opens_append.1 hs with hs | hs
    · rcases ih hO hs with hs | hs
      · exact .inl (List.mem_cons_of_mem _ hs)
      · exact .inr (hs.extend [] _)
    · rcases (Balanced.opens_cons fun _ ↦ rfl).1 hs with hs | hs
      · cases hs
        exact .inl List.mem_cons_self
      · have h := (hbody.spans s hs).extend (before ++ [.opened s']) []
        exact .inr (by simpa using h)

end Nested

end Order

end EffectMachine
