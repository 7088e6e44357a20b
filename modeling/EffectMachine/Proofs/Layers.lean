import EffectMachine.Proofs.Closures
import EffectMachine.Proofs.Contexts

/-!
# The algebra of layers

Layers in a row are associative with the empty layer as identity (`Layer.andThen_assoc`), and so are
layers side by side (`Layer.beside_assoc`). These are equations between layers: both sides build
the same context from every context, or report the same missing service, or panic, and they make
the same requests in the same order while they do so. Associativity side by side comes from that of
`Context.merge`, the order of keys included.

**What a composite reports.** A `Layer.Expr` is a layer together with the way in which it is
composed. It can be built with a log of what its parts answer (`Layer.Expr.logged`), which changes
nothing else. If the composite fails, the last part in the log is the only one that has failed, and
its report is the composite's (`Layer.Expr.reports_of_yields`).

**Values side by side.** Both sides of `Layer.beside` start from the same context and hand on all of
it. So the right one hands on what the context binds a key of the left one to, and a merge prefers
that (`Layer.combined_values`).
-/

namespace EffectMachine

variable {S : Signature}

namespace Layer

/-! ### Composition -/

/-- Go on with the context that was built; a report of a missing service skips what follows. -/
def onBuilt (k : Context → Action S (Except MissingService Context)) :
    Except MissingService Context → Action S (Except MissingService Context)
  | .ok c => k c
  | .error m => .done (.error m)

@[simp] theorem onBuilt_ok (k : Context → Action S (Except MissingService Context)) (c : Context) :
    onBuilt k (.ok c) = k c := rfl

variable (a b d : Layer S) (c : Context)

theorem build_andThen : (a.andThen b).build c = (a.build c).bind (onBuilt b.build) := rfl

theorem build_beside : (a.beside b).build c = (a.build c).bind (onBuilt fun left ↦
    (b.build c).bind (onBuilt fun right ↦ .done (.ok (left.merge right)))) := by
  show (a.build c).bind _ = _
  congr 1
  funext r
  cases r with
  | error m => rfl
  | ok left =>
    show (b.build c).bind _ = (b.build c).bind _
    congr 1
    funext r
    cases r <;> rfl

theorem bind_onBuilt_assoc (x : Action S (Except MissingService Context))
    (f g : Context → Action S (Except MissingService Context)) :
    (x.bind (onBuilt f)).bind (onBuilt g) = x.bind (onBuilt fun c ↦ (f c).bind (onBuilt g)) := by
  rw [Action.bind_assoc]
  congr 1
  funext r
  cases r <;> rfl

theorem andThen_assoc : (a.andThen b).andThen d = a.andThen (b.andThen d) := by
  refine Layer.ext (funext fun c ↦ ?_)
  calc ((a.andThen b).andThen d).build c
    _ = ((a.build c).bind (onBuilt b.build)).bind (onBuilt d.build) := by
      rw [build_andThen, build_andThen]
    _ = (a.build c).bind (onBuilt (b.andThen d).build) := by
      rw [bind_onBuilt_assoc, ← funext (build_andThen b d)]
    _ = (a.andThen (b.andThen d)).build c := (build_andThen a _ c).symm

theorem empty_andThen : empty.andThen a = a := rfl

theorem andThen_empty : a.andThen empty = a := by
  refine Layer.ext (funext fun c ↦ ?_)
  have hdone : (onBuilt empty.build : _ → Action S (Except MissingService Context)) = .done := by
    funext r
    cases r <;> rfl
  rw [build_andThen, hdone, Action.bind_done]

theorem beside_assoc : (a.beside b).beside d = a.beside (b.beside d) := by
  refine Layer.ext (funext fun c ↦ ?_)
  -- all three are built from the same context, whichever two are merged first
  simp only [build_beside, bind_onBuilt_assoc, Action.done_bind, onBuilt_ok, Context.merge_assoc]

/-! ### Composites -/

/-- A layer together with the way in which it is composed. -/
inductive Expr (S : Signature) where
  | empty
  | value (k : Key) (x : k.type.El)
  | factory (k : Key) (make : Context → Action S (Except MissingService k.type.El))
  /-- A layer that is built by any action. -/
  | custom (build : Context → Action S (Except MissingService Context))
  | andThen (a b : Expr S)
  | after (a b : Expr S)
  | beside (a b : Expr S)

namespace Expr

/-- The layer that an expression stands for. -/
def eval : Expr S → Layer S
  | .empty => Layer.empty
  | .value k x => .ofValue k x
  | .factory k make => .ofFactory k make
  | .custom build => ⟨build⟩
  | .andThen a b => a.eval.andThen b.eval
  | .after a b => a.eval.after b.eval
  | .beside a b => a.eval.beside b.eval

/-- What an expression is composed of, in the order in which it is built. -/
def parts : Expr S → List (Expr S)
  | .andThen a b => a.parts ++ b.parts
  | .after a b => b.parts ++ a.parts
  | .beside a b => a.parts ++ b.parts
  | e => [e]

/-- What the parts that were built answered, in the order in which they were built, and what the
composite answers. -/
abbrev Log (S : Signature) : Type :=
  List (Expr S × Except MissingService Context) × Except MissingService Context

/-- Go on with the context that was built, keeping the log; a report of a missing service skips what
follows. -/
def logThen (x : Action S (Log S)) (k : Context → Action S (Log S)) : Action S (Log S) :=
  x.bind fun p ↦ match p.2 with
    | .ok built => (k built).bind fun q ↦ .done (p.1 ++ q.1, q.2)
    | .error m => .done (p.1, .error m)

/-- Build the layer and keep a log. -/
def logged : Expr S → Context → Action S (Log S)
  | .andThen a b, c => logThen (a.logged c) fun built ↦ b.logged built
  | .after a b, c => logThen (b.logged c) fun built ↦ a.logged built
  | .beside a b, c => logThen (a.logged c) fun left ↦
    (b.logged c).bind fun q ↦ .done (q.1, q.2.map left.merge)
  | .empty, c => .done ([(.empty, .ok c)], .ok c)
  | .value k x, c => ((eval (.value k x)).build c).bind fun r ↦ .done ([(.value k x, r)], r)
  | .factory k f, c => ((eval (.factory k f)).build c).bind fun r ↦ .done ([(.factory k f, r)], r)
  | .custom f, c => (f c).bind fun r ↦ .done ([(.custom f, r)], r)

/-- What is answered in the end. -/
def answer (x : Action S (Log S)) : Action S (Except MissingService Context) :=
  x.bind fun p ↦ .done p.2

theorem answer_logThen (x : Action S (Log S)) (k : Context → Action S (Log S)) :
    answer (logThen x k) = (answer x).bind (onBuilt fun built ↦ answer (k built)) := by
  simp only [answer, logThen, Action.bind_assoc, Action.done_bind]
  congr 1
  funext p
  obtain ⟨log, m | built⟩ := p
  · rfl
  · exact Action.bind_assoc _ _ _

/-- Keeping a log changes nothing: the same requests are made, with the same result. -/
theorem answer_logged (e : Expr S) (c : Context) : answer (e.logged c) = e.eval.build c := by
  induction e generalizing c with
  | empty => rfl
  | value | factory | custom => exact (Action.bind_assoc _ _ _).trans (Action.bind_done _)
  | andThen a b iha ihb => rw [logged, answer_logThen, iha, funext ihb, eval, build_andThen]
  | after a b iha ihb =>
    rw [logged, answer_logThen, ihb, funext iha, eval, Layer.after, build_andThen]
  | beside a b iha ihb =>
    rw [logged, answer_logThen, iha, eval, build_beside]
    congr 2
    funext left
    rw [← ihb, answer, answer, Action.bind_assoc, Action.bind_assoc]
    congr 1
    funext q
    obtain ⟨log, m | right⟩ := q <;> rfl

/-- If a composite succeeds, all its parts have been built and none has failed. If it reports a
missing service, then that is the report of the last part that was built, none before it has failed,
and none after it has been built. -/
def Reports (parts : List (Expr S)) : Log S → Prop
  | (log, .ok _) => log.map Prod.fst = parts ∧ ∀ x ∈ log, x.2.isOk
  | (log, .error m) => ∃ built part rest, log = built ++ [(part, .error m)] ∧
    parts = built.map Prod.fst ++ part :: rest ∧ ∀ x ∈ built, x.2.isOk

namespace Reports

variable {parts parts' : List (Expr S)} {log log' : List (Expr S × Except MissingService Context)}
  {r : Except MissingService Context} {built : Context} {m : MissingService}

theorem single (e : Expr S) (r : Except MissingService Context) : Reports [e] ([(e, r)], r) := by
  cases r with
  | ok c => exact ⟨rfl, List.forall_mem_singleton.mpr rfl⟩
  | error m => exact ⟨[], e, [], rfl, rfl, List.forall_mem_nil _⟩

theorem append (h : Reports parts (log, .ok built)) (h' : Reports parts' (log', r)) :
    Reports (parts ++ parts') (log ++ log', r) := by
  obtain ⟨rfl, hok⟩ := h
  cases r with
  | ok c =>
    obtain ⟨rfl, hok'⟩ := h'
    exact ⟨List.map_append, List.forall_mem_append.mpr ⟨hok, hok'⟩⟩
  | error m =>
    obtain ⟨built', part, rest, rfl, rfl, hok'⟩ := h'
    refine ⟨log ++ built', part, rest, ?_, ?_, List.forall_mem_append.mpr ⟨hok, hok'⟩⟩
    · rw [List.append_assoc]
    · rw [List.map_append, List.append_assoc]

theorem skip (h : Reports parts (log, .error m)) (parts' : List (Expr S)) :
    Reports (parts ++ parts') (log, .error m) := by
  obtain ⟨built, part, rest, hlog, rfl, hok⟩ := h
  refine ⟨built, part, rest ++ parts', hlog, ?_, hok⟩
  rw [List.append_assoc, List.cons_append]

/-- What is built from the contexts does not matter. -/
theorem map (f : Context → Context) (h : Reports parts (log, r)) :
    Reports parts (log, r.map f) := by
  cases r with
  | ok c => exact h
  | error m => exact h

theorem logThen {x : Action S (Log S)} {k : Context → Action S (Log S)}
    (hx : ∀ p, x.Yields p → Reports parts p)
    (hk : ∀ built p, (k built).Yields p → Reports parts' p) {p : Log S}
    (hp : (Expr.logThen x k).Yields p) : Reports (parts ++ parts') p := by
  obtain ⟨⟨log, m | built⟩, hlog, hp⟩ := Action.yields_bind.mp hp
  · cases hp
    exact (hx _ hlog).skip parts'
  · obtain ⟨⟨log', r⟩, hlog', hp⟩ := Action.yields_bind.mp hp
    cases hp
    exact (hx _ hlog).append (hk built _ hlog')

end Reports

/-- **A composite fails with the report of its first part that fails**, and the parts after it are
not built. It succeeds if all of them do. -/
theorem reports_of_yields {e : Expr S} {c : Context} {p : Log S} (h : (e.logged c).Yields p) :
    Reports e.parts p := by
  induction e generalizing c p with
  | empty =>
    cases h
    exact .single _ _
  | value | factory | custom =>
    obtain ⟨r, -, h⟩ := Action.yields_bind.mp h
    cases h
    exact .single _ _
  | andThen a b iha ihb => exact .logThen (fun _ hp ↦ iha hp) (fun _ _ hp ↦ ihb hp) h
  | after a b iha ihb => exact .logThen (fun _ hp ↦ ihb hp) (fun _ _ hp ↦ iha hp) h
  | beside a b iha ihb =>
    refine .logThen (fun _ hp ↦ iha hp) (fun left p hp ↦ ?_) h
    obtain ⟨⟨log, r⟩, hlog, hp⟩ := Action.yields_bind.mp hp
    cases hp
    exact (ihb hlog).map left.merge

end Expr

/-! ### Values side by side -/

section

variable {ka kb : Key}

theorem build_values (va : ka.type.El) (vb : kb.type.El) (c : Context) :
    ((ofValue ka va).beside (ofValue kb vb) : Layer S).build c =
      .done (.ok ((c.bind ka va).merge (c.bind kb vb))) := rfl

/-- Two values side by side: the right one's key finds its value, the left one's key finds what the
context bound it to, if it did. -/
theorem find?_values (va : ka.type.El) (vb : kb.type.El) (c : Context) (k : Key) :
    ((c.bind ka va).merge (c.bind kb vb)).find? k =
      if k = kb then some ⟨kb.type, vb⟩
      else if k = ka then some ((c.find? ka).getD ⟨ka.type, va⟩) else c.find? k := by
  rw [Context.find?_merge, Context.bind, Context.bind, Context.find?_insert, Context.find?_insert]
  by_cases hb : k = kb
  · rw [if_pos hb, if_pos hb, Option.some_or]
  · rw [if_neg hb, if_neg hb]
    by_cases ha : k = ka
    · rw [if_pos ha, if_pos ha, ha]
      cases c.find? ka <;> rfl
    · rw [if_neg ha, if_neg ha, Option.or_self]

/-- **Two values side by side.** The right one's key finds its value. The left one's key finds its
value if the context did not bind the key, and else what the context bound it to, since that is
what the right side hands on. Every other key finds what it did. So the order makes no difference to
what is found just if the context binds neither key to anything but the layer's value. -/
theorem combined_values (hk : ka ≠ kb) (va : ka.type.El) (vb : kb.type.El) (c : Context) :
    ∃ built swapped : Context,
      ((ofValue ka va).beside (ofValue kb vb) : Layer S).build c = .done (.ok built) ∧
      built.find? kb = some ⟨kb.type, vb⟩ ∧
      built.find? ka = some ((c.find? ka).getD ⟨ka.type, va⟩) ∧
      (∀ k, k ≠ ka → k ≠ kb → built.find? k = c.find? k) ∧
      ((ofValue kb vb).beside (ofValue ka va) : Layer S).build c = .done (.ok swapped) ∧
      ((∀ k, swapped.find? k = built.find? k) ↔
        (c.find? ka).getD ⟨ka.type, va⟩ = ⟨ka.type, va⟩ ∧
          (c.find? kb).getD ⟨kb.type, vb⟩ = ⟨kb.type, vb⟩) := by
  have hka := find?_values va vb c ka
  rw [if_neg hk, if_pos rfl] at hka
  have hkb := find?_values va vb c kb
  rw [if_pos rfl] at hkb
  refine ⟨_, _, build_values va vb c, hkb, hka, fun k ha hb ↦ ?_, build_values vb va c, ?_⟩
  · rw [find?_values, if_neg hb, if_neg ha]
  · constructor
    · intro h
      have ha := h ka
      rw [find?_values, if_pos rfl, hka] at ha
      have hb := h kb
      rw [find?_values, if_neg (Ne.symm hk), if_pos rfl, hkb] at hb
      exact ⟨(Option.some.inj ha).symm, Option.some.inj hb⟩
    · rintro ⟨ha, hb⟩ k
      rw [find?_values, find?_values, ha, hb]
      by_cases hka : k = ka
      · rw [if_pos hka, if_neg fun h ↦ hk (hka.symm.trans h), if_pos hka]
      · rw [if_neg hka, if_neg hka]

end

/-- A number, side by side with a flag. -/
def numberWithFlag : Layer Tally :=
  (ofValue ⟨.int, none⟩ (2 : Int64)).beside (ofValue ⟨.flag, none⟩ true)

/-- A flag, side by side with a number. -/
def flagWithNumber : Layer Tally :=
  (ofValue ⟨.flag, none⟩ true).beside (ofValue ⟨.int, none⟩ (2 : Int64))

/-- A context that binds a number. -/
def numbered : Context := Context.empty.bind ⟨.int, none⟩ (1 : Int64)

/-- From a context that binds the number to one, the number on the left is one, and the number on
the right is two. -/
theorem combined_values_number :
    (⟨.int, none⟩ : Key) ≠ ⟨.flag, none⟩ ∧
      ∃ built swapped : Context,
        numberWithFlag.build numbered = .done (.ok built) ∧
        built.find? ⟨.int, none⟩ = some ⟨.int, (1 : Int64)⟩ ∧
        flagWithNumber.build numbered = .done (.ok swapped) ∧
        ¬∀ k, swapped.find? k = built.find? k := by
  have hk : (⟨.int, none⟩ : Key) ≠ ⟨.flag, none⟩ := by decide
  obtain ⟨built, swapped, hbuilt, -, hint, -, hswapped, horder⟩ :=
    combined_values (S := Tally) hk (2 : Int64) true numbered
  refine ⟨hk, built, swapped, hbuilt, hint, hswapped, fun h ↦ ?_⟩
  obtain ⟨hvalue, -⟩ := horder.mp h
  -- the context's number is one
  have hone : (1 : Int64) = 2 := eq_of_heq (Service.mk.inj hvalue).2
  exact absurd hone (by decide)

/-- **A value on the left can be undone by the right side**, although that binds another key: in the
context that binds the number to one, the layer's two is not found. -/
theorem beside_undoes_value :
    (∃ built : Context, numberWithFlag.build numbered = .done (.ok built) ∧
      built.get? ⟨.int, none⟩ = some (1 : Int64)) ∧
    ¬∀ (c : Context) (ka kb : Key) (va : ka.type.El) (vb : kb.type.El), ka ≠ kb →
      ∃ built : Context,
        ((ofValue ka va).beside (ofValue kb vb) : Layer Tally).build c = .done (.ok built) ∧
        built.find? ka = some ⟨ka.type, va⟩ ∧ built.find? kb = some ⟨kb.type, vb⟩ ∧
        ∀ k, k ≠ ka → k ≠ kb → built.find? k = c.find? k := by
  refine ⟨⟨_, rfl, rfl⟩, fun h ↦ ?_⟩
  obtain ⟨built, hbuilt, hint, -⟩ :=
    h numbered ⟨.int, none⟩ ⟨.flag, none⟩ (2 : Int64) true (by decide)
  cases hbuilt
  have hone : (1 : Int64) = 2 := eq_of_heq (Service.mk.inj (Option.some.inj hint)).2
  exact absurd hone (by decide)

end Layer

end EffectMachine
