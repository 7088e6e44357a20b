import EffectMachine.Services.Context
import Mathlib.Data.List.Basic
import Mathlib.Data.List.Induction

/-!
# Contexts as maps

A context is determined by its two views: the keys in order and the instance under each key
(`Context.ext_views`). What an operation does is therefore said by two equations. Binding a key
appends it unless it is bound and changes the instance under no other key; a merge appends the
keys that only the right context binds and prefers the right context's instances. The monoid laws
of `Context.merge`, order included, follow from these equations.

**What is written last is found.** `Context.Expr` are the expressions that build contexts from the
empty one, and `Context.Expr.writes` lists what such an expression binds from left to right. The
context it stands for is the one that these writes build one after the other
(`Context.Expr.eval_eq_insertAll`). This rests on one fact: binding a key on the right of a merge is
binding it in the merged context (`Context.merge_insert`).
-/

namespace EffectMachine.Context

variable {a b c : Context} {k l : Key} {s : Service}

/-! ### The two views -/

theorem nodup_keys (c : Context) : c.keys.Nodup := c.distinct

theorem length_keys (c : Context) : c.keys.length = c.size := List.length_map ..

/-- A key that is not among those of a list of entries is not found there. -/
theorem find?_eq_none_iff_notMem (es : List (Key × Service)) (k : Key) :
    (es.find? fun e ↦ e.1 = k).map Prod.snd = none ↔ k ∉ es.map Prod.fst := by
  simp only [Option.map_eq_none_iff, List.find?_eq_none, decide_eq_true_eq, List.mem_map,
    not_exists, not_and]

theorem find?_eq_none_iff (c : Context) (k : Key) : c.find? k = none ↔ k ∉ c.keys :=
  find?_eq_none_iff_notMem c.entries k

theorem contains_iff_mem_keys (c : Context) (k : Key) : c.contains k = true ↔ k ∈ c.keys := by
  rw [contains, Option.isSome_iff_ne_none, ne_eq, find?_eq_none_iff, not_not]

/-- Entries without a repeated key can be read off their keys and what is found under these. -/
theorem filterMap_find? {es : List (Key × Service)} (h : (es.map Prod.fst).Nodup) :
    ((es.map Prod.fst).filterMap fun k ↦
      ((es.find? fun e ↦ e.1 = k).map Prod.snd).map fun s ↦ (k, s)) = es := by
  induction es with
  | nil => rfl
  | cons e es ih =>
    obtain ⟨hk, hes⟩ := List.nodup_cons.mp h
    -- the first entry is found under no key of a later one
    have hrest : ∀ k ∈ es.map Prod.fst, (e :: es).find? (fun e ↦ e.1 = k)
        = es.find? fun e ↦ e.1 = k := by
      intro k hmem
      rw [List.find?_cons_of_neg]
      simpa using fun heq : e.1 = k ↦ hk (heq ▸ hmem)
    rw [List.map_cons, List.filterMap_cons]
    simp only [decide_true, List.find?_cons_of_pos, Option.map_some]
    rw [List.filterMap_congr fun k hmem ↦ by rw [hrest k hmem], ih hes]

theorem entries_eq_filterMap (c : Context) :
    c.entries = c.keys.filterMap fun k ↦ (c.find? k).map fun s ↦ (k, s) :=
  (filterMap_find? c.distinct).symm

/-- **A context is determined by its keys and the instances under them.** -/
theorem ext_views (hkeys : a.keys = b.keys) (hfind : ∀ k, a.find? k = b.find? k) : a = b := by
  refine Context.ext ?_
  rw [entries_eq_filterMap a, entries_eq_filterMap b, hkeys]
  simp only [hfind]

@[simp] theorem keys_empty : empty.keys = [] := rfl

@[simp] theorem find?_empty (k : Key) : empty.find? k = none := rfl

theorem eq_empty_of_isEmpty (h : c.isEmpty = true) : c = empty :=
  Context.ext (List.isEmpty_iff.mp h)

/-! ### Binding -/

theorem keys_insert (c : Context) (k : Key) (s : Service) :
    (c.insert k s).keys = if k ∈ c.keys then c.keys else c.keys ++ [k] :=
  keys_insertEntry k s c.entries

theorem mem_keys_insert : l ∈ (c.insert k s).keys ↔ l = k ∨ l ∈ c.keys := by
  rw [keys_insert]
  by_cases hk : k ∈ c.keys
  · rw [if_pos hk]
    exact ⟨.inr, fun h ↦ h.elim (fun h ↦ h ▸ hk) id⟩
  · rw [if_neg hk, List.mem_append, List.mem_singleton, or_comm]

theorem find?_insert (c : Context) (k l : Key) (s : Service) :
    (c.insert k s).find? l = if l = k then some s else c.find? l := by
  by_cases h : l = k
  · rw [if_pos h, h, find?_insert_self]
  · rw [if_neg h, find?_insert_of_ne c h]

@[simp] theorem insertAll_nil (c : Context) : c.insertAll [] = c := rfl

@[simp] theorem insertAll_cons (c : Context) (e : Key × Service) (es : List (Key × Service)) :
    c.insertAll (e :: es) = (c.insert e.1 e.2).insertAll es := rfl

theorem insertAll_append (c : Context) (es es' : List (Key × Service)) :
    c.insertAll (es ++ es') = (c.insertAll es).insertAll es' := List.foldl_append ..

/-- After binding a list the last instance that it names for a key is found. -/
theorem find?_insertAll (c : Context) (es : List (Key × Service)) (k : Key) :
    (c.insertAll es).find? k = (es.reverse.lookup k).or (c.find? k) := by
  induction es generalizing c with
  | nil => rfl
  | cons e es ih =>
    rw [insertAll_cons, ih, find?_insert, List.reverse_cons, List.lookup_append, Option.or_assoc]
    congr 1
    by_cases h : k = e.1
    · rw [if_pos h, h, List.lookup_cons_self, Option.some_or]
    · rw [if_neg h, List.lookup_cons, beq_false_of_ne h, List.lookup_nil, Option.none_or]

/-- Binding different keys appends those that are not bound yet. -/
theorem keys_insertAll (c : Context) {es : List (Key × Service)} (h : (es.map Prod.fst).Nodup) :
    (c.insertAll es).keys = c.keys ++ (es.map Prod.fst).filter (· ∉ c.keys) := by
  induction es generalizing c with
  | nil => simp
  | cons e es ih =>
    obtain ⟨hk, hes⟩ := List.nodup_cons.mp h
    have hrest : (es.map Prod.fst).filter (· ∉ (c.insert e.1 e.2).keys)
        = (es.map Prod.fst).filter (· ∉ c.keys) := by
      refine List.filter_congr fun l hl ↦ ?_
      have hne : l ≠ e.1 := fun heq ↦ hk (heq ▸ hl)
      simp only [mem_keys_insert, hne, false_or]
    rw [insertAll_cons, ih _ hes, hrest, keys_insert, List.map_cons]
    by_cases hmem : e.1 ∈ c.keys
    · rw [if_pos hmem, List.filter_cons_of_neg (by simpa using hmem)]
    · rw [if_neg hmem, List.filter_cons_of_pos (by simpa using hmem), List.append_assoc]
      rfl

/-- From nothing, the keys stand in the order in which a list names them first. -/
theorem keys_insertAll_empty (es : List (Key × Service)) :
    (empty.insertAll es).keys = (es.map Prod.fst).eraseDups := by
  induction es using List.reverseRecOn with
  | nil => rfl
  | append_singleton es e ih =>
    rw [insertAll_append, insertAll_cons, insertAll_nil, keys_insert, ih, List.map_append,
      List.eraseDups_append, List.map_singleton]
    by_cases h : e.1 ∈ es.map Prod.fst
    · rw [if_pos (List.mem_eraseDups.mpr h)]
      simp [List.removeAll, h]
    · rw [if_neg fun hmem ↦ h (List.mem_eraseDups.mp hmem)]
      simp [List.removeAll, h, List.eraseDups_cons]

/-- In a list without a repeated key, the last entry of a key is the one that is found. -/
theorem lookup_reverse {es : List (Key × Service)} (h : (es.map Prod.fst).Nodup) (k : Key) :
    es.reverse.lookup k = (es.find? fun e ↦ e.1 = k).map Prod.snd := by
  induction es with
  | nil => rfl
  | cons e es ih =>
    obtain ⟨hk, hes⟩ := List.nodup_cons.mp h
    rw [List.reverse_cons, List.lookup_append, ih hes]
    by_cases heq : e.1 = k
    · subst heq
      rw [(find?_eq_none_iff_notMem es e.1).mpr hk, List.find?_cons_of_pos (by simp),
        List.lookup_cons_self, Option.none_or, Option.map_some]
    · rw [List.find?_cons_of_neg (by simpa using heq), List.lookup_cons,
        beq_false_of_ne (Ne.symm heq), List.lookup_nil, Option.or_none]

theorem lookup_reverse_entries (c : Context) (k : Key) : c.entries.reverse.lookup k = c.find? k :=
  lookup_reverse c.distinct k

/-- Binding the entries of a context from nothing gives the context back. -/
theorem insertAll_empty_entries (c : Context) : empty.insertAll c.entries = c := by
  refine ext_views ?_ fun k ↦ ?_
  · rw [keys_insertAll empty c.distinct, keys_empty, List.nil_append,
      List.filter_eq_self.mpr fun _ _ ↦ by simp, keys]
  · rw [find?_insertAll, find?_empty, Option.or_none, lookup_reverse_entries]

/-! ### Merging -/

/-- **The shortcuts for an empty side agree with the general path.** -/
theorem merge_eq_insertAll (a b : Context) : a.merge b = a.insertAll b.entries := by
  rw [merge]
  by_cases hb : b.isEmpty = true
  · rw [if_pos hb, eq_empty_of_isEmpty hb]
    rfl
  · rw [if_neg hb]
    by_cases ha : a.isEmpty = true
    · rw [if_pos ha, eq_empty_of_isEmpty ha, insertAll_empty_entries]
    · rw [if_neg ha]

theorem find?_merge (a b : Context) (k : Key) :
    (a.merge b).find? k = (b.find? k).or (a.find? k) := by
  rw [merge_eq_insertAll, find?_insertAll, lookup_reverse_entries]

theorem keys_merge (a b : Context) : (a.merge b).keys = a.keys ++ b.keys.filter (· ∉ a.keys) := by
  rw [merge_eq_insertAll]
  exact keys_insertAll a b.distinct

theorem mem_keys_merge : k ∈ (a.merge b).keys ↔ k ∈ a.keys ∨ k ∈ b.keys := by
  rw [keys_merge, List.mem_append, List.mem_filter, decide_eq_true_eq]
  tauto

theorem merge_empty (c : Context) : c.merge empty = c := by rw [merge_eq_insertAll]; rfl

theorem empty_merge (c : Context) : empty.merge c = c := by
  rw [merge_eq_insertAll, insertAll_empty_entries]

theorem merge_self (c : Context) : c.merge c = c := by
  refine ext_views ?_ fun k ↦ ?_
  · rw [keys_merge, List.filter_eq_nil_iff.mpr fun k hk ↦ by simpa using hk, List.append_nil]
  · rw [find?_merge, Option.or_self]

theorem merge_assoc (a b c : Context) : (a.merge b).merge c = a.merge (b.merge c) := by
  refine ext_views ?_ fun k ↦ ?_
  · have hfilter : (c.keys.filter (· ∉ b.keys)).filter (· ∉ a.keys)
        = c.keys.filter (· ∉ (a.merge b).keys) := by
      rw [List.filter_filter]
      refine List.filter_congr fun k _ ↦ ?_
      simp only [mem_keys_merge, not_or, Bool.decide_and]
    rw [keys_merge, ← hfilter, keys_merge, keys_merge, keys_merge, List.filter_append,
      List.append_assoc]
  · rw [find?_merge, find?_merge, find?_merge, find?_merge, Option.or_assoc]

/-- **Binding a key on the right of a merge is binding it in the merged context**, at the same
place too. -/
theorem merge_insert (a b : Context) (k : Key) (s : Service) :
    a.merge (b.insert k s) = (a.merge b).insert k s := by
  refine ext_views ?_ fun l ↦ ?_
  · rw [keys_insert, keys_merge, keys_merge, keys_insert, ← keys_merge]
    by_cases hb : k ∈ b.keys
    · rw [if_pos hb, if_pos (mem_keys_merge.mpr (.inr hb)), keys_merge]
    · by_cases ha : k ∈ a.keys
      · rw [if_neg hb, if_pos (mem_keys_merge.mpr (.inl ha)), List.filter_append,
          List.filter_cons_of_neg (by simpa using ha), List.filter_nil, List.append_nil, keys_merge]
      · have hab : k ∉ (a.merge b).keys := fun h ↦ (mem_keys_merge.mp h).elim ha hb
        rw [if_neg hb, if_neg hab, List.filter_append, List.filter_cons_of_pos (by simpa using ha),
          List.filter_nil, keys_merge, List.append_assoc]
  · rw [find?_merge, find?_insert, find?_insert, find?_merge]
    by_cases h : l = k
    · rw [if_pos h, if_pos h, Option.some_or]
    · rw [if_neg h, if_neg h]

theorem merge_insertAll (a b : Context) (es : List (Key × Service)) :
    a.merge (b.insertAll es) = (a.merge b).insertAll es := by
  induction es generalizing b with
  | nil => rfl
  | cons e es ih => rw [insertAll_cons, ih, merge_insert, insertAll_cons]

/-! ### What all entries have in common -/

section

variable (P : Key → Service → Prop)

theorem forall_entries_iff :
    (∀ e ∈ c.entries, P e.1 e.2) ↔ ∀ k s, c.find? k = some s → P k s := by
  constructor
  · intro h k s hs
    obtain ⟨e, he, rfl⟩ := Option.map_eq_some_iff.mp hs
    have hkey : e.1 = k := by simpa using List.find?_some he
    rw [← hkey]
    exact h e (List.mem_of_find?_eq_some he)
  · intro h e he
    rw [entries_eq_filterMap] at he
    obtain ⟨k, -, he⟩ := List.mem_filterMap.mp he
    obtain ⟨s, hs, rfl⟩ := Option.map_eq_some_iff.mp he
    exact h k s hs

theorem forall_entries_insert (h : ∀ e ∈ c.entries, P e.1 e.2) (hs : P k s) :
    ∀ e ∈ (c.insert k s).entries, P e.1 e.2 := by
  refine (forall_entries_iff P).mpr fun l t ht ↦ ?_
  rw [find?_insert] at ht
  by_cases hl : l = k
  · rw [if_pos hl] at ht
    rwa [hl, ← Option.some.inj ht]
  · rw [if_neg hl] at ht
    exact (forall_entries_iff P).mp h l t ht

theorem forall_entries_merge (ha : ∀ e ∈ a.entries, P e.1 e.2) (hb : ∀ e ∈ b.entries, P e.1 e.2) :
    ∀ e ∈ (a.merge b).entries, P e.1 e.2 := by
  refine (forall_entries_iff P).mpr fun k t ht ↦ ?_
  rw [find?_merge] at ht
  rcases Option.or_eq_some_iff.mp ht with ht | ⟨-, ht⟩
  · exact (forall_entries_iff P).mp hb k t ht
  · exact (forall_entries_iff P).mp ha k t ht

end

/-! ### Expressions that build contexts -/

/-- An expression that builds a context from the empty one by binding keys and by merging. -/
inductive Expr where
  | empty
  /-- Bind a key to an instance of its type. -/
  | bind (e : Expr) (k : Key) (x : k.type.El)
  /-- Bind a key to an instance of any type. -/
  | insert (e : Expr) (k : Key) (s : Service)
  | merge (left right : Expr)

namespace Expr

/-- The context that an expression stands for. -/
def eval : Expr → Context
  | .empty => Context.empty
  | .bind e k x => e.eval.bind k x
  | .insert e k s => e.eval.insert k s
  | .merge left right => left.eval.merge right.eval

/-- What an expression binds, from left to right. -/
def writes : Expr → List (Key × Service)
  | .empty => []
  | .bind e k x => e.writes ++ [(k, ⟨k.type, x⟩)]
  | .insert e k s => e.writes ++ [(k, s)]
  | .merge left right => left.writes ++ right.writes

/-- An expression stands for what its writes build one after the other. -/
theorem eval_eq_insertAll (e : Expr) : e.eval = Context.empty.insertAll e.writes := by
  induction e with
  | empty => rfl
  | bind e k x ih => rw [eval, writes, insertAll_append, ← ih]; rfl
  | insert e k s ih => rw [eval, writes, insertAll_append, ← ih]; rfl
  | merge left right ihl ihr =>
    calc left.eval.merge right.eval
      _ = left.eval.merge (Context.empty.insertAll right.writes) := by rw [ihr]
      _ = left.eval.insertAll right.writes := by rw [merge_insertAll, merge_empty]
      _ = Context.empty.insertAll (left.writes ++ right.writes) := by rw [ihl, insertAll_append]

theorem keys_eval (e : Expr) : e.eval.keys = (e.writes.map Prod.fst).eraseDups := by
  rw [eval_eq_insertAll, keys_insertAll_empty]

theorem find?_eval (e : Expr) (k : Key) : e.eval.find? k = e.writes.reverse.lookup k := by
  rw [eval_eq_insertAll, find?_insertAll, find?_empty, Option.or_none]

/-- Every context is built by some expression. -/
theorem exists_eval_eq (c : Context) : ∃ e : Expr, e.eval = c := by
  have hinsertAll : ∀ (es : List (Key × Service)) (e : Expr),
      ∃ e' : Expr, e'.eval = e.eval.insertAll es := by
    intro es
    induction es with
    | nil => exact fun e ↦ ⟨e, rfl⟩
    | cons w es ih => exact fun e ↦ ih (.insert e w.1 w.2)
  obtain ⟨e, he⟩ := hinsertAll c.entries .empty
  exact ⟨e, he.trans (insertAll_empty_entries c)⟩

/-- What is found under a key depends on what is written under keys of its type and tag only. -/
theorem find?_eval_filter (e : Expr) (k : Key) : e.eval.find? k =
    (Context.empty.insertAll (e.writes.filter fun w ↦ w.1.type = k.type ∧ w.1.tag = k.tag)).find?
      k := by
  have hlookup : ∀ ws : List (Key × Service),
      (ws.filter fun w ↦ w.1.type = k.type ∧ w.1.tag = k.tag).lookup k = ws.lookup k := by
    intro ws
    induction ws with
    | nil => rfl
    | cons w ws ih =>
      obtain ⟨⟨p, t⟩, s⟩ := w
      by_cases h : p = k.type ∧ t = k.tag
      · rw [List.filter_cons_of_pos (by simpa using h), List.lookup_cons, List.lookup_cons, ih]
      · have hne : k ≠ ⟨p, t⟩ := by
          rintro rfl
          exact h ⟨rfl, rfl⟩
        rw [List.filter_cons_of_neg (by simpa using h), ih, List.lookup_cons,
          beq_false_of_ne hne]
  rw [find?_eval, find?_insertAll, find?_empty, Option.or_none, ← List.filter_reverse, hlookup]

end Expr

/-! ### Last write wins -/

/-- **A context is a map in which the last write wins, with its keys in the order of their first
writes, and merging is a monoid on contexts.**

For every expression that builds a context, the keys are those that it writes, each once and in the
order in which they are first written, their number is the size, and under a key stands the
instance that is written last. Every context is built by some expression. A merge finds what its
right side binds, and else what its left side does; its keys are those of the left side followed by
the ones that only the right side binds. It is associative and idempotent, with the empty context on
either side as identity, and the shortcuts for an empty side make no difference to binding the right
side's entries one by one. All these are equations between contexts, the order of keys included.

Keys of another type or tag do not interfere: what is found under a key depends on what was written
under its own type and tag. An absent tag and an empty tag differ. -/
theorem last_write_wins :
    (∀ e : Expr, e.eval.keys = (e.writes.map Prod.fst).eraseDups ∧ e.eval.keys.Nodup ∧
      (∀ k, e.eval.contains k = true ↔ k ∈ e.eval.keys) ∧ e.eval.size = e.eval.keys.length ∧
      ∀ k, e.eval.find? k = e.writes.reverse.lookup k) ∧
    (∀ c : Context, ∃ e : Expr, e.eval = c) ∧
    (∀ a b : Context,
      (∀ k, (a.merge b).find? k = if b.contains k then b.find? k else a.find? k) ∧
      (a.merge b).keys = a.keys ++ b.keys.filter (· ∉ a.keys)) ∧
    (∀ a b c : Context, (a.merge b).merge c = a.merge (b.merge c)) ∧
    (∀ c : Context, c.merge c = c ∧ empty.merge c = c ∧ c.merge empty = c) ∧
    (∀ a b : Context, a.merge b = a.insertAll b.entries) ∧
    (∀ (c : Context) (k l : Key) (s : Service), (c.insert k s).find? l =
      if l.type = k.type ∧ l.tag = k.tag then some s else c.find? l) ∧
    (∀ (e : Expr) (k : Key), e.eval.find? k =
      (empty.insertAll (e.writes.filter fun w ↦ w.1.type = k.type ∧ w.1.tag = k.tag)).find? k) ∧
    ∀ (c : Context) (p : Plain) (s : Service),
      (c.insert ⟨p, none⟩ s).find? ⟨p, some ""⟩ = c.find? ⟨p, some ""⟩ ∧
      (c.insert ⟨p, some ""⟩ s).find? ⟨p, none⟩ = c.find? ⟨p, none⟩ := by
  refine ⟨fun e ↦ ⟨e.keys_eval, e.eval.nodup_keys, e.eval.contains_iff_mem_keys,
      e.eval.length_keys.symm, e.find?_eval⟩, Expr.exists_eval_eq,
    fun a b ↦ ⟨fun k ↦ ?_, keys_merge a b⟩, merge_assoc,
    fun c ↦ ⟨merge_self c, empty_merge c, merge_empty c⟩, merge_eq_insertAll, fun c k l s ↦ ?_,
    Expr.find?_eval_filter, fun c p s ↦ ⟨?_, ?_⟩⟩
  · rw [find?_merge, contains]
    cases b.find? k <;> rfl
  · rw [find?_insert]
    refine if_congr ?_ rfl rfl
    cases k
    cases l
    rw [Key.mk.injEq]
  · exact find?_insert_of_ne c (by simp) s
  · exact find?_insert_of_ne c (by simp) s

/-- Overwriting keeps the place, and what is merged on the right comes last unless it is bound. -/
example :
    let a := (empty.bind ⟨.int, none⟩ (1 : Int64)).bind ⟨.flag, none⟩ true
    let b := (empty.bind ⟨.text, some ""⟩ "s").bind ⟨.int, none⟩ (2 : Int64)
    (a.merge b).keys = [⟨.int, none⟩, ⟨.flag, none⟩, ⟨.text, some ""⟩] ∧
      (a.merge b).get? ⟨.int, none⟩ = some (2 : Int64) ∧
      (a.merge b).get? ⟨.text, none⟩ = none := by
  exact ⟨rfl, rfl, rfl⟩

end EffectMachine.Context
