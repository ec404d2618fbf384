import Taglet.Proofs.Forests

/-!
# Taglet.Proofs.LexicalScopes

Scoping is lexical.

The changes that an operation makes to what a scope sees are read off its
answer (`Env.Performed.lookup?_eq`, `isBoundHere_iff`, `locals_eq`).  So a
scope is known from what its names stood for around it when it was opened and
from the operations performed on it since (`Env.Lexical`); what happens to the
scopes around it, inside it or beside it does not matter
(`Forest.env?_of_perform_of_ne`, `Forest.env?_of_nest`).  Signatures alone are
shared: one that is defined through any scope is found through all.
-/

namespace Taglet

/-! ## What an operation asked for and what it got -/

/-- An answer to an operation. -/
abbrev ScopeAnswer := Except ScopeError (Option Binding)

/-- The name that an operation binds or reserves in its scope. -/
def ScopeAction.claims? : ScopeAction → Option String
  | .declareGlobal name _ => some name
  | .declareLocal name _ => some name
  | .reserve name => some name
  | .defineFunc _ _ => none

/-- A declaration that succeeds gives a binding of the name and type it is
about, and nothing else gives one. -/
inductive ScopeAction.Answered : ScopeAction → ScopeAnswer → Prop
  | failed {a : ScopeAction} (err : ScopeError) : Answered a (.error err)
  | global {name : String} {ty : Ty} (slot : Nat) :
      Answered (.declareGlobal name ty) (.ok (some ⟨name, ty, .global, slot⟩))
  | frame {name : String} {ty : Ty} (slot : Nat) :
      Answered (.declareLocal name ty) (.ok (some ⟨name, ty, .frame, slot⟩))
  | reserved {name : String} : Answered (.reserve name) (.ok none)
  | defined {name : String} {sig : Signature} : Answered (.defineFunc name sig) (.ok none)

/-- The binding that an answer gives. -/
def ScopeAnswer.binding? : ScopeAnswer → Option Binding
  | .ok b => b
  | .error _ => none

/-- A binding is given under the name that was claimed. -/
theorem ScopeAction.Answered.claims?_eq {a : ScopeAction} {b : Binding}
    (h : a.Answered (.ok (some b))) : a.claims? = some b.name := by
  cases h <;> rfl

namespace Env

variable {e e' : Env} {a : ScopeAction} {answer : ScopeAnswer}

theorem Performed.answered (h : e.Performed a (e', answer)) : a.Answered answer := by
  cases h with
  | failed err => exact .failed err
  | declaredGlobal declared =>
      obtain ⟨_, _, rfl, _⟩ := declareGlobal_eq_ok_iff.mp declared
      exact .global _
  | declaredLocal declared =>
      obtain ⟨_, _, _, rfl⟩ := declareLocal_eq_ok_iff.mp declared
      exact .frame _
  | reserved => exact .reserved
  | defined => exact .defined

/-- A name is claimed only once in a scope. -/
theorem Performed.isBoundHere_eq_false {r : Option Binding} {name : String}
    (h : e.Performed a (e', .ok r)) (hname : a.claims? = some name) :
    e.isBoundHere name = false := by
  cases h with
  | declaredGlobal declared =>
      cases hname
      exact (declareGlobal_eq_ok_iff.mp declared).2.1
  | declaredLocal declared =>
      cases hname
      exact (declareLocal_eq_ok_iff.mp declared).2.1
  | reserved reserved =>
      cases hname
      exact (reserve_spec reserved).1
  | defined => cases hname

/-- A binding is given only under a name that is new to its scope. -/
theorem Performed.isBoundHere_of_binding? {b : Binding} (h : e.Performed a (e', answer))
    (hb : answer.binding? = some b) : e.isBoundHere b.name = false := by
  cases answer with
  | error err => cases hb
  | ok r =>
      obtain rfl : r = some b := hb
      exact h.isBoundHere_eq_false h.answered.claims?_eq

/-- The binding that is given hides what its name stood for. -/
theorem Performed.lookup?_eq (h : e.Performed a (e', answer)) (x : String) :
    e'.lookup? x = (answer.binding?.filter (·.name = x)).or (e.lookup? x) := by
  cases h with
  | failed => rfl
  | declaredGlobal declared =>
      obtain ⟨_, _, _, rfl⟩ := declareGlobal_eq_ok_iff.mp declared
      rw [lookup?_addGlobal]
      split <;> simp_all [ScopeAnswer.binding?, Option.filter]
  | declaredLocal declared =>
      obtain ⟨_, _, rfl, rfl⟩ := declareLocal_eq_ok_iff.mp declared
      rw [lookup?_withLocal]
      split <;> simp_all [ScopeAnswer.binding?, Option.filter]
  | reserved reserved => exact (reserve_spec reserved).2.2.2.1 x
  | defined defined =>
      rw [lookup?, (defineFunc_spec defined).1]
      rfl

theorem Performed.lookup?_of_ne (h : e.Performed a (e', answer)) {x : String}
    (hx : ∀ b, answer.binding? = some b → b.name ≠ x) : e'.lookup? x = e.lookup? x := by
  have hnone : answer.binding?.filter (·.name = x) = none := by
    rw [Option.filter_eq_none_iff]
    intro b hb hname
    exact hx b hb (of_decide_eq_true hname)
  rw [h.lookup?_eq, hnone, Option.none_or]

/-- The names bound in a scope grow by what is claimed with success. -/
theorem Performed.isBoundHere_iff (h : e.Performed a (e', answer)) (x : String) :
    e'.isBoundHere x = true ↔
      e.isBoundHere x = true ∨ (∃ r, answer = .ok r) ∧ a.claims? = some x := by
  cases h with
  | failed => simp
  | declaredGlobal declared =>
      obtain ⟨_, _, rfl, rfl⟩ := declareGlobal_eq_ok_iff.mp declared
      simp [ScopeAction.claims?, or_comm]
  | declaredLocal declared =>
      obtain ⟨_, _, rfl, rfl⟩ := declareLocal_eq_ok_iff.mp declared
      simp [ScopeAction.claims?, or_comm]
  | reserved reserved =>
      rw [(reserve_spec reserved).2.2.2.2 x]
      simp [ScopeAction.claims?, or_comm]
  | defined defined =>
      rw [isBoundHere, (defineFunc_spec defined).1]
      simp [ScopeAction.claims?, isBoundHere]

/-- A local gets the next index, and nothing else counts as one. -/
theorem Performed.locals_eq (h : e.Performed a (e', answer)) :
    List.range e'.scope.locals =
      List.range e.scope.locals ++
        ((answer.binding?.filter (·.isLocal)).map (·.slot)).toList := by
  cases h with
  | failed => simp [ScopeAnswer.binding?]
  | declaredGlobal declared =>
      obtain ⟨_, _, rfl, rfl⟩ := declareGlobal_eq_ok_iff.mp declared
      simp [ScopeAnswer.binding?, Option.filter, Binding.isLocal, addGlobal, Env.bind]
  | declaredLocal declared =>
      obtain ⟨_, _, rfl, rfl⟩ := declareLocal_eq_ok_iff.mp declared
      simp [ScopeAnswer.binding?, Option.filter, Binding.isLocal, withLocal, addLocal, Env.bind,
        List.range_succ]
  | reserved reserved =>
      unfold reserve at reserved
      split at reserved
      · cases reserved
      · cases reserved
        simp [ScopeAnswer.binding?]
  | defined defined => simp [ScopeAnswer.binding?, (defineFunc_spec defined).1]

/-- The signatures grow by what is defined with success. -/
theorem Performed.signature?_eq_some_iff (h : e.Performed a (e', answer)) {name : String}
    {sig : Signature} :
    e'.signature? name = some sig ↔
      e.signature? name = some sig ∨ a = .defineFunc name sig ∧ answer = .ok none := by
  cases h with
  | failed => simp
  | declaredGlobal declared =>
      obtain ⟨_, _, rfl, rfl⟩ := declareGlobal_eq_ok_iff.mp declared
      simp
  | declaredLocal declared =>
      obtain ⟨_, _, rfl, rfl⟩ := declareLocal_eq_ok_iff.mp declared
      simp [signature?, withLocal, addLocal, Env.bind]
  | reserved reserved => simp [signature?, (reserve_spec reserved).2.1]
  | @defined func sig' _ hdefined =>
      have hnew : e.signature? func = none := by
        unfold defineFunc at hdefined
        split at hdefined
        · cases hdefined
        · assumption
      rw [signature?_of_defineFunc hdefined]
      by_cases hname : func = name
      · subst hname
        simp [hnew]
      · simp [hname]

/-! ## One scope -/

/-- The bindings that a scope made in the course of some operations on it. -/
def declared (deeds : List (ScopeAction × ScopeAnswer)) : List Binding :=
  deeds.filterMap fun d => d.2.binding?

@[simp]
theorem declared_concat (deeds : List (ScopeAction × ScopeAnswer)) (a : ScopeAction)
    (answer : ScopeAnswer) :
    declared (deeds ++ [(a, answer)]) = declared deeds ++ answer.binding?.toList := by
  cases h : answer.binding? <;> simp [declared, h]

/-- A scope whose names stood for `outer` when it was opened, after some
operations on it. -/
structure Lexical (outer : String → Option Binding) (deeds : List (ScopeAction × ScopeAnswer))
    (e : Env) : Prop where
  answered : ∀ {a : ScopeAction} {answer : ScopeAnswer}, (a, answer) ∈ deeds → a.Answered answer
  /-- A name that the scope declared stands for what it declared. -/
  own : ∀ {b : Binding}, b ∈ declared deeds → e.lookup? b.name = some b
  /-- Any other name stands for what it stood for outside. -/
  outside : ∀ {x : String}, (∀ b ∈ declared deeds, b.name ≠ x) → e.lookup? x = outer x
  bound : ∀ {x : String}, e.isBoundHere x = true ↔ ∃ a r, (a, .ok r) ∈ deeds ∧ a.claims? = some x
  /-- Locals are numbered in the order of their declaration. -/
  slots : ((declared deeds).filter (·.isLocal)).map (·.slot) = List.range e.scope.locals

/-- A scope that was just opened. -/
theorem lexical_nest (func : String) (e : Env) : (e.nest func).Lexical e.lookup? [] where
  answered := by simp
  own := by simp [declared]
  outside _ := lookup?_nest func e _
  bound := by simp
  slots := rfl

/-- The top level of an empty program. -/
theorem lexical_empty : empty.Lexical (fun _ => none) [] where
  answered := by simp
  own := by simp [declared]
  outside _ := lookup?_empty _
  bound := by simp [empty, isBoundHere]
  slots := rfl

variable {outer : String → Option Binding} {deeds : List (ScopeAction × ScopeAnswer)}

/-- What a scope declared is bound in it. -/
theorem Lexical.isBoundHere_of_mem (h : e.Lexical outer deeds) {b : Binding}
    (hb : b ∈ declared deeds) : e.isBoundHere b.name = true := by
  obtain ⟨⟨a, answer⟩, hmem, hanswer⟩ := List.mem_filterMap.mp hb
  cases answer with
  | error err => cases hanswer
  | ok r =>
      obtain rfl : r = some b := hanswer
      exact h.bound.mpr ⟨a, some b, hmem, (h.answered hmem).claims?_eq⟩

/-- Every operation on a scope is one more of those it is known from. -/
theorem Lexical.performed (h : e.Lexical outer deeds) (hp : e.Performed a (e', answer)) :
    e'.Lexical outer (deeds ++ [(a, answer)]) where
  answered := by
    intro a' answer' hmem
    rcases List.mem_append.mp hmem with hmem | hmem
    · exact h.answered hmem
    · cases List.mem_singleton.mp hmem
      exact hp.answered
  own := by
    intro b hb
    rw [declared_concat] at hb
    rcases List.mem_append.mp hb with hold | hnew
    · rw [hp.lookup?_of_ne, h.own hold]
      -- the name of an older declaration is not claimed again
      intro c hc hname
      have hfresh := hp.isBoundHere_of_binding? hc
      rw [hname, h.isBoundHere_of_mem hold] at hfresh
      cases hfresh
    · rw [hp.lookup?_eq, Option.mem_toList.mp hnew]
      simp
  outside := by
    intro x hx
    rw [declared_concat] at hx
    rw [hp.lookup?_of_ne, h.outside]
    · intro b hb
      exact hx b (List.mem_append_left _ hb)
    · intro b hb
      exact hx b (List.mem_append_right _ (Option.mem_toList.mpr hb))
  bound := by
    intro x
    rw [hp.isBoundHere_iff, h.bound]
    constructor
    · rintro (⟨a', r, hmem, hclaims⟩ | ⟨⟨r, rfl⟩, hclaims⟩)
      · exact ⟨a', r, List.mem_append_left _ hmem, hclaims⟩
      · exact ⟨a, r, by simp, hclaims⟩
    · rintro ⟨a', r, hmem, hclaims⟩
      rcases List.mem_append.mp hmem with hmem | hmem
      · exact .inl ⟨a', r, hmem, hclaims⟩
      · cases List.mem_singleton.mp hmem
        exact .inr ⟨⟨r, rfl⟩, hclaims⟩
  slots := by
    rw [declared_concat, List.filter_append, List.map_append, h.slots, hp.locals_eq]
    congr 1
    cases answer.binding? with
    | none => rfl
    | some b => cases hb : b.isLocal <;> simp [hb, Option.filter]

/-- What a scope is known for is its own affair. -/
theorem Lexical.congr (h : e.Lexical outer deeds) (hscope : e'.scope = e.scope) :
    e'.Lexical outer deeds := by
  obtain ⟨globals, scope⟩ := e
  obtain ⟨globals', scope'⟩ := e'
  cases hscope
  exact ⟨h.answered, h.own, h.outside, h.bound, h.slots⟩

/-- One scope sees, binds and counts as another does. -/
structure SameView (e e' : Env) : Prop where
  lookup?_eq : ∀ x, e'.lookup? x = e.lookup? x
  isBoundHere_eq : ∀ x, e'.isBoundHere x = e.isBoundHere x
  locals_eq : e'.scope.locals = e.scope.locals

theorem SameView.of_scope_eq (h : e'.scope = e.scope) : e.SameView e' where
  lookup?_eq x := by rw [lookup?, h, lookup?]
  isBoundHere_eq x := by rw [isBoundHere, h, isBoundHere]
  locals_eq := by rw [h]

end Env

/-! ## Many scopes -/

namespace Forest

variable {f f' : Forest} {i k : Nat}

theorem env?_eq_some_iff {e : Env} :
    f.env? i = some e ↔
      ∃ p, f.scopes[i]? = some (p, e.scope) ∧ f.programs[p]? = some e.globals := by
  obtain ⟨globals, scope⟩ := e
  simp only [env?, Option.bind_eq_bind, Option.bind_eq_some_iff, Option.pure_def,
    Option.some.injEq, Env.mk.injEq, Prod.exists]
  constructor
  · rintro ⟨p, _, hscope, _, hglobals, rfl, rfl⟩
    exact ⟨p, hscope, hglobals⟩
  · rintro ⟨p, hscope, hglobals⟩
    exact ⟨p, scope, hscope, globals, hglobals, rfl, rfl⟩

/-- An operation makes of its scope what it makes of it alone. -/
theorem env?_of_perform {a : ScopeAction} {answer : ScopeAnswer}
    (h : f.perform k a = some (f', answer)) :
    ∃ e e', f.env? k = some e ∧ f'.env? k = some e' ∧ e.Performed a (e', answer) := by
  obtain ⟨p, scope, globals, hscope, hglobals, e', he, rfl⟩ := perform_eq_some h
  have hk : k < f.scopes.size := (Array.getElem?_eq_some_iff.mp hscope).1
  have hp : p < f.programs.size := (Array.getElem?_eq_some_iff.mp hglobals).1
  refine ⟨{ globals, scope }, e', env?_eq_some_iff.mpr ⟨p, hscope, hglobals⟩, ?_, he⟩
  exact env?_eq_some_iff.mpr ⟨p, by simp [hk], by simp [hp]⟩

/-- An operation on one scope leaves the others as they were. -/
theorem env?_of_perform_of_ne {a : ScopeAction} {answer : ScopeAnswer} {e : Env}
    (h : f.perform k a = some (f', answer)) (hi : i ≠ k) (he : f.env? i = some e) :
    ∃ e', f'.env? i = some e' ∧ e'.scope = e.scope := by
  obtain ⟨p, scope, globals, hscope, hglobals, changed, _, rfl⟩ := perform_eq_some h
  obtain ⟨q, hq, hqglobals⟩ := env?_eq_some_iff.mp he
  have hsize : q < f.programs.size := (Array.getElem?_eq_some_iff.mp hqglobals).1
  obtain ⟨globals', hglobals'⟩ :
      ∃ globals', (f.programs.setIfInBounds p changed.globals)[q]? = some globals' :=
    ⟨_, Array.getElem?_eq_getElem (by simpa using hsize)⟩
  refine ⟨{ globals := globals', scope := e.scope }, ?_, rfl⟩
  refine env?_eq_some_iff.mpr ⟨q, ?_, hglobals'⟩
  rw [Array.getElem?_setIfInBounds_ne (Ne.symm hi), hq]

/-- Opening a scope leaves the others as they were, and the new one gets the
next number. -/
theorem env?_of_nest {func : String} (h : f.nest k func = some f') :
    (∀ {i e}, f.env? i = some e → f'.env? i = some e) ∧
      f'.scopes.size = f.scopes.size + 1 ∧
      ∃ e, f.env? k = some e ∧ f'.env? f.scopes.size = some (e.nest func) := by
  unfold nest at h
  simp only [Option.bind_eq_bind, Option.bind_eq_some_iff, Option.pure_def, Option.some.injEq] at h
  obtain ⟨⟨p, scope⟩, hscope, e, he, rfl⟩ := h
  obtain ⟨q, hq, hglobals⟩ := env?_eq_some_iff.mp he
  rw [hscope] at hq
  cases hq
  refine ⟨?_, by simp, e, he, env?_eq_some_iff.mpr ⟨p, by simp, hglobals⟩⟩
  intro i e' he'
  obtain ⟨q, hq, hqglobals⟩ := env?_eq_some_iff.mp he'
  have hi : i < f.scopes.size := (Array.getElem?_eq_some_iff.mp hq).1
  exact env?_eq_some_iff.mpr ⟨q, by rw [Array.getElem?_push, if_neg (by omega), hq], hqglobals⟩

theorem size_of_perform {a : ScopeAction} {answer : ScopeAnswer}
    (h : f.perform k a = some (f', answer)) : f'.scopes.size = f.scopes.size := by
  obtain ⟨p, scope, globals, _, _, e, _, rfl⟩ := perform_eq_some h
  exact Array.size_setIfInBounds

theorem lt_of_env? {e : Env} (h : f.env? i = some e) : i < f.scopes.size := by
  obtain ⟨p, hscope, _⟩ := env?_eq_some_iff.mp h
  exact (Array.getElem?_eq_some_iff.mp hscope).1

/-- What happened to a forest determines it. -/
theorem Grown.unique {history : List ScopeEvent} (h : Grown history f) (h' : Grown history f') :
    f = f' := by
  induction h generalizing f' with
  | single =>
      generalize hhistory : ([] : List ScopeEvent) = history at h'
      cases h' with
      | single => rfl
      | nest => simp at hhistory
      | perform => simp at hhistory
  | nest _ _ opened ih =>
      generalize hhistory : _ ++ [_] = history at h'
      cases h' with
      | single => simp at hhistory
      | nest before' _ opened' =>
          obtain ⟨rfl, hevent⟩ := List.append_inj' hhistory rfl
          cases hevent
          obtain rfl := ih before'
          exact Option.some.inj (opened.symm.trans opened')
      | perform =>
          obtain ⟨_, hevent⟩ := List.append_inj' hhistory rfl
          cases hevent
  | perform _ performed ih =>
      generalize hhistory : _ ++ [_] = history at h'
      cases h' with
      | single => simp at hhistory
      | nest =>
          obtain ⟨_, hevent⟩ := List.append_inj' hhistory rfl
          cases hevent
      | perform before' performed' =>
          obtain ⟨rfl, hevent⟩ := List.append_inj' hhistory rfl
          cases hevent
          obtain rfl := ih before'
          exact congrArg Prod.fst (Option.some.inj (performed.symm.trans performed'))

end Forest

/-! ## From the opening of a scope on -/

/-- The operation on scope number `i`, with its answer, if that is what
happened. -/
def ScopeEvent.on? (i : Nat) : ScopeEvent → Option (ScopeAction × ScopeAnswer)
  | .opened _ _ => none
  | .performed k a answer => if k = i then some (a, answer) else none

/-- The operations on scope number `i`, in order. -/
def deedsOf (i : Nat) (history : List ScopeEvent) : List (ScopeAction × ScopeAnswer) :=
  history.filterMap (ScopeEvent.on? i)

theorem deedsOf_concat (i : Nat) (history : List ScopeEvent) (event : ScopeEvent) :
    deedsOf i (history ++ [event]) = deedsOf i history ++ (event.on? i).toList := by
  cases h : event.on? i <;> simp [deedsOf, h]

namespace Forest

variable {f f' : Forest} {i k : Nat} {history : List ScopeEvent} {outer : String → Option Binding}

/-- What the names of scope number `i` stood for around it at the moment when
it was opened.  Nothing is around the top level. -/
inductive Outside : List ScopeEvent → Nat → (String → Option Binding) → Prop
  | top {history : List ScopeEvent} : Outside history 0 fun _ => none
  | inner {before after : List ScopeEvent} {k : Nat} {func : String} {f : Forest} {e : Env}
      (grown : Grown before f) (around : f.env? k = some e) :
      Outside (before ++ .opened k func :: after) f.scopes.size e.lookup?

theorem Outside.append (h : Outside history i outer) (later : List ScopeEvent) :
    Outside (history ++ later) i outer := by
  cases h with
  | top => exact .top
  | inner grown around =>
      rw [List.append_assoc, List.cons_append]
      exact .inner grown around

/-- The scope was opened by the last event or before it. -/
theorem Outside.of_concat {event : ScopeEvent} (h : Outside (history ++ [event]) i outer) :
    Outside history i outer ∨
      ∃ k func f e, event = .opened k func ∧ Grown history f ∧ f.env? k = some e ∧
        i = f.scopes.size ∧ outer = e.lookup? := by
  generalize hconcat : history ++ [event] = whole at h
  cases h with
  | top => exact .inl .top
  | @inner before after k func f e grown around =>
      rcases List.eq_nil_or_concat after with rfl | ⟨after, last, rfl⟩
      · obtain ⟨rfl, hevent⟩ := List.append_inj' hconcat rfl
        cases hevent
        exact .inr ⟨k, func, f, e, rfl, grown, around, rfl, rfl⟩
      · have hsplit : history ++ [event] = (before ++ .opened k func :: after) ++ [last] := by
          simp [hconcat]
        obtain ⟨rfl, _⟩ := List.append_inj' hsplit rfl
        exact .inl (.inner grown around)

/-- Every scope was opened at some moment. -/
theorem Grown.exists_outside (h : Grown history f) (hi : i < f.scopes.size) :
    ∃ outer, Outside history i outer := by
  induction h with
  | single =>
      obtain rfl : i = 0 := Nat.lt_one_iff.mp hi
      exact ⟨_, .top⟩
  | @nest _ f _ _ _ before _ opened ih =>
      obtain ⟨_, hsize, e, he, _⟩ := env?_of_nest opened
      by_cases hnew : i = f.scopes.size
      · subst hnew
        exact ⟨_, .inner before he⟩
      · obtain ⟨outer, houter⟩ := ih (by omega)
        exact ⟨outer, houter.append _⟩
  | perform _ performed ih =>
      rw [size_of_perform performed] at hi
      obtain ⟨outer, houter⟩ := ih hi
      exact ⟨outer, houter.append _⟩

/-- Nothing happened to a scope before it was opened. -/
theorem Grown.deedsOf_eq_nil (h : Grown history f) (hi : f.scopes.size ≤ i) :
    deedsOf i history = [] := by
  induction h with
  | single => rfl
  | nest _ _ opened ih =>
      obtain ⟨_, hsize, _⟩ := env?_of_nest opened
      rw [deedsOf_concat, ih (by omega)]
      rfl
  | @perform _ _ _ k _ _ _ performed ih =>
      rw [size_of_perform performed] at hi
      obtain ⟨e, _, he, _⟩ := env?_of_perform performed
      have hk : k ≠ i := by
        have hlt := lt_of_env? he
        omega
      rw [deedsOf_concat, ih hi]
      simp [ScopeEvent.on?, hk]

/-- A scope is known from its opening and the operations on it. -/
theorem Grown.lexical (h : Grown history f) (houter : Outside history i outer) :
    ∃ e, f.env? i = some e ∧ e.Lexical outer (deedsOf i history) := by
  induction h generalizing i outer with
  | single =>
      generalize hhistory : ([] : List ScopeEvent) = history at houter
      cases houter with
      | top =>
          subst hhistory
          exact ⟨Env.empty, rfl, Env.lexical_empty⟩
      | inner => simp at hhistory
  | nest before _ opened ih =>
      obtain ⟨hkept, _, e, he, hnew⟩ := env?_of_nest opened
      rw [deedsOf_concat, ScopeEvent.on?, Option.toList_none, List.append_nil]
      rcases houter.of_concat with houter | ⟨k, func, g, e', hevent, hgrown, he', rfl, rfl⟩
      · obtain ⟨e, he, hlexical⟩ := ih houter
        exact ⟨e, hkept he, hlexical⟩
      · cases hevent
        obtain rfl := before.unique hgrown
        rw [he] at he'
        cases he'
        rw [before.deedsOf_eq_nil le_rfl]
        exact ⟨_, hnew, Env.lexical_nest _ _⟩
  | @perform _ _ _ k _ _ _ performed ih =>
      rw [deedsOf_concat, ScopeEvent.on?]
      rcases houter.of_concat with houter | ⟨_, _, _, _, hevent, _⟩
      · obtain ⟨e, he, hlexical⟩ := ih houter
        by_cases hk : k = i
        · subst hk
          obtain ⟨e₁, e', he₁, he', hperformed⟩ := env?_of_perform performed
          rw [he] at he₁
          cases he₁
          rw [if_pos rfl]
          exact ⟨e', he', hlexical.performed hperformed⟩
        · obtain ⟨e', he', hscope⟩ := env?_of_perform_of_ne performed (Ne.symm hk) he
          rw [if_neg hk, Option.toList_none, List.append_nil]
          exact ⟨e', he', hlexical.congr hscope⟩
      · cases hevent

/-- There is one program only. -/
theorem Grown.program_eq_zero (h : Grown history f) {p : Nat} {globals : Globals}
    (hp : f.programs[p]? = some globals) : p = 0 := by
  obtain ⟨_, hrooted, _⟩ := h.rooted
  have hlt := (Array.getElem?_eq_some_iff.mp hp).1
  rw [hrooted.programs_eq] at hlt
  exact Nat.lt_one_iff.mp hlt

/-- The signatures of a program are those that were defined through any of its
scopes. -/
theorem Grown.signatures_iff (h : Grown history f) {p : Nat} {globals : Globals}
    (hp : f.programs[p]? = some globals) {name : String} {sig : Signature} :
    globals.signatures[name]? = some sig ↔
      ∃ k, ScopeEvent.performed k (.defineFunc name sig) (.ok none) ∈ history := by
  induction h generalizing p globals with
  | single =>
      obtain rfl := Grown.single.program_eq_zero hp
      obtain rfl : ({} : Globals) = globals := Option.some.inj hp
      simp
  | nest _ _ opened ih =>
      obtain ⟨_, _, _, rfl⟩ := nest_eq_some opened
      rw [ih hp]
      simp
  | @perform _ _ _ _ a answer before performed ih =>
      obtain ⟨q, scope, old, _, hq, e, he, rfl⟩ := perform_eq_some performed
      obtain rfl := (before.perform performed).program_eq_zero hp
      obtain rfl := before.program_eq_zero hq
      have hsize := (Array.getElem?_eq_some_iff.mp hq).1
      obtain rfl : e.globals = globals := by simpa [hsize] using hp
      have hstep : e.signature? name = some sig ↔ _ := he.signature?_eq_some_iff
      simp only [Env.signature?] at hstep
      rw [hstep, ih hq]
      simp [exists_or, @eq_comm _ a, @eq_comm _ answer]

/-- The scopes of a forest after all that happened to it. -/
structure LexicallyScoped (history : List ScopeEvent) (f : Forest) : Prop where
  opened : ∀ {i : Nat}, i < f.scopes.size → ∃ outer, Outside history i outer
  /-- A scope sees its own declarations, and else what could be seen around it
  when it was opened. -/
  lexical : ∀ {i : Nat} {outer : String → Option Binding}, Outside history i outer →
    ∃ e, f.env? i = some e ∧ e.Lexical outer (deedsOf i history)
  /-- An operation is seen from its own scope only. -/
  performed : ∀ {i k : Nat} {a : ScopeAction} {answer : ScopeAnswer} {f' : Forest} {e : Env},
    f.perform k a = some (f', answer) → i ≠ k → f.env? i = some e →
      ∃ e', f'.env? i = some e' ∧ e.SameView e'
  nested : ∀ {i k : Nat} {func : String} {f' : Forest} {e : Env},
    f.nest k func = some f' → f.env? i = some e → ∃ e', f'.env? i = some e' ∧ e.SameView e'
  /-- A signature that was defined through some scope is found through all. -/
  signatures : ∀ {i : Nat} {e : Env} {name : String} {sig : Signature}, f.env? i = some e →
    (e.signature? name = some sig ↔
      ∃ k, ScopeEvent.performed k (.defineFunc name sig) (.ok none) ∈ history)

/-- **Scoping is lexical**: whatever happened to the scopes of a program, each
of them sees its own declarations and otherwise what its parent saw when it was
opened, and only signatures pass from one to another. -/
theorem scopes_lexical {history : List ScopeEvent} {f : Forest} (h : Grown history f) :
    f.LexicallyScoped history where
  opened := h.exists_outside
  lexical := h.lexical
  performed hp hi he := by
    obtain ⟨e', he', hscope⟩ := env?_of_perform_of_ne hp hi he
    exact ⟨e', he', .of_scope_eq hscope⟩
  nested hn he := ⟨_, (env?_of_nest hn).1 he, .of_scope_eq rfl⟩
  signatures he := by
    obtain ⟨p, _, hglobals⟩ := env?_eq_some_iff.mp he
    exact h.signatures_iff hglobals

/-- A scope inside a function, which sees the local that the function declared
before and not the global that is declared after. -/
theorem innerScope_lexical :
    ∃ f, Grown
      [.performed 0 (.declareGlobal "x" .int) (.ok (some ⟨"x", .int, .global, 0⟩)),
        .opened 0 "f",
        .performed 1 (.declareLocal "x" .bool) (.ok (some ⟨"x", .bool, .frame, 0⟩)),
        .opened 1 "g",
        .performed 2 (.defineFunc "h" ⟨[], .int⟩) (.ok none),
        .performed 0 (.declareGlobal "y" .int) (.ok (some ⟨"y", .int, .global, 1⟩))] f ∧
      (∃ e, f.env? 2 = some e ∧ e.lookup? "x" = some ⟨"x", .bool, .frame, 0⟩ ∧
        e.lookup? "y" = none) ∧
      f.LexicallyScoped
        [.performed 0 (.declareGlobal "x" .int) (.ok (some ⟨"x", .int, .global, 0⟩)),
          .opened 0 "f",
          .performed 1 (.declareLocal "x" .bool) (.ok (some ⟨"x", .bool, .frame, 0⟩)),
          .opened 1 "g",
          .performed 2 (.defineFunc "h" ⟨[], .int⟩) (.ok none),
          .performed 0 (.declareGlobal "y" .int) (.ok (some ⟨"y", .int, .global, 1⟩))] := by
  have h := Grown.single
    |>.perform (i := 0) (a := .declareGlobal "x" .int) rfl
    |>.nest (i := 0) (show "f" ≠ "" by decide) rfl
    |>.perform (i := 1) (a := .declareLocal "x" .bool) rfl
    |>.nest (i := 1) (show "g" ≠ "" by decide) rfl
    |>.perform (i := 2) (a := .defineFunc "h" ⟨[], .int⟩) rfl
    |>.perform (i := 0) (a := .declareGlobal "y" .int) rfl
  exact ⟨_, h, ⟨_, rfl, rfl, rfl⟩, scopes_lexical h⟩

end Forest

end Taglet
