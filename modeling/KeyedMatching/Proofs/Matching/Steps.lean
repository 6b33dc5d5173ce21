import KeyedMatching.Proofs.Holes.Normal
import KeyedMatching.Proofs.Matching.Located
import KeyedMatching.Proofs.Unification.Soundness

/-!
# The steps of a match

What happens to the store between the start of a trial and the match that it ends with. A property
that `MatchStep` keeps is one of every located match (`steps_of_locates`).

* `MatchStep.inherits`: no step declares a hole, or declares one anew.
-/

namespace KeyedMatching

/-- What a match may do to the store: unification gives values to holes, a hole takes over what its
placeholder was found to be, placeholders are removed, and the values are put into one another. -/
inductive MatchStep (scope : Scope) : Store → Store → Prop
  | advance {s s'} : s.Advances s' → MatchStep scope s s'
  | handOver {s s' k v} : s.assign? k v = some s' → MatchStep scope s s'
  | prune (s) : MatchStep scope s (prunePlaceholders scope s)
  | normalize {s s'} : s.normalize? = some s' → MatchStep scope s s'

section
variable {cx : Context} {scope : Scope} {s s' base : Store} {pass : Pass}

open Relation Unify

theorem steps_of_handOver? {ps : List (Nat × Nat)} (h : handOver? s ps = some s') :
    ReflTransGen (MatchStep scope) s s' := by
  refine handOver?_induction (R := ReflTransGen (MatchStep scope) s) .refl
    (fun p k _ s₁ s₂ v steps _ assigned => ?_) h
  exact steps.tail (.handOver assigned)

theorem advances_of_retypeAll? {vs : List (Term × Term)}
    (h : retypeAll? (.standard cx) s vs = some (some s')) : s.Advances s' := by
  refine retypeAll?_induction (R := s.Advances) (.refl s) (fun v _ s₁ s₂ type advances _ h => ?_) h
  exact advances.trans (leads_anyHole h).advances

theorem advances_of_settleRound? (h : settleRound? (.standard cx) scope s = some (some s')) :
    s.Advances s' := by
  obtain ⟨s₁, s₂, hsimplify, hresolve, hretype⟩ := exists_of_settleRound? h
  have isOver := signature_over_anyHole cx.signature
  have simplified := (carries_of_simplify? isOver (closed_anyHole s) hsimplify).advances
  obtain ⟨s₂', hs₂, eq⟩ := Option.map_eq_some_iff.1 hresolve
  cases eq
  have resolved := (carries_of_resolve? isOver (closed_anyHole s₁)
    (fun _ _ a _ _ _ => over_anyHole a) hs₂).advances
  exact simplified.trans (resolved.trans (advances_of_retypeAll? hretype))

theorem steps_of_tried {p : Pattern} {sub : Term} (h : Tried (.standard cx) base pass p sub s) :
    ReflTransGen (MatchStep scope) base s := by
  cases pass with
  | firstOrder =>
    obtain ⟨s₁, s₂, h₁, h₂, h⟩ := h
    have handed : ReflTransGen (MatchStep scope) s₁ s₂ := steps_of_handOver? h₂
    exact .head (.advance (leads_anyHole h₁).advances)
      (handed.tail (.advance (leads_anyHole h).advances))
  | higherOrder => exact .single (.advance (leads_anyHole h).advances)

theorem steps_of_settle? {progress : Progress} {matched payload : Term} {m : Settled}
    (h : settle? cx (.standard cx) scope progress s matched payload = some (.ok m)) :
    ReflTransGen (MatchStep scope) s m.store := by
  obtain ⟨s', rounds, _, done⟩ := exists_of_settle? (R := Store.Advances)
    (fun _ _ _ => .trans) (fun _ _ => advances_of_settleRound?) h
  obtain ⟨normal, _⟩ := exists_of_conclude? done
  exact .head (.advance rounds) (.head (.prune s') (.single (.normalize normal)))

/-- A located match comes from the store that its pass started from. -/
theorem steps_of_locates {ps : List Pattern} {l : Located}
    (h : Locates cx (.standard cx) scope base pass ps l) :
    ReflTransGen (MatchStep scope) base l.store := by
  obtain ⟨p, s, m, _, tried, settled, store, _⟩ := h
  rw [store]
  exact (steps_of_tried tried).trans (steps_of_settle? settled)

end

/-! ## Declarations -/

namespace Store

/-- Every hole of the second store is one of the first, with the same declaration. -/
def Inherits (s s' : Store) : Prop :=
  ∀ k d', s'.hole? k = some d' →
    ∃ d, s.hole? k = some d ∧ d.arity = d'.arity ∧ d.type? = d'.type? ∧ d.kind = d'.kind

section
variable {s s₁ s' : Store}

theorem Inherits.refl (s : Store) : s.Inherits s :=
  fun _ d hd => ⟨d, hd, rfl, rfl, rfl⟩

theorem Inherits.trans (h : s.Inherits s₁) (h' : s₁.Inherits s') : s.Inherits s' := by
  intro k d' hd'
  obtain ⟨d₁, hd₁, arity, type, kind⟩ := h' k d' hd'
  obtain ⟨d, hd, arity₁, type₁, kind₁⟩ := h k d₁ hd₁
  exact ⟨d, hd, arity₁.trans arity, type₁.trans type, kind₁.trans kind⟩

theorem inherits_setValue (k : Nat) (v : Term) : s.Inherits (s.setValue k v) := by
  intro l d' hd'
  rw [hole?_setValue] at hd'
  split at hd'
  · next same =>
    subst same
    obtain ⟨d, hd, rfl⟩ := Option.map_eq_some_iff.1 hd'
    exact ⟨d, hd, rfl, rfl, rfl⟩
  · exact ⟨d', hd', rfl, rfl, rfl⟩

theorem inherits_of_normalize? (h : s.normalize? = some s') : s.Inherits s' := by
  obtain ⟨s₁, es, steps, -, rfl⟩ := normalSteps_of_normalize? h
  have inherits : s.Inherits s₁ := by
    clear h
    induction steps with
    | refl => exact .refl s
    | tail _ step ih =>
      cases step
      exact ih.trans (inherits_setValue _ _)
  exact inherits

end

end Store

section
variable {scope : Scope} {s s' : Store}

/-- A hole that is there after a step was declared before it as it is now. -/
theorem MatchStep.inherits (h : MatchStep scope s s') : s.Inherits s' := by
  cases h with
  | advance adv => exact fun _ _ => adv.hole?
  | handOver assigned =>
    rw [Store.eq_of_assign? assigned]
    exact Store.inherits_setValue _ _
  | prune => exact fun _ d' hd' => ⟨d', Store.hole?_of_prunePlaceholders hd', rfl, rfl, rfl⟩
  | normalize normal => exact Store.inherits_of_normalize? normal

theorem inherits_of_steps (h : Relation.ReflTransGen (MatchStep scope) s s') : s.Inherits s' := by
  induction h with
  | refl => exact .refl s
  | tail _ step ih => exact ih.trans step.inherits

end

end KeyedMatching
