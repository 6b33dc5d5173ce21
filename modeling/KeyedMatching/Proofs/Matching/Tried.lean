import KeyedMatching.Proofs.Matching.Located
import KeyedMatching.Proofs.Typing
import KeyedMatching.Proofs.Unification.Orientation

/-!
# What a match does to the store

A match starts from a store that holds the caller's holes and placeholders, and gives values to
both. `Founded` is what is needed of it. A value of a caller's hole is over the caller's holes, so
that the placeholders can be removed in the end.

* `leads_of_tried`: when a pattern was unified with a term, in either pass, the two are equal given
  the equations put off;
* `carries_of_settleRound?`: a round of settling loses no equation.
-/

namespace KeyedMatching

open Unify

/-! ## Where a match starts -/

/-- Hole `k` of `A` cannot be assigned, and neither can a hole that its value comes down to. -/
def Store.Barred (A : Nat → Nat → Prop) (s : Store) (k n : Nat) : Prop :=
  A k n ∧ ∀ l, Relation.ReflTransGen s.DependsOn k l → s.isAssignable l = false

/-- A store in which a match may start, where `A` are the holes of the caller: the others are
placeholders without a value, and nothing but themselves depends on them. -/
structure Founded (cx : Context) (scope : Scope) (A : Nat → Nat → Prop) (s : Store) : Prop where
  signature : cx.signature.Over A
  declared : ∀ k n, A k n → s.Declares k n
  values : ∀ k v, s.value? k = some v → v.Over A
  bounded : s.Bounded s.Declares
  pending : ∀ e ∈ s.pending, e.lhs.Over A ∧ e.rhs.Over A
  types : ∀ k d a, s.hole? k = some d → d.type? = some a → a.Over A
  acyclic : s.Acyclic
  frozen : ∀ k, scope.contains k = true → s.frozen.contains k = true
  own : ∀ k n d, A k n → s.hole? k = some d → scope.contains k = false → d.kind ≠ .placeholder
  rest : ∀ k d, s.hole? k = some d → A k d.arity ∨ d.kind = .placeholder ∧ d.value? = none
  forms : ∀ p h form, cx.signature.canonical? p h = some form → form.inst.Over (s.Barred A)

section
variable {cx : Context} {scope : Scope} {A : Nat → Nat → Prop} {base s s' : Store}

theorem Store.sealed_barred (values : ∀ k v, s.value? k = some v → v.Over A) :
    s.Sealed (s.Barred A) := by
  refine ⟨fun k n h => h.2 k .refl, fun k n v h hv => ?_⟩
  refine (values k v hv).and_holes fun l hl m hm => ?_
  exact h.2 m (.head ⟨v, hv, hl⟩ hm)

theorem Founded.closed (found : Founded cx scope A base) : base.Closed A :=
  ⟨fun k _ v _ hv => found.values k v hv, found.pending⟩

theorem Founded.sealed (found : Founded cx scope A base) : base.Sealed (base.Barred A) :=
  Store.sealed_barred found.values

theorem Founded.unique (found : Founded cx scope A base) (k m n : Nat) (hm : A k m) (hn : A k n) :
    m = n :=
  (found.declared k m hm).unique (found.declared k n hn)

/-- All that is kept in the store is over the declared holes. -/
theorem Founded.closed_declares (found : Founded cx scope A base) : base.Closed base.Declares :=
  ⟨fun k _ v _ hv => (found.values k v hv).mono found.declared, fun e he =>
    ⟨(found.pending e he).1.mono found.declared, (found.pending e he).2.mono found.declared⟩⟩

theorem Founded.bounded_own (found : Founded cx scope A base) : base.Bounded A :=
  fun k n v hA hv => found.bounded k n v (found.declared k n hA) hv

/-! ## Comparing and handing over -/

/-- The second store came from the first by a comparison without unfolding with a term over barred
holes: every value found is over those, and within the arity of its hole. -/
structure Compared (A : Nat → Nat → Prop) (base s : Store) : Prop where
  advances : base.Advances s
  oriented : base.Oriented (base.Barred A) s
  bounded : s.Bounded base.Declares
  pending : s.pending = base.pending

theorem Compared.leads (found : Founded cx scope A base) (h : Compared A base s) :
    Leads cx .higherOrder A base s fun _ => True := by
  refine ⟨h.advances, ⟨fun k n v _ hv => ?_, ?_⟩, fun _ _ k n v hA hv => ?_, [],
    by rw [h.pending, List.append_nil], fun _ => rfl, fun _ _ _ _ => trivial⟩
  · cases before : base.value? k with
    | none => exact (h.oriented k v before hv).mono fun l m q => q.1.1
    | some w =>
      obtain rfl : w = v := Option.some.inj ((h.advances.keeps k w before).symm.trans hv)
      exact found.values k w before
  · rw [h.pending]
    exact found.pending
  · exact h.bounded k n v (found.declared k n hA) hv

theorem Compared.assign {p k n : Nat} {v : Term} (found : Founded cx scope A base)
    (h : Compared A base s) (own : A k n) (placeholder : base.Declares p n)
    (unset : base.value? p = none) (hv : s.value? p = some v) (hs : s.assign? k v = some s') :
    Compared A base s' := by
  have isOver := h.oriented p v unset hv
  have barred := found.sealed.of_advances h.advances
  have adv : s.Advances s' := by
    refine Store.advances_assign? hs (Term.not_mentions_iff.2 (isOver.mono fun l m q => ?_))
      (isOver.mono fun l m q => by simp [Store.isAssigned, q.2])
    rintro rfl
    have open' := Store.isAssignable_of_assign? hs
    rw [barred.fixed l m q.1] at open'
    cases open'
  have step := Store.oriented_assign? barred adv isOver hs
  have bounded := Store.bounded_of_assign? (fun _ _ _ hm hn => hm.unique hn) h.bounded
    (found.declared k n own) (h.bounded p n v placeholder hv) hs
  exact ⟨h.advances.trans adv, .trans barred adv h.oriented step, bounded,
    (Store.pending_assign? hs).trans h.pending⟩

/-- The placeholders of a list are declared, without a value, with the arities of their holes. -/
def Stands (A : Nat → Nat → Prop) (base : Store) (ps : List (Nat × Nat)) : Prop :=
  ∀ p k, (p, k) ∈ ps → ∃ n, A k n ∧ base.Declares p n ∧ base.value? p = none

theorem Compared.handOver {ps : List (Nat × Nat)} (found : Founded cx scope A base)
    (h : Compared A base s) (stands : Stands A base ps) (hs : handOver? s ps = some s') :
    Compared A base s' := by
  refine handOver?_induction (R := Compared A base) h
    (fun p k hp s₁ s₂ v compared hv assigned => ?_) hs
  obtain ⟨n, own, placeholder, unset⟩ := stands p k hp
  exact compared.assign found own placeholder unset hv assigned

theorem compared_of_unifyFirstOrder? {a b : Term} (found : Founded cx scope A base)
    (ha : a.Over base.Declares) (hb : b.Over (base.Barred A))
    (h : unify? cx .firstOrder base a b = some (some s)) : Compared A base s := by
  have declared : b.Over base.Declares := hb.mono fun k n q => found.declared k n q.1
  have leads := leads_of_unify? (found.signature.mono found.declared) found.closed_declares ha
    declared h
  obtain ⟨new, pending, none_new, _⟩ := leads.yields
  refine ⟨leads.advances, oriented_of_unify? found.forms found.sealed hb h,
    leads.bounded (fun _ _ _ hm hn => hm.unique hn) found.bounded, ?_⟩
  rw [pending, none_new (by simp), List.append_nil]

/-- A pattern that was unified with a term, in either pass, is equal to it, given the equations put
off. -/
theorem leads_of_tried {pass : Pass} {p : Pattern} {sub : Term} (found : Founded cx scope A base)
    (hp : p.term.Over A) (first : p.firstOrder.Over base.Declares)
    (stands : Stands A base p.placeholders) (hsub : sub.Over (base.Barred A))
    (h : Tried (.standard cx) base pass p sub s) :
    Leads cx .higherOrder A base s fun T => T.Equal p.term sub := by
  have sub_own : sub.Over A := hsub.mono fun _ _ q => q.1
  cases pass with
  | firstOrder =>
    obtain ⟨s₁, s₂, h₁, h₂, h⟩ := h
    have compared := (compared_of_unifyFirstOrder? found first hsub h₁).handOver found stands h₂
    have handed := compared.leads found
    have unified : Leads cx .higherOrder A s₂ s _ :=
      leads_of_unify? found.signature handed.closed hp sub_own h
    exact (handed.trans unified).imp fun _ _ _ e => e.2
  | higherOrder => exact leads_of_unify? found.signature found.closed hp sub_own h

/-! ## Rounds -/

theorem carries_of_retypeAll? {vs : List (Term × Term)} (isOver : cx.signature.Over A)
    (types : ∀ k d a, s.hole? k = some d → d.type? = some a → a.Over A) (closed : s.Closed A)
    (hvs : ∀ v ∈ vs, v.1.Over A ∧ v.2.Over A)
    (h : retypeAll? (.standard cx) s vs = some (some s')) : Carries cx A s s' := by
  refine retypeAll?_induction (R := Carries cx A s) (.refl closed)
    (fun v hv s₁ s₂ type carries inferred unified => ?_) h
  obtain ⟨hvalue, hdeclared⟩ := hvs v hv
  have supplies : Infer.Supplies A cx.signature s₁ := by
    refine ⟨isOver, carries.closed.values, fun k _ d a _ hd ha => ?_⟩
    obtain ⟨d', hd', _, type', _⟩ := carries.advances.hole? hd
    exact types k d' a hd' (type'.trans ha)
  have htype := over_of_inferType? supplies hvalue inferred
  exact carries.trans (leads_of_unify? isOver carries.closed htype hdeclared unified).carries

/-- The types of the holes stay over the caller's holes. -/
theorem Founded.types_of_advances (found : Founded cx scope A base) (adv : base.Advances s) :
    ∀ k d a, s.hole? k = some d → d.type? = some a → a.Over A := by
  intro k d a hd ha
  obtain ⟨d', hd', _, type, _⟩ := adv.hole? hd
  exact found.types k d' a hd' (type.trans ha)

/-- The values whose types are compared are those of the caller's holes. -/
theorem over_of_mem_typedValues (found : Founded cx scope A base) (adv : base.Advances s)
    (closed : s.Closed A) {v : Term × Term} (h : v ∈ typedValues scope s) :
    v.1.Over A ∧ v.2.Over A := by
  simp only [typedValues, List.mem_filterMap, Prod.exists] at h
  obtain ⟨k, d, hd, h⟩ := h
  obtain ⟨hole, _⟩ := Store.mem_createdSince.1 hd
  split at h
  · next typed =>
    simp only [Option.bind_eq_bind, Option.bind_eq_some_iff, Option.pure_def,
      Option.some.injEq] at h
    obtain ⟨value, hvalue, type, htype, rfl⟩ := h
    obtain ⟨d', hd', arity, _, kind⟩ := adv.hole? hole
    have own : A k d'.arity := by
      rcases found.rest k d' hd' with own | ⟨placeholder, _⟩
      · exact own
      · exact absurd (kind.symm.trans placeholder) typed.2
    have known : s.value? k = some value := by simp [Store.value?, hole, hvalue]
    exact ⟨closed.values k _ value own known, found.types_of_advances adv k d type hole htype⟩
  · cases h

/-- A round of settling loses no equation. -/
theorem carries_of_settleRound? (found : Founded cx scope A base) (adv : base.Advances s)
    (closed : s.Closed A) (h : settleRound? (.standard cx) scope s = some (some s')) :
    Carries cx A s s' := by
  obtain ⟨s₁, s₂, hsimplify, hresolve, hretype⟩ := exists_of_settleRound? h
  have simplified := carries_of_simplify? found.signature closed hsimplify
  have adv₁ := adv.trans simplified.advances
  obtain ⟨s₂', hs₂, eq⟩ := Option.map_eq_some_iff.1 hresolve
  cases eq
  have resolved := carries_of_resolve? found.signature simplified.closed
    (fun k d a hd _ ha => found.types_of_advances adv₁ k d a hd ha) hs₂
  have adv₂ := adv₁.trans resolved.advances
  have retyped := carries_of_retypeAll? found.signature (found.types_of_advances adv₂)
    resolved.closed (fun v => over_of_mem_typedValues found adv₂ resolved.closed) hretype
  exact simplified.trans (resolved.trans retyped)

end

end KeyedMatching
