import KeyedMatching.Proofs.Holes.Normal
import KeyedMatching.Proofs.Matching.Tried

/-!
# How a match ends

Placeholders are removed, and the values put into one another.

* `Founded.wellFormed_prune`, `Founded.knows_prune`: without its placeholders the store is
  well-formed and knows what it knew about the caller's holes;
* `Founded.settled`: what unification asked for holds in the settled store.
-/

namespace KeyedMatching

open Unify Theory

section
variable {cx : Context} {scope : Scope} {A : Nat → Nat → Prop} {base s : Store}

/-! ## Without placeholders -/

/-- A hole of the caller is not removed. -/
theorem Founded.hole?_prune (found : Founded cx scope A base) (adv : base.Advances s) {k n : Nat}
    (hk : A k n) : (prunePlaceholders scope s).hole? k = s.hole? k := by
  refine Store.hole?_prunePlaceholders fun d hd outside placeholder => ?_
  obtain ⟨d', hd', _, _, kind⟩ := adv.hole? hd
  exact found.own k n d' hk hd' outside (kind.trans placeholder)

/-- A hole that is left with a value is one of the caller's. -/
theorem Founded.own_of_value? (found : Founded cx scope A base) (adv : base.Advances s) {k : Nat}
    {d : Hole} {v : Term} (hd : (prunePlaceholders scope s).hole? k = some d)
    (hv : d.value? = some v) : A k d.arity := by
  have hole := Store.hole?_of_prunePlaceholders hd
  obtain ⟨d', hd', arity, _, kind⟩ := adv.hole? hole
  rw [← arity]
  rcases found.rest k d' hd' with own | ⟨placeholder, unset⟩
  · exact own
  -- A placeholder that was left is frozen, so it has no value.
  · cases outside : scope.contains k with
    | false =>
      exact absurd (kind.symm.trans placeholder) (Store.kind_of_prunePlaceholders hd outside)
    | true =>
      have kept := adv.respects k (found.frozen k outside)
      simp [Store.value?, hole, hd', hv, unset] at kept

theorem Founded.value?_prune (found : Founded cx scope A base) (adv : base.Advances s) {k : Nat}
    {v : Term} (hv : (prunePlaceholders scope s).value? k = some v) :
    ∃ n, A k n ∧ s.value? k = some v ∧ (prunePlaceholders scope s).Declares k n := by
  obtain ⟨d, hd, hdv⟩ := Option.bind_eq_some_iff.1 hv
  refine ⟨d.arity, found.own_of_value? adv hd hdv, ?_, d, hd, rfl⟩
  simp [Store.value?, Store.hole?_of_prunePlaceholders hd, hdv]

theorem Founded.declares_prune (found : Founded cx scope A base) (adv : base.Advances s)
    {k n : Nat} (hk : A k n) : (prunePlaceholders scope s).Declares k n := by
  obtain ⟨d, hd, arity⟩ := adv.declares_iff.2 (found.declared k n hk)
  exact ⟨d, (found.hole?_prune adv hk).trans hd, arity⟩

/-- Without its placeholders the store of a match is well-formed. -/
theorem Founded.wellFormed_prune (found : Founded cx scope A base) (carried : Carries cx A base s)
    (settled : s.pending = []) : (prunePlaceholders scope s).WellFormed := by
  have adv := carried.advances
  have bounded := carried.bounded found.unique found.bounded_own
  refine .of_declares ?_ ⟨fun k n v _ hv => ?_, ?_⟩ fun k n v hk hv => ?_
  · refine (adv.acyclic found.acyclic).of_keeps fun k v hv => ?_
    obtain ⟨_, _, before, _⟩ := found.value?_prune adv hv
    exact before
  · obtain ⟨m, own, before, _⟩ := found.value?_prune adv hv
    exact (carried.closed.values k m v own before).mono fun _ _ => found.declares_prune adv
  · rw [(Store.prunePlaceholders_keeps scope s).2, settled]
    exact fun e he => by cases he
  · obtain ⟨m, own, before, here⟩ := found.value?_prune adv hv
    rw [hk.unique here]
    exact bounded k m v own before

/-- The values of the caller's holes are known without the placeholders. -/
theorem Founded.knows_prune (found : Founded cx scope A base) (adv : base.Advances s)
    (g : Signature) (unfolds : Bool) :
    ((prunePlaceholders scope s).theory
      (prunePlaceholders scope s).Declares g unfolds).Knows A s := by
  intro k n v hk hv
  refine ⟨found.declares_prune adv hk, ?_⟩
  change (prunePlaceholders scope s).value? k = some v
  rw [Store.value?, found.hole?_prune adv hk]
  exact hv

/-! ## The settled store -/

/-- The store is well-formed with no equation put off, has kept the holes of `A`, and makes equal
what the theory does. -/
structure Closes (cx : Context) (A : Nat → Nat → Prop) (T : Theory) (s : Store) : Prop where
  wellFormed : s.WellFormed
  declares : ∀ k n, A k n → s.Declares k n
  pending : s.pending = []
  equal : ∀ t u, T.Equal t u → s.Convertible cx t u

/-- What a match that was unified comes to when it is settled: the settled store closes a theory
that knows the values found, and there everything holds that unification asked for. -/
theorem Founded.settled {Q : Theory → Prop} {progress : Progress} {matched payload : Term}
    {m : Settled} (found : Founded cx scope A base) (unified : Leads cx .higherOrder A base s Q)
    (h : settle? cx (.standard cx) scope progress s matched payload = some (.ok m)) :
    ∃ T : Theory, T.Admits cx .higherOrder ∧ T.Knows A base ∧ Q T ∧ Holds T base.pending ∧
      Closes cx A T m.store := by
  obtain ⟨s', rounds, done, conclusion⟩ := exists_of_settle?
    (R := fun t t' => base.Advances t → t.Closed A → Carries cx A t t')
    (fun t t₁ t₂ h h' adv closed =>
      (h adv closed).trans (h' (adv.trans (h adv closed).advances) (h adv closed).closed))
    (fun t t' round adv closed => carries_of_settleRound? found adv closed round) h
  have settling := rounds unified.advances unified.closed
  have carried := unified.carries.trans settling
  obtain ⟨normal, _⟩ := exists_of_conclude? conclusion
  have none_left : (prunePlaceholders scope s').pending = [] :=
    (Store.prunePlaceholders_keeps scope s').2.trans done
  have normalised :=
    Store.normalised_of_normalize? (found.wellFormed_prune carried done) none_left normal
  let T := (prunePlaceholders scope s').theory
    (prunePlaceholders scope s').Declares cx.signature true
  have admits : T.Admits cx .higherOrder := ⟨rfl, fun _ => rfl⟩
  have knows : T.Knows A s' := found.knows_prune carried.advances cx.signature true
  have all : Holds T s'.pending := by
    rw [done]
    exact fun e he => by cases he
  have put_off := settling.carries T admits knows all
  obtain ⟨new, pending, _, holds⟩ := unified.yields
  rw [pending] at put_off
  refine ⟨T, admits, knows.of_advances carried.advances,
    holds T admits (knows.of_advances settling.advances) fun e he => ?_, fun e he => ?_,
    normalised.wellFormed, fun k n hk => ?_, normalised.pending, normalised.equal cx.signature true⟩
  · exact put_off e (List.mem_append_right _ he)
  · exact put_off e (List.mem_append_left _ he)
  · exact (normalised.declares k n).2 (found.declares_prune carried.advances hk)

end

end KeyedMatching
