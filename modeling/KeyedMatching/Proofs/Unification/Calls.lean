import KeyedMatching.Proofs.Unification.Outcome

/-!
# Any sequence of calls

`Unify.Call` is one call of unification, of `simplify?` or of `resolve?` that succeeds.

* `Unify.Call.carries`: what one call does to a store;
* `Unify.wellFormed_of_calls`: after any sequence of calls the same holes are declared, values are
  kept, frozen holes are left alone, the version has counted the assignments, and the store keeps
  its promises;
* `Unify.misshapen_obligation`: the declared types of obligations must keep to the arities too.
-/

namespace KeyedMatching

namespace Unify

open Theory

/-- A call that succeeds, on terms over `A`, with the store before it and the one it returns. -/
inductive Call (cx : Context) (A : Nat → Nat → Prop) : Store → Store → Prop
  | firstOrder {s s' a b} : a.Over A → b.Over A →
    unify? cx .firstOrder s a b = some (some s') → Call cx A s s'
  | higherOrder {s s' a b} : a.Over A → b.Over A →
    unify? cx .higherOrder s a b = some (some s') → Call cx A s s'
  | simplify {s s'} : simplify? cx s = some (some s') → Call cx A s s'
  | resolve {s s'} : resolve? cx s = some s' → Call cx A s s'

section
variable {cx : Context} {A : Nat → Nat → Prop} {s s' : Store}

/-- The types of the obligations stay the same. -/
theorem Obliges.of_advances (h : Obliges A s) (adv : s.Advances s') : Obliges A s' := by
  intro k d a hd kind type
  obtain ⟨d', hd', _, type', kind'⟩ := adv.hole? hd
  exact h k d' a hd' (kind'.trans kind) (type'.trans type)

/-- One call loses no equation and keeps to the holes of `A`. -/
theorem Call.carries (isOver : cx.signature.Over A) (types : Obliges A s) (closed : s.Closed A)
    (h : Call cx A s s') : Carries cx A s s' := by
  cases h with
  | firstOrder ha hb h => exact (leads_of_unify? isOver closed ha hb h).carries
  | higherOrder ha hb h => exact (leads_of_unify? isOver closed ha hb h).carries
  | simplify h => exact carries_of_simplify? isOver closed h
  | resolve h => exact carries_of_resolve? isOver closed types h

theorem carries_of_calls (isOver : cx.signature.Over A) (types : Obliges A s) (closed : s.Closed A)
    (run : Relation.ReflTransGen (Call cx A) s s') : Carries cx A s s' := by
  induction run with
  | refl => exact .refl closed
  | tail _ call ih =>
    exact ih.trans (call.carries isOver (types.of_advances ih.advances) ih.closed)

end

end Unify

namespace Store

section
variable {s s' : Store}

/-- Assignments that keep to the declared holes keep a store well-formed. -/
theorem WellFormed.of_carries {cx : Context} (wf : s.WellFormed)
    (h : Unify.Carries cx s.Declares s s') : s'.WellFormed := by
  have same : s'.Declares = s.Declares := by
    funext k n
    exact propext h.advances.declares_iff
  refine .of_declares (h.advances.acyclic wf.acyclic) ?_ ?_ <;> rw [same]
  · exact h.closed
  · exact h.bounded (fun _ _ _ hm hn => hm.unique hn) wf.bounded

end

end Store

namespace Unify

/-- After any sequence of calls, on terms that keep to the declared holes and with a signature that
does so, the store declares the same holes, has kept its values and left the frozen holes alone, and
is well-formed; its version has counted the assignments, so that the same version means the same
values. The types declared for obligations must keep to the declared holes as well. -/
theorem wellFormed_of_calls {cx : Context} {s s' : Store} (wf : s.WellFormed)
    (isOver : cx.signature.Over s.Declares)
    (types : ∀ k d a, s.hole? k = some d → d.kind = .obligation → d.type? = some a →
      a.Over s.Declares)
    (run : Relation.ReflTransGen (Call cx s.Declares) s s') :
    (∀ k, (s'.hole? k).map (fun d => (d.arity, d.type?, d.kind)) =
      (s.hole? k).map fun d => (d.arity, d.type?, d.kind)) ∧
    (∀ k v, s.value? k = some v → s'.value? k = some v) ∧
    (s'.frozen = s.frozen ∧ ∀ k, s.frozen.contains k = true → s'.value? k = s.value? k) ∧
    s'.version = s.version + (Store.newlyAssigned s s').card ∧
    (s'.version = s.version → ∀ k, s'.value? k = s.value? k) ∧
    s'.WellFormed := by
  have all := carries_of_calls isOver types wf.closed run
  exact ⟨all.advances.declared, all.advances.keeps, ⟨all.advances.frozen, all.advances.respects⟩,
    all.advances.version_eq, all.advances.value?_eq_of_version_eq, wf.of_carries all⟩

/-- A hole is assigned, and then an obligation of its type discharged. -/
theorem wellFormed_of_calls_obligation :
    let cx : Context := { signature := Signature.empty.addInstance "i" (.const "a"), limit := 4 }
    let s := ((Store.empty.fresh 0 none .ordinary).2.fresh 0 (some (.hole 0 [])) .obligation).2
    let s₁ : Store := { s.setValue 0 (.const "a") with version := 1 }
    let s₂ : Store := { s₁.setValue 1 (.const "i") with version := 2 }
    Relation.ReflTransGen (Call cx s.Declares) s s₂ ∧
      s₂.version = s.version + (Store.newlyAssigned s s₂).card ∧ s₂.WellFormed := by
  intro cx s s₁ s₂
  have declared : s.Declares 0 0 := ⟨_, rfl, rfl⟩
  have hole : (Term.hole 0 []).Over s.Declares := Term.over_hole.2 ⟨declared, by simp⟩
  have wf : s.WellFormed := .of_unassigned (by rintro (_ | _ | k) <;> rfl) rfl
  have isOver : cx.signature.Over s.Declares :=
    (Signature.over_empty _).addInstance (Term.over_const "a")
  have types : ∀ k d a, s.hole? k = some d → d.kind = .obligation → d.type? = some a →
      a.Over s.Declares := by
    rintro (_ | _ | k) d a hd kind type <;> cases hd
    · cases kind
    · cases type
      exact hole
  have assigned : Call cx s.Declares s s₁ :=
    .firstOrder hole (Term.over_const "a") (by decide +kernel)
  have run : Relation.ReflTransGen (Call cx s.Declares) s s₂ :=
    .tail (.single assigned) (.resolve (by decide +kernel))
  obtain ⟨_, _, _, counted, _, wf₂⟩ := wellFormed_of_calls wf isOver types run
  exact ⟨run, counted, wf₂⟩

/-- The type of an obligation uses hole `0`, which has no variables, as one with a variable. Then an
instance of the type `#0` gives hole `0` a value that it may not have. -/
theorem misshapen_obligation :
    let g := Signature.empty.addInstance "i" (.rel 0)
    let type : Term := .hole 0 [.rel 0]
    let s := ((Store.empty.fresh 0 none .ordinary).2.fresh 0 (some type) .obligation).2
    let s' : Store := { (s.setValue 0 (.rel 0)).setValue 1 (.const "i") with version := 2 }
    s.WellFormed ∧ g.Over s.Declares ∧ Call { signature := g, limit := 4 } s.Declares s s' ∧
      ¬ s'.WellFormed := by
  intro g type s s'
  refine ⟨.of_unassigned (by rintro (_ | _ | k) <;> rfl) rfl,
    (Signature.over_empty _).addInstance (Term.over_rel 0), .resolve (by decide +kernel), ?_⟩
  · intro wf
    have loose := wf.arity 0 ⟨0, none, .ordinary, some (.rel 0)⟩ (.rel 0) rfl rfl 0 (by decide)
    exact absurd loose (Nat.not_lt_zero 0)

end Unify

end KeyedMatching
