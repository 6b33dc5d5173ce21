import KeyedMatching.Proofs.Matching.Settled
import KeyedMatching.Proofs.Matching.Steps
import KeyedMatching.Proofs.Unification.Lingering

/-!
# Giving a match up

A match is given up when a round assigns nothing and leaves equations.

* `lastRound_of_settle?`: what the last round did then: no more than to put equations off. If
  comparing the types has put off none, and unifying the equations has not used up the unfoldings,
  then the equations that are left were taken up to no avail, and nothing would come of doing so
  once more;
* `stuck_too_early`: otherwise a match may be given up over an equation that the next round would
  solve.
-/

namespace KeyedMatching

open Relation Unify

section
variable {u : Unifier} {scope : Scope} {s s' : Store} {progress : Progress} {matched payload : Term}

/-- A round that assigns nothing and leaves an equation is the last. -/
theorem stuck_of_settleRound? (h : settleRound? u scope s = some (some s'))
    (same : s'.version = s.version) (unsettled : s'.pending ≠ []) (progress : Progress)
    (matched payload : Term) (n : Nat) :
    settleWithin? u scope progress matched payload (n + 1) s = some (.error (.stuck s')) := by
  simp [settleWithin?, h, same, unsettled]

/-- One round, in which a hole is assigned, leads from the first store to the second. -/
def Productive (u : Unifier) (scope : Scope) (s s' : Store) : Prop :=
  settleRound? u scope s = some (some s') ∧ s'.version ≠ s.version

/-- A match is given up after a round that assigns nothing and leaves an equation. -/
theorem settleRound?_of_stuck (n : Nat)
    (h : settleWithin? u scope progress matched payload n s = some (.error (.stuck s'))) :
    ∃ s₀, ReflTransGen (Productive u scope) s s₀ ∧ settleRound? u scope s₀ = some (some s') ∧
      s'.version = s₀.version ∧ s'.pending ≠ [] := by
  induction n generalizing s with
  | zero => cases h
  | succ n ih =>
    cases leads_of_settleWithin? h with
    | again first productive later =>
      obtain ⟨s₀, rounds, last⟩ := ih later
      exact ⟨s₀, .head ⟨first, productive⟩ rounds, last⟩
    | concluded _ _ _ done =>
      simp only [conclude?, Option.bind_eq_bind, Option.bind_eq_some_iff] at done
      obtain ⟨_, _, _, _, _, _, _, _, done⟩ := done
      split at done <;> cases done
    | stuck last same unsettled => exact ⟨s, .refl, last, same, unsettled⟩

end

/-! ## Rounds that assign nothing -/

section
variable {cx : Context} {scope : Scope} {s s₁ s' : Store}

/-- All that is new in the second store are equations put off, unless a hole was assigned. -/
structure Defers (s s' : Store) : Prop where
  version : s.version ≤ s'.version
  put : s'.version = s.version → ∃ es, s' = { s with pending := s.pending ++ es }

theorem Defers.refl (s : Store) : Defers s s :=
  ⟨Nat.le_refl _, fun _ => ⟨[], by rw [List.append_nil]⟩⟩

theorem Defers.trans (h : Defers s s₁) (h' : Defers s₁ s') : Defers s s' where
  version := Nat.le_trans h.version h'.version
  put same := by
    have := h.version
    have := h'.version
    obtain ⟨es, rfl⟩ := h.put (by omega)
    obtain ⟨es', rfl⟩ := h'.put same
    exact ⟨es ++ es', by rw [List.append_assoc]⟩

theorem defers_of_unify? {a b : Term} (h : unify? cx .higherOrder s a b = some (some s')) :
    Defers s s' := by
  simp only [unify?, run, Option.map_eq_some_iff, Prod.exists] at h
  obtain ⟨_, m, h, rfl⟩ := h
  have leaves := (within_idles (Nat.le_refl _) s a b _ _ m h).2 s' rfl
  exact ⟨leaves.version, fun same => (leaves.put same).imp fun _ put => put.1⟩

theorem defers_of_retypeAll? {vs : List (Term × Term)}
    (h : retypeAll? (.standard cx) s vs = some (some s')) : Defers s s' := by
  refine retypeAll?_induction (R := Defers s) (.refl s) (fun v _ s₁ s₂ type defers _ h => ?_) h
  exact defers.trans (defers_of_unify? h)

/-- Discharging an obligation assigns it. -/
theorem version_lt_of_resolveHole? {k : Nat} {type : Term} {is : List Instance}
    (h : resolveHole? cx s k type is = some (some s')) : s.version < s'.version := by
  obtain ⟨i, _, s₁, unified, assigned⟩ := exists_of_resolveHole? h
  rw [Store.eq_of_assign? assigned]
  exact Nat.lt_succ_of_le (defers_of_unify? unified).version

/-- If no hole is assigned, no obligation is discharged. -/
theorem eq_of_resolve? (h : resolve? cx s = some s') :
    s.version ≤ s'.version ∧ (s'.version = s.version → s' = s) := by
  unfold resolve? at h
  generalize s.obligations = due at h
  induction due generalizing s with
  | nil =>
    cases h
    exact ⟨Nat.le_refl _, fun _ => rfl⟩
  | cons p due ih =>
    simp only [List.foldlM_cons, Option.bind_eq_bind, Option.bind_eq_some_iff] at h
    obtain ⟨s₁, ⟨found, hfound, h₁⟩, h⟩ := h
    obtain ⟨version, same⟩ := ih h
    split at h₁
    · obtain rfl := Option.some.inj h₁
      have more := version_lt_of_resolveHole? hfound
      exact ⟨by omega, fun idle => by omega⟩
    · obtain rfl := Option.some.inj h₁
      exact ⟨version, same⟩

theorem version_le_of_simplify? (h : simplify? cx s = some (some s')) : s.version ≤ s'.version := by
  have carries := carries_of_simplify? (signature_over_anyHole cx.signature) (closed_anyHole s) h
  rw [carries.advances.version_eq]
  exact Nat.le_add_right _ _

end

/-- When a match is given up, the last round has assigned no hole when it took up the equations, has
discharged no obligation, and has put equations off when it compared the types, if it did anything.
If it put off none then, and the unfoldings were not used up before, nothing comes of taking up the
equations that are left. -/
theorem lastRound_of_settle? (cx : Context) (scope : Scope) (progress : Progress) (s s' : Store)
    (matched payload : Term)
    (h : settle? cx (.standard cx) scope progress s matched payload = some (.error (.stuck s'))) :
    ∃ s₀ s₁ late, ReflTransGen (Productive (.standard cx) scope) s s₀ ∧
      simplify? cx s₀ = some (some s₁) ∧ s₁.version = s₀.version ∧ resolve? cx s₁ = some s₁ ∧
      retype? (.standard cx) scope s₁ = some (some s') ∧
      s' = { s₁ with pending := s₁.pending ++ late } ∧ s'.pending ≠ [] ∧
      (late = [] → (unfoldingsLeft? cx s₀ = some 0 → cx.config.unfoldFuel = 0) →
        ∃ s'', simplify? cx s' = some (some s'') ∧ s''.version = s'.version) := by
  obtain ⟨s₀, rounds, round, same, unsettled⟩ := settleRound?_of_stuck _ h
  obtain ⟨s₁, s₂, taken, resolved, retyped⟩ := exists_of_settleRound? round
  obtain ⟨s₂', resolved', eq⟩ := Option.map_eq_some_iff.1 resolved
  cases eq
  have more := version_le_of_simplify? taken
  obtain ⟨more', discharged⟩ := eq_of_resolve? resolved'
  have defers := defers_of_retypeAll? retyped
  have more'' := defers.version
  obtain rfl : s₁ = s₂ := (discharged (by omega)).symm
  obtain ⟨late, put⟩ := defers.put (by omega)
  refine ⟨s₀, s₁, late, rounds, taken, by omega, resolved', retyped, put, unsettled, ?_⟩
  rintro rfl unspent
  rw [List.append_nil] at put
  subst put
  exact simplify?_again taken same unspent

/-- The match waits for a hole that is applied to an argument. -/
theorem lastRound_of_settle?_applied :
    let cx : Context := { limit := 4 }
    let waiting : Equation := ⟨.mk (.hole 0 []) [.const "b"], .const "c"⟩
    let s := (Store.empty.fresh 0 none .ordinary).2.defer waiting
    settle? cx (.standard cx) ⟨0⟩ (fun _ _ _ => some true) s (.const "a") (.const "a") =
        some (.error (.stuck s)) ∧
      ∃ s', simplify? cx s = some (some s') ∧ s'.version = s.version := by
  intro cx waiting s
  have round : settleRound? (.standard cx) ⟨0⟩ s = some (some s) := by decide +kernel
  have taken : simplify? cx s = some (some s) := by decide +kernel
  have stuck := stuck_of_settleRound? round rfl (List.cons_ne_nil _ _)
    (fun _ _ _ => some true) (.const "a") (.const "a") 9
  obtain ⟨s₀, s₁, late, rounds, taken', _, _, _, put, _, again⟩ :=
    lastRound_of_settle? cx ⟨0⟩ _ s s _ _ stuck
  obtain rfl : s = s₀ := by
    rcases ReflTransGen.cases_head rounds with same | ⟨t, ⟨round', productive⟩, _⟩
    · exact same
    · obtain rfl : s = t := Option.some.inj (Option.some.inj (round.symm.trans round'))
      exact absurd rfl productive
  obtain rfl : s = s₁ := Option.some.inj (Option.some.inj (taken.symm.trans taken'))
  have none_late : late = [] := List.self_eq_append_right.1 (congrArg Store.pending put)
  have left : unfoldingsLeft? cx s = some 256 := by decide +kernel
  refine ⟨stuck, again none_late fun used => ?_⟩
  rw [left] at used
  cases used

/-- One unfolding is allowed, and the round spends it on the first arguments. The equation of the
second ones is left, and the match is given up, though the next round would solve it. -/
example :
    let g := (Signature.empty.define "d" (.const "a") none).define "e"
      (.mk (.const "g") [.const "b"]) none
    let cx : Context := { signature := g, config := { unfoldFuel := 1 }, limit := 8 }
    let applied : Term := .mk (.hole 0 []) [.const "b"]
    let s := (Store.empty.fresh 0 none .ordinary).2
    let s₀ := s.defer
      ⟨.mk (.const "f") [.const "d", applied], .mk (.const "f") [.const "a", .const "e"]⟩
    let s' := s.defer ⟨applied, .const "e"⟩
    settleRound? (.standard cx) ⟨0⟩ s₀ = some (some s') ∧
      simplify? cx s' = some (some { s.setValue 0 (.const "g") with version := 1 }) := by
  decide +kernel

/-- Hole `1` has the value `a` of type `t c`, and is declared with the type `?0[c]`. The first round
finds this out at its end, when it compares the types, and puts the equation of the two off. As the
round has assigned nothing, the match is given up, though the equation is solved by `?0 := t #0` in
the next round, after which nothing is left. -/
theorem stuck_too_early :
    let type : Term := .mk (.const "t") [.const "c"]
    let cx : Context := { signature := Signature.empty.declare "a" type, limit := 5 }
    let waiting : Term := .hole 0 [.const "c"]
    let s := ((Store.empty.fresh 1 none .ordinary).2.fresh 0 (some waiting) .ordinary).2
    let s₀ : Store := { s.setValue 1 (.const "a") with version := 1 }
    let s' := s₀.defer ⟨waiting, type⟩
    let s'' : Store := { s₀.setValue 0 (.mk (.const "t") [.rel 0]) with version := 2 }
    settle? cx (.standard cx) ⟨0⟩ (fun _ _ _ => some true) s₀ (.const "a") (.const "a") =
        some (.error (.stuck s')) ∧
      simplify? cx s' = some (some s'') ∧
      settleRound? (.standard cx) ⟨0⟩ s'' = some (some s'') ∧ s''.pending = [] := by
  intro type cx waiting s s₀ s' s''
  have round : settleRound? (.standard cx) ⟨0⟩ s₀ = some (some s') := by decide +kernel
  exact ⟨stuck_of_settleRound? round rfl (List.cons_ne_nil _ _) _ _ _ 9, by decide +kernel,
    by decide +kernel, rfl⟩

end KeyedMatching
