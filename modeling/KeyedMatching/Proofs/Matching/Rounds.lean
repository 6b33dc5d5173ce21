import KeyedMatching.Proofs.Matching.Commit

/-!
# What a settled match is, and how many rounds it takes

* `settleWithin?_of_le`: what settling comes to within some rounds, it comes to within more, unless
  the rounds were used up;
* `done_of_settle?`: a settled match has no equation left, no placeholder of its own and no assigned
  hole in a value or in its terms, and it is admitted as it is (`Settled.Done`);
* `settled_within_rounds`: all of this for the settings with any number of rounds.
-/

namespace KeyedMatching

/-- The surroundings with another number of rounds in which a match must settle. -/
def Context.withRounds (cx : Context) (n : Nat) : Context :=
  { cx with config := { cx.config with retryBudget := n } }

/-! ## What does not look at the number of rounds -/

section
variable (cx : Context) (n : Nat)

theorem within_withRounds (mode : UnifyMode) (depth : Nat) :
    Unify.within (cx.withRounds n) mode depth = Unify.within cx mode depth := by
  induction depth with
  | zero => rfl
  | succ depth ih =>
    rw [Unify.within, Unify.within, ih]
    rfl

theorem unify?_withRounds (mode : UnifyMode) : unify? (cx.withRounds n) mode = unify? cx mode := by
  funext s a b
  rw [unify?, unify?, within_withRounds]
  rfl

theorem convertible?_withRounds : convertible? (cx.withRounds n) = convertible? cx := by
  funext s a b
  rw [convertible?, convertible?, unify?_withRounds]

theorem simplify?_withRounds : simplify? (cx.withRounds n) = simplify? cx := by
  funext s
  rw [simplify?, simplify?, within_withRounds]
  rfl

theorem resolve?_withRounds : resolve? (cx.withRounds n) = resolve? cx := by
  have hole (s : Store) (k : Nat) (type : Term) (is : List Instance) :
      resolveHole? (cx.withRounds n) s k type is = resolveHole? cx s k type is := by
    induction is with
    | nil => rfl
    | cons i is ih => rw [resolveHole?, resolveHole?, unify?_withRounds, ih]
  funext s
  rw [resolve?, resolve?]
  simp only [hole]
  rfl

theorem inferStep_withRounds (conv : Store → Term → Term → Option Bool) (s : Store)
    (again : List Term → Term → InferM (Option Term)) (locals : List Term) (t : Term) :
    Infer.step (cx.withRounds n) conv s again locals t = Infer.step cx conv s again locals t := by
  have application (head type : Term) (xs : List Term) :
      Infer.application (cx.withRounds n) conv s again locals head type xs =
        Infer.application cx conv s again locals head type xs := by
    induction xs generalizing type with
    | nil => rfl
    | cons x xs ih =>
      simp only [Infer.application, ih]
      rfl
  obtain ⟨h, xs⟩ := t
  cases xs with
  | nil => rfl
  | cons x xs => simp only [Infer.step, application]

theorem inferType?_withRounds : inferType? (cx.withRounds n) = inferType? cx := by
  have within (conv : Store → Term → Term → Option Bool) (s : Store) (depth : Nat) :
      Infer.within (cx.withRounds n) conv s depth = Infer.within cx conv s depth := by
    induction depth with
    | zero => rfl
    | succ depth ih =>
      funext locals t
      rw [Infer.within, Infer.within, ih, inferStep_withRounds]
  funext s t
  rw [inferType?, inferType?, inferTypeBy?, inferTypeBy?, convertible?_withRounds, within]
  rfl

theorem standard_withRounds : Unifier.standard (cx.withRounds n) = .standard cx := by
  rw [Unifier.standard, Unifier.standard, convertible?_withRounds, unify?_withRounds,
    unify?_withRounds, simplify?_withRounds, resolve?_withRounds, inferType?_withRounds]

end

/-! ## Rounds -/

section
variable {u : Unifier} {scope : Scope} {progress : Progress} {matched payload : Term} {s : Store}

/-- More rounds change nothing, unless the rounds were used up. -/
theorem settleWithin?_of_le {n n' : Nat} {r : Option (Except Unsettled Settled)}
    (h : settleWithin? u scope progress matched payload n s = r) (more : n ≤ n')
    (ended : r ≠ some (.error .outOfRounds)) :
    settleWithin? u scope progress matched payload n' s = r := by
  induction n generalizing s n' with
  | zero => exact absurd h.symm ended
  | succ n ih =>
    cases n' with
    | zero => omega
    | succ n' =>
      rw [settleWithin?] at h ⊢
      cases round : settleRound? u scope s with
      | none => simpa [round] using h
      | some next? =>
        rw [round] at h
        cases next? with
        | none => exact h
        | some next =>
          simp only [Option.bind_eq_bind, Option.bind_some] at h ⊢
          by_cases assigned : next.version ≠ s.version
          · rw [if_pos assigned] at h ⊢
            exact ih h (by omega)
          · rw [if_neg assigned] at h ⊢
            exact h

/-- A match that is not settled within some rounds is not settled within fewer, for the same reason
or because the rounds are used up. -/
theorem exists_error_of_le {n n' : Nat} {e : Unsettled}
    (h : settleWithin? u scope progress matched payload n' s = some (.error e)) (fewer : n ≤ n') :
    ∃ e', settleWithin? u scope progress matched payload n s = some (.error e') ∧
      (e' = e ∨ e' = .outOfRounds) := by
  by_cases out : settleWithin? u scope progress matched payload n s = some (.error .outOfRounds)
  · exact ⟨.outOfRounds, out, .inr rfl⟩
  · have same := settleWithin?_of_le rfl fewer out
    rw [h] at same
    exact ⟨e, same.symm, .inl rfl⟩

/-- Nothing is left to do about the match: no equation, no placeholder outside the scope, and no
assigned hole in a value, in the matched term or in the payload; and the match is admitted so. -/
structure Settled.Done (scope : Scope) (progress : Progress) (m : Settled) : Prop where
  pending : m.store.pending = []
  kinds : ∀ k d, m.store.hole? k = some d → scope.contains k = false → d.kind ≠ .placeholder
  values : ∀ k v, m.store.value? k = some v → ∀ l ∈ v.holes, m.store.isAssigned l = false
  matched : ∀ l ∈ m.matched.holes, m.store.isAssigned l = false
  payload : ∀ l ∈ m.payload.holes, m.store.isAssigned l = false
  admitted : progress m.store m.matched m.payload = some true

/-- Normalising puts nothing off. -/
theorem pending_of_normalize? {s s' : Store} (settled : s.pending = [])
    (h : s.normalize? = some s') : s'.pending = [] := by
  obtain ⟨s₁, es, steps, hes, rfl⟩ := Store.normalSteps_of_normalize? h
  rw [Store.pending_of_normalSteps steps, settled] at hes
  cases hes
  rfl

theorem done_of_settle? {cx : Context} {m : Settled}
    (h : settle? cx u scope progress s matched payload = some (.ok m)) : m.Done scope progress := by
  obtain ⟨s', _, settled, concluded⟩ := exists_of_settle? (R := fun _ _ => True)
    (fun _ _ _ _ _ => trivial) (fun _ _ _ => trivial) h
  obtain ⟨normal, hmatched, hpayload, admitted⟩ := exists_of_conclude? concluded
  have pruned : (prunePlaceholders scope s').pending = [] :=
    (Store.prunePlaceholders_keeps scope s').2.trans settled
  constructor
  · exact pending_of_normalize? pruned normal
  · intro k d hd outside
    obtain ⟨d', hd', _, _, kind⟩ := Store.inherits_of_normalize? normal k d hd
    rw [← kind]
    exact Store.kind_of_prunePlaceholders hd' outside
  · intro k v hv l hl
    have unset := Term.over_holes.1 (Store.flat_of_normalize? normal k v hv) l hl
    simp [Store.isAssigned, unset]
  · exact Term.over_holes.1 (Store.unassigned_of_instantiate? hmatched)
  · exact Term.over_holes.1 (Store.unassigned_of_instantiate? hpayload)
  · exact admitted

end

/-- A match that settles within some rounds is done, and settles to the same within more; one that
does not settle within some rounds does not settle within fewer. -/
theorem settled_within_rounds (cx : Context) (scope : Scope) (progress : Progress) (s : Store)
    (matched payload : Term) :
    let finish (n : Nat) := settle? (cx.withRounds n) (.standard (cx.withRounds n)) scope progress s
      matched payload
    (∀ n m, finish n = some (.ok m) →
      m.Done scope progress ∧ ∀ n', n ≤ n' → finish n' = some (.ok m)) ∧
    (∀ n' e, finish n' = some (.error e) → ∀ n, n ≤ n' →
      ∃ e', finish n = some (.error e') ∧ (e' = e ∨ e' = .outOfRounds)) := by
  intro finish
  have rounds (n : Nat) :
      finish n = settleWithin? (.standard cx) scope progress matched payload n s := by
    change settleWithin? (.standard (cx.withRounds n)) scope progress matched payload n s = _
    rw [standard_withRounds]
  constructor
  · intro n m h
    refine ⟨done_of_settle? h, fun n' more => ?_⟩
    rw [rounds] at h ⊢
    exact settleWithin?_of_le h more (by simp)
  · intro n' e h n fewer
    rw [rounds] at h ⊢
    exact exists_error_of_le h fewer

/-- The equation `?0[c] = h c` is solved in the first round, and the second finds nothing left to
do. -/
theorem settled_within_rounds_imitation :
    let cx : Context := { limit := 5 }
    let c := Term.const "c"
    let t := Term.hole 0 [c]
    let u := Term.mk (.const "h") [c]
    let s : Store := { slots := [some ⟨1, none, .ordinary, none⟩], pending := [⟨t, u⟩] }
    let finish (n : Nat) := settle? (cx.withRounds n) (.standard (cx.withRounds n)) ⟨0⟩ .any s t t
    ∃ m, finish 2 = some (.ok m) ∧ m.matched = u ∧ m.Done ⟨0⟩ .any ∧ finish 10 = some (.ok m) ∧
      finish 1 = some (.error .outOfRounds) ∧ ∃ e, finish 0 = some (.error e) := by
  intro cx c t u s finish
  let m : Settled :=
    { store := { s.setValue 0 (.mk (.const "h") [.rel 0]) with pending := [], version := 1 },
      matched := u, payload := u }
  have two : finish 2 = some (.ok m) := by decide +kernel
  have one : finish 1 = some (.error .outOfRounds) := by decide +kernel
  obtain ⟨settles, fails⟩ := settled_within_rounds cx ⟨0⟩ .any s t t
  obtain ⟨done, more⟩ := settles 2 m two
  obtain ⟨e, zero, _⟩ := fails 1 .outOfRounds one 0 (by omega)
  exact ⟨m, two, rfl, done, more 10 (by omega), one, e, zero⟩

end KeyedMatching
