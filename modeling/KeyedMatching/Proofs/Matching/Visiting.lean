import KeyedMatching.Matching.Selection

/-!
# Visiting nodes

A walk visits the nodes of a term in order, those below a chosen one apart. What can be said of a
walk and the nodes before it, and is kept when walks are put together, is true of every walk.

* `Visited`: what the visit of one node may come to;
* `Walk.Visiting`: the rules;
* `Term.walk_visiting`: what they say of walks through terms.
-/

namespace KeyedMatching

/-! ## One node -/

section
variable {σ α β : Type}

theorem Walk.run_bind_iff {x : Walk σ α} {f : α → Walk σ β} {st st' : Selection σ} {b : β} :
    (x >>= f).run st = some (b, st') ↔
      ∃ a mid, x.run st = some (a, mid) ∧ (f a).run mid = some (b, st') := by
  simp only [StateT.run_bind, Option.bind_eq_bind, Option.bind_eq_some_iff, Prod.exists]

/-- What the visit of a node may come to: the test passes over the node, or reports an occurrence,
which is chosen or left. -/
inductive Visited (occ : Occurrences) (test : OccurrenceTest σ) (u : Term) (d : Nat)
    (st : Selection σ) : Option Nat → Selection σ → Prop
  | passed {state} : test.occurrenceAt u d st.state = some (none, state) →
    Visited occ test u d st none { st with state }
  | chosen {n state} : test.occurrenceAt u d st.state = some (some n, state) →
    occ.selects (st.found + 1) = true →
    Visited occ test u d st (some n) ⟨st.found + 1, st.selected + 1, test.select state⟩
  | left {n state} : test.occurrenceAt u d st.state = some (some n, state) →
    occ.selects (st.found + 1) = false →
    Visited occ test u d st none ⟨st.found + 1, st.selected, state⟩

section
variable {occ : Occurrences} {test : OccurrenceTest σ}

/-- The visit of a node, as a function. -/
theorem visit_run (u : Term) (d : Nat) (st : Selection σ) :
    (visit occ test u d).run st = (test.occurrenceAt u d st.state).bind fun r =>
      match r.1 with
      | none => some (none, { st with state := r.2 })
      | some n =>
        if occ.selects (st.found + 1) then
          some (some n, ⟨st.found + 1, st.selected + 1, test.select r.2⟩)
        else some (none, ⟨st.found + 1, st.selected, r.2⟩) := by
  simp only [visit, StateT.run_bind, StateT.run_get, StateT.run_lift, Option.bind_eq_bind,
    Option.pure_def, Option.bind_some]
  cases test.occurrenceAt u d st.state with
  | none => rfl
  | some r =>
    obtain ⟨covered?, state⟩ := r
    cases covered? with
    | none => rfl
    | some n =>
      dsimp only [Option.bind_some]
      by_cases chosen : occ.selects (st.found + 1) = true
      · rw [if_pos chosen, if_pos chosen]
        rfl
      · rw [if_neg chosen, if_neg chosen]
        rfl

theorem visited_of_run {u : Term} {d : Nat} {st st' : Selection σ} {r : Option Nat}
    (h : (visit occ test u d).run st = some (r, st')) : Visited occ test u d st r st' := by
  rw [visit_run] at h
  obtain ⟨⟨covered?, state⟩, answer, h⟩ := Option.bind_eq_some_iff.1 h
  cases covered? with
  | none =>
    cases h
    exact .passed answer
  | some n =>
    dsimp only at h
    split at h
    · next selected =>
      cases h
      exact .chosen answer selected
    · next unselected =>
      cases h
      exact .left answer (Bool.eq_false_iff.2 unselected)

end

end

/-! ## All nodes -/

section
variable {σ : Type}

/-- A property of walks, with the nodes that they visit unless one is chosen, that is kept when
walks are put together. Once a node is chosen it does not matter which others are visited. -/
structure Walk.Visiting (occ : Occurrences) (test : OccurrenceTest σ)
    (P : {α : Type} → Walk σ α → List (Term × Nat) → Prop) : Prop where
  pure {α : Type} (a : α) : P (Pure.pure a) []
  bind {α β : Type} {x : Walk σ α} {f : α → Walk σ β} {nodes nodes' : List (Term × Nat)} :
    P x nodes → (∀ a, P (f a) nodes') → P (x >>= f) (nodes ++ nodes')
  visit {β : Type} {t : Term} {d : Nat} {f : Option Nat → Walk σ β} {nodes : List (Term × Nat)} :
    (∀ n, ∃ nodes', P (f (some n)) nodes') → P (f none) nodes →
      P (KeyedMatching.visit occ test t d >>= f) ((t, d) :: nodes)

section
variable {occ : Occurrences} {test : OccurrenceTest σ}
  {P : {α : Type} → Walk σ α → List (Term × Nat) → Prop}

theorem Walk.Visiting.map (rules : Walk.Visiting occ test P) {α β : Type} {x : Walk σ α}
    {nodes : List (Term × Nat)} (hx : P x nodes) (f : α → β) :
    P (x >>= fun a => Pure.pure (f a)) nodes := by
  have both := rules.bind hx fun a => rules.pure (f a)
  rwa [List.append_nil] at both

mutual

theorem Head.walk_visiting (rules : Walk.Visiting occ test P) : (h : Head) → (d : Nat) →
    P (h.walk occ test d) (h.inner d)
  | .rel _, _ => rules.pure _
  | .sort _, _ => rules.pure _
  | .const _, _ => rules.pure _
  | .hole _ xs, d => rules.map (Term.walkFrom_visiting rules xs d 0) _
  | .pi a b, d =>
    rules.bind (Term.walk_visiting rules a d) fun _ =>
      rules.map (Term.walk_visiting rules b (d + 1)) _
  | .lam a b, d =>
    rules.bind (Term.walk_visiting rules a d) fun _ =>
      rules.map (Term.walk_visiting rules b (d + 1)) _
  | .letIn v a b, d =>
    rules.bind (Term.walk_visiting rules a d) fun _ =>
      rules.bind (Term.walk_visiting rules v d) fun _ =>
        rules.map (Term.walk_visiting rules b (d + 1)) _
  | .cast t a, d =>
    rules.bind (Term.walk_visiting rules a d) fun _ =>
      rules.map (Term.walk_visiting rules t d) _
  | .case r t bs, d =>
    rules.bind (Term.walk_visiting rules r d) fun _ =>
      rules.bind (Term.walk_visiting rules t d) fun _ =>
        rules.map (Term.walkFrom_visiting rules bs d 0) _
  | .fix _ as bs, d =>
    rules.bind (Term.walkFrom_visiting rules as d 0) fun _ =>
      rules.map (Term.walkFrom_visiting rules bs (d + as.length) 0) _

/-- What is kept when walks are put together is true of the walk through a term and the nodes of
it. -/
theorem Term.walk_visiting (rules : Walk.Visiting occ test P) : (t : Term) → (d : Nat) →
    P (t.walk occ test d) (t.preorder d)
  | .mk h [], d => by
    refine rules.visit (fun _ => ⟨[], rules.pure _⟩) ?_
    exact rules.map (Head.walk_visiting rules h d) _
  | .mk h (x :: xs), d => by
    have spine := Term.walkFrom_visiting rules (x :: xs) d 0
    refine rules.visit (fun n => ?_) ?_
    · exact ⟨_, rules.map (Term.walkFrom_visiting rules (x :: xs) d n) _⟩
    · refine rules.visit (fun _ => ⟨_, rules.map spine _⟩) ?_
      exact rules.bind (Head.walk_visiting rules h d) fun _ => rules.map spine _

theorem Term.walkFrom_visiting (rules : Walk.Visiting occ test P) : (xs : List Term) →
    (d n : Nat) → P (Term.walkFrom occ test d n xs) (Term.preorderAll d (xs.drop n))
  | [], d, n => by
    rw [List.drop_nil]
    exact rules.pure _
  | x :: xs, d, 0 =>
    rules.bind (Term.walk_visiting rules x d) fun _ =>
      rules.map (Term.walkFrom_visiting rules xs d 0) _
  | _ :: xs, d, n + 1 => Term.walkFrom_visiting rules xs d n

end

end

end

end KeyedMatching
