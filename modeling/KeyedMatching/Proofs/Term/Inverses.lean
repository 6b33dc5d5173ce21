import KeyedMatching.Proofs.Term.ByNodes

/-!
# Substitutions that undo one another

* `Term.HasFree`: a variable is free in a term, by recursion through its binders;
* `Term.lowering_inverts_lifting`: lowering has an answer just where none of the variables that it
  takes out is free, and the answer is the term that would be lifted;
* `Term.abstraction_solves`: renumbering has an answer just where all free variables are listed, and
  the answer is the term over the list that has the instance; and abstracted terms are put back.
-/

namespace KeyedMatching

/-! ## Free variables -/

mutual

/-- `Term.HasFree` in a head. -/
def Head.HasFree (j : Nat) : Head → Prop
  | .rel i => i = j
  | .sort _ | .const _ => False
  | .hole _ xs => Term.SomeHasFree j xs
  | .pi a b | .lam a b => a.HasFree j ∨ b.HasFree (j + 1)
  | .letIn v a b => a.HasFree j ∨ v.HasFree j ∨ b.HasFree (j + 1)
  | .cast t a => a.HasFree j ∨ t.HasFree j
  | .case r s bs => r.HasFree j ∨ s.HasFree j ∨ Term.SomeHasFree j bs
  | .fix _ as bs => Term.SomeHasFree j as ∨ Term.SomeHasFree (j + as.length) bs

/-- The variable `j` is free in a term. Under a binder it is the next one. -/
def Term.HasFree (j : Nat) : Term → Prop
  | .mk h xs => h.HasFree j ∨ Term.SomeHasFree j xs

/-- `Term.HasFree` in one of the terms of a list. -/
def Term.SomeHasFree (j : Nat) : List Term → Prop
  | [] => False
  | x :: xs => x.HasFree j ∨ Term.SomeHasFree j xs

end

section
variable {j : Nat}

mutual

theorem Head.every_ne : (h : Head) → (d : Nat) →
    (h.Every (fun e i => i ≠ e + j) (fun _ _ => True) d ↔ ¬ h.HasFree (d + j))
  | .rel _, _ => Iff.rfl
  | .sort _, _ => by simp [Head.Every, Head.HasFree]
  | .const _, _ => by simp [Head.Every, Head.HasFree]
  | .hole _ xs, d => by simp [Head.Every, Head.HasFree, Term.everyAll_ne xs d]
  | .pi a b, d => by
    simp [Head.Every, Head.HasFree, Term.every_ne a d, Term.every_ne b (d + 1),
      Nat.add_right_comm d 1 j]
  | .lam a b, d => by
    simp [Head.Every, Head.HasFree, Term.every_ne a d, Term.every_ne b (d + 1),
      Nat.add_right_comm d 1 j]
  | .letIn v a b, d => by
    simp [Head.Every, Head.HasFree, Term.every_ne v d, Term.every_ne a d, Term.every_ne b (d + 1),
      Nat.add_right_comm d 1 j]
  | .cast t a, d => by simp [Head.Every, Head.HasFree, Term.every_ne t d, Term.every_ne a d]
  | .case r s bs, d => by
    simp [Head.Every, Head.HasFree, Term.every_ne r d, Term.every_ne s d, Term.everyAll_ne bs d]
  | .fix _ as bs, d => by
    simp [Head.Every, Head.HasFree, Term.everyAll_ne as d, Term.everyAll_ne bs (d + as.length),
      Nat.add_right_comm d as.length j]

/-- Every variable is another one just if the variable is not free. -/
theorem Term.every_ne : (t : Term) → (d : Nat) →
    (t.Every (fun e i => i ≠ e + j) (fun _ _ => True) d ↔ ¬ t.HasFree (d + j))
  | .mk h xs, d => by
    simp [Term.Every, Term.HasFree, Head.every_ne h d, Term.everyAll_ne xs d]

theorem Term.everyAll_ne : (xs : List Term) → (d : Nat) →
    (Term.EveryAll (fun e i => i ≠ e + j) (fun _ _ => True) d xs ↔ ¬ Term.SomeHasFree (d + j) xs)
  | [], _ => by simp [Term.EveryAll, Term.SomeHasFree]
  | x :: xs, d => by
    simp [Term.EveryAll, Term.SomeHasFree, Term.every_ne x d, Term.everyAll_ne xs d]

end

/-- The free variables of a term are those that are listed. -/
theorem Term.mem_freeRels {t : Term} : j ∈ t.freeRels ↔ t.HasFree j := by
  have other (d i : Nat) : (d ≤ i → i - d ≠ j) ↔ i ≠ d + j := by omega
  have absent : (∀ i ∈ t.freeRels, i ≠ j) ↔ ¬ t.HasFree j := by
    rw [Term.forall_freeRels, ← Nat.zero_add j, ← Term.every_ne t 0, Nat.zero_add]
    simp only [other]
  rw [← not_iff_not, ← absent]
  exact ⟨fun missing i hi same => missing (same ▸ hi), fun others mem => others j mem rfl⟩

end

theorem Term.scoped_iff_hasFree {n : Nat} {t : Term} : t.Scoped n ↔ ∀ i, t.HasFree i → i < n := by
  simp only [Term.scoped_iff, Term.mem_freeRels]

section
variable {t u : Term} {c n m : Nat}

theorem Term.maxFreeRel_eq_some_iff :
    t.maxFreeRel = some m ↔ t.HasFree m ∧ ∀ i, t.HasFree i → i ≤ m := by
  simp only [Term.maxFreeRel, List.max?_eq_some_iff, Term.mem_freeRels]

/-! ## Lowering -/

theorem Term.lower?_eq_some_iff : t.lower? c n = some u ↔ u.lift c n = t :=
  ⟨Term.lift_of_lower?, fun lifted => lifted ▸ Term.lower?_lift u c n⟩

theorem Term.lower?_eq_none_iff :
    t.lower? c n = none ↔ ∃ i, t.HasFree i ∧ c ≤ i ∧ i < c + n := by
  unfold Term.lower?
  split
  · next taken => simpa [Term.mem_freeRels] using taken
  · next spared => simpa [Term.mem_freeRels] using spared

/-- A variable from number `c` on is free just if the largest one is. -/
theorem Term.isLooseFrom_iff : t.isLooseFrom c = true ↔ ∃ m, t.maxFreeRel = some m ∧ c ≤ m := by
  rw [Term.isLooseFrom, List.any_eq_true]
  simp only [decide_eq_true_eq]
  constructor
  · rintro ⟨i, hi, reach⟩
    obtain ⟨m, hm⟩ := Option.isSome_iff_exists.1
      (List.isSome_max?_of_mem hi : (t.freeRels.max?).isSome)
    exact ⟨m, hm, Nat.le_trans reach ((List.max?_eq_some_iff.1 hm).2 i hi)⟩
  · rintro ⟨m, hm, reach⟩
    exact ⟨m, (List.max?_eq_some_iff.1 hm).1, reach⟩

end

/-- Lowering is the inverse of lifting: it has no answer just where a variable that it takes out is
free. It begins by asking whether a variable is in reach, which the largest free variable tells. -/
theorem Term.lowering_inverts_lifting (t : Term) (c n : Nat) :
    ((t.lift c n).lower? c n = some t ∧ ∀ u, t.lower? c n = some u ↔ u.lift c n = t) ∧
    (t.lower? c n = none ↔ ∃ i, t.HasFree i ∧ c ≤ i ∧ i < c + n) ∧
    (t.isLooseFrom c = true ↔ ∃ m, t.maxFreeRel = some m ∧ c ≤ m) ∧
    (∀ m, t.maxFreeRel = some m ↔ t.HasFree m ∧ ∀ i, t.HasFree i → i ≤ m) ∧
    (t.liftByNodes c n = t.lift c n ∧ t.lowerByNodes? c n = t.lower? c n ∧
      t.looseByNodes c = t.isLooseFrom c ∧ t.largestByNodes = t.maxFreeRel) :=
  ⟨⟨Term.lower?_lift t c n, fun _ => Term.lower?_eq_some_iff⟩, Term.lower?_eq_none_iff,
    Term.isLooseFrom_iff, fun _ => Term.maxFreeRel_eq_some_iff, t.liftByNodes_eq c n,
    t.lowerByNodes?_eq c n, t.looseByNodes_eq c, t.largestByNodes_eq⟩

/-! ## Abstraction -/

section
variable {t v : Term} {vars : List Nat}

theorem Term.isSome_abstractRels? :
    (∃ v, t.abstractRels? vars = some v) ↔ ∀ i, t.HasFree i → i ∈ vars := by
  unfold Term.abstractRels?
  split
  · next listed => simpa [Term.mem_freeRels] using listed
  · next unlisted => simpa [Term.mem_freeRels] using unlisted

/-- The variables that were put in for the listed ones. -/
theorem Term.putFirst_rel {d i : Nat} (free : d ≤ i) (within : i < d + vars.length) :
    Term.putFirst (vars.map .rel) d i = .rel (vars[i - d] + d) := by
  have inside : i - d < vars.length := by omega
  simp [Term.putFirst, free, inside, Term.lift]

/-- Among the terms over the list there is no other with that instance. -/
theorem Term.abstractRels?_instantiateMany (distinct : vars.Nodup)
    (inside : v.Scoped vars.length) :
    (v.instantiateMany (vars.map .rel)).abstractRels? vars = some v := by
  have listed : ∀ i ∈ (v.instantiateMany (vars.map .rel)).freeRels, i ∈ vars := by
    rw [Term.forall_freeRels, Term.instantiateMany_eq_bind]
    refine Term.every_bind (fun d i within => ?_) v 0 inside
    by_cases free : d ≤ i
    · rw [Term.putFirst_rel free within]
      simp [Term.Every, Head.Every, Term.EveryAll]
    · simp [Term.putFirst, free, Term.Every, Head.Every, Term.EveryAll]
  have back : (v.instantiateMany (vars.map .rel)).bind
      (fun d i => if d ≤ i then .rel (vars.idxOf (i - d) + d) else .rel i) 0 = v := by
    rw [Term.instantiateMany_eq_bind]
    refine Term.bind_bind_eq_self (Term.Every.mono inside (fun d i within => ?_) fun _ _ q => q)
    by_cases free : d ≤ i
    · have position : vars.idxOf vars[i - d] = i - d := distinct.idxOf_getElem _ _
      have same : i - d + d = i := by omega
      rw [Term.putFirst_rel free within]
      simp [position, same]
    · simp [Term.putFirst, free]
  rw [Term.abstractRels?, if_pos (by simpa using listed), back]

/-- The terms that renumbering comes to are those over the list with the given instance. -/
theorem Term.abstractRels?_eq_some_iff (distinct : vars.Nodup) :
    t.abstractRels? vars = some v ↔
      v.Scoped vars.length ∧ v.instantiateMany (vars.map .rel) = t := by
  constructor
  · exact fun renumbered => ⟨Term.scoped_of_abstractRels? renumbered,
      Term.instantiateMany_of_abstractRels? renumbered⟩
  · rintro ⟨inside, rfl⟩
    exact Term.abstractRels?_instantiateMany distinct inside

end

/-- What is abstracted out of a term for a hole solves it: a renumbering for different variables has
an answer just where all free variables are listed, and the answer is the one term over the list
with that instance; and whatever terms are abstracted are put back. -/
theorem Term.abstraction_solves (t : Term) {vars : List Nat} (distinct : vars.Nodup)
    (values : List Term) :
    ((∃ v, t.abstractRels? vars = some v) ↔ ∀ i, t.HasFree i → i ∈ vars) ∧
    (∀ v, t.abstractRels? vars = some v ↔
      (∀ i, v.HasFree i → i < vars.length) ∧ v.instantiateMany (vars.map .rel) = t) ∧
    (t.abstractTerms values).instantiateMany values = t ∧
    (t.renumberByNodes? vars = t.abstractRels? vars ∧
      ∀ (v : Term) (values : List Term),
        v.instantiateByNodes values = v.instantiateMany values) := by
  refine ⟨Term.isSome_abstractRels?, fun v => ?_, Term.instantiateMany_abstractTerms t values,
    t.renumberByNodes?_eq vars, Term.instantiateByNodes_eq⟩
  rw [Term.abstractRels?_eq_some_iff distinct, Term.scoped_iff_hasFree]

/-- Two variables are listed the other way round than they are numbered, and occur under a binder.
Of the terms that are abstracted one has a free variable and one is another's head, and that one is
listed twice. -/
theorem Term.abstraction_solves_reversed :
    let f (x : Term) : Term := .mk (.const "f") [x]
    let t : Term := .lam (.rel 3) (.mk (.rel 2) [f (f (.rel 4)), .rel 0])
    let v : Term := .lam (.rel 0) (.mk (.rel 2) [f (f (.rel 1)), .rel 0])
    let values : List Term := [f (.rel 3), .rel 1, .const "f", .const "f"]
    [3, 1].Nodup ∧ t.abstractRels? [3, 1] = some v ∧ (∀ i, v.HasFree i → i < 2) ∧
      v.instantiateMany [.rel 3, .rel 1] = t ∧
      t.abstractTerms values =
        .lam (.rel 7) (.mk (.rel 2) [.mk (.rel 4) [.rel 1], .rel 0]) ∧
      (t.abstractTerms values).instantiateMany values = t := by
  intro f t v values
  have distinct : [3, 1].Nodup := by decide
  have renumbered : t.abstractRels? [3, 1] = some v := by decide +kernel
  obtain ⟨_, solves, back, _⟩ := Term.abstraction_solves t distinct values
  exact ⟨distinct, renumbered, ((solves v).1 renumbered).1, ((solves v).1 renumbered).2,
    by decide +kernel, back⟩

end KeyedMatching
