import KeyedMatching.Matching.Settling
import KeyedMatching.Proofs.Holes.Discipline

/-!
# How a match settles

What stands between the store that unification returned and the one of a settled match:

* `RoundLeads`: what one round may lead to;
* `exists_of_settle?`: rounds until one assigns nothing and leaves no equation, and a conclusion;
* `exists_of_conclude?`: the conclusion removes placeholders, puts values into one another, and
  instantiates the matched term and the payload.
-/

namespace KeyedMatching

section
variable {u : Unifier} {scope : Scope} {s s' : Store} {progress : Progress}
  {matched payload : Term} {m : Settled}

/-- What is true of the store, and stays true when the type inferred for a value is unified with the
declared one, is true once the types were compared. -/
theorem retypeAll?_induction {R : Store → Prop} {vs : List (Term × Term)} (start : R s)
    (step : ∀ v ∈ vs, ∀ s₁ s₂ type, R s₁ → u.inferType? s₁ v.1 = some (.ok (some type)) →
      u.unify? s₁ type v.2 = some (some s₂) → R s₂)
    (h : retypeAll? u s vs = some (some s')) : R s' := by
  induction vs generalizing s with
  | nil =>
    cases h
    exact start
  | cons v vs ih =>
    obtain ⟨first, rest⟩ := List.forall_mem_cons.1 step
    simp only [retypeAll?, Option.bind_eq_bind, Option.bind_eq_some_iff] at h
    obtain ⟨next?, hnext, h⟩ := h
    split at h
    · next s₁ =>
      refine ih ?_ rest h
      simp only [retypeValue?, Option.bind_eq_bind, Option.bind_eq_some_iff] at hnext
      obtain ⟨found, hfound, hnext⟩ := hnext
      split at hnext
      · cases hnext
      · cases hnext
        exact start
      · next type =>
        obtain ⟨same, _, hnext⟩ := Option.bind_eq_some_iff.1 hnext
        split at hnext
        · cases hnext
          exact start
        · exact first s s₁ type start hfound hnext
    · cases h

theorem exists_of_settleRound? (h : settleRound? u scope s = some (some s')) :
    ∃ s₁ s₂, u.simplify? s = some (some s₁) ∧ u.resolve? s₁ = some (some s₂) ∧
      retype? u scope s₂ = some (some s') := by
  simp only [settleRound?, OptionT.run_bind, OptionT.run_mk, Option.elimM, Option.bind_eq_bind,
    Option.bind_eq_some_iff] at h
  obtain ⟨s₁?, h₁, h⟩ := h
  cases s₁? with
  | none => cases h
  | some s₁ =>
    obtain ⟨s₂?, h₂, h⟩ := Option.bind_eq_some_iff.1 h
    cases s₂? with
    | none => cases h
    | some s₂ => exact ⟨s₁, s₂, h₁, h₂, h⟩

/-- What a round may lead to: another one if it has assigned a hole, and otherwise the conclusion if
it has left no equation. -/
inductive RoundLeads (u : Unifier) (scope : Scope) (progress : Progress) (matched payload : Term)
    (n : Nat) (s : Store) : Except Unsettled Settled → Prop
  | contradiction : settleRound? u scope s = some none →
    RoundLeads u scope progress matched payload n s (.error .contradiction)
  | again {next r} : settleRound? u scope s = some (some next) → next.version ≠ s.version →
    settleWithin? u scope progress matched payload n next = some r →
    RoundLeads u scope progress matched payload n s r
  | concluded {next r} : settleRound? u scope s = some (some next) →
    next.version = s.version → next.pending = [] →
    conclude? scope progress next matched payload = some r →
    RoundLeads u scope progress matched payload n s r
  | stuck {next} : settleRound? u scope s = some (some next) → next.version = s.version →
    next.pending ≠ [] → RoundLeads u scope progress matched payload n s (.error (.stuck next))

theorem leads_of_settleWithin? {n : Nat} {r : Except Unsettled Settled}
    (h : settleWithin? u scope progress matched payload (n + 1) s = some r) :
    RoundLeads u scope progress matched payload n s r := by
  simp only [settleWithin?, Option.bind_eq_bind, Option.bind_eq_some_iff] at h
  obtain ⟨next?, round, h⟩ := h
  cases next? with
  | none =>
    cases h
    exact .contradiction round
  | some next =>
    dsimp only at h
    split at h
    · next productive => exact .again round productive h
    · next same =>
      have same := not_not.1 same
      split at h
      · next done => exact .concluded round same (List.isEmpty_iff.1 done) h
      · next unsettled =>
        cases h
        exact .stuck round same (by simpa using unsettled)

/-- A match settles by rounds, the last of which leaves no equation, and a conclusion. -/
theorem exists_of_settleWithin? {R : Store → Store → Prop}
    (trans : ∀ s t w, R s t → R t w → R s w)
    (round : ∀ s s', settleRound? u scope s = some (some s') → R s s') (n : Nat)
    (h : settleWithin? u scope progress matched payload n s = some (.ok m)) :
    ∃ s', R s s' ∧ s'.pending = [] ∧
      conclude? scope progress s' matched payload = some (.ok m) := by
  induction n generalizing s with
  | zero => cases h
  | succ n ih =>
    cases leads_of_settleWithin? h with
    | @again next _ first _ later =>
      obtain ⟨s', rest, done⟩ := ih later
      exact ⟨s', trans _ _ _ (round s next first) rest, done⟩
    | @concluded next _ last _ settled done => exact ⟨next, round s next last, settled, done⟩

theorem exists_of_settle? {cx : Context} {R : Store → Store → Prop}
    (trans : ∀ s t w, R s t → R t w → R s w)
    (round : ∀ s s', settleRound? u scope s = some (some s') → R s s')
    (h : settle? cx u scope progress s matched payload = some (.ok m)) :
    ∃ s', R s s' ∧ s'.pending = [] ∧
      conclude? scope progress s' matched payload = some (.ok m) :=
  exists_of_settleWithin? trans round _ h

/-- The conclusion prunes and normalises the store, and instantiates two terms by it. -/
theorem exists_of_conclude? (h : conclude? scope progress s matched payload = some (.ok m)) :
    (prunePlaceholders scope s).normalize? = some m.store ∧
      m.store.instantiate? matched = some m.matched ∧
      m.store.instantiate? payload = some m.payload ∧
      progress m.store m.matched m.payload = some true := by
  simp only [conclude?, Option.bind_eq_bind, Option.bind_eq_some_iff] at h
  obtain ⟨store, hstore, matched', hmatched, payload', hpayload, admitted, hadmitted, h⟩ := h
  split at h
  · next yes =>
    cases h
    subst yes
    exact ⟨hstore, hmatched, hpayload, hadmitted⟩
  · cases h

end

namespace Store

/-! ## Removing placeholders -/

theorem hole?_remove (s : Store) (k l : Nat) :
    (s.remove k).hole? l = if l = k then none else s.hole? l := by
  simp only [remove, hole?, List.getElem?_set]
  by_cases same : k = l
  · subst same
    by_cases inside : k < s.slots.length <;> simp [inside]
  · simp [same, Ne.symm same]

theorem mem_createdSince {scope : Scope} {s : Store} {k : Nat} {d : Hole} :
    (k, d) ∈ s.createdSince scope ↔ s.hole? k = some d ∧ scope.contains k = false := by
  simp [createdSince, mem_holes]

/-- What is true of the store, and stays true when a placeholder is removed. -/
theorem prunePlaceholders_induction {R : Store → Prop} {scope : Scope} {s : Store} (start : R s)
    (step : ∀ s' k d, s.hole? k = some d → scope.contains k = false → d.kind = .placeholder →
      R s' → R (s'.remove k)) : R (prunePlaceholders scope s) := by
  refine List.foldlRecOn _ _ start fun s' r p hp => ?_
  obtain ⟨k, d⟩ := p
  obtain ⟨declared, outside⟩ := mem_createdSince.1 hp
  change R (if d.kind = .placeholder then s'.remove k else s')
  split
  · next kind => exact step s' k d declared outside kind r
  · exact r

/-- A hole that is left has kept its declaration. -/
theorem hole?_of_prunePlaceholders {scope : Scope} {s : Store} {l : Nat} {e : Hole}
    (h : (prunePlaceholders scope s).hole? l = some e) : s.hole? l = some e := by
  revert h
  refine prunePlaceholders_induction (R := fun s' => s'.hole? l = some e → s.hole? l = some e)
    id fun s' k d _ _ _ ih h => ih ?_
  rw [hole?_remove] at h
  split at h
  · cases h
  · exact h

/-- A hole of another kind is left. -/
theorem hole?_prunePlaceholders {scope : Scope} {s : Store} {l : Nat}
    (other : ∀ d, s.hole? l = some d → scope.contains l = false → d.kind ≠ .placeholder) :
    (prunePlaceholders scope s).hole? l = s.hole? l := by
  refine prunePlaceholders_induction (R := fun s' => s'.hole? l = s.hole? l)
    rfl fun s' k d hd outside kind ih => ?_
  rw [hole?_remove, if_neg, ih]
  rintro rfl
  exact other d hd outside kind

/-- No placeholder is left outside the scope. -/
theorem kind_of_prunePlaceholders {scope : Scope} {s : Store} {l : Nat} {e : Hole}
    (h : (prunePlaceholders scope s).hole? l = some e) (outside : scope.contains l = false) :
    e.kind ≠ .placeholder := by
  intro kind
  have gone : ∀ (ps : List (Nat × Hole)) (s' : Store), (l, e) ∈ ps ∨ s'.hole? l = none →
      (ps.foldl (fun s p => if p.2.kind = .placeholder then s.remove p.1 else s) s').hole? l =
        none := by
    intro ps
    induction ps with
    | nil => exact fun s' p => p.resolve_left (List.not_mem_nil)
    | cons p ps ih =>
      intro s' here
      rw [List.foldl_cons]
      refine ih _ ?_
      rcases here with listed | none'
      · rcases List.mem_cons.1 listed with same | later
        · cases same
          exact .inr (by simp [kind, hole?_remove])
        · exact .inl later
      · refine .inr ?_
        by_cases placeholder : p.2.kind = .placeholder
        · simp [placeholder, hole?_remove, none']
        · simp [placeholder, none']
  have declared := hole?_of_prunePlaceholders h
  have removed : (prunePlaceholders scope s).hole? l = none :=
    gone (s.createdSince scope) s (.inl (mem_createdSince.2 ⟨declared, outside⟩))
  rw [removed] at h
  cases h

theorem prunePlaceholders_keeps (scope : Scope) (s : Store) :
    (prunePlaceholders scope s).frozen = s.frozen ∧
      (prunePlaceholders scope s).pending = s.pending :=
  prunePlaceholders_induction (R := fun s' => s'.frozen = s.frozen ∧ s'.pending = s.pending)
    ⟨rfl, rfl⟩ fun _ _ _ _ _ _ ih => ih

end Store

end KeyedMatching
