import KeyedMatching.Proofs.Equality.Theory
import KeyedMatching.Proofs.Holes.Widening
import KeyedMatching.Unification

/-!
# Two problems in tandem

One problem is unified in two stores, the second time with renumbered holes. If the stores agree in
what unification asks of them, and each change can be made to both, then the second attempt follows
the first step by step.

* `Unify.Tandem`: what it takes of the relation between the stores, and of the one between attempts;
* `Unify.Tandem.step_related`: one step keeps the stores related, if the comparisons inside it do;
* `Unify.Tandem.within_related`: so does unification, the second time recursing at least as deep.
-/

namespace KeyedMatching

/-- The terms of the signature mention no hole that gets another number. -/
abbrev Signature.Fixed (g : Signature) (ρ : Nat → Nat) : Prop :=
  g.Over fun k _ => ρ k = k

/-- The term mentions no hole that gets another number. -/
abbrev Term.Fixed (t : Term) (ρ : Nat → Nat) : Prop :=
  t.Over fun k _ => ρ k = k

section
variable {cx : Context} {ρ : Nat → Nat} {s s' : Store}

theorem Term.renumber_eq_of_fixed {t : Term} (h : t.Fixed ρ) : t.renumber ρ = t :=
  Term.renumber_eq_self (Term.over_holes.1 h)

theorem unfoldHead?_renumber (fixed : cx.signature.Fixed ρ) (t : Term) :
    unfoldHead? cx.signature (t.renumber ρ) = (unfoldHead? cx.signature t).map (·.renumber ρ) := by
  obtain ⟨g, xs⟩ := t
  cases g with
  | const c =>
    change (cx.signature.definition? c).map _ = ((cx.signature.definition? c).map _).map _
    cases hd : cx.signature.definition? c with
    | none => rfl
    | some d =>
      have body := Term.renumber_eq_of_fixed (fixed.definitions c d hd)
      simp only [Option.map_some, Term.renumber_betaApply, body, Term.renumberAll_eq_map]
  | _ => rfl

theorem distinctRels?_renumber (xs : List Term) :
    distinctRels? (xs.map (·.renumber ρ)) = distinctRels? xs := by
  induction xs with
  | nil => rfl
  | cons x xs ih =>
    obtain ⟨g, ys⟩ := x
    cases g with
    | rel i =>
      cases ys with
      | nil =>
        change (distinctRels? (xs.map (Term.renumber ρ))).bind _ = _
        rw [ih]
        rfl
      | cons y ys => rfl
    | _ => cases ys <;> rfl

/-- A hole with its instance. -/
def renumberHole (ρ : Nat → Nat) (p : Nat × List Term) : Nat × List Term :=
  (ρ p.1, p.2.map (·.renumber ρ))

theorem Store.assignable?_renumber (h : ∀ k, s'.isAssignable (ρ k) = s.isAssignable k)
    (t : Term) : s'.assignable? (t.renumber ρ) = (s.assignable? t).map (renumberHole ρ) := by
  obtain ⟨g, xs⟩ := t
  cases g with
  | hole k inst =>
    cases xs with
    | nil =>
      change (if s'.isAssignable (ρ k) then some (ρ k, Term.renumberAll ρ inst) else none) =
        (if s.isAssignable k then some (k, inst) else none).map (renumberHole ρ)
      rw [h k, Term.renumberAll_eq_map]
      split <;> rfl
    | cons x xs => rfl
  | _ => cases xs <;> rfl

theorem Store.isFlexible_renumber (h : ∀ k, s'.isAssignable (ρ k) = s.isAssignable k) (t : Term) :
    s'.isFlexible (t.renumber ρ) = s.isFlexible t := by
  simp only [Store.isFlexible, Term.headHole?_renumber]
  cases t.headHole? with
  | none => rfl
  | some k => exact h k

namespace Unify

/-- The comparisons are in step. -/
def InStep (ρ : Nat → Nat) (L : Lifting Attempt) (W : Store → Store → Prop)
    (again again' : Store → Term → Term → Attempt Store) : Prop :=
  ∀ s s' a b, W s s' → L.Related W (again s a b) (again' s' (a.renumber ρ) (b.renumber ρ))

/-- Stores that are related by `W` agree in what unification asks of them and stay related when it
changes both, and attempts that are related by `L` may fail, be tried in turn and be cut off
together; of the unfoldings that are left, no more than whether there are any is asked. -/
structure Tandem (cx : Context) (ρ : Nat → Nat) (L : Lifting Attempt)
    (W : Store → Store → Prop) : Prop where
  fixed : cx.signature.Fixed ρ
  failed {α : Type} {R : α → α → Prop} : L.Related R failure failure
  tried {α : Type} {R : α → α → Prop} {x x' y y' : Attempt α} : L.Related R x x' →
    L.Related R y y' → L.Related R (x <|> y) (x' <|> y')
  cut {α : Type} {R : α → α → Prop} {x' : Attempt α} : L.Related R (Attempt.ofAnswer none) x'
  asked : L.Related (fun n n' => n = 0 ↔ n' = 0) get get
  spent : L.Related (fun _ _ => True) Attempt.spend Attempt.spend
  inj {s s' : Store} : W s s' → Function.Injective ρ
  whnf? {s s' : Store} : W s s' → ∀ t, Lifting.option.Related (Maps (Term.renumber ρ))
    (KeyedMatching.whnf? cx s t .noDelta) (KeyedMatching.whnf? cx s' (t.renumber ρ) .noDelta)
  instantiate? {s s' : Store} : W s s' → ∀ t, Lifting.option.Related (Maps (Term.renumber ρ))
    (s.instantiate? t) (s'.instantiate? (t.renumber ρ))
  isAssignable {s s' : Store} : W s s' → ∀ k, s'.isAssignable (ρ k) = s.isAssignable k
  assign? {s s' : Store} : W s s' → ∀ k v,
    Option.Rel W (s.assign? k v) (s'.assign? (ρ k) (v.renumber ρ))
  defer {s s' : Store} : W s s' → ∀ a b,
    W (s.defer ⟨a, b⟩) (s'.defer ⟨a.renumber ρ, b.renumber ρ⟩)

namespace Tandem

variable {mode : UnifyMode} {again again' : Store → Term → Term → Attempt Store}
  {L : Lifting Attempt} {W : Store → Store → Prop} (T : Tandem cx ρ L W)

theorem pairs_related (next : InStep ρ L W again again') (h : W s s') (xs ys : List Term) :
    L.Related W (pairs again s xs ys)
      (pairs again' s' (xs.map (·.renumber ρ)) (ys.map (·.renumber ρ))) := by
  induction xs generalizing s s' ys with
  | nil => exact L.pure h
  | cons x xs ih =>
    cases ys with
    | nil => exact L.pure h
    | cons y ys => exact L.bind (next s s' x y h) fun _ _ h₁ => ih h₁ ys

include T

theorem answered {α : Type} {R : α → α → Prop} {o o' : Option α}
    (h : Lifting.option.Related R o o') :
    L.Related R (Attempt.ofAnswer o) (Attempt.ofAnswer o') := by
  cases o with
  | none => exact T.cut
  | some a =>
    obtain ⟨a', rfl, r⟩ := h a rfl
    exact L.pure r

theorem ofOption {α : Type} {R : α → α → Prop} {o o' : Option α} (h : Option.Rel R o o') :
    L.Related R (Attempt.ofOption o) (Attempt.ofOption o') := by
  cases h with
  | some h => exact L.pure h
  | none => exact T.failed

theorem all_related (next : InStep ρ L W again again') (h : W s s') (xs ys : List Term) :
    L.Related W (all again s xs ys)
      (all again' s' (xs.map (·.renumber ρ)) (ys.map (·.renumber ρ))) := by
  unfold all
  rw [List.length_map, List.length_map]
  split
  · exact pairs_related next h xs ys
  · exact T.failed

theorem postpone_related (h : W s s') (a b : Term) :
    L.Related W (postpone mode s a b)
      (postpone mode s' (a.renumber ρ) (b.renumber ρ)) := by
  unfold postpone
  split
  · exact L.pure (T.defer h a b)
  · exact T.failed

/-- What is tried against a term that is not a hole of the same number. -/
theorem solveElse_related (h : W s s') {other other' : Term → Attempt Store}
    (hother : ∀ t, L.Related W (other t) (other' (t.renumber ρ)))
    (k : Nat) (inst : List Term) (hole t : Term) :
    L.Related W
      (if t.mentions k then failure
        else match (distinctRels? inst).bind t.abstractRels? with
          | some value => Attempt.ofOption (s.assign? k value)
          | none => other t <|> postpone mode s hole t)
      (if (t.renumber ρ).mentions (ρ k) then failure
        else match (distinctRels? (inst.map (·.renumber ρ))).bind (t.renumber ρ).abstractRels? with
          | some value => Attempt.ofOption (s'.assign? (ρ k) value)
          | none =>
            other' (t.renumber ρ) <|> postpone mode s' (hole.renumber ρ) (t.renumber ρ)) := by
  have value : (distinctRels? (inst.map (·.renumber ρ))).bind (t.renumber ρ).abstractRels? =
      ((distinctRels? inst).bind t.abstractRels?).map (·.renumber ρ) := by
    rw [distinctRels?_renumber]
    cases distinctRels? inst with
    | none => rfl
    | some vars => exact Term.abstractRels?_renumber t vars
  rw [Term.mentions_renumber (T.inj h), value]
  split
  · exact T.failed
  · cases (distinctRels? inst).bind t.abstractRels? with
    | some v => exact T.ofOption (T.assign? h k v)
    | none => exact T.tried (hother t) (T.postpone_related h hole t)

theorem solveOr_related (next : InStep ρ L W again again') (h : W s s')
    {other other' : Term → Attempt Store}
    (hother : ∀ t, L.Related W (other t) (other' (t.renumber ρ)))
    (k : Nat) (inst : List Term) (hole t : Term) :
    L.Related W (solveOr mode again other s k inst hole t)
      (solveOr mode again' other' s' (ρ k) (inst.map (·.renumber ρ)) (hole.renumber ρ)
        (t.renumber ρ)) := by
  refine L.bind (T.answered (T.instantiate? h t)) fun t t' ht => ?_
  subst ht
  obtain ⟨g, xs⟩ := t
  cases g with
  | hole l inst' =>
    cases xs with
    | nil =>
      change L.Related _ (if l = k then all again s inst inst' else _)
        (if ρ l = ρ k then all again' s' _ (Term.renumberAll ρ inst') else _)
      by_cases same : l = k
      · rw [if_pos same, if_pos (congrArg ρ same), Term.renumberAll_eq_map]
        exact T.all_related next h inst inst'
      · rw [if_neg same, if_neg fun e => same (T.inj h e)]
        exact T.solveElse_related h hother k inst hole _
    | cons x xs => exact T.solveElse_related h hother k inst hole _
  | _ => cases xs <;> exact T.solveElse_related h hother k inst hole _

theorem solve_related (next : InStep ρ L W again again') (h : W s s') (k : Nat)
    (inst : List Term) (hole t : Term) :
    L.Related W (solve mode again s k inst hole t)
      (solve mode again' s' (ρ k) (inst.map (·.renumber ρ)) (hole.renumber ρ) (t.renumber ρ)) := by
  refine T.solveOr_related next h (fun t => ?_) k inst hole t
  rw [Store.assignable?_renumber (T.isAssignable h)]
  cases s.assignable? t with
  | none => exact T.failed
  | some p =>
    refine T.solveOr_related next h ?_ p.1 p.2 t hole
    exact fun _ => T.failed

/-- A comparison of what has no holes. -/
theorem ite_related (h : W s s') (same : Prop) [Decidable same] :
    L.Related W (if same then pure s else failure)
      (if same then pure s' else failure) := by
  split
  · exact L.pure h
  · exact T.failed

theorem heads_related (next : InStep ρ L W again again') (h : W s s') (f g : Head) :
    L.Related W (heads again s f g)
      (heads again' s' (f.renumber ρ) (g.renumber ρ)) := by
  cases f with
  | rel i =>
    cases g with
    | rel j => exact T.ite_related h (i = j)
    | _ => exact T.failed
  | sort m =>
    cases g with
    | sort n => exact T.ite_related h (m = n)
    | _ => exact T.failed
  | const c =>
    cases g with
    | const d => exact T.ite_related h (c = d)
    | _ => exact T.failed
  | hole k xs =>
    cases g with
    | hole l ys =>
      change L.Related _ (if k = l then all again s xs ys else failure)
        (if ρ k = ρ l then all again' s' (Term.renumberAll ρ xs) (Term.renumberAll ρ ys)
          else failure)
      rw [Term.renumberAll_eq_map, Term.renumberAll_eq_map]
      by_cases same : k = l
      · rw [if_pos same, if_pos (congrArg ρ same)]
        exact T.all_related next h xs ys
      · rw [if_neg same, if_neg fun e => same (T.inj h e)]
        exact T.failed
    | _ => exact T.failed
  | pi a b =>
    cases g with
    | pi c d => exact L.bind (next s s' a c h) fun s₁ s₁' h₁ => next s₁ s₁' b d h₁
    | _ => exact T.failed
  | lam a b =>
    cases g with
    | lam c d => exact L.bind (next s s' a c h) fun s₁ s₁' h₁ => next s₁ s₁' b d h₁
    | _ => exact T.failed
  | letIn v a b =>
    cases g with
    | letIn w c d =>
      refine L.bind (next s s' a c h) fun s₁ s₁' h₁ => ?_
      exact L.bind (next s₁ s₁' v w h₁) fun s₂ s₂' h₂ => next s₂ s₂' b d h₂
    | _ => exact T.failed
  | case r t bs =>
    cases g with
    | case q u cs =>
      refine L.bind (next s s' r q h) fun s₁ s₁' h₁ => ?_
      refine L.bind (next s₁ s₁' t u h₁) fun s₂ s₂' h₂ => ?_
      rw [Term.renumberAll_eq_map, Term.renumberAll_eq_map]
      exact T.all_related next h₂ bs cs
    | _ => exact T.failed
  | fix i as bs =>
    cases g with
    | fix j cs ds =>
      change L.Related _
        (if i = j then do
          let s ← all again s as cs
          all again s bs ds
        else failure)
        (if i = j then do
          let s ← all again' s' (Term.renumberAll ρ as) (Term.renumberAll ρ cs)
          all again' s (Term.renumberAll ρ bs) (Term.renumberAll ρ ds)
        else failure)
      simp only [Term.renumberAll_eq_map]
      split
      · exact L.bind (T.all_related next h as cs) fun s₁ s₁' h₁ =>
          T.all_related next h₁ bs ds
      · exact T.failed
    | _ => exact T.failed
  | cast t a => cases g <;> exact T.failed

theorem spines_related (next : InStep ρ L W again again') (h : W s s') (f g : Head)
    (xs ys : List Term) :
    L.Related W (spines again s f xs g ys)
      (spines again' s' (f.renumber ρ) (xs.map (·.renumber ρ)) (g.renumber ρ)
        (ys.map (·.renumber ρ))) := by
  unfold spines
  simp only [List.length_map, ← List.map_take, ← List.map_drop, ← Term.renumber_mk]
  exact L.bind (next s s' _ _ h) fun s₁ s₁' h₁ => T.all_related next h₁ _ _

theorem tops_related (next : InStep ρ L W again again') (h : W s s') (a b : Term) :
    L.Related W (tops again s a b)
      (tops again' s' (a.renumber ρ) (b.renumber ρ)) := by
  obtain ⟨f, xs⟩ := a
  obtain ⟨g, ys⟩ := b
  rw [Term.renumber_mk, Term.renumber_mk]
  cases xs with
  | nil =>
    cases ys with
    | nil => exact T.heads_related next h f g
    | cons y ys => exact T.failed
  | cons x xs =>
    cases ys with
    | nil => exact T.failed
    | cons y ys => exact T.spines_related next h f g (x :: xs) (y :: ys)

theorem canonical_related (next : InStep ρ L W again again')
    (h : W s s') (t u : Term) :
    L.Related W (canonical cx again s t u)
      (canonical cx again' s' (t.renumber ρ) (u.renumber ρ)) := by
  obtain ⟨f, xs⟩ := t
  obtain ⟨g, ys⟩ := u
  rw [Term.renumber_mk, Term.renumber_mk]
  cases f with
  | const p =>
    cases g with
    | const c =>
      unfold canonical
      simp only [Head.renumber]
      cases cx.signature.projection? p with
      | none => exact T.failed
      | some params =>
        cases hform : cx.signature.canonical? p c with
        | none => exact T.failed
        | some form =>
          have instance_ := Term.renumber_eq_of_fixed (T.fixed.canonicals p c form hform)
          simp only [List.getElem?_map, ← List.map_drop, ← List.map_take, List.length_map]
          split
          · exact T.failed
          · cases xs[params - 1]? with
            | none => exact T.failed
            | some x =>
              simp only [Option.map_some]
              split
              · exact T.cut
              · split
                · have structures := next s s' x (form.inst.apply (ys.take form.extra)) h
                  rw [Term.renumber_apply, instance_] at structures
                  exact L.bind structures fun s₁ s₁' h₁ => T.all_related next h₁ _ _
                · exact T.failed
    | _ => exact T.failed
  | _ => cases g <;> exact T.failed

/-- Going on with the definition of a head for it. -/
theorem unfolded_related (t : Term) {k k' : Term → Attempt Store}
    (hk : ∀ u, L.Related W (k u) (k' (u.renumber ρ))) :
    L.Related W
      (do
        let u ← Attempt.ofOption (if (← get) = 0 then none else unfoldHead? cx.signature t)
        Attempt.spend
        k u)
      (do
        let u ← Attempt.ofOption (if (← get) = 0 then none
          else unfoldHead? cx.signature (t.renumber ρ))
        Attempt.spend
        k' u) := by
  refine L.bind T.asked fun n n' same => ?_
  have unfolded : Option.Rel (Maps (Term.renumber ρ))
      (if n = 0 then none else unfoldHead? cx.signature t)
      (if n' = 0 then none else unfoldHead? cx.signature (t.renumber ρ)) := by
    by_cases none' : n = 0
    · rw [if_pos none', if_pos (same.1 none')]
      exact .none
    · rw [if_neg none', if_neg fun none'' => none' (same.2 none''), unfoldHead?_renumber T.fixed]
      cases unfoldHead? cx.signature t with
      | none => exact .none
      | some u => exact .some rfl
  refine L.bind (T.ofOption unfolded) fun u u' hu => ?_
  refine L.bind T.spent fun _ _ _ => ?_
  rw [hu]
  exact hk u

theorem unfold_related (next : InStep ρ L W again again')
    (h : W s s') (a b : Term) :
    L.Related W (unfold cx again s a b)
      (unfold cx again' s' (a.renumber ρ) (b.renumber ρ)) :=
  T.tried (T.unfolded_related a fun u => next s s' u b h)
    (T.unfolded_related b fun u => next s s' a u h)

/-- One step of unification keeps the stores in step, if the comparisons inside it do. -/
theorem step_related (next : InStep ρ L W again again') :
    InStep ρ L W (step cx mode again) (step cx mode again') := by
  intro s s' a b h
  have done (a b : Term) {x x' : Attempt Store}
      (hx : L.Related W x x') :
      L.Related W (if a = b then pure s else x)
        (if a.renumber ρ = b.renumber ρ then pure s' else x') := by
    simp only [Term.renumber_inj (T.inj h)]
    split
    · exact L.pure h
    · exact hx
  refine done a b ?_
  refine L.bind (T.answered (T.whnf? h a))
    fun a a' ha => ?_
  refine L.bind (T.answered (T.whnf? h b))
    fun b b' hb => ?_
  subst ha hb
  refine done a b ?_
  rw [Store.assignable?_renumber (T.isAssignable h), Store.assignable?_renumber (T.isAssignable h)]
  cases s.assignable? a with
  | some p => exact T.solve_related next h p.1 p.2 a b
  | none =>
    cases s.assignable? b with
    | some p => exact T.solve_related next h p.1 p.2 b a
    | none =>
      refine T.tried (T.tops_related next h a b) ?_
      refine T.tried (T.canonical_related next h a b) ?_
      refine T.tried (T.canonical_related next h b a) ?_
      refine T.tried ?_ ?_
      · split
        · exact T.failed
        · exact T.unfold_related next h a b
      · rw [Store.isFlexible_renumber (T.isAssignable h),
          Store.isFlexible_renumber (T.isAssignable h)]
        split
        · exact T.postpone_related h a b
        · exact T.failed

/-- Unification keeps the stores in step, also where it recurses deeper in the second. -/
theorem within_related {n m : Nat} (deeper : n ≤ m) :
    InStep ρ L W (within cx mode n) (within cx mode m) := by
  induction n generalizing m with
  | zero => exact fun _ _ _ _ _ => T.cut
  | succ n ih =>
    cases m with
    | zero => cases deeper
    | succ m => exact T.step_related (ih (Nat.le_of_succ_le_succ deeper))

end Tandem

end Unify

end

end KeyedMatching
