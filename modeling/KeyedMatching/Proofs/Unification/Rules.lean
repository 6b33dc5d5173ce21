import KeyedMatching.Unification
import KeyedMatching.Proofs.Success
import KeyedMatching.Proofs.Equality.Theory

/-!
# The rules of unification

`Unify.Rules` lists how unification may come to an end: which stores it makes out of which, on what
terms. Attempts that failed, and the unfoldings they used up, are not seen there.
`Unify.Rules.of_unify?` is the induction: a relation closed under the rules holds of every answer.
-/

namespace KeyedMatching

theorem Attempt.ensures_ofAnswer {α : Type} {o : Option α} :
    (Attempt.ofAnswer o).Ensures fun a => o = some a := by
  intro n a n' h
  cases o with
  | none => cases h
  | some b =>
    cases h
    rfl

theorem Attempt.ensures_ofOption {α : Type} {o : Option α} :
    (Attempt.ofOption o).Ensures fun a => o = some a := by
  intro n a n' h
  cases o with
  | none => cases h
  | some b =>
    cases h
    rfl

namespace Unify

/-! ## The rules -/

/-- A relation on pairs of terms carried along two lists, from store to store. -/
inductive Along (R : Store → Term → Term → Store → Prop) :
    Store → List Term → List Term → Store → Prop
  | nil (s : Store) : Along R s [] [] s
  | cons {s s₁ s' x y xs ys} : R s x y s₁ → Along R s₁ xs ys s' → Along R s (x :: xs) (y :: ys) s'

/-- How unification makes two terms equal, from the first store to the second. -/
structure Rules (cx : Context) (mode : UnifyMode) (R : Store → Term → Term → Store → Prop) :
    Prop where
  refl (s : Store) (a : Term) : R s a a s
  symm {s a b s'} : R s a b s' → R s b a s'
  reduce {s a a' b s'} : whnf? cx s a .noDelta = some a' → R s a' b s' → R s a b s'
  instantiate {s a b b' s'} : s.instantiate? b = some b' → R s a b' s' → R s a b s'
  /-- A hole whose instance consists of different variables takes the term, renumbered. -/
  assign {s k vars t t' v s'} : s.instantiate? t = some t' → t'.mentions k = false →
    t'.abstractRels? vars = some v → s.assign? k v = some s' →
    R s (.hole k (vars.map .rel)) t s'
  postpone {s a b} : mode = .higherOrder → R s a b (s.defer { lhs := a, rhs := b })
  hole {s k xs ys s'} : Along R s xs ys s' → R s (.hole k xs) (.hole k ys) s'
  pi {s a a' b b' s₁ s'} : R s a a' s₁ → R s₁ b b' s' → R s (.pi a b) (.pi a' b') s'
  lam {s a a' b b' s₁ s'} : R s a a' s₁ → R s₁ b b' s' → R s (.lam a b) (.lam a' b') s'
  letIn {s v v' a a' b b' s₁ s₂ s'} : R s a a' s₁ → R s₁ v v' s₂ → R s₂ b b' s' →
    R s (.ofHead (.letIn v a b)) (.ofHead (.letIn v' a' b')) s'
  case {s r r' c c' bs bs' s₁ s₂ s'} : R s r r' s₁ → R s₁ c c' s₂ → Along R s₂ bs bs' s' →
    R s (.ofHead (.case r c bs)) (.ofHead (.case r' c' bs')) s'
  fix {s i as as' bs bs' s₁ s'} : Along R s as as' s₁ → Along R s₁ bs bs' s' →
    R s (.ofHead (.fix i as bs)) (.ofHead (.fix i as' bs')) s'
  /-- The last arguments agree, and the rest of one spine agrees with the rest of the other. -/
  spine {s t u xs ys s₁ s'} : R s t u s₁ → Along R s₁ xs ys s' → R s (t.apply xs) (u.apply ys) s'
  canonical {s p h n form ps x es xs ys s₁ s'} : cx.signature.projection? p = some n →
    cx.signature.canonical? p h = some form → ps.length + 1 = n → es.length = form.extra →
    R s x (form.inst.apply es) s₁ → Along R s₁ xs ys s' →
    R s (.mk (.const p) (ps ++ x :: xs)) (.mk (.const h) (es ++ ys)) s'
  unfold {s a a' b s'} : mode ≠ .firstOrder → unfoldHead? cx.signature a = some a' →
    R s a' b s' → R s a b s'

section
variable {cx : Context} {mode : UnifyMode} {R : Store → Term → Term → Store → Prop}
  {again : Store → Term → Term → Attempt Store}

/-- What `again` makes of two terms is in `R`. -/
def Within (again : Store → Term → Term → Attempt Store)
    (R : Store → Term → Term → Store → Prop) : Prop :=
  ∀ s a b, (again s a b).Ensures (R s a b)

theorem pairs_ensures (hagain : Within again R) (xs : List Term) :
    ∀ (s : Store) (ys : List Term), xs.length = ys.length →
      (pairs again s xs ys).Ensures (Along R s xs ys) := by
  induction xs with
  | nil =>
    intro s ys len
    obtain rfl := List.length_eq_zero_iff.1 len.symm
    exact OptionT.ensures_pure (.nil s)
  | cons x xs ih =>
    intro s ys len
    cases ys with
    | nil => cases len
    | cons y ys =>
      refine OptionT.ensures_bind (hagain s x y) fun s₁ h => ?_
      exact (ih s₁ ys (Nat.succ.inj len)).mono fun s' => .cons h

theorem all_ensures (hagain : Within again R) (s : Store) (xs ys : List Term) :
    (all again s xs ys).Ensures (Along R s xs ys) := by
  unfold all
  split
  · next len => exact pairs_ensures hagain xs s ys len
  · exact OptionT.ensures_failure

theorem postpone_ensures (rules : Rules cx mode R) (s : Store) (a b : Term) :
    (postpone mode s a b).Ensures (R s a b) := by
  unfold postpone
  split
  · next on => exact OptionT.ensures_pure (rules.postpone on)
  · exact OptionT.ensures_failure

theorem eq_of_distinctRels? {xs : List Term} {vars : List Nat} (h : distinctRels? xs = some vars) :
    xs = vars.map .rel := by
  induction xs generalizing vars with
  | nil =>
    obtain rfl := Option.some.inj h
    rfl
  | cons x xs ih =>
    unfold distinctRels? at h
    split at h
    · next heq => cases heq
    · next i ys heq =>
      obtain ⟨rfl, rfl⟩ := List.cons.inj heq
      simp only [Option.bind_eq_bind, Option.bind_eq_some_iff] at h
      obtain ⟨is, his, h⟩ := h
      split at h
      · cases h
      · obtain rfl := Option.some.inj h
        rw [ih his, List.map_cons]
    · cases h

theorem eq_of_assignable? {s : Store} {t : Term} {k : Nat} {xs : List Term}
    (h : s.assignable? t = some (k, xs)) : t = .hole k xs := by
  unfold Store.assignable? at h
  split at h
  · split at h
    · obtain ⟨rfl, rfl⟩ := Prod.mk.inj (Option.some.inj h)
      rfl
    · cases h
  · cases h

theorem solveOr_ensures (rules : Rules cx mode R) (hagain : Within again R)
    {other : Term → Attempt Store} {s : Store} {k : Nat} {xs : List Term} {t : Term}
    (hother : ∀ t', s.instantiate? t = some t' → (other t').Ensures (R s (.hole k xs) t')) :
    (solveOr mode again other s k xs (.hole k xs) t).Ensures (R s (.hole k xs) t) := by
  unfold solveOr
  refine OptionT.ensures_bind Attempt.ensures_ofAnswer fun t' ht => ?_
  have put {s'} : R s (.hole k xs) t' s' → R s (.hole k xs) t s' := rules.instantiate ht
  extract_lets solve
  have solved : OptionT.Ensures solve (R s (.hole k xs) t) := by
    simp only [solve]
    split
    · exact OptionT.ensures_failure
    · next absent =>
      split
      · next v hv =>
        obtain ⟨vars, hvars, renumbered⟩ := Option.bind_eq_some_iff.1 hv
        refine Attempt.ensures_ofOption.mono fun s' hs' => ?_
        rw [eq_of_distinctRels? hvars]
        exact rules.assign ht (by simpa using absent) renumbered hs'
      · exact OptionT.ensures_orElse ((hother t' ht).mono fun _ => put)
          ((postpone_ensures rules s _ t').mono fun _ => put)
  clear_value solve
  split
  · next l ys =>
    split
    · next same =>
      subst same
      exact (all_ensures hagain s xs ys).mono fun s' h => put (rules.hole h)
    · exact solved
  · exact solved

theorem solve_ensures (rules : Rules cx mode R) (hagain : Within again R) (s : Store) (k : Nat)
    (xs : List Term) (t : Term) :
    (solve mode again s k xs (.hole k xs) t).Ensures (R s (.hole k xs) t) := by
  unfold solve
  refine solveOr_ensures rules hagain fun t' _ => ?_
  split
  · next l ys ht' =>
    obtain rfl := eq_of_assignable? ht'
    exact (solveOr_ensures rules hagain fun _ _ => OptionT.ensures_failure).mono
      fun _ => rules.symm
  · exact OptionT.ensures_failure

theorem heads_ensures (rules : Rules cx mode R) (hagain : Within again R) (s : Store)
    (f g : Head) : (heads again s f g).Ensures (R s (.ofHead f) (.ofHead g)) := by
  unfold heads
  split
  · split
    · next same => exact same ▸ OptionT.ensures_pure (rules.refl s _)
    · exact OptionT.ensures_failure
  · split
    · next same => exact same ▸ OptionT.ensures_pure (rules.refl s _)
    · exact OptionT.ensures_failure
  · split
    · next same => exact same ▸ OptionT.ensures_pure (rules.refl s _)
    · exact OptionT.ensures_failure
  · split
    · next same =>
      subst same
      exact (all_ensures hagain s _ _).mono fun _ => rules.hole
    · exact OptionT.ensures_failure
  · refine OptionT.ensures_bind (hagain _ _ _) fun s₁ ha => ?_
    exact (hagain _ _ _).mono fun _ => rules.pi ha
  · refine OptionT.ensures_bind (hagain _ _ _) fun s₁ ha => ?_
    exact (hagain _ _ _).mono fun _ => rules.lam ha
  · refine OptionT.ensures_bind (hagain _ _ _) fun s₁ ha => ?_
    refine OptionT.ensures_bind (hagain _ _ _) fun s₂ hv => ?_
    exact (hagain _ _ _).mono fun _ => rules.letIn ha hv
  · refine OptionT.ensures_bind (hagain _ _ _) fun s₁ hr => ?_
    refine OptionT.ensures_bind (hagain _ _ _) fun s₂ hc => ?_
    exact (all_ensures hagain _ _ _).mono fun _ => rules.case hr hc
  · split
    · next same =>
      subst same
      refine OptionT.ensures_bind (all_ensures hagain _ _ _) fun s₁ has => ?_
      exact (all_ensures hagain _ _ _).mono fun _ => rules.fix has
    · exact OptionT.ensures_failure
  · exact OptionT.ensures_failure

theorem spines_ensures (rules : Rules cx mode R) (hagain : Within again R) (s : Store) (f : Head)
    (xs : List Term) (g : Head) (ys : List Term) :
    (spines again s f xs g ys).Ensures (R s (.mk f xs) (.mk g ys)) := by
  unfold spines
  refine OptionT.ensures_bind (hagain _ _ _) fun s₁ h => ?_
  refine (all_ensures hagain _ _ _).mono fun s' hs => ?_
  have whole := rules.spine h hs
  simpa only [Term.apply, List.take_append_drop] using whole

theorem tops_ensures (rules : Rules cx mode R) (hagain : Within again R) (s : Store)
    (a b : Term) : (tops again s a b).Ensures (R s a b) := by
  unfold tops
  split
  · exact heads_ensures rules hagain s _ _
  · exact spines_ensures rules hagain s _ _ _ _
  · exact OptionT.ensures_failure

theorem canonical_ensures (rules : Rules cx mode R) (hagain : Within again R) (s : Store)
    (a b : Term) : (canonical cx again s a b).Ensures (R s a b) := by
  unfold canonical
  split
  · next p xs h ys =>
    split
    · next n form hp hc =>
      split
      · exact OptionT.ensures_failure
      · next pos =>
        split
        · exact OptionT.ensures_failure
        · next x hx =>
          dsimp only
          split
          · exact fun _ _ _ h => by cases h
          · split
            · next len =>
              refine OptionT.ensures_bind (hagain _ _ _) fun s₁ hinst => ?_
              refine (all_ensures hagain _ _ _).mono fun s' hown => ?_
              obtain ⟨inside, rfl⟩ := List.getElem?_eq_some_iff.1 hx
              have params : (xs.take (n - 1)).length + 1 = n := by
                rw [List.length_take]
                omega
              have extra : (ys.take form.extra).length = form.extra := by
                rw [List.length_take, len]
                simp only [Canonical.span]
                omega
              have whole := rules.canonical hp hc params extra hinst hown
              have spine : xs.take (n - 1) ++ xs[n - 1] :: xs.drop n = xs := by
                obtain ⟨m, rfl⟩ : ∃ m, n = m + 1 := ⟨n - 1, by omega⟩
                simp only [Nat.add_sub_cancel] at inside ⊢
                rw [← List.drop_eq_getElem_cons inside, List.take_append_drop]
              rwa [spine, List.take_append_drop] at whole
            · exact OptionT.ensures_failure
    · exact OptionT.ensures_failure
  · exact OptionT.ensures_failure

theorem unfold_ensures (rules : Rules cx mode R) (hagain : Within again R)
    (on : mode ≠ .firstOrder) (s : Store) (a b : Term) :
    (unfold cx again s a b).Ensures (R s a b) := by
  have head {fuel : Nat} {t : Term} : (Attempt.ofOption
      (if fuel = 0 then none else unfoldHead? cx.signature t)).Ensures
      fun t' => unfoldHead? cx.signature t = some t' := by
    refine Attempt.ensures_ofOption.mono fun t' ht => ?_
    split at ht
    · cases ht
    · exact ht
  unfold unfold
  refine OptionT.ensures_orElse ?_ ?_
  · refine OptionT.ensures_bind OptionT.ensures_true fun fuel _ => ?_
    refine OptionT.ensures_bind head fun a' ha => ?_
    refine OptionT.ensures_bind OptionT.ensures_true fun _ _ => ?_
    exact (hagain s a' b).mono fun _ => rules.unfold on ha
  · refine OptionT.ensures_bind OptionT.ensures_true fun fuel _ => ?_
    refine OptionT.ensures_bind head fun b' hb => ?_
    refine OptionT.ensures_bind OptionT.ensures_true fun _ _ => ?_
    exact (hagain s a b').mono fun _ h => rules.symm (rules.unfold on hb (rules.symm h))

theorem step_ensures (rules : Rules cx mode R) (hagain : Within again R) :
    Within (step cx mode again) R := by
  intro s a b
  unfold step
  split
  · next same => exact same ▸ OptionT.ensures_pure (rules.refl s a)
  · refine OptionT.ensures_bind Attempt.ensures_ofAnswer fun a' ha => ?_
    refine OptionT.ensures_bind Attempt.ensures_ofAnswer fun b' hb => ?_
    have reduced {s'} (h : R s a' b' s') : R s a b s' :=
      rules.reduce ha (rules.symm (rules.reduce hb (rules.symm h)))
    refine OptionT.Ensures.mono (P := R s a' b') ?_ fun s' => reduced
    split
    · next same => exact same ▸ OptionT.ensures_pure (rules.refl s a')
    · split
      · next k xs hk =>
        obtain rfl := eq_of_assignable? hk
        exact solve_ensures rules hagain s k xs b'
      · next k xs _ hk =>
        obtain rfl := eq_of_assignable? hk
        exact (solve_ensures rules hagain s k xs a').mono fun _ => rules.symm
      · refine OptionT.ensures_orElse (tops_ensures rules hagain s a' b') ?_
        refine OptionT.ensures_orElse (canonical_ensures rules hagain s a' b') ?_
        refine OptionT.ensures_orElse
          ((canonical_ensures rules hagain s b' a').mono fun _ => rules.symm) ?_
        refine OptionT.ensures_orElse ?_ ?_
        · split
          · exact OptionT.ensures_failure
          · next on => exact unfold_ensures rules hagain on s a' b'
        · split
          · exact postpone_ensures rules s a' b'
          · exact OptionT.ensures_failure

theorem within_ensures (rules : Rules cx mode R) (n : Nat) : Within (within cx mode n) R := by
  induction n with
  | zero => exact fun _ _ _ _ _ _ h => by cases h
  | succ n ih => exact step_ensures rules ih

theorem ensures_of_run {α : Type} {x : Attempt α} {Q : α → Prop} (hx : x.Ensures Q) {a : α}
    (h : run cx x = some (some a)) : Q a := by
  simp only [run, Option.map_eq_some_iff, Prod.exists] at h
  obtain ⟨_, n', ha, rfl⟩ := h
  exact hx _ a n' ha

/-- A relation closed under the rules holds of every answer. -/
theorem Rules.of_unify? (rules : Rules cx mode R) {s s' : Store} {a b : Term}
    (h : unify? cx mode s a b = some (some s')) : R s a b s' :=
  ensures_of_run (within_ensures rules cx.depth s a b) h

end

end Unify

end KeyedMatching
