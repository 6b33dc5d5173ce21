import KeyedMatching.Proofs.Matching.Located
import KeyedMatching.Proofs.Matching.Walk

/-!
# Marks

`Term.marks`: how often the variable of an enclosing binder occurs in its body. A walk leaves such a
mark in its result for each occurrence that it chooses (`Term.walk_counts`), so the occurrences that
a search reports are the places in its context, and there is at least one (`Search.run_marks`).
-/

namespace KeyedMatching

/-! ## The variable of a binder -/

/-- The places where the variable of the binder outside a term that stands under `d` binders occurs
in it. -/
def Term.marks (d : Nat) (t : Term) : Nat :=
  (t.preorder d).countP fun (u, e) => u = .rel e

/-- The marks of a list of terms. -/
def Term.marksAll (d : Nat) (xs : List Term) : Nat :=
  (Term.preorderAll d xs).countP fun (u, e) => u = .rel e

section
variable (d : Nat)

@[simp] theorem Term.marksAll_nil : Term.marksAll d [] = 0 :=
  rfl

@[simp] theorem Term.marksAll_cons (x : Term) (xs : List Term) :
    Term.marksAll d (x :: xs) = x.marks d + Term.marksAll d xs := by
  rw [Term.marksAll, Term.preorderAll, List.countP_append]
  rfl

theorem Term.marksAll_append (xs ys : List Term) :
    Term.marksAll d (xs ++ ys) = Term.marksAll d xs + Term.marksAll d ys := by
  induction xs with
  | nil => simp
  | cons x xs ih =>
    rw [List.cons_append, Term.marksAll_cons, Term.marksAll_cons, ih]
    omega

theorem Term.marks_mk (g : Head) (xs : List Term) :
    (Term.mk g xs).marks d = (Term.ofHead g).marks d + Term.marksAll d xs := by
  cases xs with
  | nil => rfl
  | cons x xs =>
    simp only [Term.marks, Term.marksAll, Term.preorder, List.countP_cons, List.countP_append]
    simp
    omega

theorem Term.marks_apply (t : Term) (ys : List Term) :
    (t.apply ys).marks d = t.marks d + Term.marksAll d ys := by
  obtain ⟨g, xs⟩ := t
  rw [Term.apply, Term.marks_mk, Term.marks_mk d g xs, Term.marksAll_append]
  omega

@[simp] theorem Term.marks_rel (i : Nat) : (Term.rel i).marks d = if i = d then 1 else 0 := by
  simp [Term.marks, Term.preorder, Head.inner]

@[simp] theorem Term.marks_sort (n : Nat) : (Term.sort n).marks d = 0 := by
  simp [Term.marks, Term.preorder, Head.inner]

@[simp] theorem Term.marks_const (c : String) : (Term.const c).marks d = 0 := by
  simp [Term.marks, Term.preorder, Head.inner]

@[simp] theorem Term.marks_hole (k : Nat) (xs : List Term) :
    (Term.hole k xs).marks d = Term.marksAll d xs := by
  simp [Term.marks, Term.marksAll, Term.preorder, Head.inner]

@[simp] theorem Term.marks_pi (a b : Term) :
    (Term.pi a b).marks d = a.marks d + b.marks (d + 1) := by
  simp [Term.marks, Term.preorder, Head.inner]

@[simp] theorem Term.marks_lam (a b : Term) :
    (Term.lam a b).marks d = a.marks d + b.marks (d + 1) := by
  simp [Term.marks, Term.preorder, Head.inner]

@[simp] theorem Term.marks_letIn (v a b : Term) :
    (Term.ofHead (.letIn v a b)).marks d = a.marks d + (v.marks d + b.marks (d + 1)) := by
  simp [Term.marks, Term.preorder, Head.inner]

@[simp] theorem Term.marks_cast (t a : Term) :
    (Term.ofHead (.cast t a)).marks d = a.marks d + t.marks d := by
  simp [Term.marks, Term.preorder, Head.inner]

@[simp] theorem Term.marks_case (r s : Term) (bs : List Term) :
    (Term.ofHead (.case r s bs)).marks d = r.marks d + (s.marks d + Term.marksAll d bs) := by
  simp [Term.marks, Term.marksAll, Term.preorder, Head.inner]

@[simp] theorem Term.marks_fix (i : Nat) (as bs : List Term) :
    (Term.ofHead (.fix i as bs)).marks d =
      Term.marksAll d as + Term.marksAll (d + as.length) bs := by
  simp [Term.marks, Term.marksAll, Term.preorder, Head.inner]

end

/-! ## Counting -/

section
variable {σ α β : Type} {occ : Occurrences} {test : OccurrenceTest σ} {inv : σ → Prop}

/-- What a walk has chosen is a number that stands in `Q` with its result. If that is zero, the walk
keeps the invariant. -/
def Walk.Counts (inv : σ → Prop) (x : Walk σ α) (Q : Nat → α → Prop) : Prop :=
  ∀ st a st', x.run st = some (a, st') →
    ∃ n, Q n a ∧ st'.selected = st.selected + n ∧ (n = 0 → inv st.state → inv st'.state)

theorem Walk.counts_pure {a : α} {Q : Nat → α → Prop} (h : Q 0 a) :
    Walk.Counts inv (pure a) Q := by
  intro st b st' hb
  cases hb
  exact ⟨0, h, rfl, fun _ kept => kept⟩

theorem Walk.counts_bind {x : Walk σ α} {f : α → Walk σ β} {P : Nat → α → Prop}
    {Q : Nat → β → Prop} (hx : Walk.Counts inv x P)
    (hf : ∀ a m, P m a → Walk.Counts inv (f a) fun n b => Q (m + n) b) :
    Walk.Counts inv (x >>= f) Q := by
  intro st b st' h
  obtain ⟨a, mid, ha, hb⟩ := Walk.run_bind_iff.1 h
  obtain ⟨m, hm, first, keeps⟩ := hx st a mid ha
  obtain ⟨n, hn, second, keeps'⟩ := hf a m hm mid b st' hb
  refine ⟨m + n, hn, by omega, fun none' kept => ?_⟩
  exact keeps' (by omega) (keeps (by omega) kept)

theorem visit_counts
    (keeps : ∀ u d st r st', inv st → test.occurrenceAt u d st = some (r, st') → inv st')
    (u : Term) (d : Nat) :
    Walk.Counts inv (visit occ test u d) fun n r => n = if r.isSome then 1 else 0 := by
  intro st a st' h
  cases visited_of_run h with
  | passed hr | left hr => exact ⟨0, rfl, rfl, fun _ inside => keeps u d st.state _ _ inside hr⟩
  | chosen => exact ⟨1, rfl, rfl, fun none' => absurd none' (by simp)⟩

/-- A free variable that has made room is not a mark. -/
theorem Head.walk_rel_unmarked (d i : Nat) :
    (Term.rel (if d ≤ i then i + 1 else i)).marks d = 0 := by
  rw [Term.marks_rel, if_neg]
  split <;> omega

mutual

theorem Head.walk_counts
    (keeps : ∀ u d st r st', inv st → test.occurrenceAt u d st = some (r, st') → inv st') :
    (h : Head) → (d : Nat) →
      Walk.Counts inv (h.walk occ test d) fun n g => n = (Term.ofHead g).marks d
  | .rel i, d => Walk.counts_pure (Head.walk_rel_unmarked d i).symm
  | .sort _, _ => Walk.counts_pure (by simp)
  | .const _, _ => Walk.counts_pure (by simp)
  | .hole k xs, d => by
    refine Walk.counts_bind (Term.walkFrom_counts keeps xs d 0) ?_
    rintro xs' n ⟨hxs, _⟩
    exact Walk.counts_pure (by simp [hxs])
  | .pi a b, d => by
    refine Walk.counts_bind (Term.walk_counts keeps a d) ?_
    intro a' m ha
    refine Walk.counts_bind (Term.walk_counts keeps b (d + 1)) ?_
    intro b' n hb
    exact Walk.counts_pure (by simp [ha, hb])
  | .lam a b, d => by
    refine Walk.counts_bind (Term.walk_counts keeps a d) ?_
    intro a' m ha
    refine Walk.counts_bind (Term.walk_counts keeps b (d + 1)) ?_
    intro b' n hb
    exact Walk.counts_pure (by simp [ha, hb])
  | .letIn v a b, d => by
    refine Walk.counts_bind (Term.walk_counts keeps a d) ?_
    intro a' m ha
    refine Walk.counts_bind (Term.walk_counts keeps v d) ?_
    intro v' k hv
    refine Walk.counts_bind (Term.walk_counts keeps b (d + 1)) ?_
    intro b' n hb
    exact Walk.counts_pure (by simp [ha, hv, hb])
  | .cast t a, d => by
    refine Walk.counts_bind (Term.walk_counts keeps a d) ?_
    intro a' m ha
    refine Walk.counts_bind (Term.walk_counts keeps t d) ?_
    intro t' n ht
    exact Walk.counts_pure (by simp [ha, ht])
  | .case r t bs, d => by
    refine Walk.counts_bind (Term.walk_counts keeps r d) ?_
    intro r' m hr
    refine Walk.counts_bind (Term.walk_counts keeps t d) ?_
    intro t' k ht
    refine Walk.counts_bind (Term.walkFrom_counts keeps bs d 0) ?_
    rintro bs' n ⟨hbs, _⟩
    exact Walk.counts_pure (by simp [hr, ht, hbs])
  | .fix i as bs, d => by
    refine Walk.counts_bind (Term.walkFrom_counts keeps as d 0) ?_
    rintro as' m ⟨has, len⟩
    rw [List.drop_zero] at len
    refine Walk.counts_bind (Term.walkFrom_counts keeps bs (d + as.length) 0) ?_
    rintro bs' n ⟨hbs, _⟩
    exact Walk.counts_pure (by simp [has, hbs, len])

/-- A walk leaves a mark for each occurrence that it has chosen. -/
theorem Term.walk_counts
    (keeps : ∀ u d st r st', inv st → test.occurrenceAt u d st = some (r, st') → inv st') :
    (t : Term) → (d : Nat) →
      Walk.Counts inv (t.walk occ test d) fun n t' => n = t'.marks d
  | .mk h [], d => by
    refine Walk.counts_bind (visit_counts keeps (.ofHead h) d) ?_
    intro r m hm
    cases r with
    | some n => exact Walk.counts_pure (by simp [hm])
    | none =>
      refine Walk.counts_bind (Head.walk_counts keeps h d) ?_
      intro g n hg
      exact Walk.counts_pure (by simp [hm, hg])
  | .mk h (x :: xs), d => by
    -- What is done once the head, of which `m` is known, has become `g`.
    have spine (g : Term) (k : Nat) (hg : k = g.marks d) (n : Nat) : Walk.Counts inv
        (do
          let ys ← Term.walkFrom occ test d n (x :: xs)
          return g.apply ys)
        fun m t' => k + m = t'.marks d := by
      refine Walk.counts_bind (Term.walkFrom_counts keeps (x :: xs) d n) ?_
      rintro ys m ⟨hys, _⟩
      exact Walk.counts_pure (by simp [Term.marks_apply, hg, hys])
    refine Walk.counts_bind (visit_counts keeps (.mk h (x :: xs)) d) ?_
    intro r m hm
    cases r with
    | some n => exact spine (.rel d) m (by simp [hm]) n
    | none =>
      obtain rfl : m = 0 := by simpa using hm
      simp only [Nat.zero_add]
      refine Walk.counts_bind (visit_counts keeps (.ofHead h) d) ?_
      intro r m hm
      cases r with
      | some n => exact spine (.rel d) m (by simp [hm]) 0
      | none =>
        obtain rfl : m = 0 := by simpa using hm
        simp only [Nat.zero_add]
        refine Walk.counts_bind (Head.walk_counts keeps h d) ?_
        intro g k hg
        exact spine (.ofHead g) k hg 0

theorem Term.walkFrom_counts
    (keeps : ∀ u d st r st', inv st → test.occurrenceAt u d st = some (r, st') → inv st') :
    (xs : List Term) → (d n : Nat) →
      Walk.Counts inv (Term.walkFrom occ test d n xs) fun m ys =>
        m = Term.marksAll d ys ∧ ys.length = (xs.drop n).length
  | [], _, _ => Walk.counts_pure (by simp)
  | x :: xs, d, 0 => by
    refine Walk.counts_bind (Term.walk_counts keeps x d) ?_
    intro y m hy
    refine Walk.counts_bind (Term.walkFrom_counts keeps xs d 0) ?_
    rintro ys n ⟨hys, len⟩
    rw [List.drop_zero] at len
    exact Walk.counts_pure (by simp [hy, hys, len])
  | x :: xs, d, n + 1 => Term.walkFrom_counts keeps xs d n

end

end

/-! ## Searches -/

/-- A locator keeps looking until an occurrence is chosen. -/
theorem locator_unlocated {cx : Context} {u : Unifier} {scope : Scope} {base : Store}
    {ps : List Pattern} {pass : Pass} (t : Term) (d : Nat) (st : Locating) (r : Option Nat)
    (st' : Locating) (missing : st.located? = none)
    (h : (locator cx u scope base ps pass).occurrenceAt t d st = some (r, st')) :
    st'.located? = none :=
  (step_of_locator h).located_eq.trans missing

namespace Search

variable {cx : Context} {u : Unifier} {scope : Scope} {base : Store} {ps : List Pattern}
  {occ : Occurrences} {target : Term}

theorem passes_marks (todo : List Pass) (found : Nat) :
    (passes cx u scope base ps occ target todo found).Ensures fun r =>
      r.2.2 = r.2.1.marks 0 ∧ 0 < r.2.2 := by
  intro m r m' ran
  obtain ⟨pass, _, sel, walked, located, counted⟩ := passes_walked todo found m r m' ran
  obtain ⟨n, marks, chosen, unlocated⟩ := Term.walk_counts locator_unlocated target 0 _ _ _ walked
  have selected : r.2.2 = n := by rw [counted, chosen, Nat.zero_add]
  refine ⟨selected.trans marks, Nat.pos_of_ne_zero fun nothing => ?_⟩
  -- A walk that chose nothing has located nothing.
  have missing := unlocated (selected.symm.trans nothing) rfl
  exact absurd (located.symm.trans missing) (by simp)

/-- A successful search reports as many occurrences as its context has places, which is at least
one. -/
theorem run_marks (s : Store) (cs : List Candidate) :
    (run cx u s scope cs occ target).Ensures fun r =>
      r.occurrences = r.context.marks 0 ∧ 0 < r.occurrences := by
  unfold run
  refine ExceptT.ensures_bind ExceptT.ensures_true fun _ _ => ?_
  refine ExceptT.ensures_bind ExceptT.ensures_true fun _ _ => ?_
  refine ExceptT.ensures_bind ExceptT.ensures_true fun _ _ => ?_
  refine ExceptT.ensures_bind (passes_marks _ _) fun _ found => ?_
  exact ExceptT.ensures_pure found

end Search

end KeyedMatching
