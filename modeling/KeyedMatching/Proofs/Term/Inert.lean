import KeyedMatching.Proofs.Term.Copies

/-!
# Inert terms

A term without holes, local definitions and casts, in which no abstraction is applied: there is
nothing to be assigned in it, nor to be reduced without unfolding a constant.

* `Term.isInert`, with what it is for the parts of a term and for a copy (`Term.isInert_lift`);
* `Term.over_of_isInert`: there is no hole;
* `Term.size`: the number of constructions. A node of a term is no larger than the term
  (`Term.size_le_of_mem_preorder`), and a copy is as large as what it is a copy of
  (`Term.size_lift`);
* `Term.replaceM_eq_pure`: where no node is replaced the term stays as it is.
-/

namespace KeyedMatching

mutual

/-- `Term.isInert` for heads. -/
def Head.isInert : Head → Bool
  | .rel _ | .sort _ | .const _ => true
  | .hole _ _ | .letIn _ _ _ | .cast _ _ => false
  | .pi a b | .lam a b => a.isInert && b.isInert
  | .case r s bs => r.isInert && s.isInert && Term.areInert bs
  | .fix _ as bs => Term.areInert as && Term.areInert bs

/-- Is there no hole, no local definition, no cast and no applied abstraction in the term? -/
def Term.isInert : Term → Bool
  | .mk h xs => h.isInert && (h.shape ≠ .lam || xs.isEmpty) && Term.areInert xs

/-- `Term.isInert` for each term of a list. -/
def Term.areInert : List Term → Bool
  | [] => true
  | x :: xs => x.isInert && Term.areInert xs

end

mutual

/-- `Term.size` for heads. -/
def Head.size : Head → Nat
  | .rel _ | .sort _ | .const _ => 1
  | .hole _ xs => 1 + Term.sizes xs
  | .pi a b | .lam a b => 1 + a.size + b.size
  | .letIn v a b => 1 + v.size + a.size + b.size
  | .cast t a => 1 + t.size + a.size
  | .case r s bs => 1 + r.size + s.size + Term.sizes bs
  | .fix _ as bs => 1 + Term.sizes as + Term.sizes bs

/-- The number of constructions in a term. -/
def Term.size : Term → Nat
  | .mk h xs => h.size + Term.sizes xs

/-- The constructions in a list of terms. -/
def Term.sizes : List Term → Nat
  | [] => 0
  | x :: xs => x.size + Term.sizes xs

end

/-! ## Parts -/

section
variable {h : Head} {xs : List Term}

theorem Term.areInert_iff : Term.areInert xs = true ↔ ∀ x ∈ xs, x.isInert = true := by
  induction xs with
  | nil => simp [Term.areInert]
  | cons x xs ih => simp [Term.areInert, ih]

theorem Term.isInert_mk : (Term.mk h xs).isInert = true ↔
    h.isInert = true ∧ (h.shape = .lam → xs = []) ∧ ∀ x ∈ xs, x.isInert = true := by
  have unapplied : (h.shape ≠ .lam ∨ xs = []) ↔ (h.shape = .lam → xs = []) :=
    imp_iff_not_or.symm
  simp [Term.isInert, Term.areInert_iff, unapplied, and_assoc]

theorem Term.isInert_ofHead : (Term.ofHead h).isInert = h.isInert := by
  simp [Term.isInert, Term.areInert]

/-- The head with some arguments of an inert term. -/
theorem Term.isInert_prefix {t : Term} (inert : t.isInert = true) (n : Nat) :
    (Term.mk t.head (t.args.take n)).isInert = true := by
  obtain ⟨h, xs⟩ := t
  obtain ⟨head, unapplied, args⟩ := Term.isInert_mk.1 inert
  refine Term.isInert_mk.2 ⟨head, fun lam => ?_, fun x hx => args x (List.mem_of_mem_take hx)⟩
  change xs.take n = []
  rw [unapplied lam, List.take_nil]

theorem Head.size_pos (h : Head) : 0 < h.size := by
  cases h <;> simp only [Head.size] <;> omega

theorem Term.sizes_append (xs ys : List Term) :
    Term.sizes (xs ++ ys) = Term.sizes xs + Term.sizes ys := by
  induction xs with
  | nil => simp [Term.sizes]
  | cons x xs ih =>
    rw [List.cons_append, Term.sizes, Term.sizes, ih]
    omega

theorem Term.sizes_take_add_drop (xs : List Term) (n : Nat) :
    Term.sizes (xs.take n) + Term.sizes (xs.drop n) = Term.sizes xs := by
  rw [← Term.sizes_append, List.take_append_drop]

theorem Term.sizes_pos (some_xs : xs ≠ []) : 0 < Term.sizes xs := by
  cases xs with
  | nil => exact absurd rfl some_xs
  | cons x xs =>
    obtain ⟨h, ys⟩ := x
    have head := h.size_pos
    rw [Term.sizes, Term.size]
    omega

/-- Leaving out arguments leaves less. -/
theorem Term.sizes_take_lt {n : Nat} (less : n < xs.length) :
    Term.sizes (xs.take n) < Term.sizes xs := by
  have split := Term.sizes_take_add_drop xs n
  have rest : 0 < Term.sizes (xs.drop n) := Term.sizes_pos (by simpa using less)
  omega

theorem Term.size_le_sizes {x : Term} (hx : x ∈ xs) : x.size ≤ Term.sizes xs := by
  obtain ⟨before, after, rfl⟩ := List.append_of_mem hx
  rw [Term.sizes_append, Term.sizes]
  omega

end

mutual

theorem Head.over_of_isInert {A : Nat → Nat → Prop} : (h : Head) → h.isInert = true →
    (Term.ofHead h).Over A
  | .rel i, _ => Term.over_rel i
  | .sort n, _ => Term.over_sort n
  | .const c, _ => Term.over_const c
  | .pi a b, inert => by
    obtain ⟨ha, hb⟩ := Bool.and_eq_true_iff.1 inert
    exact Term.over_pi.2 ⟨Term.over_of_isInert a ha, Term.over_of_isInert b hb⟩
  | .lam a b, inert => by
    obtain ⟨ha, hb⟩ := Bool.and_eq_true_iff.1 inert
    exact Term.over_lam.2 ⟨Term.over_of_isInert a ha, Term.over_of_isInert b hb⟩
  | .case r s bs, inert => by
    obtain ⟨front, hbs⟩ := Bool.and_eq_true_iff.1 inert
    obtain ⟨hr, hs⟩ := Bool.and_eq_true_iff.1 front
    exact Term.over_case.2
      ⟨Term.over_of_isInert r hr, Term.over_of_isInert s hs, Term.over_of_areInert bs hbs⟩
  | .fix _ as bs, inert => by
    obtain ⟨has, hbs⟩ := Bool.and_eq_true_iff.1 inert
    exact Term.over_fix.2 ⟨Term.over_of_areInert as has, Term.over_of_areInert bs hbs⟩

/-- There is no hole in an inert term. -/
theorem Term.over_of_isInert {A : Nat → Nat → Prop} : (t : Term) → t.isInert = true → t.Over A
  | .mk h xs, inert => by
    obtain ⟨front, args⟩ := Bool.and_eq_true_iff.1 inert
    obtain ⟨head, _⟩ := Bool.and_eq_true_iff.1 front
    exact Term.over_mk.2 ⟨Head.over_of_isInert h head, Term.over_of_areInert xs args⟩

theorem Term.over_of_areInert {A : Nat → Nat → Prop} : (xs : List Term) →
    Term.areInert xs = true → ∀ x ∈ xs, x.Over A
  | [], _ => List.forall_mem_nil _
  | x :: xs, inert => by
    obtain ⟨hx, hxs⟩ := Bool.and_eq_true_iff.1 inert
    exact List.forall_mem_cons.2 ⟨Term.over_of_isInert x hx, Term.over_of_areInert xs hxs⟩

end

/-! ## Nodes -/

theorem Term.size_pos (t : Term) : 0 < t.size := by
  obtain ⟨h, xs⟩ := t
  have := h.size_pos
  rw [Term.size]
  omega

theorem Head.size_child (h : Head) : ∀ c ∈ h.children, c.1.size < h.size := by
  -- The children in a list of terms, all under the same binders.
  have listed {xs : List Term} {k n : Nat} (fits : Term.sizes xs < n) :
      ∀ c ∈ xs.map fun x => (x, k), c.1.size < n := by
    refine List.forall_mem_map.2 fun x hx => ?_
    exact Nat.lt_of_le_of_lt (Term.size_le_sizes hx) fits
  cases h with
  | rel i => exact List.forall_mem_nil _
  | sort n => exact List.forall_mem_nil _
  | const c => exact List.forall_mem_nil _
  | hole k xs => exact listed (by rw [Head.size]; omega)
  | pi a b => simp only [Head.children, Head.size, List.forall_mem_cons]; grind
  | lam a b => simp only [Head.children, Head.size, List.forall_mem_cons]; grind
  | letIn v a b => simp only [Head.children, Head.size, List.forall_mem_cons]; grind
  | cast t a => simp only [Head.children, Head.size, List.forall_mem_cons]; grind
  | case r s bs =>
    have branches : ∀ c ∈ bs.map fun b => (b, 0), c.1.size < (Head.case r s bs).size :=
      listed (by rw [Head.size]; omega)
    simp only [Head.children, List.forall_mem_cons]
    exact ⟨by rw [Head.size]; omega, by rw [Head.size]; omega, branches⟩
  | fix i as bs =>
    refine List.forall_mem_append.2 ⟨listed ?_, listed ?_⟩
    all_goals rw [Head.size]; omega

/-- A child is smaller. -/
theorem Term.size_child (t : Term) : ∀ c ∈ t.children, c.1.size < t.size := by
  obtain ⟨h, xs⟩ := t
  cases xs with
  | nil => exact h.size_child
  | cons x xs =>
    have first := x.size_pos
    rw [Term.size, Term.sizes]
    refine List.forall_mem_cons.2 ⟨?_, List.forall_mem_map.2 fun y hy => ?_⟩
    · change h.size + 0 < _
      omega
    · have small := Term.size_le_sizes hy
      have head := h.size_pos
      rw [Term.sizes] at small
      dsimp only
      omega

/-- What a node passes on to its children holds of all nodes. -/
theorem Term.forall_mem_preorder {P : Term → Prop} (step : ∀ t, P t → ∀ c ∈ t.children, P c.1)
    {t : Term} (top : P t) (d : Nat) : ∀ node ∈ t.preorder d, P node.1 := by
  induction size : t.size using Nat.strongRecOn generalizing t d with
  | ind n ih =>
    rw [Term.preorder_eq_cons]
    refine List.forall_mem_cons.2 ⟨top, fun node hnode => ?_⟩
    obtain ⟨c, hc, inside⟩ := List.mem_flatMap.1 hnode
    exact ih _ (size ▸ t.size_child c hc) (step t top c hc) _ rfl node inside

/-- A node of a term is no larger than the term. -/
theorem Term.size_le_of_mem_preorder (t : Term) (d : Nat) :
    ∀ node ∈ t.preorder d, node.1.size ≤ t.size :=
  Term.forall_mem_preorder
    (fun u small c hc => Nat.le_trans (Nat.le_of_lt (u.size_child c hc)) small) (Nat.le_refl _) d

theorem Head.isInert_child {h : Head} (inert : h.isInert = true) :
    ∀ c ∈ h.children, c.1.isInert = true := by
  cases h <;> simp_all [Head.isInert, Head.children, Term.areInert_iff, or_imp, forall_and]

/-- The nodes of an inert term are inert. -/
theorem Term.isInert_of_mem_preorder {t : Term} (inert : t.isInert = true) (d : Nat) :
    ∀ node ∈ t.preorder d, node.1.isInert = true := by
  refine Term.forall_mem_preorder (P := fun t => t.isInert = true) (fun u hu => ?_) inert d
  obtain ⟨h, xs⟩ := u
  obtain ⟨head, _, args⟩ := Term.isInert_mk.1 hu
  cases xs with
  | nil => exact Head.isInert_child head
  | cons x xs =>
    refine List.forall_mem_cons.2 ⟨Term.isInert_ofHead.trans head, ?_⟩
    exact List.forall_mem_map.2 args

/-! ## Replacing -/

section
variable {m : Type → Type} [Monad m] [LawfulMonad m]

theorem mapM_eq_pure {f : Term → m Term} {xs : List Term} (same : ∀ x ∈ xs, f x = pure x) :
    xs.mapM f = pure xs := by
  induction xs with
  | nil => simp
  | cons x xs ih =>
    obtain ⟨hx, hxs⟩ := List.forall_mem_cons.1 same
    simp [hx, ih hxs]

theorem Head.mapChildrenM_eq_pure {f : Term → Nat → m Term} {d : Nat} (h : Head)
    (same : ∀ c ∈ h.children, f c.1 (d + c.2) = pure c.1) : h.mapChildrenM f d = pure h := by
  cases h <;> simp_all [Head.mapChildrenM, Head.children, or_imp, forall_and, mapM_eq_pure]

theorem Term.mapChildrenM_eq_pure {f : Term → Nat → m Term} {d : Nat} (t : Term)
    (same : ∀ c ∈ t.children, f c.1 (d + c.2) = pure c.1) : t.mapChildrenM f d = pure t := by
  obtain ⟨h, xs⟩ := t
  cases xs with
  | nil => simp [Term.mapChildrenM, h.mapChildrenM_eq_pure same]
  | cons x xs =>
    obtain ⟨hh, hxs⟩ := List.forall_mem_cons.1 same
    have args : (x :: xs).mapM (f · d) = pure (x :: xs) :=
      mapM_eq_pure (List.forall_mem_map.1 hxs)
    have head : f (.ofHead h) d = pure (.ofHead h) := hh
    rw [Term.mapChildrenM, head, pure_bind, args, pure_bind]
    rfl

/-- Where no node is replaced the term stays as it is. -/
theorem Term.replaceM_eq_pure {f : Term → Nat → m (Option Term)} {t : Term} {d : Nat}
    (passes : ∀ node ∈ t.preorder d, f node.1 node.2 = pure none) : t.replaceM f d = pure t := by
  induction size : t.size using Nat.strongRecOn generalizing t d with
  | ind n ih =>
    rw [Term.preorder_eq_cons] at passes
    obtain ⟨node, below⟩ := List.forall_mem_cons.1 passes
    rw [Term.replaceM_eq, node, pure_bind]
    refine t.mapChildrenM_eq_pure fun c hc => ?_
    refine ih _ (size ▸ t.size_child c hc) (fun inner inside => ?_) rfl
    exact below inner (List.mem_flatMap.2 ⟨c, hc, inside⟩)

end

/-! ## Copies -/

mutual

theorem Head.isInert_lift : (h : Head) → (c n : Nat) → (h.lift c n).isInert = h.isInert
  | .rel i, c, n => by rw [Head.lift_rel]; rfl
  | .sort _, _, _ => rfl
  | .const _, _, _ => rfl
  | .hole k xs, c, n => by rw [Head.lift_hole]; rfl
  | .pi a b, c, n => by
    rw [Head.lift_pi, Head.isInert, Head.isInert, Term.isInert_lift a, Term.isInert_lift b]
  | .lam a b, c, n => by
    rw [Head.lift_lam, Head.isInert, Head.isInert, Term.isInert_lift a, Term.isInert_lift b]
  | .letIn v a b, c, n => rfl
  | .cast t a, c, n => rfl
  | .case r s bs, c, n => by
    rw [Head.lift_case, Head.isInert, Head.isInert, Term.isInert_lift r, Term.isInert_lift s,
      Term.areInert_lift bs]
  | .fix _ as bs, c, n => by
    rw [Head.lift_fix, Head.isInert, Head.isInert, Term.areInert_lift as, Term.areInert_lift bs]

/-- A copy is inert if what it is a copy of is. -/
theorem Term.isInert_lift : (t : Term) → (c n : Nat) → (t.lift c n).isInert = t.isInert
  | .mk h xs, c, n => by
    rw [Term.lift_mk, Term.isInert, Term.isInert, Head.isInert_lift h, Head.shape_lift,
      Term.areInert_lift xs, List.isEmpty_map]

theorem Term.areInert_lift : (xs : List Term) → (c n : Nat) →
    Term.areInert (xs.map (·.lift c n)) = Term.areInert xs
  | [], _, _ => rfl
  | x :: xs, c, n => by
    rw [List.map_cons, Term.areInert, Term.areInert, Term.isInert_lift x, Term.areInert_lift xs]

end

mutual

theorem Head.size_lift : (h : Head) → (c n : Nat) → (h.lift c n).size = h.size
  | .rel i, c, n => by rw [Head.lift_rel]; rfl
  | .sort _, _, _ => rfl
  | .const _, _, _ => rfl
  | .hole k xs, c, n => by rw [Head.lift_hole, Head.size, Head.size, Term.sizes_lift xs]
  | .pi a b, c, n => by rw [Head.lift_pi, Head.size, Head.size, Term.size_lift a, Term.size_lift b]
  | .lam a b, c, n => by
    rw [Head.lift_lam, Head.size, Head.size, Term.size_lift a, Term.size_lift b]
  | .letIn v a b, c, n => by
    rw [Head.lift_letIn, Head.size, Head.size, Term.size_lift v, Term.size_lift a,
      Term.size_lift b]
  | .cast t a, c, n => by
    rw [Head.lift_cast, Head.size, Head.size, Term.size_lift t, Term.size_lift a]
  | .case r s bs, c, n => by
    rw [Head.lift_case, Head.size, Head.size, Term.size_lift r, Term.size_lift s,
      Term.sizes_lift bs]
  | .fix _ as bs, c, n => by
    rw [Head.lift_fix, Head.size, Head.size, Term.sizes_lift as, Term.sizes_lift bs]

/-- A copy is as large as what it is a copy of. -/
theorem Term.size_lift : (t : Term) → (c n : Nat) → (t.lift c n).size = t.size
  | .mk h xs, c, n => by
    rw [Term.lift_mk, Term.size, Term.size, Head.size_lift h, Term.sizes_lift xs]

theorem Term.sizes_lift : (xs : List Term) → (c n : Nat) →
    Term.sizes (xs.map (·.lift c n)) = Term.sizes xs
  | [], _, _ => rfl
  | x :: xs, c, n => by
    rw [List.map_cons, Term.sizes, Term.sizes, Term.size_lift x, Term.sizes_lift xs]

end

end KeyedMatching
