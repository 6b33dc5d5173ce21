import KeyedMatching.Proofs.Lifting
import KeyedMatching.Proofs.Term.Binding
import Mathlib.Logic.Function.Basic

/-!
# Other numbers for the holes

`Term.renumber ρ t` is the term with hole `ρ k` where `t` has hole `k`. What is computed from a term
without looking at the numbers of holes is computed in the same way from the renumbered term; where
terms or holes are compared, no two holes may get the same number.

* `Term.renumber_bind`, `Term.preorder_renumber`: putting terms for variables and visiting nodes,
  from which the laws of lifting and contracting follow;
* `Term.renumber_inj`: equal renumbered terms are equal;
* `Term.renumber_eq_self`: a term keeps its holes if they keep their numbers.
-/

namespace KeyedMatching

mutual

/-- `Term.renumber` in a head. -/
def Head.renumber (ρ : Nat → Nat) : Head → Head
  | .rel i => .rel i
  | .sort n => .sort n
  | .const c => .const c
  | .hole k xs => .hole (ρ k) (Term.renumberAll ρ xs)
  | .pi a b => .pi (a.renumber ρ) (b.renumber ρ)
  | .lam a b => .lam (a.renumber ρ) (b.renumber ρ)
  | .letIn v a b => .letIn (v.renumber ρ) (a.renumber ρ) (b.renumber ρ)
  | .cast t a => .cast (t.renumber ρ) (a.renumber ρ)
  | .case r s bs => .case (r.renumber ρ) (s.renumber ρ) (Term.renumberAll ρ bs)
  | .fix i as bs => .fix i (Term.renumberAll ρ as) (Term.renumberAll ρ bs)

/-- The term with hole `ρ k` for each hole `k`. -/
def Term.renumber (ρ : Nat → Nat) : Term → Term
  | .mk h xs => .mk (h.renumber ρ) (Term.renumberAll ρ xs)

/-- `Term.renumber` for each term of a list. -/
def Term.renumberAll (ρ : Nat → Nat) : List Term → List Term
  | [] => []
  | x :: xs => x.renumber ρ :: Term.renumberAll ρ xs

end

section
variable {ρ : Nat → Nat}

@[simp] theorem Term.renumberAll_eq_map (xs : List Term) :
    Term.renumberAll ρ xs = xs.map (·.renumber ρ) := by
  induction xs with
  | nil => rfl
  | cons x xs ih => simp [Term.renumberAll, ih]

@[simp] theorem Term.renumber_mk (h : Head) (xs : List Term) :
    (Term.mk h xs).renumber ρ = .mk (h.renumber ρ) (xs.map (·.renumber ρ)) := by
  rw [Term.renumber, Term.renumberAll_eq_map]

@[simp] theorem Head.renumber_hole (k : Nat) (xs : List Term) :
    (Head.hole k xs).renumber ρ = .hole (ρ k) (xs.map (·.renumber ρ)) := by
  rw [Head.renumber, Term.renumberAll_eq_map]

@[simp] theorem Term.head_renumber (t : Term) : (t.renumber ρ).head = t.head.renumber ρ := by
  cases t
  simp [Term.head]

@[simp] theorem Term.args_renumber (t : Term) :
    (t.renumber ρ).args = t.args.map (·.renumber ρ) := by
  cases t
  simp [Term.args]

@[simp] theorem Term.renumber_apply (t : Term) (xs : List Term) :
    (t.apply xs).renumber ρ = (t.renumber ρ).apply (xs.map (·.renumber ρ)) := by
  cases t
  simp [Term.apply]

@[simp] theorem Head.shape_renumber (h : Head) : (h.renumber ρ).shape = h.shape := by
  cases h <;> rfl

@[simp] theorem Term.headHole?_renumber (t : Term) :
    (t.renumber ρ).headHole? = t.headHole?.map ρ := by
  obtain ⟨h, xs⟩ := t
  cases h <;> simp [Term.headHole?, Term.head, Head.renumber]

/-! ## Terms for variables -/

mutual

theorem Head.renumber_bind (f : Nat → Nat → Term) : (h : Head) → (d : Nat) →
    (h.bind f d).renumber ρ = (h.renumber ρ).bind (fun e i => (f e i).renumber ρ) d
  | .rel _, _ => rfl
  | .sort _, _ => rfl
  | .const _, _ => rfl
  | .hole k xs, d => congrArg (Term.hole (ρ k)) (Term.renumberAll_bindAll f xs d)
  | .pi a b, d => congrArg₂ Term.pi (Term.renumber_bind f a d) (Term.renumber_bind f b (d + 1))
  | .lam a b, d => congrArg₂ Term.lam (Term.renumber_bind f a d) (Term.renumber_bind f b (d + 1))
  | .letIn v a b, d => by
    simp only [Head.bind, Head.renumber, Term.renumber, Term.renumberAll, Term.renumber_bind f v d,
      Term.renumber_bind f a d, Term.renumber_bind f b (d + 1)]
  | .cast t a, d => by
    simp only [Head.bind, Head.renumber, Term.renumber, Term.renumberAll, Term.renumber_bind f t d,
      Term.renumber_bind f a d]
  | .case r s bs, d => by
    simp only [Head.bind, Head.renumber, Term.renumber, Term.renumberAll, Term.renumber_bind f r d,
      Term.renumber_bind f s d, Term.renumberAll_bindAll f bs d]
  | .fix i as bs, d => by
    have length : (Term.renumberAll ρ as).length = as.length := by simp
    simp only [Head.bind, Head.renumber, Term.renumber, Term.renumberAll, length,
      Term.renumberAll_bindAll f as d, Term.renumberAll_bindAll f bs (d + as.length)]

/-- The terms that are put for variables are renumbered, too. -/
theorem Term.renumber_bind (f : Nat → Nat → Term) : (t : Term) → (d : Nat) →
    (t.bind f d).renumber ρ = (t.renumber ρ).bind (fun e i => (f e i).renumber ρ) d
  | .mk h xs, d => by
    have args := Term.renumberAll_bindAll f xs d
    rw [Term.renumberAll_eq_map] at args
    rw [Term.bind, Term.renumber_apply, Head.renumber_bind f h d, args]
    rfl

theorem Term.renumberAll_bindAll (f : Nat → Nat → Term) : (xs : List Term) → (d : Nat) →
    Term.renumberAll ρ (Term.bindAll f d xs) =
      Term.bindAll (fun e i => (f e i).renumber ρ) d (Term.renumberAll ρ xs)
  | [], _ => rfl
  | x :: xs, d =>
    congrArg₂ List.cons (Term.renumber_bind f x d) (Term.renumberAll_bindAll f xs d)

end

/-- Where only variables are put for variables, nothing else is renumbered. -/
theorem Term.renumber_bind_rel {f : Nat → Nat → Term} (plain : ∀ e i, (f e i).renumber ρ = f e i)
    (t : Term) (d : Nat) : (t.bind f d).renumber ρ = (t.renumber ρ).bind f d := by
  rw [Term.renumber_bind]
  simp only [plain]

@[simp] theorem Term.renumber_lift (t : Term) (c n : Nat) :
    (t.lift c n).renumber ρ = (t.renumber ρ).lift c n :=
  Term.renumber_bind_rel (fun e i => by split <;> rfl) t c

@[simp] theorem Term.renumber_instantiateMany (t : Term) (values : List Term) :
    (t.instantiateMany values).renumber ρ =
      (t.renumber ρ).instantiateMany (values.map (·.renumber ρ)) := by
  rw [Term.instantiateMany_eq_bind, Term.instantiateMany_eq_bind, Term.renumber_bind]
  congr 1
  funext e i
  unfold Term.putFirst
  split
  · rw [List.getElem?_map]
    cases values[i - e]? with
    | some v => exact Term.renumber_lift v 0 e
    | none =>
      rw [List.length_map]
      rfl
  · rfl

@[simp] theorem Term.renumber_instantiate (b x : Term) :
    (b.instantiate x).renumber ρ = (b.renumber ρ).instantiate (x.renumber ρ) :=
  Term.renumber_instantiateMany b [x]

@[simp] theorem Term.renumber_betaApply (t : Term) (xs : List Term) :
    (t.betaApply xs).renumber ρ = (t.renumber ρ).betaApply (xs.map (·.renumber ρ)) := by
  induction xs generalizing t with
  | nil => simp [Term.betaApply]
  | cons x xs ih =>
    obtain ⟨h, ys⟩ := t
    cases h with
    | lam a b =>
      cases ys with
      | nil => exact (ih (b.instantiate x)).trans (by rw [Term.renumber_instantiate]; rfl)
      | cons y ys => exact Term.renumber_apply _ (x :: xs)
    | _ => cases ys <;> exact Term.renumber_apply _ (x :: xs)

/-! ## Nodes -/

mutual

theorem Head.inner_renumber : (h : Head) → (d : Nat) →
    (h.renumber ρ).inner d = (h.inner d).map fun p => (p.1.renumber ρ, p.2)
  | .rel _, _ => rfl
  | .sort _, _ => rfl
  | .const _, _ => rfl
  | .hole _ xs, d => Term.preorderAll_renumberAll xs d
  | .pi a b, d => by
    simp only [Head.renumber, Head.inner, List.map_append, Term.preorder_renumber a d,
      Term.preorder_renumber b (d + 1)]
  | .lam a b, d => by
    simp only [Head.renumber, Head.inner, List.map_append, Term.preorder_renumber a d,
      Term.preorder_renumber b (d + 1)]
  | .letIn v a b, d => by
    simp only [Head.renumber, Head.inner, List.map_append, Term.preorder_renumber v d,
      Term.preorder_renumber a d, Term.preorder_renumber b (d + 1)]
  | .cast t a, d => by
    simp only [Head.renumber, Head.inner, List.map_append, Term.preorder_renumber t d,
      Term.preorder_renumber a d]
  | .case r s bs, d => by
    simp only [Head.renumber, Head.inner, List.map_append, Term.preorder_renumber r d,
      Term.preorder_renumber s d, Term.preorderAll_renumberAll bs d]
  | .fix i as bs, d => by
    have length : (Term.renumberAll ρ as).length = as.length := by simp
    simp only [Head.renumber, Head.inner, List.map_append, length,
      Term.preorderAll_renumberAll as d, Term.preorderAll_renumberAll bs (d + as.length)]

/-- The nodes of the renumbered term are the renumbered nodes. -/
theorem Term.preorder_renumber : (t : Term) → (d : Nat) →
    (t.renumber ρ).preorder d = (t.preorder d).map fun p => (p.1.renumber ρ, p.2)
  | .mk h [], d => congrArg (((Term.ofHead h).renumber ρ, d) :: ·) (Head.inner_renumber h d)
  | .mk h (x :: xs), d => by
    have args := Term.preorderAll_renumberAll (x :: xs) d
    simp only [Term.renumber, Term.renumberAll] at args ⊢
    simp only [Term.preorder, Head.inner_renumber h d, args, List.map_cons, List.map_append]
    rfl

theorem Term.preorderAll_renumberAll : (xs : List Term) → (d : Nat) →
    Term.preorderAll d (Term.renumberAll ρ xs) =
      (Term.preorderAll d xs).map fun p => (p.1.renumber ρ, p.2)
  | [], _ => rfl
  | x :: xs, d => by
    simp only [Term.renumberAll, Term.preorderAll, Term.preorder_renumber x d,
      Term.preorderAll_renumberAll xs d, List.map_append]

end

@[simp] theorem Term.freeRel?_renumber (t : Term) (d : Nat) :
    (t.renumber ρ).freeRel? d = t.freeRel? d := by
  obtain ⟨h, xs⟩ := t
  cases h <;> cases xs <;> rfl

@[simp] theorem Term.hole?_renumber (t : Term) : (t.renumber ρ).hole? = t.hole?.map ρ := by
  obtain ⟨h, xs⟩ := t
  cases h <;> cases xs <;> rfl

@[simp] theorem Term.freeRels_renumber (t : Term) : (t.renumber ρ).freeRels = t.freeRels := by
  simp only [Term.freeRels, Term.preorder_renumber, List.filterMap_map, Function.comp_def,
    Term.freeRel?_renumber]

@[simp] theorem Term.holes_renumber (t : Term) : (t.renumber ρ).holes = t.holes.map ρ := by
  simp only [Term.holes, Term.preorder_renumber, List.filterMap_map, List.map_filterMap,
    Function.comp_def, Term.hole?_renumber]

@[simp] theorem Term.isLooseFrom_renumber (t : Term) (c : Nat) :
    (t.renumber ρ).isLooseFrom c = t.isLooseFrom c := by
  simp [Term.isLooseFrom]

@[simp] theorem Term.maxFreeRel_renumber (t : Term) :
    (t.renumber ρ).maxFreeRel = t.maxFreeRel := by
  simp [Term.maxFreeRel]

theorem Term.abstractRels?_renumber (t : Term) (vars : List Nat) :
    (t.renumber ρ).abstractRels? vars = (t.abstractRels? vars).map (·.renumber ρ) := by
  unfold Term.abstractRels?
  rw [Term.freeRels_renumber]
  split
  · exact congrArg some (Term.renumber_bind_rel (fun e i => by split <;> rfl) t 0).symm
  · rfl

/-! ## Comparing -/

mutual

theorem Head.renumber_eq_self : (h : Head) → (d : Nat) →
    h.Every (fun _ _ => True) (fun k _ => ρ k = k) d → h.renumber ρ = h
  | .rel _, _, _ => rfl
  | .sort _, _, _ => rfl
  | .const _, _, _ => rfl
  | .hole k xs, d, p => by
    obtain ⟨own, p⟩ := p
    rw [Head.renumber, own, Term.renumberAll_eq_self xs d p]
  | .pi a b, d, p => by
    rw [Head.renumber, Term.renumber_eq_of_every a d p.1, Term.renumber_eq_of_every b _ p.2]
  | .lam a b, d, p => by
    rw [Head.renumber, Term.renumber_eq_of_every a d p.1, Term.renumber_eq_of_every b _ p.2]
  | .letIn v a b, d, p => by
    rw [Head.renumber, Term.renumber_eq_of_every a d p.1, Term.renumber_eq_of_every v d p.2.1,
      Term.renumber_eq_of_every b _ p.2.2]
  | .cast t a, d, p => by
    rw [Head.renumber, Term.renumber_eq_of_every a d p.1, Term.renumber_eq_of_every t d p.2]
  | .case r s bs, d, p => by
    rw [Head.renumber, Term.renumber_eq_of_every r d p.1, Term.renumber_eq_of_every s d p.2.1,
      Term.renumberAll_eq_self bs d p.2.2]
  | .fix _ as bs, d, p => by
    rw [Head.renumber, Term.renumberAll_eq_self as d p.1, Term.renumberAll_eq_self bs _ p.2]

theorem Term.renumber_eq_of_every : (t : Term) → (d : Nat) →
    t.Every (fun _ _ => True) (fun k _ => ρ k = k) d → t.renumber ρ = t
  | .mk h xs, d, p => by
    rw [Term.renumber, Head.renumber_eq_self h d p.1, Term.renumberAll_eq_self xs d p.2]

theorem Term.renumberAll_eq_self : (xs : List Term) → (d : Nat) →
    Term.EveryAll (fun _ _ => True) (fun k _ => ρ k = k) d xs → Term.renumberAll ρ xs = xs
  | [], _, _ => rfl
  | x :: xs, d, p => by
    rw [Term.renumberAll, Term.renumber_eq_of_every x d p.1, Term.renumberAll_eq_self xs d p.2]

end

/-- A term stays the same if its holes keep their numbers. -/
theorem Term.renumber_eq_self {t : Term} (h : ∀ k ∈ t.holes, ρ k = k) : t.renumber ρ = t :=
  Term.renumber_eq_of_every t 0 (Term.forall_holes.1 h)

mutual

theorem Head.renumber_renumber (σ : Nat → Nat) : (h : Head) →
    (h.renumber ρ).renumber σ = h.renumber fun k => σ (ρ k)
  | .rel _ => rfl
  | .sort _ => rfl
  | .const _ => rfl
  | .hole _ xs => congrArg (Head.hole _) (Term.renumberAll_renumberAll σ xs)
  | .pi a b => congrArg₂ Head.pi (Term.renumber_renumber σ a) (Term.renumber_renumber σ b)
  | .lam a b => congrArg₂ Head.lam (Term.renumber_renumber σ a) (Term.renumber_renumber σ b)
  | .letIn v a b => by
    simp only [Head.renumber, Term.renumber_renumber σ v, Term.renumber_renumber σ a,
      Term.renumber_renumber σ b]
  | .cast t a => congrArg₂ Head.cast (Term.renumber_renumber σ t) (Term.renumber_renumber σ a)
  | .case r s bs => by
    simp only [Head.renumber, Term.renumber_renumber σ r, Term.renumber_renumber σ s,
      Term.renumberAll_renumberAll σ bs]
  | .fix i as bs =>
    congrArg₂ (Head.fix i) (Term.renumberAll_renumberAll σ as) (Term.renumberAll_renumberAll σ bs)

/-- Renumbering twice is renumbering once. -/
theorem Term.renumber_renumber (σ : Nat → Nat) : (t : Term) →
    (t.renumber ρ).renumber σ = t.renumber fun k => σ (ρ k)
  | .mk h xs => congrArg₂ Term.mk (Head.renumber_renumber σ h) (Term.renumberAll_renumberAll σ xs)

theorem Term.renumberAll_renumberAll (σ : Nat → Nat) : (xs : List Term) →
    Term.renumberAll σ (Term.renumberAll ρ xs) = Term.renumberAll (fun k => σ (ρ k)) xs
  | [] => rfl
  | x :: xs =>
    congrArg₂ List.cons (Term.renumber_renumber σ x) (Term.renumberAll_renumberAll σ xs)

end

/-! ## Replacing -/

section
variable {m : Type → Type} [Monad m] {L : Lifting m} {F F' : Term → Nat → m (Option Term)}

mutual

theorem Head.replaceM_related
    (hit : ∀ u d, L.Related (Maps (Option.map (Term.renumber ρ))) (F u d) (F' (u.renumber ρ) d)) :
    (h : Head) → (d : Nat) →
      L.Related (Maps (Head.renumber ρ)) (h.replaceM F d) ((h.renumber ρ).replaceM F' d)
  | .rel _, _ => L.pure rfl
  | .sort _, _ => L.pure rfl
  | .const _, _ => L.pure rfl
  | .hole _ xs, d => Lifting.map₁ (Term.replaceAllM_related hit xs d) fun _ => rfl
  | .pi a b, d =>
    Lifting.map₂ (Term.replaceM_related hit a d) (Term.replaceM_related hit b (d + 1))
      fun _ _ => rfl
  | .lam a b, d =>
    Lifting.map₂ (Term.replaceM_related hit a d) (Term.replaceM_related hit b (d + 1))
      fun _ _ => rfl
  | .letIn v a b, d =>
    Lifting.map₃ (Term.replaceM_related hit a d) (Term.replaceM_related hit v d)
      (Term.replaceM_related hit b (d + 1)) fun _ _ _ => rfl
  | .cast t a, d =>
    Lifting.map₂ (Term.replaceM_related hit a d) (Term.replaceM_related hit t d) fun _ _ => rfl
  | .case r s bs, d =>
    Lifting.map₃ (Term.replaceM_related hit r d) (Term.replaceM_related hit s d)
      (Term.replaceAllM_related hit bs d) fun _ _ _ => rfl
  | .fix i as bs, d => by
    have length : (Term.renumberAll ρ as).length = as.length := by simp
    have bodies := Term.replaceAllM_related hit bs (d + as.length)
    rw [← length] at bodies
    rw [Head.replaceM, ← length]
    exact Lifting.map₂ (Term.replaceAllM_related hit as d) bodies fun _ _ => rfl

/-- Replacing in the renumbered term is related to replacing in the term, if the answers are. -/
theorem Term.replaceM_related
    (hit : ∀ u d, L.Related (Maps (Option.map (Term.renumber ρ))) (F u d) (F' (u.renumber ρ) d)) :
    (t : Term) → (d : Nat) →
      L.Related (Maps (Term.renumber ρ)) (t.replaceM F d) ((t.renumber ρ).replaceM F' d)
  | .mk h [], d => by
    refine L.bind (hit (.ofHead h) d) fun o o' ho => ?_
    subst ho
    cases o with
    | some u => exact L.pure rfl
    | none => exact Lifting.map₁ (Head.replaceM_related hit h d) fun _ => rfl
  | .mk h (x :: xs), d => by
    refine L.bind (hit (.mk h (x :: xs)) d) fun o o' ho => ?_
    subst ho
    cases o with
    | some u => exact L.pure rfl
    | none =>
      have spine (g g' : Term) (hg : g' = g.renumber ρ) : L.Related (Maps (Term.renumber ρ))
          (Term.replaceAllM F d (x :: xs) >>= fun ys => Pure.pure (g.apply ys))
          (Term.replaceAllM F' d (Term.renumberAll ρ (x :: xs)) >>= fun ys =>
            Pure.pure (g'.apply ys)) := by
        rw [hg]
        exact Lifting.map₁ (Term.replaceAllM_related hit (x :: xs) d) fun ys => by simp
      refine L.bind (hit (.ofHead h) d) fun o o' ho => ?_
      subst ho
      cases o with
      | some u => exact L.bind (L.pure rfl) spine
      | none =>
        refine L.bind (Head.replaceM_related hit h d) fun g g' hg => ?_
        rw [hg]
        exact L.bind (L.pure rfl) spine

theorem Term.replaceAllM_related
    (hit : ∀ u d, L.Related (Maps (Option.map (Term.renumber ρ))) (F u d) (F' (u.renumber ρ) d)) :
    (xs : List Term) → (d : Nat) →
      L.Related (Maps (Term.renumberAll ρ)) (Term.replaceAllM F d xs)
        (Term.replaceAllM F' d (Term.renumberAll ρ xs))
  | [], _ => L.pure rfl
  | x :: xs, d =>
    Lifting.map₂ (Term.replaceM_related hit x d) (Term.replaceAllM_related hit xs d)
      fun _ _ => rfl

end

end

theorem Term.renumber_replace {F F' : Term → Nat → Option Term}
    (hit : ∀ u d, F' (u.renumber ρ) d = (F u d).map (·.renumber ρ)) (t : Term) (d : Nat) :
    (t.replace F d).renumber ρ = (t.renumber ρ).replace F' d :=
  (Term.replaceM_related (L := Lifting.id) hit t d).symm

/-! ## Different numbers -/

section
variable (inj : Function.Injective ρ)
include inj

theorem Term.renumber_injective : Function.Injective (Term.renumber ρ) := by
  obtain ⟨σ, hσ⟩ := inj.hasLeftInverse
  intro t u same
  have back (v : Term) : (v.renumber ρ).renumber σ = v := by
    rw [Term.renumber_renumber]
    exact Term.renumber_eq_self fun k _ => hσ k
  rw [← back t, same, back u]

theorem Term.renumber_inj {t u : Term} : t.renumber ρ = u.renumber ρ ↔ t = u :=
  (Term.renumber_injective inj).eq_iff

theorem Term.mentions_renumber (t : Term) (k : Nat) :
    (t.renumber ρ).mentions (ρ k) = t.mentions k := by
  simp [Term.mentions, inj.eq_iff]

theorem Term.lastCopyOf?_renumber (values : List Term) (d : Nat) (u : Term) :
    Term.lastCopyOf? (values.map (·.renumber ρ)) d (u.renumber ρ) =
      Term.lastCopyOf? values d u := by
  have same (v : Term) : (v.renumber ρ).lift 0 d = u.renumber ρ ↔ v.lift 0 d = u := by
    rw [← Term.renumber_lift, Term.renumber_inj inj]
  simp only [Term.lastCopyOf?, List.zipIdx_map, ← List.map_reverse, List.find?_map, Option.map_map]
  simp [Function.comp_def, same]

theorem Term.renumber_abstractTerms (t : Term) (values : List Term) :
    (t.abstractTerms values).renumber ρ =
      (t.renumber ρ).abstractTerms (values.map (·.renumber ρ)) := by
  refine Term.renumber_replace (fun u d => ?_) t 0
  rw [Term.lastCopyOf?_renumber inj, Term.freeRel?_renumber, List.length_map]
  cases Term.lastCopyOf? values d u with
  | some i => rfl
  | none => cases u.freeRel? d <;> rfl

end

end

end KeyedMatching
