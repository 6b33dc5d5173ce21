import KeyedMatching.Term.Substitution

/-!
# What holds everywhere in a term

`Term.Every onVar onHole d t`: every variable of `t`, which stands under `d` binders, satisfies
`onVar` with the binders above it and its index, and every hole satisfies `onHole` with its number
and the length of its instance.

* `Term.Every.imp₂`: two such facts give a third, place by place;
* `Term.every_bind`: what holds everywhere after terms were put for variables;
* `Term.bind_congr`: a binding depends on the variables that occur, and on no others;
* `Term.forall_freeRels`, `Term.forall_holes`: the lists of free variables and of holes ask the same
  question;
* `Term.Over` and `Term.Scoped` are the two cases that the rest of the theory speaks of.
-/

namespace KeyedMatching

mutual

/-- `Term.Every` in a head. -/
def Head.Every (onVar onHole : Nat → Nat → Prop) (d : Nat) : Head → Prop
  | .rel i => onVar d i
  | .sort _ | .const _ => True
  | .hole k xs => onHole k xs.length ∧ Term.EveryAll onVar onHole d xs
  | .pi a b | .lam a b => a.Every onVar onHole d ∧ b.Every onVar onHole (d + 1)
  | .letIn v a b =>
    a.Every onVar onHole d ∧ v.Every onVar onHole d ∧ b.Every onVar onHole (d + 1)
  | .cast t a => a.Every onVar onHole d ∧ t.Every onVar onHole d
  | .case r s bs =>
    r.Every onVar onHole d ∧ s.Every onVar onHole d ∧ Term.EveryAll onVar onHole d bs
  | .fix _ as bs =>
    Term.EveryAll onVar onHole d as ∧ Term.EveryAll onVar onHole (d + as.length) bs

/-- Every variable of a term under `d` binders satisfies `onVar`, and every hole `onHole`. -/
def Term.Every (onVar onHole : Nat → Nat → Prop) (d : Nat) : Term → Prop
  | .mk h xs => h.Every onVar onHole d ∧ Term.EveryAll onVar onHole d xs

/-- `Term.Every` for each term of a list. -/
def Term.EveryAll (onVar onHole : Nat → Nat → Prop) (d : Nat) : List Term → Prop
  | [] => True
  | x :: xs => x.Every onVar onHole d ∧ Term.EveryAll onVar onHole d xs

end

section
variable {v v' v'' h h' h'' : Nat → Nat → Prop}

theorem Term.everyAll_iff {d : Nat} {xs : List Term} :
    Term.EveryAll v h d xs ↔ ∀ x ∈ xs, x.Every v h d := by
  induction xs with
  | nil => simp [Term.EveryAll]
  | cons x xs ih => simp [Term.EveryAll, ih]

theorem Term.every_mk {d : Nat} {g : Head} {xs : List Term} :
    (Term.mk g xs).Every v h d ↔ (Term.ofHead g).Every v h d ∧ ∀ x ∈ xs, x.Every v h d := by
  simp [Term.Every, Term.EveryAll, Term.everyAll_iff]

theorem Term.every_apply {d : Nat} {t : Term} {xs : List Term} :
    (t.apply xs).Every v h d ↔ t.Every v h d ∧ ∀ x ∈ xs, x.Every v h d := by
  cases t with
  | mk g ys =>
    simp only [Term.apply, Term.Every, Term.everyAll_iff, List.mem_append, and_assoc]
    constructor
    · rintro ⟨hg, hxs⟩
      exact ⟨hg, fun y hy => hxs y (.inl hy), fun x hx => hxs x (.inr hx)⟩
    · rintro ⟨hg, hys, hxs⟩
      exact ⟨hg, fun x hx => hx.elim (hys x) (hxs x)⟩

mutual

theorem Head.Every.imp₂ (hv : ∀ d i, v d i → v' d i → v'' d i)
    (hh : ∀ k n, h k n → h' k n → h'' k n) :
    (g : Head) → (d : Nat) → g.Every v h d → g.Every v' h' d → g.Every v'' h'' d
  | .rel i, d, p, q => hv d i p q
  | .sort _, _, _, _ => trivial
  | .const _, _, _, _ => trivial
  | .hole k xs, d, p, q => ⟨hh k _ p.1 q.1, Term.EveryAll.imp₂ hv hh xs d p.2 q.2⟩
  | .pi a b, d, p, q => ⟨Term.Every.imp₂ hv hh a d p.1 q.1, Term.Every.imp₂ hv hh b _ p.2 q.2⟩
  | .lam a b, d, p, q => ⟨Term.Every.imp₂ hv hh a d p.1 q.1, Term.Every.imp₂ hv hh b _ p.2 q.2⟩
  | .letIn w a b, d, p, q =>
    ⟨Term.Every.imp₂ hv hh a d p.1 q.1, Term.Every.imp₂ hv hh w d p.2.1 q.2.1,
      Term.Every.imp₂ hv hh b _ p.2.2 q.2.2⟩
  | .cast t a, d, p, q =>
    ⟨Term.Every.imp₂ hv hh a d p.1 q.1, Term.Every.imp₂ hv hh t d p.2 q.2⟩
  | .case r s bs, d, p, q =>
    ⟨Term.Every.imp₂ hv hh r d p.1 q.1, Term.Every.imp₂ hv hh s d p.2.1 q.2.1,
      Term.EveryAll.imp₂ hv hh bs d p.2.2 q.2.2⟩
  | .fix _ as bs, d, p, q =>
    ⟨Term.EveryAll.imp₂ hv hh as d p.1 q.1, Term.EveryAll.imp₂ hv hh bs _ p.2 q.2⟩

/-- Two facts that hold everywhere in a term give what follows from them at each place. -/
theorem Term.Every.imp₂ (hv : ∀ d i, v d i → v' d i → v'' d i)
    (hh : ∀ k n, h k n → h' k n → h'' k n) :
    (t : Term) → (d : Nat) → t.Every v h d → t.Every v' h' d → t.Every v'' h'' d
  | .mk g xs, d, p, q =>
    ⟨Head.Every.imp₂ hv hh g d p.1 q.1, Term.EveryAll.imp₂ hv hh xs d p.2 q.2⟩

theorem Term.EveryAll.imp₂ (hv : ∀ d i, v d i → v' d i → v'' d i)
    (hh : ∀ k n, h k n → h' k n → h'' k n) :
    (xs : List Term) → (d : Nat) → Term.EveryAll v h d xs → Term.EveryAll v' h' d xs →
      Term.EveryAll v'' h'' d xs
  | [], _, _, _ => trivial
  | x :: xs, d, p, q =>
    ⟨Term.Every.imp₂ hv hh x d p.1 q.1, Term.EveryAll.imp₂ hv hh xs d p.2 q.2⟩

end

theorem Term.Every.mono {t : Term} {d : Nat} (p : t.Every v h d) (hv : ∀ d i, v d i → v' d i)
    (hh : ∀ k n, h k n → h' k n) : t.Every v' h' d :=
  Term.Every.imp₂ (fun d i q _ => hv d i q) (fun k n q _ => hh k n q) t d p p

mutual

theorem Head.every_shift (n : Nat) : (g : Head) → (d : Nat) →
    (g.Every v h (d + n) ↔ g.Every (fun e i => v (e + n) i) h d)
  | .rel i, d => Iff.rfl
  | .sort _, _ => Iff.rfl
  | .const _, _ => Iff.rfl
  | .hole k xs, d => and_congr_right fun _ => Term.everyAll_shift n xs d
  | .pi a b, d => by
    simp only [Head.Every, Nat.add_right_comm d n 1]
    exact and_congr (Term.every_shift n a d) (Term.every_shift n b (d + 1))
  | .lam a b, d => by
    simp only [Head.Every, Nat.add_right_comm d n 1]
    exact and_congr (Term.every_shift n a d) (Term.every_shift n b (d + 1))
  | .letIn w a b, d => by
    simp only [Head.Every, Nat.add_right_comm d n 1]
    exact and_congr (Term.every_shift n a d)
      (and_congr (Term.every_shift n w d) (Term.every_shift n b (d + 1)))
  | .cast t a, d => and_congr (Term.every_shift n a d) (Term.every_shift n t d)
  | .case r s bs, d =>
    and_congr (Term.every_shift n r d) (and_congr (Term.every_shift n s d)
      (Term.everyAll_shift n bs d))
  | .fix _ as bs, d => by
    simp only [Head.Every, Nat.add_right_comm d n as.length]
    exact and_congr (Term.everyAll_shift n as d) (Term.everyAll_shift n bs (d + as.length))

/-- Binders outside a term can be counted in the condition instead. -/
theorem Term.every_shift (n : Nat) : (t : Term) → (d : Nat) →
    (t.Every v h (d + n) ↔ t.Every (fun e i => v (e + n) i) h d)
  | .mk g xs, d => and_congr (Head.every_shift n g d) (Term.everyAll_shift n xs d)

theorem Term.everyAll_shift (n : Nat) : (xs : List Term) → (d : Nat) →
    (Term.EveryAll v h (d + n) xs ↔ Term.EveryAll (fun e i => v (e + n) i) h d xs)
  | [], _ => Iff.rfl
  | x :: xs, d => and_congr (Term.every_shift n x d) (Term.everyAll_shift n xs d)

end

/-! ## Putting terms for variables -/

theorem Term.bindAll_eq_map (f : Nat → Nat → Term) (d : Nat) (xs : List Term) :
    Term.bindAll f d xs = xs.map (·.bind f d) := by
  induction xs with
  | nil => rfl
  | cons x xs ih => simp [Term.bindAll, ih]

@[simp] theorem Term.length_bindAll (f : Nat → Nat → Term) (d : Nat) (xs : List Term) :
    (Term.bindAll f d xs).length = xs.length := by
  simp [Term.bindAll_eq_map]

theorem Term.bind_apply (f : Nat → Nat → Term) (d : Nat) (t : Term) (ys : List Term) :
    (t.apply ys).bind f d = (t.bind f d).apply (Term.bindAll f d ys) := by
  cases t with
  | mk g xs =>
    rw [Term.apply, Term.bind, Term.bind, Term.apply_apply]
    simp [Term.bindAll_eq_map]

mutual

theorem Head.every_bind {f : Nat → Nat → Term} (hf : ∀ e i, v e i → (f e i).Every v' h e) :
    (g : Head) → (d : Nat) → g.Every v h d → (g.bind f d).Every v' h d
  | .rel i, d, p => hf d i p
  | .sort _, _, _ => ⟨trivial, trivial⟩
  | .const _, _, _ => ⟨trivial, trivial⟩
  | .hole k xs, d, p =>
    ⟨⟨by simpa using p.1, Term.everyAll_bind hf xs d p.2⟩, trivial⟩
  | .pi a b, d, p => ⟨⟨Term.every_bind hf a d p.1, Term.every_bind hf b _ p.2⟩, trivial⟩
  | .lam a b, d, p => ⟨⟨Term.every_bind hf a d p.1, Term.every_bind hf b _ p.2⟩, trivial⟩
  | .letIn w a b, d, p =>
    ⟨⟨Term.every_bind hf a d p.1, Term.every_bind hf w d p.2.1, Term.every_bind hf b _ p.2.2⟩,
      trivial⟩
  | .cast t a, d, p => ⟨⟨Term.every_bind hf a d p.1, Term.every_bind hf t d p.2⟩, trivial⟩
  | .case r s bs, d, p =>
    ⟨⟨Term.every_bind hf r d p.1, Term.every_bind hf s d p.2.1, Term.everyAll_bind hf bs d p.2.2⟩,
      trivial⟩
  | .fix _ as bs, d, p =>
    ⟨⟨Term.everyAll_bind hf as d p.1, by simpa using Term.everyAll_bind hf bs _ p.2⟩, trivial⟩

/-- What holds everywhere in a term, and in the terms put for its variables, holds everywhere in
the result. -/
theorem Term.every_bind {f : Nat → Nat → Term} (hf : ∀ e i, v e i → (f e i).Every v' h e) :
    (t : Term) → (d : Nat) → t.Every v h d → (t.bind f d).Every v' h d
  | .mk g xs, d, p =>
    Term.every_apply.2 ⟨Head.every_bind hf g d p.1,
      Term.everyAll_iff.1 (Term.everyAll_bind hf xs d p.2)⟩

theorem Term.everyAll_bind {f : Nat → Nat → Term} (hf : ∀ e i, v e i → (f e i).Every v' h e) :
    (xs : List Term) → (d : Nat) → Term.EveryAll v h d xs →
      Term.EveryAll v' h d (Term.bindAll f d xs)
  | [], _, _ => trivial
  | x :: xs, d, p => ⟨Term.every_bind hf x d p.1, Term.everyAll_bind hf xs d p.2⟩

end

mutual

theorem Head.every_of_bind {f : Nat → Nat → Term} : (g : Head) → (d : Nat) →
    (g.bind f d).Every v h d → g.Every (fun _ _ => True) h d
  | .rel _, _, _ => trivial
  | .sort _, _, _ => trivial
  | .const _, _, _ => trivial
  | .hole k xs, d, p => by
    obtain ⟨own, inst⟩ := p.1
    rw [Term.length_bindAll] at own
    exact ⟨own, Term.everyAll_of_bind xs d inst⟩
  | .pi a b, d, p => ⟨Term.every_of_bind a d p.1.1, Term.every_of_bind b _ p.1.2⟩
  | .lam a b, d, p => ⟨Term.every_of_bind a d p.1.1, Term.every_of_bind b _ p.1.2⟩
  | .letIn w a b, d, p =>
    ⟨Term.every_of_bind a d p.1.1, Term.every_of_bind w d p.1.2.1, Term.every_of_bind b _ p.1.2.2⟩
  | .cast t a, d, p => ⟨Term.every_of_bind a d p.1.1, Term.every_of_bind t d p.1.2⟩
  | .case r s bs, d, p =>
    ⟨Term.every_of_bind r d p.1.1, Term.every_of_bind s d p.1.2.1,
      Term.everyAll_of_bind bs d p.1.2.2⟩
  | .fix _ as bs, d, p => by
    obtain ⟨types, bodies⟩ := p.1
    rw [Term.length_bindAll] at bodies
    exact ⟨Term.everyAll_of_bind as d types, Term.everyAll_of_bind bs _ bodies⟩

/-- The holes of a term are still there after terms were put for its variables. -/
theorem Term.every_of_bind {f : Nat → Nat → Term} : (t : Term) → (d : Nat) →
    (t.bind f d).Every v h d → t.Every (fun _ _ => True) h d
  | .mk g xs, d, p => by
    obtain ⟨onHead, onArgs⟩ := Term.every_apply.1 p
    exact ⟨Head.every_of_bind g d onHead,
      Term.everyAll_of_bind xs d (Term.everyAll_iff.2 onArgs)⟩

theorem Term.everyAll_of_bind {f : Nat → Nat → Term} : (xs : List Term) → (d : Nat) →
    Term.EveryAll v h d (Term.bindAll f d xs) → Term.EveryAll (fun _ _ => True) h d xs
  | [], _, _ => trivial
  | x :: xs, d, p => ⟨Term.every_of_bind x d p.1, Term.everyAll_of_bind xs d p.2⟩

end

mutual

theorem Head.bind_congr {f g : Nat → Nat → Term} : (t : Head) → (d : Nat) →
    t.Every (fun e i => f e i = g e i) h d → t.bind f d = t.bind g d
  | .rel _, _, p => p
  | .sort _, _, _ => rfl
  | .const _, _, _ => rfl
  | .hole k xs, d, p => by simp only [Head.bind, Term.bindAll_congr xs d p.2]
  | .pi a b, d, p => by simp only [Head.bind, Term.bind_congr a d p.1, Term.bind_congr b _ p.2]
  | .lam a b, d, p => by simp only [Head.bind, Term.bind_congr a d p.1, Term.bind_congr b _ p.2]
  | .letIn w a b, d, p => by
    simp only [Head.bind, Term.bind_congr a d p.1, Term.bind_congr w d p.2.1,
      Term.bind_congr b _ p.2.2]
  | .cast t a, d, p => by
    simp only [Head.bind, Term.bind_congr a d p.1, Term.bind_congr t d p.2]
  | .case r s bs, d, p => by
    simp only [Head.bind, Term.bind_congr r d p.1, Term.bind_congr s d p.2.1,
      Term.bindAll_congr bs d p.2.2]
  | .fix _ as bs, d, p => by
    simp only [Head.bind, Term.bindAll_congr as d p.1, Term.bindAll_congr bs _ p.2]

/-- Two bindings that agree on the variables of a term agree on the term. -/
theorem Term.bind_congr {f g : Nat → Nat → Term} : (t : Term) → (d : Nat) →
    t.Every (fun e i => f e i = g e i) h d → t.bind f d = t.bind g d
  | .mk t xs, d, p => by
    simp only [Term.bind, Head.bind_congr t d p.1, Term.bindAll_congr xs d p.2]

theorem Term.bindAll_congr {f g : Nat → Nat → Term} : (xs : List Term) → (d : Nat) →
    Term.EveryAll (fun e i => f e i = g e i) h d xs → Term.bindAll f d xs = Term.bindAll g d xs
  | [], _, _ => rfl
  | x :: xs, d, p => by
    simp only [Term.bindAll, Term.bind_congr x d p.1, Term.bindAll_congr xs d p.2]

end

/-! ## Lists of nodes -/

/-- `onVar` or `onHole` for a single node, if it is a variable or a hole. -/
def Term.Fits (onVar onHole : Nat → Nat → Prop) (d : Nat) : Term → Prop
  | .rel i => onVar d i
  | .hole k xs => onHole k xs.length
  | _ => True

mutual

theorem Head.forall_inner : (g : Head) → (d : Nat) →
    ((Term.ofHead g).Fits v h d ∧ (∀ p ∈ g.inner d, p.1.Fits v h p.2) ↔ g.Every v h d)
  | .rel i, d => by simp [Head.inner, Head.Every, Term.Fits]
  | .sort _, d => by simp [Head.inner, Head.Every, Term.Fits]
  | .const _, d => by simp [Head.inner, Head.Every, Term.Fits]
  | .hole k xs, d => by
    change h k xs.length ∧ _ ↔ _
    simp only [Head.inner, Head.Every, Term.forall_preorderAll xs d]
  | .pi a b, d => by
    change True ∧ _ ↔ _
    simp only [Head.inner, Head.Every, List.forall_mem_append,
      Term.forall_preorder a d, Term.forall_preorder b (d + 1), true_and]
  | .lam a b, d => by
    change True ∧ _ ↔ _
    simp only [Head.inner, Head.Every, List.forall_mem_append,
      Term.forall_preorder a d, Term.forall_preorder b (d + 1), true_and]
  | .letIn w a b, d => by
    change True ∧ _ ↔ _
    simp only [Head.inner, Head.Every, List.forall_mem_append,
      Term.forall_preorder a d, Term.forall_preorder w d, Term.forall_preorder b (d + 1), true_and]
  | .cast t a, d => by
    change True ∧ _ ↔ _
    simp only [Head.inner, Head.Every, List.forall_mem_append,
      Term.forall_preorder a d, Term.forall_preorder t d, true_and]
  | .case r s bs, d => by
    change True ∧ _ ↔ _
    simp only [Head.inner, Head.Every, List.forall_mem_append,
      Term.forall_preorder r d, Term.forall_preorder s d, Term.forall_preorderAll bs d, true_and]
  | .fix _ as bs, d => by
    change True ∧ _ ↔ _
    simp only [Head.inner, Head.Every, List.forall_mem_append,
      Term.forall_preorderAll as d, Term.forall_preorderAll bs (d + as.length), true_and]

/-- What holds everywhere in a term holds of each of its nodes, and the other way round. -/
theorem Term.forall_preorder : (t : Term) → (d : Nat) →
    ((∀ p ∈ t.preorder d, p.1.Fits v h p.2) ↔ t.Every v h d)
  | .mk g [], d => by
    simp only [Term.preorder, List.forall_mem_cons, Term.Every, Term.EveryAll, and_true]
    exact Head.forall_inner g d
  | .mk g (x :: xs), d => by
    have top : (Term.mk g (x :: xs)).Fits v h d := by cases g <;> exact trivial
    simp only [Term.preorder, List.forall_mem_cons, List.forall_mem_append, Term.Every,
      Term.forall_preorderAll (x :: xs) d, ← Head.forall_inner g d, and_assoc, top, true_and]

theorem Term.forall_preorderAll : (xs : List Term) → (d : Nat) →
    ((∀ p ∈ Term.preorderAll d xs, p.1.Fits v h p.2) ↔ Term.EveryAll v h d xs)
  | [], _ => by simp [Term.preorderAll, Term.EveryAll]
  | x :: xs, d => by
    simp only [Term.preorderAll, List.forall_mem_append, Term.EveryAll, Term.forall_preorder x d,
      Term.forall_preorderAll xs d]

end

/-- The nodes of a node are nodes of the term. -/
theorem Term.mem_preorder_trans {t u : Term} {d e : Nat} {node : Term × Nat}
    (hu : (u, e) ∈ t.preorder d) (hnode : node ∈ u.preorder e) : node ∈ t.preorder d := by
  induction size : (t.preorder d).length using Nat.strongRecOn generalizing t d with
  | ind n ih =>
    rw [Term.preorder_eq_cons] at hu size ⊢
    rcases List.mem_cons.1 hu with here | below
    · cases here
      rwa [← Term.preorder_eq_cons]
    · obtain ⟨⟨c, k⟩, hc, below⟩ := List.mem_flatMap.1 below
      have smaller : (c.preorder (d + k)).length ≤ (t.descendants d).length := by
        obtain ⟨before, after, split⟩ := List.append_of_mem hc
        rw [Term.descendants, split, List.flatMap_append, List.flatMap_cons, List.length_append,
          List.length_append]
        dsimp only
        omega
      rw [List.length_cons] at size
      have inside := ih _ (by omega) below rfl
      exact List.mem_cons_of_mem _ (List.mem_flatMap.2 ⟨(c, k), hc, inside⟩)

theorem Term.mem_preorder_self (t : Term) (d : Nat) : (t, d) ∈ t.preorder d := by
  rw [Term.preorder_eq_cons]
  exact List.mem_cons_self

/-- A child of a node of a term is a node of it. -/
theorem Term.mem_preorder_child {t u c : Term} {d e k : Nat} (hu : (u, e) ∈ t.preorder d)
    (hc : (c, k) ∈ u.children) : (c, e + k) ∈ t.preorder d := by
  refine Term.mem_preorder_trans hu ?_
  rw [Term.preorder_eq_cons]
  exact List.mem_cons_of_mem _ (List.mem_flatMap.2 ⟨(c, k), hc, Term.mem_preorder_self c _⟩)

theorem Term.fits_freeRel {P : Nat → Prop} (u : Term) (d : Nat) :
    u.Fits (fun d i => d ≤ i → P (i - d)) (fun _ _ => True) d ↔
      ∀ i, u.freeRel? d = some i → P i := by
  obtain ⟨g, xs⟩ := u
  cases g <;> cases xs <;> simp [Term.Fits, Term.freeRel?]

theorem Term.fits_hole {P : Nat → Prop} (u : Term) (d : Nat) :
    u.Fits (fun _ _ => True) (fun k _ => P k) d ↔ ∀ k, u.hole? = some k → P k := by
  obtain ⟨g, xs⟩ := u
  cases g <;> cases xs <;> simp [Term.Fits, Term.hole?]

/-- A question to the free variables of a term, asked at each variable. -/
theorem Term.forall_freeRels {P : Nat → Prop} {t : Term} :
    (∀ i ∈ t.freeRels, P i) ↔ t.Every (fun d i => d ≤ i → P (i - d)) (fun _ _ => True) 0 := by
  rw [← Term.forall_preorder, Term.freeRels]
  simp only [List.mem_filterMap, forall_exists_index, and_imp, Term.fits_freeRel]
  exact ⟨fun p u hu i hi => p i u hu hi, fun p i u hu hi => p u hu i hi⟩

/-- A question to the holes of a term, asked at each hole. -/
theorem Term.forall_holes {P : Nat → Prop} {t : Term} :
    (∀ k ∈ t.holes, P k) ↔ t.Every (fun _ _ => True) (fun k _ => P k) 0 := by
  rw [← Term.forall_preorder, Term.holes]
  simp only [List.mem_filterMap, forall_exists_index, and_imp, Term.fits_hole]
  exact ⟨fun p u hu k hk => p k u hu hk, fun p k u hu hk => p u hu k hk⟩

end

/-! ## Holes in use -/

/-- Every hole of the term satisfies `A` with the length of its instance. -/
def Term.Over (A : Nat → Nat → Prop) (t : Term) : Prop :=
  t.Every (fun _ _ => True) A 0

/-- Every free variable of the term is below `n`. -/
def Term.Scoped (n : Nat) (t : Term) : Prop :=
  t.Every (fun d i => i < d + n) (fun _ _ => True) 0

theorem Term.scoped_iff {n : Nat} {t : Term} : t.Scoped n ↔ ∀ i ∈ t.freeRels, i < n := by
  rw [Term.forall_freeRels]
  constructor
  · exact fun p => p.mono (fun d i q hd => by omega) (fun _ _ q => q)
  · exact fun p => p.mono (fun d i q => by by_cases hd : d ≤ i <;> grind) (fun _ _ q => q)

theorem Term.scoped_of_not_isLooseFrom {n : Nat} {t : Term} (tight : t.isLooseFrom n = false) :
    t.Scoped n := by
  refine Term.scoped_iff.2 fun i hi => ?_
  rcases Nat.lt_or_ge i n with inside | past
  · exact inside
  · have loose : t.isLooseFrom n = true := List.any_eq_true.2 ⟨i, hi, decide_eq_true past⟩
    rw [tight] at loose
    cases loose

section
variable {A B : Nat → Nat → Prop}

theorem Term.every_over {d : Nat} {t : Term} : t.Every (fun _ _ => True) A d ↔ t.Over A := by
  have shift := Term.every_shift (v := fun _ _ => True) (h := A) d t 0
  rwa [Nat.zero_add] at shift

theorem Term.Over.mono {t : Term} (p : t.Over A) (hA : ∀ k n, A k n → B k n) : t.Over B :=
  Term.Every.mono p (fun _ _ q => q) hA

theorem Term.over_holes {P : Nat → Prop} {t : Term} :
    t.Over (fun k _ => P k) ↔ ∀ k ∈ t.holes, P k :=
  Term.forall_holes.symm

/-- What is true of the holes in use goes together with what is true of them and their instances. -/
theorem Term.Over.and_holes {P : Nat → Prop} {t : Term} (p : t.Over A) (h : ∀ k ∈ t.holes, P k) :
    t.Over fun k n => A k n ∧ P k :=
  Term.Every.imp₂ (fun _ _ q _ => q) (fun _ _ q r => ⟨q, r⟩) t 0 p (Term.over_holes.2 h)

theorem Term.not_mentions_iff {k : Nat} {t : Term} :
    t.mentions k = false ↔ t.Over (fun l _ => l ≠ k) := by
  rw [Term.over_holes]
  simp only [Term.mentions, List.contains_eq_mem, decide_eq_false_iff_not, ne_eq]
  exact ⟨fun p l hl e => p (e ▸ hl), fun p hk => p k hk rfl⟩

theorem Term.over_mk {g : Head} {xs : List Term} :
    (Term.mk g xs).Over A ↔ (Term.ofHead g).Over A ∧ ∀ x ∈ xs, x.Over A :=
  Term.every_mk

/-- The head with some first arguments. -/
theorem Term.over_prefix {t : Term} (p : t.Over A) (n : Nat) :
    (Term.mk t.head (t.args.take n)).Over A := by
  obtain ⟨g, xs⟩ := t
  obtain ⟨pg, pxs⟩ := Term.over_mk.1 p
  exact Term.over_mk.2 ⟨pg, fun x hx => pxs x (List.mem_of_mem_take hx)⟩

theorem Term.over_apply {t : Term} {xs : List Term} :
    (t.apply xs).Over A ↔ t.Over A ∧ ∀ x ∈ xs, x.Over A :=
  Term.every_apply

@[simp] theorem Term.over_rel (i : Nat) : (Term.rel i).Over A := ⟨trivial, trivial⟩

@[simp] theorem Term.over_sort (n : Nat) : (Term.sort n).Over A := ⟨trivial, trivial⟩

@[simp] theorem Term.over_const (c : String) : (Term.const c).Over A := ⟨trivial, trivial⟩

@[simp] theorem Term.over_mk_const {c : String} {xs : List Term} :
    (Term.mk (.const c) xs).Over A ↔ ∀ x ∈ xs, x.Over A := by
  rw [Term.over_mk, and_iff_right (Term.over_const c)]

theorem Term.over_hole {k : Nat} {xs : List Term} :
    (Term.hole k xs).Over A ↔ A k xs.length ∧ ∀ x ∈ xs, x.Over A := by
  simp [Term.Over, Term.Every, Head.Every, Term.EveryAll, Term.everyAll_iff]

theorem Term.over_pi {a b : Term} : (Term.pi a b).Over A ↔ a.Over A ∧ b.Over A := by
  rw [← Term.every_over (t := b) (d := 1)]
  simp [Term.Over, Term.Every, Head.Every, Term.EveryAll]

theorem Term.over_lam {a b : Term} : (Term.lam a b).Over A ↔ a.Over A ∧ b.Over A := by
  rw [← Term.every_over (t := b) (d := 1)]
  simp [Term.Over, Term.Every, Head.Every, Term.EveryAll]

theorem Term.over_letIn {v a b : Term} :
    (Term.ofHead (.letIn v a b)).Over A ↔ a.Over A ∧ v.Over A ∧ b.Over A := by
  rw [← Term.every_over (t := b) (d := 1)]
  simp [Term.Over, Term.Every, Head.Every, Term.EveryAll]

theorem Term.over_cast {t a : Term} :
    (Term.ofHead (.cast t a)).Over A ↔ a.Over A ∧ t.Over A := by
  simp [Term.Over, Term.Every, Head.Every, Term.EveryAll]

theorem Term.over_case {r s : Term} {bs : List Term} :
    (Term.ofHead (.case r s bs)).Over A ↔ r.Over A ∧ s.Over A ∧ ∀ b ∈ bs, b.Over A := by
  simp [Term.Over, Term.Every, Head.Every, Term.EveryAll, Term.everyAll_iff]

theorem Term.over_fix {i : Nat} {as bs : List Term} :
    (Term.ofHead (.fix i as bs)).Over A ↔ (∀ a ∈ as, a.Over A) ∧ ∀ b ∈ bs, b.Over A := by
  have bodies : (∀ b ∈ bs, b.Over A) ↔ Term.EveryAll (fun _ _ => True) A (0 + as.length) bs := by
    simp only [Term.everyAll_iff, Term.every_over]
  rw [bodies]
  simp [Term.Over, Term.Every, Head.Every, Term.EveryAll, Term.everyAll_iff]

/-- Putting terms for variables brings in no holes but theirs. -/
theorem Term.over_bind {f : Nat → Nat → Term} {d : Nat} {t : Term} (p : t.Over A)
    (hf : ∀ e i, (f e i).Over A) : (t.bind f d).Over A :=
  Term.every_over.1 (Term.every_bind (fun e i _ => Term.every_over.2 (hf e i)) t d
    (Term.every_over.2 p))

/-- Putting terms for variables takes no hole away. -/
theorem Term.over_of_bind {f : Nat → Nat → Term} {d : Nat} {t : Term} (p : (t.bind f d).Over A) :
    t.Over A :=
  Term.every_over.1 (Term.every_of_bind t d (Term.every_over.2 p))

theorem Term.over_of_mem_preorder {t u : Term} {d e : Nat} (p : t.Over A)
    (h : (u, e) ∈ t.preorder d) : u.Over A := by
  have nodes := (Term.forall_preorder t d).2 (Term.every_over.2 p)
  refine Term.every_over.1 ((Term.forall_preorder u e).1 fun node hnode => ?_)
  exact nodes node (Term.mem_preorder_trans h hnode)

/-- The holes of a child are holes of the term. -/
theorem Term.mem_holes_of_child {t c : Term} {k e : Nat} (hc : (c, e) ∈ t.children)
    (hk : k ∈ c.holes) : k ∈ t.holes := by
  have node := Term.mem_preorder_child (Term.mem_preorder_self t 0) hc
  have listed : t.Over fun l _ => l ∈ t.holes := Term.over_holes.2 fun l hl => hl
  exact Term.over_holes.1 (Term.over_of_mem_preorder listed node) k hk

end

/-! ## Scopes -/

section
variable {n : Nat}

/-- A term under `d` binders, of which only the free variables count. -/
theorem Term.every_scoped {d : Nat} {t : Term} :
    t.Every (fun e i => i < e + n) (fun _ _ => True) d ↔ t.Scoped (d + n) := by
  have shift := Term.every_shift (v := fun e i => i < e + n) (h := fun _ _ => True) d t 0
  rw [Nat.zero_add] at shift
  rw [shift]
  simp only [Term.Scoped, Nat.add_assoc]

theorem Term.Scoped.weaken {m : Nat} {t : Term} (p : t.Scoped m) (h : m ≤ n) : t.Scoped n :=
  Term.Every.mono p (fun d i q => by omega) fun _ _ q => q

theorem Term.scoped_mk {g : Head} {xs : List Term} :
    (Term.mk g xs).Scoped n ↔ (Term.ofHead g).Scoped n ∧ ∀ x ∈ xs, x.Scoped n :=
  Term.every_mk

theorem Term.scoped_apply {t : Term} {xs : List Term} :
    (t.apply xs).Scoped n ↔ t.Scoped n ∧ ∀ x ∈ xs, x.Scoped n :=
  Term.every_apply

theorem Term.scoped_hole {k : Nat} {xs : List Term} :
    (Term.hole k xs).Scoped n ↔ ∀ x ∈ xs, x.Scoped n := by
  simp [Term.Scoped, Term.Every, Head.Every, Term.EveryAll, Term.everyAll_iff]

theorem Term.scoped_pi {a b : Term} : (Term.pi a b).Scoped n ↔ a.Scoped n ∧ b.Scoped (1 + n) := by
  rw [← Term.every_scoped (t := b)]
  simp [Term.Scoped, Term.Every, Head.Every, Term.EveryAll]

theorem Term.scoped_lam {a b : Term} :
    (Term.lam a b).Scoped n ↔ a.Scoped n ∧ b.Scoped (1 + n) := by
  rw [← Term.every_scoped (t := b)]
  simp [Term.Scoped, Term.Every, Head.Every, Term.EveryAll]

theorem Term.scoped_letIn {v a b : Term} :
    (Term.ofHead (.letIn v a b)).Scoped n ↔ a.Scoped n ∧ v.Scoped n ∧ b.Scoped (1 + n) := by
  rw [← Term.every_scoped (t := b)]
  simp [Term.Scoped, Term.Every, Head.Every, Term.EveryAll]

theorem Term.scoped_cast {t a : Term} :
    (Term.ofHead (.cast t a)).Scoped n ↔ a.Scoped n ∧ t.Scoped n := by
  simp [Term.Scoped, Term.Every, Head.Every, Term.EveryAll]

theorem Term.scoped_case {r s : Term} {bs : List Term} :
    (Term.ofHead (.case r s bs)).Scoped n ↔
      r.Scoped n ∧ s.Scoped n ∧ ∀ b ∈ bs, b.Scoped n := by
  simp [Term.Scoped, Term.Every, Head.Every, Term.EveryAll, Term.everyAll_iff]

theorem Term.scoped_fix {i : Nat} {as bs : List Term} :
    (Term.ofHead (.fix i as bs)).Scoped n ↔
      (∀ a ∈ as, a.Scoped n) ∧ ∀ b ∈ bs, b.Scoped (as.length + n) := by
  simp only [← Term.every_scoped]
  simp [Term.Scoped, Term.Every, Head.Every, Term.EveryAll, Term.everyAll_iff]

end

end KeyedMatching
