import KeyedMatching.Matching.Selection
import KeyedMatching.Proofs.Matching.Occurrences
import KeyedMatching.Proofs.Term.Inert

/-!
# Cutting out copies

The copies of a term in another, numbered from one in visiting order, and what is left of the other
when the chosen ones are taken out.

* `Term.copiesIn`: the number of copies in a list of nodes; there is none inside a copy
  (`Term.copiesIn_below`);
* `Term.cut`: a term with a new variable in the place of the chosen copies;
* `OccurrenceTest.Literal`: a test that reports the copies of a term, and nothing else;
* `Term.walk_takes`: with such a test a walk meets all copies and cuts out the chosen ones.
-/

namespace KeyedMatching

/-! ## Counting -/

/-- The number of copies of `p` in a list of nodes. -/
def Term.copiesIn (p : Term) (nodes : List (Term × Nat)) : Nat :=
  nodes.countP fun node => p.IsCopy node.2 node.1

section
variable {p : Term} {d : Nat}

@[simp] theorem Term.copiesIn_nil : p.copiesIn [] = 0 := rfl

theorem Term.copiesIn_append (nodes nodes' : List (Term × Nat)) :
    p.copiesIn (nodes ++ nodes') = p.copiesIn nodes + p.copiesIn nodes' :=
  List.countP_append

theorem Term.copiesIn_cons (node : Term × Nat) (nodes : List (Term × Nat)) :
    p.copiesIn (node :: nodes) = p.copiesIn [node] + p.copiesIn nodes :=
  Term.copiesIn_append [node] nodes

theorem Term.copiesIn_of_isCopy {u : Term} (copy : p.IsCopy d u) : p.copiesIn [(u, d)] = 1 := by
  simp [Term.copiesIn, copy]

theorem Term.copiesIn_of_not_isCopy {u : Term} (other : ¬ p.IsCopy d u) :
    p.copiesIn [(u, d)] = 0 := by
  simp [Term.copiesIn, other]

theorem Term.IsCopy.size_eq {h : Head} {xs : List Term} (copy : p.IsCopy d (.mk h xs)) :
    p.size = h.size + Term.sizes (xs.take p.args.length) :=
  calc p.size = (p.lift 0 d).size := (Term.size_lift p 0 d).symm
    _ = (Term.mk h (xs.take p.args.length)).size := congrArg Term.size copy.1.symm
    _ = h.size + Term.sizes (xs.take p.args.length) := by rw [Term.size]

/-- There is no copy among smaller nodes. -/
theorem Term.copiesIn_of_small {nodes : List (Term × Nat)}
    (small : ∀ node ∈ nodes, node.1.size < p.size) : p.copiesIn nodes = 0 := by
  refine List.countP_eq_zero.2 fun node listed copy => ?_
  have less := small node listed
  obtain ⟨⟨g, ys⟩, e⟩ := node
  have covered := Term.sizes_take_add_drop ys p.args.length
  rw [Term.size, Term.IsCopy.size_eq (of_decide_eq_true copy)] at less
  omega

/-- There is no copy in the head of a copy. -/
theorem Term.copiesIn_inner {h : Head} {xs : List Term} (copy : p.IsCopy d (.mk h xs)) :
    p.copiesIn (h.inner d) = 0 := by
  refine Term.copiesIn_of_small fun node inside => ?_
  rw [Head.inner_eq_flatMap] at inside
  obtain ⟨c, child, inside⟩ := List.mem_flatMap.1 inside
  have below := c.1.size_le_of_mem_preorder _ node inside
  have less := h.size_child c child
  rw [copy.size_eq]
  omega

/-- Below an application that has a copy as a prefix, the other copies are in the arguments that are
left. -/
theorem Term.copiesIn_below {h : Head} {x : Term} {xs : List Term}
    (copy : p.IsCopy d (.mk h (x :: xs))) :
    p.copiesIn ((.ofHead h, d) :: (h.inner d ++ Term.preorderAll d (x :: xs))) =
      p.copiesIn (Term.preorderAll d ((x :: xs).drop p.args.length)) := by
  have bare : ¬ p.IsCopy d (.ofHead h) := by
    intro alone
    have none' : p.args = [] := List.length_eq_zero_iff.1 (Nat.le_zero.1 alone.length_le)
    cases copy.2 none'
  have covered : p.copiesIn (Term.preorderAll d ((x :: xs).take p.args.length)) = 0 := by
    refine Term.copiesIn_of_small fun node inside => ?_
    rw [Term.preorderAll_eq_flatMap] at inside
    obtain ⟨y, listed, inside⟩ := List.mem_flatMap.1 inside
    have below := y.size_le_of_mem_preorder d node inside
    have less := Term.size_le_sizes listed
    have head := h.size_pos
    rw [copy.size_eq]
    omega
  have split : Term.preorderAll d (x :: xs) = Term.preorderAll d ((x :: xs).take p.args.length) ++
      Term.preorderAll d ((x :: xs).drop p.args.length) := by
    simp only [Term.preorderAll_eq_flatMap, ← List.flatMap_append, List.take_append_drop]
  rw [Term.copiesIn_cons, Term.copiesIn_of_not_isCopy bare, Term.copiesIn_append,
    Term.copiesIn_inner copy, split, Term.copiesIn_append, covered]
  omega

end

/-! ## Cutting -/

section
variable (p : Term) (chosen : Nat → Bool)

mutual

/-- `Term.cut` in a head. -/
def Head.cut (d k : Nat) : Head → Head
  | .rel i => .rel (if d ≤ i then i + 1 else i)
  | .sort n => .sort n
  | .const c => .const c
  | .hole l xs => .hole l (Term.cutFrom d k 0 xs)
  | .pi a b => .pi (a.cut d k) (b.cut (d + 1) (k + p.copiesIn (a.preorder d)))
  | .lam a b => .lam (a.cut d k) (b.cut (d + 1) (k + p.copiesIn (a.preorder d)))
  | .letIn v a b =>
    let afterType := k + p.copiesIn (a.preorder d)
    .letIn (v.cut d afterType) (a.cut d k) (b.cut (d + 1) (afterType + p.copiesIn (v.preorder d)))
  | .cast t a => .cast (t.cut d (k + p.copiesIn (a.preorder d))) (a.cut d k)
  | .case r t bs =>
    let afterMotive := k + p.copiesIn (r.preorder d)
    .case (r.cut d k) (t.cut d afterMotive)
      (Term.cutFrom d (afterMotive + p.copiesIn (t.preorder d)) 0 bs)
  | .fix i as bs =>
    .fix i (Term.cutFrom d k 0 as)
      (Term.cutFrom (d + as.length) (k + p.copiesIn (Term.preorderAll d as)) 0 bs)

/-- Put the new variable for the chosen copies of `p` in a term under `d` binders, `k` copies having
come before the term, and make room for that variable. A copy that is a prefix of an application
leaves the other arguments. -/
def Term.cut (d k : Nat) : Term → Term
  | .mk h [] =>
    if p.IsCopy d (.ofHead h) ∧ chosen (k + 1) then .rel d
    else .ofHead (h.cut d (k + p.copiesIn [(.ofHead h, d)]))
  | .mk h (x :: xs) =>
    if p.IsCopy d (.mk h (x :: xs)) ∧ chosen (k + 1) then
      (Term.rel d).apply (Term.cutFrom d (k + 1) p.args.length (x :: xs))
    else
      let atHead := k + p.copiesIn [(.mk h (x :: xs), d)]
      let g : Term :=
        if p.IsCopy d (.ofHead h) ∧ chosen (atHead + 1) then .rel d
        else .ofHead (h.cut d (atHead + p.copiesIn [(.ofHead h, d)]))
      g.apply (Term.cutFrom d (atHead + p.copiesIn ((Term.ofHead h).preorder d)) 0 (x :: xs))

/-- `Term.cut` in a list of terms, of which the first `n` are left out. -/
def Term.cutFrom (d k : Nat) : Nat → List Term → List Term
  | _, [] => []
  | 0, x :: xs => x.cut d k :: Term.cutFrom d (k + p.copiesIn (x.preorder d)) 0 xs
  | n + 1, _ :: xs => Term.cutFrom d k n xs

end

end

/-! ## Walking -/

section
variable {σ α β : Type}

/-- The test reports the copies of `p`, and these only, among inert nodes. `inv n` is known of its
state after the choice of `n` occurrences. Only where `stuck` holds may it be without an answer. -/
structure OccurrenceTest.Literal (test : OccurrenceTest σ) (p : Term) (stuck : Prop)
    (inv : Nat → σ → Prop) : Prop where
  passes : ∀ u d n st, u.isInert = true → inv n st → ¬ p.IsCopy d u →
    ∃ st', test.occurrenceAt u d st = some (none, st') ∧ inv n st'
  reports : ∀ u d n st, u.isInert = true → inv n st → p.IsCopy d u →
    (stuck ∧ test.occurrenceAt u d st = none) ∨
      ∃ st', test.occurrenceAt u d st = some (some p.args.length, st') ∧ inv n st' ∧
        inv (n + 1) (test.select st')

/-- The walk has met `k` occurrences, and has chosen those among them that are to be chosen. -/
structure Selection.Met (occ : Occurrences) (inv : Nat → σ → Prop) (k : Nat) (st : Selection σ) :
    Prop where
  found : st.found = k
  selected : st.selected = occ.chosenUpTo k
  state : inv (occ.chosenUpTo k) st.state

/-- After `k` occurrences the walk goes on to `m` and has the result `a`. Only where `stuck` holds
may it be without one. -/
def Walk.Takes (stuck : Prop) (occ : Occurrences) (inv : Nat → σ → Prop) (x : Walk σ α)
    (k m : Nat) (a : α) : Prop :=
  ∀ st, Selection.Met occ inv k st →
    (stuck ∧ x.run st = none) ∨ ∃ st', x.run st = some (a, st') ∧ Selection.Met occ inv m st'

section
variable {stuck : Prop} {occ : Occurrences} {inv : Nat → σ → Prop}

theorem Walk.takes_pure (a : α) (k : Nat) : Walk.Takes stuck occ inv (pure a) k k a :=
  fun st met => .inr ⟨st, rfl, met⟩

theorem Walk.takes_bind {x : Walk σ α} {f : α → Walk σ β} {k l m : Nat} {a : α} {b : β}
    (hx : Walk.Takes stuck occ inv x k l a) (hf : Walk.Takes stuck occ inv (f a) l m b) :
    Walk.Takes stuck occ inv (x >>= f) k m b := by
  intro st met
  rw [StateT.run_bind]
  rcases hx st met with ⟨yes, cut⟩ | ⟨st₁, ran, met₁⟩
  · exact .inl ⟨yes, by rw [cut]; rfl⟩
  · rw [ran]
    exact hf st₁ met₁

theorem Walk.takes_map {x : Walk σ α} {f : α → β} {k m : Nat} {a : α}
    (hx : Walk.Takes stuck occ inv x k m a) :
    Walk.Takes stuck occ inv (x >>= fun a => pure (f a)) k m (f a) :=
  Walk.takes_bind hx (Walk.takes_pure _ m)

end

section
variable {test : OccurrenceTest σ} {p : Term} {stuck : Prop} {inv : Nat → σ → Prop}
  {occ : Occurrences}

theorem visit_takes (literal : test.Literal p stuck inv) {u : Term} (inert : u.isInert = true)
    (d k : Nat) : Walk.Takes stuck occ inv (visit occ test u d) k (k + p.copiesIn [(u, d)])
      (if p.IsCopy d u ∧ occ.selects (k + 1) then some p.args.length else none) := by
  intro st ⟨found, selected, state⟩
  simp only [visit, StateT.run_bind, StateT.run_get, StateT.run_lift, Option.bind_eq_bind,
    Option.pure_def, Option.bind_some]
  by_cases copy : p.IsCopy d u
  · rw [Term.copiesIn_of_isCopy copy]
    rcases literal.reports u d _ st.state inert state copy with
      ⟨yes, cut⟩ | ⟨st', reported, kept, counted⟩
    · exact .inl ⟨yes, by rw [cut]; rfl⟩
    · refine .inr ?_
      rw [reported, found]
      have next := occ.chosenUpTo_succ k
      by_cases chosen : occ.selects (k + 1) = true
      · rw [if_pos chosen] at next
        rw [if_pos ⟨copy, chosen⟩]
        refine ⟨⟨k + 1, st.selected + 1, test.select st'⟩, ?_, rfl, ?_, next ▸ counted⟩
        · simp only [Option.bind_some, chosen, if_true]
          rfl
        · rw [next, selected]
      · rw [if_neg chosen] at next
        rw [if_neg fun both => chosen both.2]
        refine ⟨⟨k + 1, st.selected, st'⟩, ?_, rfl, ?_, next ▸ kept⟩
        · simp only [Option.bind_some, chosen]
          rfl
        · rw [next]
          exact selected
  · obtain ⟨st', passed, kept⟩ := literal.passes u d _ st.state inert state copy
    rw [Term.copiesIn_of_not_isCopy copy, if_neg fun both => copy both.1, passed]
    exact .inr ⟨{ st with state := st' }, rfl, found, selected, kept⟩

mutual

theorem Head.walk_takes (literal : test.Literal p stuck inv) : (h : Head) → (d k : Nat) →
    (∀ node ∈ h.inner d, node.1.isInert = true) →
      Walk.Takes stuck occ inv (h.walk occ test d) k (k + p.copiesIn (h.inner d))
        (Head.cut p occ.selects d k h)
  | .rel i, d, k, _ => Walk.takes_pure _ k
  | .sort n, d, k, _ => Walk.takes_pure _ k
  | .const c, d, k, _ => Walk.takes_pure _ k
  | .hole l xs, d, k, inert => Walk.takes_map (Term.walkFrom_takes literal xs d k 0 inert)
  | .pi a b, d, k, inert => by
    obtain ⟨ha, hb⟩ := List.forall_mem_append.1 inert
    rw [Head.inner, Term.copiesIn_append, ← Nat.add_assoc]
    refine Walk.takes_bind (Term.walk_takes literal a d k ha) ?_
    exact Walk.takes_map (Term.walk_takes literal b (d + 1) _ hb)
  | .lam a b, d, k, inert => by
    obtain ⟨ha, hb⟩ := List.forall_mem_append.1 inert
    rw [Head.inner, Term.copiesIn_append, ← Nat.add_assoc]
    refine Walk.takes_bind (Term.walk_takes literal a d k ha) ?_
    exact Walk.takes_map (Term.walk_takes literal b (d + 1) _ hb)
  | .letIn v a b, d, k, inert => by
    obtain ⟨ha, rest⟩ := List.forall_mem_append.1 inert
    obtain ⟨hv, hb⟩ := List.forall_mem_append.1 rest
    rw [Head.inner, Term.copiesIn_append, Term.copiesIn_append, ← Nat.add_assoc, ← Nat.add_assoc]
    refine Walk.takes_bind (Term.walk_takes literal a d k ha) ?_
    refine Walk.takes_bind (Term.walk_takes literal v d _ hv) ?_
    exact Walk.takes_map (Term.walk_takes literal b (d + 1) _ hb)
  | .cast t a, d, k, inert => by
    obtain ⟨ha, ht⟩ := List.forall_mem_append.1 inert
    rw [Head.inner, Term.copiesIn_append, ← Nat.add_assoc]
    refine Walk.takes_bind (Term.walk_takes literal a d k ha) ?_
    exact Walk.takes_map (Term.walk_takes literal t d _ ht)
  | .case r t bs, d, k, inert => by
    obtain ⟨hr, rest⟩ := List.forall_mem_append.1 inert
    obtain ⟨ht, hbs⟩ := List.forall_mem_append.1 rest
    rw [Head.inner, Term.copiesIn_append, Term.copiesIn_append, ← Nat.add_assoc, ← Nat.add_assoc]
    refine Walk.takes_bind (Term.walk_takes literal r d k hr) ?_
    refine Walk.takes_bind (Term.walk_takes literal t d _ ht) ?_
    exact Walk.takes_map (Term.walkFrom_takes literal bs d _ 0 hbs)
  | .fix i as bs, d, k, inert => by
    obtain ⟨has, hbs⟩ := List.forall_mem_append.1 inert
    rw [Head.inner, Term.copiesIn_append, ← Nat.add_assoc]
    refine Walk.takes_bind (Term.walkFrom_takes literal as d k 0 has) ?_
    exact Walk.takes_map (Term.walkFrom_takes literal bs (d + as.length) _ 0 hbs)

/-- A walk cuts out the chosen copies, and counts them all. -/
theorem Term.walk_takes (literal : test.Literal p stuck inv) : (t : Term) → (d k : Nat) →
    (∀ node ∈ t.preorder d, node.1.isInert = true) →
      Walk.Takes stuck occ inv (t.walk occ test d) k (k + p.copiesIn (t.preorder d))
        (Term.cut p occ.selects d k t)
  | .mk h [], d, k, inert => by
    obtain ⟨node, inner⟩ := List.forall_mem_cons.1 inert
    rw [Term.preorder, Term.copiesIn_cons, ← Nat.add_assoc]
    refine Walk.takes_bind (visit_takes literal node d k) ?_
    by_cases taken : p.IsCopy d (.ofHead h) ∧ occ.selects (k + 1) = true
    · rw [Term.cut, if_pos taken, if_pos taken, Term.copiesIn_inner taken.1]
      exact Walk.takes_pure _ _
    · rw [Term.cut, if_neg taken, if_neg taken]
      exact Walk.takes_map (Head.walk_takes literal h d _ inner)
  | .mk h (x :: xs), d, k, inert => by
    obtain ⟨node, rest⟩ := List.forall_mem_cons.1 inert
    obtain ⟨bare, rest⟩ := List.forall_mem_cons.1 rest
    obtain ⟨inner, args⟩ := List.forall_mem_append.1 rest
    rw [Term.preorder, Term.copiesIn_cons, ← Nat.add_assoc]
    refine Walk.takes_bind (visit_takes literal node d k) ?_
    by_cases taken : p.IsCopy d (.mk h (x :: xs)) ∧ occ.selects (k + 1) = true
    · rw [Term.cut, if_pos taken, if_pos taken, Term.copiesIn_below taken.1,
        Term.copiesIn_of_isCopy taken.1]
      exact Walk.takes_map (Term.walkFrom_takes literal (x :: xs) d (k + 1) _ args)
    · rw [Term.cut, if_neg taken, if_neg taken]
      generalize k + p.copiesIn [(.mk h (x :: xs), d)] = m
      -- What is done once the head, which may be a copy of its own, has become `g`.
      have spine (g : Term) (n : Nat) : Walk.Takes stuck occ inv
          (do
            let ys ← Term.walkFrom occ test d 0 (x :: xs)
            return g.apply ys)
          n (n + p.copiesIn (Term.preorderAll d (x :: xs)))
          (g.apply (Term.cutFrom p occ.selects d n 0 (x :: xs))) :=
        Walk.takes_map (Term.walkFrom_takes literal (x :: xs) d n 0 args)
      have parts : p.copiesIn ((.ofHead h, d) :: (h.inner d ++ Term.preorderAll d (x :: xs))) =
          p.copiesIn ((Term.ofHead h).preorder d) + p.copiesIn (Term.preorderAll d (x :: xs)) :=
        Term.copiesIn_append ((Term.ofHead h).preorder d) _
      have head : p.copiesIn ((Term.ofHead h).preorder d) =
          p.copiesIn [(.ofHead h, d)] + p.copiesIn (h.inner d) :=
        Term.copiesIn_cons (.ofHead h, d) (h.inner d)
      dsimp only
      rw [parts, head, ← Nat.add_assoc, ← Nat.add_assoc]
      refine Walk.takes_bind (visit_takes literal bare d m) ?_
      by_cases alone : p.IsCopy d (.ofHead h) ∧ occ.selects (m + 1) = true
      · rw [if_pos alone, if_pos alone, Term.copiesIn_inner alone.1]
        exact spine (.rel d) _
      · rw [if_neg alone, if_neg alone]
        exact Walk.takes_bind (Head.walk_takes literal h d _ inner) (spine _ _)

theorem Term.walkFrom_takes (literal : test.Literal p stuck inv) : (xs : List Term) →
    (d k n : Nat) → (∀ node ∈ Term.preorderAll d xs, node.1.isInert = true) →
      Walk.Takes stuck occ inv (Term.walkFrom occ test d n xs) k
        (k + p.copiesIn (Term.preorderAll d (xs.drop n))) (Term.cutFrom p occ.selects d k n xs)
  | [], d, k, n, _ => by
    rw [List.drop_nil, Term.walkFrom, Term.cutFrom]
    exact Walk.takes_pure _ k
  | x :: xs, d, k, 0, inert => by
    obtain ⟨hx, hxs⟩ := List.forall_mem_append.1 inert
    rw [List.drop_zero, Term.preorderAll, Term.copiesIn_append, ← Nat.add_assoc]
    refine Walk.takes_bind (Term.walk_takes literal x d k hx) ?_
    exact Walk.takes_map (Term.walkFrom_takes literal xs d _ 0 hxs)
  | x :: xs, d, k, n + 1, inert =>
    Term.walkFrom_takes literal xs d k n (List.forall_mem_append.1 inert).2

end

end

end

end KeyedMatching
