import KeyedMatching.Proofs.Term.Copies
import KeyedMatching.Proofs.Term.Order
import Mathlib.Data.List.Basic

/-!
# Substitution node by node

The operations on variables, carried out by a search or a replacement that comes to the nodes in
visiting order with the number of binders around each. A term in which no variable is in reach is
given back as it is, before anything is rebuilt.

* `Term.looseByNodes`, `Term.largestByNodes`: the questions about free variables, as searches;
* `Term.liftByNodes`, `Term.lowerByNodes?`, `Term.instantiateByNodes`: lifting, lowering and putting
  terms for variables, each by one replacement, with these questions asked first;
* `Term.renumberByNodes?`: the renumbering that gives up at the first variable that is not listed;
* `Term.replace_eq_bind`, `Term.replaceM_askRel`: a replacement of variables is a binding, so these
  operations come to what those come to that are defined by one.
-/

namespace KeyedMatching

/-- Ask about variables only: the binders around one, and its index. -/
def Term.testRel (p : Nat → Nat → Bool) (u : Term) (d : Nat) : Bool :=
  match u with
  | .rel i => p d i
  | _ => false

/-- Replace variables only. -/
def Term.answerRel (f : Nat → Nat → Option Term) (u : Term) (d : Nat) : Option Term :=
  match u with
  | .rel i => f d i
  | _ => none

/-- Replace every variable, or give up. -/
def Term.askRel (f : Nat → Nat → Option Term) (u : Term) (d : Nat) : Option (Option Term) :=
  match u with
  | .rel i => (f d i).map some
  | _ => some none

/-- Does a search come to a free variable from number `c` on? -/
def Term.looseByNodes (t : Term) (c : Nat) : Bool :=
  (t.search (Term.testRel fun d i => d + c ≤ i) 0).1

/-- Remember a free variable if it is larger than those before. -/
def Term.noteFree (u : Term) (d : Nat) : StateM (Option Nat) Unit :=
  match u.freeRel? d with
  | some i => modify fun largest => max largest (some i)
  | none => pure ()

/-- The largest free variable that a search through all nodes has come to. -/
def Term.largestByNodes (t : Term) : Option Nat :=
  ((Term.searchM (failing Term.noteFree) [(t, 0)]).run none).2

/-- Lift, unless there is nothing to lift. -/
def Term.liftByNodes (t : Term) (c n : Nat) : Term :=
  if n = 0 || !t.looseByNodes c then t
  else t.replace (Term.answerRel fun d i => if d ≤ i then some (.rel (i + n)) else none) c

/-- Lower, unless there is nothing to lower; a variable that would be taken out is searched for
before. -/
def Term.lowerByNodes? (t : Term) (c n : Nat) : Option Term :=
  if n = 0 || !t.looseByNodes c then some t
  else if (t.search (Term.testRel fun d i => d ≤ i && i < d + n) c).1 then none
  else some (t.replace
    (Term.answerRel fun d i => if d + n ≤ i then some (.rel (i - n)) else none) c)

/-- Put terms for the first free variables, unless there are no terms or no variables. -/
def Term.instantiateByNodes (t : Term) (values : List Term) : Term :=
  if values.length = 0 || !t.looseByNodes 0 then t
  else t.replace
    (Term.answerRel fun d i =>
      if d ≤ i then
        match values[i - d]? with
        | some v => some (v.liftByNodes 0 d)
        | none => some (.rel (i - values.length))
      else none)
    0

/-- The variable that another is renumbered to, if it is bound or listed. -/
def Term.renumberRel? (vars : List Nat) (d i : Nat) : Option Term :=
  if i < d then some (.rel i) else (vars.idxOf? (i - d)).map fun p => .rel (p + d)

/-- Renumber free variables, giving up at the first that is not listed. -/
def Term.renumberByNodes? (t : Term) (vars : List Nat) : Option Term :=
  t.replaceM (m := Option) (Term.askRel (Term.renumberRel? vars)) 0

/-! ## Searches -/

section
variable {p : Nat → Nat → Bool}

theorem anyM_counting (test : Term → Nat → Bool) (nodes : List (Term × Nat)) (n : Nat) :
    ((nodes.anyM fun (u, k) => do
      modify (· + 1)
      return test u k : StateM Nat Bool).run n).1 = nodes.any fun (u, k) => test u k := by
  induction nodes generalizing n with
  | nil => rfl
  | cons node nodes ih =>
    rw [List.anyM_cons, List.any_cons]
    cases hit : test node.1 node.2 with
    | true => simp [hit]; rfl
    | false => simpa [hit] using ih (n + 1)

/-- A search tells whether one of the nodes passes. -/
theorem Term.search_fst (test : Term → Nat → Bool) (t : Term) (d : Nat) :
    (t.search test d).1 = (t.preorder d).any fun (u, k) => test u k := by
  have searched := Term.searchM_eq_anyM (m := StateM Nat)
    (fun u k => do modify (· + 1); return test u k) [(t, d)]
  rw [List.flatMap_singleton] at searched
  exact (congrArg (fun x => (x.run 0).1) searched).trans (anyM_counting test _ 0)

theorem Term.fits_testRel (u : Term) (d : Nat) :
    u.Fits (fun d i => p d i = false) (fun _ _ => True) d ↔ Term.testRel p u d = false := by
  obtain ⟨g, xs⟩ := u
  cases g <;> cases xs <;> simp [Term.Fits, Term.testRel]

/-- No variable passes just if none does where it stands. -/
theorem Term.search_testRel {t : Term} {d : Nat} :
    (t.search (Term.testRel p) d).1 = false ↔
      t.Every (fun d i => p d i = false) (fun _ _ => True) d := by
  rw [Term.search_fst, ← Term.forall_preorder, List.any_eq_false]
  simp only [Term.fits_testRel, Bool.not_eq_true]

end

theorem eq_of_false_iff {a b : Bool} (h : a = false ↔ b = false) : a = b := by
  cases b with
  | false => exact h.2 rfl
  | true => simpa using h

theorem Term.isLooseFrom_eq_false {t : Term} {c : Nat} :
    t.isLooseFrom c = false ↔ t.Scoped c := by
  rw [Term.scoped_iff, Term.isLooseFrom, List.any_eq_false]
  simp only [decide_eq_true_eq, Nat.not_le]

theorem Term.looseByNodes_eq (t : Term) (c : Nat) : t.looseByNodes c = t.isLooseFrom c := by
  have same : t.looseByNodes c = false ↔ t.isLooseFrom c = false := by
    rw [Term.isLooseFrom_eq_false, Term.looseByNodes, Term.search_testRel, Term.Scoped]
    simp only [decide_eq_false_iff_not, Nat.not_le]
  exact eq_of_false_iff same

/-! ## The largest -/

theorem forM_noteFree (nodes : List (Term × Nat)) (largest : Option Nat) :
    ((nodes.forM fun (u, d) => u.noteFree d).run largest).2 =
      (nodes.filterMap fun (u, d) => u.freeRel? d).foldl (fun m i => max m (some i)) largest := by
  induction nodes generalizing largest with
  | nil => rfl
  | cons node nodes ih =>
    obtain ⟨u, d⟩ := node
    refine (ih ((u.noteFree d).run largest).2).trans ?_
    simp only [List.filterMap_cons, Term.noteFree]
    cases u.freeRel? d <;> rfl

theorem foldl_max_some (l : List Nat) (m : Nat) :
    l.foldl (fun m i => max m (some i)) (some m) = some (l.foldl max m) := by
  induction l generalizing m with
  | nil => rfl
  | cons i l ih => exact ih (max m i)

theorem Term.largestByNodes_eq (t : Term) : t.largestByNodes = t.maxFreeRel := by
  have noted : t.largestByNodes = t.freeRels.foldl (fun m i => max m (some i)) none := by
    rw [Term.largestByNodes, Term.searchM_failing, StateT.run_bind]
    exact forM_noteFree _ none
  rw [noted, Term.maxFreeRel]
  cases t.freeRels with
  | nil => rfl
  | cons i l => exact foldl_max_some l i

/-! ## Replacing variables -/

section
variable {F : Term → Nat → Option Term}

/-- The variables as they are replaced. -/
def putReplaced (F : Term → Nat → Option Term) (d i : Nat) : Term :=
  (F (.rel i) d).getD (.rel i)

mutual

theorem Head.replace_eq_bind (only : ∀ u d, (∀ i, u ≠ .rel i) → F u d = none) :
    (h : Head) → (d : Nat) → (∀ i, h ≠ .rel i) →
      Term.ofHead (h.replace F d) = h.bind (putReplaced F) d
  | .rel i, _, other => absurd rfl (other i)
  | .sort _, _, _ => rfl
  | .const _, _, _ => rfl
  | .hole k xs, d, _ => by
    rw [Head.replace_hole, Head.bind, Term.replaceAll_eq_bindAll only xs d]
  | .pi a b, d, _ =>
    congrArg₂ Term.pi (Term.replace_eq_bind only a d) (Term.replace_eq_bind only b (d + 1))
  | .lam a b, d, _ =>
    congrArg₂ Term.lam (Term.replace_eq_bind only a d) (Term.replace_eq_bind only b (d + 1))
  | .letIn v a b, d, _ => by
    rw [Head.bind, ← Term.replace_eq_bind only v d, ← Term.replace_eq_bind only a d,
      ← Term.replace_eq_bind only b (d + 1)]
    rfl
  | .cast t a, d, _ => by
    rw [Head.bind, ← Term.replace_eq_bind only t d, ← Term.replace_eq_bind only a d]
    rfl
  | .case r s bs, d, _ => by
    rw [Head.replace_case, Head.bind, Term.replace_eq_bind only r d, Term.replace_eq_bind only s d,
      Term.replaceAll_eq_bindAll only bs d]
  | .fix i as bs, d, _ => by
    rw [Head.replace_fix, Head.bind, Term.replaceAll_eq_bindAll only as d,
      Term.replaceAll_eq_bindAll only bs (d + as.length)]

theorem Term.replace_ofHead_eq_bind (only : ∀ u d, (∀ i, u ≠ .rel i) → F u d = none) (h : Head)
    (d : Nat) : (Term.ofHead h).replace F d = h.bind (putReplaced F) d := by
  rw [Term.replace_ofHead]
  by_cases var : ∃ i, h = .rel i
  · obtain ⟨i, rfl⟩ := var
    rfl
  · have other : ∀ i, h ≠ .rel i := not_exists.1 var
    rw [only (.ofHead h) d fun i same => other i (congrArg Term.head same)]
    exact Head.replace_eq_bind only h d other

/-- Where nothing but variables is replaced, replacing is putting terms for variables. -/
theorem Term.replace_eq_bind (only : ∀ u d, (∀ i, u ≠ .rel i) → F u d = none) :
    (t : Term) → (d : Nat) → t.replace F d = t.bind (putReplaced F) d
  | .mk h [], d => by
    rw [Term.replace_ofHead_eq_bind only h d, Term.bind, Term.bindAll, Term.apply_nil]
  | .mk h (x :: xs), d => by
    have applied : F (.mk h (x :: xs)) d = none := only _ d fun i same => by cases same
    rw [Term.replace_mk_cons, applied, Option.getD_none, Term.bind,
      Term.replace_ofHead_eq_bind only h d, Term.replaceAll_eq_bindAll only (x :: xs) d]

theorem Term.replaceAll_eq_bindAll (only : ∀ u d, (∀ i, u ≠ .rel i) → F u d = none) :
    (xs : List Term) → (d : Nat) → xs.map (·.replace F d) = Term.bindAll (putReplaced F) d xs
  | [], _ => rfl
  | x :: xs, d =>
    congrArg₂ List.cons (Term.replace_eq_bind only x d) (Term.replaceAll_eq_bindAll only xs d)

end

end

theorem Term.replace_answerRel (f : Nat → Nat → Option Term) (t : Term) (d : Nat) :
    t.replace (Term.answerRel f) d = t.bind (fun d i => (f d i).getD (.rel i)) d := by
  refine Term.replace_eq_bind (fun u d other => ?_) t d
  unfold Term.answerRel
  split
  · next i => exact absurd rfl (other i)
  · rfl

/-! ## Replacing every variable, or none -/

section
variable {f : Nat → Nat → Option Term}

mutual

theorem Head.replaceM_askRel : (h : Head) → (d : Nat) → (g : Head) → (∀ i, h ≠ .rel i) →
    (h.replaceM (Term.askRel f) d = some g ↔
      h.Every (fun d i => (f d i).isSome) (fun _ _ => True) d ∧
        h.bind (fun d i => (f d i).getD (.rel i)) d = .ofHead g)
  | .rel i, _, _, other => absurd rfl (other i)
  | .sort n, d, g, _ => by simp [Head.replaceM, Head.Every, Head.bind]
  | .const c, d, g, _ => by simp [Head.replaceM, Head.Every, Head.bind]
  | .hole k xs, d, g, _ => by
    simp [Head.replaceM, Head.Every, Head.bind, Option.bind_eq_some_iff, and_assoc,
      Term.replaceAllM_askRel xs d]
  | .pi a b, d, g, _ => by
    simp [Head.replaceM, Head.Every, Head.bind, Option.bind_eq_some_iff, and_assoc,
      Term.replaceM_askRel a d, Term.replaceM_askRel b (d + 1)]
  | .lam a b, d, g, _ => by
    simp [Head.replaceM, Head.Every, Head.bind, Option.bind_eq_some_iff, and_assoc,
      Term.replaceM_askRel a d, Term.replaceM_askRel b (d + 1)]
  | .letIn v a b, d, g, _ => by
    simp [Head.replaceM, Head.Every, Head.bind, Option.bind_eq_some_iff, and_assoc,
      Term.replaceM_askRel v d, Term.replaceM_askRel a d, Term.replaceM_askRel b (d + 1)]
  | .cast t a, d, g, _ => by
    simp [Head.replaceM, Head.Every, Head.bind, Option.bind_eq_some_iff, and_assoc,
      Term.replaceM_askRel t d, Term.replaceM_askRel a d]
  | .case r s bs, d, g, _ => by
    simp [Head.replaceM, Head.Every, Head.bind, Option.bind_eq_some_iff, and_assoc,
      Term.replaceM_askRel r d, Term.replaceM_askRel s d, Term.replaceAllM_askRel bs d]
  | .fix i as bs, d, g, _ => by
    simp [Head.replaceM, Head.Every, Head.bind, Option.bind_eq_some_iff, and_assoc,
      Term.replaceAllM_askRel as d, Term.replaceAllM_askRel bs (d + as.length)]

theorem Term.replaceM_askRel_ofHead (h : Head) (d : Nat) (u : Term) :
    ((Term.ofHead h).replaceM (Term.askRel f) d = some u ↔
      h.Every (fun d i => (f d i).isSome) (fun _ _ => True) d ∧
        h.bind (fun d i => (f d i).getD (.rel i)) d = u) := by
  by_cases var : ∃ i, h = .rel i
  · obtain ⟨i, rfl⟩ := var
    cases answer : f d i <;>
      simp [Term.replaceM, Term.askRel, Head.Every, Head.bind, answer]
  · have other : ∀ i, h ≠ .rel i := not_exists.1 var
    have rebuilt : (Term.ofHead h).replaceM (Term.askRel f) d =
        (h.replaceM (Term.askRel f) d).bind fun g => some (.ofHead g) := by
      cases h with
      | rel i => exact absurd rfl (other i)
      | _ => rfl
    obtain ⟨g, hg⟩ : ∃ g, h.bind (fun d i => (f d i).getD (.rel i)) d = .ofHead g := by
      cases h with
      | rel i => exact absurd rfl (other i)
      | _ => exact ⟨_, rfl⟩
    rw [rebuilt, Option.bind_eq_some_iff]
    simp only [Head.replaceM_askRel h d _ other, hg, Option.some.injEq]
    constructor
    · rintro ⟨_, ⟨every, same⟩, rfl⟩
      exact ⟨every, same⟩
    · rintro ⟨every, rfl⟩
      exact ⟨g, ⟨every, rfl⟩, rfl⟩

/-- All variables are replaced if there is an answer for each, and otherwise the replacement is
given up. -/
theorem Term.replaceM_askRel : (t : Term) → (d : Nat) → (u : Term) →
    (t.replaceM (Term.askRel f) d = some u ↔
      t.Every (fun d i => (f d i).isSome) (fun _ _ => True) d ∧
        t.bind (fun d i => (f d i).getD (.rel i)) d = u)
  | .mk h [], d, u => by
    rw [Term.replaceM_askRel_ofHead h d u, Term.Every, Term.EveryAll, and_true, Term.bind,
      Term.bindAll, Term.apply_nil]
  | .mk h (x :: xs), d, u => by
    have applied : (Term.mk h (x :: xs)).replaceM (Term.askRel f) d =
        ((Term.ofHead h).replaceM (Term.askRel f) d).bind fun g =>
          (Term.replaceAllM (Term.askRel f) d (x :: xs)).bind fun ys => some (g.apply ys) := by
      have passedOver : Term.askRel f (.mk h (x :: xs)) d = some none := by cases h <;> rfl
      simp only [Term.replaceM, passedOver, Option.bind_eq_bind, Option.bind_some]
      cases Term.askRel f (.ofHead h) d with
      | none => rfl
      | some hit =>
        cases hit with
        | some u => rfl
        | none => exact (Option.bind_assoc (h.replaceM (Term.askRel f) d) _ _).symm
    simp [applied, Option.bind_eq_some_iff, Term.replaceM_askRel_ofHead h d,
      Term.replaceAllM_askRel (x :: xs) d, Term.Every, Term.bind, and_assoc]

theorem Term.replaceAllM_askRel : (xs : List Term) → (d : Nat) → (us : List Term) →
    (Term.replaceAllM (Term.askRel f) d xs = some us ↔
      Term.EveryAll (fun d i => (f d i).isSome) (fun _ _ => True) d xs ∧
        Term.bindAll (fun d i => (f d i).getD (.rel i)) d xs = us)
  | [], _, _ => by simp [Term.replaceAllM, Term.EveryAll, Term.bindAll]
  | x :: xs, d, us => by
    simp [Term.replaceAllM, Term.EveryAll, Term.bindAll, Option.bind_eq_some_iff, and_assoc,
      Term.replaceM_askRel x d, Term.replaceAllM_askRel xs d]

end

end

/-! ## The operations -/

section
variable {f : Nat → Nat → Term}

/-- A binding of free variables does nothing to a term without any. -/
theorem Term.bind_of_scoped (bound : ∀ d i, i < d → f d i = .rel i) {t : Term} {c : Nat}
    (h : t.Scoped c) : t.bind f c = t := by
  have below : t.Every (fun e i => i < e + 0) (fun _ _ => True) c := Term.every_scoped.2 h
  exact (Term.bind_congr t c (below.mono bound fun _ _ q => q)).trans (Term.bind_rel t c)

end

theorem Term.lift_of_scoped {t : Term} {c : Nat} (h : t.Scoped c) (n : Nat) : t.lift c n = t :=
  Term.bind_of_scoped (fun _ _ low => if_neg (Nat.not_le.2 low)) h

/-- Where a search finds nothing to do, there is nothing to do. -/
theorem Term.scoped_of_looseByNodes {t : Term} {c n : Nat}
    (idle : (n = 0 || !t.looseByNodes c) = true) : n = 0 ∨ t.Scoped c := by
  rw [Term.looseByNodes_eq, Bool.or_eq_true, decide_eq_true_eq, Bool.not_eq_true',
    Term.isLooseFrom_eq_false] at idle
  exact idle

theorem Term.lift_of_looseByNodes {t : Term} {c n : Nat}
    (idle : (n = 0 || !t.looseByNodes c) = true) : t.lift c n = t := by
  rcases Term.scoped_of_looseByNodes idle with rfl | tight
  · exact Term.lift_zero c t
  · exact Term.lift_of_scoped tight n

theorem Term.liftByNodes_eq (t : Term) (c n : Nat) : t.liftByNodes c n = t.lift c n := by
  unfold Term.liftByNodes
  split
  · next idle => exact (Term.lift_of_looseByNodes idle).symm
  · rw [Term.replace_answerRel, Term.lift]
    congr 1
    funext d i
    split <;> rfl

/-- The search for a variable that is taken out begins at the position of the first of them. -/
theorem Term.search_taken (t : Term) (c n : Nat) :
    (t.search (Term.testRel fun d i => d ≤ i && i < d + n) c).1 =
      t.freeRels.any fun i => c ≤ i && i < c + n := by
  have spared (d i : Nat) : (d + c ≤ i && i < d + c + n) = false ↔
      (d ≤ i → (c ≤ i - d && i - d < c + n) = false) := by
    simp only [Bool.and_eq_false_iff, decide_eq_false_iff_not]
    omega
  have same : (t.search (Term.testRel fun d i => d ≤ i && i < d + n) c).1 = false ↔
      (t.freeRels.any fun i => c ≤ i && i < c + n) = false := by
    have shift := Term.every_shift (v := fun d i => (d ≤ i && i < d + n) = false)
      (h := fun _ _ => True) c t 0
    rw [Nat.zero_add] at shift
    rw [Term.search_testRel, shift, List.any_eq_false]
    simp only [Bool.not_eq_true, Term.forall_freeRels, spared]
  exact eq_of_false_iff same

theorem Term.lowerByNodes?_eq (t : Term) (c n : Nat) : t.lowerByNodes? c n = t.lower? c n := by
  unfold Term.lowerByNodes?
  split
  · next idle =>
    have lowered := Term.lower?_lift t c n
    rw [Term.lift_of_looseByNodes idle] at lowered
    exact lowered.symm
  · rw [Term.search_taken, Term.lower?, Term.replace_answerRel]
    congr 3
    funext d i
    split <;> rfl

theorem Term.instantiateByNodes_eq (t : Term) (values : List Term) :
    t.instantiateByNodes values = t.instantiateMany values := by
  unfold Term.instantiateByNodes
  split
  · next idle =>
    rcases Term.scoped_of_looseByNodes idle with none' | tight
    · rw [List.length_eq_zero_iff.1 none', Term.instantiateMany_nil]
    · exact (Term.bind_of_scoped (Term.movesAlong_putFirst values).bound tight).symm
  · rw [Term.replace_answerRel, Term.instantiateMany_eq_bind]
    congr 1
    funext d i
    unfold Term.putFirst
    cases values[i - d]? with
    | some v => simp only [Term.liftByNodes_eq v 0 d]; split <;> rfl
    | none => split <;> rfl

theorem Term.isSome_renumberRel? {vars : List Nat} {d i : Nat} :
    (Term.renumberRel? vars d i).isSome ↔ (d ≤ i → i - d ∈ vars) := by
  unfold Term.renumberRel?
  split
  · next bound => simp [Nat.not_le.2 bound]
  · next free => simp [Nat.not_lt.1 free, List.isSome_idxOf?]

theorem Term.renumberByNodes?_eq (t : Term) (vars : List Nat) :
    t.renumberByNodes? vars = t.abstractRels? vars := by
  have listed : t.Every (fun d i => (Term.renumberRel? vars d i).isSome) (fun _ _ => True) 0 ↔
      t.freeRels.all (vars.contains ·) = true := by
    simp only [Term.isSome_renumberRel?, List.all_eq_true, List.contains_eq_mem,
      decide_eq_true_eq, Term.forall_freeRels]
  refine Option.ext fun u => ?_
  rw [Term.renumberByNodes?, Term.replaceM_askRel, listed, Term.abstractRels?]
  split
  · next all =>
    rw [and_iff_right all, Option.some.injEq]
    refine iff_of_eq (congrArg (· = u)
      (Term.bind_congr t 0 ((listed.2 all).mono ?_ fun _ _ q => q)))
    intro d i answered
    unfold Term.renumberRel? at answered ⊢
    split at answered
    · next bound => rw [if_pos bound, if_neg (Nat.not_le.2 bound), Option.getD_some]
    · next free =>
      rw [if_neg free, if_pos (Nat.not_lt.1 free), List.idxOf_eq_getD_idxOf?]
      cases position : vars.idxOf? (i - d) with
      | none => simp [position] at answered
      | some p => rfl
  · next unlisted => simp only [unlisted, false_and, reduceCtorEq]

end KeyedMatching
