import KeyedMatching.Term.Basic

/-!
# Visiting order

Everything that numbers the nodes of a term, or carries state through them, does it in one order:
a node before its children, and these from left to right.

* `Term.children`: the children of a node with the binders above each. The head of an application
  is a child of its own; a local definition shows its type before its value, a cast its type before
  its subject, and a fixpoint all types before all bodies.
* `Term.preorder`: every node with its depth; `Term.preorder_eq_cons` is its recursion through
  `children`.
* `Term.searchM` tests the nodes, from an explicit stack of them, until one passes; `Term.search`
  counts the tests, and `Term.listing` lists the nodes tested when none passes.
* `Term.mapChildrenM` rebuilds a node from its changed children; `Term.replaceM` replaces nodes
  from the top down and does not look inside what it has put in. `Term.replaceM_eq` is its recursion
  through `mapChildrenM`.
-/

namespace KeyedMatching

/-- The children of a head in visiting order, each with the number of binders it stands under. -/
def Head.children : Head → List (Term × Nat)
  | .rel _ | .sort _ | .const _ => []
  | .hole _ xs => xs.map (·, 0)
  | .pi a b | .lam a b => [(a, 0), (b, 1)]
  | .letIn v a b => [(a, 0), (v, 0), (b, 1)]
  | .cast t a => [(a, 0), (t, 0)]
  | .case r s bs => (r, 0) :: (s, 0) :: bs.map (·, 0)
  | .fix _ as bs => as.map (·, 0) ++ bs.map (·, as.length)

/-- The children of a term in visiting order, each with the number of binders it stands under. -/
def Term.children : Term → List (Term × Nat)
  | .mk h [] => h.children
  | .mk h (x :: xs) => (.ofHead h, 0) :: (x :: xs).map (·, 0)

/-! ## Nodes in order -/

mutual

/-- The nodes strictly inside a head that stands under `d` binders. -/
def Head.inner (d : Nat) : Head → List (Term × Nat)
  | .rel _ | .sort _ | .const _ => []
  | .hole _ xs => Term.preorderAll d xs
  | .pi a b | .lam a b => a.preorder d ++ b.preorder (d + 1)
  | .letIn v a b => a.preorder d ++ (v.preorder d ++ b.preorder (d + 1))
  | .cast t a => a.preorder d ++ t.preorder d
  | .case r s bs => r.preorder d ++ (s.preorder d ++ Term.preorderAll d bs)
  | .fix _ as bs => Term.preorderAll d as ++ Term.preorderAll (d + as.length) bs

/-- All nodes of a term that stands under `d` binders, in visiting order, each with its depth. -/
def Term.preorder (d : Nat) : Term → List (Term × Nat)
  | .mk h [] => (.ofHead h, d) :: h.inner d
  | .mk h (x :: xs) =>
    (.mk h (x :: xs), d) :: (.ofHead h, d) :: (h.inner d ++ Term.preorderAll d (x :: xs))

/-- All nodes of a list of terms, one term after the other. -/
def Term.preorderAll (d : Nat) : List Term → List (Term × Nat)
  | [] => []
  | x :: xs => x.preorder d ++ Term.preorderAll d xs

end

/-- The nodes strictly below a term that stands under `d` binders: those of each child in turn. -/
def Term.descendants (d : Nat) (t : Term) : List (Term × Nat) :=
  t.children.flatMap fun (c, k) => c.preorder (d + k)

theorem Term.preorderAll_eq_flatMap (d : Nat) (xs : List Term) :
    Term.preorderAll d xs = xs.flatMap (·.preorder d) := by
  induction xs with
  | nil => rfl
  | cons x xs ih => simp [Term.preorderAll, ih]

theorem Head.inner_eq_flatMap (d : Nat) (h : Head) :
    h.inner d = h.children.flatMap fun (c, k) => c.preorder (d + k) := by
  cases h <;>
    simp [Head.inner, Head.children, Term.preorderAll_eq_flatMap, List.flatMap_map]

/-- A node comes before the nodes below it, and these in the order of the children. -/
theorem Term.preorder_eq_cons (d : Nat) (t : Term) : t.preorder d = (t, d) :: t.descendants d := by
  obtain ⟨h, xs⟩ := t
  cases xs with
  | nil => simp [Term.preorder, Term.descendants, Term.children, Head.inner_eq_flatMap]
  | cons x xs =>
    simp [Term.preorder, Term.descendants, Term.children, Head.inner_eq_flatMap,
      Term.preorderAll_eq_flatMap, List.flatMap_map]

/-! ## Search -/

section
variable {m : Type → Type} [Monad m]

/-- Look for a node that passes `test`, taking nodes from a stack. The children of one that fails
are put on it last first, so that the first is taken next. -/
def Term.searchM (test : Term → Nat → m Bool) : List (Term × Nat) → m Bool
  | [] => pure false
  | (t, d) :: stack => do
    if ← test t d then
      return true
    let children := t.children.map fun (c, k) => (c, d + k)
    Term.searchM test (children.reverse.foldl (fun stack c => c :: stack) stack)
termination_by stack => (stack.flatMap fun (t, d) => t.preorder d).length
decreasing_by
  simp only [List.foldl_flip_cons_eq_append, List.map_id', List.reverse_reverse,
    List.flatMap_append, List.flatMap_map, List.flatMap_cons, Term.preorder_eq_cons d t,
    Term.descendants]
  simp

end

/-- Is there a node that passes `test`? With the number of tests made. -/
def Term.search (test : Term → Nat → Bool) (t : Term) (d : Nat) : Bool × Nat :=
  let counted (u : Term) (k : Nat) : StateM Nat Bool := do
    modify (· + 1)
    return test u k
  (Term.searchM counted [(t, d)]).run 0

/-- The nodes of a term with their depths, as a search that no node passes comes to them. -/
def Term.listing (t : Term) : List (Term × Nat) :=
  let noted (u : Term) (k : Nat) : StateM (Array (Term × Nat)) Bool := do
    modify (·.push (u, k))
    return false
  ((Term.searchM noted [(t, 0)]).run #[]).2.toList

/-! ## Rebuilding -/

section
variable {m : Type → Type} [Monad m]

/-- Change every child of a head, in visiting order. -/
def Head.mapChildrenM (f : Term → Nat → m Term) (d : Nat) : Head → m Head
  | .rel i => pure (.rel i)
  | .sort n => pure (.sort n)
  | .const c => pure (.const c)
  | .hole k xs => do
    let xs ← xs.mapM (f · d)
    return .hole k xs
  | .pi a b => do
    let a ← f a d
    let b ← f b (d + 1)
    return .pi a b
  | .lam a b => do
    let a ← f a d
    let b ← f b (d + 1)
    return .lam a b
  | .letIn v a b => do
    let a ← f a d
    let v ← f v d
    let b ← f b (d + 1)
    return .letIn v a b
  | .cast t a => do
    let a ← f a d
    let t ← f t d
    return .cast t a
  | .case r s bs => do
    let r ← f r d
    let s ← f s d
    let bs ← bs.mapM (f · d)
    return .case r s bs
  | .fix i as bs => do
    let cs ← as.mapM (f · d)
    let bs ← bs.mapM (f · (d + as.length))
    return .fix i cs bs

/-- Change every child of a term that stands under `d` binders, in visiting order. A changed head
of an application brings its own arguments along. -/
def Term.mapChildrenM (f : Term → Nat → m Term) (d : Nat) : Term → m Term
  | .mk h [] => do
    let h ← h.mapChildrenM f d
    return .ofHead h
  | .mk h (x :: xs) => do
    let g ← f (.ofHead h) d
    let ys ← (x :: xs).mapM (f · d)
    return g.apply ys

mutual

/-- `Term.replaceM` on the children of a head. -/
def Head.replaceM (f : Term → Nat → m (Option Term)) (d : Nat) : Head → m Head
  | .rel i => pure (.rel i)
  | .sort n => pure (.sort n)
  | .const c => pure (.const c)
  | .hole k xs => do
    let xs ← Term.replaceAllM f d xs
    return .hole k xs
  | .pi a b => do
    let a ← a.replaceM f d
    let b ← b.replaceM f (d + 1)
    return .pi a b
  | .lam a b => do
    let a ← a.replaceM f d
    let b ← b.replaceM f (d + 1)
    return .lam a b
  | .letIn v a b => do
    let a ← a.replaceM f d
    let v ← v.replaceM f d
    let b ← b.replaceM f (d + 1)
    return .letIn v a b
  | .cast t a => do
    let a ← a.replaceM f d
    let t ← t.replaceM f d
    return .cast t a
  | .case r s bs => do
    let r ← r.replaceM f d
    let s ← s.replaceM f d
    let bs ← Term.replaceAllM f d bs
    return .case r s bs
  | .fix i as bs => do
    let cs ← Term.replaceAllM f d as
    let bs ← Term.replaceAllM f (d + as.length) bs
    return .fix i cs bs

/-- Ask `f` about every node from the top down: where it answers with a term, that takes the node's
place, and what was below the node is not asked about. -/
def Term.replaceM (f : Term → Nat → m (Option Term)) (d : Nat) : Term → m Term
  | .mk h [] => do
    match ← f (.ofHead h) d with
    | some u => return u
    | none =>
      let h ← h.replaceM f d
      return .ofHead h
  | .mk h (x :: xs) => do
    match ← f (.mk h (x :: xs)) d with
    | some u => return u
    | none =>
      let g ← do
        match ← f (.ofHead h) d with
        | some u => pure u
        | none =>
          let h ← h.replaceM f d
          pure (.ofHead h)
      let ys ← Term.replaceAllM f d (x :: xs)
      return g.apply ys

/-- `Term.replaceM` on each term of a list. -/
def Term.replaceAllM (f : Term → Nat → m (Option Term)) (d : Nat) : List Term → m (List Term)
  | [] => pure []
  | x :: xs => do
    let x ← x.replaceM f d
    let xs ← Term.replaceAllM f d xs
    return x :: xs

end

end

section
variable {m : Type → Type} [Monad m] [LawfulMonad m]

theorem Term.replaceAllM_eq_mapM (f : Term → Nat → m (Option Term)) (d : Nat) (xs : List Term) :
    Term.replaceAllM f d xs = xs.mapM (·.replaceM f d) := by
  induction xs with
  | nil => simp [Term.replaceAllM]
  | cons x xs ih => simp [Term.replaceAllM, ih]

theorem Head.replaceM_eq_mapChildrenM (f : Term → Nat → m (Option Term)) (d : Nat) (h : Head) :
    h.replaceM f d = h.mapChildrenM (fun u k => u.replaceM f k) d := by
  cases h <;> simp [Head.replaceM, Head.mapChildrenM, Term.replaceAllM_eq_mapM]

/-- Replacing asks about a node first, and goes on with its children if there is no answer. -/
theorem Term.replaceM_eq (f : Term → Nat → m (Option Term)) (d : Nat) (t : Term) :
    t.replaceM f d = f t d >>= fun hit =>
      hit.elim (t.mapChildrenM (fun u k => u.replaceM f k) d) pure := by
  obtain ⟨h, xs⟩ := t
  cases xs with
  | nil =>
    simp only [Term.replaceM, Term.mapChildrenM, Head.replaceM_eq_mapChildrenM]
    congr 1
    funext hit
    cases hit <;> rfl
  | cons x xs =>
    simp only [Term.replaceM, Term.mapChildrenM, Head.replaceM_eq_mapChildrenM,
      Term.replaceAllM_eq_mapM]
    congr 1
    funext hit
    cases hit with
    | some u => rfl
    | none =>
      simp only [Option.elim_none, bind_assoc]
      congr 1
      funext hit
      cases hit <;> simp

end

/-- `Term.replaceM` without effects. -/
def Term.replace (f : Term → Nat → Option Term) (d : Nat) (t : Term) : Term :=
  Id.run (t.replaceM (fun u d => pure (f u d)) d)

end KeyedMatching
