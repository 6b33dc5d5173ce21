import KeyedMatching.Proofs.Term.Sharing
import KeyedMatching.Term.Traversal

/-!
# One visiting order

There are four ways through the nodes of a term: the list of them, the search with a stack, the
replacement from the top down, and the change of children at each node. They come to the nodes in
the same order.

* `Term.searchM_eq_anyM`: a search tests the nodes as they are listed, until one passes;
* `Term.replaceM_declining`: a replacement that is always declined asks about each node in turn;
* `Asked.Until`: nodes that are asked about up to the first that ends it;
* `Term.mapChildrenM_asks`: a change that may fail comes to the children in order;
* `Term.one_order`: all of it, for one term.
-/

namespace KeyedMatching

section
variable {m : Type → Type} [Monad m] [LawfulMonad m]

/-! ## The stack -/

omit [LawfulMonad m] in
theorem Term.searchM_cons (test : Term → Nat → m Bool) (t : Term) (d : Nat)
    (stack : List (Term × Nat)) : Term.searchM test ((t, d) :: stack) = (do
      if ← test t d then return true
      Term.searchM test ((t.children.map fun (c, k) => (c, d + k)) ++ stack)) := by
  rw [Term.searchM]
  simp only [List.foldl_flip_cons_eq_append, List.map_id', List.reverse_reverse]

omit [LawfulMonad m] in
/-- What is on the stack is tested as it is listed, each term with all below it. -/
theorem Term.searchM_eq_anyM (test : Term → Nat → m Bool) (stack : List (Term × Nat)) :
    Term.searchM test stack =
      (stack.flatMap fun (t, d) => t.preorder d).anyM fun (u, k) => test u k := by
  induction stack using Term.searchM.induct with
  | case1 => rw [Term.searchM, List.flatMap_nil, List.anyM_nil]
  | case2 t d stack ih =>
    simp only [List.foldl_flip_cons_eq_append, List.map_id', List.reverse_reverse,
      List.flatMap_append, List.flatMap_map] at ih
    simp only [Term.searchM_cons, ih, List.flatMap_cons, Term.preorder_eq_cons d t,
      List.cons_append, List.anyM_cons, Term.descendants]

/-- Note every node, and let none pass. -/
def failing (note : Term → Nat → m Unit) (u : Term) (k : Nat) : m Bool := do
  note u k
  return false

theorem anyM_failing (note : Term → Nat → m Unit) (nodes : List (Term × Nat)) :
    nodes.anyM (fun (u, k) => failing note u k) =
      (do nodes.forM fun (u, k) => note u k; return false) := by
  induction nodes with
  | nil => simp
  | cons node nodes ih =>
    rw [List.anyM_cons, ih]
    simp [failing]

theorem Term.searchM_failing (note : Term → Nat → m Unit) (t : Term) (d : Nat) :
    Term.searchM (failing note) [(t, d)] =
      (do (t.preorder d).forM fun (u, k) => note u k; return false) := by
  rw [Term.searchM_eq_anyM, List.flatMap_singleton, anyM_failing]

theorem forM_push (nodes : List (Term × Nat)) (before : Array (Term × Nat)) :
    (nodes.forM fun (u, k) =>
        modify (·.push (u, k)) : StateM (Array (Term × Nat)) Unit).run before =
      ((), before ++ nodes.toArray) := by
  induction nodes generalizing before with
  | nil => rfl
  | cons node nodes ih => exact (ih (before.push node)).trans (by simp)

theorem Term.listing_eq (t : Term) : t.listing = t.preorder 0 := by
  have never := Term.searchM_failing (m := StateM (Array (Term × Nat)))
    (fun u k => modify (·.push (u, k))) t 0
  have ran : t.listing = _ := congrArg (fun x => (x.run #[]).2.toList) never
  rw [ran, StateT.run_bind, forM_push, Array.empty_append]
  rfl

/-! ## Replacing nothing -/

/-- Note every node, and decline to replace it. -/
def declining (note : Term → Nat → m Unit) (u : Term) (k : Nat) : m (Option Term) := do
  note u k
  return none

mutual

theorem Head.replaceM_declining (note : Term → Nat → m Unit) : (h : Head) → (d : Nat) →
    h.replaceM (declining note) d = (do (h.inner d).forM fun (u, k) => note u k; return h)
  | .rel _, _ | .sort _, _ | .const _, _ => by simp [Head.replaceM, Head.inner]
  | .hole _ xs, d => by
    simp [Head.replaceM, Head.inner, Term.replaceAllM_declining note xs]
  | .pi a b, d | .lam a b, d => by
    simp [Head.replaceM, Head.inner, Term.replaceM_declining note a,
      Term.replaceM_declining note b]
  | .letIn v a b, d => by
    simp [Head.replaceM, Head.inner, Term.replaceM_declining note a,
      Term.replaceM_declining note v, Term.replaceM_declining note b]
  | .cast t a, d => by
    simp [Head.replaceM, Head.inner, Term.replaceM_declining note a,
      Term.replaceM_declining note t]
  | .case r s bs, d => by
    simp [Head.replaceM, Head.inner, Term.replaceM_declining note r,
      Term.replaceM_declining note s, Term.replaceAllM_declining note bs]
  | .fix _ as bs, d => by
    simp [Head.replaceM, Head.inner, Term.replaceAllM_declining note as,
      Term.replaceAllM_declining note bs]

/-- Where every replacement is declined, all nodes are asked about in order, and the term stays. -/
theorem Term.replaceM_declining (note : Term → Nat → m Unit) : (t : Term) → (d : Nat) →
    t.replaceM (declining note) d = (do (t.preorder d).forM fun (u, k) => note u k; return t)
  | .mk h [], d => by
    simp [Term.replaceM, Term.preorder, declining, Head.replaceM_declining note h]
  | .mk h (x :: xs), d => by
    simp [Term.replaceM, Term.preorder, declining, Head.replaceM_declining note h,
      Term.replaceAllM_declining note (x :: xs), Term.apply]

theorem Term.replaceAllM_declining (note : Term → Nat → m Unit) : (xs : List Term) → (d : Nat) →
    Term.replaceAllM (declining note) d xs =
      (do (Term.preorderAll d xs).forM fun (u, k) => note u k; return xs)
  | [], _ => by simp [Term.replaceAllM, Term.preorderAll]
  | x :: xs, d => by
    simp [Term.replaceAllM, Term.preorderAll, Term.replaceM_declining note x,
      Term.replaceAllM_declining note xs]

end

theorem mapM_pure_self (xs : List Term) :
    xs.mapM (fun u => pure u) = (pure xs : m (List Term)) := by
  simpa using List.mapM_pure (m := m) (l := xs) (f := id)

theorem Head.mapChildrenM_pure (h : Head) (d : Nat) :
    h.mapChildrenM (fun u _ => pure u) d = (pure h : m Head) := by
  cases h <;> simp [Head.mapChildrenM, mapM_pure_self]

/-- A node whose children stay is the same node. -/
theorem Term.mapChildrenM_pure (t : Term) (d : Nat) :
    t.mapChildrenM (fun u _ => pure u) d = (pure t : m Term) := by
  obtain ⟨h, xs⟩ := t
  cases xs <;> simp [Term.mapChildrenM, Head.mapChildrenM_pure, Term.apply, mapM_pure_self]

end

/-! ## Questions -/

/-- A node that was asked about, and the answer. -/
structure Asked (α : Type) where
  node : Term
  depth : Nat
  answer : α

section
variable {σ α : Type}

/-- Ask, and note the node and the answer after those of before. -/
def Asked.noting (ask : Term → Nat → StateM σ α) (u : Term) (k : Nat) :
    StateM (σ × List (Asked α)) α := fun (s, asked) =>
  let (answer, s) := ask u k s
  (answer, s, asked ++ [⟨u, k, answer⟩])

/-- The nodes were asked about one after the other, up to the first with an answer that ends it, or
all of them if there is none. -/
inductive Asked.Until (ends : α → Bool) : List (Term × Nat) → List (Asked α) → Prop
  | none : Asked.Until ends [] []
  | last {u : Term} {k : Nat} {answer : α} (nodes : List (Term × Nat)) :
      ends answer = true → Asked.Until ends ((u, k) :: nodes) [⟨u, k, answer⟩]
  | next {u : Term} {k : Nat} {answer : α} {nodes : List (Term × Nat)} {asked : List (Asked α)} :
      ends answer = false → Asked.Until ends nodes asked →
      Asked.Until ends ((u, k) :: nodes) (⟨u, k, answer⟩ :: asked)

variable {ends : α → Bool} {nodes nodes' : List (Term × Nat)} {asked asked' : List (Asked α)}

theorem Asked.Until.append (first : Asked.Until ends nodes asked)
    (open' : ∀ a ∈ asked, ends a.answer = false) (second : Asked.Until ends nodes' asked') :
    Asked.Until ends (nodes ++ nodes') (asked ++ asked') := by
  induction first with
  | none => exact second
  | last nodes ended => exact absurd (open' _ (List.mem_singleton_self _)) (by simp [ended])
  | next going _ ih => exact .next going (ih fun a ha => open' a (List.mem_cons_of_mem _ ha))

theorem Asked.Until.extend (first : Asked.Until ends nodes asked)
    (ended : ∃ a ∈ asked, ends a.answer = true) : Asked.Until ends (nodes ++ nodes') asked := by
  induction first with
  | none => simp at ended
  | last nodes ended' => exact .last _ ended'
  | next going _ ih => exact .next going (ih (by simpa [going] using ended))

theorem Asked.noting_eq {ask : Term → Nat → StateM σ α} {u : Term} {k : Nat} {s s' : σ} {answer : α}
    (h : ask u k s = (answer, s')) (before : List (Asked α)) :
    Asked.noting ask u k (s, before) = (answer, s', before ++ [⟨u, k, answer⟩]) := by
  simp only [Asked.noting, h]

/-- A test that remembers passes as soon as one of the nodes does. -/
theorem Asked.anyM_noting (test : Term → Nat → StateM σ Bool) (nodes : List (Term × Nat)) (s : σ)
    (before : List (Asked Bool)) : ∃ hit s' asked,
      (nodes.anyM fun (u, k) => Asked.noting test u k).run (s, before) =
        (hit, s', before ++ asked) ∧
      Asked.Until (· = true) nodes asked ∧ (hit = true ↔ ∃ a ∈ asked, a.answer = true) := by
  induction nodes generalizing s before with
  | nil => exact ⟨false, s, [], by simp; rfl, .none, by simp⟩
  | cons node nodes ih =>
    obtain ⟨u, k⟩ := node
    rcases h : test u k s with ⟨answer, s₁⟩
    simp only [List.anyM_cons, StateT.run_bind]
    rw [StateT.run, Asked.noting_eq h]
    cases answer with
    | true => exact ⟨true, s₁, [⟨u, k, true⟩], rfl, .last _ rfl, by simp⟩
    | false =>
      obtain ⟨hit, s', asked, ran, until', told⟩ := ih s₁ (before ++ [⟨u, k, false⟩])
      refine ⟨hit, s', ⟨u, k, false⟩ :: asked, ?_, .next rfl until', by simpa using told⟩
      exact ran.trans (by simp)

end

/-! ## Changes that may fail -/

section
variable {σ ε α β : Type}

/-- The nodes are asked about in order up to the first failure, which is that of the whole. -/
def Asks (x : ExceptT ε (StateM (σ × List (Asked (Except ε Term)))) α)
    (nodes : List (Term × Nat)) : Prop :=
  ∀ s before, ∃ result s' asked,
    x.run.run (s, before) = (result, s', before ++ asked) ∧
    Asked.Until (! ·.isOk) nodes asked ∧
    ∀ e, result = .error e ↔ ∃ a ∈ asked, a.answer = .error e

theorem asks_pure (a : α) : Asks (σ := σ) (ε := ε) (pure a) [] :=
  fun s _ => ⟨.ok a, s, [], by simp; rfl, .none, by simp⟩

theorem asks_noting (ask : Term → Nat → StateM σ (Except ε Term)) (u : Term) (k : Nat) :
    Asks (.mk (Asked.noting ask u k)) [(u, k)] := by
  intro s before
  rcases h : ask u k s with ⟨answer, s'⟩
  refine ⟨answer, s', [⟨u, k, answer⟩], Asked.noting_eq h before, ?_, by simp⟩
  cases answer with
  | ok v => exact .next rfl .none
  | error e => exact .last _ rfl

theorem asks_bind {x : ExceptT ε (StateM (σ × List (Asked (Except ε Term)))) α}
    {f : α → ExceptT ε (StateM (σ × List (Asked (Except ε Term)))) β}
    {nodes nodes' : List (Term × Nat)} (hx : Asks x nodes) (hf : ∀ a, Asks (f a) nodes') :
    Asks (x >>= f) (nodes ++ nodes') := by
  intro s before
  obtain ⟨result, s₁, asked, ran, until', told⟩ := hx s before
  have next : (x >>= f).run.run (s, before) =
      (match result with
        | .ok a => (f a).run
        | .error e => pure (.error e)).run (s₁, before ++ asked) := by
    rw [ExceptT.run_bind, StateT.run_bind, ran]
    rfl
  cases result with
  | error e =>
    obtain ⟨a, ha, failed⟩ := (told e).1 rfl
    have ended : (! a.answer.isOk) = true := by rw [failed]; rfl
    exact ⟨.error e, s₁, asked, next, until'.extend ⟨a, ha, ended⟩, by simpa using told⟩
  | ok v =>
    have going : ∀ a ∈ asked, (! a.answer.isOk) = false := by
      intro a ha
      cases h : a.answer with
      | ok _ => rfl
      | error e => cases (told e).2 ⟨a, ha, h⟩
    obtain ⟨result, s₂, asked', ran', until'', told'⟩ := hf v s₁ (before ++ asked)
    refine ⟨result, s₂, asked ++ asked', ?_, until'.append going until'', fun e => ?_⟩
    · rw [next, ← List.append_assoc]
      exact ran'
    · have none : ¬ ∃ a ∈ asked, a.answer = .error e := fun h => nomatch (told e).2 h
      simp only [told' e, List.mem_append, or_and_right, exists_or, none, false_or]

theorem asks_map {x : ExceptT ε (StateM (σ × List (Asked (Except ε Term)))) α}
    {nodes : List (Term × Nat)} (hx : Asks x nodes) (f : α → β) :
    Asks (x >>= fun a => pure (f a)) nodes := by
  have both := asks_bind hx fun a => asks_pure (f a)
  rwa [List.append_nil] at both

section
variable (ask : Term → Nat → StateM σ (Except ε Term)) (d : Nat)

theorem mapM_asks (xs : List Term) :
    Asks (xs.mapM fun u => .mk (Asked.noting ask u d)) (xs.map (·, d)) := by
  induction xs with
  | nil => exact asks_pure []
  | cons x xs ih =>
    rw [List.mapM_cons]
    exact asks_bind (asks_noting ask x d) fun _ => asks_map ih _

theorem Head.mapChildrenM_asks (h : Head) :
    Asks (h.mapChildrenM (fun u k => .mk (Asked.noting ask u k)) d)
      (h.children.map fun (c, k) => (c, d + k)) := by
  cases h with
  | rel i => exact asks_pure _
  | sort n => exact asks_pure _
  | const c => exact asks_pure _
  | hole k xs =>
    rw [Head.children, List.map_map]
    exact asks_map (mapM_asks ask d xs) _
  | pi a b =>
    exact asks_bind (asks_noting ask a d) fun _ => asks_map (asks_noting ask b (d + 1)) _
  | lam a b =>
    exact asks_bind (asks_noting ask a d) fun _ => asks_map (asks_noting ask b (d + 1)) _
  | letIn v a b =>
    exact asks_bind (asks_noting ask a d) fun _ => asks_bind (asks_noting ask v d) fun _ =>
      asks_map (asks_noting ask b (d + 1)) _
  | cast t a =>
    exact asks_bind (asks_noting ask a d) fun _ => asks_map (asks_noting ask t d) _
  | case r t bs =>
    rw [Head.children, List.map_cons, List.map_cons, List.map_map]
    exact asks_bind (asks_noting ask r d) fun _ => asks_bind (asks_noting ask t d) fun _ =>
      asks_map (mapM_asks ask d bs) _
  | fix i as bs =>
    rw [Head.children, List.map_append, List.map_map, List.map_map]
    exact asks_bind (mapM_asks ask d as) fun _ => asks_map (mapM_asks ask (d + as.length) bs) _

/-- A change of the children comes to them in order, up to the first that it fails on. -/
theorem Term.mapChildrenM_asks (t : Term) :
    Asks (t.mapChildrenM (fun u k => .mk (Asked.noting ask u k)) d)
      (t.children.map fun (c, k) => (c, d + k)) := by
  obtain ⟨h, xs⟩ := t
  cases xs with
  | nil => exact asks_map (Head.mapChildrenM_asks ask d h) _
  | cons x xs =>
    rw [Term.children, List.map_cons, List.map_map]
    exact asks_bind (asks_noting ask (.ofHead h) d) fun _ => asks_map (mapM_asks ask d (x :: xs)) _

end

end

/-! ## All of them -/

theorem Bank.Sound.add_stands [Hashable BankNode] {b : Bank} (sound : b.Sound) {id : Nat} {t : Term}
    (stands : b.Stands id t) : (Bank.add t b).1 = id := by
  rw [← stands.reads, sound.add_read stands.stored]

/-- The ways through a term that stands under `d` binders agree. -/
structure Term.OneOrder (t : Term) (d : Nat) : Prop where
  /-- A node comes before what is below it, and this child by child. -/
  listed : t.preorder d = (t, d) :: t.children.flatMap fun (c, k) => c.preorder (d + k)
  /-- A search that no node passes tests all of them in order. -/
  searched {m : Type → Type} [Monad m] [LawfulMonad m] (note : Term → Nat → m Unit) :
    Term.searchM (failing note) [(t, d)] =
      (do (t.preorder d).forM fun (u, k) => note u k; return false)
  listing : t.listing = t.preorder 0
  /-- A replacement that is always declined asks about all of them in order, and changes nothing. -/
  replaced {m : Type → Type} [Monad m] [LawfulMonad m] (note : Term → Nat → m Unit) :
    t.replaceM (declining note) d = (do (t.preorder d).forM fun (u, k) => note u k; return t)
  /-- Any search tests the nodes up to the first that passes, and says whether there is one. -/
  found {σ : Type} (test : Term → Nat → StateM σ Bool) (s : σ) : ∃ hit s' asked,
    (Term.searchM (Asked.noting test) [(t, d)]).run (s, []) = (hit, s', asked) ∧
      Asked.Until (· = true) (t.preorder d) asked ∧ (hit = true ↔ ∃ a ∈ asked, a.answer = true)
  /-- A change comes to the children up to the first that it fails on, and fails as it does. -/
  changed {σ ε : Type} (ask : Term → Nat → StateM σ (Except ε Term)) (s : σ) : ∃ result s' asked,
    (t.mapChildrenM (fun u k => ExceptT.mk (Asked.noting ask u k)) d).run.run (s, []) =
        (result, s', asked) ∧
      Asked.Until (! ·.isOk) (t.children.map fun (c, k) => (c, d + k)) asked ∧
      ∀ e, result = .error e ↔ ∃ a ∈ asked, a.answer = .error e
  /-- A change that leaves the children as they are gives back the term. -/
  same {m : Type → Type} [Monad m] [LawfulMonad m] :
    t.mapChildrenM (fun u _ => pure u) d = (pure t : m Term)
  /-- So it has the number under which it was stored. -/
  number [Hashable BankNode] (b : Bank) (id : Nat) : b.Sound → b.Stands id t →
    (Bank.add (Id.run (t.mapChildrenM (fun u _ => pure u) d)) b).1 = id

/-- Whatever goes through a term comes to its nodes in one order. -/
theorem Term.one_order (t : Term) (d : Nat) : t.OneOrder d where
  listed := t.preorder_eq_cons d
  searched note := Term.searchM_failing note t d
  listing := t.listing_eq
  replaced note := Term.replaceM_declining note t d
  found test s := by
    simpa only [Term.searchM_eq_anyM, List.flatMap_singleton, List.nil_append] using
      Asked.anyM_noting test (t.preorder d) s []
  changed ask s := by
    simpa only [List.nil_append] using Term.mapChildrenM_asks ask d t s []
  same := t.mapChildrenM_pure d
  number b id sound stands := by
    rw [Term.mapChildrenM_pure]
    exact sound.add_stands stands

end KeyedMatching
