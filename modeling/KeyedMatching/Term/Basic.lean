/-!
# Terms

The calculus: variables counted by binders, universes, constants, holes, products, abstractions,
lets, casts, case analyses and mutual fixpoints.

* A `Term` is a head with the list of its arguments, and a `Head` is anything but an application:
  an application of an application cannot be written down, and neither can one to no arguments.
* `Term.apply` adds arguments at the end of the spine; `Term.apply_apply` says that doing so twice
  is doing so once.
* `Term.same` compares two terms, and `Term.same_iff` says that it decides equality.
-/

namespace KeyedMatching

mutual

/-- What a term is built around: every construction of the calculus except application. -/
inductive Head where
  /-- Variable: the number of binders between it and its own, or, past all of them, free. -/
  | rel (index : Nat)
  /-- Universe; level zero is the universe of propositions. -/
  | sort (level : Nat)
  /-- Global constant. -/
  | const (name : String)
  /-- Hole with its instance: in the hole's value, variable `i` stands for argument `i` of it. -/
  | hole (id : Nat) (inst : List Term)
  /-- Dependent product: domain, and codomain under one binder. -/
  | pi (dom body : Term)
  /-- Abstraction: domain, and body under one binder. -/
  | lam (dom body : Term)
  /-- Local definition: value, its type, and body under one binder. -/
  | letIn (value type body : Term)
  /-- Term with the type ascribed to it. -/
  | cast (subject type : Term)
  /-- Case analysis: return predicate, scrutinee and branches. -/
  | case (motive scrutinee : Term) (branches : List Term)
  /-- Mutual fixpoint: the one selected, the types of all, and their bodies, which see all bound. -/
  | fix (index : Nat) (types bodies : List Term)

/-- A head applied to arguments, possibly none. -/
inductive Term where
  | mk (head : Head) (args : List Term)

end

/-- The construction at the top of a term, without its children. -/
inductive Shape where
  | rel | sort | const | hole | app | pi | lam | letIn | cast | case | fix
  deriving DecidableEq, Repr

namespace Head

/-- The construction of a head. -/
def shape : Head → Shape
  | .rel _ => .rel
  | .sort _ => .sort
  | .const _ => .const
  | .hole _ _ => .hole
  | .pi _ _ => .pi
  | .lam _ _ => .lam
  | .letIn _ _ _ => .letIn
  | .cast _ _ => .cast
  | .case _ _ _ => .case
  | .fix _ _ _ => .fix

end Head

namespace Term

/-- The term that is a head alone. -/
@[match_pattern] abbrev ofHead (h : Head) : Term := .mk h []

@[match_pattern] abbrev rel (i : Nat) : Term := .mk (.rel i) []
@[match_pattern] abbrev sort (n : Nat) : Term := .mk (.sort n) []
@[match_pattern] abbrev const (c : String) : Term := .mk (.const c) []
@[match_pattern] abbrev hole (k : Nat) (inst : List Term) : Term := .mk (.hole k inst) []
@[match_pattern] abbrev pi (dom body : Term) : Term := .mk (.pi dom body) []
@[match_pattern] abbrev lam (dom body : Term) : Term := .mk (.lam dom body) []

/-- The head of the spine. -/
def head : Term → Head
  | .mk h _ => h

/-- The arguments of the spine. -/
def args : Term → List Term
  | .mk _ xs => xs

/-- Apply a term to further arguments. -/
def apply : Term → List Term → Term
  | .mk h xs, ys => .mk h (xs ++ ys)

@[simp] theorem head_apply (t : Term) (ys : List Term) : (t.apply ys).head = t.head := by
  cases t; rfl

@[simp] theorem args_apply (t : Term) (ys : List Term) : (t.apply ys).args = t.args ++ ys := by
  cases t; rfl

@[simp] theorem apply_nil (t : Term) : t.apply [] = t := by
  cases t; simp [apply]

theorem apply_apply (t : Term) (xs ys : List Term) :
    (t.apply xs).apply ys = t.apply (xs ++ ys) := by
  cases t; simp [apply]

theorem ofHead_apply_args (t : Term) : (ofHead t.head).apply t.args = t := by
  cases t; rfl

/-- The construction at the top: an application as soon as there is an argument. -/
def shape : Term → Shape
  | .mk h [] => h.shape
  | .mk _ (_ :: _) => .app

/-- The hole at the head of the spine, if there is one. -/
def headHole? (t : Term) : Option Nat :=
  match t.head with
  | .hole k _ => some k
  | _ => none

end Term

/-! ## Equality -/

mutual

/-- Do two heads agree everywhere? -/
def Head.same : Head → Head → Bool
  | .rel i, .rel j => i == j
  | .sort m, .sort n => m == n
  | .const c, .const d => c == d
  | .hole k xs, .hole l ys => k == l && Term.sameAll xs ys
  | .pi a b, .pi c d => a.same c && b.same d
  | .lam a b, .lam c d => a.same c && b.same d
  | .letIn v a b, .letIn w c d => v.same w && a.same c && b.same d
  | .cast a b, .cast c d => a.same c && b.same d
  | .case r s xs, .case q u ys => r.same q && s.same u && Term.sameAll xs ys
  | .fix i xs bs, .fix j ys cs => i == j && Term.sameAll xs ys && Term.sameAll bs cs
  | _, _ => false

/-- Do two terms agree everywhere? -/
def Term.same : Term → Term → Bool
  | .mk h xs, .mk g ys => h.same g && Term.sameAll xs ys

/-- Do two lists of terms agree, position by position? -/
def Term.sameAll : List Term → List Term → Bool
  | [], [] => true
  | x :: xs, y :: ys => x.same y && Term.sameAll xs ys
  | _, _ => false

end

mutual

theorem Head.same_iff : (h g : Head) → (h.same g = true ↔ h = g)
  | .rel _, g => by cases g <;> simp [Head.same]
  | .sort _, g => by cases g <;> simp [Head.same]
  | .const _, g => by cases g <;> simp [Head.same]
  | .hole _ xs, g => by cases g <;> simp [Head.same, Term.sameAll_iff xs]
  | .pi a b, g => by cases g <;> simp [Head.same, Term.same_iff a, Term.same_iff b]
  | .lam a b, g => by cases g <;> simp [Head.same, Term.same_iff a, Term.same_iff b]
  | .letIn v a b, g => by
    cases g <;> simp [Head.same, Term.same_iff v, Term.same_iff a, Term.same_iff b, and_assoc]
  | .cast a b, g => by cases g <;> simp [Head.same, Term.same_iff a, Term.same_iff b]
  | .case r s xs, g => by
    cases g <;> simp [Head.same, Term.same_iff r, Term.same_iff s, Term.sameAll_iff xs, and_assoc]
  | .fix _ xs bs, g => by
    cases g <;> simp [Head.same, Term.sameAll_iff xs, Term.sameAll_iff bs, and_assoc]

theorem Term.same_iff : (t u : Term) → (t.same u = true ↔ t = u)
  | .mk h xs, .mk _ _ => by simp [Term.same, Head.same_iff h, Term.sameAll_iff xs]

theorem Term.sameAll_iff : (xs ys : List Term) → (Term.sameAll xs ys = true ↔ xs = ys)
  | [], ys => by cases ys <;> simp [Term.sameAll]
  | x :: xs, ys => by cases ys <;> simp [Term.sameAll, Term.same_iff x, Term.sameAll_iff xs]

end

instance : DecidableEq Head := fun h g => decidable_of_iff _ (Head.same_iff h g)

instance : DecidableEq Term := fun t u => decidable_of_iff _ (Term.same_iff t u)

instance : Inhabited Term := ⟨.sort 0⟩

end KeyedMatching
