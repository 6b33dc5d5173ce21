import KeyedMatching.Term.Traversal

/-!
# Variables and substitution

A variable is *free* when its index reaches past the binders around it; its number is then the index
less those binders.

* `Term.freeRels` lists the free variables of a term, in visiting order and with repetitions. The
  questions about them are asked of this list: `Term.isLooseFrom`, `Term.maxFreeRel`,
  `Term.isClosed`.
* `Term.bind` puts a term for every variable; `Term.lift`, `Term.lower?`, `Term.instantiateMany` and
  `Term.abstractRels?` are its uses, and the only places where an index is computed.
* `Term.abstractTerms` puts variables for whole terms.
* `Term.betaApply` applies a term and contracts the abstractions that meet an argument.
-/

namespace KeyedMatching

/-- The largest number of a free variable that a term may have to be matched: the largest of 31
bits. A variable up to it can still be moved under as many binders within 32 bits. -/
def maxFreeIndex : Nat := 2147483647

/-- The free variable that a node under `d` binders is, if it is one. -/
def Term.freeRel? (d : Nat) : Term → Option Nat
  | .rel i => if d ≤ i then some (i - d) else none
  | _ => none

/-- The free variables of a term, each as often as it occurs. -/
def Term.freeRels (t : Term) : List Nat :=
  (t.preorder 0).filterMap fun (u, d) => u.freeRel? d

/-- Does a free variable from number `c` on occur? -/
def Term.isLooseFrom (t : Term) (c : Nat) : Bool :=
  t.freeRels.any (c ≤ ·)

/-- The largest free variable. -/
def Term.maxFreeRel (t : Term) : Option Nat :=
  t.freeRels.max?

/-- Is no variable free? -/
def Term.isClosed (t : Term) : Bool :=
  !t.isLooseFrom 0

/-! ## Putting terms for variables -/

mutual

/-- `Term.bind` in a head: a variable becomes a term, any other head stays one. -/
def Head.bind (f : Nat → Nat → Term) (d : Nat) : Head → Term
  | .rel i => f d i
  | .sort n => .sort n
  | .const c => .const c
  | .hole k xs => .hole k (Term.bindAll f d xs)
  | .pi a b => .pi (a.bind f d) (b.bind f (d + 1))
  | .lam a b => .lam (a.bind f d) (b.bind f (d + 1))
  | .letIn v a b => .ofHead (.letIn (v.bind f d) (a.bind f d) (b.bind f (d + 1)))
  | .cast t a => .ofHead (.cast (t.bind f d) (a.bind f d))
  | .case r s bs => .ofHead (.case (r.bind f d) (s.bind f d) (Term.bindAll f d bs))
  | .fix i as bs => .ofHead (.fix i (Term.bindAll f d as) (Term.bindAll f (d + as.length) bs))

/-- Put `f d i` for every variable of index `i` that stands under `d` binders. -/
def Term.bind (f : Nat → Nat → Term) (d : Nat) : Term → Term
  | .mk h xs => (h.bind f d).apply (Term.bindAll f d xs)

/-- `Term.bind` on each term of a list. -/
def Term.bindAll (f : Nat → Nat → Term) (d : Nat) : List Term → List Term
  | [] => []
  | x :: xs => x.bind f d :: Term.bindAll f d xs

end

/-- Make room for `n` more variables at position `c`: the free variables from `c` on move up. -/
def Term.lift (t : Term) (c n : Nat) : Term :=
  t.bind (fun d i => if d ≤ i then .rel (i + n) else .rel i) c

/-- Take `n` variables out at position `c`, unless one of them occurs. -/
def Term.lower? (t : Term) (c n : Nat) : Option Term :=
  if t.freeRels.any (fun i => c ≤ i && i < c + n) then none
  else some (t.bind (fun d i => if d + n ≤ i then .rel (i - n) else .rel i) c)

/-- Put `values[i]` for the free variable `i`, and close the gap. -/
def Term.instantiateMany (t : Term) (values : List Term) : Term :=
  t.bind
    (fun d i =>
      if d ≤ i then
        match values[i - d]? with
        | some v => v.lift 0 d
        | none => .rel (i - values.length)
      else .rel i)
    0

/-- Put a term for the innermost variable of a body. -/
def Term.instantiate (body value : Term) : Term :=
  body.instantiateMany [value]

/-- Renumber free variables: `vars[i]` becomes `i`. There is no answer when a free variable is not
listed. -/
def Term.abstractRels? (t : Term) (vars : List Nat) : Option Term :=
  if t.freeRels.all (vars.contains ·) then
    some (t.bind (fun d i => if d ≤ i then .rel (vars.idxOf (i - d) + d) else .rel i) 0)
  else none

/-! ## Putting variables for terms -/

/-- The position of the last of `values` that, moved under `d` binders, is the term `u`. -/
def Term.lastCopyOf? (values : List Term) (d : Nat) (u : Term) : Option Nat :=
  (values.zipIdx.reverse.find? fun (v, _) => v.lift 0 d = u).map (·.2)

/-- Abstract over `values`: a copy of `values[i]` becomes the variable `i` of as many new binders as
there are values, the last of several equal values taking it. What else is free moves past the
binders. -/
def Term.abstractTerms (t : Term) (values : List Term) : Term :=
  t.replace
    (fun u d =>
      match Term.lastCopyOf? values d u with
      | some i => some (.rel (d + i))
      | none => (u.freeRel? d).map fun i => .rel (i + d + values.length))
    0

/-! ## Application -/

/-- Apply a term, contracting an abstraction at the head with each argument in turn. -/
def Term.betaApply : Term → List Term → Term
  | t, [] => t
  | .lam _ body, x :: xs => (body.instantiate x).betaApply xs
  | t, x :: xs => t.apply (x :: xs)

/-! ## Holes -/

/-- The hole that a node is, if it is one. -/
def Term.hole? : Term → Option Nat
  | .hole k _ => some k
  | _ => none

/-- The holes of a term, each as often as it occurs. -/
def Term.holes (t : Term) : List Nat :=
  (t.preorder 0).filterMap fun (u, _) => u.hole?

/-- Does the hole occur? -/
def Term.mentions (t : Term) (k : Nat) : Bool :=
  t.holes.contains k

end KeyedMatching
