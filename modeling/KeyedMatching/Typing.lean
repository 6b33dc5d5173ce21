import KeyedMatching.Unification

/-!
# Type inference

`inferType?` finds the type of a term as far as that is known. Free variables, constants that were
not declared and holes without a type have none, and neither has what hangs on them; that is an
answer, and not an error. A `TypeError` is a term that cannot have a type: an argument or a value of
another type than expected, something applied that is no function, or a domain that is no type.
-/

namespace KeyedMatching

/-- Why a term cannot have a type. -/
inductive TypeError where
  | mismatch (arg expected found : Term)
  | notAFunction (head : Term)
  | notAType (term : Term)
  deriving DecidableEq

/-- The words for an error; terms are not shown in them. -/
def TypeError.message : TypeError → String
  | .mismatch _ _ _ => "argument TermId(_) has type TermId(_), expected TermId(_)"
  | .notAFunction _ => "TermId(_) is applied but its type is not a product"
  | .notAType _ => "TermId(_) is not a type"

/-- A step of inference: it may find an error, or be cut off without an answer. -/
abbrev InferM := ExceptT TypeError Option

namespace Infer

section
variable (cx : Context) (conv : Store → Term → Term → Option Bool) (s : Store)
variable (again : List Term → Term → InferM (Option Term))

/-- Go on with an answer, if there is one. -/
def ofAnswer {α : Type} (x : Option α) : InferM α :=
  ExceptT.lift x

/-- The level of the universe that a type lives in, where it is known. -/
def sortOf (locals : List Term) (type : Term) : InferM (Option Nat) := do
  match ← again locals type with
  | none => return none
  | some u =>
    match ← ofAnswer (whnf? cx s u .full) with
    | .sort n => return some n
    | .hole _ _ => return none
    | _ => throw (.notAType type)

/-- The type of `t`, if it is known, must be convertible to `expected`. -/
def check (locals : List Term) (t expected : Term) : InferM Unit := do
  match ← again locals t with
  | none => return ()
  | some found =>
    if ← ofAnswer (conv s found expected) then return ()
    else throw (.mismatch t expected found)

/-- The type of an application, from the type of what is applied to the arguments. -/
def application (locals : List Term) (head : Term) : Term → List Term → InferM (Option Term)
  | type, [] => return some type
  | type, x :: xs => do
    match ← ofAnswer (whnf? cx s type .full) with
    | .pi dom body =>
      check conv s again locals x dom
      application locals head (body.instantiate x) xs
    | .hole _ _ => return none
    | _ => throw (.notAFunction head)

/-- Infer the types of terms for the sake of their errors. -/
def visit (locals : List Term) : List Term → InferM Unit
  | [] => return ()
  | x :: xs => do
    let _ ← again locals x
    visit locals xs

/-- The type of a head. -/
def head (locals : List Term) : Head → InferM (Option Term)
  | .rel i => return locals[i]?.map fun type => type.lift 0 (i + 1)
  | .sort n => return some (.sort (n + 1))
  | .const c => return cx.signature.type? c
  | .hole k inst =>
    match s.value? k with
    | some value => again locals (value.instantiateMany inst)
    | none => return ((s.hole? k).bind (·.type?)).map fun type => type.instantiateMany inst
  | .pi a b => do
    let m ← sortOf cx s again locals a
    let n ← sortOf cx s again (a :: locals) b
    match m, n with
    | _, some 0 => return some (.sort 0)
    | some m, some n => return some (.sort (max m n))
    | _, _ => return none
  | .lam a b => do
    let _ ← sortOf cx s again locals a
    let type? ← again (a :: locals) b
    return type?.map fun type => .pi a type
  | .letIn v a b => do
    check conv s again locals v a
    again locals (b.instantiate v)
  | .cast t a => do
    check conv s again locals t a
    return some a
  | .case r t bs => do
    let _ ← again locals t
    visit again locals bs
    return some (r.betaApply [t])
  | .fix i as _ => return as[i]?

/-- The type of a term, inferring inside it by `again`. -/
def step (locals : List Term) : Term → InferM (Option Term)
  | .mk h [] => head cx conv s again locals h
  | .mk h (x :: xs) => do
    match ← again locals (.ofHead h) with
    | none => return none
    | some type => application cx conv s again locals (.ofHead h) type (x :: xs)

end

/-- The type of a term under binders of the types `locals`, the innermost first, recursing at most
`n` deep. -/
def within (cx : Context) (conv : Store → Term → Term → Option Bool) (s : Store) :
    Nat → List Term → Term → InferM (Option Term)
  | 0 => fun _ _ => ofAnswer none
  | n + 1 => step cx conv s (within cx conv s n)

end Infer

/-- The type of a term, types being compared by `conv`. -/
def inferTypeBy? (cx : Context) (conv : Store → Term → Term → Option Bool) (s : Store) (t : Term) :
    Option (Except TypeError (Option Term)) :=
  (Infer.within cx conv s cx.limit [] t).run

/-- The type of a term, where it is known. -/
def inferType? (cx : Context) (s : Store) (t : Term) : Option (Except TypeError (Option Term)) :=
  inferTypeBy? cx (convertible? cx) s t

end KeyedMatching
