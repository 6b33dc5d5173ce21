import KeyedMatching.Term.Basic

/-!
# The text of a term

`Term.text` writes a term in parentheses and keywords, the form that `Reader.read` takes.

A scope lists the names of the enclosing binders, the innermost first. A variable past the scope is
written as `#` and its number counted from outside the scope. A binder of the term itself gets the
name of its depth: `x0`, `x1` and so on, or `f0`, `f1` and so on for a fixpoint.
-/

namespace KeyedMatching

/-- The name of a binder that stands under `d` others. -/
def binderName (d : Nat) : String :=
  "x" ++ d.repr

/-- The name of a fixpoint that is bound under `d` other binders. -/
def fixpointName (d : Nat) : String :=
  "f" ++ d.repr

/-- The names of a scope after `n` fixpoints have been bound in it. -/
def fixpointScope (scope : List String) (n : Nat) : List String :=
  ((List.range n).map fun i => fixpointName (scope.length + i)).reverse ++ scope

/-- The text of the variable of index `i`. -/
def relText (scope : List String) (i : Nat) : String :=
  match scope[i]? with
  | some name => name
  | none => "#" ++ (i - scope.length).repr

/-- The text of the universe of level `n`. -/
def sortText : Nat → String
  | 0 => "Prop"
  | 1 => "Type"
  | n => "(Sort " ++ n.repr ++ ")"

mutual

/-- The text of a head in a scope. -/
def Head.text (scope : List String) : Head → String
  | .rel i => relText scope i
  | .sort n => sortText n
  | .const c => c
  | .hole k [] => "?" ++ k.repr
  | .hole k (x :: xs) =>
    "?" ++ k.repr ++ "[" ++ x.text scope ++ Term.textAll scope xs ++ "]"
  | .pi a b =>
    let x := binderName scope.length
    "(forall (" ++ x ++ " " ++ a.text scope ++ ") " ++ b.text (x :: scope) ++ ")"
  | .lam a b =>
    let x := binderName scope.length
    "(fun (" ++ x ++ " " ++ a.text scope ++ ") " ++ b.text (x :: scope) ++ ")"
  | .letIn v a b =>
    let x := binderName scope.length
    "(let (" ++ x ++ " " ++ a.text scope ++ " " ++ v.text scope ++ ") " ++ b.text (x :: scope)
      ++ ")"
  | .cast t a => "(cast " ++ t.text scope ++ " " ++ a.text scope ++ ")"
  | .case r s bs =>
    "(match " ++ r.text scope ++ " " ++ s.text scope ++ Term.textAll scope bs ++ ")"
  | .fix i as bs =>
    "(fix " ++ i.repr ++ " (" ++ Term.typesText scope 0 as ++ ") ("
      ++ Term.bodiesText (fixpointScope scope as.length) bs ++ "))"

/-- The text of a term in a scope. -/
def Term.text (scope : List String) : Term → String
  | .mk h [] => h.text scope
  | .mk h (x :: xs) =>
    "(" ++ h.text scope ++ " " ++ x.text scope ++ Term.textAll scope xs ++ ")"

/-- The texts of terms, a space before each. -/
def Term.textAll (scope : List String) : List Term → String
  | [] => ""
  | x :: xs => " " ++ x.text scope ++ Term.textAll scope xs

/-- The types of fixpoints, the first one being number `i`, each with its name. -/
def Term.typesText (scope : List String) (i : Nat) : List Term → String
  | [] => ""
  | x :: xs =>
    (if i = 0 then "" else " ") ++ "(" ++ fixpointName (scope.length + i) ++ " " ++ x.text scope
      ++ ")" ++ Term.typesText scope (i + 1) xs

/-- The texts of terms, a space between two. -/
def Term.bodiesText (scope : List String) : List Term → String
  | [] => ""
  | x :: xs => x.text scope ++ Term.textAll scope xs

end

end KeyedMatching
