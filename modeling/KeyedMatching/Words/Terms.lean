import KeyedMatching.Holes.Instantiation
import KeyedMatching.Text.Numeral

/-!
# Terms in machine words

The operations on terms that compute an index or count binders, with every such number a word of 32
bits.

* A sum that is no word is a fault, or wraps around: `WordSum` says which.
* Beside the count that an operation keeps, which starts from zero where the operation does, goes
  `p`, the binders that stand around a place in the whole term. It is no word: it only serves to
  halt a computation, with `WordFault.nested`, on a term with `nestingBound` binders inside one
  another.
* Lengths of lists are no words. A fixpoint with too many bodies has too many binders.
-/

namespace KeyedMatching

/-- Why a computation in words halts. -/
inductive WordFault where
  /-- There are more binders inside one another than a term may have. -/
  | nested
  /-- A sum is no word. -/
  | overflow
  deriving DecidableEq, Repr

/-- A computation in words. It may also be cut off without an answer. -/
abbrev Words := ExceptT WordFault Option

/-- A term has fewer binders inside one another than this. -/
def nestingBound : Nat := 2147483647

/-- What becomes of a sum that is no word. -/
inductive WordSum where
  /-- The computation halts. -/
  | checked
  /-- The lowest 32 bits are kept. -/
  | wrapping
  deriving DecidableEq, Repr

/-- The sum of two words. -/
def WordSum.add : WordSum → Nat → Nat → Words Nat
  | .checked, m, n => if m + n < Text.bound32 then return m + n else throw .overflow
  | .wrapping, m, n => return (m + n) % Text.bound32

section
variable (sum : WordSum)

/-- Go under `n` more binders, when `p` stand around the place and `d` have been counted. -/
def deeper (p d n : Nat) : Words Nat :=
  if nestingBound ≤ p + n then throw .nested else sum.add d n

/-! ## Asking the nodes -/

section
variable (onVar : Nat → Nat → Words Bool) (onHole : Nat → Bool)

mutual

/-- `Term.someWords` in a head. The binders are counted for all children before any is visited. -/
def Head.someWords (p d : Nat) : Head → Words Bool
  | .rel i => onVar d i
  | .sort _ => return false
  | .const _ => return false
  | .hole k xs => if onHole k then return true else Term.someWordsAll p d xs
  | .pi a b => do
    let e ← deeper sum p d 1
    a.someWords p d <||> b.someWords (p + 1) e
  | .lam a b => do
    let e ← deeper sum p d 1
    a.someWords p d <||> b.someWords (p + 1) e
  | .letIn v a b => do
    let e ← deeper sum p d 1
    a.someWords p d <||> v.someWords p d <||> b.someWords (p + 1) e
  | .cast t a => a.someWords p d <||> t.someWords p d
  | .case r t bs => r.someWords p d <||> t.someWords p d <||> Term.someWordsAll p d bs
  | .fix _ as bs => do
    let e ← deeper sum p d as.length
    Term.someWordsAll p d as <||> Term.someWordsAll (p + as.length) e bs

/-- Is some variable as `onVar` says of the count and the index, or some hole as `onHole` says? The
nodes are asked in visiting order, up to the first that is. -/
def Term.someWords (p d : Nat) : Term → Words Bool
  | .mk h xs => h.someWords p d <||> Term.someWordsAll p d xs

/-- `Term.someWords` on each term of a list. -/
def Term.someWordsAll (p d : Nat) : List Term → Words Bool
  | [] => return false
  | x :: xs => x.someWords p d <||> Term.someWordsAll p d xs

end

end

/-! ## Putting terms for variables -/

section
variable (f : Nat → Nat → Nat → Words Term)

mutual

/-- `Term.bindWords` in a head. -/
def Head.bindWords (p d : Nat) : Head → Words Term
  | .rel i => f p d i
  | .sort n => return .sort n
  | .const c => return .const c
  | .hole k xs => do
    let xs ← Term.bindWordsAll p d xs
    return .hole k xs
  | .pi a b => do
    let a ← a.bindWords p d
    let e ← deeper sum p d 1
    let b ← b.bindWords (p + 1) e
    return .pi a b
  | .lam a b => do
    let a ← a.bindWords p d
    let e ← deeper sum p d 1
    let b ← b.bindWords (p + 1) e
    return .lam a b
  | .letIn v a b => do
    let a ← a.bindWords p d
    let v ← v.bindWords p d
    let e ← deeper sum p d 1
    let b ← b.bindWords (p + 1) e
    return .ofHead (.letIn v a b)
  | .cast t a => do
    let a ← a.bindWords p d
    let t ← t.bindWords p d
    return .ofHead (.cast t a)
  | .case r t bs => do
    let r ← r.bindWords p d
    let t ← t.bindWords p d
    let bs ← Term.bindWordsAll p d bs
    return .ofHead (.case r t bs)
  | .fix i as bs => do
    let cs ← Term.bindWordsAll p d as
    let e ← deeper sum p d as.length
    let bs ← Term.bindWordsAll (p + as.length) e bs
    return .ofHead (.fix i cs bs)

/-- Put `f p d i` for every variable of index `i` at the place `p`, of which `d` are counted. -/
def Term.bindWords (p d : Nat) : Term → Words Term
  | .mk h xs => do
    let g ← h.bindWords p d
    let ys ← Term.bindWordsAll p d xs
    return g.apply ys

/-- `Term.bindWords` on each term of a list. -/
def Term.bindWordsAll (p d : Nat) : List Term → Words (List Term)
  | [] => return []
  | x :: xs => do
    let x ← x.bindWords p d
    let xs ← Term.bindWordsAll p d xs
    return x :: xs

end

end

/-- Does a free variable from number `c` on occur in a term at the place `p`? -/
def Term.looseWords (p : Nat) (t : Term) (c : Nat) : Words Bool :=
  t.someWords sum
    (fun d i => do
      let least ← sum.add d c
      return least ≤ i)
    (fun _ => false) p 0

/-- `Term.lift` for a term at the place `p`. -/
def Term.liftWords (p : Nat) (t : Term) (c n : Nat) : Words Term := do
  if n = 0 then
    return t
  if !(← t.looseWords sum p c) then
    return t
  t.bindWords sum
    (fun _ d i => do
      if d ≤ i then
        let j ← sum.add i n
        return .rel j
      else
        return .rel i)
    p c

/-- `Term.lower?` for a term at the place `p`. -/
def Term.lowerWords (p : Nat) (t : Term) (c n : Nat) : Words (Option Term) := do
  if n = 0 then
    return some t
  if !(← t.looseWords sum p c) then
    return some t
  let escapes ← t.someWords sum
    (fun d i => do
      if d ≤ i then
        let e ← sum.add d n
        return i < e
      else
        return false)
    (fun _ => false) p c
  if escapes then
    return none
  let u ← t.bindWords sum
    (fun _ d i => do
      let e ← sum.add d n
      return .rel (if e ≤ i then i - n else i))
    p c
  return some u

/-- `Term.instantiateMany` for a term at the place `p`. -/
def Term.instantiateManyWords (p : Nat) (t : Term) (values : List Term) : Words Term := do
  if values.isEmpty then
    return t
  if !(← t.looseWords sum p 0) then
    return t
  t.bindWords sum
    (fun p d i =>
      if d ≤ i then
        match values[i - d]? with
        | some v => v.liftWords sum p 0 d
        | none => return .rel (i - values.length)
      else return .rel i)
    p 0

/-- `Term.betaApply` for a term at the place `p`. -/
def Term.betaApplyWords (p : Nat) : Term → List Term → Words Term
  | t, [] => return t
  | .lam _ body, x :: xs => do
    let t ← body.instantiateManyWords sum p [x]
    t.betaApplyWords p xs
  | t, x :: xs => return t.apply (x :: xs)

/-! ## Putting values for holes -/

section
variable (s : Store) (again : Nat → Term → Words Term)

/-- Does a hole with a value occur in a term at the place `p`? -/
def Store.mentionsWords (p : Nat) (t : Term) : Words Bool :=
  t.someWords sum (fun _ _ => return false) s.isAssigned p 0

mutual

/-- `Store.fillWords` in the children of a head. -/
def Store.fillHeadWords (p d : Nat) : Head → Words Head
  | .rel i => return .rel i
  | .sort n => return .sort n
  | .const c => return .const c
  | .hole k xs => do
    let xs ← Store.fillArgsWords (s.isAssigned k) p d xs
    return .hole k xs
  | .pi a b => do
    let a ← Store.fillWords p d a
    let e ← deeper sum p d 1
    let b ← Store.fillWords (p + 1) e b
    return .pi a b
  | .lam a b => do
    let a ← Store.fillWords p d a
    let e ← deeper sum p d 1
    let b ← Store.fillWords (p + 1) e b
    return .lam a b
  | .letIn v a b => do
    let a ← Store.fillWords p d a
    let v ← Store.fillWords p d v
    let e ← deeper sum p d 1
    let b ← Store.fillWords (p + 1) e b
    return .letIn v a b
  | .cast t a => do
    let a ← Store.fillWords p d a
    let t ← Store.fillWords p d t
    return .cast t a
  | .case r c bs => do
    let r ← Store.fillWords p d r
    let c ← Store.fillWords p d c
    let bs ← Store.fillArgsWords false p d bs
    return .case r c bs
  | .fix i as bs => do
    let cs ← Store.fillArgsWords false p d as
    let e ← deeper sum p d as.length
    let bs ← Store.fillArgsWords false (p + as.length) e bs
    return .fix i cs bs

/-- `Store.fill` for a term at the place `p`, of which `d` are counted. -/
def Store.fillWords (p d : Nat) : Term → Words Term
  | .mk h xs => do
    let g ← Store.fillHeadWords p d h
    let ys ← Store.fillArgsWords ((Term.ofHead h).hole?.any s.isAssigned) p d xs
    match g with
    | .hole k inst =>
      match s.value? k with
      | some value => do
        let value ← value.instantiateManyWords sum p inst
        let value ← again p value
        value.betaApplyWords sum p ys
      | none => return .mk g ys
    | _ => return .mk g ys

/-- `Store.fillWords` on each term of a list. The arguments of a hole with a value are treated each
by itself: the count starts again, and one without such holes is left alone. -/
def Store.fillArgsWords (apart : Bool) (p d : Nat) : List Term → Words (List Term)
  | [] => return []
  | x :: xs => do
    let x ←
      if apart then (do
        let mentioned ← s.mentionsWords sum p x
        if mentioned then Store.fillWords p 0 x else pure x)
      else Store.fillWords p d x
    let xs ← Store.fillArgsWords apart p d xs
    return x :: xs

end

/-- `Store.fillWords` for a term that is treated by itself. -/
def Store.enterWords (p : Nat) (t : Term) : Words Term := do
  let mentioned ← s.mentionsWords sum p t
  if mentioned then s.fillWords sum again p 0 t else return t

end

namespace Store

/-- `Store.instantiateWithin` for a term at the place `p`. -/
def instantiateWithinWords (s : Store) : Nat → Nat → Term → Words Term
  | 0 => s.enterWords sum fun _ _ => ExceptT.lift none
  | n + 1 => s.enterWords sum (s.instantiateWithinWords n)

/-- `Store.instantiate?` for a term at the place `p`. -/
def instantiateWords (s : Store) (p : Nat) (t : Term) : Words Term :=
  s.instantiateWithinWords sum s.slots.length p t

end Store

end

end KeyedMatching
