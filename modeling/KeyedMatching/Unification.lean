import KeyedMatching.Reduction

/-!
# Unification

Making two terms equal by assigning holes.

* `unify?` reduces both terms at the head. A hole against a term is assigned by inverting its
  instance; else the tops are compared, a projection is read through a canonical form, and, where
  unfolding is allowed, one head is unfolded and the comparison made again. The first of these that
  succeeds counts.
* An equation that cannot be decided yet is put off when the mode allows it.
* `simplify?` takes up the equations that were put off; when none of them assigned a hole, one is
  solved by abstracting the arguments of its hole out of the other side.
* `resolve?` assigns obligations to the registered instances whose types fit.
* `convertible?` compares without assigning anything.

An alternative that fails gives its store back, but not the unfoldings it has used: their number is
limited for the problem as a whole.
-/

namespace KeyedMatching

/-- An attempt: it may fail, or be cut off without an answer, and uses up unfoldings. -/
abbrev Attempt := OptionT (StateT Nat Option)

namespace Attempt

/-- Go on with an answer, if there is one. -/
def ofAnswer {α : Type} (x : Option α) : Attempt α :=
  OptionT.lift (StateT.lift x)

/-- Fail where there is no value. -/
def ofOption {α : Type} : Option α → Attempt α
  | some a => pure a
  | none => failure

/-- Use up an unfolding. -/
def spend : Attempt Unit := do
  let fuel ← get
  if fuel = 0 then failure else set (fuel - 1)

end Attempt

/-- How far unification may go. -/
inductive UnifyMode where
  /-- Nothing is unfolded and nothing put off. -/
  | firstOrder
  /-- Definitions are unfolded, and equations that are not decided put off. -/
  | higherOrder
  /-- Definitions are unfolded; no hole can be assigned. -/
  | conversion
  deriving DecidableEq, Repr

/-- The variables that the arguments of an instance are, if they are different variables. -/
def distinctRels? : List Term → Option (List Nat)
  | [] => some []
  | .rel i :: xs => do
    let is ← distinctRels? xs
    if is.contains i then none else return i :: is
  | _ :: _ => none

/-- The hole that a term is, with its instance, if it may be assigned. -/
def Store.assignable? (s : Store) : Term → Option (Nat × List Term)
  | .hole k inst => if s.isAssignable k then some (k, inst) else none
  | _ => none

/-- Is the head of a term a hole that may be assigned? -/
def Store.isFlexible (s : Store) (t : Term) : Bool :=
  t.headHole?.any s.isAssignable

/-- Number of arguments that the head of a canonical form takes when the projection takes `own`
after its structure. -/
def Canonical.span (c : Canonical) (own : Nat) : Nat :=
  c.extra + own

/-! ## One problem -/

namespace Unify

section
variable (cx : Context) (mode : UnifyMode) (again : Store → Term → Term → Attempt Store)

/-- Unify position by position. -/
def pairs : Store → List Term → List Term → Attempt Store
  | s, x :: xs, y :: ys => do
    let s ← again s x y
    pairs s xs ys
  | s, _, _ => pure s

/-- Unify two lists of one length. -/
def all (s : Store) (xs ys : List Term) : Attempt Store :=
  if xs.length = ys.length then pairs again s xs ys else failure

/-- Put an equation off, if the mode allows it. -/
def postpone (s : Store) (lhs rhs : Term) : Attempt Store :=
  if mode = .higherOrder then pure (s.defer { lhs, rhs }) else failure

/-- Solve `hole = t`, where `hole` is hole `k` with the instance `inst`. When its instance cannot be
inverted, `other` is tried with the instantiated term, and the equation is put off after that. -/
def solveOr (other : Term → Attempt Store) (s : Store) (k : Nat) (inst : List Term)
    (hole t : Term) : Attempt Store := do
  let t ← Attempt.ofAnswer (s.instantiate? t)
  let solve : Attempt Store :=
    if t.mentions k then failure
    else
      match (distinctRels? inst).bind t.abstractRels? with
      | some value => Attempt.ofOption (s.assign? k value)
      | none => other t <|> postpone mode s hole t
  match t with
  | .hole l inst' => if l = k then all again s inst inst' else solve
  | _ => solve

/-- Solve `hole = t`; if the term is a hole as well, from that side too. -/
def solve (s : Store) (k : Nat) (inst : List Term) (hole t : Term) : Attempt Store :=
  solveOr mode again
    (fun t =>
      match s.assignable? t with
      | some (l, inst') => solveOr mode again (fun _ => failure) s l inst' t hole
      | none => failure)
    s k inst hole t

/-- Compare heads of the same construction, child by child. -/
def heads (s : Store) : Head → Head → Attempt Store
  | .rel i, .rel j => if i = j then pure s else failure
  | .sort m, .sort n => if m = n then pure s else failure
  | .const c, .const d => if c = d then pure s else failure
  | .hole k xs, .hole l ys => if k = l then all again s xs ys else failure
  | .pi a b, .pi c d => do
    let s ← again s a c
    again s b d
  | .lam a b, .lam c d => do
    let s ← again s a c
    again s b d
  | .letIn v a b, .letIn w c d => do
    let s ← again s a c
    let s ← again s v w
    again s b d
  | .case r t bs, .case q u cs => do
    let s ← again s r q
    let s ← again s t u
    all again s bs cs
  | .fix i as bs, .fix j cs ds =>
    if i = j then do
      let s ← all again s as cs
      all again s bs ds
    else failure
  | _, _ => failure

/-- Compare two applications from their last arguments on. What the longer spine has before them
goes to its head. -/
def spines (s : Store) (f : Head) (xs : List Term) (g : Head) (ys : List Term) : Attempt Store := do
  let n := xs.length - ys.length
  let m := ys.length - xs.length
  let s ← again s (.mk f (xs.take n)) (.mk g (ys.take m))
  all again s (xs.drop n) (ys.drop m)

/-- Compare two terms of the same construction. -/
def tops (s : Store) : Term → Term → Attempt Store
  | .mk f [], .mk g [] => heads again s f g
  | .mk f (x :: xs), .mk g (y :: ys) => spines again s f (x :: xs) g (y :: ys)
  | _, _ => failure

/-- Read `u`, an application of a constant, as an application of the projection at the head of `t`.
A number of arguments past 64 bits has no answer. -/
def canonical (s : Store) (t u : Term) : Attempt Store :=
  match t, u with
  | .mk (.const p) xs, .mk (.const h) ys =>
    match cx.signature.projection? p, cx.signature.canonical? p h with
    | some params, some form =>
      if params = 0 then failure
      else
        match xs[params - 1]? with
        | none => failure
        | some x => do
          let own := xs.drop params
          let span := form.span own.length
          if Text.bound64 ≤ span then Attempt.ofAnswer none
          else if ys.length = span then
            let s ← again s x (form.inst.apply (ys.take form.extra))
            all again s own (ys.drop form.extra)
          else failure
    | _, _ => failure
  | _, _ => failure

/-- Unfold the head of one term, the first before the second, and compare again. -/
def unfold (s : Store) (a b : Term) : Attempt Store :=
  (do
    let a ← Attempt.ofOption (if (← get) = 0 then none else unfoldHead? cx.signature a)
    Attempt.spend
    again s a b) <|>
  (do
    let b ← Attempt.ofOption (if (← get) = 0 then none else unfoldHead? cx.signature b)
    Attempt.spend
    again s a b)

/-- Unify two terms, comparing what is inside them by `again`. -/
def step (s : Store) (a b : Term) : Attempt Store := do
  if a = b then return s
  let a ← Attempt.ofAnswer (whnf? cx s a .noDelta)
  let b ← Attempt.ofAnswer (whnf? cx s b .noDelta)
  if a = b then return s
  match s.assignable? a, s.assignable? b with
  | some (k, inst), _ => solve mode again s k inst a b
  | none, some (k, inst) => solve mode again s k inst b a
  | none, none =>
    tops again s a b
    <|> canonical cx again s a b
    <|> canonical cx again s b a
    <|> (if mode = .firstOrder then failure else unfold cx again s a b)
    <|> (if s.isFlexible a || s.isFlexible b then postpone mode s a b else failure)

end

/-- Unify two terms, recursing at most `n` deep. -/
def within (cx : Context) (mode : UnifyMode) : Nat → Store → Term → Term → Attempt Store
  | 0 => fun _ _ _ => Attempt.ofAnswer none
  | n + 1 => step cx mode (within cx mode n)

/-- Carry an attempt out as a problem of its own. -/
def run {α : Type} (cx : Context) (x : Attempt α) : Option (Option α) :=
  (x.run.run cx.config.unfoldFuel).map (·.1)

end Unify

/-- Unify two terms. The answer is the store with the assignments made, or that there is none. -/
def unify? (cx : Context) (mode : UnifyMode) (s : Store) (a b : Term) : Option (Option Store) :=
  Unify.run cx (Unify.within cx mode cx.depth s a b)

/-- Are two terms equal up to reduction, definitions and canonical forms, the holes being what they
are? -/
def convertible? (cx : Context) (s : Store) (a b : Term) : Option Bool :=
  (unify? cx .conversion (s.freeze s.checkpoint) a b).map (·.isSome)

/-- Are two terms the same term once the values of holes are put in? -/
def sameInstance? (s : Store) (a b : Term) : Option Bool := do
  let a ← s.instantiate? a
  let b ← s.instantiate? b
  return a = b

/-! ## Equations put off -/

/-- Solve `flex = other` for a hole `flex` by abstracting the arguments of its instance. -/
def imitateSide? (s : Store) (flex other : Term) : Option (Option Store) := do
  let flex ← s.instantiate? flex
  match s.assignable? flex with
  | none => return none
  | some (k, inst) =>
    let other ← s.instantiate? other
    let value := other.abstractTerms inst
    if other.mentions k || value.isLooseFrom inst.length then return none
    else return s.assign? k value

/-- Solve an equation for a hole on its left side, or else on its right side. -/
def imitate? (s : Store) (e : Equation) : Option (Option Store) := do
  match ← imitateSide? s e.lhs e.rhs with
  | some s => return some s
  | none => imitateSide? s e.rhs e.lhs

/-- Solve the first equation that can be imitated, and put the others off again. -/
def imitateFirst? : Store → List Equation → Option Store
  | s, [] => some s
  | s, e :: es => do
    match ← imitate? s e with
    | some s => return es.foldl Store.defer s
    | none => imitateFirst? (s.defer e) es

/-- Take up the equations that were put off, as one problem. -/
def simplify? (cx : Context) (s : Store) : Option (Option Store) := do
  let (pending, start) := s.takePending
  match ← Unify.run cx <|
      pending.foldlM (fun s e => Unify.within cx .higherOrder cx.depth s e.lhs e.rhs) start with
  | none => return none
  | some next =>
    if next.version = s.version then
      let (pending, next) := next.takePending
      (imitateFirst? next pending).map some
    else return some next

/-! ## Obligations -/

/-- Assign hole `k` of type `type` to the first of the instances that fits. -/
def resolveHole? (cx : Context) (s : Store) (k : Nat) (type : Term) :
    List Instance → Option (Option Store)
  | [] => some none
  | i :: is => do
    match ← unify? cx .higherOrder s type i.type with
    | some next =>
      match next.assign? k (.const i.name) with
      | some next => return some next
      | none => resolveHole? cx s k type is
    | none => resolveHole? cx s k type is

/-- The obligations that are open, with their types. -/
def Store.obligations (s : Store) : List (Nat × Term) :=
  s.holes.filterMap fun (k, h) =>
    if h.kind = .obligation ∧ s.isAssignable k then h.type?.map fun type => (k, type) else none

/-- Discharge the open obligations for which there is an instance. -/
def resolve? (cx : Context) (s : Store) : Option Store :=
  s.obligations.foldlM
    (fun s (k, type) => do
      match ← resolveHole? cx s k type cx.signature.instances with
      | some next => return next
      | none => return s)
    s

end KeyedMatching
