import KeyedMatching.Context
import KeyedMatching.Holes.Instantiation

/-!
# Weak head reduction

`whnf?` reduces the head of a term until nothing that is switched on applies to it.

* A cast at the head is always dropped. Contracting abstractions, expanding local definitions,
  unfolding constants and following assigned holes are switched by `Reductions`.
* Unfolding constants is limited by the setting `unfoldFuel`; when that is used up, a defined
  constant stays at the head.
-/

namespace KeyedMatching

/-- Which reductions may be used. -/
structure Reductions where
  /-- Contract an abstraction with its argument. -/
  beta : Bool
  /-- Expand a local definition. -/
  zeta : Bool
  /-- Unfold a defined constant. -/
  delta : Bool
  /-- Follow an assigned hole to its value. -/
  holes : Bool
  deriving DecidableEq, Repr

/-- For patterns: definitions of either kind stay as they are. -/
def Reductions.pattern : Reductions := ⟨true, false, false, true⟩

/-- All but unfolding constants. -/
def Reductions.noDelta : Reductions := ⟨true, true, false, true⟩

/-- All. -/
def Reductions.full : Reductions := ⟨true, true, true, true⟩

/-- Is the term an abstraction that has not been applied? -/
def Term.isLam : Term → Bool
  | .lam _ _ => true
  | _ => false

section
variable (g : Signature) (s : Store) (flags : Reductions)

/-- One reduction at the head, with the number of unfoldings left, before `again` goes on. An
application reduces its head, and is contracted when that comes out as an abstraction. -/
def whnfStep (again : Term → Nat → Option (Term × Nat)) : Term → Nat → Option (Term × Nat)
  | .mk h [], fuel =>
    match h with
    | .cast t _ => again t fuel
    | .letIn v _ b => if flags.zeta then again (b.instantiate v) fuel else some (.ofHead h, fuel)
    | .hole k inst =>
      match if flags.holes then s.value? k else none with
      | some v => again (v.instantiateMany inst) fuel
      | none => some (.ofHead h, fuel)
    | .const c =>
      match if flags.delta && fuel > 0 then g.definition? c else none with
      | some d => again d.body (fuel - 1)
      | none => some (.ofHead h, fuel)
    | _ => some (.ofHead h, fuel)
  | .mk h (x :: xs), fuel => do
    let (f, fuel) ← again (.ofHead h) fuel
    if flags.beta && f.isLam then again (f.betaApply (x :: xs)) fuel
    else return (f.apply (x :: xs), fuel)

/-- Reduce the head, recursing at most `n` deep. -/
def whnfWithin : Nat → Term → Nat → Option (Term × Nat)
  | 0 => fun _ _ => none
  | n + 1 => whnfStep g s flags (whnfWithin n)

end

/-- The weak head normal form of a term. -/
def whnf? (cx : Context) (s : Store) (t : Term) (flags : Reductions) : Option Term :=
  (whnfWithin cx.signature s flags cx.depth t cx.config.unfoldFuel).map (·.1)

/-- Unfold the constant at the head of a term, if it has a definition, and contract the abstractions
that then meet an argument. -/
def unfoldHead? (g : Signature) : Term → Option Term
  | .mk (.const c) xs => (g.definition? c).map fun d => d.body.betaApply xs
  | _ => none

end KeyedMatching
