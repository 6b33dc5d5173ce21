import KeyedMatching.Matching.Location
import Mathlib.Logic.Basic
import Mathlib.Tactic.SplitIfs

/-!
# Spans in machine words

A canonical form says how many arguments of its head are those of the structure, and the projection
says how many of its own are parameters. Both counts are given by whoever registers them, and the
lists of arguments are cut where they say. Here this is done in words of 64 bits, with sums that
either fault or wrap around, and with cuts that fault past the end of a list.

* `Spans.parts`, `Spans.lengths`: what unification and the filter of the nodes compute in words;
* `Spans.parts_checked`, `Spans.parts_wrapping`: the one fault that there is, and when;
* `Spans.canonical_eq`, `Spans.keyPrefixes?_eq`: without it, unification and the filter go on with
  what was computed.
-/

namespace KeyedMatching

namespace Spans

/-- What a computation in words may come to instead of a result. -/
inductive Fault where
  /-- The result of an operation is no word. -/
  | overflow
  /-- A list ends before the place that is asked for. -/
  | outOfBounds
  deriving DecidableEq

/-! ## Words and lists -/

/-- The sum, if it is a word. -/
def checked (a b : Nat) : Except Fault Nat :=
  if a + b < Text.bound64 then .ok (a + b) else .error .overflow

/-- The lowest 64 bits of the sum. -/
def wrapping (a b : Nat) : Except Fault Nat :=
  .ok ((a + b) % Text.bound64)

/-- The difference, if it is a word. -/
def difference (a b : Nat) : Except Fault Nat :=
  if b ≤ a then .ok (a - b) else .error .overflow

section
variable {α : Type}

/-- The part of a list from a place on. -/
def startingAt (xs : List α) (n : Nat) : Except Fault (List α) :=
  if n ≤ xs.length then .ok (xs.drop n) else .error .outOfBounds

/-- The part of a list before a place. -/
def endingAt (xs : List α) (n : Nat) : Except Fault (List α) :=
  if n ≤ xs.length then .ok (xs.take n) else .error .outOfBounds

/-- The entry at a place of a list. -/
def entryAt (xs : List α) (n : Nat) : Except Fault α :=
  match xs[n]? with
  | some x => .ok x
  | none => .error .outOfBounds

end

/-! ## Cutting the arguments -/

/-- The arguments that are compared when a projection meets a constant with a canonical form. -/
structure Parts where
  /-- The structure that the projection is applied to. -/
  subject : Term
  /-- What the projection takes after it. -/
  own : List Term
  /-- The arguments of the constant that make up its structure. -/
  inner : List Term
  /-- The arguments of the constant after these. -/
  outer : List Term
  deriving DecidableEq

section
variable (add : Nat → Nat → Except Fault Nat)

/-- Cut the arguments `xs` of a projection and `ys` of a constant, if their numbers suit. -/
def parts (extra params : Nat) (xs ys : List Term) : Except Fault (Option Parts) := do
  if params = 0 ∨ xs.length < params then
    return none
  let own ← startingAt xs params
  let span ← add extra own.length
  if ys.length ≠ span then
    return none
  let inner ← endingAt ys extra
  let subject ← entryAt xs (params - 1)
  let outer ← startingAt ys extra
  return some { subject, own, inner, outer }

/-- The length, where a spine with `n` arguments has such a prefix. One without arguments is a node
of its own. -/
def fitting (len n : Nat) : List Nat :=
  if (if len = 0 then n = 0 else len ≤ n) then [len] else []

/-- The lengths of prefixes, of a spine with `n` arguments of a constant, that a projection with
`arity` arguments may match. -/
def lengths (extra params arity n : Nat) : Except Fault (List Nat) := do
  let own ← difference arity params
  let len ← add extra own
  return fitting len n

end

/-- The cut with exact sums. -/
def parts? (extra params : Nat) (xs ys : List Term) : Option Parts :=
  if 0 < params ∧ ys.length = extra + (xs.length - params) then
    xs[params - 1]?.map fun subject =>
      { subject, own := xs.drop params, inner := ys.take extra, outer := ys.drop extra }
  else none

section
variable {extra params : Nat} {xs ys : List Term}

/-- Once the arguments of the projection reach to its structure, the sum decides. -/
theorem parts_of_le (add : Nat → Nat → Except Fault Nat) (pos : 0 < params)
    (le : params ≤ xs.length) :
    parts add extra params xs ys = (add extra (xs.length - params)).bind fun span =>
      if ys.length ≠ span then .ok none
      else if extra ≤ ys.length then
        .ok (some ⟨xs[params - 1], xs.drop params, ys.take extra, ys.drop extra⟩)
      else .error .outOfBounds := by
  have guard : ¬ (params = 0 ∨ xs.length < params) := by omega
  have own : startingAt xs params = .ok (xs.drop params) := if_pos le
  have subject : entryAt xs (params - 1) = .ok xs[params - 1] := by
    rw [entryAt, List.getElem?_eq_getElem (by omega)]
  have run : parts add extra params xs ys =
      (add extra (xs.drop params).length).bind fun span =>
        if ys.length ≠ span then .ok none
        else (endingAt ys extra).bind fun inner => (startingAt ys extra).bind fun outer =>
          .ok (some ⟨xs[params - 1], xs.drop params, inner, outer⟩) := by
    simp only [parts, if_neg guard, own, subject]
    rfl
  rw [run, List.length_drop]
  congr 1
  funext span
  unfold endingAt startingAt
  split_ifs <;> rfl

theorem parts_of_not (add : Nat → Nat → Except Fault Nat)
    (h : ¬ (0 < params ∧ params ≤ xs.length)) :
    parts add extra params xs ys = .ok none := by
  have guard : params = 0 ∨ xs.length < params := by omega
  simp only [parts, if_pos guard]
  rfl

theorem parts?_of_le (pos : 0 < params) (le : params ≤ xs.length) :
    parts? extra params xs ys = if ys.length = extra + (xs.length - params) then
      some ⟨xs[params - 1], xs.drop params, ys.take extra, ys.drop extra⟩ else none := by
  simp only [parts?, pos, true_and, List.getElem?_eq_getElem (show params - 1 < xs.length by omega),
    Option.map_some]

theorem parts?_of_not (h : ¬ (0 < params ∧ params ≤ xs.length)) :
    parts? extra params xs ys = none := by
  unfold parts?
  split
  · rw [List.getElem?_eq_none (by omega), Option.map_none]
  · rfl

/-- With sums that fault, the only fault is that the sum is no word. -/
theorem parts_checked (extra params : Nat) (xs ys : List Term) :
    parts checked extra params xs ys =
      if 0 < params ∧ params ≤ xs.length ∧ Text.bound64 ≤ extra + (xs.length - params) then
        .error .overflow
      else .ok (parts? extra params xs ys) := by
  by_cases guard : 0 < params ∧ params ≤ xs.length
  · obtain ⟨pos, le⟩ := guard
    simp only [parts_of_le checked pos le, parts?_of_le pos le, pos, le, true_and]
    generalize hsum : extra + (xs.length - params) = sum
    rw [checked, hsum]
    by_cases fits : sum < Text.bound64
    · rw [if_pos fits, if_neg (Nat.not_le.2 fits), Except.bind]
      by_cases same : ys.length = sum
      · have reaches : extra ≤ ys.length := by omega
        rw [if_neg (not_not.2 same), if_pos reaches, if_pos same]
      · rw [if_pos same, if_neg same]
    · rw [if_neg fits, if_pos (Nat.le_of_not_lt fits)]
      rfl
  · rw [parts_of_not checked guard, parts?_of_not guard, if_neg fun h => guard ⟨h.1, h.2.1⟩]

/-- With sums that wrap around, the only fault is to cut the arguments of the constant past their
end, where the sum is past 64 bits and what is left of it is their number. -/
theorem parts_wrapping {extra params : Nat} {xs ys : List Term} (hextra : extra < Text.bound64)
    (hxs : xs.length < Text.bound64) (hys : ys.length < Text.bound64) :
    parts wrapping extra params xs ys =
      if 0 < params ∧ params ≤ xs.length ∧
          extra + (xs.length - params) = ys.length + Text.bound64 then
        .error .outOfBounds
      else .ok (parts? extra params xs ys) := by
  by_cases guard : 0 < params ∧ params ≤ xs.length
  · obtain ⟨pos, le⟩ := guard
    simp only [parts_of_le wrapping pos le, parts?_of_le pos le, pos, le, true_and]
    have own : xs.length - params < Text.bound64 := by omega
    generalize hown : xs.length - params = n at own
    rw [wrapping, Except.bind]
    by_cases fits : extra + n < Text.bound64
    · have unwrapped : ¬ extra + n = ys.length + Text.bound64 := by omega
      rw [Nat.mod_eq_of_lt fits, if_neg unwrapped]
      by_cases same : ys.length = extra + n
      · have reaches : extra ≤ ys.length := by omega
        rw [if_neg (not_not.2 same), if_pos reaches, if_pos same]
      · rw [if_pos same, if_neg same]
    · have left : (extra + n) % Text.bound64 = extra + n - Text.bound64 := by
        rw [Nat.mod_eq_sub_mod (by omega), Nat.mod_eq_of_lt (by omega)]
      rw [left]
      by_cases wraps : extra + n = ys.length + Text.bound64
      · have same : ys.length = extra + n - Text.bound64 := by omega
        have short : ¬ extra ≤ ys.length := by omega
        rw [if_neg (not_not.2 same), if_neg short, if_pos wraps]
      · have other : ys.length ≠ extra + n - Text.bound64 := by omega
        have more : ¬ ys.length = extra + n := by omega
        rw [if_pos other, if_neg wraps, if_neg more]
  · rw [parts_of_not wrapping guard, parts?_of_not guard, if_neg fun h => guard ⟨h.1, h.2.1⟩]

/-! ## Lengths of prefixes -/

theorem lengths_of_le (add : Nat → Nat → Except Fault Nat) {arity : Nat} (le : params ≤ arity)
    (n : Nat) : lengths add extra params arity n =
      (add extra (arity - params)).bind fun len => .ok (fitting len n) := by
  have own : difference arity params = .ok (arity - params) := if_pos le
  simp only [lengths, own]
  rfl

theorem lengths_checked {arity : Nat} (le : params ≤ arity) (n : Nat) :
    lengths checked extra params arity n =
      if Text.bound64 ≤ extra + (arity - params) then .error .overflow
      else .ok (fitting (extra + (arity - params)) n) := by
  rw [lengths_of_le checked le, checked]
  by_cases fits : extra + (arity - params) < Text.bound64
  · rw [if_pos fits, if_neg (Nat.not_le.2 fits)]
    rfl
  · rw [if_neg fits, if_pos (Nat.le_of_not_lt fits)]
    rfl

theorem lengths_wrapping {arity : Nat} (le : params ≤ arity) (n : Nat) :
    lengths wrapping extra params arity n =
      .ok (fitting ((extra + (arity - params)) % Text.bound64) n) := by
  rw [lengths_of_le wrapping le]
  rfl

end

/-! ## Unification and the filter -/

section
variable {cx : Context}

/-- Compare the structure with an instance of the canonical form, and then what is after them. -/
def Parts.compare (again : Store → Term → Term → Attempt Store) (s : Store) (inst : Term)
    (c : Parts) : Attempt Store := do
  let s ← again s c.subject (inst.apply c.inner)
  Unify.all again s c.own c.outer

/-- Unification goes on with the parts, has no answer where a sum faults, and fails where the
numbers do not suit. -/
theorem canonical_eq {p h : String} {params : Nat} {form : Canonical}
    (hp : cx.signature.projection? p = some params) (hc : cx.signature.canonical? p h = some form)
    (again : Store → Term → Term → Attempt Store) (s : Store) (xs ys : List Term) :
    Unify.canonical cx again s (.mk (.const p) xs) (.mk (.const h) ys) =
      match parts checked form.extra params xs ys with
      | .error _ => Attempt.ofAnswer none
      | .ok none => failure
      | .ok (some c) => c.compare again s form.inst := by
  rw [parts_checked]
  by_cases guard : 0 < params ∧ params ≤ xs.length
  · obtain ⟨pos, le⟩ := guard
    have subject : xs[params - 1]? = some xs[params - 1] := List.getElem?_eq_getElem (by omega)
    simp only [Unify.canonical, hp, hc, Nat.ne_of_gt pos, if_false, subject, parts?_of_le pos le,
      pos, le, true_and, Canonical.span, List.length_drop]
    split_ifs <;> rfl
  · rw [parts?_of_not guard, if_neg fun h => guard ⟨h.1, h.2.1⟩]
    by_cases zero : params = 0
    · simp only [Unify.canonical, hp, hc, if_pos zero]
    · have none : xs[params - 1]? = none := List.getElem?_eq_none (by omega)
      simp only [Unify.canonical, hp, hc, if_neg zero, none]

theorem params_of_classOf {known : Scope} {s : Store} {t : Term} {p : String} {params : Nat}
    (h : Pattern.classOf cx known s t = .ok (.projection p params)) :
    cx.signature.projection? p = some params ∧ 0 < params ∧ params ≤ t.args.length := by
  unfold Pattern.classOf at h
  split at h
  · next c xs =>
    split at h
    · next params' known' =>
      split at h
      · next enough =>
        cases h
        exact ⟨known', enough⟩
      · cases h
    · cases h
  · cases h
  · split at h
    · split at h <;> cases h
    · cases h
  · cases h
  · cases h

/-- A pattern that is taken for a projection has all its parameters. -/
theorem params_of_compile? {known : Scope} {s s' : Store} {c : Candidate} {pat : Pattern}
    (h : Pattern.compile? cx s known c = some (.ok (pat, s'))) {p : String} {params : Nat}
    (cls : pat.cls = .projection p params) :
    cx.signature.projection? p = some params ∧ 0 < params ∧ params ≤ pat.term.args.length := by
  simp only [Pattern.compile?, Option.bind_eq_bind, Option.bind_eq_some_iff] at h
  obtain ⟨t, _, h⟩ := h
  split at h
  · cases h
  · next classed =>
    cases h
    exact params_of_classOf (classed.trans (congrArg _ cls))

/-- The filter goes on with the lengths, and has no answer where the sum faults. -/
theorem keyPrefixes?_eq {pat : Pattern} {p h : String} {params : Nat} {form : Canonical}
    (cls : pat.cls = .projection p params) (le : params ≤ pat.term.args.length) (other : h ≠ p)
    (hc : cx.signature.canonical? p h = some form) (n d : Nat) :
    keyPrefixes? cx .higherOrder pat (.const h) n d =
      (lengths checked form.extra params pat.term.args.length n).toOption := by
  rw [lengths_checked le]
  change _ = (if Text.bound64 ≤ form.span (pat.term.args.length - params) then _
    else Except.ok (fitting (form.span (pat.term.args.length - params)) n)).toOption
  simp only [keyPrefixes?, cls, if_neg other, hc]
  generalize form.span (pat.term.args.length - params) = len
  by_cases past : Text.bound64 ≤ len
  · rw [if_pos past, if_pos past]
    rfl
  · rw [if_neg past, if_neg past]
    by_cases bare : len = 0 <;> simp [Except.toOption, fitting, bare]

end

end Spans

end KeyedMatching
