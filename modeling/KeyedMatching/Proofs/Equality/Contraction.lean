import KeyedMatching.Proofs.Equality.Theory
import KeyedMatching.Proofs.Reduction
import KeyedMatching.Proofs.Term.Composition
import KeyedMatching.Proofs.Term.Framed

/-!
# Contraction and substitution

How contracting abstractions goes together with putting terms for variables.

* `Term.MovesAlong.bind_instantiate`: a binding goes into a contracted abstraction;
* `Term.MovesAlong.bind_betaApply`: and so it does into an application that is contracted, if none
  of the terms put in is an abstraction, which could then be contracted in its turn;
* `Term.BetaEqual`: equality up to contracting abstractions. Any binding keeps it
  (`Term.BetaEqual.bind`), and it does not matter which of equal terms are put in
  (`Term.BetaEqual.instantiateMany`).
-/

namespace KeyedMatching

/-! ## Bindings and abstractions -/

theorem forall₂_bindAll {R : Term → Term → Prop} {f f' : Nat → Nat → Term} {xs ys : List Term}
    (h : List.Forall₂ (fun x y => ∀ d, R (x.bind f d) (y.bind f' d)) xs ys) (d : Nat) :
    List.Forall₂ R (Term.bindAll f d xs) (Term.bindAll f' d ys) := by
  rw [Term.bindAll_eq_map, Term.bindAll_eq_map, List.forall₂_map_left_iff,
    List.forall₂_map_right_iff]
  exact h.imp fun _ _ e => e d

section
variable {f : Nat → Nat → Term}

/-- A binding goes into the body of an abstraction and into the term put for its variable. -/
theorem Term.MovesAlong.bind_instantiate (hf : Term.MovesAlong f) (b x : Term) (d : Nat) :
    (b.instantiate x).bind f d = (b.bind f (d + 1)).instantiate (x.bind f d) :=
  hf.bind_instantiateMany_shift b [x] d

theorem Term.isLam_bind (neutral : ∀ d i, (f d i).isLam = false) (t : Term) (d : Nat) :
    (t.bind f d).isLam = t.isLam := by
  obtain ⟨h, xs⟩ := t
  cases xs with
  | nil =>
    rw [Term.bind, Term.bindAll, Term.apply_nil]
    cases h with
    | rel i => exact neutral d i
    | _ => rfl
  | cons x xs =>
    have applied : ((Term.mk h (x :: xs)).bind f d).args ≠ [] := by
      rw [Term.bind, Term.args_apply]
      simp [Term.bindAll]
    have before : (Term.mk h (x :: xs)).args ≠ [] := List.cons_ne_nil x xs
    rw [Term.isLam_eq_false_of_args applied, Term.isLam_eq_false_of_args before]

/-- Where no abstraction is put in, the arguments that are contracted are the same before and
after. -/
theorem Term.MovesAlong.bind_betaApply (hf : Term.MovesAlong f)
    (neutral : ∀ d i, (f d i).isLam = false) (t : Term) (xs : List Term) (d : Nat) :
    (t.betaApply xs).bind f d = (t.bind f d).betaApply (xs.map (·.bind f d)) := by
  induction xs generalizing t with
  | nil => simp [Term.betaApply]
  | cons x xs ih =>
    cases hlam : t.isLam with
    | true =>
      obtain ⟨a, b, rfl⟩ := Term.exists_of_isLam hlam
      have body : (Term.lam a b).bind f d = .lam (a.bind f d) (b.bind f (d + 1)) := by
        simp [Term.bind, Head.bind, Term.bindAll]
      rw [body, List.map_cons, Term.betaApply, Term.betaApply, ih, hf.bind_instantiate]
    | false =>
      have stays : (t.bind f d).isLam = false := (Term.isLam_bind neutral t d).trans hlam
      rw [Term.betaApply_of_not_isLam hlam, Term.betaApply_of_not_isLam stays, Term.bind_apply,
        Term.bindAll_eq_map]

theorem Term.isLam_lift (t : Term) (c n : Nat) : (t.lift c n).isLam = t.isLam :=
  Term.isLam_bind (fun d i => by split <;> rfl) t c

theorem Term.isLam_putFirst {values : List Term} (h : ∀ v ∈ values, v.isLam = false) (d i : Nat) :
    (Term.putFirst values d i).isLam = false := by
  unfold Term.putFirst
  split
  · split
    · next found => exact (Term.isLam_lift _ 0 d).trans (h _ (List.mem_of_getElem? found))
    · rfl
  · rfl

end

/-! ## Equality up to contraction -/

/-- Nothing may be used but the contraction of abstractions. -/
def Theory.contraction : Theory :=
  { signature := {}, unfolds := false, follows := fun _ _ => False, value? := fun _ => none }

/-- Two terms are equal up to contracting abstractions anywhere in them. -/
def Term.BetaEqual (t u : Term) : Prop :=
  Theory.contraction.EqualByValues t u

namespace Theory

section
variable {T : Theory} {R : Term → Term → Prop}

theorem evaluation_equalByValues (T : Theory) : T.Evaluation T.EqualByValues where
  refl t _ hR := hR.refl t
  symm h R hR := hR.symm (h R hR)
  trans h h' R hR := hR.trans (h R hR) (h' R hR)
  hole h R hR := hR.hole (h.imp fun _ _ e => e R hR)
  apply h hs R hR := hR.apply (h R hR) (hs.imp fun _ _ e => e R hR)
  pi ha hb R hR := hR.pi (ha R hR) (hb R hR)
  lam ha hb R hR := hR.lam (ha R hR) (hb R hR)
  letIn hv ha hb R hR := hR.letIn (hv R hR) (ha R hR) (hb R hR)
  cast ht ha R hR := hR.cast (ht R hR) (ha R hR)
  case hr hc hbs R hR := hR.case (hr R hR) (hc R hR) (hbs.imp fun _ _ e => e R hR)
  fix has hbs R hR := hR.fix (has.imp fun _ _ e => e R hR) (hbs.imp fun _ _ e => e R hR)
  beta a b x _ hR := hR.beta a b x
  value hk hv _ hR := hR.value hk hv

/-- Heads with equal children, applied to equal arguments, are equal. -/
theorem Evaluation.framed (E : T.Evaluation R) {h g : Head} {xs ys : List Term}
    (framed : h.Framed R g) (hxs : List.Forall₂ R xs ys) : R (.mk h xs) (.mk g ys) := by
  have heads : R (.ofHead h) (.ofHead g) := by
    cases framed with
    | rel i => exact E.refl _
    | sort n => exact E.refl _
    | const c => exact E.refl _
    | hole hxs => exact E.hole hxs
    | pi ha hb => exact E.pi ha hb
    | lam ha hb => exact E.lam ha hb
    | letIn hv ha hb => exact E.letIn hv ha hb
    | cast ht ha => exact E.cast ht ha
    | case hr hc hbs => exact E.case hr hc hbs
    | fix has hbs => exact E.fix has hbs
  rw [mk_eq_apply h xs, mk_eq_apply g ys]
  exact E.apply heads hxs

/-- Equal terms, contracted with equal arguments, are equal. -/
theorem Evaluation.betaApply_congr (E : T.Evaluation R) {t u : Term} {xs ys : List Term} (h : R t u)
    (hxs : List.Forall₂ R xs ys) : R (t.betaApply xs) (u.betaApply ys) :=
  E.trans (E.symm (E.betaApply t xs)) (E.trans (E.apply h hxs) (E.betaApply u ys))

/-- It does not matter which of equal terms are put for the first free variables. -/
theorem Evaluation.instantiateMany_congr (E : T.Evaluation R) {t u : Term} {xs ys : List Term}
    (h : R t u) (hxs : List.Forall₂ R xs ys) : R (t.instantiateMany xs) (u.instantiateMany ys) := by
  induction hxs generalizing t u with
  | nil => simpa using h
  | @cons x y xs ys hx _ ih =>
    have abstracted : R (.lam (.sort 0) t) (.lam (.sort 0) u) := E.lam (E.refl _) h
    have inside := ih abstracted
    rw [Term.instantiateMany_lam, Term.instantiateMany_lam] at inside
    have applied := E.apply inside (.cons hx .nil)
    rw [Term.instantiateMany_cons, Term.instantiateMany_cons]
    exact E.trans (E.symm (E.beta _ _ x)) (E.trans applied (E.beta _ _ y))

end

/-- What is equal up to contraction is so after a binding. -/
theorem Evaluation.of_bind {R : Term → Term → Prop} {f : Nat → Nat → Term}
    (E : contraction.Evaluation R) (hf : Term.MovesAlong f) :
    contraction.Evaluation fun t u => ∀ d, R (t.bind f d) (u.bind f d) := by
  have alone (h : Head) (d : Nat) : (Term.ofHead h).bind f d = h.bind f d := by
    rw [Term.bind, Term.bindAll, Term.apply_nil]
  constructor
  case refl => exact fun t d => E.refl _
  case symm => exact fun h d => E.symm (h d)
  case trans => exact fun h h' d => E.trans (h d) (h' d)
  case hole =>
    intro k xs ys h d
    rw [alone, alone]
    exact E.hole (forall₂_bindAll h d)
  case apply =>
    intro t u xs ys h hs d
    rw [Term.bind_apply, Term.bind_apply]
    exact E.apply (h d) (forall₂_bindAll hs d)
  case pi =>
    intro a a' b b' ha hb d
    rw [alone, alone]
    exact E.pi (ha d) (hb (d + 1))
  case lam =>
    intro a a' b b' ha hb d
    rw [alone, alone]
    exact E.lam (ha d) (hb (d + 1))
  case letIn =>
    intro v v' a a' b b' hv ha hb d
    rw [alone, alone]
    exact E.letIn (hv d) (ha d) (hb (d + 1))
  case cast =>
    intro t t' a a' ht ha d
    rw [alone, alone]
    exact E.cast (ht d) (ha d)
  case case =>
    intro r r' c c' bs bs' hr hc hbs d
    rw [alone, alone]
    exact E.case (hr d) (hc d) (forall₂_bindAll hbs d)
  case fix =>
    intro i as as' bs bs' has hbs d
    rw [alone, alone, Head.bind, Head.bind, has.length_eq]
    exact E.fix (forall₂_bindAll has d) (forall₂_bindAll hbs (d + as'.length))
  case beta =>
    intro a b x d
    rw [Term.bind_apply, alone, hf.bind_instantiate]
    exact E.beta (a.bind f d) (b.bind f (d + 1)) (x.bind f d)
  case value => exact fun follows _ => follows.elim

end Theory

namespace Term.BetaEqual

variable {t u w : Term} {xs ys : List Term}

theorem refl (t : Term) : t.BetaEqual t :=
  Theory.contraction.evaluation_equalByValues.refl t

theorem forall₂_refl (xs : List Term) : List.Forall₂ BetaEqual xs xs :=
  List.forall₂_same.2 fun x _ => refl x

theorem symm (h : t.BetaEqual u) : u.BetaEqual t :=
  Theory.contraction.evaluation_equalByValues.symm h

theorem trans (h : t.BetaEqual u) (h' : u.BetaEqual w) : t.BetaEqual w :=
  Theory.contraction.evaluation_equalByValues.trans h h'

theorem framed {h g : Head} (framed : h.Framed BetaEqual g) (hxs : List.Forall₂ BetaEqual xs ys) :
    (Term.mk h xs).BetaEqual (.mk g ys) :=
  Theory.contraction.evaluation_equalByValues.framed framed hxs

theorem betaApply (h : t.BetaEqual u) (hxs : List.Forall₂ BetaEqual xs ys) :
    (t.betaApply xs).BetaEqual (u.betaApply ys) :=
  Theory.contraction.evaluation_equalByValues.betaApply_congr h hxs

theorem apply_betaApply (t : Term) (xs : List Term) : (t.apply xs).BetaEqual (t.betaApply xs) :=
  Theory.contraction.evaluation_equalByValues.betaApply t xs

theorem instantiateMany (h : t.BetaEqual u) (hxs : List.Forall₂ BetaEqual xs ys) :
    (t.instantiateMany xs).BetaEqual (u.instantiateMany ys) :=
  Theory.contraction.evaluation_equalByValues.instantiateMany_congr h hxs

/-- What is equal up to contraction is so after a binding. -/
theorem bind {f : Nat → Nat → Term} (hf : Term.MovesAlong f) (h : t.BetaEqual u) (d : Nat) :
    (t.bind f d).BetaEqual (u.bind f d) :=
  h _ (Theory.contraction.evaluation_equalByValues.of_bind hf) d

/-- A binding goes into an application that is contracted, up to contraction. -/
theorem bind_betaApply {f : Nat → Nat → Term} (hf : Term.MovesAlong f) (t : Term) (xs : List Term)
    (d : Nat) : ((t.betaApply xs).bind f d).BetaEqual
      ((t.bind f d).betaApply (Term.bindAll f d xs)) := by
  have before := (apply_betaApply t xs).symm.bind hf d
  rw [Term.bind_apply] at before
  exact before.trans (apply_betaApply _ _)

end Term.BetaEqual

end KeyedMatching
