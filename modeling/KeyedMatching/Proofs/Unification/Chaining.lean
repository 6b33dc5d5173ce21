import KeyedMatching.Proofs.Unification.Places

/-!
# Conversions in a row

Where nothing is unfolded, conversion does not depend on which term is the first, and two
conversions in a row make one, unless a canonical form comes between. The arguments that a form
takes from the head can, too, but only in a store where variables are loose.

* `Unify.not_moved`: where the instances of canonical forms do not come between;
* `convertible?_equivalence`: what conversion therefore is;
* `broken_chains`: why the conditions are there.
-/

namespace KeyedMatching

theorem Head.over_of_mem_parts {A : Nat → Nat → Prop} {h : Head} {t : Term}
    (p : (Term.ofHead h).Over A) (ht : t ∈ h.parts) : t.Over A := by
  obtain ⟨⟨t, e⟩, child, rfl⟩ := List.mem_map.1 ht
  exact Term.over_of_mem_preorder p
    (Term.mem_preorder_child (t := .ofHead h) (Term.mem_preorder_self _ 0) child)

namespace Unify

section
variable {cx : Context} {s : Store} {a b c x y z : Term}

/-! ## Instances of canonical forms -/

/-- No instance of a canonical form that takes arguments from the head comes down to an
abstraction. -/
def Inapplicable (cx : Context) (s : Store) : Prop :=
  ∀ p h form, cx.signature.canonical? p h = some form → form.extra ≠ 0 →
    ∀ f, Attains cx.signature s form.inst f → f.isLam = false

/-- A term that does not come down to an abstraction keeps its arguments, and compares by them. -/
theorem alike_apply_of_not_isLam {t : Term} {xs ys : List Term}
    (notLam : ∀ f, Attains cx.signature s t f → f.isLam = false)
    (args : List.Forall₂ (Alike cx s) xs ys) : Alike cx s (t.apply xs) (t.apply ys) := by
  refine .coind_up_to (R := fun a b => ∃ xs ys, a = t.apply xs ∧ b = t.apply ys ∧
    List.Forall₂ (Alike cx s) xs ys) ?_ ?_ ⟨xs, ys, rfl, rfl, args⟩
  · rintro _ _ ⟨xs, ys, rfl, rfl, args⟩
    exact ⟨ys, xs, rfl, rfl, (args.imp fun _ _ => .symm).flip⟩
  · rintro _ _ ⟨xs, ys, rfl, rfl, args⟩ u ⟨⟨n, run⟩, done⟩
    obtain ⟨k, m, f, _, first, normal, _, rest⟩ := run.split (P := fun _ => True)
      (C := fun t => t.apply xs) (fun t u _ step => ⟨trivial, step.apply xs⟩) done trivial
    have notLam := notLam f ⟨⟨k, first⟩, normal⟩
    obtain rfl := rest.eq_of_headNormal (normal.apply notLam xs)
    refine ⟨_, (first.apply ys).attains (normal.apply notLam ys).attains, .similar ?_⟩
    exact .apply (.refl (fun z => .inl (.refl z)) f) (args.imp fun _ _ => .inl)

theorem not_moved_of_inapplicable (forms : Inapplicable cx s) :
    ¬ Moved cx (Alike cx s) x y z := by
  intro moved
  cases moved with
  | @intro p h form xs ys zs hf similar _ apart =>
    cases similar with
    | mk _ args =>
      refine apart ?_
      by_cases none' : form.extra = 0
      · rw [none', List.take_zero, List.take_zero]
        exact .refl _
      · exact alike_apply_of_not_isLam (forms _ _ form hf none') (List.forall₂_take _ args)

theorem Sided.over (supplied : Supplied cx s) {p h : String} {σ : Side} {os us : List Term}
    (sided : Sided cx p h σ a os us) (enough : a.Over s.Suffices) :
    ∀ u ∈ us, u.Over s.Suffices := by
  cases sided with
  | projection => exact fun u hu => Term.over_mk_const.1 enough u (List.mem_of_mem_drop hu)
  | head hf =>
    rw [Term.over_mk_const] at enough
    rw [List.forall_mem_cons]
    refine ⟨Term.over_apply.2 ⟨(supplied.instances _ _ _ hf).2, ?_⟩, ?_⟩
    · exact fun y hy => enough y (List.mem_of_mem_take hy)
    · exact fun y hy => enough y (List.mem_of_mem_drop hy)

/-- Every hole in the terms has an argument for each variable of its value. -/
abbrev Covered (s : Store) (a b c : Term) : Prop :=
  a.Over s.Suffices ∧ b.Over s.Suffices ∧ c.Over s.Suffices

theorem Part.covered {R : Term → Term → Prop} (supplied : Supplied cx s)
    (part : Part cx R a b c x y z) (enough : Covered s a b c) : Covered s x y z := by
  obtain ⟨ha, hb, hc⟩ := enough
  have head {t u : Term} {i : Nat} (p : t.Over s.Suffices) (hu : t.head.parts[i]? = some u) :
      u.Over s.Suffices := by
    cases t
    exact Head.over_of_mem_parts (Term.over_mk.1 p).1 (List.mem_of_getElem? hu)
  have args {t u : Term} {i : Nat} (p : t.Over s.Suffices) (hu : t.args[i]? = some u) :
      u.Over s.Suffices := by
    cases t
    exact (Term.over_mk.1 p).2 u (List.mem_of_getElem? hu)
  cases part with
  | child _ _ hx hy hz => exact ⟨head ha hx, head hb hy, head hc hz⟩
  | argument _ _ hx hy hz => exact ⟨args ha hx, args hb hy, args hc hz⟩
  | read sa sb sc _ _ _ _ hx hy hz =>
    exact ⟨sa.over supplied ha x (List.mem_of_getElem? hx),
      sb.over supplied hb y (List.mem_of_getElem? hy),
      sc.over supplied hc z (List.mem_of_getElem? hz)⟩

theorem Place.covered (supplied : Supplied cx s) (place : Place cx s a b c x y z)
    (enough : Covered s a b c) : Covered s x y z := by
  have attained {a b c a' b' c' : Term} (ha : Attains cx.signature s a a')
      (hb : Attains cx.signature s b b') (hc : Attains cx.signature s c c')
      (enough : Covered s a b c) : Covered s a' b' c' :=
    ⟨ha.over supplied.values enough.1, hb.over supplied.values enough.2.1,
      hc.over supplied.values enough.2.2⟩
  induction place with
  | here ha hb hc => exact attained ha hb hc enough
  | beneath ha hb hc part _ ih => exact ih (part.covered supplied (attained ha hb hc enough))

/-- Where alike terms in like places are alike, the instances of a canonical form are. -/
theorem not_moved_of_covered (supplied : Supplied cx s) (enough : Covered s x y z) :
    ¬ Moved cx (Alike cx s) x y z := by
  intro moved
  cases moved with
  | @intro p h form xs ys zs hf similar _ apart =>
    cases similar with
    | mk _ args =>
      have inst := (supplied.instances p h form hf).2
      have fit := fit_all args (Term.over_mk_const.1 enough.1) (Term.over_mk_const.1 enough.2.1)
      exact apart (Alike.apply supplied ⟨.refl _, inst, inst⟩ (List.forall₂_take _ fit))

/-- Instances of canonical forms do not come between two terms if they do not begin to compute, or
if no variable is loose. -/
theorem not_moved (setting : Inapplicable cx s ∨ Supplied cx s ∧ Covered s a b c)
    (place : Place cx s a b c x y z) :
    ¬ (Moved cx (Alike cx s) x y z ∨ Moved cx (Alike cx s) z y x) := by
  rcases setting with forms | ⟨supplied, enough⟩
  · exact not_or_intro (not_moved_of_inapplicable forms) (not_moved_of_inapplicable forms)
  · obtain ⟨hx, hy, hz⟩ := place.covered supplied enough
    exact not_or_intro (not_moved_of_covered supplied ⟨hx, hy, hz⟩)
      (not_moved_of_covered supplied ⟨hz, hy, hx⟩)

end

end Unify

/-! ## What conversion is -/

section
variable {cx : Context} {s : Store} {a b c : Term} {r r' : Bool}

open Unify

/-- Where nothing is unfolded, an answer of conversion says whether two terms are alike. That holds
of a term with itself, and of two terms in either order. Two conversions in a row make one, unless
a canonical form comes between: at some place they come upon, the second of three corresponding
parts is compared by one with the first and again with the third, and these differ in what it
leaves out of account; or it is so compared with one of them only, and the other, an application of
the same constant, has another instance. The latter cannot be where instances do not begin to
compute with the arguments of the head, and neither where they have no free variables and every
hole has an argument for each variable of its value. -/
theorem convertible?_equivalence (cx : Context) (s : Store)
    (bare : cx.signature.definitions = []) :
    (∀ a b r, convertible? cx s a b = some r → (r = true ↔ Alike cx s a b)) ∧
      (∀ a r, convertible? cx s a a = some r → r = true) ∧
      (∀ a b r r', convertible? cx s a b = some r → convertible? cx s b a = some r' → r = r') ∧
      (∀ a b c r, convertible? cx s a b = some true → convertible? cx s b c = some true →
        convertible? cx s a c = some r →
          (Clear cx s a b c → r = true) ∧ (Oriented cx → r = true → Clear cx s a b c)) ∧
      (∀ a b c x y z, (Inapplicable cx s ∨ Supplied cx s ∧ Covered s a b c) →
        Place cx s a b c x y z →
        ¬ (Moved cx (Alike cx s) x y z ∨ Moved cx (Alike cx s) z y x)) := by
  have decides (a b : Term) (r : Bool) (answer : convertible? cx s a b = some r) :
      r = true ↔ Alike cx s a b := convertible?_iff_alike bare answer
  refine ⟨decides, ?_, ?_, ?_, fun a b c x y z => not_moved⟩
  · intro a r answer
    exact (decides a a r answer).2 (.refl a)
  · intro a b r r' answer answer'
    have forth := decides a b r answer
    have back := decides b a r' answer'
    exact Bool.eq_iff_iff.2 (forth.trans (Iff.trans ⟨.symm, .symm⟩ back.symm))
  · intro a b c r hab hbc answer
    have first := (decides a b true hab).1 rfl
    have second := (decides b c true hbc).1 rfl
    constructor
    · exact fun clear => (decides a c r answer).2 (alike_of_clear first second clear)
    · exact fun oriented yes => clear_of_alike oriented ((decides a c r answer).1 yes)

/-- The structure of `h` for the projection `p`, the second argument of which is the structure. -/
def structured (extra : Nat) (inst : Term) : Signature :=
  (Signature.empty.addProjection "p" 2).addCanonical "p" "h" ⟨inst, extra⟩

/-- Both arguments of `f` are read as an application of `p` once, the first in the first step and
the second in the second; and the instance of the canonical form contracts with an argument of `h`.
-/
theorem convertible?_equivalence_contracted :
    let inst : Term := .lam (.const "T") (.mk (.const "i") [.rel 0])
    let cx : Context := { signature := structured 1 inst, limit := 10 }
    let s := (Store.empty.fresh 0 none .ordinary).2.setValue 0 (.const "e")
    let p : Term := .mk (.const "p") [.const "A", .mk (.const "i") [.const "e"]]
    let h (x : Term) : Term := .mk (.const "h") [x]
    let f (x y : Term) : Term := .mk (.const "f") [x, y]
    let a := f p p
    let b := f (h (.const "e")) p
    let c := f (h (.const "e")) (h (.hole 0 []))
    convertible? cx s a b = some true ∧ convertible? cx s b c = some true ∧ Supplied cx s ∧
      Covered s a b c ∧ Clear cx s a b c ∧ convertible? cx s a c = some true := by
  intro inst cx s p h f a b c
  obtain ⟨decides, _, _, chain, _⟩ := convertible?_equivalence cx s rfl
  have hab : convertible? cx s a b = some true := by decide +kernel
  have hbc : convertible? cx s b c = some true := by decide +kernel
  have forms (q k : String) (form : Canonical) (hf : cx.signature.canonical? q k = some form) :
      (q, k) = ("p", "h") ∧ form = ⟨inst, 1⟩ := by
    change (match (q, k) == ("p", "h") with
      | true => some _
      | false => none) = some form at hf
    split at hf
    · next same => exact ⟨eq_of_beq same, (Option.some.inj hf).symm⟩
    · cases hf
  have oriented : Oriented cx := by
    intro q k form hf
    obtain ⟨rfl, rfl⟩ := Prod.mk.inj (forms q k form hf).1
    rfl
  have clear : Clear cx s a b c := by
    refine clear_of_args rfl (fun q => ?_) fun i x y z hx hy hz => ?_
    · refine Option.eq_none_iff_forall_ne_some.2 fun form hf => ?_
      exact absurd (Prod.mk.inj (forms q "f" form hf).1).2 (by decide)
    · match i with
      | 0 =>
        cases hx
        cases hz
        exact clear_of_alike oriented ((decides _ _ true (by decide +kernel)).1 rfl)
      | 1 =>
        cases hx
        cases hz
        exact clear_of_alike oriented ((decides _ _ true (by decide +kernel)).1 rfl)
      | i + 2 => cases hx
  have holeless (t : Term) (none' : t.holes = []) : t.Over s.Suffices := by
    have enough : t.Over fun _ _ => False := Term.over_holes.2 (by simp [none'])
    exact enough.mono fun _ _ no => no.elim
  have value (k : Nat) (v : Term) (hv : s.value? k = some v) : v = .const "e" := by
    match k with
    | 0 => exact (Option.some.inj hv).symm
    | k + 1 => cases hv
  have enough : (h (.hole 0 [])).Over s.Suffices := by
    refine Term.over_mk_const.2 (List.forall_mem_singleton.2 (Term.over_hole.2 ⟨?_, by simp⟩))
    rintro v hv
    rw [value 0 v hv]
    exact Term.scoped_iff.2 (by decide)
  refine ⟨hab, hbc, ⟨fun k v hv => ?_, fun q k form hf => ?_⟩, ⟨?_, ?_, ?_⟩, clear, ?_⟩
  · rw [value k v hv]
    exact Term.over_const "e"
  · rw [(forms q k form hf).2]
    exact ⟨Term.scoped_iff.2 (by decide), holeless inst (by decide)⟩
  · exact holeless a (by decide)
  · exact holeless b (by decide)
  · refine Term.over_mk_const.2 (List.forall_mem_cons.2 ⟨holeless (h (.const "e")) (by decide), ?_⟩)
    exact List.forall_mem_singleton.2 enough
  · cases answer : convertible? cx s a c with
    | none => revert answer; decide +kernel
    | some r =>
      obtain rfl := (chain a b c r hab hbc answer).1 clear
      rfl

/-- `p A i` and `p B i` are both convertible with `h`, but not with one another: canonical forms do
not ask for the parameters `A` and `B`. And where an instance computes with what it is given, it
matters that hole `0`, with the value `#0`, is the variable of `fun x => ?0`: applied, `fun x => x`
gives what it is applied to and `fun x => ?0` does not, though they are convertible. -/
theorem broken_chains :
    (let cx : Context := { signature := structured 0 (.const "i"), limit := 10 }
      let p (x : String) : Term := .mk (.const "p") [.const x, .const "i"]
      convertible? cx .empty (p "A") (.const "h") = some true ∧
        convertible? cx .empty (.const "h") (p "B") = some true ∧
        convertible? cx .empty (p "A") (p "B") = some false) ∧
      let inst : Term := .lam (.const "T") (.mk (.rel 0) [.const "c"])
      let cx : Context := { signature := structured 1 inst, limit := 10 }
      let s := (Store.empty.fresh 0 none .ordinary).2.setValue 0 (.rel 0)
      let h (x : Term) : Term := .mk (.const "h") [.lam (.const "T") x]
      let c : Term := .mk (.const "p") [.const "A", .rel 0]
      convertible? cx s (h (.rel 0)) (h (.hole 0 [])) = some true ∧
        convertible? cx s (h (.hole 0 [])) c = some true ∧
        convertible? cx s (h (.rel 0)) c = some false := by
  decide +kernel

end

end KeyedMatching
