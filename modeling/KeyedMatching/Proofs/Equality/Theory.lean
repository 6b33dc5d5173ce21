import KeyedMatching.Reduction
import KeyedMatching.Proofs.Holes.Filling

/-!
# When two terms are equal

A `Theory` says what may be used: a signature, its definitions or not, and values for holes.
`Theory.Equal` is the least congruence that contains contracting an abstraction with its argument,
expanding a local definition, dropping a cast, unfolding a constant, putting a value for a hole, and
reading a canonical form.

* `Theory.equal_congruence`: it is such a congruence;
* `Theory.Evaluation`: the congruences that need to contain no more than contracting an abstraction
  and putting a value for a hole. What they contain they contain also after terms were put for free
  variables (`Theory.Evaluation.instantiateMany`), and a term with the one that its values are put
  in (`Theory.Evaluation.of_instantiate?`);
* `Theory.equal_of_whnf?`, `Theory.equal_of_unfoldHead?`: reduction keeps to what is equal.
-/

namespace KeyedMatching

/-- What may be used to show two terms equal. -/
structure Theory where
  signature : Signature
  /-- May definitions of constants be unfolded? -/
  unfolds : Bool
  /-- Which holes may be followed to their values, and with how many arguments. A hole followed with
  fewer arguments than its value uses would make all terms equal. -/
  follows : Nat → Nat → Prop
  /-- Values of holes. -/
  value? : Nat → Option Term

/-- The values that a store gives to the holes of `A`, with or without the definitions. -/
def Store.theory (s : Store) (A : Nat → Nat → Prop) (g : Signature) (unfolds : Bool) : Theory :=
  { signature := g, unfolds, follows := A, value? := s.value? }

namespace Theory

/-- An equivalence closed under every construction, also under binders, that contains the equations
of the theory. -/
structure Congruence (T : Theory) (R : Term → Term → Prop) : Prop where
  refl (t : Term) : R t t
  symm {t u} : R t u → R u t
  trans {t u w} : R t u → R u w → R t w
  hole {k xs ys} : List.Forall₂ R xs ys → R (.hole k xs) (.hole k ys)
  apply {t u xs ys} : R t u → List.Forall₂ R xs ys → R (t.apply xs) (u.apply ys)
  pi {a a' b b'} : R a a' → R b b' → R (.pi a b) (.pi a' b')
  lam {a a' b b'} : R a a' → R b b' → R (.lam a b) (.lam a' b')
  letIn {v v' a a' b b'} : R v v' → R a a' → R b b' →
    R (.ofHead (.letIn v a b)) (.ofHead (.letIn v' a' b'))
  cast {t t' a a'} : R t t' → R a a' → R (.ofHead (.cast t a)) (.ofHead (.cast t' a'))
  case {r r' c c' bs bs'} : R r r' → R c c' → List.Forall₂ R bs bs' →
    R (.ofHead (.case r c bs)) (.ofHead (.case r' c' bs'))
  fix {i as as' bs bs'} : List.Forall₂ R as as' → List.Forall₂ R bs bs' →
    R (.ofHead (.fix i as bs)) (.ofHead (.fix i as' bs'))
  beta (a b x : Term) : R ((Term.lam a b).apply [x]) (b.instantiate x)
  zeta (v a b : Term) : R (.ofHead (.letIn v a b)) (b.instantiate v)
  uncast (t a : Term) : R (.ofHead (.cast t a)) t
  unfold {c d} : T.unfolds = true → T.signature.definition? c = some d → R (.const c) d.body
  value {k v xs} : T.follows k xs.length → T.value? k = some v →
    R (.hole k xs) (v.instantiateMany xs)
  /-- The projection `p` takes the parameters `ps` and a structure; the instance of the canonical
  form, applied to the first arguments of the head `h`, is one. -/
  canonical {p h n form ps es xs} : T.signature.projection? p = some n →
    T.signature.canonical? p h = some form → ps.length + 1 = n → es.length = form.extra →
    R (.mk (.const p) (ps ++ form.inst.apply es :: xs)) (.mk (.const h) (es ++ xs))

/-- Two terms are equal in a theory: they are in every congruence that contains its equations. -/
def Equal (T : Theory) (t u : Term) : Prop :=
  ∀ R, T.Congruence R → R t u

/-- An equivalence closed under every construction, also under binders, that contains contracting an
abstraction and putting a value for a hole. -/
structure Evaluation (T : Theory) (R : Term → Term → Prop) : Prop where
  refl (t : Term) : R t t
  symm {t u} : R t u → R u t
  trans {t u w} : R t u → R u w → R t w
  hole {k xs ys} : List.Forall₂ R xs ys → R (.hole k xs) (.hole k ys)
  apply {t u xs ys} : R t u → List.Forall₂ R xs ys → R (t.apply xs) (u.apply ys)
  pi {a a' b b'} : R a a' → R b b' → R (.pi a b) (.pi a' b')
  lam {a a' b b'} : R a a' → R b b' → R (.lam a b) (.lam a' b')
  letIn {v v' a a' b b'} : R v v' → R a a' → R b b' →
    R (.ofHead (.letIn v a b)) (.ofHead (.letIn v' a' b'))
  cast {t t' a a'} : R t t' → R a a' → R (.ofHead (.cast t a)) (.ofHead (.cast t' a'))
  case {r r' c c' bs bs'} : R r r' → R c c' → List.Forall₂ R bs bs' →
    R (.ofHead (.case r c bs)) (.ofHead (.case r' c' bs'))
  fix {i as as' bs bs'} : List.Forall₂ R as as' → List.Forall₂ R bs bs' →
    R (.ofHead (.fix i as bs)) (.ofHead (.fix i as' bs'))
  beta (a b x : Term) : R ((Term.lam a b).apply [x]) (b.instantiate x)
  value {k v xs} : T.follows k xs.length → T.value? k = some v →
    R (.hole k xs) (v.instantiateMany xs)

/-- Two terms are equal up to contracting abstractions and putting values for holes. -/
def EqualByValues (T : Theory) (t u : Term) : Prop :=
  ∀ R, T.Evaluation R → R t u

theorem Congruence.evaluation {T : Theory} {R : Term → Term → Prop} (C : T.Congruence R) :
    T.Evaluation R :=
  { C with }

end Theory

/-- Equality with everything that a store knows: its values, the definitions and the canonical
forms. -/
def Store.Convertible (s : Store) (cx : Context) : Term → Term → Prop :=
  (s.theory s.Declares cx.signature true).Equal

namespace Theory

section
variable {T : Theory}

theorem forall₂_of_equal {R : Term → Term → Prop} (hR : T.Congruence R) {xs ys : List Term}
    (h : List.Forall₂ T.Equal xs ys) : List.Forall₂ R xs ys :=
  h.imp fun _ _ e => e R hR

/-- Equality is itself such a congruence, and so the least one. -/
theorem equal_congruence (T : Theory) : T.Congruence T.Equal where
  refl t _ hR := hR.refl t
  symm h R hR := hR.symm (h R hR)
  trans h h' R hR := hR.trans (h R hR) (h' R hR)
  hole h _ hR := hR.hole (forall₂_of_equal hR h)
  apply h hs R hR := hR.apply (h R hR) (forall₂_of_equal hR hs)
  pi ha hb R hR := hR.pi (ha R hR) (hb R hR)
  lam ha hb R hR := hR.lam (ha R hR) (hb R hR)
  letIn hv ha hb R hR := hR.letIn (hv R hR) (ha R hR) (hb R hR)
  cast ht ha R hR := hR.cast (ht R hR) (ha R hR)
  case hr hc hbs R hR := hR.case (hr R hR) (hc R hR) (forall₂_of_equal hR hbs)
  fix has hbs _ hR := hR.fix (forall₂_of_equal hR has) (forall₂_of_equal hR hbs)
  beta a b x _ hR := hR.beta a b x
  zeta v a b _ hR := hR.zeta v a b
  uncast t a _ hR := hR.uncast t a
  unfold hu hd _ hR := hR.unfold hu hd
  value hk hv _ hR := hR.value hk hv
  canonical hp hc hn he _ hR := hR.canonical hp hc hn he

theorem Equal.refl (t : Term) : T.Equal t t :=
  T.equal_congruence.refl t

theorem Equal.symm {t u : Term} (h : T.Equal t u) : T.Equal u t :=
  T.equal_congruence.symm h

theorem Equal.trans {t u w : Term} (h : T.Equal t u) (h' : T.Equal u w) : T.Equal t w :=
  T.equal_congruence.trans h h'

theorem forall₂_refl (xs : List Term) : List.Forall₂ T.Equal xs xs :=
  List.forall₂_same.2 fun x _ => Equal.refl x

end

/-! ## Contracting -/

section
variable {T : Theory} {R : Term → Term → Prop}

theorem mk_eq_apply (h : Head) (xs : List Term) : Term.mk h xs = (Term.ofHead h).apply xs := by
  simp [Term.apply]

theorem Evaluation.forall₂_refl (E : T.Evaluation R) (xs : List Term) : List.Forall₂ R xs xs :=
  List.forall₂_same.2 fun x _ => E.refl x

/-- Contracting keeps a term equal. -/
theorem Evaluation.betaApply (E : T.Evaluation R) (t : Term) (xs : List Term) :
    R (t.apply xs) (t.betaApply xs) := by
  induction xs generalizing t with
  | nil => simpa [Term.betaApply] using E.refl t
  | cons x xs ih =>
    unfold Term.betaApply
    split
    · next heq => cases heq
    · next a b y ys heq =>
      obtain ⟨rfl, rfl⟩ := List.cons.inj heq
      have spine : (Term.lam a b).apply (x :: xs) = ((Term.lam a b).apply [x]).apply xs := by
        rw [Term.apply_apply, List.singleton_append]
      have contracted := E.apply (E.beta a b x) (E.forall₂_refl xs)
      rw [spine]
      exact E.trans contracted (ih (b.instantiate x))
    · next heq =>
      obtain ⟨rfl, rfl⟩ := List.cons.inj heq
      exact E.refl _

/-- What is equal is equal after terms were put for the first free variables: abstracted over these,
both sides are contracted with the terms. -/
theorem Evaluation.instantiateMany (E : T.Evaluation R) {t u : Term} (h : R t u) (xs : List Term) :
    R (t.instantiateMany xs) (u.instantiateMany xs) := by
  induction xs generalizing t u with
  | nil => simpa using h
  | cons x xs ih =>
    have abstracted : R (.lam (.sort 0) t) (.lam (.sort 0) u) := E.lam (E.refl _) h
    have inside := ih abstracted
    rw [Term.instantiateMany_lam, Term.instantiateMany_lam] at inside
    have applied := E.apply inside (E.forall₂_refl [x])
    rw [Term.instantiateMany_cons, Term.instantiateMany_cons]
    exact E.trans (E.symm (E.beta _ _ x)) (E.trans applied (E.beta _ _ x))

end

section
variable {T : Theory}

theorem equal_betaApply (t : Term) (xs : List Term) : T.Equal (t.apply xs) (t.betaApply xs) :=
  T.equal_congruence.evaluation.betaApply t xs

/-! ## Following the values of a store -/

/-- The theory follows the holes of `A` to the values that a store gives them. -/
def Knows (T : Theory) (A : Nat → Nat → Prop) (s : Store) : Prop :=
  ∀ k n v, A k n → s.value? k = some v → T.follows k n ∧ T.value? k = some v

theorem knows_theory (A : Nat → Nat → Prop) (s : Store) (g : Signature) (unfolds : Bool) :
    (s.theory A g unfolds).Knows A s :=
  fun _ _ _ hA hv => ⟨hA, hv⟩

theorem Knows.of_advances {A : Nat → Nat → Prop} {s s' : Store} (h : T.Knows A s')
    (adv : s.Advances s') : T.Knows A s :=
  fun k n v hA hv => h k n v hA (adv.keeps k v hv)

section
variable {R : Term → Term → Prop} {A : Nat → Nat → Prop} {s : Store} {t t' : Term}

/-- The right sides of related terms over `A` are over `A` and equal to the left ones. -/
theorem Evaluation.forall₂_over {xs ys : List Term}
    (h : List.Forall₂ (fun x y => x.Over A → y.Over A ∧ R x y) xs ys) (hxs : ∀ x ∈ xs, x.Over A) :
    (∀ y ∈ ys, y.Over A) ∧ List.Forall₂ R xs ys := by
  induction h with
  | nil => exact ⟨by simp, .nil⟩
  | cons hy _ ih =>
    rw [List.forall_mem_cons] at hxs
    obtain ⟨qy, ey⟩ := hy hxs.1
    obtain ⟨qys, eys⟩ := ih hxs.2
    exact ⟨List.forall_mem_cons.2 ⟨qy, qys⟩, .cons ey eys⟩

/-- A term is equal to the one with its values put in. -/
theorem Evaluation.of_instantiate? (E : T.Evaluation R) (knows : T.Knows A s)
    (values : ∀ k n v, A k n → s.value? k = some v → v.Over A) (p : t.Over A)
    (h : s.instantiate? t = some t') : R t t' := by
  refine (Store.Fills.of_instantiate? (R := fun t t' => t.Over A → t'.Over A ∧ R t t') ?_ h p).2
  constructor
  case rel => exact fun i q => ⟨q, E.refl _⟩
  case sort => exact fun i q => ⟨q, E.refl _⟩
  case const => exact fun i q => ⟨q, E.refl _⟩
  case hole =>
    intro k xs ys _ hxs q
    obtain ⟨own, inst⟩ := Term.over_hole.1 q
    obtain ⟨qs, es⟩ := Evaluation.forall₂_over hxs inst
    exact ⟨Term.over_hole.2 ⟨hxs.length_eq ▸ own, qs⟩, E.hole es⟩
  case pi =>
    intro a a' b b' ha hb q
    obtain ⟨qa, ea⟩ := ha (Term.over_pi.1 q).1
    obtain ⟨qb, eb⟩ := hb (Term.over_pi.1 q).2
    exact ⟨Term.over_pi.2 ⟨qa, qb⟩, E.pi ea eb⟩
  case lam =>
    intro a a' b b' ha hb q
    obtain ⟨qa, ea⟩ := ha (Term.over_lam.1 q).1
    obtain ⟨qb, eb⟩ := hb (Term.over_lam.1 q).2
    exact ⟨Term.over_lam.2 ⟨qa, qb⟩, E.lam ea eb⟩
  case letIn =>
    intro v v' a a' b b' hv ha hb q
    obtain ⟨qa, qv, qb⟩ := Term.over_letIn.1 q
    obtain ⟨qa, ea⟩ := ha qa
    obtain ⟨qv, ev⟩ := hv qv
    obtain ⟨qb, eb⟩ := hb qb
    exact ⟨Term.over_letIn.2 ⟨qa, qv, qb⟩, E.letIn ev ea eb⟩
  case cast =>
    intro t t' a a' ht ha q
    obtain ⟨qa, ea⟩ := ha (Term.over_cast.1 q).1
    obtain ⟨qt, et⟩ := ht (Term.over_cast.1 q).2
    exact ⟨Term.over_cast.2 ⟨qa, qt⟩, E.cast et ea⟩
  case case =>
    intro r r' c c' bs bs' hr hc hbs q
    obtain ⟨qr, qc, qbs⟩ := Term.over_case.1 q
    obtain ⟨qr, er⟩ := hr qr
    obtain ⟨qc, ec⟩ := hc qc
    obtain ⟨qbs, ebs⟩ := Evaluation.forall₂_over hbs qbs
    exact ⟨Term.over_case.2 ⟨qr, qc, qbs⟩, E.case er ec ebs⟩
  case fix =>
    intro i as as' bs bs' has hbs q
    obtain ⟨qas, eas⟩ := Evaluation.forall₂_over has (Term.over_fix.1 q).1
    obtain ⟨qbs, ebs⟩ := Evaluation.forall₂_over hbs (Term.over_fix.1 q).2
    exact ⟨Term.over_fix.2 ⟨qas, qbs⟩, E.fix eas ebs⟩
  case spine =>
    intro g g' xs ys hg hxs q
    obtain ⟨qg, qxs⟩ := Term.over_mk.1 q
    obtain ⟨qg, eg⟩ := hg qg
    obtain ⟨qys, eys⟩ := Evaluation.forall₂_over hxs qxs
    refine ⟨Term.over_mk.2 ⟨qg, qys⟩, ?_⟩
    rw [mk_eq_apply g xs, mk_eq_apply g' ys]
    exact E.apply eg eys
  case value =>
    intro k xs ys v w zs zs' hv hxs hw hzs q
    obtain ⟨hole, args⟩ := Term.over_mk.1 q
    obtain ⟨own, inst⟩ := Term.over_hole.1 hole
    obtain ⟨qys, eys⟩ := Evaluation.forall₂_over hxs inst
    obtain ⟨qzs, ezs⟩ := Evaluation.forall₂_over hzs args
    obtain ⟨qw, ew⟩ := hw (Term.over_instantiateMany (values k _ v own hv) qys)
    obtain ⟨follows, known⟩ := knows k _ v own hv
    rw [hxs.length_eq] at follows
    have followed : R (.hole k xs) w :=
      E.trans (E.hole eys) (E.trans (E.value follows known) ew)
    refine ⟨Term.over_betaApply qw qzs, ?_⟩
    rw [mk_eq_apply]
    exact E.trans (E.apply followed ezs) (E.betaApply w zs')

theorem equal_of_instantiate? (knows : T.Knows A s)
    (values : ∀ k n v, A k n → s.value? k = some v → v.Over A) (p : t.Over A)
    (h : s.instantiate? t = some t') : T.Equal t t' :=
  T.equal_congruence.evaluation.of_instantiate? knows values p h

end

end

end Theory

/-! ## Reduction -/

/-- Every term of the signature keeps to the holes of `A`. -/
structure Signature.Over (g : Signature) (A : Nat → Nat → Prop) : Prop where
  types : ∀ c a, g.type? c = some a → a.Over A
  definitions : ∀ c d, g.definition? c = some d → d.body.Over A
  canonicals : ∀ p h form, g.canonical? p h = some form → form.inst.Over A
  instances : ∀ i ∈ g.instances, i.type.Over A

theorem Signature.over_empty (A : Nat → Nat → Prop) : Signature.empty.Over A := by
  constructor <;> intros <;> contradiction

theorem Signature.Over.mono {g : Signature} {A B : Nat → Nat → Prop} (isOver : g.Over A)
    (hA : ∀ k n, A k n → B k n) : g.Over B :=
  ⟨fun c a h => (isOver.types c a h).mono hA, fun c d h => (isOver.definitions c d h).mono hA,
    fun p h form hc => (isOver.canonicals p h form hc).mono hA,
    fun i hi => (isOver.instances i hi).mono hA⟩

theorem Signature.Over.declare {g : Signature} {A : Nat → Nat → Prop} (isOver : g.Over A)
    {c : String} {type : Term} (h : type.Over A) : (g.declare c type).Over A := by
  refine ⟨fun e a he => ?_, isOver.definitions, isOver.canonicals, isOver.instances⟩
  rw [type?, Signature.declare, List.lookup_cons] at he
  split at he
  · cases he
    exact h
  · exact isOver.types e a he

theorem Signature.Over.addProjection {g : Signature} {A : Nat → Nat → Prop} (isOver : g.Over A)
    (c : String) (n : Nat) : (g.addProjection c n).Over A :=
  ⟨isOver.types, isOver.definitions, isOver.canonicals, isOver.instances⟩

theorem Signature.Over.addCanonical {g : Signature} {A : Nat → Nat → Prop} (isOver : g.Over A)
    {p c : String} {form : Canonical} (h : form.inst.Over A) :
    (g.addCanonical p c form).Over A := by
  refine ⟨isOver.types, isOver.definitions, fun q e other he => ?_, isOver.instances⟩
  rw [canonical?, Signature.addCanonical, List.lookup_cons] at he
  split at he
  · cases he
    exact h
  · exact isOver.canonicals q e other he

theorem Signature.Over.define {g : Signature} {A : Nat → Nat → Prop} (isOver : g.Over A)
    {c : String} {body : Term} (h : body.Over A) : (g.define c body none).Over A := by
  refine ⟨isOver.types, fun e d he => ?_, isOver.canonicals, isOver.instances⟩
  rw [definition?, Signature.define, List.lookup_cons] at he
  split at he
  · cases he
    exact h
  · exact isOver.definitions e d he

theorem Signature.Over.addInstance {g : Signature} {A : Nat → Nat → Prop} (isOver : g.Over A)
    {c : String} {type : Term} (h : type.Over A) : (g.addInstance c type).Over A := by
  refine ⟨isOver.types, isOver.definitions, isOver.canonicals, fun i hi => ?_⟩
  rcases List.mem_append.1 hi with old | new
  · exact isOver.instances i old
  · rw [List.mem_singleton.1 new]
    exact h

section
variable {g : Signature} {s : Store} {flags : Reductions}

/-- The rules of reduction at the head. -/
structure Reduces (g : Signature) (s : Store) (flags : Reductions) (R : Term → Term → Prop) :
    Prop where
  refl (t : Term) : R t t
  uncast {t a u} : R t u → R (.ofHead (.cast t a)) u
  zeta {v a b u} : R (b.instantiate v) u → R (.ofHead (.letIn v a b)) u
  value {k xs v u} : s.value? k = some v → R (v.instantiateMany xs) u → R (.hole k xs) u
  unfold {c d u} : flags.delta = true → g.definition? c = some d → R d.body u → R (.const c) u
  contract {h x xs f u} : R (.ofHead h) f → R (f.betaApply (x :: xs)) u → R (.mk h (x :: xs)) u
  spine {h x xs f} : R (.ofHead h) f → R (.mk h (x :: xs)) (f.apply (x :: xs))

theorem Reduces.of_whnfWithin {R : Term → Term → Prop} (rules : Reduces g s flags R) (n : Nat)
    (t t' : Term) (fuel fuel' : Nat) (h : whnfWithin g s flags n t fuel = some (t', fuel')) :
    R t t' := by
  induction n generalizing t t' fuel fuel' with
  | zero => cases h
  | succ n ih =>
    obtain ⟨g', xs⟩ := t
    cases xs with
    | nil =>
      simp only [whnfWithin, whnfStep] at h
      split at h
      · exact rules.uncast (ih _ _ _ _ h)
      · split at h
        · exact rules.zeta (ih _ _ _ _ h)
        · obtain ⟨rfl, -⟩ := Prod.mk.inj (Option.some.inj h)
          exact rules.refl _
      · split at h
        · next v hv =>
          split at hv
          · exact rules.value hv (ih _ _ _ _ h)
          · cases hv
        · obtain ⟨rfl, -⟩ := Prod.mk.inj (Option.some.inj h)
          exact rules.refl _
      · split at h
        · next d hd =>
          split at hd
          · next on =>
            simp only [Bool.and_eq_true] at on
            exact rules.unfold on.1 hd (ih _ _ _ _ h)
          · cases hd
        · obtain ⟨rfl, -⟩ := Prod.mk.inj (Option.some.inj h)
          exact rules.refl _
      · obtain ⟨rfl, -⟩ := Prod.mk.inj (Option.some.inj h)
        exact rules.refl _
    | cons x xs =>
      simp only [whnfWithin, whnfStep, Option.bind_eq_bind, Option.bind_eq_some_iff,
        Prod.exists] at h
      obtain ⟨f, fuel₁, hf, h⟩ := h
      split at h
      · exact rules.contract (ih _ _ _ _ hf) (ih _ _ _ _ h)
      · obtain ⟨rfl, -⟩ := Prod.mk.inj (Option.some.inj h)
        exact rules.spine (ih _ _ _ _ hf)

theorem Reduces.of_whnf? {cx : Context} {R : Term → Term → Prop}
    (rules : Reduces cx.signature s flags R) {t t' : Term} (h : whnf? cx s t flags = some t') :
    R t t' := by
  obtain ⟨⟨u, fuel⟩, hu, rfl⟩ := Option.map_eq_some_iff.1 h
  exact rules.of_whnfWithin _ _ _ _ _ hu

end

namespace Theory

section
variable {T : Theory} {A : Nat → Nat → Prop} {s : Store} {cx : Context} {flags : Reductions}
  {t t' : Term}

/-- Reduction keeps to the holes of `A`, and what it comes to is equal. -/
theorem equal_of_whnf? (signature : T.signature = cx.signature)
    (unfolds : flags.delta = true → T.unfolds = true) (knows : T.Knows A s)
    (bodies : flags.delta = true → ∀ c d, cx.signature.definition? c = some d → d.body.Over A)
    (values : ∀ k n v, A k n → s.value? k = some v → v.Over A) (p : t.Over A)
    (h : whnf? cx s t flags = some t') : t'.Over A ∧ T.Equal t t' := by
  have C := T.equal_congruence
  refine Reduces.of_whnf? (R := fun t t' => t.Over A → t'.Over A ∧ T.Equal t t') ?_ h p
  constructor
  case refl => exact fun t q => ⟨q, Equal.refl t⟩
  case uncast =>
    intro t a u hu q
    obtain ⟨qu, eu⟩ := hu (Term.over_cast.1 q).2
    exact ⟨qu, (C.uncast t a).trans eu⟩
  case zeta =>
    intro v a b u hu q
    obtain ⟨_, qv, qb⟩ := Term.over_letIn.1 q
    obtain ⟨qu, eu⟩ := hu (Term.over_instantiate qb qv)
    exact ⟨qu, (C.zeta v a b).trans eu⟩
  case value =>
    intro k xs v u hv hu q
    obtain ⟨own, inst⟩ := Term.over_hole.1 q
    obtain ⟨qu, eu⟩ := hu (Term.over_instantiateMany (values k _ v own hv) inst)
    obtain ⟨follows, known⟩ := knows k _ v own hv
    exact ⟨qu, (C.value follows known).trans eu⟩
  case unfold =>
    intro c d u on hd hu _
    obtain ⟨qu, eu⟩ := hu (bodies on c d hd)
    exact ⟨qu, (C.unfold (unfolds on) (by rw [signature]; exact hd)).trans eu⟩
  case contract =>
    intro g x xs f u hf hu q
    obtain ⟨qg, qxs⟩ := Term.over_mk.1 q
    obtain ⟨qf, ef⟩ := hf qg
    obtain ⟨qu, eu⟩ := hu (Term.over_betaApply qf qxs)
    refine ⟨qu, ?_⟩
    rw [mk_eq_apply]
    exact (C.apply ef (forall₂_refl _)).trans ((equal_betaApply f (x :: xs)).trans eu)
  case spine =>
    intro g x xs f hf q
    obtain ⟨qg, qxs⟩ := Term.over_mk.1 q
    obtain ⟨qf, ef⟩ := hf qg
    refine ⟨Term.over_apply.2 ⟨qf, qxs⟩, ?_⟩
    rw [mk_eq_apply]
    exact C.apply ef (forall₂_refl _)

theorem over_of_whnf?
    (bodies : flags.delta = true → ∀ c d, cx.signature.definition? c = some d → d.body.Over A)
    (values : ∀ k n v, A k n → s.value? k = some v → v.Over A) (p : t.Over A)
    (h : whnf? cx s t flags = some t') : t'.Over A :=
  (equal_of_whnf? (T := s.theory A cx.signature true) rfl (fun _ => rfl) (knows_theory A s _ _)
    bodies values p h).1

/-- Unfolding the head keeps to the holes of `A`, and what it comes to is equal. -/
theorem equal_of_unfoldHead? (signature : T.signature = cx.signature) (unfolds : T.unfolds = true)
    (isOver : cx.signature.Over A) (p : t.Over A) (h : unfoldHead? cx.signature t = some t') :
    t'.Over A ∧ T.Equal t t' := by
  unfold unfoldHead? at h
  split at h
  · next c xs =>
    obtain ⟨d, hd, rfl⟩ := Option.map_eq_some_iff.1 h
    have body := T.equal_congruence.unfold unfolds (by rw [signature]; exact hd)
    refine ⟨Term.over_betaApply (isOver.definitions c d hd) (Term.over_mk.1 p).2, ?_⟩
    rw [mk_eq_apply]
    exact (T.equal_congruence.apply body (forall₂_refl xs)).trans (equal_betaApply d.body xs)
  · cases h

end

end Theory

end KeyedMatching
