import KeyedMatching.Proofs.Lifting
import KeyedMatching.Proofs.Reduction
import KeyedMatching.Proofs.Typing
import KeyedMatching.Proofs.Unification.Indifference

/-!
# Type errors that a later store repairs

A type that hangs on an open hole is not known, and that is no error. Yet inference comes to errors
that are none any more once holes have been found: types that differed are convertible, an applied
hole that was no function type, or no universe, comes out as one, or a hole has lost the type that
was declared for it. Every other error lasts.

* `Moved`: what a reduction comes to in a later store is the same, unless it was held up by a hole;
* `Infer.lasting`: a way of relating inferences, by which no error that lasts is lost;
* `Infer.within_persists`: inference in a store and in a later one are so related;
* `isError_of_lasts`: so after an error that lasts there is always an error;
* `repaired_errors`: an error of each kind that does not last.
-/

namespace KeyedMatching

/-- The results are related where both computations have an answer. -/
def Lifting.both : Lifting Option where
  Related R x x' := ∀ a a', x = some a → x' = some a' → R a a'
  pure h := by
    rintro _ _ ⟨⟩ ⟨⟩
    exact h
  bind hx hf := by
    intro b b' h h'
    obtain ⟨a, ha, hb⟩ := Option.bind_eq_some_iff.1 h
    obtain ⟨a', ha', hb'⟩ := Option.bind_eq_some_iff.1 h'
    exact hf a a' (hx a a' ha ha') b b' hb hb'

/-! ## Later stores -/

/-- Hole `k` is open, and has the value `v` in the later store. -/
def Store.Finds (s s' : Store) (k : Nat) (v : Term) : Prop :=
  s.value? k = none ∧ s'.value? k = some v

/-- The type that is declared for a hole. -/
def Store.declaredType? (s : Store) (k : Nat) : Option Term :=
  (s.hole? k).bind (·.type?)

/-- No value found for a hole in use comes out as an abstraction. -/
def Store.FindsNoFunction (A : Nat → Nat → Prop) (g : Signature) (s s' : Store) : Prop :=
  ∀ k n v inst, A k n → s.Finds s' k v → inst.length = n → ∀ depth fuel r,
    whnfWithin g s' .full depth (v.instantiateMany inst) fuel = some r → r.1.isLam = false

/-- A later store: values are kept, and so are the types declared for open holes; the value found
for a hole in use has no other type than the declared one. -/
structure Store.ContinuedBy (cx : Context) (A : Nat → Nat → Prop) (s s' : Store) : Prop where
  keeps : ∀ k v, s.value? k = some v → s'.value? k = some v
  declared : ∀ k type, s.declaredType? k = some type → s'.declaredType? k = some type
  typed : ∀ k n v type inst, A k n → s.Finds s' k v → s.declaredType? k = some type →
    inst.length = n → ∀ depth locals found,
      (Infer.within cx (convertible? cx) s' depth locals (v.instantiateMany inst)).run =
        some (.ok found) → found = some (type.instantiateMany inst)

/-! ## Reduction -/

/-- What a reduction comes to in a later store. It is the same, or the reduction was held up by a
hole. In that case, if `P`, it comes to no abstraction, and to an application if it did before. -/
inductive Moved (P : Prop) : Term × Nat → Term × Nat → Prop
  | same (r : Term × Nat) : Moved P r r
  | found {k : Nat} {inst xs : List Term} {n n' : Nat} {u : Term}
    (unapplied : P → u.isLam = false) (applied : P → xs ≠ [] → u.args ≠ []) :
    Moved P (.mk (.hole k inst) xs, n) (u, n')

section
variable {g : Signature} {s s' : Store} {A : Nat → Nat → Prop}

/-- An application whose head came to `r` is reduced further, or is not, in both stores; and it is
held up if its head was. -/
theorem Moved.application {P : Prop} {again again' : Term → Nat → Option (Term × Nat)}
    {r r' : Term × Nat} (moved : Moved P r r') (pr : r.1.Over A) {x : Term} {xs : List Term}
    (pxs : ∀ y ∈ x :: xs, y.Over A)
    (next : ∀ t fuel, t.Over A → Lifting.both.Related (fun r r' => r.1.Over A ∧ Moved P r r')
      (again t fuel) (again' t fuel)) :
    Lifting.both.Related (fun r r' => r.1.Over A ∧ Moved P r r')
      (if r.1.isLam then again (r.1.betaApply (x :: xs)) r.2
        else some (r.1.apply (x :: xs), r.2))
      (if r'.1.isLam then again' (r'.1.betaApply (x :: xs)) r'.2
        else some (r'.1.apply (x :: xs), r'.2)) := by
  cases moved with
  | same =>
    split
    · exact next _ _ (Term.over_betaApply pr pxs)
    · exact Lifting.both.pure ⟨Term.over_apply.2 ⟨pr, pxs⟩, .same _⟩
  | @found k inst ys n n' u unapplied _ =>
    have stuck : (Term.mk (.hole k inst) ys).isLam = false := by
      cases ys <;> rfl
    rw [stuck, if_neg Bool.false_ne_true]
    rintro _ ⟨u', m⟩ ⟨⟩ run
    have applied (holds : P) : u' = u.apply (x :: xs) := by
      rw [unapplied holds, if_neg Bool.false_ne_true] at run
      cases run
      rfl
    refine ⟨Term.over_apply.2 ⟨pr, pxs⟩, .found (fun holds => ?_) fun holds _ => ?_⟩
    · rw [applied holds]
      exact Term.isLam_apply (unapplied holds) _
    · rw [applied holds]
      simp

/-- A reduction comes to the same in a later store, unless it was held up by a hole. -/
theorem moved_of_whnfWithin (definitions : ∀ c d, g.definition? c = some d → d.body.Over A)
    (values : ∀ k n v, A k n → s.value? k = some v → v.Over A)
    (keeps : ∀ k v, s.value? k = some v → s'.value? k = some v) (depth : Nat) (t : Term)
    (fuel : Nat) (p : t.Over A) :
    Lifting.both.Related (fun r r' => r.1.Over A ∧ Moved (s.FindsNoFunction A g s') r r')
      (whnfWithin g s .full depth t fuel) (whnfWithin g s' .full depth t fuel) := by
  induction depth generalizing t fuel with
  | zero => nofun
  | succ depth ih =>
    obtain ⟨h, xs⟩ := t
    cases xs with
    | nil =>
      have stays : Lifting.both.Related
          (fun r r' => r.1.Over A ∧ Moved (s.FindsNoFunction A g s') r r')
          (some (.ofHead h, fuel)) (some (.ofHead h, fuel)) :=
        Lifting.both.pure ⟨p, .same _⟩
      cases h with
      | cast t a => exact ih t fuel (Term.over_cast.1 p).2
      | letIn v a b =>
        obtain ⟨_, pv, pb⟩ := Term.over_letIn.1 p
        exact ih _ fuel (Term.over_instantiate pb pv)
      | hole k inst =>
        obtain ⟨own, hinst⟩ := Term.over_hole.1 p
        change Lifting.both.Related _ (whnfStep g s .full _ (.hole k inst) fuel)
          (whnfStep g s' .full _ (.hole k inst) fuel)
        simp only [whnfStep_hole, Reductions.full, if_true]
        cases hv : s.value? k with
        | some v =>
          rw [keeps k v hv]
          exact ih _ fuel (Term.over_instantiateMany (values k _ v own hv) hinst)
        | none =>
          cases hv' : s'.value? k with
          | none => exact stays
          | some v =>
            -- The hole has been found since.
            rintro _ ⟨u, n'⟩ ⟨⟩ run
            refine ⟨p, .found (fun noFunction => ?_) fun _ more => absurd rfl more⟩
            exact noFunction k _ v inst own ⟨hv, hv'⟩ rfl depth fuel _ run
      | const c =>
        change Lifting.both.Related _ (whnfStep g s .full _ (.const c) fuel)
          (whnfStep g s' .full _ (.const c) fuel)
        simp only [whnfStep_const]
        cases hd : if Reductions.full.delta && fuel > 0 then g.definition? c else none with
        | none => exact stays
        | some d =>
          refine ih d.body (fuel - 1) (definitions c d ?_)
          split at hd
          · exact hd
          · cases hd
      | _ => exact stays
    | cons x xs =>
      obtain ⟨ph, pxs⟩ := Term.over_mk.1 p
      refine Lifting.both.bind (ih (.ofHead h) fuel ph) fun r r' both => ?_
      exact both.2.application both.1 pxs ih

end

/-! ## Inference -/

/-- Does the error last in a later store? A mismatch does if the types stay different. Another error
does if none of the holes found is a function. -/
def TypeError.Lasts (cx : Context) (A : Nat → Nat → Prop) (s s' : Store) : TypeError → Prop
  | .mismatch _ expected found => convertible? cx s' found expected ≠ some true
  | .notAFunction _ | .notAType _ => s.FindsNoFunction A cx.signature s'

namespace Infer

/-- What inference comes to in a later store: related results, or an error; and nothing else than an
error after one that lasts. -/
inductive Follows {α : Type} (Lasts : TypeError → Prop) (R : α → α → Prop) :
    Except TypeError α → Except TypeError α → Prop
  | ok {a a' : α} (h : R a a') : Follows Lasts R (.ok a) (.ok a')
  | failed (r : Except TypeError α) (e' : TypeError) : Follows Lasts R r (.error e')
  | repaired {e : TypeError} (r' : Except TypeError α) (h : ¬ Lasts e) :
    Follows Lasts R (.error e) r'

/-- Inferences by which no error that lasts is lost. -/
def lasting (Lasts : TypeError → Prop) : Lifting InferM where
  Related R x x' := Lifting.both.Related (Follows Lasts R) x.run x'.run
  pure h := Lifting.both.pure (.ok h)
  bind hx hf := Lifting.both.bind hx fun r r' follows => by
    cases follows with
    | ok h => exact hf _ _ h
    | failed r e' =>
      rintro b _ _ ⟨⟩
      exact .failed b e'
    | repaired r' h =>
      rintro _ b' ⟨⟩ _
      exact .repaired b' h

/-- What is known stays so. -/
def Known {α : Type} (a? a'? : Option α) : Prop :=
  ∀ a, a? = some a → a'? = some a

theorem known_refl {α : Type} (a? : Option α) : Known a? a? :=
  fun _ h => h

theorem known_none {α : Type} (a'? : Option α) : Known none a'? := by
  rintro _ ⟨⟩

section
variable {Lasts : TypeError → Prop} {α : Type} {R : α → α → Prop} {x x' : InferM α}

theorem lasting_ofAnswer {o o' : Option α} (h : Lifting.both.Related R o o') :
    (lasting Lasts).Related R (ofAnswer o) (ofAnswer o') := by
  intro r r' hr hr'
  cases o with
  | none => cases hr
  | some a =>
    cases o' with
    | none => cases hr'
    | some a' =>
      cases hr
      cases hr'
      exact .ok (h a a' rfl rfl)

/-- What a first inference results in may be used. -/
theorem lasting_and {Q : α → Prop} (h : (lasting Lasts).Related R x x') (results : Results x Q) :
    (lasting Lasts).Related (fun a a' => R a a' ∧ Q a) x x' := by
  intro r r' hr hr'
  cases h r r' hr hr' with
  | ok related => exact .ok ⟨related, results _ hr⟩
  | failed r e' => exact .failed r e'
  | repaired r' lost => exact .repaired r' lost

theorem lasting_refl (refl : ∀ a, R a a) (x : InferM α) : (lasting Lasts).Related R x x := by
  intro r r' hr hr'
  cases hr.symm.trans hr'
  cases r with
  | ok a => exact .ok (refl a)
  | error e => exact .failed _ e

theorem lasting_mono {Q : α → α → Prop} (h : (lasting Lasts).Related R x x')
    (imp : ∀ a a', R a a' → Q a a') : (lasting Lasts).Related Q x x' := by
  intro r r' hr hr'
  cases h r r' hr hr' with
  | ok related => exact .ok (imp _ _ related)
  | failed r e' => exact .failed r e'
  | repaired r' lost => exact .repaired r' lost

/-- A result is followed by what has no other results than related ones. -/
theorem lasting_pure {a : α} (h : Results x' (R a)) : (lasting Lasts).Related R (pure a) x' := by
  rintro _ r' ⟨⟩ hr'
  cases r' with
  | ok a' => exact .ok (h a' hr')
  | error e' => exact .failed _ e'

/-- An error is followed by another, unless it does not last. -/
theorem lasting_throw {e : TypeError} (h : Lasts e → ∃ e', x' = throw e') :
    (lasting Lasts).Related R (throw e) x' := by
  rintro _ r' ⟨⟩ hr'
  by_cases lasts : Lasts e
  · obtain ⟨e', rfl⟩ := h lasts
    cases hr'
    exact .failed _ e'
  · exact .repaired r' lasts

end

section
variable {cx : Context} {A : Nat → Nat → Prop} {s s' : Store}
  {again again' : List Term → Term → InferM (Option Term)}

/-- No error of the one inference that lasts is lost by the other, and types that are known stay
so. -/
def Persists (cx : Context) (A : Nat → Nat → Prop) (s s' : Store)
    (again again' : List Term → Term → InferM (Option Term)) : Prop :=
  ∀ locals t, (∀ a ∈ locals, a.Over A) → t.Over A →
    (lasting (TypeError.Lasts cx A s s')).Related (fun a? a'? => Known a? a'? ∧ TypeOver A a?)
      (again locals t) (again' locals t)

theorem moved_of_whnf? (isOver : Supplies A cx.signature s)
    (keeps : ∀ k v, s.value? k = some v → s'.value? k = some v) {t : Term} (p : t.Over A) :
    Lifting.both.Related (fun u u' => u.Over A ∧ ∃ n n',
      Moved (s.FindsNoFunction A cx.signature s') (u, n) (u', n'))
      (whnf? cx s t .full) (whnf? cx s' t .full) := by
  intro u u' h h'
  obtain ⟨⟨u, n⟩, run, rfl⟩ := Option.map_eq_some_iff.1 h
  obtain ⟨⟨u', n'⟩, run', rfl⟩ := Option.map_eq_some_iff.1 h'
  obtain ⟨uses, moved⟩ := moved_of_whnfWithin isOver.signature.definitions isOver.values keeps
    cx.depth t cx.config.unfoldFuel p _ _ run run'
  exact ⟨uses, n, n', moved⟩

theorem lasting_sortOf (isOver : Supplies A cx.signature s) (later : s.ContinuedBy cx A s')
    (next : Persists cx A s s' again again') {locals : List Term}
    (hl : ∀ a ∈ locals, a.Over A) {type : Term} (p : type.Over A) :
    (lasting (TypeError.Lasts cx A s s')).Related Known (sortOf cx s again locals type)
      (sortOf cx s' again' locals type) := by
  refine (lasting _).bind (next locals type hl p) fun a? a'? ⟨known, uses⟩ => ?_
  cases a? with
  | none => exact lasting_pure fun _ _ => known_none _
  | some u =>
    rw [known u rfl]
    refine (lasting _).bind (lasting_ofAnswer (moved_of_whnf? isOver later.keeps (uses u rfl)))
      fun v v' ⟨_, _, _, moved⟩ => ?_
    cases moved with
    | same => exact lasting_refl known_refl _
    | @found k inst xs _ _ _ _ applied =>
      cases xs with
      | nil => exact lasting_pure fun _ _ => known_none _
      | cons x xs =>
        refine lasting_throw fun noFunction => ?_
        obtain ⟨g, ys⟩ := v'
        obtain ⟨y, ys, rfl⟩ :=
          List.exists_cons_of_ne_nil (applied noFunction (List.cons_ne_nil x xs))
        cases g <;> exact ⟨_, rfl⟩

theorem lasting_check (next : Persists cx A s s' again again')
    {locals : List Term} (hl : ∀ a ∈ locals, a.Over A) {t : Term} (p : t.Over A) (expected : Term) :
    (lasting (TypeError.Lasts cx A s s')).Related (fun _ _ => True)
      (check (convertible? cx) s again locals t expected)
      (check (convertible? cx) s' again' locals t expected) := by
  refine (lasting _).bind (next locals t hl p) fun a? a'? ⟨known, _⟩ => ?_
  cases a? with
  | none => exact lasting_pure fun _ _ => trivial
  | some found =>
    rw [known found rfl]
    refine (lasting _).bind (R := fun c c' => convertible? cx s' found expected = some c')
      (lasting_ofAnswer fun _ _ _ same => same) fun c c' same => ?_
    cases c with
    | true => exact lasting_pure fun _ _ => trivial
    | false =>
      refine lasting_throw fun lasts => ?_
      cases c' with
      | true => exact absurd same lasts
      | false => exact ⟨_, rfl⟩

theorem lasting_application (isOver : Supplies A cx.signature s) (later : s.ContinuedBy cx A s')
    (next : Persists cx A s s' again again') {locals : List Term}
    (hl : ∀ a ∈ locals, a.Over A) (head : Term) (xs : List Term) (type : Term) (p : type.Over A)
    (hxs : ∀ x ∈ xs, x.Over A) :
    (lasting (TypeError.Lasts cx A s s')).Related Known
      (application cx (convertible? cx) s again locals head type xs)
      (application cx (convertible? cx) s' again' locals head type xs) := by
  induction xs generalizing type with
  | nil => exact lasting_refl known_refl _
  | cons x xs ih =>
    obtain ⟨hx, hxs⟩ := List.forall_mem_cons.1 hxs
    refine (lasting _).bind (lasting_ofAnswer (moved_of_whnf? isOver later.keeps p))
      fun v v' ⟨uses, _, _, moved⟩ => ?_
    cases moved with
    | same =>
      split
      · refine (lasting _).bind (lasting_check next hl hx _) fun _ _ _ => ?_
        exact ih _ (Term.over_instantiate (Term.over_pi.1 uses).2 hx) hxs
      · exact lasting_refl known_refl _
      · exact lasting_refl known_refl _
    | @found k inst ys _ _ _ _ applied =>
      cases ys with
      | nil => exact lasting_pure fun _ _ => known_none _
      | cons y ys =>
        refine lasting_throw fun noFunction => ?_
        obtain ⟨g, zs⟩ := v'
        obtain ⟨z, zs, rfl⟩ :=
          List.exists_cons_of_ne_nil (applied noFunction (List.cons_ne_nil y ys))
        cases g <;> exact ⟨_, rfl⟩

theorem lasting_visit (next : Persists cx A s s' again again') {locals : List Term}
    (hl : ∀ a ∈ locals, a.Over A) {xs : List Term} (hxs : ∀ x ∈ xs, x.Over A) :
    (lasting (TypeError.Lasts cx A s s')).Related (fun _ _ => True) (visit again locals xs)
      (visit again' locals xs) := by
  induction xs with
  | nil => exact lasting_refl (fun _ => trivial) _
  | cons x xs ih =>
    obtain ⟨hx, hxs⟩ := List.forall_mem_cons.1 hxs
    exact (lasting _).bind (next locals x hl hx) fun _ _ _ => ih hxs

theorem lasting_head (isOver : Supplies A cx.signature s) (later : s.ContinuedBy cx A s')
    (next : Persists cx A s s' again again')
    (typed : ∀ k v type inst locals, A k inst.length → s.Finds s' k v →
      s.declaredType? k = some type →
        Results (again' locals (v.instantiateMany inst)) fun found =>
          found = some (type.instantiateMany inst))
    {locals : List Term} (hl : ∀ a ∈ locals, a.Over A) (h : Head) (p : (Term.ofHead h).Over A) :
    (lasting (TypeError.Lasts cx A s s')).Related Known
      (head cx (convertible? cx) s again locals h)
      (head cx (convertible? cx) s' again' locals h) := by
  cases h with
  | rel i => exact lasting_refl known_refl _
  | sort n => exact lasting_refl known_refl _
  | const c => exact lasting_refl known_refl _
  | hole k inst =>
    obtain ⟨own, hinst⟩ := Term.over_hole.1 p
    simp only [head]
    cases hv : s.value? k with
    | some v =>
      rw [later.keeps k v hv]
      have value := Term.over_instantiateMany (isOver.values k _ v own hv) hinst
      exact lasting_mono (next locals _ hl value) fun _ _ both => both.1
    | none =>
      cases hv' : s'.value? k with
      | none =>
        refine (lasting _).pure fun c hc => ?_
        obtain ⟨type, ht, rfl⟩ := Option.map_eq_some_iff.1 hc
        exact congrArg (Option.map _) (later.declared k type ht)
      | some v =>
        refine lasting_pure fun found h c hc => ?_
        obtain ⟨type, ht, rfl⟩ := Option.map_eq_some_iff.1 hc
        exact typed k v type inst locals own ⟨hv, hv'⟩ ht found h
  | pi a b =>
    obtain ⟨pa, pb⟩ := Term.over_pi.1 p
    refine (lasting _).bind (lasting_sortOf isOver later next hl pa) fun m m' hm => ?_
    refine (lasting _).bind (lasting_sortOf isOver later next (List.forall_mem_cons.2 ⟨pa, hl⟩) pb)
      fun n n' hn => ?_
    cases n with
    | none => cases m <;> exact lasting_pure fun _ _ => known_none _
    | some j =>
      rw [hn j rfl]
      cases m with
      | some i =>
        rw [hm i rfl]
        exact lasting_refl known_refl _
      | none =>
        cases j with
        | zero => cases m' <;> exact lasting_refl known_refl _
        | succ j => exact lasting_pure fun _ _ => known_none _
  | lam a b =>
    obtain ⟨pa, pb⟩ := Term.over_lam.1 p
    refine (lasting _).bind (lasting_sortOf isOver later next hl pa) fun _ _ _ => ?_
    refine (lasting _).bind (next (a :: locals) b (List.forall_mem_cons.2 ⟨pa, hl⟩) pb)
      fun type? type'? both => (lasting _).pure fun c hc => ?_
    obtain ⟨known, _⟩ := both
    obtain ⟨type, rfl, rfl⟩ := Option.map_eq_some_iff.1 hc
    rw [known type rfl]
    rfl
  | letIn v a b =>
    obtain ⟨_, pv, pb⟩ := Term.over_letIn.1 p
    refine (lasting _).bind (lasting_check next hl pv a) fun _ _ _ => ?_
    exact lasting_mono (next locals _ hl (Term.over_instantiate pb pv)) fun _ _ both => both.1
  | cast t a =>
    obtain ⟨_, pt⟩ := Term.over_cast.1 p
    exact (lasting _).bind (lasting_check next hl pt a) fun _ _ _ =>
      lasting_refl known_refl _
  | case r t bs =>
    obtain ⟨_, pt, pbs⟩ := Term.over_case.1 p
    refine (lasting _).bind (next locals t hl pt) fun _ _ _ => ?_
    exact (lasting _).bind (lasting_visit next hl pbs) fun _ _ _ => lasting_refl known_refl _
  | fix i as bs => exact lasting_refl known_refl _

/-- Inference in a later store keeps what is known, and loses no error that lasts. -/
theorem within_persists (isOver : Supplies A cx.signature s) (later : s.ContinuedBy cx A s')
    (n : Nat) :
    Persists cx A s s' (within cx (convertible? cx) s n) (within cx (convertible? cx) s' n) := by
  induction n with
  | zero =>
    intro locals t _ _ r r' h
    cases h
  | succ n ih =>
    intro locals t hl p
    refine lasting_and ?_ (within_keepsOver isOver (n + 1) locals t hl p)
    obtain ⟨g, xs⟩ := t
    cases xs with
    | nil =>
      refine lasting_head isOver later ih ?_ hl g p
      intro k v type inst locals own finds ht found h
      exact later.typed k _ v type inst own finds ht rfl n locals found h
    | cons x xs =>
      obtain ⟨pg, pxs⟩ := Term.over_mk.1 p
      refine (lasting _).bind (ih locals (.ofHead g) hl pg) fun a? a'? ⟨known, uses⟩ => ?_
      cases a? with
      | none => exact lasting_pure fun _ _ => known_none _
      | some type =>
        rw [known type rfl]
        exact lasting_application isOver later ih hl _ (x :: xs) type (uses type rfl) pxs

end

end Infer

/-- A type error lasts unless it is repaired in one of three ways: the types that differed are
convertible later, or a hole in use is found to be a function, or one is found to have no type any
more, or another one, than was declared for it. Whatever inference answers in the later store is an
error then. -/
theorem isError_of_lasts {cx : Context} {A : Nat → Nat → Prop} {s s' : Store} {t : Term}
    (isOver : Infer.Supplies A cx.signature s) (later : s.ContinuedBy cx A s') (p : t.Over A)
    {e : TypeError} (failed : inferType? cx s t = some (.error e)) (lasts : e.Lasts cx A s s')
    {r : Except TypeError (Option Term)} (answer : inferType? cx s' t = some r) :
    ∃ e', r = .error e' := by
  cases Infer.within_persists isOver later cx.limit [] t (by simp) p _ r failed answer with
  | failed _ e' => exact ⟨e', rfl⟩
  | repaired _ lost => exact absurd lasts lost

/-- The type `?0 a` of hole `1` is no function type, and it does not become one with the constant
`P` for hole `0`. -/
theorem isError_of_lasts_constant :
    let cx : Context := { limit := 5 }
    let s := ((Store.empty.fresh 0 none .ordinary).2.fresh 0
      (some (.mk (.hole 0 []) [.const "a"])) .ordinary).2
    let s' := s.setValue 0 (.const "P")
    let t : Term := .mk (.hole 1 []) [.const "b"]
    inferType? cx s t = some (.error (.notAFunction (.hole 1 []))) ∧
      ∃ e', inferType? cx s' t = some (.error e') := by
  intro cx s s' t
  have failed : inferType? cx s t = some (.error (.notAFunction (.hole 1 []))) := by decide +kernel
  have any (u : Term) : u.Over fun _ _ => True :=
    Term.over_holes.2 fun _ _ => trivial
  have found {k : Nat} {v : Term} (finds : s.Finds s' k v) : k = 0 ∧ v = .const "P" := by
    obtain ⟨_, assigned⟩ := finds
    match k with
    | 0 =>
      cases assigned
      exact ⟨rfl, rfl⟩
    | 1 => cases assigned
    | k + 2 => cases assigned
  have isOver : Infer.Supplies (fun _ _ => True) cx.signature s :=
    ⟨⟨fun _ _ _ => any _, fun _ _ _ => any _, fun _ _ _ _ => any _, fun _ _ => any _⟩,
      fun _ _ _ _ _ => any _, fun _ _ _ _ _ _ _ => any _⟩
  have later : s.ContinuedBy cx (fun _ _ => True) s' := by
    constructor
    case keeps =>
      intro k v hv
      match k with
      | 0 => cases hv
      | 1 => cases hv
      | k + 2 => cases hv
    case declared =>
      intro k type ht
      match k with
      | 0 => cases ht
      | 1 => exact ht
      | k + 2 => cases ht
    case typed =>
      intro k n v type inst _ finds ht
      obtain ⟨rfl, _⟩ := found finds
      cases ht
  have noFunction : s.FindsNoFunction (fun _ _ => True) cx.signature s' := by
    intro k n v inst _ finds _ depth fuel r run
    obtain ⟨rfl, rfl⟩ := found finds
    cases depth with
    | zero => cases run
    | succ depth =>
      change whnfStep _ _ _ _ (.const "P") fuel = some r at run
      rw [whnfStep_const] at run
      split at run
      · next d hd =>
        split at hd <;> cases hd
      · cases run
        rfl
  obtain ⟨r, answer⟩ := Option.isSome_iff_exists.1
    (show (inferType? cx s' t).isSome = true by decide +kernel)
  obtain ⟨e', rfl⟩ := isError_of_lasts isOver later (any t) failed noFunction answer
  exact ⟨failed, e', answer⟩

/-- Errors that are none any more once hole `0` has been found. The type of hole `1` hangs on it:
what is applied has become a function, what is a domain has become a type, and an argument has the
type that is expected. In the last place the argument is hole `0` itself and has lost its type. -/
theorem repaired_errors :
    let cx : Context :=
      { signature := { types := [("g", .pi (.const "U") (.const "V"))] }, limit := 5 }
    let s (type : Term) : Store :=
      ((Store.empty.fresh 0 none .ordinary).2.fresh 0 (some type) .ordinary).2
    let held : Term := .mk (.hole 0 []) [.const "a"]
    let x : Term := .hole 1 []
    let applied : Term := .mk (.hole 1 []) [.const "b"]
    let domain : Term := .lam x (.rel 0)
    let argument : Term := .mk (.const "g") [x]
    let lone := (Store.empty.fresh 0 (some (.const "W")) .ordinary).2
    (∀ type, (s type).WellFormed) ∧
      (inferType? cx (s held) applied = some (.error (.notAFunction x)) ∧
        ((s held).assign? 0 (.lam (.const "T") (.pi (.const "U") (.const "V")))).bind
          (inferType? cx · applied) = some (.ok (some (.const "V")))) ∧
      (inferType? cx (s held) domain = some (.error (.notAType x)) ∧
        ((s held).assign? 0 (.lam (.const "T") (.sort 1))).bind
          (inferType? cx · domain) = some (.ok (some (.pi x (.hole 1 []))))) ∧
      (inferType? cx (s (.hole 0 [])) argument =
          some (.error (.mismatch x (.const "U") (.hole 0 []))) ∧
        ((s (.hole 0 [])).assign? 0 (.const "U")).bind
          (inferType? cx · argument) = some (.ok (some (.const "V")))) ∧
      inferType? cx lone (.mk (.const "g") [.hole 0 []]) =
          some (.error (.mismatch (.hole 0 []) (.const "U") (.const "W"))) ∧
        (lone.assign? 0 (.const "c")).bind (inferType? cx · (.mk (.const "g") [.hole 0 []])) =
          some (.ok (some (.const "V"))) := by
  intro cx s held x applied domain argument lone
  have unset (type : Term) (k : Nat) : (s type).value? k = none :=
    match k with
    | 0 => rfl
    | 1 => rfl
    | _ + 2 => rfl
  have wellFormed (type : Term) : (s type).WellFormed := by
    constructor
    case acyclic =>
      exact Store.acyclic_of_rank id fun k v hv => by cases (unset type k).symm.trans hv
    case arity =>
      intro k d v hd hv
      have value : (s type).value? k = some v := by
        rw [Store.value?, hd]
        exact hv
      cases (unset type k).symm.trans value
    case values => exact fun k v hv => by cases (unset type k).symm.trans hv
    case pending => exact List.forall_mem_nil _
  refine ⟨wellFormed, ⟨?_, ?_⟩, ⟨?_, ?_⟩, ⟨?_, ?_⟩, ?_, ?_⟩ <;> decide +kernel

end KeyedMatching
