import KeyedMatching.Proofs.Holes.Commuting
import KeyedMatching.Proofs.Unification.Alike

/-!
# Alike terms in like places

Terms may be put for variables before a reduction or after, if every hole has an argument for each
variable of its value. Then alike terms stay alike when they are applied to alike terms, or when
such terms are put for their variables: what an argument meets in the end it meets on either side.

* `HeadRun.split`: a run of a term in its place begins with a run of the term;
* `Unify.Congruent`: the closure of alikeness under putting terms for variables;
* `Unify.followsWithin_of_congruent`: the terms so related, and applied, follow one another, by
  induction on the length of the run and then on how they are related;
* `Unify.Alike.apply`: so alike terms applied to alike terms are alike.
-/

namespace KeyedMatching

/-! ## Runs of a term in its place -/

section
variable {g : Signature} {s : Store} {f : Nat → Nat → Term} {m n : Nat} {t u : Term}

theorem HeadStep.over {A : Nat → Nat → Prop}
    (values : ∀ k v, s.value? k = some v → v.Over A) (h : HeadStep g s .noDelta m t u)
    (p : t.Over A) : u.Over A := by
  obtain ⟨onHead, onArgs⟩ : (Term.ofHead t.head).Over A ∧ ∀ x ∈ t.args, x.Over A := by
    cases t
    exact Term.over_mk.1 p
  cases h with
  | uncast t a xs => exact Term.over_apply.2 ⟨(Term.over_cast.1 onHead).2, onArgs⟩
  | zeta _ v a b xs =>
    obtain ⟨_, pv, pb⟩ := Term.over_letIn.1 onHead
    exact Term.over_apply.2 ⟨Term.over_instantiate pb pv, onArgs⟩
  | @value _ k v inst xs assigned =>
    have pv := values k v assigned
    exact Term.over_apply.2 ⟨Term.over_instantiateMany pv (Term.over_hole.1 onHead).2, onArgs⟩
  | beta _ a b x xs =>
    obtain ⟨px, pxs⟩ := List.forall_mem_cons.1 onArgs
    exact Term.over_apply.2 ⟨Term.over_instantiate (Term.over_lam.1 onHead).2 px, pxs⟩
  | delta on => cases on

/-- A reduction at the head is one whatever terms are put for the variables. -/
theorem HeadStep.bind (hf : Term.MovesAlong f) (h : HeadStep g s .noDelta 0 t u)
    (p : t.Over s.Suffices) (d : Nat) : HeadStep g s .noDelta 0 (t.bind f d) (u.bind f d) := by
  cases h with
  | uncast t a xs =>
    rw [Term.bind_apply]
    exact .uncast (t.bind f d) (a.bind f d) _
  | zeta on v a b xs =>
    rw [Term.bind_apply, hf.bind_instantiate]
    exact .zeta on (v.bind f d) (a.bind f d) (b.bind f (d + 1)) _
  | @value on k v inst xs assigned =>
    have fits : v.Scoped inst.length := (Term.over_hole.1 (Term.over_mk.1 p).1).1 v assigned
    rw [Term.bind_apply, hf.bind_instantiateMany fits, ← Term.bindAll_eq_map]
    exact .value on (Term.bindAll f d inst) _ assigned
  | beta on a b x xs =>
    rw [Term.bind_apply, hf.bind_instantiate]
    exact .beta on (a.bind f d) (b.bind f (d + 1)) (x.bind f d) _

variable {P : Term → Prop} {C : Term → Term}

/-- Reductions of a term are reductions in its place. -/
theorem HeadRun.in_place
    (through : ∀ t u, P t → HeadStep g s .noDelta 0 t u →
      P u ∧ HeadStep g s .noDelta 0 (C t) (C u))
    (run : HeadRun g s n t u) (p : P t) : P u ∧ HeadRun g s n (C t) (C u) := by
  induction run with
  | refl t => exact ⟨p, .refl _⟩
  | head first _ ih =>
    obtain ⟨p', first'⟩ := through _ _ p first
    obtain ⟨p'', rest⟩ := ih p'
    exact ⟨p'', .head first' rest⟩

theorem Attains.over {A : Nat → Nat → Prop} (values : ∀ k v, s.value? k = some v → v.Over A)
    (h : Attains g s t u) (p : t.Over A) : u.Over A := by
  obtain ⟨⟨n, run⟩, _⟩ := h
  exact (run.in_place (C := id) (fun _ _ p step => ⟨step.over values p, step⟩) p).1

/-- If a term in its place is reduced to the end, the term itself is reduced to the end before. -/
theorem HeadRun.split
    (through : ∀ t u, P t → HeadStep g s .noDelta 0 t u →
      P u ∧ HeadStep g s .noDelta 0 (C t) (C u))
    (run : HeadRun g s n (C t) u) (normal : u.HeadNormal s) (p : P t) :
    ∃ k m t', k + m = n ∧ HeadRun g s k t t' ∧ t'.HeadNormal s ∧ P t' ∧
      HeadRun g s m (C t') u := by
  induction n generalizing t with
  | zero =>
    rcases t.headNormal_or_step g s with done | ⟨t₁, step⟩
    · exact ⟨0, 0, t, rfl, .refl t, done, p, run⟩
    · cases run with
      | refl => exact absurd normal (through _ _ p step).2.not_headNormal
  | succ n ih =>
    rcases t.headNormal_or_step g s with done | ⟨t₁, step⟩
    · exact ⟨0, n + 1, t, Nat.zero_add _, .refl t, done, p, run⟩
    · obtain ⟨p₁, step'⟩ := through _ _ p step
      cases run with
      | head first rest =>
        obtain rfl := first.unique step'
        obtain ⟨k, m, t', count, run', done, p', rest'⟩ := ih rest p₁
        exact ⟨k + 1, m, t', by omega, .head step run', done, p', rest'⟩

end

/-- Nothing applies to the head of a bound term either, unless a term was put in there or an
abstraction meets an argument. -/
theorem Term.HeadNormal.bind_apply {s : Store} {f : Nat → Nat → Term} {t : Term} {ys : List Term}
    (normal : t.HeadNormal s) (notVar : ∀ i, t.head ≠ .rel i) (unfit : ys ≠ [] → t.isLam = false)
    (d : Nat) : ((t.bind f d).apply ys).HeadNormal s := by
  obtain ⟨h, xs⟩ := t
  obtain ⟨h', bound, stuck, isLam⟩ : ∃ h', h.bind f d = .ofHead h' ∧ h'.isStuck s = true ∧
      (Term.ofHead h').isLam = (Term.ofHead h).isLam := by
    have own : h.isStuck s = true := normal.head
    cases h with
    | rel i => exact absurd rfl (notVar i)
    | hole k inst => exact ⟨_, rfl, own, rfl⟩
    | cast => cases own
    | letIn => cases own
    | _ => exact ⟨_, rfl, rfl, rfl⟩
  rw [Term.bind, bound, Term.apply_apply]
  refine ⟨stuck, fun applied => ?_⟩
  change (Term.ofHead h').isLam = false
  rw [isLam]
  cases xs with
  | nil => exact unfit (by simpa [Term.args, Term.apply, Term.bindAll] using applied)
  | cons x xs => exact normal.unapplied (List.cons_ne_nil x xs)

namespace Unify

/-! ## The closure -/

/-- Every hole in a value has an argument for each variable of its own value. So it is in the
instances of canonical forms, which have no free variables. -/
structure Supplied (cx : Context) (s : Store) : Prop where
  values : ∀ k v, s.value? k = some v → v.Over s.Suffices
  instances : ∀ p h form, cx.signature.canonical? p h = some form →
    form.inst.Scoped 0 ∧ form.inst.Over s.Suffices

/-- The terms are alike, and every hole in them has an argument for each variable of its value. -/
structure Fit (cx : Context) (s : Store) (a b : Term) : Prop where
  alike : Alike cx s a b
  left : a.Over s.Suffices
  right : b.Over s.Suffices

/-- The terms are alike up to the terms put for their variables, and these are again so related. -/
inductive Congruent (cx : Context) (s : Store) : Term → Term → Prop
  | var (i : Nat) : Congruent cx s (.rel i) (.rel i)
  | bind {t t' f f'} (d : Nat) : Fit cx s t t' → Term.MovesAlong f → Term.MovesAlong f' →
    (∀ e i, Congruent cx s (f e i) (f' e i)) → Congruent cx s (t.bind f d) (t'.bind f' d)

section
variable {cx : Context} {s : Store} {a b v v' : Term} {f f' : Nat → Nat → Term} {xs ys : List Term}

theorem Fit.symm (h : Fit cx s a b) : Fit cx s b a :=
  ⟨h.alike.symm, h.right, h.left⟩

theorem fit_all (args : List.Forall₂ (Alike cx s) xs ys) (left : ∀ x ∈ xs, x.Over s.Suffices)
    (right : ∀ y ∈ ys, y.Over s.Suffices) : List.Forall₂ (Fit cx s) xs ys := by
  induction args with
  | nil => exact .nil
  | cons h _ ih =>
    rw [List.forall_mem_cons] at left right
    exact .cons ⟨h, left.1, right.1⟩ (ih left.2 right.2)

theorem Similar.fit {a b : Term} (h : Similar (Alike cx s) a b) (left : a.Over s.Suffices)
    (right : b.Over s.Suffices) : Similar (Fit cx s) a b := by
  obtain ⟨framed, args⟩ := h
  obtain ⟨onHead, onArgs⟩ := Term.over_mk.1 left
  obtain ⟨onHead', onArgs'⟩ := Term.over_mk.1 right
  have forth := (framed.mono fun a b h (pa : a.Over s.Suffices) (pb : b.Over s.Suffices) =>
    (⟨h, pa, pb⟩ : Fit cx s a b)).of_over onHead
  exact .mk (forth.flip.of_over onHead').flip (fit_all args onArgs onArgs')

theorem Reads.fit {a b : Term} (supplied : Supplied cx s) (h : Reads cx (Alike cx s) a b)
    (left : a.Over s.Suffices) (right : b.Over s.Suffices) : Reads cx (Fit cx s) a b := by
  cases h with
  | intro hp hc pos hx len front back =>
    rw [Term.over_mk_const] at left right
    have inst := (supplied.instances _ _ _ hc).2
    refine .intro hp hc pos hx len ⟨front, left _ (List.mem_of_getElem? hx), ?_⟩ ?_
    · exact Term.over_apply.2 ⟨inst, fun y hy => right y (List.mem_of_mem_take hy)⟩
    · refine fit_all back ?_ ?_
      · exact fun x hx => left x (List.mem_of_mem_drop hx)
      · exact fun y hy => right y (List.mem_of_mem_drop hy)

theorem Agree.fit (supplied : Supplied cx s) (h : Agree cx (Alike cx s) a b)
    (left : a.Over s.Suffices) (right : b.Over s.Suffices) : Agree cx (Fit cx s) a b := by
  cases h with
  | similar h => exact .similar (h.fit left right)
  | left h => exact .left (h.fit supplied left right)
  | right h => exact .right (h.fit supplied right left)

namespace Congruent

theorem symm (h : Congruent cx s a b) : Congruent cx s b a := by
  induction h with
  | var i => exact .var i
  | bind d fit hf hf' _ ih => exact .bind d fit.symm hf' hf ih

theorem of_fit (h : Fit cx s a b) : Congruent cx s a b := by
  have along : Term.MovesAlong fun _ i => Term.rel i := by
    have lifted := Term.movesAlong_lift 0
    simpa only [Nat.add_zero, ite_self] using lifted
  have bound := Congruent.bind 0 h along along fun _ i => .var i
  simpa only [Term.bind_rel] using bound

/-- Congruent terms may be put for the variables of congruent ones. -/
theorem put (h : Congruent cx s a b) (hf : Term.MovesAlong f) (hf' : Term.MovesAlong f')
    (terms : ∀ e i, Congruent cx s (f e i) (f' e i)) (d : Nat) :
    Congruent cx s (a.bind f d) (b.bind f' d) := by
  induction h generalizing d with
  | var i =>
    rw [Term.bind_var, Term.bind_var]
    exact terms d i
  | bind e fit hg hg' _ ih =>
    rw [Term.bind_bind_shift, Term.bind_bind_shift]
    exact .bind 0 fit (hg.comp hf e d) (hg'.comp hf' e d) fun k i => ih (k + e) i (k + d)

theorem lift (h : Congruent cx s a b) (c n : Nat) : Congruent cx s (a.lift c n) (b.lift c n) := by
  refine h.put (Term.movesAlong_lift n) (Term.movesAlong_lift n) (fun e i => ?_) c
  split <;> exact .var _

theorem instantiate {x y : Term} (h : Congruent cx s a b) (arg : Congruent cx s x y) :
    Congruent cx s (a.instantiate x) (b.instantiate y) := by
  refine h.put (Term.movesAlong_putFirst [x]) (Term.movesAlong_putFirst [y]) (fun e i => ?_) 0
  unfold Term.putFirst
  split
  · cases hi : i - e with
    | zero => exact arg.lift 0 e
    | succ j => exact .var _
  · exact .var i

end Congruent

/-! ## Agreement goes through a binding -/

section
variable {R S : Term → Term → Prop} {zs zs' : List Term} {d : Nat}
  (closed : ∀ p h form, cx.signature.canonical? p h = some form → form.inst.Scoped 0)
  (hf' : Term.MovesAlong f') (imp : ∀ a b, R a b → ∀ d, S (a.bind f d) (b.bind f' d))
  (args : List.Forall₂ S xs ys)
include closed hf' imp args

theorem Reads.bind_apply (h : Reads cx R a b) :
    Reads cx S ((a.bind f d).apply xs) ((b.bind f' d).apply ys) := by
  cases h with
  | @intro p h n form zs zs' z hp hc pos hz len front back =>
    have within : n - 1 < zs.length := (List.getElem?_eq_some_iff.1 hz).1
    have within' : form.extra ≤ zs'.length := by
      rw [len, Canonical.span]
      omega
    have inside : n ≤ zs.length := by omega
    change Reads cx S (.mk (.const p) (Term.bindAll f d zs ++ xs))
      (.mk (.const h) (Term.bindAll f' d zs' ++ ys))
    refine .intro hp hc pos (x := z.bind f d) ?_ ?_ ?_ ?_
    · rw [List.getElem?_append_left (by simpa using within), Term.bindAll_eq_map,
        List.getElem?_map, hz]
      rfl
    · simp only [Canonical.span, List.length_drop, List.length_append, Term.length_bindAll,
        args.length_eq] at len ⊢
      omega
    · -- The instance has no variables: the binding goes into what it is applied to.
      have fixed : form.inst.bind f' d = form.inst :=
        Term.bind_of_scoped hf'.bound ((closed p h form hc).weaken (Nat.zero_le d))
      have bound := imp _ _ front d
      rw [Term.bind_apply, fixed, Term.bindAll_eq_map, List.map_take] at bound
      rw [List.take_append_of_le_length (by simpa using within'), Term.bindAll_eq_map]
      exact bound
    · rw [List.drop_append_of_le_length (by simpa using inside),
        List.drop_append_of_le_length (by simpa using within'), Term.bindAll_eq_map,
        Term.bindAll_eq_map, ← List.map_drop, ← List.map_drop, ← Term.bindAll_eq_map,
        ← Term.bindAll_eq_map]
      exact List.rel_append (forall₂_bindAll (back.imp imp) d) args

omit closed hf' in
/-- Heads of one construction are bound to such, unless a term is put in there. -/
theorem Similar.bind_apply (h : Similar R a b) (stuck : a.head.isStuck s = true)
    (notVar : ∀ i, a.head ≠ .rel i) :
    Similar S ((a.bind f d).apply xs) ((b.bind f' d).apply ys) := by
  cases h with
  | @mk h h' _ _ framed inner =>
    have unset : s.Unset h := by
      rintro k inst rfl
      exact Option.isNone_iff_eq_none.1 stuck
    obtain ⟨_, _, hh, hh', _, bound⟩ := Store.framed_bind unset (framed.mono imp) notVar d
    rw [Term.bind, Term.bind, hh, hh', Term.apply_apply, Term.apply_apply]
    exact .mk bound (List.rel_append (forall₂_bindAll (inner.imp imp) d) args)

end

/-! ## One run after the other -/

theorem Agree.head_ne_rel {R : Term → Term → Prop} (h : Agree cx R a b)
    (notVar : ∀ i, a.head ≠ .rel i) (i : Nat) : b.head ≠ .rel i := by
  rintro var
  cases h with
  | similar h =>
    cases h with
    | mk framed =>
      obtain rfl : _ = Head.rel i := var
      cases framed
      exact notVar i rfl
  | left h => cases h; cases var
  | right h => cases h; cases var

theorem Agree.isLam_eq {R : Term → Term → Prop} (h : Agree cx R a b) : b.isLam = a.isLam := by
  cases h with
  | similar h =>
    obtain ⟨framed, inner⟩ := h
    cases inner with
    | nil => cases framed <;> rfl
    | cons =>
      have applied (h : Head) (x : Term) (xs : List Term) : (Term.mk h (x :: xs)).isLam = false :=
        Term.isLam_eq_false_of_args (List.cons_ne_nil x xs)
      rw [applied, applied]
  | left h => cases h; rfl
  | right h => cases h; rfl

/-- Applied to congruent terms, the terms follow one another in runs of so many reductions. -/
def FollowsWithin (cx : Context) (s : Store) (n : Nat) (v v' : Term) : Prop :=
  ∀ m ≤ n, ∀ ys ys' u, List.Forall₂ (Congruent cx s) ys ys' →
    HeadRun cx.signature s m (v.apply ys) u → u.HeadNormal s →
    ∃ u', Attains cx.signature s (v'.apply ys') u' ∧ Agree cx (Congruent cx s) u u'

theorem followsWithin_var (n i : Nat) : FollowsWithin cx s n (.rel i) (.rel i) := by
  intro m _ ys ys' u args run _
  have normal (zs : List Term) : ((Term.rel i).apply zs).HeadNormal s :=
    ⟨rfl, fun _ => rfl⟩
  obtain rfl := run.eq_of_headNormal (normal ys)
  exact ⟨_, (normal ys').attains, .similar (.mk (.rel i) args)⟩

section
variable {n d : Nat} {t t' : Term} (agree : Agree cx (Fit cx s) t t')
  (bound : ∀ a b, Fit cx s a b → ∀ d, Congruent cx s (a.bind f d) (b.bind f' d))
include agree bound

/-- What is put for a variable meets the arguments of the variable, and those after them. -/
theorem followsWithin_of_rel {i : Nat} (var : t.head = .rel i)
    (terms : ∀ e i, FollowsWithin cx s n (f e i) (f' e i)) :
    FollowsWithin cx s n (t.bind f d) (t'.bind f' d) := by
  intro m within ys ys' u args run done
  cases agree with
  | left h => cases h; cases var
  | right h => cases h; cases var
  | similar h =>
    obtain ⟨framed, inner⟩ := h
    obtain rfl : _ = Head.rel i := var
    cases framed
    rw [Term.bind, Head.bind, Term.apply_apply] at run ⊢
    have all := List.rel_append (forall₂_bindAll (inner.imp bound) d) args
    exact terms d i m within _ _ u all run done

/-- An abstraction is contracted with the first argument, and the run is shorter by that. -/
theorem follows_of_lam (isLam : t.isLam = true)
    (fewer : ∀ m < n, ∀ v v', Congruent cx s v v' → FollowsWithin cx s m v v') {m : Nat}
    (within : m ≤ n) {y y' u : Term} (head : Congruent cx s y y')
    (rest : List.Forall₂ (Congruent cx s) xs ys)
    (run : HeadRun cx.signature s m ((t.bind f d).apply (y :: xs)) u) (done : u.HeadNormal s) :
    ∃ u', Attains cx.signature s ((t'.bind f' d).apply (y' :: ys)) u' ∧
      Agree cx (Congruent cx s) u u' := by
  obtain ⟨a, b, rfl⟩ := Term.exists_of_isLam isLam
  have beta {f : Nat → Nat → Term} (a b y : Term) (zs : List Term) :
      HeadStep cx.signature s .noDelta 0 (((Term.lam a b).bind f d).apply (y :: zs))
        (((b.bind f (d + 1)).instantiate y).apply zs) :=
    .beta rfl (a.bind f d) (b.bind f (d + 1)) y zs
  cases agree with
  | left h => cases h
  | right h => cases h
  | similar h =>
    obtain ⟨framed, inner⟩ := h
    cases inner
    cases framed with
    | @lam _ a' _ b' _ hb =>
      cases run with
      | refl => exact absurd done (beta a b y xs).not_headNormal
      | @head m _ _ _ first run =>
        obtain rfl := first.unique (beta a b y xs)
        have bodies := (bound b b' hb (d + 1)).instantiate head
        obtain ⟨u', attains, agree⟩ :=
          fewer m (by omega) _ _ bodies m (Nat.le_refl m) xs ys u rest run done
        exact ⟨u', (HeadRun.head (beta a' b' y' ys) (.refl _)).attains attains, agree⟩

/-- Otherwise nothing applies in the place either. -/
theorem attains_of_stuck (supplied : Supplied cx s) (hf : Term.MovesAlong f)
    (hf' : Term.MovesAlong f') (normal : t.HeadNormal s) (normal' : t'.HeadNormal s)
    (notVar : ∀ i, t.head ≠ .rel i) (unfit : xs ≠ [] → t.isLam = false)
    (args : List.Forall₂ (Congruent cx s) xs ys) :
    Attains cx.signature s ((t'.bind f' d).apply ys) ((t'.bind f' d).apply ys) ∧
      Agree cx (Congruent cx s) ((t.bind f d).apply xs) ((t'.bind f' d).apply ys) := by
  have closed (p h : String) (form : Canonical) (hc : cx.signature.canonical? p h = some form) :=
    (supplied.instances p h form hc).1
  have unfit' (applied : ys ≠ []) : t'.isLam = false := by
    rw [agree.isLam_eq]
    refine unfit ?_
    rintro rfl
    cases args
    exact applied rfl
  refine ⟨(normal'.bind_apply (agree.head_ne_rel notVar) unfit' d).attains, ?_⟩
  cases agree with
  | similar h => exact .similar (h.bind_apply bound args normal.head notVar)
  | left h => exact .left (h.bind_apply closed hf' bound args)
  | right h =>
    have bound' (b a : Term) (h : Fit cx s b a) (d : Nat) :
        Congruent cx s (b.bind f' d) (a.bind f d) := (bound a b h.symm d).symm
    exact .right (h.bind_apply closed hf bound' (args.imp fun _ _ => .symm).flip)

end

/-- Congruent terms follow one another. The induction is on the number of reductions, which
contracting an abstraction takes one of, and then on how the terms are related: what is put for a
variable at the head is related by less. -/
theorem followsWithin_of_congruent (supplied : Supplied cx s) (n : Nat) {v v' : Term}
    (h : Congruent cx s v v') : FollowsWithin cx s n v v' := by
  induction n using Nat.strongRecOn generalizing v v' with
  | ind n fewer =>
    induction h with
    | var i => exact followsWithin_var n i
    | @bind t t' f f' d fit hf hf' terms ih =>
      intro m within ys ys' u args run done
      have bound (a b : Term) (h : Fit cx s a b) (d : Nat) :
          Congruent cx s (a.bind f d) (b.bind f' d) := .bind d h hf hf' terms
      have through {f : Nat → Nat → Term} (hf : Term.MovesAlong f) (ys : List Term) (t u : Term)
          (p : t.Over s.Suffices) (step : HeadStep cx.signature s .noDelta 0 t u) :
          u.Over s.Suffices ∧
            HeadStep cx.signature s .noDelta 0 ((t.bind f d).apply ys) ((u.bind f d).apply ys) :=
        ⟨step.over supplied.values p, (step.bind hf p d).apply ys⟩
      obtain ⟨k, l, t₁, count, first, normal, enough, rest⟩ :=
        run.split (through hf ys) done fit.left
      obtain ⟨t₁', ⟨⟨k', first'⟩, normal'⟩, agree⟩ := fit.alike.dest t₁ ⟨⟨k, first⟩, normal⟩
      obtain ⟨enough', outside⟩ := first'.in_place (through hf' ys') fit.right
      have agree := agree.fit supplied enough enough'
      have within : l ≤ n := by omega
      suffices ∃ u', Attains cx.signature s ((t₁'.bind f' d).apply ys') u' ∧
          Agree cx (Congruent cx s) u u' by
        obtain ⟨u', attains, agree⟩ := this
        exact ⟨u', outside.attains attains, agree⟩
      by_cases var : ∃ i, t₁.head = .rel i
      · obtain ⟨i, var⟩ := var
        exact followsWithin_of_rel agree bound var ih l within ys ys' u args rest done
      · by_cases meets : ys ≠ [] ∧ t₁.isLam = true
        · obtain ⟨applied, isLam⟩ := meets
          cases args with
          | nil => exact absurd rfl applied
          | cons head args =>
            exact follows_of_lam agree bound isLam (fun m less v v' h => fewer m less h) within head
              args rest done
        · have notVar (i : Nat) : t₁.head ≠ .rel i := fun same => var ⟨i, same⟩
          have unfit (applied : ys ≠ []) : t₁.isLam = false := by
            simpa using fun isLam => meets ⟨applied, isLam⟩
          obtain rfl := rest.eq_of_headNormal (normal.bind_apply notVar unfit d)
          exact ⟨_, attains_of_stuck agree bound supplied hf hf' normal normal' notVar unfit args⟩

/-- Alike terms that are applied to alike terms are alike. -/
theorem Alike.apply (supplied : Supplied cx s) (h : Fit cx s a b)
    (args : List.Forall₂ (Fit cx s) xs ys) :
    Alike cx s (a.apply xs) (b.apply ys) := by
  refine .coind (R := fun t t' => ∃ v v' zs zs', t = v.apply zs ∧ t' = v'.apply zs' ∧
    Congruent cx s v v' ∧ List.Forall₂ (Congruent cx s) zs zs') ?_ ?_
    ⟨a, b, xs, ys, rfl, rfl, .of_fit h, args.imp fun _ _ => .of_fit⟩
  · rintro _ _ ⟨v, v', zs, zs', rfl, rfl, heads, args⟩
    exact ⟨v', v, zs', zs, rfl, rfl, heads.symm, (args.imp fun _ _ => .symm).flip⟩
  · rintro _ _ ⟨v, v', zs, zs', rfl, rfl, heads, args⟩ u ⟨⟨n, run⟩, normal⟩
    obtain ⟨u', attains, agree⟩ :=
      followsWithin_of_congruent supplied n heads n (Nat.le_refl n) zs zs' u args run normal
    refine ⟨u', attains, agree.mono fun c d h => ⟨c, d, [], [], ?_, ?_, h, .nil⟩⟩
    · rw [Term.apply_nil]
    · rw [Term.apply_nil]

end

end Unify

end KeyedMatching
