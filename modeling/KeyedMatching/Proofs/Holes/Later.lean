import KeyedMatching.Proofs.Holes.Filling
import KeyedMatching.Proofs.Term.Framed

/-!
# Terms before and after an assignment

Values were put into a term, then hole `k` was assigned, and values are put into the term again.
The second result is not the first with the value of `k` put in: what was substituted before is not
contracted, and what stands at the head of an application is. `Store.Later` says how far the two
agree all the same.

* `Store.Later.eq_of_not_mentions`: they are the same term if the first does not mention `k`;
* `Store.Later.instantiateMany`, `Store.Later.betaApply`: they stay so related when terms are put
  for variables and arguments are contracted;
* `Store.later_of_instantiate?`: the two results are so related.
-/

namespace KeyedMatching

namespace Store

/-- The second store came from the first by giving hole `k`, which had no value, the value `v`. The
value mentions no hole that has a value, also not `k`. -/
structure Assigns (s s' : Store) (k : Nat) (v : Term) : Prop where
  unset : s.value? k = none
  value : ∀ l, s'.value? l = if l = k then some v else s.value? l
  leaf : v.Over fun l _ => s'.isAssigned l = false

/-- The terms agree but where the first has hole `k`: if that has no arguments and its instance has
an entry for each free variable of the value, the value stands there with the later instance;
otherwise anything may. -/
inductive Later (s s' : Store) (k : Nat) (v : Term) : Term → Term → Prop
  | frame {h g xs ys} : h.Framed (s.Later s' k v) g → List.Forall₂ (s.Later s' k v) xs ys →
    Later s s' k v (.mk h xs) (.mk g ys)
  | value {xs ys} : v.Scoped xs.length → (∀ x ∈ xs, x.Over fun l _ => s.isAssigned l = false) →
    (∀ y ∈ ys, y.Over fun l _ => s'.isAssigned l = false) →
    List.Forall₂ (s.Later s' k v) xs ys → Later s s' k v (.hole k xs) (v.instantiateMany ys)
  | short {xs u} : ¬ v.Scoped xs.length → Later s s' k v (.hole k xs) u
  | applied {xs x zs u} : Later s s' k v (.mk (.hole k xs) (x :: zs)) u

section
variable {s s' : Store} {k : Nat} {v : Term}

mutual

theorem Later.framed_refl : (h : Head) → h.Framed (s.Later s' k v) h
  | .rel i => .rel i
  | .sort n => .sort n
  | .const c => .const c
  | .hole _ xs => .hole (Later.forall₂_refl xs)
  | .pi a b => .pi (Later.refl a) (Later.refl b)
  | .lam a b => .lam (Later.refl a) (Later.refl b)
  | .letIn w a b => .letIn (Later.refl w) (Later.refl a) (Later.refl b)
  | .cast t a => .cast (Later.refl t) (Later.refl a)
  | .case r c bs => .case (Later.refl r) (Later.refl c) (Later.forall₂_refl bs)
  | .fix _ as bs => .fix (Later.forall₂_refl as) (Later.forall₂_refl bs)

theorem Later.refl : (t : Term) → s.Later s' k v t t
  | .mk h xs => .frame (Later.framed_refl h) (Later.forall₂_refl xs)

theorem Later.forall₂_refl : (xs : List Term) → List.Forall₂ (s.Later s' k v) xs xs
  | [] => .nil
  | x :: xs => .cons (Later.refl x) (Later.forall₂_refl xs)

end

theorem Later.apply {t u : Term} {xs ys : List Term} (h : s.Later s' k v t u)
    (hs : List.Forall₂ (s.Later s' k v) xs ys) : s.Later s' k v (t.apply xs) (u.apply ys) := by
  cases hs with
  | nil => rwa [Term.apply_nil, Term.apply_nil]
  | cons hx hs =>
    cases h with
    | frame hg hzs => exact .frame hg (List.rel_append hzs (.cons hx hs))
    | value _ _ _ _ => exact .applied
    | short _ => exact .applied
    | applied => exact .applied

/-! ## Where the hole is not mentioned -/

mutual

theorem Later.framed_eq : {h g : Head} → h.Framed (s.Later s' k v) g →
    (Term.ofHead h).Over (fun l _ => l ≠ k) → g = h
  | _, _, .rel _, _ => rfl
  | _, _, .sort _, _ => rfl
  | _, _, .const _, _ => rfl
  | .hole _ _, _, .hole hxs, p => by rw [Later.all_eq hxs (Term.over_hole.1 p).2]
  | .pi _ _, _, .pi ha hb, p => by
    rw [Later.eq_of_not_mentions ha (Term.over_pi.1 p).1,
      Later.eq_of_not_mentions hb (Term.over_pi.1 p).2]
  | .lam _ _, _, .lam ha hb, p => by
    rw [Later.eq_of_not_mentions ha (Term.over_lam.1 p).1,
      Later.eq_of_not_mentions hb (Term.over_lam.1 p).2]
  | .letIn _ _ _, _, .letIn hw ha hb, p => by
    obtain ⟨pa, pw, pb⟩ := Term.over_letIn.1 p
    rw [Later.eq_of_not_mentions hw pw, Later.eq_of_not_mentions ha pa,
      Later.eq_of_not_mentions hb pb]
  | .cast _ _, _, .cast ht ha, p => by
    rw [Later.eq_of_not_mentions ht (Term.over_cast.1 p).2,
      Later.eq_of_not_mentions ha (Term.over_cast.1 p).1]
  | .case _ _ _, _, .case hr hc hbs, p => by
    obtain ⟨pr, pc, pbs⟩ := Term.over_case.1 p
    rw [Later.eq_of_not_mentions hr pr, Later.eq_of_not_mentions hc pc, Later.all_eq hbs pbs]
  | .fix _ _ _, _, .fix has hbs, p => by
    rw [Later.all_eq has (Term.over_fix.1 p).1, Later.all_eq hbs (Term.over_fix.1 p).2]

/-- A term that does not mention the hole is as it was. -/
theorem Later.eq_of_not_mentions : {t u : Term} → s.Later s' k v t u →
    t.Over (fun l _ => l ≠ k) → u = t
  | .mk _ _, _, h, p => by
    obtain ⟨ph, pxs⟩ := Term.over_mk.1 p
    cases h with
    | frame hg hxs => rw [Later.framed_eq hg ph, Later.all_eq hxs pxs]
    | value _ _ _ _ => exact absurd rfl (Term.over_hole.1 ph).1
    | short _ => exact absurd rfl (Term.over_hole.1 ph).1
    | applied => exact absurd rfl (Term.over_hole.1 ph).1

theorem Later.all_eq : {xs ys : List Term} → List.Forall₂ (s.Later s' k v) xs ys →
    (∀ x ∈ xs, x.Over fun l _ => l ≠ k) → ys = xs
  | [], _, .nil, _ => rfl
  | _ :: _, _, .cons hx hxs, p => by
    obtain ⟨px, pxs⟩ := List.forall_mem_cons.1 p
    rw [Later.eq_of_not_mentions hx px, Later.all_eq hxs pxs]

end

/-! ## Putting terms for variables -/

/-- Two bindings that put related terms, into which values were put, for the same variables. -/
structure Later.Binds (s s' : Store) (k : Nat) (v : Term) (f g : Nat → Nat → Term) : Prop where
  later : ∀ d i, s.Later s' k v (f d i) (g d i)
  before : ∀ d i, (f d i).Over fun l _ => s.isAssigned l = false
  after : ∀ d i, (g d i).Over fun l _ => s'.isAssigned l = false
  movesAlong : Term.MovesAlong g

section
variable {f g : Nat → Nat → Term}

mutual

theorem Later.Binds.framed (bs : Later.Binds s s' k v f g) : {h h' : Head} →
    h.Framed (s.Later s' k v) h' → (d : Nat) → s.Later s' k v (h.bind f d) (h'.bind g d)
  | _, _, .rel i, d => bs.later d i
  | _, _, .sort _, _ => Later.refl _
  | _, _, .const _, _ => Later.refl _
  | .hole _ _, _, .hole hxs, d => .frame (.hole (bs.all hxs d)) .nil
  | .pi _ _, _, .pi ha hb, d => .frame (.pi (bs.term ha d) (bs.term hb (d + 1))) .nil
  | .lam _ _, _, .lam ha hb, d => .frame (.lam (bs.term ha d) (bs.term hb (d + 1))) .nil
  | .letIn _ _ _, _, .letIn hw ha hb, d =>
    .frame (.letIn (bs.term hw d) (bs.term ha d) (bs.term hb (d + 1))) .nil
  | .cast _ _, _, .cast ht ha, d => .frame (.cast (bs.term ht d) (bs.term ha d)) .nil
  | .case _ _ _, _, .case hr hc hbs, d =>
    .frame (.case (bs.term hr d) (bs.term hc d) (bs.all hbs d)) .nil
  | .fix _ as _, .fix _ as' _, .fix has hbs, d => by
    have bodies := bs.all hbs (d + as.length)
    rw [Head.bind, Head.bind, ← has.length_eq]
    exact .frame (.fix (bs.all has d) bodies) .nil

/-- Terms stay related when related terms are put for their variables. -/
theorem Later.Binds.term (bs : Later.Binds s s' k v f g) : {t u : Term} → s.Later s' k v t u →
    (d : Nat) → s.Later s' k v (t.bind f d) (u.bind g d)
  | .mk _ xs, _, h, d => by
    cases h with
    | frame hg hxs => exact (bs.framed hg d).apply (bs.all hxs d)
    | applied => exact .applied
    | short tooShort =>
      rw [Term.bind, Head.bind, Term.bindAll_eq_map]
      exact .short (by rwa [List.length_map])
    | @value zs ys fits before after hxs =>
      -- The later instance is the instance of the value, and is put into there.
      rw [hxs.length_eq] at fits
      have later := bs.all hxs d
      rw [bs.movesAlong.bind_instantiateMany fits]
      rw [Term.bindAll_eq_map, Term.bindAll_eq_map] at later
      rw [Term.bind, Head.bind, Term.bindAll_eq_map]
      refine .value ?_ ?_ ?_ later
      · rwa [List.length_map, hxs.length_eq]
      · exact List.forall_mem_map.2 fun x hx => Term.over_bind (before x hx) bs.before
      · exact List.forall_mem_map.2 fun y hy => Term.over_bind (after y hy) bs.after

theorem Later.Binds.all (bs : Later.Binds s s' k v f g) : {xs ys : List Term} →
    List.Forall₂ (s.Later s' k v) xs ys → (d : Nat) →
      List.Forall₂ (s.Later s' k v) (Term.bindAll f d xs) (Term.bindAll g d ys)
  | [], _, .nil, _ => .nil
  | _ :: _, _, .cons hx hxs, d => .cons (bs.term hx d) (bs.all hxs d)

end

end

theorem Later.lift {t u : Term} (h : s.Later s' k v t u) (d : Nat) :
    s.Later s' k v (t.lift 0 d) (u.lift 0 d) := by
  have binds : Later.Binds s s' k v (fun c i => if c ≤ i then .rel (i + d) else .rel i)
      fun c i => if c ≤ i then .rel (i + d) else .rel i := by
    refine ⟨fun c i => Later.refl _, fun c i => ?_, fun c i => ?_, Term.movesAlong_lift d⟩
    · split <;> exact Term.over_rel _
    · split <;> exact Term.over_rel _
  exact binds.term h 0

theorem Later.binds_putFirst {xs ys : List Term} (hs : List.Forall₂ (s.Later s' k v) xs ys)
    (before : ∀ x ∈ xs, x.Over fun l _ => s.isAssigned l = false)
    (after : ∀ y ∈ ys, y.Over fun l _ => s'.isAssigned l = false) :
    Later.Binds s s' k v (Term.putFirst xs) (Term.putFirst ys) := by
  refine ⟨fun d i => ?_, fun d i => Term.over_putFirst before d i,
    fun d i => Term.over_putFirst after d i, Term.movesAlong_putFirst ys⟩
  unfold Term.putFirst
  split
  · rw [← hs.length_eq]
    have entry := forall₂_getElem? hs (i - d)
    revert entry
    generalize xs[i - d]? = x
    generalize ys[i - d]? = y
    rintro (hxy | _)
    · exact hxy.lift d
    · exact Later.refl _
  · exact Later.refl _

theorem Later.instantiateMany {t u : Term} {xs ys : List Term} (h : s.Later s' k v t u)
    (hs : List.Forall₂ (s.Later s' k v) xs ys)
    (before : ∀ x ∈ xs, x.Over fun l _ => s.isAssigned l = false)
    (after : ∀ y ∈ ys, y.Over fun l _ => s'.isAssigned l = false) :
    s.Later s' k v (t.instantiateMany xs) (u.instantiateMany ys) :=
  (Later.binds_putFirst hs before after).term h 0

/-- Contracting keeps the terms related: a hole with an argument is not contracted, whatever its
value is. -/
theorem Later.betaApply {t u : Term} {xs ys : List Term} (h : s.Later s' k v t u)
    (hs : List.Forall₂ (s.Later s' k v) xs ys)
    (before : ∀ x ∈ xs, x.Over fun l _ => s.isAssigned l = false)
    (after : ∀ y ∈ ys, y.Over fun l _ => s'.isAssigned l = false) :
    s.Later s' k v (t.betaApply xs) (u.betaApply ys) := by
  induction hs generalizing t u with
  | nil => simpa only [Term.betaApply] using h
  | @cons x y xs ys hx hs ih =>
    obtain ⟨px, pxs⟩ := List.forall_mem_cons.1 before
    obtain ⟨py, pys⟩ := List.forall_mem_cons.1 after
    have spine := h.apply (.cons hx hs)
    cases h with
    | value _ _ _ _ => exact .applied
    | short _ => exact .applied
    | applied => exact .applied
    | frame hg hzs =>
      cases hg with
      | lam ha hb =>
        cases hzs with
        | nil =>
          have inside := hb.instantiateMany (.cons hx .nil) (List.forall_mem_singleton.2 px)
            (List.forall_mem_singleton.2 py)
          exact ih inside pxs pys
        | cons _ _ => exact spine
      | _ => exact spine

/-! ## Putting values in -/

/-- What is true of putting values in by the rules is true of `again`. -/
def Follows (s : Store) (again : Term → Option Term) : Prop :=
  ∀ R, s.Fills R → ∀ t t', again t = some t' → R t t'

section
variable {again again' : Term → Option Term}

theorem exists_of_fillHead_hole {h : Head} {l : Nat} {inst : List Term}
    (hh : s.fillHead again h = some (.hole l inst)) :
    ∃ zs, h = .hole l zs ∧ s.fillAll again zs = some inst := by
  cases fillHead_iff.1 hh with
  | hole hzs => exact ⟨_, rfl, fillAll_iff.2 hzs⟩

/-- How values are put in before the assignment, by `again` where a value comes in, and after it, by
`again'`. -/
structure Refills (s s' : Store) (k : Nat) (v : Term) (again again' : Term → Option Term) :
    Prop where
  assigns : s.Assigns s' k v
  before : s.Follows again
  after : s'.Follows again'
  later : ∀ t u t' u', s.Later s' k v t u → again t = some t' → again' u = some u' →
    s.Later s' k v t' u'

theorem Refills.unassigned_before (r : Refills s s' k v again again') {xs ys : List Term}
    (h : s.fillAll again xs = some ys) : ∀ y ∈ ys, y.Over fun l _ => s.isAssigned l = false :=
  forall_right_of_forall₂
    ((fills_unassigned s).of_fillAll (r.before _ (fills_unassigned s)) xs ys h)

theorem Refills.unassigned_after (r : Refills s s' k v again again') {xs ys : List Term}
    (h : s'.fillAll again' xs = some ys) : ∀ y ∈ ys, y.Over fun l _ => s'.isAssigned l = false :=
  forall_right_of_forall₂
    ((fills_unassigned s').of_fillAll (r.after _ (fills_unassigned s')) xs ys h)

/-- The results for an application of hole `l` with arguments, values having been put into its
instance and its arguments. -/
theorem Refills.hole (r : Refills s s' k v again again') {l : Nat} {inst inst' xs ys : List Term}
    {t u : Term} (hinst : List.Forall₂ (s.Later s' k v) inst inst')
    (hxs : List.Forall₂ (s.Later s' k v) xs ys)
    (before : ∀ x ∈ inst ++ xs, x.Over fun l _ => s.isAssigned l = false)
    (after : ∀ y ∈ inst' ++ ys, y.Over fun l _ => s'.isAssigned l = false)
    (ht : (match s.value? l with
      | some w => (again (w.instantiateMany inst)).bind fun w => pure (w.betaApply xs)
      | none => pure (.mk (.hole l inst) xs)) = some t)
    (hu : (match s'.value? l with
      | some w => (again' (w.instantiateMany inst')).bind fun w => pure (w.betaApply ys)
      | none => pure (.mk (.hole l inst') ys)) = some u) :
    s.Later s' k v t u := by
  obtain ⟨binst, bxs⟩ := List.forall_mem_append.1 before
  obtain ⟨ainst, ays⟩ := List.forall_mem_append.1 after
  rw [r.assigns.value] at hu
  by_cases newly : l = k
  · -- The value that was not there before mentions no hole that has one.
    subst newly
    rw [r.assigns.unset] at ht
    rw [if_pos rfl] at hu
    obtain ⟨w, hw, hu⟩ := Option.bind_eq_some_iff.1 hu
    obtain rfl := Option.some.inj ht
    obtain rfl := Option.some.inj hu
    obtain rfl := r.after _ (fills_eq s') _ _ hw (Term.over_instantiateMany r.assigns.leaf ainst)
    cases hxs with
    | nil =>
      by_cases fits : v.Scoped inst.length
      · exact .value fits binst ainst hinst
      · exact .short fits
    | cons _ _ => exact .applied
  · rw [if_neg newly] at hu
    cases known : s.value? l with
    | none =>
      rw [known] at ht hu
      obtain rfl := Option.some.inj ht
      obtain rfl := Option.some.inj hu
      exact .frame (.hole hinst) hxs
    | some w =>
      rw [known] at ht hu
      obtain ⟨t', ht', ht⟩ := Option.bind_eq_some_iff.1 ht
      obtain ⟨u', hu', hu⟩ := Option.bind_eq_some_iff.1 hu
      obtain rfl := Option.some.inj ht
      obtain rfl := Option.some.inj hu
      have inside := (Later.refl w).instantiateMany hinst binst ainst
      exact (r.later _ _ _ _ inside ht' hu').betaApply hxs bxs ays

mutual

theorem Refills.framed (r : Refills s s' k v again again') : (h : Head) → {g h' g' : Head} →
    h.Framed (s.Later s' k v) g → s.fillHead again h = some h' → s'.fillHead again' g = some g' →
      h'.Framed (s.Later s' k v) g'
  | _, _, _, _, .rel i, hh, hg => by
    cases hh
    cases hg
    exact .rel i
  | _, _, _, _, .sort n, hh, hg => by
    cases hh
    cases hg
    exact .sort n
  | _, _, _, _, .const c, hh, hg => by
    cases hh
    cases hg
    exact .const c
  | .hole _ _, _, _, _, .hole hxs, hh, hg => by
    cases fillHead_iff.1 hh with
    | hole hx =>
      cases fillHead_iff.1 hg with
      | hole hy => exact .hole (r.all _ hxs (fillAll_iff.2 hx) (fillAll_iff.2 hy))
  | .pi _ _, _, _, _, .pi ha hb, hh, hg => by
    cases fillHead_iff.1 hh with
    | pi hx hx' =>
      cases fillHead_iff.1 hg with
      | pi hy hy' => exact .pi (r.term _ ha hx hy) (r.term _ hb hx' hy')
  | .lam _ _, _, _, _, .lam ha hb, hh, hg => by
    cases fillHead_iff.1 hh with
    | lam hx hx' =>
      cases fillHead_iff.1 hg with
      | lam hy hy' => exact .lam (r.term _ ha hx hy) (r.term _ hb hx' hy')
  | .letIn _ _ _, _, _, _, .letIn hw ha hb, hh, hg => by
    cases fillHead_iff.1 hh with
    | letIn hx hx' hx'' =>
      cases fillHead_iff.1 hg with
      | letIn hy hy' hy'' =>
        exact .letIn (r.term _ hw hx hy) (r.term _ ha hx' hy') (r.term _ hb hx'' hy'')
  | .cast _ _, _, _, _, .cast ht ha, hh, hg => by
    cases fillHead_iff.1 hh with
    | cast hx hx' =>
      cases fillHead_iff.1 hg with
      | cast hy hy' => exact .cast (r.term _ ht hx hy) (r.term _ ha hx' hy')
  | .case _ _ _, _, _, _, .case hr hc hbs, hh, hg => by
    cases fillHead_iff.1 hh with
    | case hx hx' hx'' =>
      cases fillHead_iff.1 hg with
      | case hy hy' hy'' =>
        exact .case (r.term _ hr hx hy) (r.term _ hc hx' hy')
          (r.all _ hbs (fillAll_iff.2 hx'') (fillAll_iff.2 hy''))
  | .fix _ _ _, _, _, _, .fix has hbs, hh, hg => by
    cases fillHead_iff.1 hh with
    | fix hx hx' =>
      cases fillHead_iff.1 hg with
      | fix hy hy' =>
        exact .fix (r.all _ has (fillAll_iff.2 hx) (fillAll_iff.2 hy))
          (r.all _ hbs (fillAll_iff.2 hx') (fillAll_iff.2 hy'))
termination_by structural h => h

/-- Putting values in keeps terms related. -/
theorem Refills.term (r : Refills s s' k v again again') : (t : Term) → {u t' u' : Term} →
    s.Later s' k v t u → s.fill again t = some t' → s'.fill again' u = some u' →
      s.Later s' k v t' u'
  | .mk h xs, u, t', u', related, ht, hu => by
    cases related with
    | @value zs ys fits before after hzs =>
      have own : (Term.hole k zs).Over fun l _ => s.isAssigned l = false :=
        Term.over_hole.2 ⟨by simp [isAssigned, r.assigns.unset], before⟩
      have later := Term.over_instantiateMany r.assigns.leaf after
      rw [(fills_eq s).of_fill (r.before _ (fills_eq s)) _ _ ht own,
        (fills_eq s').of_fill (r.after _ (fills_eq s')) _ _ hu later]
      exact .value fits before after hzs
    | short tooShort =>
      simp only [fill, fillHead, fillAll, Option.bind_eq_bind, Option.bind_eq_some_iff,
        Option.pure_def, Option.some.injEq] at ht
      obtain ⟨_, ⟨inst, hinst, rfl⟩, _, rfl, ht⟩ := ht
      simp only [r.assigns.unset, Option.some.injEq] at ht
      rw [← ht]
      exact .short (by rwa [← (fillAll_iff.1 hinst).length_eq])
    | applied =>
      simp only [fill, fillHead, fillAll, Option.bind_eq_bind, Option.bind_eq_some_iff,
        Option.pure_def, Option.some.injEq] at ht
      obtain ⟨_, ⟨_, _, rfl⟩, _, ⟨_, _, _, _, rfl⟩, ht⟩ := ht
      simp only [r.assigns.unset, Option.some.injEq] at ht
      rw [← ht]
      exact .applied
    | @frame _ g _ ys hg hxs =>
      simp only [fill, Option.bind_eq_bind, Option.bind_eq_some_iff] at ht hu
      obtain ⟨h', hh, xs', hxs', ht⟩ := ht
      obtain ⟨g', hg', ys', hys', hu⟩ := hu
      have framed := r.framed _ hg hh hg'
      have onArgs := r.all _ hxs hxs' hys'
      have onHead := framed
      cases onHead with
      | hole hinst =>
        obtain ⟨zs, rfl, hzs⟩ := exists_of_fillHead_hole hh
        obtain ⟨zs', rfl, hzs'⟩ := exists_of_fillHead_hole hg'
        refine r.hole hinst onArgs ?_ ?_ ht hu
        · exact List.forall_mem_append.2 ⟨r.unassigned_before hzs, r.unassigned_before hxs'⟩
        · exact List.forall_mem_append.2 ⟨r.unassigned_after hzs', r.unassigned_after hys'⟩
      | _ =>
        obtain rfl := Option.some.inj ht
        obtain rfl := Option.some.inj hu
        exact .frame framed onArgs
termination_by structural t => t

theorem Refills.all (r : Refills s s' k v again again') : (xs : List Term) →
    {ys xs' ys' : List Term} → List.Forall₂ (s.Later s' k v) xs ys →
      s.fillAll again xs = some xs' → s'.fillAll again' ys = some ys' →
        List.Forall₂ (s.Later s' k v) xs' ys'
  | [], _, _, _, .nil, hx, hy => by
    cases hx
    cases hy
    exact .nil
  | _ :: _, _, _, _, .cons hxy hs, hx, hy => by
    simp only [fillAll, Option.bind_eq_bind, Option.bind_eq_some_iff, Option.pure_def,
      Option.some.injEq] at hx hy
    obtain ⟨_, hx, _, hxs, rfl⟩ := hx
    obtain ⟨_, hy, _, hys, rfl⟩ := hy
    exact .cons (r.term _ hxy hx hy) (r.all _ hs hxs hys)
termination_by structural xs => xs

end

end

end

end Store

end KeyedMatching
