import KeyedMatching.Proofs.Term.Everywhere
import Mathlib.Logic.Basic

/-!
# Laws of substitution

Lifting, lowering and putting terms for variables are bindings, and two bindings in a row are one
(`Term.bind_bind`). What is left of each law is what it says about a single variable.

* `Term.lift_of_lower?`: a term that was lowered is lifted back;
* `Term.instantiateMany_cons`: terms are put for the first variables one after the other, the last
  of them first;
* `Term.MovesAlong.bind_instantiateMany`: terms are put for variables into those that were put for
  variables before;
* `Term.instantiateMany_of_abstractRels?`, `Term.instantiateMany_abstractTerms`: what was abstracted
  is put back.
-/

namespace KeyedMatching

/-! ## Two bindings in a row -/

mutual

theorem Head.bind_bind (f g : Nat → Nat → Term) : (h : Head) → (d : Nat) →
    (h.bind f d).bind g d = h.bind (fun e i => (f e i).bind g e) d
  | .rel _, _ => rfl
  | .sort _, _ => rfl
  | .const _, _ => rfl
  | .hole k xs, d => congrArg (Term.hole k) (Term.bindAll_bindAll f g xs d)
  | .pi a b, d => by
    simp only [Head.bind, Term.bind, Term.bindAll, Term.apply_nil, Term.bind_bind f g a d,
      Term.bind_bind f g b (d + 1)]
  | .lam a b, d => by
    simp only [Head.bind, Term.bind, Term.bindAll, Term.apply_nil, Term.bind_bind f g a d,
      Term.bind_bind f g b (d + 1)]
  | .letIn v a b, d => by
    simp only [Head.bind, Term.bind, Term.bindAll, Term.apply_nil, Term.bind_bind f g v d,
      Term.bind_bind f g a d, Term.bind_bind f g b (d + 1)]
  | .cast t a, d => by
    simp only [Head.bind, Term.bind, Term.bindAll, Term.apply_nil, Term.bind_bind f g t d,
      Term.bind_bind f g a d]
  | .case r s bs, d => by
    simp only [Head.bind, Term.bind, Term.bindAll, Term.apply_nil, Term.bind_bind f g r d,
      Term.bind_bind f g s d, Term.bindAll_bindAll f g bs d]
  | .fix i as bs, d => by
    simp only [Head.bind, Term.bind, Term.bindAll, Term.apply_nil, Term.length_bindAll,
      Term.bindAll_bindAll f g as d, Term.bindAll_bindAll f g bs (d + as.length)]

/-- Two bindings in a row are one. -/
theorem Term.bind_bind (f g : Nat → Nat → Term) : (t : Term) → (d : Nat) →
    (t.bind f d).bind g d = t.bind (fun e i => (f e i).bind g e) d
  | .mk h xs, d => by
    simp only [Term.bind, Term.bind_apply, Head.bind_bind f g h d, Term.bindAll_bindAll f g xs d]

theorem Term.bindAll_bindAll (f g : Nat → Nat → Term) : (xs : List Term) → (d : Nat) →
    Term.bindAll g d (Term.bindAll f d xs) = Term.bindAll (fun e i => (f e i).bind g e) d xs
  | [], _ => rfl
  | x :: xs, d => by
    simp only [Term.bindAll, Term.bind_bind f g x d, Term.bindAll_bindAll f g xs d]

end

mutual

theorem Head.bind_shift (f : Nat → Nat → Term) (n : Nat) : (h : Head) → (d : Nat) →
    h.bind f (d + n) = h.bind (fun e i => f (e + n) i) d
  | .rel _, _ => rfl
  | .sort _, _ => rfl
  | .const _, _ => rfl
  | .hole k xs, d => congrArg (Term.hole k) (Term.bindAll_shift f n xs d)
  | .pi a b, d => by
    simp only [Head.bind, Nat.add_right_comm d n 1, Term.bind_shift f n a d,
      Term.bind_shift f n b (d + 1)]
  | .lam a b, d => by
    simp only [Head.bind, Nat.add_right_comm d n 1, Term.bind_shift f n a d,
      Term.bind_shift f n b (d + 1)]
  | .letIn v a b, d => by
    simp only [Head.bind, Nat.add_right_comm d n 1, Term.bind_shift f n v d,
      Term.bind_shift f n a d, Term.bind_shift f n b (d + 1)]
  | .cast t a, d => by
    simp only [Head.bind, Term.bind_shift f n t d, Term.bind_shift f n a d]
  | .case r s bs, d => by
    simp only [Head.bind, Term.bind_shift f n r d, Term.bind_shift f n s d,
      Term.bindAll_shift f n bs d]
  | .fix i as bs, d => by
    simp only [Head.bind, Nat.add_right_comm d n as.length, Term.bindAll_shift f n as d,
      Term.bindAll_shift f n bs (d + as.length)]

/-- Binders outside a term can be counted in the binding instead. -/
theorem Term.bind_shift (f : Nat → Nat → Term) (n : Nat) : (t : Term) → (d : Nat) →
    t.bind f (d + n) = t.bind (fun e i => f (e + n) i) d
  | .mk h xs, d => by
    simp only [Term.bind, Head.bind_shift f n h d, Term.bindAll_shift f n xs d]

theorem Term.bindAll_shift (f : Nat → Nat → Term) (n : Nat) : (xs : List Term) → (d : Nat) →
    Term.bindAll f (d + n) xs = Term.bindAll (fun e i => f (e + n) i) d xs
  | [], _ => rfl
  | x :: xs, d => by
    simp only [Term.bindAll, Term.bind_shift f n x d, Term.bindAll_shift f n xs d]

end

/-- Two bindings in a row are one, wherever each of them starts. -/
theorem Term.bind_bind_shift (f g : Nat → Nat → Term) (t : Term) (m n : Nat) :
    (t.bind f m).bind g n = t.bind (fun d i => (f (d + m) i).bind g (d + n)) 0 := by
  have inner := Term.bind_shift f m t 0
  have outer := Term.bind_shift g n (t.bind f m) 0
  rw [Nat.zero_add] at inner outer
  rw [outer, inner, Term.bind_bind]
  simp only [Term.bind_shift g n]

mutual

theorem Head.bind_rel : (h : Head) → (d : Nat) → h.bind (fun _ i => .rel i) d = .ofHead h
  | .rel _, _ => rfl
  | .sort _, _ => rfl
  | .const _, _ => rfl
  | .hole k xs, d => congrArg (Term.hole k) (Term.bindAll_rel xs d)
  | .pi a b, d => by simp only [Head.bind, Term.bind_rel a d, Term.bind_rel b (d + 1)]
  | .lam a b, d => by simp only [Head.bind, Term.bind_rel a d, Term.bind_rel b (d + 1)]
  | .letIn v a b, d => by
    simp only [Head.bind, Term.bind_rel v d, Term.bind_rel a d, Term.bind_rel b (d + 1)]
  | .cast t a, d => by simp only [Head.bind, Term.bind_rel t d, Term.bind_rel a d]
  | .case r s bs, d => by
    simp only [Head.bind, Term.bind_rel r d, Term.bind_rel s d, Term.bindAll_rel bs d]
  | .fix i as bs, d => by
    simp only [Head.bind, Term.bindAll_rel as d, Term.bindAll_rel bs (d + as.length)]

/-- Binding every variable to itself changes nothing. -/
theorem Term.bind_rel : (t : Term) → (d : Nat) → t.bind (fun _ i => .rel i) d = t
  | .mk h xs, d => by
    simp only [Term.bind, Head.bind_rel h d, Term.bindAll_rel xs d, Term.apply, List.nil_append]

theorem Term.bindAll_rel : (xs : List Term) → (d : Nat) →
    Term.bindAll (fun _ i => .rel i) d xs = xs
  | [], _ => rfl
  | x :: xs, d => by simp only [Term.bindAll, Term.bind_rel x d, Term.bindAll_rel xs d]

end

/-- A binding is undone by another if each variable of the term is. -/
theorem Term.bind_bind_eq_self {f g : Nat → Nat → Term} {t : Term} {d : Nat}
    (p : t.Every (fun e i => (f e i).bind g e = .rel i) (fun _ _ => True) d) :
    (t.bind f d).bind g d = t := by
  rw [Term.bind_bind, Term.bind_congr t d p, Term.bind_rel]

/-! ## Lifting and lowering -/

@[simp] theorem Term.bind_var (f : Nat → Nat → Term) (d i : Nat) :
    (Term.rel i).bind f d = f d i := by
  simp [Term.bind, Head.bind, Term.bindAll]

theorem Term.freeRels_every (t : Term) (c : Nat) :
    t.Every (fun d i => c ≤ d ∧ (d ≤ i + c → i + c - d ∈ t.freeRels)) (fun _ _ => True) c := by
  have own : t.Every (fun d i => d ≤ i → i - d ∈ t.freeRels) (fun _ _ => True) 0 :=
    Term.forall_freeRels.1 fun _ hi => hi
  have shift := Term.every_shift (h := fun _ _ => True)
    (v := fun d i => c ≤ d ∧ (d ≤ i + c → i + c - d ∈ t.freeRels)) c t 0
  rw [Nat.zero_add] at shift
  refine shift.2 (own.mono (fun d i q => ⟨by omega, fun hd => ?_⟩) (fun _ _ q => q))
  have e : i + c - (d + c) = i - d := by omega
  rw [e]
  exact q (by omega)

/-- Lifting undoes lowering. -/
theorem Term.lift_of_lower? {t u : Term} {c n : Nat} (h : t.lower? c n = some u) :
    u.lift c n = t := by
  unfold Term.lower? at h
  split at h
  · cases h
  · next free =>
    obtain rfl := Option.some.inj h
    simp only [List.any_eq_true, Bool.and_eq_true, decide_eq_true_eq, not_exists, not_and] at free
    refine Term.bind_bind_eq_self ((Term.freeRels_every t c).mono ?_ fun _ _ q => q)
    rintro d i ⟨hd, hi⟩
    by_cases far : d + n ≤ i
    · have back : d ≤ i - n := by omega
      have same : i - n + n = i := by omega
      simp [far, back, same]
    · have low : ¬ d ≤ i := by
        intro hdi
        have := free _ (hi (by omega)) (by omega)
        omega
      simp [far, low]

theorem Term.lift_lift (t : Term) {k m : Nat} (n : Nat) (hk : k ≤ m) :
    (t.lift 0 m).lift k n = t.lift 0 (m + n) := by
  unfold Term.lift
  rw [Term.bind_bind_shift]
  congr 1
  funext d i
  rw [Nat.add_zero]
  by_cases hd : d ≤ i
  · have : d + k ≤ i + m := by omega
    simp [hd, this, Nat.add_assoc]
  · have : ¬ d + k ≤ i := by omega
    simp [hd, this]

/-! ## Putting terms for the free variables -/

/-- The binding that puts `values[i]` for the free variable `i` and closes the gap. -/
def Term.putFirst (values : List Term) (d i : Nat) : Term :=
  if d ≤ i then
    match values[i - d]? with
    | some v => v.lift 0 d
    | none => .rel (i - values.length)
  else .rel i

theorem Term.instantiateMany_eq_bind (t : Term) (values : List Term) :
    t.instantiateMany values = t.bind (Term.putFirst values) 0 :=
  rfl

@[simp] theorem Term.instantiateMany_nil (t : Term) : t.instantiateMany [] = t := by
  rw [Term.instantiateMany_eq_bind, show Term.putFirst [] = fun _ i => .rel i by
    funext d i
    simp [Term.putFirst], Term.bind_rel]

/-- What is put for the innermost variable does not meet a term lifted over it. -/
theorem Term.lift_bind_putFirst (t x : Term) {e m : Nat} (he : e ≤ m) :
    (t.lift 0 (m + 1)).bind (Term.putFirst [x]) e = t.lift 0 m := by
  unfold Term.lift
  rw [Term.bind_bind_shift]
  congr 1
  funext d i
  rw [Nat.add_zero]
  by_cases hd : d ≤ i
  · have near : d + e ≤ i + (m + 1) := by omega
    have gap : i + (m + 1) - (d + e) = i + m - (d + e) + 1 := by omega
    have index : i + (m + 1) - 1 = i + m := by omega
    simp only [Term.putFirst, hd, near, gap, index, ↓reduceIte, Term.bind_var,
      List.getElem?_cons_succ, List.getElem?_nil, List.length_singleton]
  · have far : ¬ d + e ≤ i := by omega
    simp [Term.putFirst, hd, far]

@[simp] theorem Term.instantiateMany_lam (a b : Term) (values : List Term) :
    (Term.lam a b).instantiateMany values =
      .lam (a.instantiateMany values) (b.bind (Term.putFirst values) 1) := by
  simp [Term.instantiateMany_eq_bind, Term.bind, Head.bind, Term.bindAll]

/-- Of the terms that are put for the first variables the later ones can be put under a binder that
the first one is put for. -/
theorem Term.instantiateMany_cons (t x : Term) (xs : List Term) :
    t.instantiateMany (x :: xs) = (t.bind (Term.putFirst xs) 1).instantiate x := by
  rw [Term.instantiate, Term.instantiateMany_eq_bind, Term.instantiateMany_eq_bind,
    Term.bind_bind_shift]
  congr 1
  funext e i
  rw [Nat.add_zero]
  rcases Nat.lt_trichotomy i e with low | rfl | high
  · have inner : ¬ e ≤ i := by omega
    have outer : ¬ e + 1 ≤ i := by omega
    simp [Term.putFirst, inner, outer]
  · have bound : ¬ i + 1 ≤ i := by omega
    simp [Term.putFirst, bound]
  · have inner : e ≤ i := by omega
    have outer : e + 1 ≤ i := by omega
    obtain ⟨j, hj⟩ : ∃ j, i - e = j + 1 := ⟨i - e - 1, by omega⟩
    have index : i - (e + 1) = j := by omega
    cases found : xs[j]? with
    | some v =>
      have dropped := Term.lift_bind_putFirst v x (Nat.le_refl e)
      simp [Term.putFirst, inner, outer, hj, index, found, dropped]
    | none =>
      have past := List.getElem?_eq_none_iff.1 found
      have reach : e ≤ i - xs.length := by omega
      obtain ⟨m, hm⟩ : ∃ m, i - xs.length - e = m + 1 := ⟨i - xs.length - e - 1, by omega⟩
      have gap : i - xs.length - 1 = i - (xs.length + 1) := by omega
      simp [Term.putFirst, inner, outer, hj, index, found, reach, hm, gap]

/-! ## Bindings that move along -/

/-- The binding leaves bound variables alone, and under more binders it puts the same terms,
lifted. -/
structure Term.MovesAlong (f : Nat → Nat → Term) : Prop where
  bound : ∀ d i, i < d → f d i = .rel i
  lifted : ∀ c d e i, c ≤ d → f (d + e) (if c ≤ i then i + e else i) = (f d i).lift c e

theorem Term.movesAlong_lift (n : Nat) :
    Term.MovesAlong fun d i => if d ≤ i then .rel (i + n) else .rel i := by
  refine ⟨fun d i low => if_neg (Nat.not_le.2 low), fun c d e i hc => ?_⟩
  by_cases inner : c ≤ i
  · by_cases free : d ≤ i
    · have moved : c ≤ i + n := by omega
      simp [inner, free, Term.lift, moved, Nat.add_right_comm]
    · simp [inner, free, Term.lift]
  · have bound : ¬ d ≤ i := by omega
    have bound' : ¬ d + e ≤ i := by omega
    simp [inner, bound, bound', Term.lift]

theorem Term.movesAlong_putFirst (values : List Term) :
    Term.MovesAlong (Term.putFirst values) := by
  refine ⟨fun d i low => if_neg (Nat.not_le.2 low), fun c d e i hc => ?_⟩
  by_cases free : d ≤ i
  · have inner : c ≤ i := by omega
    have index : i + e - (d + e) = i - d := by omega
    cases found : values[i - d]? with
    | some v => simp [Term.putFirst, inner, free, index, found, Term.lift_lift v e hc]
    | none =>
      have past := List.getElem?_eq_none_iff.1 found
      have inner' : c ≤ i - values.length := by omega
      have gap : i + e - values.length = i - values.length + e := by omega
      simp [Term.putFirst, inner, free, index, found, Term.lift, inner', gap]
  · by_cases inner : c ≤ i
    · simp [Term.putFirst, inner, free, Term.lift]
    · have bound : ¬ d + e ≤ i := by omega
      simp [Term.putFirst, inner, free, bound, Term.lift]

section
variable {f : Nat → Nat → Term}

/-- A term may be lifted over inner binders before a binding or after. -/
theorem Term.MovesAlong.lift_bind (hf : Term.MovesAlong f) (t : Term) {c d : Nat} (e : Nat)
    (within : c ≤ d) : (t.lift c e).bind f (d + e) = (t.bind f d).lift c e := by
  unfold Term.lift
  rw [Term.bind_bind_shift, Term.bind_bind_shift]
  congr 1
  funext k i
  have along := hf.lifted (k + c) (k + d) e i (Nat.add_le_add_left within k)
  unfold Term.lift at along
  rw [← along]
  split <;> simp [Nat.add_assoc]

/-- Two bindings that move along, in a row. -/
theorem Term.MovesAlong.comp {g : Nat → Nat → Term} (hf : Term.MovesAlong f)
    (hg : Term.MovesAlong g) (m n : Nat) :
    Term.MovesAlong fun d i => (f (d + m) i).bind g (d + n) := by
  constructor
  · intro d i low
    rw [hf.bound _ _ (by omega), Term.bind_var, hg.bound _ _ (by omega)]
  · intro c d e i within
    have inner := hf.lifted c (d + m) e i (by omega)
    have outer := hg.lift_bind (f (d + m) i) e (Nat.le_add_right_of_le (k := n) within)
    rw [Nat.add_right_comm d e m, Nat.add_right_comm d e n, inner, outer]

/-- Where terms were put for all the free variables of a term, a binding goes into those. -/
theorem Term.MovesAlong.bind_instantiateMany (hf : Term.MovesAlong f) {t : Term}
    {values : List Term} (p : t.Scoped values.length) (d : Nat) :
    (t.instantiateMany values).bind f d = t.instantiateMany (values.map (·.bind f d)) := by
  rw [Term.instantiateMany_eq_bind, Term.instantiateMany_eq_bind, Term.bind_bind_shift]
  refine Term.bind_congr t 0 (Term.Every.mono p (fun e i near => ?_) fun _ _ q => q)
  rw [Nat.add_zero]
  by_cases free : e ≤ i
  · have inside : i - e < values.length := by omega
    have lifted := hf.lift_bind values[i - e] e (Nat.zero_le d)
    rw [Nat.add_comm d e] at lifted
    simp [Term.putFirst, free, inside, lifted]
  · have low : i < e + d := by omega
    simp [Term.putFirst, free, hf.bound _ _ low]

end

/-! ## Putting back what was abstracted -/

/-- Renumbered variables are numbered back. -/
theorem Term.instantiateMany_of_abstractRels? {t v : Term} {vars : List Nat}
    (h : t.abstractRels? vars = some v) : v.instantiateMany (vars.map .rel) = t := by
  unfold Term.abstractRels? at h
  split at h
  · next listed =>
    obtain rfl := Option.some.inj h
    simp only [List.all_eq_true, List.contains_eq_mem, decide_eq_true_eq] at listed
    rw [Term.instantiateMany_eq_bind]
    refine Term.bind_bind_eq_self ((Term.forall_freeRels.1 listed).mono (fun d i hi => ?_)
      fun _ _ q => q)
    by_cases hd : d ≤ i
    · have position := List.idxOf_lt_length_of_mem (hi hd)
      have number := List.getElem_idxOf position
      have same : i - d + d = i := by omega
      simp [Term.putFirst, hd, position, number, Term.lift, same]
    · simp [Term.putFirst, hd]
  · cases h

theorem Term.scoped_of_abstractRels? {t v : Term} {vars : List Nat}
    (h : t.abstractRels? vars = some v) : v.Scoped vars.length := by
  unfold Term.abstractRels? at h
  split at h
  · next listed =>
    obtain rfl := Option.some.inj h
    simp only [List.all_eq_true, List.contains_eq_mem, decide_eq_true_eq] at listed
    refine Term.every_bind (fun d i hi => ?_) t 0 (Term.forall_freeRels.1 listed)
    by_cases hd : d ≤ i
    · have position := List.idxOf_lt_length_of_mem (hi hd)
      simp only [hd, ↓reduceIte, Term.Every, Head.Every, Term.EveryAll, and_true]
      omega
    · simp only [hd, ↓reduceIte, Term.Every, Head.Every, Term.EveryAll, and_true]
      omega
  · cases h

/-- `Term.replace` on the children of a head. -/
def Head.replace (F : Term → Nat → Option Term) (d : Nat) (h : Head) : Head :=
  Id.run (h.replaceM (fun u d => pure (F u d)) d)

section
variable (F : Term → Nat → Option Term)

theorem Term.replaceAllM_run (d : Nat) (xs : List Term) :
    (Term.replaceAllM (m := Id) (fun u d => pure (F u d)) d xs).run = xs.map (·.replace F d) := by
  rw [Term.replaceAllM_eq_mapM]
  simp [Term.replace]

theorem Head.replace_hole (d k : Nat) (xs : List Term) :
    (Head.hole k xs).replace F d = .hole k (xs.map (·.replace F d)) :=
  congrArg (Head.hole k) (Term.replaceAllM_run F d xs)

theorem Head.replace_case (d : Nat) (r s : Term) (bs : List Term) :
    (Head.case r s bs).replace F d =
      .case (r.replace F d) (s.replace F d) (bs.map (·.replace F d)) :=
  congrArg (Head.case (r.replace F d) (s.replace F d)) (Term.replaceAllM_run F d bs)

theorem Head.replace_fix (d i : Nat) (as bs : List Term) :
    (Head.fix i as bs).replace F d =
      .fix i (as.map (·.replace F d)) (bs.map (·.replace F (d + as.length))) :=
  congrArg₂ (Head.fix i) (Term.replaceAllM_run F d as) (Term.replaceAllM_run F _ bs)

theorem Term.replace_ofHead (d : Nat) (h : Head) :
    (Term.ofHead h).replace F d = (F (.ofHead h) d).getD (.ofHead (h.replace F d)) := by
  simp only [Term.replace, Term.replaceM, Head.replace]
  cases F (.ofHead h) d <;> rfl

theorem Term.replace_mk_cons (d : Nat) (h : Head) (x : Term) (xs : List Term) :
    (Term.mk h (x :: xs)).replace F d =
      (F (.mk h (x :: xs)) d).getD
        (((Term.ofHead h).replace F d).apply ((x :: xs).map (·.replace F d))) := by
  rw [Term.replace_ofHead, ← Term.replaceAllM_run]
  simp only [Term.replace, Term.replaceM, Head.replace]
  cases F (.mk h (x :: xs)) d with
  | some u => rfl
  | none => cases F (.ofHead h) d <;> rfl

variable {F} {G : Nat → Nat → Term} {A : Nat → Nat → Prop}

mutual

theorem Head.bind_replace (hit : ∀ u d w, u.Over A → F u d = some w → w.bind G d = u)
    (miss : ∀ i d, F (.rel i) d = none → G d i = .rel i) :
    (h : Head) → (d : Nat) → (Term.ofHead h).Over A → F (.ofHead h) d = none →
      (h.replace F d).bind G d = .ofHead h
  | .rel i, d, _, no => miss i d no
  | .sort _, _, _, _ => rfl
  | .const _, _, _, _ => rfl
  | .hole k xs, d, p, _ => by
    rw [Head.replace_hole, Head.bind, Term.bindAll_replace hit miss xs d (Term.over_hole.1 p).2]
  | .pi a b, d, p, _ => by
    obtain ⟨pa, pb⟩ := Term.over_pi.1 p
    exact congrArg₂ Term.pi (Term.bind_replace hit miss a d pa)
      (Term.bind_replace hit miss b (d + 1) pb)
  | .lam a b, d, p, _ => by
    obtain ⟨pa, pb⟩ := Term.over_lam.1 p
    exact congrArg₂ Term.lam (Term.bind_replace hit miss a d pa)
      (Term.bind_replace hit miss b (d + 1) pb)
  | .letIn v a b, d, p, _ => by
    obtain ⟨pa, pv, pb⟩ := Term.over_letIn.1 p
    have hb := Term.bind_replace hit miss b (d + 1) pb
    change Term.ofHead (.letIn ((v.replace F d).bind G d) ((a.replace F d).bind G d)
      ((b.replace F (d + 1)).bind G (d + 1))) = _
    rw [Term.bind_replace hit miss v d pv, Term.bind_replace hit miss a d pa, hb]
  | .cast t a, d, p, _ => by
    obtain ⟨pa, pt⟩ := Term.over_cast.1 p
    change Term.ofHead (.cast ((t.replace F d).bind G d) ((a.replace F d).bind G d)) = _
    rw [Term.bind_replace hit miss t d pt, Term.bind_replace hit miss a d pa]
  | .case r s bs, d, p, _ => by
    obtain ⟨pr, ps, pbs⟩ := Term.over_case.1 p
    rw [Head.replace_case, Head.bind, Term.bind_replace hit miss r d pr,
      Term.bind_replace hit miss s d ps, Term.bindAll_replace hit miss bs d pbs]
  | .fix i as bs, d, p, _ => by
    obtain ⟨pas, pbs⟩ := Term.over_fix.1 p
    have hbs := Term.bindAll_replace hit miss bs (d + as.length) pbs
    rw [Head.replace_fix, Head.bind, List.length_map, Term.bindAll_replace hit miss as d pas, hbs]

theorem Term.bind_replace_ofHead (hit : ∀ u d w, u.Over A → F u d = some w → w.bind G d = u)
    (miss : ∀ i d, F (.rel i) d = none → G d i = .rel i) (h : Head) (d : Nat)
    (p : (Term.ofHead h).Over A) : ((Term.ofHead h).replace F d).bind G d = .ofHead h := by
  rw [Term.replace_ofHead]
  cases hu : F (.ofHead h) d with
  | some u => exact hit _ d u p hu
  | none =>
    change ((h.replace F d).bind G d).apply [] = _
    rw [Head.bind_replace hit miss h d p hu, Term.apply_nil]

/-- A binding undoes a replacement if it undoes each answer about a term over `A`, and leaves alone
the variables about which there was none. -/
theorem Term.bind_replace (hit : ∀ u d w, u.Over A → F u d = some w → w.bind G d = u)
    (miss : ∀ i d, F (.rel i) d = none → G d i = .rel i) :
    (t : Term) → (d : Nat) → t.Over A → (t.replace F d).bind G d = t
  | .mk h [], d, p => Term.bind_replace_ofHead hit miss h d p
  | .mk h (x :: xs), d, p => by
    rw [Term.replace_mk_cons]
    cases hu : F (.mk h (x :: xs)) d with
    | some u => exact hit _ d u p hu
    | none =>
      obtain ⟨ph, pxs⟩ := Term.over_mk.1 p
      rw [Option.getD_none, Term.bind_apply, Term.bind_replace_ofHead hit miss h d ph,
        Term.bindAll_replace hit miss (x :: xs) d pxs]
      rfl

theorem Term.bindAll_replace (hit : ∀ u d w, u.Over A → F u d = some w → w.bind G d = u)
    (miss : ∀ i d, F (.rel i) d = none → G d i = .rel i) :
    (xs : List Term) → (d : Nat) → (∀ x ∈ xs, x.Over A) →
      Term.bindAll G d (xs.map (·.replace F d)) = xs
  | [], _, _ => rfl
  | x :: xs, d, p => by
    obtain ⟨px, pxs⟩ := List.forall_mem_cons.1 p
    exact congrArg₂ List.cons (Term.bind_replace hit miss x d px)
      (Term.bindAll_replace hit miss xs d pxs)

end

mutual

theorem Head.over_replace {A : Nat → Nat → Prop}
    (hit : ∀ u d w, u.Over A → F u d = some w → w.Over A) :
    (h : Head) → (d : Nat) → (Term.ofHead h).Over A → (Term.ofHead (h.replace F d)).Over A
  | .rel _, _, _ => ⟨trivial, trivial⟩
  | .sort _, _, _ => ⟨trivial, trivial⟩
  | .const _, _, _ => ⟨trivial, trivial⟩
  | .hole k xs, d, p => by
    rw [Term.over_hole] at p
    rw [Head.replace_hole, Term.over_hole, List.length_map]
    exact ⟨p.1, Term.overAll_replace hit xs d p.2⟩
  | .pi a b, d, p => by
    rw [Term.over_pi] at p
    exact Term.over_pi.2 ⟨Term.over_replace hit a d p.1, Term.over_replace hit b (d + 1) p.2⟩
  | .lam a b, d, p => by
    rw [Term.over_lam] at p
    exact Term.over_lam.2 ⟨Term.over_replace hit a d p.1, Term.over_replace hit b (d + 1) p.2⟩
  | .letIn v a b, d, p => by
    rw [Term.over_letIn] at p
    exact Term.over_letIn.2 ⟨Term.over_replace hit a d p.1, Term.over_replace hit v d p.2.1,
      Term.over_replace hit b (d + 1) p.2.2⟩
  | .cast t a, d, p => by
    rw [Term.over_cast] at p
    exact Term.over_cast.2 ⟨Term.over_replace hit a d p.1, Term.over_replace hit t d p.2⟩
  | .case r s bs, d, p => by
    rw [Term.over_case] at p
    rw [Head.replace_case, Term.over_case]
    exact ⟨Term.over_replace hit r d p.1, Term.over_replace hit s d p.2.1,
      Term.overAll_replace hit bs d p.2.2⟩
  | .fix i as bs, d, p => by
    rw [Term.over_fix] at p
    rw [Head.replace_fix, Term.over_fix]
    exact ⟨Term.overAll_replace hit as d p.1, Term.overAll_replace hit bs _ p.2⟩

theorem Term.over_replace_ofHead {A : Nat → Nat → Prop}
    (hit : ∀ u d w, u.Over A → F u d = some w → w.Over A) (h : Head) (d : Nat)
    (p : (Term.ofHead h).Over A) : ((Term.ofHead h).replace F d).Over A := by
  rw [Term.replace_ofHead]
  cases hu : F (.ofHead h) d with
  | some u => exact hit _ d u p hu
  | none => exact Head.over_replace hit h d p

/-- Replacing brings in no holes but those of the answers. -/
theorem Term.over_replace {A : Nat → Nat → Prop}
    (hit : ∀ u d w, u.Over A → F u d = some w → w.Over A) :
    (t : Term) → (d : Nat) → t.Over A → (t.replace F d).Over A
  | .mk h [], d, p => Term.over_replace_ofHead hit h d p
  | .mk h (x :: xs), d, p => by
    rw [Term.replace_mk_cons]
    cases hu : F (.mk h (x :: xs)) d with
    | some u => exact hit _ d u p hu
    | none =>
      rw [Term.over_mk] at p
      exact Term.over_apply.2 ⟨Term.over_replace_ofHead hit h d p.1,
        Term.overAll_replace hit (x :: xs) d p.2⟩

theorem Term.overAll_replace {A : Nat → Nat → Prop}
    (hit : ∀ u d w, u.Over A → F u d = some w → w.Over A) :
    (xs : List Term) → (d : Nat) → (∀ x ∈ xs, x.Over A) → ∀ y ∈ xs.map (·.replace F d), y.Over A
  | [], _, _ => by simp
  | x :: xs, d, p => by
    rw [List.forall_mem_cons] at p
    rw [List.map_cons, List.forall_mem_cons]
    exact ⟨Term.over_replace hit x d p.1, Term.overAll_replace hit xs d p.2⟩

end

end

theorem Term.lastCopyOf?_eq_some {values : List Term} {d i : Nat} {u : Term}
    (h : Term.lastCopyOf? values d u = some i) : ∃ v, values[i]? = some v ∧ v.lift 0 d = u := by
  simp only [Term.lastCopyOf?, Option.map_eq_some_iff] at h
  obtain ⟨⟨v, j⟩, found, rfl⟩ := h
  have copy := List.find?_some found
  have position := List.mem_reverse.1 (List.mem_of_find?_eq_some found)
  exact ⟨v, List.mk_mem_zipIdx_iff_getElem?.1 position, by simpa using copy⟩

/-- Terms that were abstracted are put back, also by a list that agrees with the one abstracted on
the terms that may occur. -/
theorem Term.instantiateMany_abstractTerms_of_agree {A : Nat → Nat → Prop} {t : Term}
    {values values' : List Term} (p : t.Over A) (length : values'.length = values.length)
    (agree : ∀ (i : Nat) (v : Term), values[i]? = some v → v.Over A → values'[i]? = some v) :
    (t.abstractTerms values).instantiateMany values' = t := by
  rw [Term.instantiateMany_eq_bind, Term.abstractTerms]
  refine Term.bind_replace ?_ ?_ t 0 p
  · intro u d w pu hw
    cases hc : Term.lastCopyOf? values d u with
    | some i =>
      obtain ⟨v, hv, rfl⟩ := Term.lastCopyOf?_eq_some hc
      have hv' := agree i v hv (Term.over_of_bind pu)
      simp only [hc, Option.some.injEq] at hw
      subst hw
      simp [Term.putFirst, hv']
    | none =>
      simp only [hc, Option.map_eq_some_iff] at hw
      obtain ⟨i, hi, rfl⟩ := hw
      obtain ⟨g, xs⟩ := u
      cases g <;> cases xs <;> simp only [Term.freeRel?, reduceCtorEq] at hi
      next j =>
        split at hi
        · next hd =>
          obtain rfl := Option.some.inj hi
          have reach : d ≤ j - d + d + values.length := by omega
          have past : values'.length ≤ j - d + d + values.length - d := by omega
          have index : j - d + d + values.length - values'.length = j := by omega
          simp [Term.putFirst, reach, past, index]
        · cases hi
  · intro i d hi
    cases hc : Term.lastCopyOf? values d (.rel i) with
    | some j => simp [hc] at hi
    | none =>
      simp only [hc, Option.map_eq_none_iff, Term.freeRel?, ite_eq_right_iff, reduceCtorEq,
        imp_false] at hi
      simp [Term.putFirst, hi]

/-- Terms that were abstracted are put back. -/
theorem Term.instantiateMany_abstractTerms (t : Term) (values : List Term) :
    (t.abstractTerms values).instantiateMany values = t :=
  Term.instantiateMany_abstractTerms_of_agree (A := fun _ _ => True)
    (Term.over_holes.2 fun _ _ => trivial) rfl fun _ _ hv _ => hv

/-! ## Holes under substitution -/

section
variable {A : Nat → Nat → Prop} {t : Term}

theorem Term.over_lift {c n : Nat} (p : t.Over A) : (t.lift c n).Over A :=
  Term.over_bind p fun d i => by split <;> exact Term.over_rel _

theorem Term.over_lower? {u : Term} {c n : Nat} (p : t.Over A) (h : t.lower? c n = some u) :
    u.Over A := by
  unfold Term.lower? at h
  split at h
  · cases h
  · obtain rfl := Option.some.inj h
    exact Term.over_bind p fun d i => by split <;> exact Term.over_rel _

theorem Term.over_putFirst {values : List Term} (hv : ∀ v ∈ values, v.Over A) (d i : Nat) :
    (Term.putFirst values d i).Over A := by
  unfold Term.putFirst
  split
  · split
    · next hi => exact Term.over_lift (hv _ (List.mem_of_getElem? hi))
    · exact Term.over_rel _
  · exact Term.over_rel _

theorem Term.over_instantiateMany {values : List Term} (p : t.Over A)
    (hv : ∀ v ∈ values, v.Over A) : (t.instantiateMany values).Over A := by
  rw [Term.instantiateMany_eq_bind]
  exact Term.over_bind p (Term.over_putFirst hv)

theorem Term.over_instantiate {x : Term} (p : t.Over A) (hx : x.Over A) :
    (t.instantiate x).Over A :=
  Term.over_instantiateMany p (by simpa using hx)

theorem Term.over_betaApply {xs : List Term} (p : t.Over A) (hxs : ∀ x ∈ xs, x.Over A) :
    (t.betaApply xs).Over A := by
  induction xs generalizing t with
  | nil => simpa [Term.betaApply] using p
  | cons x xs ih =>
    rw [List.forall_mem_cons] at hxs
    unfold Term.betaApply
    split
    · next body => exact p
    · next heq =>
      obtain ⟨rfl, rfl⟩ := List.cons.inj heq
      exact ih (Term.over_instantiate (Term.over_lam.1 p).2 hxs.1) hxs.2
    · next heq =>
      obtain ⟨rfl, rfl⟩ := List.cons.inj heq
      exact Term.over_apply.2 ⟨p, List.forall_mem_cons.2 hxs⟩

theorem Term.over_abstractRels? {v : Term} {vars : List Nat} (p : t.Over A)
    (h : t.abstractRels? vars = some v) : v.Over A := by
  unfold Term.abstractRels? at h
  split at h
  · obtain rfl := Option.some.inj h
    exact Term.over_bind p fun d i => by split <;> exact Term.over_rel _
  · cases h

theorem Term.over_abstractTerms {values : List Term} (p : t.Over A) :
    (t.abstractTerms values).Over A := by
  refine Term.over_replace (fun u d w _ hw => ?_) t 0 p
  split at hw
  · obtain rfl := Option.some.inj hw
    exact Term.over_rel _
  · obtain ⟨i, _, rfl⟩ := Option.map_eq_some_iff.1 hw
    exact Term.over_rel _

end

/-! ## Scopes under substitution -/

section
variable {n : Nat} {t : Term}

theorem Term.scoped_lift (p : t.Scoped n) (e : Nat) :
    (t.lift 0 e).Every (fun d i => i < d + n) (fun _ _ => True) e := by
  rw [Term.every_scoped]
  refine Term.every_bind (fun d i hi => ?_) t 0 p
  split <;> simp only [Term.Every, Head.Every, Term.EveryAll, and_true] <;> omega

/-- Terms within a scope are put for the first variables of a term. -/
theorem Term.scoped_instantiateMany {values : List Term} (p : t.Scoped (values.length + n))
    (hv : ∀ v ∈ values, v.Scoped n) : (t.instantiateMany values).Scoped n := by
  rw [Term.instantiateMany_eq_bind]
  refine Term.every_bind (fun d i hi => ?_) t 0 p
  unfold Term.putFirst
  split
  · next free =>
    split
    · next v found => exact Term.scoped_lift (hv v (List.mem_of_getElem? found)) d
    · next past =>
      have := List.getElem?_eq_none_iff.1 past
      simp only [Term.Every, Head.Every, Term.EveryAll, and_true]
      omega
  · simp only [Term.Every, Head.Every, Term.EveryAll, and_true]
    omega

theorem Term.scoped_instantiate {x : Term} (p : t.Scoped (1 + n)) (hx : x.Scoped n) :
    (t.instantiate x).Scoped n :=
  Term.scoped_instantiateMany (by simpa using p) (by simpa using hx)

theorem Term.scoped_betaApply {xs : List Term} (p : t.Scoped n) (hxs : ∀ x ∈ xs, x.Scoped n) :
    (t.betaApply xs).Scoped n := by
  induction xs generalizing t with
  | nil => simpa [Term.betaApply] using p
  | cons x xs ih =>
    rw [List.forall_mem_cons] at hxs
    unfold Term.betaApply
    split
    · exact p
    · next heq =>
      obtain ⟨rfl, rfl⟩ := List.cons.inj heq
      exact ih (Term.scoped_instantiate (Term.scoped_lam.1 p).2 hxs.1) hxs.2
    · next heq =>
      obtain ⟨rfl, rfl⟩ := List.cons.inj heq
      exact Term.scoped_apply.2 ⟨p, List.forall_mem_cons.2 hxs⟩

end

end KeyedMatching
