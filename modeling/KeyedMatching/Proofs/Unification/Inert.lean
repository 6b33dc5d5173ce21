import KeyedMatching.Proofs.Term.Inert
import KeyedMatching.Proofs.Unification.Rules

/-!
# Unifying inert terms

Where no constant is defined and none has a canonical form, an inert term is in normal form, and to
unify two inert terms is to compare them.

* `whnf?_of_isInert`: reduction leaves an inert term as it is;
* `Unify.compares_step`: comparing the parts of two terms is comparing the terms;
* `unify?_of_isInert`: unification succeeds on the same inert term, without a change, and fails on
  different ones. It recurses no deeper than there are constructions in the term;
* `unify?_of_clash`: two terms with different constants at one place never unify, whatever holes
  there are at other places.
-/

namespace KeyedMatching

/-- No constant has a body or a canonical form. -/
structure Signature.Plain (g : Signature) : Prop where
  definitions : g.definitions = []
  canonicals : g.canonicals = []

section
variable {g : Signature}

theorem Signature.Plain.definition? (plain : g.Plain) (c : String) : g.definition? c = none := by
  simp [Signature.definition?, plain.definitions]

theorem Signature.Plain.canonical? (plain : g.Plain) (p c : String) : g.canonical? p c = none := by
  simp [Signature.canonical?, plain.canonicals]

theorem Signature.Plain.unfoldHead? (plain : g.Plain) (t : Term) : unfoldHead? g t = none := by
  unfold KeyedMatching.unfoldHead?
  split
  · rw [plain.definition?]
    rfl
  · rfl

/-! ## Reduction -/

theorem whnfStep_of_isInert (plain : g.Plain) {s : Store} {flags : Reductions} {h : Head}
    (inert : h.isInert = true) (again : Term → Nat → Option (Term × Nat)) (fuel : Nat) :
    whnfStep g s flags again (.ofHead h) fuel = some (.ofHead h, fuel) := by
  cases h with
  | const c => simp [whnfStep, plain.definition?]
  | hole k xs => cases inert
  | letIn v a b => cases inert
  | cast t a => cases inert
  | _ => rfl

theorem whnfWithin_of_head (plain : g.Plain) {s : Store} {flags : Reductions} {h : Head}
    {xs : List Term} (head : h.isInert = true) (unapplied : h.shape = .lam → xs = [])
    (n fuel : Nat) :
    whnfWithin g s flags (n + 2) (.mk h xs) fuel = some (.mk h xs, fuel) := by
  cases xs with
  | nil => exact whnfStep_of_isInert plain head _ fuel
  | cons x xs =>
    have applied : (Term.ofHead h).isLam = false := by
      cases h with
      | lam a b => cases unapplied rfl
      | _ => rfl
    have first : whnfWithin g s flags (n + 1) (.ofHead h) fuel = some (.ofHead h, fuel) :=
      whnfStep_of_isInert plain head _ fuel
    rw [whnfWithin, whnfStep, first, Option.bind_eq_bind, Option.bind_some]
    simp [applied, Term.apply]

/-- Reduction leaves a term as it is whose head is inert. -/
theorem whnf?_of_head {cx : Context} (plain : cx.signature.Plain) (deep : 2 ≤ cx.depth) {s : Store}
    {h : Head} {xs : List Term} (head : h.isInert = true) (unapplied : h.shape = .lam → xs = [])
    (flags : Reductions) : whnf? cx s (.mk h xs) flags = some (.mk h xs) := by
  obtain ⟨n, hn⟩ := Nat.exists_eq_add_of_le' deep
  rw [whnf?, hn, whnfWithin_of_head plain head unapplied]
  rfl

/-- Reduction leaves an inert term as it is. -/
theorem whnf?_of_isInert {cx : Context} (plain : cx.signature.Plain) (deep : 2 ≤ cx.depth)
    {s : Store} {t : Term} (inert : t.isInert = true) (flags : Reductions) :
    whnf? cx s t flags = some t := by
  obtain ⟨h, xs⟩ := t
  obtain ⟨head, unapplied, _⟩ := Term.isInert_mk.1 inert
  exact whnf?_of_head plain deep head unapplied flags

end

/-! ## Comparison -/

namespace Unify

/-- Go on with the store as it is, if the condition holds. -/
def check (s : Store) (p : Prop) [Decidable p] : Attempt Store :=
  if p then pure s else failure

section
variable {s : Store} {p q : Prop} [Decidable p] [Decidable q]

/-- One condition after another. -/
theorem check_bind {f : Store → Attempt Store} (h : f s = check s q) :
    (check s p >>= f) = check s (p ∧ q) := by
  by_cases hp : p
  · have both : p ∧ q ↔ q := and_iff_right hp
    calc (check s p >>= f) = (pure s >>= f) := by rw [check, if_pos hp]
      _ = check s q := h
      _ = check s (p ∧ q) := by simp only [check, both]
  · have neither : ¬ (p ∧ q) := fun both => hp both.1
    rw [check, if_neg hp, check, if_neg neither]
    rfl

theorem check_congr (h : p ↔ q) : check s p = check s q := by
  unfold check
  simp only [h]

end

/-- Where `again` is asked about `a` and an inert term, it compares them. -/
def Compares (again : Store → Term → Term → Attempt Store) (s : Store) (a : Term) : Prop :=
  ∀ b, b.isInert = true → again s a b = check s (a = b)

section
variable {again : Store → Term → Term → Attempt Store} {s : Store}

theorem pairs_of_compares {xs ys : List Term} (hagain : ∀ x ∈ xs, Compares again s x)
    (inert : ∀ y ∈ ys, y.isInert = true) (len : xs.length = ys.length) :
    pairs again s xs ys = check s (xs = ys) := by
  induction xs generalizing ys with
  | nil =>
    obtain rfl := List.length_eq_zero_iff.1 len.symm
    rfl
  | cons x xs ih =>
    cases ys with
    | nil => cases len
    | cons y ys =>
      obtain ⟨hx, hxs⟩ := List.forall_mem_cons.1 hagain
      obtain ⟨hy, hys⟩ := List.forall_mem_cons.1 inert
      rw [pairs, hx y hy, check_bind (ih hxs hys (Nat.succ.inj len))]
      exact check_congr List.cons_eq_cons.symm

theorem all_of_compares {xs ys : List Term} (hagain : ∀ x ∈ xs, Compares again s x)
    (inert : ∀ y ∈ ys, y.isInert = true) : all again s xs ys = check s (xs = ys) := by
  unfold all
  split
  · next len => exact pairs_of_compares hagain inert len
  · next len =>
    have different : xs ≠ ys := fun same => len (congrArg List.length same)
    exact (if_neg different).symm

/-- Heads are compared child by child. -/
theorem heads_of_compares {f g : Head} (hagain : ∀ c ∈ f.children, Compares again s c.1)
    (hf : f.isInert = true) (hg : g.isInert = true) : heads again s f g = check s (f = g) := by
  cases f with
  | rel i =>
    cases g with
    | rel j => exact check_congr (Head.rel.injEq i j ▸ Iff.rfl)
    | _ => exact (if_neg fun same => by cases same).symm
  | sort m =>
    cases g with
    | sort n => exact check_congr (Head.sort.injEq m n ▸ Iff.rfl)
    | _ => exact (if_neg fun same => by cases same).symm
  | const c =>
    cases g with
    | const d => exact check_congr (Head.const.injEq c d ▸ Iff.rfl)
    | _ => exact (if_neg fun same => by cases same).symm
  | hole k xs => cases hf
  | pi a b =>
    cases g with
    | pi c d =>
      obtain ⟨ha, hb, -⟩ := by simpa only [Head.children, List.forall_mem_cons] using hagain
      obtain ⟨hc, hd⟩ := Bool.and_eq_true_iff.1 hg
      rw [heads, ha c hc, check_bind (hb d hd)]
      exact check_congr (by rw [Head.pi.injEq])
    | _ => exact (if_neg fun same => by cases same).symm
  | lam a b =>
    cases g with
    | lam c d =>
      obtain ⟨ha, hb, -⟩ := by simpa only [Head.children, List.forall_mem_cons] using hagain
      obtain ⟨hc, hd⟩ := Bool.and_eq_true_iff.1 hg
      rw [heads, ha c hc, check_bind (hb d hd)]
      exact check_congr (by rw [Head.lam.injEq])
    | _ => exact (if_neg fun same => by cases same).symm
  | letIn v a b => cases hf
  | cast t a => cases hf
  | case r t bs =>
    cases g with
    | case q u cs =>
      obtain ⟨hr, ht, hbs⟩ := by simpa only [Head.children, List.forall_mem_cons,
        List.forall_mem_map] using hagain
      obtain ⟨front, hcs⟩ := Bool.and_eq_true_iff.1 hg
      obtain ⟨hq, hu⟩ := Bool.and_eq_true_iff.1 front
      have branches := all_of_compares hbs (Term.areInert_iff.1 hcs)
      have rest : (again s t u >>= fun s => all again s bs cs) = check s (t = u ∧ bs = cs) := by
        rw [ht u hu, check_bind branches]
      rw [heads, hr q hq, check_bind rest]
      exact check_congr (by rw [Head.case.injEq])
    | _ => exact (if_neg fun same => by cases same).symm
  | fix i as bs =>
    cases g with
    | fix j cs ds =>
      obtain ⟨has, hbs⟩ := by simpa only [Head.children, List.forall_mem_append,
        List.forall_mem_map] using hagain
      obtain ⟨hcs, hds⟩ := Bool.and_eq_true_iff.1 hg
      have bodies := all_of_compares hbs (Term.areInert_iff.1 hds)
      by_cases same : i = j
      · rw [heads, if_pos same, all_of_compares has (Term.areInert_iff.1 hcs), check_bind bodies]
        exact check_congr (by rw [Head.fix.injEq, and_iff_right same])
      · rw [heads, if_neg same]
        exact (if_neg fun equal => same (Head.fix.inj equal).1).symm
    | _ => exact (if_neg fun same => by cases same).symm

/-- Two applications are compared from their last arguments on. -/
theorem spines_of_compares {f g : Head} {xs ys : List Term} (hxs : xs ≠ []) (hys : ys ≠ [])
    (hagain : ∀ a : Term, a.size < (Term.mk f xs).size → a.isInert = true → Compares again s a)
    (hf : (Term.mk f xs).isInert = true) (hg : (Term.mk g ys).isInert = true) :
    spines again s f xs g ys = check s (Term.mk f xs = .mk g ys) := by
  have some_left := List.length_pos_iff.2 hxs
  have some_right := List.length_pos_iff.2 hys
  obtain ⟨_, _, left⟩ := Term.isInert_mk.1 hf
  obtain ⟨_, _, right⟩ := Term.isInert_mk.1 hg
  let n := xs.length - ys.length
  let m := ys.length - xs.length
  have small {x : Term} (hx : x ∈ xs) : x.size < (Term.mk f xs).size := by
    have head := f.size_pos
    have arg := Term.size_le_sizes hx
    rw [Term.size]
    omega
  have front : again s (.mk f (xs.take n)) (.mk g (ys.take m)) =
      check s (Term.mk f (xs.take n) = .mk g (ys.take m)) := by
    have less : Term.sizes (xs.take n) < Term.sizes xs := Term.sizes_take_lt (by omega)
    have shorter : (Term.mk f (xs.take n)).size < (Term.mk f xs).size := by
      rw [Term.size, Term.size]
      omega
    exact hagain _ shorter (Term.isInert_prefix hf n) _ (Term.isInert_prefix hg m)
  have back : all again s (xs.drop n) (ys.drop m) = check s (xs.drop n = ys.drop m) := by
    refine all_of_compares (fun x hx => ?_) fun y hy => right y (List.mem_of_mem_drop hy)
    have listed := List.mem_of_mem_drop hx
    exact hagain x (small listed) (left x listed)
  rw [spines, front, check_bind back]
  refine check_congr ⟨fun ⟨same, rest⟩ => ?_, fun same => ?_⟩
  · obtain ⟨rfl, first⟩ := Term.mk.inj same
    rw [← List.take_append_drop n xs, first, rest, List.take_append_drop]
  · obtain ⟨rfl, rfl⟩ := Term.mk.inj same
    exact ⟨rfl, rfl⟩

/-- Terms of the same construction are compared, and different constructions fail. -/
theorem tops_of_compares {a b : Term}
    (hagain : ∀ a' : Term, a'.size < a.size → a'.isInert = true → Compares again s a')
    (ha : a.isInert = true) (hb : b.isInert = true) : tops again s a b = check s (a = b) := by
  obtain ⟨f, xs⟩ := a
  obtain ⟨g, ys⟩ := b
  cases xs with
  | nil =>
    cases ys with
    | nil =>
      rw [Term.isInert_ofHead] at ha hb
      have inside : ∀ c ∈ f.children, Compares again s c.1 := fun c hc =>
        hagain c.1 (f.size_child c hc) (Head.isInert_child ha c hc)
      rw [tops, heads_of_compares inside ha hb]
      exact check_congr ⟨congrArg Term.ofHead, congrArg Term.head⟩
    | cons y ys => exact (if_neg fun same => by cases same).symm
  | cons x xs =>
    cases ys with
    | nil => exact (if_neg fun same => by cases same).symm
    | cons y ys =>
      exact spines_of_compares (List.cons_ne_nil x xs) (List.cons_ne_nil y ys) hagain ha hb

end

/-! ## Unification -/

section
variable {cx : Context} {mode : UnifyMode} {s : Store}

theorem canonical_of_plain (plain : cx.signature.Plain)
    (again : Store → Term → Term → Attempt Store) (a b : Term) :
    canonical cx again s a b = failure := by
  unfold canonical
  split
  · split
    · next known => cases (plain.canonical? _ _).symm.trans known
    · rfl
  · rfl

theorem unfold_of_plain (plain : cx.signature.Plain)
    (again : Store → Term → Term → Attempt Store) (a b : Term) :
    unfold cx again s a b = failure := by
  unfold Unify.unfold
  simp only [plain.unfoldHead?, ite_self]
  rfl

theorem assignable?_of_isInert {a : Term} (inert : a.isInert = true) : s.assignable? a = none := by
  unfold Store.assignable?
  split
  · cases inert
  · rfl

theorem isFlexible_of_isInert {a : Term} (inert : a.isInert = true) : s.isFlexible a = false := by
  obtain ⟨h, xs⟩ := a
  obtain ⟨head, _⟩ := Term.isInert_mk.1 inert
  cases h with
  | hole k inst => cases head
  | _ => rfl

/-- Comparing the parts of two terms is comparing the terms. -/
theorem compares_step {again : Store → Term → Term → Attempt Store}
    (plain : cx.signature.Plain) (deep : 2 ≤ cx.depth) {a : Term} (ha : a.isInert = true)
    (hagain : ∀ a' : Term, a'.size < a.size → a'.isInert = true → Compares again s a') :
    Compares (step cx mode again) s a := by
  intro b hb
  by_cases same : a = b
  · rw [step, if_pos same, check, if_pos same]
  -- Neither reduction nor any alternative to comparing the tops has anything to offer.
  · have distinct : tops again s a b = failure := by
      rw [tops_of_compares hagain ha hb, check, if_neg same]
    rw [step, if_neg same, whnf?_of_isInert plain deep ha, whnf?_of_isInert plain deep hb]
    change (if a = b then (pure s : Attempt Store) else _) = _
    rw [if_neg same, check, if_neg same]
    rw [assignable?_of_isInert ha, assignable?_of_isInert hb]
    dsimp only
    rw [distinct, canonical_of_plain plain, canonical_of_plain plain, unfold_of_plain plain,
      isFlexible_of_isInert ha, isFlexible_of_isInert hb, ite_self]
    rfl

/-- Unification that recurses further than there are constructions in the term. -/
theorem compares_within (plain : cx.signature.Plain) (deep : 2 ≤ cx.depth) {n : Nat} {a : Term}
    (ha : a.isInert = true) (small : a.size < n) : Compares (within cx mode n) s a := by
  induction n generalizing a with
  | zero => exact absurd small (Nat.not_lt_zero _)
  | succ n ih =>
    refine compares_step plain deep ha fun a' less ha' => ih ha' ?_
    omega

/-! ## Clashes -/

/-- At some place that only constants stand above, applied to equally many arguments, the terms have
different constants. -/
inductive Clash : Term → Term → Prop
  | const {c d : String} {xs ys : List Term} : c ≠ d → Clash (.mk (.const c) xs) (.mk (.const d) ys)
  | argument {c d : String} {xs ys : List Term} {i : Nat} {x y : Term} : xs.length = ys.length →
      xs[i]? = some x → ys[i]? = some y → Clash x y → Clash (.mk (.const c) xs) (.mk (.const d) ys)

theorem Clash.ne {a b : Term} (h : Clash a b) : a ≠ b := by
  induction h with
  | const other => simp [other]
  | argument _ hx hy _ ih =>
    rintro ⟨⟩
    exact ih (Option.some.inj (hx.symm.trans hy))

section
variable {again : Store → Term → Term → Attempt Store}

/-- What clashes is never made equal. -/
abbrev Refuses (again : Store → Term → Term → Attempt Store) : Prop :=
  ∀ s a b, Clash a b → (again s a b).Ensures fun _ => False

theorem pairs_refuses (hagain : Refuses again) {xs ys : List Term} {i : Nat} {x y : Term}
    (hx : xs[i]? = some x) (hy : ys[i]? = some y) (clash : Clash x y) (s : Store) :
    (pairs again s xs ys).Ensures fun _ => False := by
  induction xs generalizing ys i s with
  | nil => cases hx
  | cons x' xs ih =>
    cases ys with
    | nil => cases hy
    | cons y' ys =>
      cases i with
      | zero =>
        obtain rfl := Option.some.inj hx
        obtain rfl := Option.some.inj hy
        exact OptionT.ensures_bind (hagain s x' y' clash) fun _ => False.elim
      | succ i => exact OptionT.ensures_bind OptionT.ensures_true fun s _ => ih hx hy s

theorem tops_refuses (hagain : Refuses again) {a b : Term} (clash : Clash a b) (s : Store) :
    (tops again s a b).Ensures fun _ => False := by
  cases clash with
  | @const c d xs ys other =>
    cases xs with
    | nil =>
      cases ys with
      | nil =>
        rw [tops, heads, if_neg other]
        exact OptionT.ensures_failure
      | cons y ys => exact OptionT.ensures_failure
    | cons x xs =>
      cases ys with
      | nil => exact OptionT.ensures_failure
      | cons y ys => exact OptionT.ensures_bind (hagain s _ _ (.const other)) fun _ => False.elim
  | @argument c d xs ys i x' y' same hx hy clash =>
    cases xs with
    | nil => cases hx
    | cons x xs =>
      cases ys with
      | nil => cases hy
      | cons y ys =>
        refine OptionT.ensures_bind OptionT.ensures_true fun s _ => ?_
        rw [same, Nat.sub_self, List.drop_zero, List.drop_zero, all, if_pos same]
        exact pairs_refuses hagain hx hy clash s

theorem step_refuses (plain : cx.signature.Plain) (deep : 2 ≤ cx.depth) (hagain : Refuses again) :
    Refuses (step cx mode again) := by
  intro s a b clash
  obtain ⟨c, d, xs, ys, rfl, rfl⟩ :
      ∃ c d xs ys, a = .mk (.const c) xs ∧ b = .mk (.const d) ys := by
    cases clash <;> exact ⟨_, _, _, _, rfl, rfl⟩
  have assignable (c : String) (xs : List Term) : s.assignable? (.mk (.const c) xs) = none := rfl
  rw [step, if_neg clash.ne, whnf?_of_head plain deep rfl (fun lam => by cases lam),
    whnf?_of_head plain deep rfl (fun lam => by cases lam)]
  refine OptionT.ensures_bind (Attempt.ensures_ofAnswer (o := some _)) fun a ha => ?_
  refine OptionT.ensures_bind (Attempt.ensures_ofAnswer (o := some _)) fun b hb => ?_
  obtain rfl := Option.some.inj ha
  obtain rfl := Option.some.inj hb
  rw [if_neg clash.ne]
  simp only [assignable, canonical_of_plain plain, unfold_of_plain plain, ite_self]
  refine OptionT.ensures_orElse (tops_refuses hagain clash s) ?_
  refine OptionT.ensures_orElse OptionT.ensures_failure ?_
  refine OptionT.ensures_orElse OptionT.ensures_failure ?_
  exact OptionT.ensures_orElse OptionT.ensures_failure OptionT.ensures_failure

theorem within_refuses (plain : cx.signature.Plain) (deep : 2 ≤ cx.depth) (n : Nat) :
    Refuses (within cx mode n) := by
  induction n with
  | zero => exact fun _ _ _ _ _ _ _ h => by cases h
  | succ n ih => exact step_refuses plain deep ih

end

end

end Unify

section
variable {cx : Context} {a b : Term}

/-- Terms that clash never unify. -/
theorem unify?_of_clash (plain : cx.signature.Plain) (deep : 2 ≤ cx.depth) (clash : Unify.Clash a b)
    (mode : UnifyMode) (s s' : Store) : unify? cx mode s a b ≠ some (some s') :=
  Unify.ensures_of_run (Unify.within_refuses plain deep cx.depth s a b clash)

/-- To unify inert terms is to compare them. -/
theorem unify?_of_isInert (plain : cx.signature.Plain) (small : a.size < cx.depth)
    (ha : a.isInert = true) (hb : b.isInert = true) (mode : UnifyMode) (s : Store) :
    unify? cx mode s a b = some (if a = b then some s else none) := by
  have deep : 2 ≤ cx.depth := Nat.lt_of_le_of_lt a.size_pos small
  rw [unify?, Unify.compares_within plain deep ha small b hb, Unify.run, Unify.check]
  split
  · rfl
  · rfl

end

end KeyedMatching
