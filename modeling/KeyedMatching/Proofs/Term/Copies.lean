import KeyedMatching.Proofs.Term.Binding

/-!
# Copies of a term

A term that has been moved under binders is a copy of what it was.

* `Term.lift_mk`: a copy has the head and the arguments of the term, each of them moved;
* `Term.eq_of_lift_eq`: different terms have different copies;
* `Term.lower?_lift`: a copy can be moved back;
* `Term.IsCopy`: a node is a copy of a term, or has one as a prefix.
-/

namespace KeyedMatching

/-! ## Lifting, part by part -/

/-- Make room for `n` more variables at position `c`, in a head. -/
def Head.lift (h : Head) (c n : Nat) : Head :=
  ((Term.ofHead h).lift c n).head

section
variable (c n : Nat)

@[simp] theorem Head.lift_rel (i : Nat) :
    (Head.rel i).lift c n = .rel (if c ≤ i then i + n else i) := by
  unfold Head.lift Term.lift
  rw [Term.bind_var]
  split <;> rfl

@[simp] theorem Head.lift_sort (i : Nat) : (Head.sort i).lift c n = .sort i := rfl

@[simp] theorem Head.lift_const (k : String) : (Head.const k).lift c n = .const k := rfl

@[simp] theorem Head.lift_hole (k : Nat) (xs : List Term) :
    (Head.hole k xs).lift c n = .hole k (xs.map (·.lift c n)) :=
  congrArg (Head.hole k) (Term.bindAll_eq_map _ c xs)

@[simp] theorem Head.lift_pi (a b : Term) :
    (Head.pi a b).lift c n = .pi (a.lift c n) (b.lift (c + 1) n) := rfl

@[simp] theorem Head.lift_lam (a b : Term) :
    (Head.lam a b).lift c n = .lam (a.lift c n) (b.lift (c + 1) n) := rfl

@[simp] theorem Head.lift_letIn (v a b : Term) :
    (Head.letIn v a b).lift c n = .letIn (v.lift c n) (a.lift c n) (b.lift (c + 1) n) := rfl

@[simp] theorem Head.lift_cast (t a : Term) :
    (Head.cast t a).lift c n = .cast (t.lift c n) (a.lift c n) := rfl

@[simp] theorem Head.lift_case (r s : Term) (bs : List Term) :
    (Head.case r s bs).lift c n = .case (r.lift c n) (s.lift c n) (bs.map (·.lift c n)) :=
  congrArg (Head.case (r.lift c n) (s.lift c n)) (Term.bindAll_eq_map _ c bs)

@[simp] theorem Head.lift_fix (i : Nat) (as bs : List Term) :
    (Head.fix i as bs).lift c n =
      .fix i (as.map (·.lift c n)) (bs.map (·.lift (c + as.length) n)) :=
  congrArg₂ (Head.fix i) (Term.bindAll_eq_map _ c as) (Term.bindAll_eq_map _ (c + as.length) bs)

theorem Term.lift_ofHead (h : Head) : (Term.ofHead h).lift c n = .ofHead (h.lift c n) := by
  cases h with
  | rel i =>
    rw [Head.lift_rel, Term.lift, Term.bind_var]
    split <;> rfl
  | _ => rfl

/-- Lifting acts on the head and on every argument. -/
theorem Term.lift_mk (h : Head) (xs : List Term) :
    (Term.mk h xs).lift c n = .mk (h.lift c n) (xs.map (·.lift c n)) := by
  have spine := Term.bind_apply (fun d i => if d ≤ i then Term.rel (i + n) else .rel i) c
    (Term.ofHead h) xs
  rw [Term.bindAll_eq_map] at spine
  change (Term.mk h xs).lift c n = ((Term.ofHead h).lift c n).apply _ at spine
  rw [spine, Term.lift_ofHead]
  rfl

@[simp] theorem Term.head_lift (t : Term) : (t.lift c n).head = t.head.lift c n := by
  cases t
  rw [Term.lift_mk]
  rfl

@[simp] theorem Term.args_lift (t : Term) : (t.lift c n).args = t.args.map (·.lift c n) := by
  cases t
  rw [Term.lift_mk]
  rfl

@[simp] theorem Head.shape_lift (h : Head) : (h.lift c n).shape = h.shape := by
  cases h <;> simp [Head.shape]

@[simp] theorem Term.lift_zero (t : Term) : t.lift c 0 = t := by
  unfold Term.lift
  simp only [Nat.add_zero, ite_self, Term.bind_rel]

end

section
variable {c n : Nat}

/-- The variables that room was made for do not occur. -/
theorem Head.lift_ne_rel (h : Head) {i : Nat} (past : c ≤ i) (room : i < c + n) :
    h.lift c n ≠ .rel i := by
  cases h with
  | rel j =>
    rw [Head.lift_rel]
    intro same
    have := Head.rel.inj same
    split at this <;> omega
  | _ => simp

/-- Lowering undoes lifting. -/
theorem Term.lower?_lift (t : Term) (c n : Nat) : (t.lift c n).lower? c n = some t := by
  have everywhere : t.Every (fun _ _ => True) (fun _ _ => True) c :=
    (Term.freeRels_every t c).mono (fun _ _ _ => trivial) fun _ _ q => q
  have clear : (t.lift c n).Every (fun d i => ¬ (d ≤ i ∧ i < d + n)) (fun _ _ => True) c := by
    refine Term.every_bind (fun d i _ => ?_) t c everywhere
    by_cases free : d ≤ i
    · simp [free, Term.Every, Head.Every, Term.EveryAll]
    · simp [free, Term.Every, Head.Every, Term.EveryAll]
  have shift := Term.every_shift (v := fun d i => ¬ (d ≤ i ∧ i < d + n)) (h := fun _ _ => True) c
    (t.lift c n) 0
  rw [Nat.zero_add] at shift
  have untouched : ∀ i ∈ (t.lift c n).freeRels, ¬ (c ≤ i ∧ i < c + n) := by
    refine Term.forall_freeRels.2 ((shift.1 clear).mono (fun d i q free => ?_) fun _ _ q => q)
    omega
  have back : (t.lift c n).bind (fun d i => if d + n ≤ i then .rel (i - n) else .rel i) c = t := by
    refine Term.bind_bind_eq_self (everywhere.mono (fun d i _ => ?_) fun _ _ q => q)
    by_cases free : d ≤ i
    · simp [free]
    · have low : ¬ d + n ≤ i := by omega
      simp [free, low]
  unfold Term.lower?
  rw [if_neg, back]
  simpa using untouched

/-- Different terms have different copies. -/
theorem Term.eq_of_lift_eq {t u : Term} (h : t.lift c n = u.lift c n) : t = u := by
  have lowered := Term.lower?_lift t c n
  rw [h, Term.lower?_lift] at lowered
  exact (Option.some.inj lowered).symm

theorem Term.lift_inj {t u : Term} : t.lift c n = u.lift c n ↔ t = u :=
  ⟨Term.eq_of_lift_eq, fun same => by rw [same]⟩

theorem Head.lift_inj {h g : Head} : h.lift c n = g.lift c n ↔ h = g := by
  refine ⟨fun same => ?_, fun same => by rw [same]⟩
  have heads : Term.ofHead h = .ofHead g := by
    apply Term.eq_of_lift_eq (c := c) (n := n)
    rw [Term.lift_ofHead, Term.lift_ofHead, same]
  exact congrArg Term.head heads

end

/-! ## Copies at a node -/

/-- A node under `d` binders is a copy of `t`, or has one as a prefix of its spine. The head of an
application is a node of its own, so a copy without arguments is looked for only there. -/
def Term.IsCopy (t : Term) (d : Nat) (u : Term) : Prop :=
  Term.mk u.head (u.args.take t.args.length) = t.lift 0 d ∧ (t.args = [] → u.args = [])

instance (t : Term) (d : Nat) (u : Term) : Decidable (t.IsCopy d u) :=
  inferInstanceAs (Decidable (_ ∧ _))

section
variable {t u : Term} {d : Nat}

theorem Term.isCopy_of_prefix {m : Nat} (h : Term.mk u.head (u.args.take m) = t.lift 0 d)
    (bare : t.args = [] → u.args = []) : t.IsCopy d u := by
  refine ⟨?_, bare⟩
  have args : u.args.take m = t.args.map (·.lift 0 d) := by
    rw [← Term.args_lift, ← h]
    rfl
  have len : t.args.length = min m u.args.length := by
    rw [← List.length_map (·.lift 0 d), ← args, List.length_take]
  rw [len, ← h]
  congr 1
  rw [← List.take_eq_take_min]

theorem Term.IsCopy.head (h : t.IsCopy d u) : u.head = t.head.lift 0 d := by
  rw [← Term.head_lift, ← h.1]
  rfl

theorem Term.IsCopy.length_le (h : t.IsCopy d u) : t.args.length ≤ u.args.length := by
  have args : u.args.take t.args.length = (t.lift 0 d).args := by
    rw [← h.1]
    rfl
  have len := congrArg List.length args
  rw [List.length_take, Term.args_lift, List.length_map] at len
  omega

end

end KeyedMatching
