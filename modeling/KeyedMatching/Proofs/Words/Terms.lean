import KeyedMatching.Proofs.Term.ByNodes
import KeyedMatching.Words.Terms

/-!
# Words suffice for terms

With free variables that are small enough, an operation in words comes to what the unbounded one
comes to, unless there are too many binders inside one another.

* `Agrees x y`: that is how the computation `x` in words and the unbounded `y` come out;
* `Term.Accepted A p t`: the free variables of a term at the place `p` are, outside of all binders,
  up to `maxFreeIndex`;
* `Term.agrees_liftWords`, `Term.agrees_lowerWords`, `Term.agrees_instantiateManyWords`,
  `Term.agrees_betaApplyWords`: the operations on such terms.

The bound is that the place and the largest free variable together are a word: `nestingBound` and
`maxFreeIndex` are both below half of the words.
-/

namespace KeyedMatching

section
variable {α β : Type}

/-- The computation in words comes to what the unbounded one comes to, or halts because there are
too many binders inside one another. -/
def Agrees (x : Words α) (y : Option α) : Prop :=
  x = ExceptT.lift y ∨ x = throw .nested

namespace Agrees

theorem lift (y : Option α) : Agrees (ExceptT.lift y) y :=
  .inl rfl

theorem pure (a : α) : Agrees (Pure.pure a) (some a) :=
  .inl rfl

theorem bind {x : Words α} {y : Option α} {f : α → Words β} {g : α → Option β} (h : Agrees x y)
    (next : ∀ a, y = some a → Agrees (f a) (g a)) : Agrees (x >>= f) (y >>= g) := by
  rcases h with rfl | rfl
  · cases y with
    | none => exact .inl rfl
    | some a => exact next a rfl
  · exact .inr rfl

theorem map {x : Words α} {y : Option α} {f : α → β} (h : Agrees x y) :
    Agrees (f <$> x) (y.map f) := by
  rcases h with rfl | rfl
  · cases y <;> exact .inl rfl
  · exact .inr rfl

/-- Go on with a result that is known. -/
theorem seq {x : Words α} {a : α} {f : α → Words β} {y : Option β} (h : Agrees x (some a))
    (next : Agrees (f a) y) : Agrees (x >>= f) y := by
  refine h.bind (g := fun _ => y) fun b eq => ?_
  cases eq
  exact next

end Agrees

/-! ## Sums -/

variable {sum : WordSum}

theorem add_lt_bound32 {m n : Nat} (hm : m < nestingBound) (hn : n < nestingBound) :
    m + n < Text.bound32 := by
  unfold nestingBound at hm hn
  unfold Text.bound32
  omega

theorem WordSum.add_eq {m n : Nat} (word : m + n < Text.bound32) : sum.add m n = pure (m + n) := by
  cases sum with
  | checked => exact if_pos word
  | wrapping => exact congrArg pure (Nat.mod_eq_of_lt word)

/-- The count of the binders is a word, the place being one that a term may have. -/
theorem deeper_cases (sum : WordSum) {p d : Nat} (n : Nat) (counted : d ≤ p) :
    deeper sum p d n = throw .nested ∨
      p + n < nestingBound ∧ deeper sum p d n = pure (d + n) := by
  unfold deeper
  split
  · exact .inl rfl
  · next shallow =>
    refine .inr ⟨by omega, WordSum.add_eq ?_⟩
    unfold nestingBound at shallow
    unfold Text.bound32
    omega

theorem agrees_deeper {p d n : Nat} {f : Nat → Words α} {y : Option α} (counted : d ≤ p)
    (next : p + n < nestingBound → Agrees (f (d + n)) y) : Agrees (deeper sum p d n >>= f) y := by
  rcases deeper_cases sum n counted with halts | ⟨shallow, same⟩
  · rw [halts]
    exact .inr rfl
  · rw [same, pure_bind]
    exact next shallow

end

/-! ## Asking the nodes -/

/-- The computation answers whether `P` fails. -/
def Answers (x : Words Bool) (P : Prop) : Prop :=
  ∃ b, Agrees x (some b) ∧ (b = false ↔ P)

section
variable {sum : WordSum} {x y : Words Bool} {P Q : Prop}

theorem answers_pure {b : Bool} (h : b = false ↔ P) : Answers (pure b) P :=
  ⟨b, .pure b, h⟩

theorem Answers.congr (h : Answers x P) (same : P ↔ Q) : Answers x Q := by
  obtain ⟨b, agrees, fails⟩ := h
  exact ⟨b, agrees, fails.trans same⟩

theorem answers_nested : Answers (throw .nested) P := by
  classical
  exact ⟨!decide P, .inr rfl, by simp⟩

theorem Answers.or (hx : Answers x P) (hy : Answers y Q) : Answers (x <||> y) (P ∧ Q) := by
  obtain ⟨b, agrees, fails⟩ := hx
  cases b with
  | true => exact ⟨true, agrees.seq (.pure true), by simp [← fails]⟩
  | false =>
    obtain ⟨c, agrees', fails'⟩ := hy
    exact ⟨c, agrees.seq agrees', by simp [← fails, fails']⟩

theorem answers_deeper {p d n : Nat} {f : Nat → Words Bool} (counted : d ≤ p)
    (next : p + n < nestingBound → Answers (f (d + n)) P) :
    Answers (deeper sum p d n >>= f) P := by
  rcases deeper_cases sum n counted with halts | ⟨shallow, same⟩
  · rw [halts]
    exact answers_nested
  · rw [same, pure_bind]
    exact next shallow

variable {onVar : Nat → Nat → Words Bool} {onHole : Nat → Bool} {v : Nat → Nat → Prop}

mutual

theorem Head.answers_someWords (hv : ∀ d i, d < nestingBound → Answers (onVar d i) (v d i)) :
    (h : Head) → (p d : Nat) → d ≤ p → p < nestingBound →
      Answers (h.someWords sum onVar onHole p d) (h.Every v (fun k _ => onHole k = false) d)
  | .rel i, _, d, counted, shallow => hv d i (by omega)
  | .sort _, _, _, _, _ => answers_pure (by simp [Head.Every])
  | .const _, _, _, _, _ => answers_pure (by simp [Head.Every])
  | .hole k xs, p, d, counted, shallow => by
    unfold Head.someWords Head.Every
    split
    · next hit => exact answers_pure (by simp [hit])
    · next miss =>
      rw [and_iff_right (by simpa using miss)]
      exact Term.answers_someWordsAll hv xs p d counted shallow
  | .pi a b, p, d, counted, shallow => answers_deeper counted fun inside =>
    (Term.answers_someWords hv a p d counted shallow).or
      (Term.answers_someWords hv b _ _ (by omega) inside)
  | .lam a b, p, d, counted, shallow => answers_deeper counted fun inside =>
    (Term.answers_someWords hv a p d counted shallow).or
      (Term.answers_someWords hv b _ _ (by omega) inside)
  | .letIn w a b, p, d, counted, shallow => answers_deeper counted fun inside =>
    (Term.answers_someWords hv a p d counted shallow).or
      ((Term.answers_someWords hv w p d counted shallow).or
        (Term.answers_someWords hv b _ _ (by omega) inside))
  | .cast t a, p, d, counted, shallow =>
    (Term.answers_someWords hv a p d counted shallow).or
      (Term.answers_someWords hv t p d counted shallow)
  | .case r t bs, p, d, counted, shallow =>
    (Term.answers_someWords hv r p d counted shallow).or
      ((Term.answers_someWords hv t p d counted shallow).or
        (Term.answers_someWordsAll hv bs p d counted shallow))
  | .fix _ as bs, p, d, counted, shallow => answers_deeper counted fun inside =>
    (Term.answers_someWordsAll hv as p d counted shallow).or
      (Term.answers_someWordsAll hv bs _ _ (by omega) inside)

/-- The answer is whether some node is not as it should be everywhere. -/
theorem Term.answers_someWords (hv : ∀ d i, d < nestingBound → Answers (onVar d i) (v d i)) :
    (t : Term) → (p d : Nat) → d ≤ p → p < nestingBound →
      Answers (t.someWords sum onVar onHole p d) (t.Every v (fun k _ => onHole k = false) d)
  | .mk h xs, p, d, counted, shallow =>
    (Head.answers_someWords hv h p d counted shallow).or
      (Term.answers_someWordsAll hv xs p d counted shallow)

theorem Term.answers_someWordsAll (hv : ∀ d i, d < nestingBound → Answers (onVar d i) (v d i)) :
    (xs : List Term) → (p d : Nat) → d ≤ p → p < nestingBound →
      Answers (Term.someWordsAll sum onVar onHole p d xs)
        (Term.EveryAll v (fun k _ => onHole k = false) d xs)
  | [], _, _, _, _ => answers_pure (by simp [Term.EveryAll])
  | x :: xs, p, d, counted, shallow =>
    (Term.answers_someWords hv x p d counted shallow).or
      (Term.answers_someWordsAll hv xs p d counted shallow)

end

end

/-! ## Putting terms for variables -/

section
variable {sum : WordSum} {f : Nat → Nat → Nat → Words Term} {g : Nat → Nat → Term}
  {A : Nat → Nat → Prop}

mutual

theorem Head.agrees_bindWords (o : Nat) : (h : Head) → (d : Nat) → o + d < nestingBound →
    h.Every (fun d i => o + d < nestingBound → Agrees (f (o + d) d i) (some (g d i))) A d →
      Agrees (h.bindWords sum f (o + d) d) (some (h.bind g d))
  | .rel i, d, shallow, p => p shallow
  | .sort _, _, _, _ => .pure _
  | .const _, _, _, _ => .pure _
  | .hole _ xs, d, shallow, p =>
    (Term.agrees_bindWordsAll o xs d shallow p.2).seq (.pure _)
  | .pi a b, d, shallow, p =>
    (Term.agrees_bindWords o a d shallow p.1).seq <|
      agrees_deeper (Nat.le_add_left d o) fun inside =>
        (Term.agrees_bindWords o b (d + 1) inside p.2).seq (.pure _)
  | .lam a b, d, shallow, p =>
    (Term.agrees_bindWords o a d shallow p.1).seq <|
      agrees_deeper (Nat.le_add_left d o) fun inside =>
        (Term.agrees_bindWords o b (d + 1) inside p.2).seq (.pure _)
  | .letIn w a b, d, shallow, p =>
    (Term.agrees_bindWords o a d shallow p.1).seq <|
      (Term.agrees_bindWords o w d shallow p.2.1).seq <|
        agrees_deeper (Nat.le_add_left d o) fun inside =>
          (Term.agrees_bindWords o b (d + 1) inside p.2.2).seq (.pure _)
  | .cast t a, d, shallow, p =>
    (Term.agrees_bindWords o a d shallow p.1).seq <|
      (Term.agrees_bindWords o t d shallow p.2).seq (.pure _)
  | .case r t bs, d, shallow, p =>
    (Term.agrees_bindWords o r d shallow p.1).seq <|
      (Term.agrees_bindWords o t d shallow p.2.1).seq <|
        (Term.agrees_bindWordsAll o bs d shallow p.2.2).seq (.pure _)
  | .fix i as bs, d, shallow, p =>
    (Term.agrees_bindWordsAll o as d shallow p.1).seq <|
      agrees_deeper (Nat.le_add_left d o) fun inside => by
        rw [Nat.add_assoc] at inside ⊢
        exact (Term.agrees_bindWordsAll o bs (d + as.length) inside p.2).seq (.pure _)

/-- What agrees at every variable agrees on the term. -/
theorem Term.agrees_bindWords (o : Nat) : (t : Term) → (d : Nat) → o + d < nestingBound →
    t.Every (fun d i => o + d < nestingBound → Agrees (f (o + d) d i) (some (g d i))) A d →
      Agrees (t.bindWords sum f (o + d) d) (some (t.bind g d))
  | .mk h xs, d, shallow, p =>
    (Head.agrees_bindWords o h d shallow p.1).seq <|
      (Term.agrees_bindWordsAll o xs d shallow p.2).seq (.pure _)

theorem Term.agrees_bindWordsAll (o : Nat) : (xs : List Term) → (d : Nat) → o + d < nestingBound →
    Term.EveryAll (fun d i => o + d < nestingBound → Agrees (f (o + d) d i) (some (g d i))) A d xs →
      Agrees (Term.bindWordsAll sum f (o + d) d xs) (some (Term.bindAll g d xs))
  | [], _, _, _ => .pure _
  | x :: xs, d, shallow, p =>
    (Term.agrees_bindWords o x d shallow p.1).seq <|
      (Term.agrees_bindWordsAll o xs d shallow p.2).seq (.pure _)

end

end

/-! ## Terms with small free variables -/

/-- The free variables of a term at the place `p` are, outside of all binders, up to the largest
that is accepted, and the holes are in `A`. -/
def Term.Accepted (A : Nat → Nat → Prop) (p : Nat) (t : Term) : Prop :=
  t.Every (fun e i => i < e + (maxFreeIndex + 1)) A p

section
variable {sum : WordSum} {A : Nat → Nat → Prop} {p : Nat} {t : Term}

theorem Term.accepted_iff : t.Accepted A p ↔ t.Over A ∧ t.Scoped (p + (maxFreeIndex + 1)) := by
  rw [← Term.every_over (d := p), ← Term.every_scoped]
  constructor
  · exact fun h => ⟨h.mono (fun _ _ _ => trivial) fun _ _ q => q,
      h.mono (fun _ _ q => q) fun _ _ _ => trivial⟩
  · exact fun ⟨h, h'⟩ => Term.Every.imp₂ (fun _ _ _ q => q) (fun _ _ q _ => q) t p h h'

/-- The binders at the place can be counted in the condition instead. -/
theorem Term.accepted_shift :
    t.Accepted A p ↔ t.Every (fun d i => i < d + p + (maxFreeIndex + 1)) A 0 := by
  have shift := Term.every_shift (v := fun e i => i < e + (maxFreeIndex + 1)) (h := A) p t 0
  rwa [Nat.zero_add] at shift

theorem Term.answers_looseWords (sum : WordSum) (t : Term) (shallow : p < nestingBound) :
    Answers (t.looseWords sum p 0) (t.Every (fun d i => i < d) (fun _ _ => True) 0) := by
  have onVar (d i : Nat) (inside : d < nestingBound) :
      Answers (sum.add d 0 >>= fun least => pure (decide (least ≤ i))) (i < d) := by
    rw [WordSum.add_eq (add_lt_bound32 inside (by decide)), pure_bind]
    exact answers_pure (by simp)
  refine (Term.answers_someWords onVar t p 0 (Nat.zero_le p) shallow).congr
    ⟨fun h => ?_, fun h => ?_⟩
  · exact h.mono (fun _ _ q => q) fun _ _ _ => trivial
  · exact h.mono (fun _ _ q => q) fun _ _ _ => rfl

/-- A term at the place `p` moves under `n` more binders. -/
theorem Term.agrees_liftWords (sum : WordSum) {n : Nat} (ht : t.Accepted A p)
    (shallow : p + n < nestingBound) :
    Agrees (t.liftWords sum (p + n) 0 n) (some (t.lift 0 n)) := by
  unfold Term.liftWords
  split
  · next none' =>
    subst none'
    rw [Term.lift_zero]
    exact .pure t
  · obtain ⟨b, agrees, tight⟩ := Term.answers_looseWords sum t shallow
    refine agrees.seq ?_
    cases b with
    | false =>
      rw [Term.lift_of_scoped (c := 0) (tight.1 rfl)]
      exact .pure t
    | true =>
      refine Term.agrees_bindWords (A := A) (p + n) t 0 shallow ?_
      refine (Term.accepted_shift.1 ht).mono (fun d i small inside => ?_) fun _ _ q => q
      split
      · have word : i + n < Text.bound32 := by
          unfold nestingBound at inside
          unfold maxFreeIndex at small
          unfold Text.bound32
          omega
        rw [WordSum.add_eq word]
        exact .pure _
      · exact .pure _

/-- Small terms are put for the first variables of a term at their place. -/
theorem Term.agrees_instantiateManyWords {values : List Term}
    (hv : ∀ v ∈ values, v.Accepted A p) (shallow : p < nestingBound) :
    Agrees (t.instantiateManyWords sum p values) (some (t.instantiateMany values)) := by
  unfold Term.instantiateManyWords
  split
  · next none' =>
    rw [List.isEmpty_iff.1 none', Term.instantiateMany_nil]
    exact .pure t
  · obtain ⟨b, agrees, tight⟩ := Term.answers_looseWords sum t shallow
    refine agrees.seq ?_
    cases b with
    | false =>
      have same : t.Every (fun d i => Term.putFirst values d i = .rel i) (fun _ _ => True) 0 :=
        (tight.1 rfl).mono (fun d i h => if_neg (Nat.not_le.2 h)) fun _ _ q => q
      rw [Term.instantiateMany_eq_bind, Term.bind_congr t 0 same, Term.bind_rel]
      exact .pure t
    | true =>
      have all : t.Every (fun _ _ => True) (fun _ _ => True) 0 :=
        Term.over_holes.2 fun _ _ => trivial
      refine Term.agrees_bindWords p t 0 shallow (all.mono (fun d i _ inside => ?_) fun _ _ q => q)
      split
      · cases found : values[i - d]? with
        | some v => exact Term.agrees_liftWords sum (hv v (List.mem_of_getElem? found)) inside
        | none => exact .pure _
      · exact .pure _

/-- A term at a place is applied to small arguments. -/
theorem Term.agrees_betaApplyWords {xs : List Term} (hxs : ∀ x ∈ xs, x.Accepted A p)
    (shallow : p < nestingBound) :
    Agrees (t.betaApplyWords sum p xs) (some (t.betaApply xs)) := by
  induction xs generalizing t with
  | nil =>
    unfold Term.betaApplyWords Term.betaApply
    exact .pure t
  | cons x xs ih =>
    obtain ⟨hx, rest⟩ := List.forall_mem_cons.1 hxs
    obtain ⟨h, ys⟩ := t
    cases h with
    | lam a b =>
      cases ys with
      | nil =>
        exact (Term.agrees_instantiateManyWords (List.forall_mem_singleton.2 hx) shallow).seq
          (ih rest)
      | cons y ys => exact .pure _
    | _ => cases ys <;> exact .pure _

end

end KeyedMatching
