import KeyedMatching.Proofs.Term.ByNodes

/-!
# Substitutions one after the other

* `Term.bind_putFirst_lift`: terms that are put for variables do not meet a term that was lifted
  over these;
* `Term.instantiateMany_append`: of the terms that are put for the first variables the later ones
  can be put in before, under as many binders as there are terms left;
* `Term.MovesAlong.bind_instantiateMany_shift`: a binding goes into the terms that were put for
  variables, and into what they were put in;
* `Term.betaApply_lams`: nested abstractions are contracted as one;
* `Term.substitution_composes`: so substitutions that follow one another are one.
-/

namespace KeyedMatching

/-- Nested abstractions over variables of the given types, the first outermost. -/
def Term.lams : List Term → Term → Term
  | [], body => body
  | a :: as, body => .lam a (.lams as body)

/-! ## Terms put for the first variables -/

/-- What is put for variables that a term was lifted over does not matter. -/
theorem Term.bind_putFirst_lift (t : Term) (values : List Term) (d : Nat) :
    (t.lift d values.length).bind (Term.putFirst values) d = t := by
  unfold Term.lift
  refine Term.bind_bind_eq_self ((Term.freeRels_every t d).mono ?_ fun _ _ q => q)
  rintro e i -
  by_cases free : e ≤ i
  · have reach : e ≤ i + values.length := by omega
    have past : values.length ≤ i + values.length - e := by omega
    simp [Term.putFirst, free, reach, past]
  · simp [Term.putFirst, free]

/-- The variables after the first ones go to the later terms, which do not meet those before. -/
theorem Term.putFirst_append (xs ys : List Term) (d i : Nat) :
    Term.putFirst (xs ++ ys) d i =
      (Term.putFirst ys (d + xs.length) i).bind (Term.putFirst xs) d := by
  by_cases later : d + xs.length ≤ i
  · have free : d ≤ i := by omega
    have past : xs.length ≤ i - d := by omega
    have index : i - d - xs.length = i - (d + xs.length) := by omega
    cases found : ys[i - (d + xs.length)]? with
    | some v =>
      have lifted := Term.lift_lift v xs.length (Nat.le_refl d)
      have dropped := Term.bind_putFirst_lift (v.lift 0 d) xs d
      rw [lifted] at dropped
      simp [Term.putFirst, later, free, List.getElem?_append_right past, index, found, dropped]
    | none =>
      have beyond := List.getElem?_eq_none_iff.1 found
      have free' : d ≤ i - ys.length := by omega
      have past' : xs.length ≤ i - ys.length - d := by omega
      have gap : i - (xs.length + ys.length) = i - ys.length - xs.length := by omega
      simp [Term.putFirst, later, free, List.getElem?_append_right past, index, found, free',
        past', gap]
  · by_cases free : d ≤ i
    · have first : i - d < xs.length := by omega
      simp [Term.putFirst, later, free, List.getElem?_append_left first, first]
    · simp [Term.putFirst, later, free]

theorem Term.instantiateMany_append (t : Term) (xs ys : List Term) :
    t.instantiateMany (xs ++ ys) =
      (t.bind (Term.putFirst ys) xs.length).instantiateMany xs := by
  rw [Term.instantiateMany_eq_bind, Term.instantiateMany_eq_bind, Term.bind_bind_shift]
  congr 1
  funext d i
  exact Term.putFirst_append xs ys d i

/-- A binding goes into the terms that were put for the first variables, and under as many binders
into the term that they were put in. -/
theorem Term.MovesAlong.bind_instantiateMany_shift {f : Nat → Nat → Term} (hf : Term.MovesAlong f)
    (t : Term) (values : List Term) (d : Nat) :
    (t.instantiateMany values).bind f d =
      (t.bind f (d + values.length)).instantiateMany (values.map (·.bind f d)) := by
  rw [Term.instantiateMany_eq_bind, Term.instantiateMany_eq_bind, Term.bind_bind_shift,
    Term.bind_bind_shift]
  congr 1
  funext e i
  rw [Nat.add_zero]
  by_cases later : e + values.length ≤ i
  · obtain ⟨j, rfl⟩ : ∃ j, i = j + values.length := ⟨i - values.length, by omega⟩
    have free : e ≤ j + values.length := by omega
    have free' : e ≤ j := by omega
    have past : values.length ≤ j + values.length - e := by omega
    have moved := hf.lifted e (e + d) values.length j (Nat.le_add_right e d)
    have dropped := Term.bind_putFirst_lift (f (e + d) j) (values.map (·.bind f d)) e
    rw [List.length_map] at dropped
    rw [if_pos free'] at moved
    rw [← Nat.add_assoc, moved, dropped]
    simp [Term.putFirst, free, past]
  · have bound : i < e + (d + values.length) := by omega
    rw [hf.bound _ _ bound, Term.bind_var]
    by_cases free : e ≤ i
    · have inside : i - e < values.length := by omega
      have lifted := hf.lift_bind values[i - e] e (Nat.zero_le d)
      rw [Nat.add_comm d e] at lifted
      simp [Term.putFirst, free, inside, lifted]
    · have low : i < e + d := by omega
      simp [Term.putFirst, free, hf.bound _ _ low]

/-! ## Nested abstractions -/

theorem Term.bind_lams (f : Nat → Nat → Term) (doms : List Term) (body : Term) (d : Nat) :
    ∃ doms', doms'.length = doms.length ∧
      (Term.lams doms body).bind f d = Term.lams doms' (body.bind f (d + doms.length)) := by
  induction doms generalizing d with
  | nil => exact ⟨[], rfl, rfl⟩
  | cons a as ih =>
    obtain ⟨as', length, bound⟩ := ih (d + 1)
    refine ⟨a.bind f d :: as', congrArg (· + 1) length, ?_⟩
    rw [Nat.add_right_comm] at bound
    change (Term.lam _ _).apply [] = _
    rw [Term.apply_nil, bound]
    rfl

/-- Abstractions that all meet an argument are contracted as one, the last argument being put for
the innermost variable. -/
theorem Term.betaApply_lams (doms : List Term) (body : Term) {args : List Term}
    (enough : doms.length ≤ args.length) :
    (Term.lams doms body).betaApply args =
      (body.instantiateMany (args.take doms.length).reverse).betaApply
        (args.drop doms.length) := by
  induction size : doms.length generalizing doms body args with
  | zero =>
    obtain rfl := List.length_eq_zero_iff.1 size
    simp [Term.lams]
  | succ n ih =>
    obtain ⟨a, as, rfl⟩ := List.exists_cons_of_length_eq_add_one size
    obtain ⟨x, xs, rfl⟩ := List.exists_cons_of_length_pos (Nat.lt_of_lt_of_le (by omega) enough)
    obtain rfl : as.length = n := Nat.succ.inj size
    have enough' : as.length ≤ xs.length := Nat.le_of_succ_le_succ enough
    obtain ⟨as', length, bound⟩ := Term.bind_lams (Term.putFirst [x]) as body 0
    have rest : (xs.take as.length).reverse.length = as.length := by simp [enough']
    have joined := Term.instantiateMany_append body (xs.take as.length).reverse [x]
    rw [rest] at joined
    calc (Term.lams (a :: as) body).betaApply (x :: xs)
        = ((Term.lams as body).bind (Term.putFirst [x]) 0).betaApply xs := rfl
      _ = ((body.bind (Term.putFirst [x]) as.length).instantiateMany
            (xs.take as.length).reverse).betaApply (xs.drop as.length) := by
        rw [bound, ih _ _ (length ▸ enough') length, Nat.zero_add]
      _ = _ := by
        rw [← joined, List.take_succ_cons, List.drop_succ_cons, List.reverse_cons]

/-! ## Composition -/

/-- Terms put for variables one list after the other are put in together; a term that was lifted
over the variables is given back; lifting goes into the terms that were put in; and nested
abstractions are contracted as one. Where nothing is in reach, the shortcuts come to the same. -/
theorem Term.substitution_composes (t : Term) (us vs : List Term) (c n : Nat) :
    (t.instantiateMany us).instantiateMany vs =
        t.instantiateMany (us.map (·.instantiateMany vs) ++ vs) ∧
      (t.lift 0 vs.length).instantiateMany vs = t ∧
      (t.instantiateMany us).lift c n =
        (t.lift (us.length + c) n).instantiateMany (us.map (·.lift c n)) ∧
      (∀ doms args : List Term, doms.length ≤ args.length →
        (Term.lams doms t).betaApply args =
          (t.instantiateMany (args.take doms.length).reverse).betaApply (args.drop doms.length)) ∧
      (t.liftByNodes c n = t.lift c n ∧ t.instantiateByNodes us = t.instantiateMany us) := by
  have put := (Term.movesAlong_putFirst vs).bind_instantiateMany_shift t us 0
  have lifted := (Term.movesAlong_lift n).bind_instantiateMany_shift t us c
  refine ⟨?_, Term.bind_putFirst_lift t vs 0, ?_, ?_, ?_⟩
  · rw [Nat.zero_add] at put
    rw [Term.instantiateMany_append, List.length_map]
    exact put
  · rw [Nat.add_comm us.length c]
    exact lifted
  · exact fun doms args enough => Term.betaApply_lams doms t enough
  · exact ⟨t.liftByNodes_eq c n, t.instantiateByNodes_eq us⟩

/-- Two abstractions meet three arguments. The first argument comes to be the head of an application
and takes the last argument as one more of that application. -/
theorem Term.substitution_composes_head :
    let body : Term := .mk (.rel 1) [.rel 0]
    let doms : List Term := [.const "A", .const "B"]
    let args : List Term := [.const "g", .const "x", .const "y"]
    doms.length ≤ args.length ∧
      (Term.lams doms body).betaApply args = .mk (.const "g") [.const "x", .const "y"] := by
  intro body doms args
  have enough : doms.length ≤ args.length := by decide
  have contracted := (Term.substitution_composes body [] [] 0 0).2.2.2.1 doms args enough
  have put : body.instantiateMany [.const "x", .const "g"] = .mk (.const "g") [.const "x"] := by
    decide +kernel
  refine ⟨enough, contracted.trans ?_⟩
  change (body.instantiateMany [.const "x", .const "g"]).betaApply [.const "y"] = _
  rw [put]
  rfl

end KeyedMatching
