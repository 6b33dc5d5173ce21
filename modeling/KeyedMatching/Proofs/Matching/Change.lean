import KeyedMatching.Proofs.Matching.RoundTrip
import KeyedMatching.Proofs.Matching.Winner
import KeyedMatching.Proofs.Term.Copies

/-!
# What a rewrite changes

A context has the key of its match at the first place that was chosen, so it gives the target back
only with that key (`Term.walk_pins`). A rule applies only if its two sides, instantiated, differ.

* `rewrite_changes`: what becomes of a target when a rule applies to it. It is another term, unless
  the matched term is what it is replaced with, and that is not the instantiated side of the rule.
-/

namespace KeyedMatching

/-! ## Terms that are put together to the same -/

theorem Term.eq_of_apply_eq {t u : Term} {xs ys : List Term} (h : t.apply xs = u.apply ys)
    (len : xs.length = ys.length) : t = u ∧ xs = ys := by
  obtain ⟨g, as⟩ := t
  obtain ⟨g', bs⟩ := u
  obtain ⟨rfl, joined⟩ := Term.mk.inj h
  obtain ⟨rfl, same⟩ := List.append_inj' joined len
  exact ⟨rfl, same⟩

/-! ## The first chosen occurrence -/

section
variable {σ α β : Type}

/-- The test settles on a key when an occurrence is first chosen, which is a copy of that key, and
keeps it. -/
structure OccurrenceTest.Settling (test : OccurrenceTest σ) (key? : σ → Option Term) : Prop where
  keeps : ∀ u d st r st', test.occurrenceAt u d st = some (r, st') → key? st' = key? st
  select : ∀ st key, key? st = some key → key? (test.select st) = some key
  first : ∀ u d st n st' key, test.occurrenceAt u d st = some (some n, st') → key? st = none →
    key? (test.select st') = some key → Term.mk u.head (u.args.take n) = key.lift 0 d

section
variable {key? : σ → Option Term} {a : Term} {C : Prop}

/-- A walk keeps its key. Where its result has the property `Q`, also `C` is true, and if it settles
on a key, that is `a`. -/
def Walk.Pins (key? : σ → Option Term) (a : Term) (C : Prop) (x : Walk σ α) (Q : α → Prop) : Prop :=
  ∀ st b st', x.run st = some (b, st') →
    (∀ key, key? st.state = some key → key? st'.state = some key) ∧
      (Q b → C ∧ (key? st.state = none → ∀ key, key? st'.state = some key → key = a))

theorem Walk.pins_pure {b : α} {Q : α → Prop} (h : Q b → C) : Walk.Pins key? a C (pure b) Q := by
  intro st b' st' hb
  cases hb
  refine ⟨fun _ kept => kept, fun q => ⟨h q, fun missing key found => ?_⟩⟩
  exact absurd (missing.symm.trans found) (by simp)

theorem Walk.pins_bind {x : Walk σ α} {f : α → Walk σ β} {P : α → Prop} {Q : β → Prop}
    (hx : Walk.Pins key? a C x P) (hf : ∀ b, Walk.Pins key? a (P b) (f b) Q) :
    Walk.Pins key? a C (x >>= f) Q := by
  intro st c st' h
  obtain ⟨b, mid, hb, hc⟩ := Walk.run_bind_iff.1 h
  obtain ⟨kept, first⟩ := hx st b mid hb
  obtain ⟨kept', second⟩ := hf b mid c st' hc
  refine ⟨fun key known => kept' key (kept key known), fun q => ?_⟩
  obtain ⟨p, later⟩ := second q
  obtain ⟨known, earlier⟩ := first p
  refine ⟨known, fun missing key found => ?_⟩
  cases here : key? mid.state with
  | none => exact later here key found
  | some key' =>
    have same : key' = key := Option.some.inj ((kept' key' here).symm.trans found)
    exact same ▸ earlier missing key' here

/-- What is known before a walk is still known after it. -/
theorem Walk.Pins.and {x : Walk σ α} {Q : α → Prop} (h : Walk.Pins key? a True x Q) :
    Walk.Pins key? a C x fun b => C ∧ Q b := by
  intro st b st' hb
  obtain ⟨kept, first⟩ := h st b st' hb
  exact ⟨kept, fun q => ⟨q.1, (first q.2).2⟩⟩

end

section
variable {occ : Occurrences} {test : OccurrenceTest σ} {key? : σ → Option Term} {a : Term}

theorem visit_pins (settling : test.Settling key?) (u : Term) (d : Nat) :
    Walk.Pins key? a True (visit occ test u d) fun r =>
      ∀ n, r = some n → Term.mk u.head (u.args.take n) = a.lift 0 d := by
  intro st r st' h
  cases visited_of_run h with
  | passed hr | left hr =>
    have same := settling.keeps u d st.state _ _ hr
    refine ⟨fun key known => same.trans known, fun _ => ⟨trivial, fun missing key found => ?_⟩⟩
    exact absurd ((same.trans missing).symm.trans found) (by simp)
  | @chosen n _ hr =>
    have same := settling.keeps u d st.state _ _ hr
    refine ⟨fun key known => settling.select _ key (same.trans known), fun copies => ?_⟩
    refine ⟨trivial, fun missing key found => ?_⟩
    have copy := settling.first u d st.state n _ key hr missing found
    exact Term.eq_of_lift_eq (copy.symm.trans (copies n rfl))

theorem Term.length_walkFrom {xs ys : List Term} {d n : Nat} {st st' : Selection σ}
    (h : (Term.walkFrom occ test d n xs).run st = some (ys, st')) :
    ys.length = (xs.drop n).length := by
  induction xs generalizing n ys st with
  | nil =>
    cases n <;> cases h <;> rfl
  | cons x xs ih =>
    cases n with
    | zero =>
      obtain ⟨y, mid, _, h⟩ := Walk.run_bind_iff.1 h
      obtain ⟨zs, last, rest, h⟩ := Walk.run_bind_iff.1 h
      cases h
      have len := ih rest
      rw [List.drop_zero] at len ⊢
      rw [List.length_cons, List.length_cons, len]
    | succ n => exact ih h

/-- The arguments after those that an occurrence covers. -/
theorem Term.walkFrom_spine {g t : Term} {h : Head} {xs : List Term} {d n : Nat} {C : Prop}
    (rest : Walk.Pins key? a True (Term.walkFrom occ test d n xs) fun ys =>
      Term.bindAll (Term.putFirst [a]) d ys = xs.drop n)
    (whole : t.apply (xs.drop n) = Term.mk h xs) (known : g.bind (Term.putFirst [a]) d = t → C) :
    Walk.Pins key? a C
      (do
        let ys ← Term.walkFrom occ test d n xs
        return g.apply ys)
      fun t' => t'.bind (Term.putFirst [a]) d = .mk h xs := by
  intro st b st' hb
  obtain ⟨ys, mid, walked, eq⟩ := Walk.run_bind_iff.1 hb
  obtain ⟨kept, first⟩ := rest st ys mid walked
  cases eq
  refine ⟨kept, fun restored => ?_⟩
  have len : (Term.bindAll (Term.putFirst [a]) d ys).length = (xs.drop n).length := by
    rw [Term.length_bindAll, Term.length_walkFrom walked]
  dsimp only at restored
  rw [Term.bind_apply, ← whole] at restored
  obtain ⟨front, back⟩ := Term.eq_of_apply_eq restored len
  exact ⟨known front, (first back).2⟩

mutual

theorem Head.walk_pins (settling : test.Settling key?) : (h : Head) → (d : Nat) →
    Walk.Pins key? a True (h.walk occ test d) fun g =>
      g.bind (Term.putFirst [a]) d = .ofHead h
  | .rel i, d => Walk.pins_pure fun _ => trivial
  | .sort _, _ => Walk.pins_pure fun _ => trivial
  | .const _, _ => Walk.pins_pure fun _ => trivial
  | .hole k xs, d => by
    refine Walk.pins_bind (Term.walkFrom_pins settling xs d 0) ?_
    intro xs'
    apply Walk.pins_pure
    intro same
    simpa [Head.bind] using same
  | .pi b c, d => by
    refine Walk.pins_bind (Term.walk_pins settling b d) ?_
    intro b'
    refine Walk.pins_bind (Term.walk_pins settling c (d + 1)).and ?_
    intro c'
    apply Walk.pins_pure
    intro same
    simpa [Head.bind] using same
  | .lam b c, d => by
    refine Walk.pins_bind (Term.walk_pins settling b d) ?_
    intro b'
    refine Walk.pins_bind (Term.walk_pins settling c (d + 1)).and ?_
    intro c'
    apply Walk.pins_pure
    intro same
    simpa [Head.bind] using same
  | .letIn v b c, d => by
    refine Walk.pins_bind (Term.walk_pins settling b d) ?_
    intro b'
    refine Walk.pins_bind (Term.walk_pins settling v d).and ?_
    intro v'
    refine Walk.pins_bind (Term.walk_pins settling c (d + 1)).and ?_
    intro c'
    apply Walk.pins_pure
    intro same
    simp only [Head.bind, Term.mk.injEq, Head.letIn.injEq, and_true] at same
    exact ⟨⟨same.2.1, same.1⟩, same.2.2⟩
  | .cast t b, d => by
    refine Walk.pins_bind (Term.walk_pins settling b d) ?_
    intro b'
    refine Walk.pins_bind (Term.walk_pins settling t d).and ?_
    intro t'
    apply Walk.pins_pure
    intro same
    simp only [Head.bind, Term.mk.injEq, Head.cast.injEq, and_true] at same
    exact ⟨same.2, same.1⟩
  | .case r t bs, d => by
    refine Walk.pins_bind (Term.walk_pins settling r d) ?_
    intro r'
    refine Walk.pins_bind (Term.walk_pins settling t d).and ?_
    intro t'
    refine Walk.pins_bind (Term.walkFrom_pins settling bs d 0).and ?_
    intro bs'
    apply Walk.pins_pure
    intro same
    simp only [Head.bind, Term.mk.injEq, Head.case.injEq, and_true] at same
    exact ⟨⟨same.1, same.2.1⟩, same.2.2⟩
  | .fix i as bs, d => by
    refine Walk.pins_bind (Term.walkFrom_pins settling as d 0) ?_
    intro as'
    refine Walk.pins_bind (Term.walkFrom_pins settling bs (d + as.length) 0).and ?_
    intro bs'
    apply Walk.pins_pure
    intro same
    simp only [Head.bind, Term.mk.injEq, Head.fix.injEq, true_and, and_true] at same
    obtain ⟨types, bodies⟩ := same
    have len : as'.length = as.length := by
      rw [← types, Term.length_bindAll]
    rw [len] at bodies
    exact ⟨types, bodies⟩

/-- If `a`, put for the new variable, makes the term that was walked through of the result, then it
is the key that the walk settled on. -/
theorem Term.walk_pins (settling : test.Settling key?) : (t : Term) → (d : Nat) →
    Walk.Pins key? a True (t.walk occ test d) fun t' => t'.bind (Term.putFirst [a]) d = t
  | .mk h [], d => by
    refine Walk.pins_bind (visit_pins settling (.ofHead h) d) ?_
    intro r
    cases r with
    | some n =>
      apply Walk.pins_pure
      intro same m eq
      cases eq
      rw [Term.bind_putFirst_rel] at same
      rw [same, Term.args, List.take_nil]
      rfl
    | none =>
      refine Walk.pins_bind (Head.walk_pins settling h d).and ?_
      intro g
      apply Walk.pins_pure
      intro same
      rw [Term.bind, Term.bindAll, Term.apply_nil] at same
      exact ⟨nofun, same⟩
  | .mk h (x :: xs), d => by
    have spine (n : Nat) := Term.walkFrom_pins settling (x :: xs) d n
    refine Walk.pins_bind (visit_pins settling (.mk h (x :: xs)) d) ?_
    intro r
    cases r with
    | some n =>
      have whole : (Term.mk h ((x :: xs).take n)).apply ((x :: xs).drop n) = .mk h (x :: xs) := by
        rw [Term.apply, List.take_append_drop]
      refine Term.walkFrom_spine (spine n) whole ?_
      intro same m eq
      cases eq
      rw [Term.bind_putFirst_rel] at same
      exact same.symm
    | none =>
      refine Walk.pins_bind (visit_pins settling (.ofHead h) d).and ?_
      intro r
      cases r with
      | some n =>
        refine Term.walkFrom_spine (spine 0) (t := .ofHead h) rfl ?_
        intro same
        refine ⟨nofun, fun m _ => ?_⟩
        rw [Term.bind_putFirst_rel] at same
        rw [same, Term.args, List.take_nil]
        rfl
      | none =>
        refine Walk.pins_bind (Head.walk_pins settling h d).and ?_
        intro g
        refine Term.walkFrom_spine (spine 0) (t := .ofHead h) rfl ?_
        intro same
        rw [Term.bind, Term.bindAll, Term.apply_nil] at same
        exact ⟨⟨nofun, nofun⟩, same⟩

theorem Term.walkFrom_pins (settling : test.Settling key?) : (xs : List Term) → (d n : Nat) →
    Walk.Pins key? a True (Term.walkFrom occ test d n xs) fun ys =>
      Term.bindAll (Term.putFirst [a]) d ys = xs.drop n
  | [], _, _ => Walk.pins_pure fun _ => trivial
  | x :: xs, d, 0 => by
    refine Walk.pins_bind (Term.walk_pins settling x d) ?_
    intro y
    refine Walk.pins_bind (Term.walkFrom_pins settling xs d 0).and ?_
    intro ys
    apply Walk.pins_pure
    intro same
    exact List.cons.inj same
  | x :: xs, d, n + 1 => Term.walkFrom_pins settling xs d n

end

end

end

/-! ## Rewriting -/

section
variable {cx : Context} {u : Unifier} {s : Store} {scope : Scope} {occ : Occurrences}
  {target : Term}

theorem settling_locator {base : Store} {ps : List Pattern} {pass : Pass} :
    (locator cx u scope base ps pass).Settling fun st => st.located?.map (·.key) := by
  constructor
  · intro t d st r st' h
    rw [(step_of_locator h).located_eq]
  · intro st key known
    obtain ⟨l, located, rfl⟩ := Option.map_eq_some_iff.1 known
    rw [select_of_located located, located, Option.map_some]
  · intro t d st n st' key h missing found
    have unlocated : st.located? = none := Option.map_eq_none_iff.1 missing
    cases step_of_locator h with
    | compared located => exact absurd (unlocated.symm.trans located) (by simp)
    | found _ hit =>
      simp only [select_of_missing, unlocated] at found
      cases found
      obtain ⟨lowered, _⟩ := tryPatterns_ensures t d _ _ _ hit
      exact (Term.lift_of_lower? lowered).symm

/-- Only the matched term, put into the context, makes the target. -/
theorem eq_of_searched {cs : List Candidate} {r : Found} {a : Term}
    (h : Search.Searched cx u s scope cs occ target r)
    (restored : s.instantiate? target = some (r.context.instantiate a)) :
    r.located.key = a := by
  obtain ⟨_, target', ps, base, normal, _, pass, n, sel, walked, located⟩ := h
  rw [Store.instantiate?_freeze, restored] at normal
  have same : r.context.instantiate a = target' := Option.some.inj normal
  obtain ⟨_, pinned⟩ := Term.walk_pins settling_locator target' 0 _ _ _ walked
  exact (pinned same).2 rfl r.located.key (Option.map_eq_some_iff.2 ⟨_, located, rfl⟩)

/-- A search ends with a match that its candidate admits. -/
theorem admitted_of_searched {cs : List Candidate} {r : Found}
    (h : Search.Searched cx u s scope cs occ target r) :
    ∃ c matched, cs[r.located.index]? = some c ∧
      c.progress r.located.store matched r.located.payload = some true := by
  obtain ⟨ps, base, pass, compiled, p, s', m, hp, _, settled, store, payload⟩ :=
    locates_of_searched h
  obtain ⟨c, _, _, hc, _, ready, _⟩ := compiled.ready hp
  obtain rfl := ready.candidate
  obtain ⟨_, _, _, done⟩ := exists_of_settle? (R := fun _ _ => True) (fun _ _ _ _ _ => trivial)
    (fun _ _ _ => trivial) settled
  obtain ⟨_, _, _, admitted⟩ := exists_of_conclude? done
  rw [store, payload]
  exact ⟨_, m.matched, hc, admitted⟩

/-- The sides of a rule that applies are different terms once instantiated by the store of the
match. -/
theorem sides_of_applyRules? {rules : List Rule} {r : Applied} {n : Nat}
    (h : applyRules? cx u s scope rules occ target = some ⟨.ok r, n⟩) :
    ∃ rule side, rules[r.rule]? = some rule ∧ r.store.instantiate? rule.source = some side ∧
      r.store.instantiate? rule.target = some r.replacement ∧ side ≠ r.replacement := by
  obtain ⟨found, rule, searched, hrule, index, _, _, _, store, replaced⟩ :=
    searched_of_applyRules? h
  obtain ⟨c, matched, hc, admitted⟩ := admitted_of_searched searched
  rw [List.getElem?_map, hrule] at hc
  cases hc
  simp only [Rule.candidate, Progress.mustChange, Option.bind_eq_bind,
    Option.bind_eq_some_iff] at admitted
  obtain ⟨side, hside, other, hother, different⟩ := admitted
  have same (t : Term) : r.store.instantiate? t = found.located.store.instantiate? t := by
    rw [store, searched.store, Store.instantiate?_freeze]
  rw [same, hother] at replaced
  cases replaced
  refine ⟨rule, side, by rw [index, hrule], by rw [same, hside], by rw [same, hother], ?_⟩
  simpa using different

/-- What a rule changes that applies. Its sides, instantiated, are different terms; so are the
target and what it becomes, unless the matched term is replaced with itself. In that case, if the
target lies in the scope, nothing changes, and the matched term is not the instantiated side of the
rule. -/
theorem rewrite_changes (cx : Context) (s : Store) (scope : Scope) (rules : List Rule)
    (occ : Occurrences) (target : Term) (r : Applied) (n : Nat)
    (h : applyRules? cx (.standard cx) s scope rules occ target = some ⟨.ok r, n⟩) :
    (∃ rule side, rules[r.rule]? = some rule ∧ r.store.instantiate? rule.source = some side ∧
      r.store.instantiate? rule.target = some r.replacement ∧ side ≠ r.replacement ∧
      (s.instantiate? target = some (r.context.instantiate r.replacement) → r.matched ≠ side)) ∧
    (r.matched ≠ r.replacement →
      s.instantiate? target ≠ some (r.context.instantiate r.replacement)) ∧
    (InScope s scope target → r.matched = r.replacement →
      s.instantiate? target = some (r.context.instantiate r.replacement)) := by
  obtain ⟨found, _, searched, _, _, context, matched, _⟩ := searched_of_applyRules? h
  have unchanged (same : s.instantiate? target = some (r.context.instantiate r.replacement)) :
      r.matched = r.replacement := by
    rw [context] at same
    rw [matched]
    exact eq_of_searched searched same
  refine ⟨?_, fun different same => different (unchanged same), fun inside same => ?_⟩
  · obtain ⟨rule, side, listed, hside, replaced, different⟩ := sides_of_applyRules? h
    refine ⟨rule, side, listed, hside, replaced, different, fun same copy => ?_⟩
    exact different (copy.symm.trans (unchanged same))
  · rw [← same, context, matched]
    exact restores_of_searched inside searched

end

/-- In `g (f a)` the rule `f ?0 = b` finds `f a`, which is the instantiated side, so the target
changes. -/
theorem rewrite_changes_application :
    let cx : Context := { limit := 5 }
    let s := (Store.empty.fresh 0 none .ordinary).2
    let f (x : Term) : Term := .mk (.const "f") [x]
    let target : Term := .mk (.const "g") [f (.const "a")]
    ∃ r n, applyRules? cx (.standard cx) s ⟨0⟩ [⟨f (.hole 0 []), .const "b", none, .leftToRight⟩]
        .all target = some ⟨.ok r, n⟩ ∧ r.matched ≠ r.replacement ∧
      s.instantiate? target ≠ some (r.context.instantiate r.replacement) := by
  intro cx s f target
  have applied : ((applyRules? cx (.standard cx) s ⟨0⟩
      [⟨f (.hole 0 []), .const "b", none, .leftToRight⟩] .all target).bind
      fun r => r.result.toOption).map (fun r => (r.matched, r.replacement)) =
        some (f (.const "a"), .const "b") := by decide +kernel
  obtain ⟨r, hr, shown⟩ := Option.map_eq_some_iff.1 applied
  obtain ⟨n, h⟩ := exists_of_result hr
  obtain ⟨matched, replacement⟩ := Prod.mk.inj shown
  have different : r.matched ≠ r.replacement := by
    rw [matched, replacement]
    decide
  exact ⟨r, n, h, different, (rewrite_changes cx s ⟨0⟩ _ .all target r n h).2.1 different⟩

/-- The matched term need not be the instantiated side of the rule. With `c` defined to be `a`, the
rule `f c = f a` has two different sides and applies to `f a`, which it replaces with itself. -/
theorem rewrite_to_itself :
    let a : Term := .const "a"
    let f (x : Term) : Term := .mk (.const "f") [x]
    let cx : Context := { signature := Signature.empty.define "c" a none, limit := 9 }
    InScope Store.empty ⟨0⟩ (f a) ∧
      ∃ r n, applyRules? cx (.standard cx) Store.empty ⟨0⟩
          [⟨f (.const "c"), f a, none, .leftToRight⟩] .all (f a) = some ⟨.ok r, n⟩ ∧
        Store.empty.instantiate? (f a) = some (r.context.instantiate r.replacement) := by
  intro a f cx
  have inside : InScope Store.empty ⟨0⟩ (f a) := by
    intro t ht k hk
    have same : Store.empty.instantiate? (f a) = some (f a) := by decide +kernel
    rw [same] at ht
    cases ht
    cases hk
  have applied : ((applyRules? cx (.standard cx) Store.empty ⟨0⟩
      [⟨f (.const "c"), f a, none, .leftToRight⟩] .all (f a)).bind
      fun r => r.result.toOption).map (fun r => (r.context, r.replacement)) =
        some (.rel 0, f a) := by decide +kernel
  obtain ⟨r, hr, shown⟩ := Option.map_eq_some_iff.1 applied
  obtain ⟨n, h⟩ := exists_of_result hr
  obtain ⟨context, replacement⟩ := Prod.mk.inj shown
  refine ⟨inside, r, n, h, ?_⟩
  rw [context, replacement]
  decide +kernel

end KeyedMatching
