import KeyedMatching.Proofs.Matching.Commit
import KeyedMatching.Proofs.Matching.Indifference
import KeyedMatching.Proofs.Unification.Inert

/-!
# What other open holes do to a rewrite

The holes that a caller has declared for something else do not matter to a rewrite, as long as no
instance becomes the value of one of them: the same rule applies at the same place, and what it puts
in is the same up to the numbers of the placeholders that the search itself declares. Without one of
the conditions there are rewrites that other holes disturb.

* `Store.Appends.widens`: the holes that were added are idle ones;
* `replacement_declared`: where matches are sound, the replacement mentions no placeholder;
* `Context.lacks_of_clash`: of some types no instance ever becomes a value;
* `rewrite_undisturbed`: a rewrite that succeeds without the other holes succeeds with them, if it
  comes to an end, and it does so unless it has to ask for an instance without end.
-/

namespace KeyedMatching

/-! ## Making room -/

/-- The numbers from `n` on make room for `m` others. -/
def makeRoom (n m k : Nat) : Nat :=
  if k < n then k else k + m

theorem makeRoom_of_lt {n m k : Nat} (h : k < n) : makeRoom n m k = k :=
  if_pos h

theorem makeRoom_of_le {n m k : Nat} (h : n ≤ k) : makeRoom n m k = k + m :=
  if_neg (Nat.not_lt.2 h)

/-- The room is what no number goes to. -/
theorem makeRoom_ne_iff {n m l : Nat} : (∀ k, makeRoom n m k ≠ l) ↔ n ≤ l ∧ l < n + m := by
  constructor
  · intro free
    have old : n ≤ l := Nat.not_lt.1 fun lt => free l (makeRoom_of_lt lt)
    refine ⟨old, Nat.not_le.1 fun past => free (l - m) ?_⟩
    rw [makeRoom_of_le (by omega)]
    omega
  · rintro ⟨old, within⟩ k rfl
    by_cases lt : k < n
    · rw [makeRoom_of_lt lt] at old
      omega
    · rw [makeRoom_of_le (Nat.not_lt.1 lt)] at within
      omega

theorem strictMono_makeRoom (n m : Nat) : StrictMono (makeRoom n m) := by
  intro k l lt
  unfold makeRoom
  split <;> split <;> omega

namespace Store

/-- The store has given out the number. -/
def Numbered (s : Store) (k _ : Nat) : Prop :=
  k < s.slots.length

/-- The store is about holes that have a number. -/
structure Contained (s : Store) : Prop where
  frozen : s.frozen.bound ≤ s.slots.length
  types : ∀ k d a, s.hole? k = some d → d.type? = some a → a.Over s.Numbered
  values : ∀ k v, s.value? k = some v → v.Over s.Numbered
  pending : ∀ e ∈ s.pending, e.lhs.Over s.Numbered ∧ e.rhs.Over s.Numbered

section
variable {s s' : Store} {m : Nat}

theorem declares_numbered {k n : Nat} (h : s.Declares k n) : s.Numbered k n := by
  obtain ⟨d, hd, _⟩ := h
  exact lt_of_hole? hd

theorem fixed_of_numbered {t : Term} (h : t.Over s.Numbered) :
    t.Fixed (makeRoom s.slots.length m) :=
  h.mono fun _ _ => makeRoom_of_lt

theorem renumber_of_numbered {t : Term} (h : t.Over s.Numbered) :
    t.renumber (makeRoom s.slots.length m) = t :=
  Term.renumber_eq_of_fixed (fixed_of_numbered h)

theorem map_renumber_of_numbered {o : Option Term} (h : ∀ t, o = some t → t.Over s.Numbered) :
    o.map (·.renumber (makeRoom s.slots.length m)) = o := by
  cases o with
  | none => rfl
  | some t => exact congrArg some (renumber_of_numbered (h t rfl))

theorem contains_makeRoom {scope : Scope} (taken : scope.bound ≤ s.slots.length) :
    scope.Fixed (makeRoom s.slots.length m) := by
  intro k
  by_cases old : k < s.slots.length
  · rw [makeRoom_of_lt old]
  · rw [makeRoom_of_le (Nat.not_lt.1 old)]
    have outside : ¬k < scope.bound := by omega
    have outside' : ¬k + m < scope.bound := by omega
    simp [Scope.contains, outside, outside']

theorem Contained.hole (contained : s.Contained) {k : Nat} {d : Hole} (hd : s.hole? k = some d) :
    d.renumber (makeRoom s.slots.length m) = d := by
  have type := map_renumber_of_numbered (m := m) fun a => contained.types k d a hd
  have value := map_renumber_of_numbered (m := m) fun v hv =>
    contained.values k v (Option.bind_eq_some_iff.2 ⟨d, hd, hv⟩)
  rw [Hole.renumber, type, value]

theorem Contained.equations (contained : s.Contained) :
    s.pending.map (Equation.renumber (makeRoom s.slots.length m)) = s.pending := by
  refine (List.map_congr_left fun e he => ?_).trans (List.map_id s.pending)
  obtain ⟨lhs, rhs⟩ := contained.pending e he
  rw [Equation.renumber, renumber_of_numbered lhs, renumber_of_numbered rhs]
  rfl

/-- The second store has an obligation of the type that the first does not have. -/
def AddsObligation (s s' : Store) (a : Term) : Prop :=
  ∃ k d, s.slots.length ≤ k ∧ s'.hole? k = some d ∧ d.kind = .obligation ∧ d.type? = some a

/-- Further holes are idle if they have no value. -/
theorem Appends.widens (more : s.Appends s') (contained : s.Contained)
    (version : s'.version = s.version) :
    s.Widens (s.AddsObligation s')
      (makeRoom s.slots.length (s'.slots.length - s.slots.length)) s' where
  mono := strictMono_makeRoom _ _
  next i := by
    have := more.size
    rw [makeRoom_of_le (by omega)]
    omega
  hole k := by
    by_cases old : k < s.slots.length
    · rw [makeRoom_of_lt old, more.old k old]
      cases hd : s.hole? k with
      | none => rfl
      | some d => exact congrArg some (contained.hole hd).symm
    · have none_before : s.hole? k = none :=
        Option.eq_none_iff_forall_ne_some.2 fun d hd => old (lt_of_hole? hd)
      rw [makeRoom_of_le (Nat.not_lt.1 old), none_before]
      refine Option.eq_none_iff_forall_ne_some.2 fun d hd => ?_
      have := lt_of_hole? hd
      omega
  idle l d new hd := by
    have past : s.slots.length ≤ l := by
      by_contra old
      exact new l (makeRoom_of_lt (Nat.not_le.1 old))
    exact ⟨more.unset l d past hd, fun kind a type => ⟨l, d, past, hd, kind, type⟩⟩
  frozen k := by
    rw [more.frozen]
    exact contains_makeRoom contained.frozen k
  pending := by rw [more.pending, contained.equations]
  version := version

end

end Store

/-- The rule mentions holes that have a number. -/
def Rule.Numbered (s : Store) (r : Rule) : Prop :=
  r.lhs.Over s.Numbered ∧ r.rhs.Over s.Numbered ∧ ∀ p, r.proof? = some p → p.Over s.Numbered

theorem Rule.renumber_eq_self {s : Store} {r : Rule} (h : r.Numbered s) (m : Nat) :
    r.renumber (makeRoom s.slots.length m) = r := by
  obtain ⟨lhs, rhs, proof⟩ := h
  rw [Rule.renumber, Store.renumber_of_numbered lhs, Store.renumber_of_numbered rhs,
    Store.map_renumber_of_numbered proof]

section
variable {cx : Context} {s : Store} {scope : Scope} {rules : List Rule} {occ : Occurrences}
  {target : Term}

/-- Where matches are sound, what a rule puts in mentions holes of the caller's only. -/
theorem replacement_declared (proper : Proper cx s scope) (taken : scope.bound ≤ s.slots.length)
    (htarget : target.Over s.Declares) (inside : InScope s scope target)
    (hrules : ∀ rule ∈ rules, rule.lhs.Over s.Declares ∧ rule.rhs.Over s.Declares) {r : Applied}
    {n : Nat} (h : applyRules? cx (.standard cx) s scope rules occ target = some ⟨.ok r, n⟩) :
    r.replacement.Over s.Declares := by
  obtain ⟨found, rule, searched, hrule, _, _, _, _, store, replaced⟩ := searched_of_applyRules? h
  have candidates : ∀ c ∈ rules.map Rule.candidate, c.pattern.Over s.Declares := by
    intro c hc
    obtain ⟨rule, hrule, rfl⟩ := List.mem_map.1 hc
    obtain ⟨lhs, rhs⟩ := hrules rule hrule
    cases hd : rule.direction <;> simpa [Rule.candidate, Rule.source, hd]
  obtain ⟨c, _, sound, committed⟩ := sound_of_searched proper inside htarget candidates searched
  obtain ⟨T, _, _, closes⟩ := sound.closes
  obtain ⟨ps, base, pass, compiled, located⟩ := locates_of_searched searched
  have inherits := inherits_of_locates compiled.grown taken located
  have declared (k m : Nat) (hk : found.located.store.Declares k m) : s.Declares k m := by
    obtain ⟨d', hd', arity⟩ := hk
    obtain ⟨d, hd, same, _⟩ := inherits k d' hd'
    exact ⟨d, hd, same.trans arity⟩
  have other_side : rule.target.Over s.Declares := by
    obtain ⟨lhs, rhs⟩ := hrules rule (List.mem_of_getElem? hrule)
    cases hd : rule.direction <;> simpa [Rule.target, hd]
  rw [store, committed, Store.instantiate?_freeze] at replaced
  refine Store.over_of_instantiate? (fun k m v _ hv => ?_) other_side replaced
  exact (closes.wellFormed.values k v hv).mono declared

/-- The rewrites are the same, in a store and in another one that has further holes. Only the
placeholders that the search itself declares have other numbers. -/
structure Applied.Same (s s' : Store) (r r' : Applied) : Prop where
  rule : r'.rule = r.rule
  direction : r'.direction = r.direction
  context : r'.context = r.context
  matched : r'.matched = r.matched
  replacement : r'.replacement =
    r.replacement.renumber (makeRoom s.slots.length (s'.slots.length - s.slots.length))
  unmoved : r.replacement.Over s.Numbered → r'.replacement = r.replacement

/-- No instance becomes the value of a hole whose type has a constant where that of every instance
has another one. -/
theorem Context.lacks_of_clash (plain : cx.signature.Plain) (deep : 2 ≤ cx.depth) {a : Term}
    (clash : ∀ i ∈ cx.signature.instances, Unify.Clash a i.type) : cx.Lacks a := by
  intro s k s' h
  obtain ⟨i, hi, s₁, unified, _⟩ := Unify.exists_of_resolveHole? h
  exact unify?_of_clash plain deep (clash i hi) .higherOrder s s₁ unified

/-- A rewrite goes the same way, whatever other holes there are, provided that they have no value
and no registered instance can become one: any answer with them is the same. There is one if it can
be told of each of the added obligations that no instance becomes its value, and there is one in any
case if they are passed over. Where matches are sound, what is put in mentions no placeholder that
the search declares. -/
theorem rewrite_undisturbed (cx : Context) (s s' : Store) (scope : Scope) (rules : List Rule)
    (occ : Occurrences) (target : Term) (r : Applied) (n : Nat) (contained : s.Contained)
    (signature : cx.signature.Over s.Numbered) (taken : scope.bound ≤ s.slots.length)
    (hrules : ∀ rule ∈ rules, rule.Numbered s) (htarget : target.Over s.Numbered)
    (more : s.Appends s') (version : s'.version = s.version)
    (idle : ∀ a, s.AddsObligation s' a → cx.Lacks a)
    (h : applyRules? cx (.standard cx) s scope rules occ target = some ⟨.ok r, n⟩) :
    (∀ answer, applyRules? cx (.standard cx) s' scope rules occ target = some answer →
      ∃ r', answer = ⟨.ok r', n⟩ ∧ r.Same s s' r') ∧
    ((∀ a, s.AddsObligation s' a → cx.Tells a) →
      (applyRules? cx (.standard cx) s' scope rules occ target).isSome) ∧
    (∃ r', applyRules? cx
        (.discharging cx (resolveExcept? cx fun k => s.slots.length ≤ k ∧ k < s'.slots.length))
        s' scope rules occ target = some ⟨.ok r', n⟩ ∧ r.Same s s' r') ∧
    (Proper cx s scope → InScope s scope target → target.Over s.Declares →
      (∀ rule ∈ rules, rule.lhs.Over s.Declares ∧ rule.rhs.Over s.Declares) →
      r.replacement.Over s.Numbered) := by
  have widens := more.widens contained version
  have fixed : cx.signature.Fixed
      (makeRoom s.slots.length (s'.slots.length - s.slots.length)) :=
    signature.mono fun _ _ => makeRoom_of_lt
  have numbered : rules.map (Rule.renumber
      (makeRoom s.slots.length (s'.slots.length - s.slots.length))) = rules :=
    (List.map_congr_left fun rule hrule => Rule.renumber_eq_self (hrules rule hrule) _).trans
      (List.map_id rules)
  have search (total : Prop) {resolve : Store → Option Store}
      (discharge : Discharges cx (s.AddsObligation s')
        (makeRoom s.slots.length (s'.slots.length - s.slots.length)) total resolve) :
      (total → (applyRules? cx (.discharging cx resolve) s' scope rules occ target).isSome) ∧
        ∀ answer, applyRules? cx (.discharging cx resolve) s' scope rules occ target =
          some answer → ∃ r', answer = ⟨.ok r', n⟩ ∧ r.Same s s' r' := by
    have related := applyRules?_related fixed (Store.contains_makeRoom taken) discharge widens
      (fun k v hv => Store.fixed_of_numbered (contained.values k v hv)) rules occ
      (Store.fixed_of_numbered htarget) h
    rw [numbered] at related
    refine ⟨related.1, fun answer ha => ?_⟩
    obtain ⟨r', rfl, step⟩ := related.2 answer ha
    refine ⟨r', rfl, step.rule, step.direction, step.context, step.matched, step.replacement,
      fun isOver => ?_⟩
    rw [step.replacement, Store.renumber_of_numbered isOver]
  have added (k : Nat) : decide (s.slots.length ≤ k ∧ k < s'.slots.length) = true ↔
      ∀ l, makeRoom s.slots.length (s'.slots.length - s.slots.length) l ≠ k := by
    rw [decide_eq_true_iff, makeRoom_ne_iff, Nat.add_sub_of_le more.size]
  have asked := search (∀ a, s.AddsObligation s' a → cx.Tells a) fun _ _ hr =>
    hr.resolve? fixed idle id
  have passed := search True fun _ _ hr => Lifting.follows (hr.resolveExcept? fixed _ added)
  obtain ⟨answer, ha⟩ := Option.isSome_iff_exists.1 (passed.1 trivial)
  obtain ⟨r', rfl, same⟩ := passed.2 answer ha
  exact ⟨asked.2, asked.1, ⟨r', ha, same⟩, fun proper inside declared sides =>
    (replacement_declared proper taken declared inside sides h).mono fun _ _ =>
      Store.declares_numbered⟩

/-- Beside the hole of the rule `f ?0 = ?0` an obligation is open. Its type `eqdec ?0 bool` mentions
the hole, but in no store is it that of the only instance, `eqdec nat nat`, so `f a` is rewritten in
`g (f a)` as it is without it. Of the type `t` this can be told wherever it is asked. -/
theorem rewrite_undisturbed_application :
    let eqdec (a b : Term) : Term := .mk (.const "eqdec") [a, b]
    let nat := Term.const "nat"
    let cx : Context := { signature := Signature.empty.addInstance "i" (eqdec nat nat), limit := 9 }
    let s := (Store.empty.fresh 0 none .ordinary).2
    let obliged (a : Term) : Store := (s.fresh 0 (some a) .obligation).2
    let f (x : Term) : Term := .mk (.const "f") [x]
    let rules : List Rule := [⟨f (.hole 0 []), .hole 0 [], none, .leftToRight⟩]
    let target : Term := .mk (.const "g") [f (.const "a")]
    let rewrite (s : Store) := applyRules? cx (.standard cx) s ⟨0⟩ rules .all target
    ∃ r r' n, rewrite s = some ⟨.ok r, n⟩ ∧
      rewrite (obliged (eqdec (.hole 0 []) (.const "bool"))) = some ⟨.ok r', n⟩ ∧
      r'.rule = r.rule ∧ r'.matched = r.matched ∧ r.replacement = .const "a" ∧
      r'.replacement = .const "a" ∧ (rewrite (obliged (.const "t"))).isSome := by
  intro eqdec nat cx s obliged f rules target rewrite
  have contained : s.Contained := by
    refine ⟨Nat.zero_le _, ?_, ?_, fun e he => by cases he⟩
    · rintro (_ | k) d a hd ha <;> cases hd
      cases ha
    · rintro (_ | k) v hv <;> cases hv
  have signature : cx.signature.Over s.Numbered :=
    (Signature.over_empty _).addInstance (by simp [eqdec, nat])
  have hrules : ∀ rule ∈ rules, rule.Numbered s := by
    have hole : (Term.hole 0 []).Over s.Numbered := Term.over_hole.2 ⟨Nat.one_pos, by simp⟩
    simp only [rules, List.forall_mem_singleton]
    exact ⟨by simpa [f] using hole, hole, fun p hp => by cases hp⟩
  have htarget : target.Over s.Numbered := by simp [target, f]
  have added {a b : Term} (h : s.AddsObligation (obliged a) b) : b = a := by
    obtain ⟨_ | _ | k, d, past, hd, kind, type⟩ := h <;> cases hd <;> cases type
    rfl
  have lacks {a : Term} (clash : Unify.Clash a (eqdec nat nat)) : cx.Lacks a :=
    Context.lacks_of_clash ⟨rfl, rfl⟩ (by decide) (List.forall_mem_singleton.2 clash)
  have more {a : Term} (ha : a.Over s.Declares) : s.Enlarges (obliged a) :=
    Store.enlarges_fresh (by decide) (by simpa using ha)
  have applied : ((rewrite s).bind fun r => r.result.toOption).map (·.replacement) =
      some (.const "a") := by decide +kernel
  obtain ⟨r, hr, replacement⟩ := Option.map_eq_some_iff.1 applied
  obtain ⟨n, h⟩ := exists_of_result hr
  have numbered : r.replacement.Over s.Numbered := by
    rw [replacement]
    exact Term.over_const _
  -- The first argument of `eqdec` may be anything, the second is never the right one.
  have other : cx.Lacks (eqdec (.hole 0 []) (.const "bool")) :=
    lacks (.argument (i := 1) rfl rfl rfl (.const (by decide)))
  have tells : cx.Tells (.const "t") := by
    intro s k cut
    have refused : resolveHole? cx s k (.const "t") cx.signature.instances = some none := rfl
    exact Option.some_ne_none _ (refused.symm.trans cut)
  obtain ⟨same, _, _, _⟩ := rewrite_undisturbed cx s
    (obliged (eqdec (.hole 0 []) (.const "bool"))) ⟨0⟩ rules .all target r n contained signature
    (Nat.zero_le _) hrules htarget
    (more (by simpa [eqdec, Term.over_hole] using ⟨_, rfl, rfl⟩)).toAppends rfl
    (fun a ha => added ha ▸ other) h
  obtain ⟨_, told, _, _⟩ := rewrite_undisturbed cx s (obliged (.const "t")) ⟨0⟩ rules .all target
    r n contained signature (Nat.zero_le _) hrules htarget (more (Term.over_const _)).toAppends
    rfl (fun a ha => added ha ▸ lacks (.const (by decide))) h
  have answered : (rewrite (obliged (eqdec (.hole 0 []) (.const "bool")))).isSome := by
    decide +kernel
  obtain ⟨answer, ha⟩ := Option.isSome_iff_exists.1 answered
  obtain ⟨r', rfl, rewrites⟩ := same answer ha
  exact ⟨r, r', n, h, ha, rewrites.rule, rewrites.matched, replacement,
    (rewrites.unmoved numbered).trans replacement,
    told fun a ha => added ha ▸ tells⟩

end

/-! ## Holes that do matter -/

/-- A rewrite of a closed target that other holes disturb: a rule that mentions none of them applies
in the first store, and in the second not at all or with another replacement. -/
def Disturbs (cx : Context) (s s' : Store) (rules : List Rule) (target : Term) : Prop :=
  s.Orderly ∧ s.Enlarges s' ∧ cx.signature.Over s.Declares ∧ target.holes = [] ∧
    (∀ rule ∈ rules, ∀ k ∈ rule.lhs.holes ++ rule.rhs.holes,
      k < s.slots.length ∨ s'.slots.length ≤ k) ∧
    ∃ r n, applyRules? cx (.standard cx) s ⟨0⟩ rules .all target = some ⟨.ok r, n⟩ ∧
      ∀ r' n', applyRules? cx (.standard cx) s' ⟨0⟩ rules .all target = some ⟨.ok r', n'⟩ →
        r'.replacement ≠ r.replacement

theorem exists_of_disturbed {cx : Context} {s s' : Store} {rules : List Rule} {target t : Term}
    (found : ((applyRules? cx (.standard cx) s ⟨0⟩ rules .all target).bind
      fun r => r.result.toOption).map (·.replacement) = some t)
    (other : ((applyRules? cx (.standard cx) s' ⟨0⟩ rules .all target).bind
      fun r => r.result.toOption).map (·.replacement) ≠ some t) :
    ∃ r n, applyRules? cx (.standard cx) s ⟨0⟩ rules .all target = some ⟨.ok r, n⟩ ∧
      ∀ r' n', applyRules? cx (.standard cx) s' ⟨0⟩ rules .all target = some ⟨.ok r', n'⟩ →
        r'.replacement ≠ r.replacement := by
  obtain ⟨r, hr, replacement⟩ := Option.map_eq_some_iff.1 found
  obtain ⟨n, h⟩ := exists_of_result hr
  refine ⟨r, n, h, fun r' n' h' same => other ?_⟩
  rw [h']
  exact congrArg some (same.trans replacement)

/-- Without one of the conditions other holes can disturb a rewrite.
* The only round that a match may take goes to an obligation that has nothing to do with it.
* The canonical form of `h` for `p` uses hole `0`, which becomes a term with a placeholder in it,
  and the placeholder has another number.
* The rule mentions a hole `3` that is not declared: it is the placeholder of hole `1`, or that of
  hole `0` when there is another hole.
* The type of an obligation reduces forever, so it is never told whether an instance has it. -/
theorem disturbing_holes :
    let f (xs : List Term) : Term := .mk (.const "f") xs
    let a : Term := .const "a"
    let b : Term := .const "b"
    let s := ((Store.empty.fresh 0 none .ordinary).2.fresh 0 none .ordinary).2
    let inhabited := Signature.empty.addInstance "i" (.const "t")
    let canonical := Signature.empty.addProjection "p" 1 |>.addCanonical "p" "h" ⟨.hole 0 [], 0⟩
    let twice := Term.lam (.sort 0) (.mk (.rel 0) [.rel 0])
    Disturbs { signature := inhabited, config := { retryBudget := 1 }, limit := 9 }
      Store.empty (Store.empty.fresh 0 (some (.const "t")) .obligation).2
      [⟨f [a], b, none, .leftToRight⟩] (f [a]) ∧
    Disturbs { signature := canonical, limit := 9 } s (s.fresh 0 none .ordinary).2
      [⟨f [.mk (.const "p") [.mk (.const "mk") [.hole 1 []]], .hole 1 []], .hole 0 [], none,
        .leftToRight⟩]
      (f [.const "h", a]) ∧
    Disturbs { config := { higherOrderFallback := false }, limit := 9 } s
      (s.fresh 0 none .ordinary).2
      [⟨f [.hole 3 [], .hole 0 [], .hole 1 []], a, none, .leftToRight⟩] (f [b, a, b]) ∧
    Disturbs { signature := inhabited, limit := 9 } Store.empty
      (Store.empty.fresh 0 (some (twice.apply [twice])) .obligation).2
      [⟨f [a], b, none, .leftToRight⟩] (f [a]) := by
  intro f a b s inhabited canonical twice
  have grown : Store.empty.Enlarges s :=
    (Store.enlarges_fresh (by decide) (by simp)).trans (Store.enlarges_fresh (by decide) (by simp))
  have orderly : s.Orderly := Store.orderly_empty.enlarge grown
  have more : s.Enlarges (s.fresh 0 none .ordinary).2 :=
    Store.enlarges_fresh (by decide) (by simp)
  have looping : (twice.apply [twice]).Over Store.empty.Declares := by
    have body : (Term.mk (.rel 0) [.rel 0]).Over Store.empty.Declares :=
      Term.over_mk.2 ⟨Term.over_rel 0, List.forall_mem_singleton.2 (Term.over_rel 0)⟩
    have part : twice.Over Store.empty.Declares := Term.over_lam.2 ⟨Term.over_sort 0, body⟩
    exact Term.over_apply.2 ⟨part, List.forall_mem_singleton.2 part⟩
  refine ⟨⟨Store.orderly_empty, Store.enlarges_fresh (by decide) (by simp), ?_, ?_, ?_, ?_⟩,
    ⟨orderly, more, ?_, ?_, ?_, ?_⟩, ⟨orderly, more, Signature.over_empty _, ?_, ?_, ?_⟩,
    ⟨Store.orderly_empty, Store.enlarges_fresh (by decide) (by simpa using looping), ?_, ?_, ?_,
      ?_⟩⟩
  · exact (Signature.over_empty _).addInstance (Term.over_const _)
  · decide +kernel
  · decide +kernel
  · exact exists_of_disturbed (t := b) (by decide +kernel) (by decide +kernel)
  · refine ((Signature.over_empty _).addProjection "p" 1).addCanonical ?_
    exact Term.over_hole.2 ⟨⟨_, rfl, rfl⟩, by simp⟩
  · decide +kernel
  · decide +kernel
  · exact exists_of_disturbed (t := .mk (.const "mk") [.hole 2 []]) (by decide +kernel)
      (by decide +kernel)
  · decide +kernel
  · decide +kernel
  · exact exists_of_disturbed (t := a) (by decide +kernel) (by decide +kernel)
  · exact (Signature.over_empty _).addInstance (Term.over_const _)
  · decide +kernel
  · decide +kernel
  · exact exists_of_disturbed (t := b) (by decide +kernel) (by decide +kernel)

end KeyedMatching
