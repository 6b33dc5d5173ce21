import KeyedMatching.Proofs.Equality.Model
import KeyedMatching.Proofs.Matching.Ending
import KeyedMatching.Proofs.Matching.RoundTrip

/-!
# Soundness of a match

In the store of a successful match the pattern is convertible to the matched term, and no equation
was lost on the way.

* `Founded.sound`: a located match is sound in its store;
* `Proper`: what a search may rely on;
* `matched_convertible`: a successful search is sound in the store that it commits;
* `misleading_placeholders`: it need not be without one of the conditions of `Proper`.
-/

namespace KeyedMatching

open Unify Theory

section
variable {cx : Context} {scope : Scope} {A : Nat → Nat → Prop} {base s : Store}

/-! ## Located matches -/

/-- A sound match of a candidate: in a theory that its store closes the pattern is equal to the
matched term and the equations put off before hold, and the candidate admits the match. -/
structure Sound (cx : Context) (A : Nat → Nat → Prop) (pending : List Equation) (c : Candidate)
    (l : Located) : Prop where
  closes : ∃ T, T.Equal c.pattern l.key ∧ Holds T pending ∧ Closes cx A T l.store
  payload : l.store.instantiate? c.payload = some l.payload
  progress : ∃ matched, c.progress l.store matched l.payload = some true

/-- The placeholders of a pattern stand for its holes. -/
theorem stands_of_ready {s₁ s₂ : Store} {p : Pattern} (after : s₂.Extends base)
    (grown : s₁.Extends s₂) (renamed : Pattern.Renamed A s₁ ⟨s₂, p.placeholders⟩) :
    Stands A base p.placeholders := by
  intro q k hq
  obtain ⟨past, d, hd, own⟩ := renamed.arity q k hq
  obtain ⟨unset, _⟩ := grown.new q d past hd
  exact ⟨d.arity, own, after.declares ⟨d, hd, rfl⟩, by simp [Store.value?, after.hole? hd, unset]⟩

/-- A located match is sound. -/
theorem Founded.sound {start : Store} {cs : List Candidate} {ps : List Pattern} {pass : Pass}
    {l : Located} (found : Founded cx scope A base) (old : ∀ k n, A k n → start.Declares k n)
    (compiled : Search.Compiled cx scope start cs ps base)
    (hcs : ∀ c ∈ cs, c.pattern.Over A) (key : l.key.Over (base.Barred A))
    (h : Locates cx (.standard cx) scope base pass ps l) :
    ∃ c, cs[l.index]? = some c ∧ Sound cx A base.pending c l := by
  obtain ⟨p, s, m, hp, tried, settled, store, payload⟩ := h
  obtain ⟨c, s₁, s₂, hc, before, ready, after⟩ := compiled.ready hp
  obtain rfl := ready.candidate
  have pattern := hcs _ (List.mem_of_getElem? hc)
  have same (k : Nat) : base.value? k = s₁.value? k :=
    (after.value? k).trans (ready.grown.value? k)
  have values : ∀ k n v, A k n → s₁.value? k = some v → v.Over A :=
    fun k _ v _ hv => found.values k v ((same k).trans hv)
  have reduced := over_of_whnf? (fun off => by cases off) values pattern ready.term
  obtain ⟨first, renamed⟩ :=
    ready.firstOrder A (fun k n hk => before.declares (old k n hk)) reduced
  have unified := leads_of_tried found reduced (first.mono fun _ _ => after.declares)
    (stands_of_ready after ready.grown renamed) key tried
  obtain ⟨T, admits, knows, met, put_off, closes⟩ := found.settled unified settled
  have whnf := equal_of_whnf? admits.signature (fun off => by cases off)
    (fun k n v hk hv => knows k n v hk ((same k).trans hv)) (fun off => by cases off) values pattern
    ready.term
  obtain ⟨_, _, _, conclusion⟩ := exists_of_settle? (R := fun _ _ => True)
    (fun _ _ _ _ _ => trivial) (fun _ _ _ => trivial) settled
  obtain ⟨_, _, instantiated, admitted⟩ := exists_of_conclude? conclusion
  rw [← store, ← payload] at admitted
  rw [← store, ← payload] at instantiated
  rw [← store] at closes
  exact ⟨p.candidate, hc, ⟨T, whnf.2.trans met, put_off, closes⟩, instantiated, m.matched, admitted⟩

end

/-! ## Searches -/

/-- What a search may rely on. The store is well-formed; the signature and the declared types use
declared holes, with the arities that these have; no hole declared since the scope was taken is a
placeholder; and the holes without a value that canonical instances come down to are in the scope or
frozen. -/
structure Proper (cx : Context) (s : Store) (scope : Scope) : Prop where
  wellFormed : s.WellFormed
  signature : cx.signature.Over s.Declares
  types : ∀ k d a, s.hole? k = some d → d.type? = some a → a.Over s.Declares
  kinds : ∀ k d, s.hole? k = some d → scope.contains k = false → d.kind ≠ .placeholder
  instances : ∀ p h form, cx.signature.canonical? p h = some form → ∀ k ∈ form.inst.holes,
    ∀ l, Relation.ReflTransGen s.DependsOn k l → s.value? l = none →
      scope.contains l = true ∨ s.frozen.contains l = true

section
variable {cx : Context} {s base : Store} {scope : Scope} {occ : Occurrences} {target : Term}

/-- A hole that comes down to shut holes is barred. -/
theorem barred_of_reaches {A : Nat → Nat → Prop} {k n : Nat} (hk : A k n)
    (shut : ∀ l, Relation.ReflTransGen base.DependsOn k l → base.value? l = none →
      base.frozen.contains l = true) : base.Barred A k n := by
  refine ⟨hk, fun l reach => ?_⟩
  rw [Bool.eq_false_iff]
  intro open'
  have frozen := shut l reach (Store.value?_none_of_isAssignable open')
  rw [Store.not_frozen_of_isAssignable open'] at frozen
  cases frozen

theorem Proper.founded (proper : Proper cx s scope)
    (grown : (s.freeze ⟨max scope.bound s.frozen.bound⟩).Extends base) :
    Founded cx scope s.Declares base := by
  have value (k : Nat) : base.value? k = s.value? k := grown.value? k
  have hole (k : Nat) (d : Hole) (hd : base.hole? k = some d) :
      s.hole? k = some d ∨ d.value? = none ∧ d.type? = none ∧ d.kind = .placeholder := by
    by_cases old : k < s.slots.length
    · exact .inl ((grown.old k old).symm.trans hd)
    · exact .inr (grown.new k d (Nat.not_lt.1 old) hd)
  have frozen (k : Nat) (hk : scope.contains k = true ∨ s.frozen.contains k = true) :
      base.frozen.contains k = true := by
    rw [grown.frozen]
    simpa [Store.freeze, Scope.contains] using hk
  constructor
  case signature => exact proper.signature
  case declared => exact fun k n hk => grown.declares hk
  case values => exact fun k v hv => proper.wellFormed.values k v ((value k).symm.trans hv)
  case bounded =>
    rintro k n v ⟨d, hd, rfl⟩ hv
    rcases hole k d hd with old | ⟨unset, _⟩
    · exact proper.wellFormed.bounded k _ v ⟨d, old, rfl⟩ ((value k).symm.trans hv)
    · simp [Store.value?, hd, unset] at hv
  case pending =>
    rw [grown.pending]
    exact proper.wellFormed.pending
  case types =>
    intro k d a hd ha
    rcases hole k d hd with old | ⟨_, untyped, _⟩
    · exact proper.types k d a old ha
    · rw [untyped] at ha
      cases ha
  case acyclic => exact proper.wellFormed.acyclic.of_keeps fun k v hv => (value k).symm.trans hv
  case frozen => exact fun k hk => frozen k (.inl hk)
  case own =>
    rintro k n d ⟨d', hd', _⟩ hd outside
    obtain rfl := Option.some.inj ((grown.hole? hd').symm.trans hd)
    exact proper.kinds k d' hd' outside
  case rest =>
    intro k d hd
    rcases hole k d hd with old | ⟨unset, _, placeholder⟩
    · exact .inl ⟨d, old, rfl⟩
    · exact .inr ⟨placeholder, unset⟩
  case forms =>
    intro p h form hc
    have same : base.DependsOn = s.DependsOn := by
      funext k l
      simp only [Store.DependsOn, value]
    have shut := (proper.signature.canonicals p h form hc).and_holes (proper.instances p h form hc)
    refine shut.mono fun k n q => barred_of_reaches q.1 fun l reach unset => ?_
    rw [same] at reach
    exact frozen l (q.2 l reach ((value l).symm.trans unset))

/-- A successful search is sound. -/
theorem sound_of_searched {cs : List Candidate} {r : Found} (proper : Proper cx s scope)
    (inside : InScope s scope target) (htarget : target.Over s.Declares)
    (hcs : ∀ c ∈ cs, c.pattern.Over s.Declares)
    (h : Search.Searched cx (.standard cx) s scope cs occ target r) :
    ∃ c, cs[r.located.index]? = some c ∧ Sound cx s.Declares s.pending c r.located ∧
      r.store = r.located.store.freeze s.frozen := by
  obtain ⟨store, target', ps, base, ht, compiled, passed⟩ := h
  rw [Store.instantiate?_freeze] at ht
  have found := proper.founded compiled.grown
  have isOver := Store.over_of_instantiate? proper.wellFormed.closed.values htarget ht
  have shut := isOver.and_holes (Term.over_holes.1 (shut_of_inScope inside ht compiled.grown))
  obtain ⟨⟨pass, key, located⟩, _⟩ := restores_of_passed (fun _ _ q => q.2) shut passed
  have barred : r.located.key.Over (base.Barred s.Declares) := by
    refine key.mono fun k n q => barred_of_reaches q.1 fun l reach _ => ?_
    rcases Relation.ReflTransGen.cases_head reach with rfl | ⟨m, ⟨v, hv, _⟩, _⟩
    · exact q.2.1
    · rw [q.2.2] at hv
      cases hv
  have old : ∀ k n, s.Declares k n →
      (s.freeze ⟨max scope.bound s.frozen.bound⟩).Declares k n := fun _ _ hk => hk
  obtain ⟨c, hc, sound⟩ := found.sound old compiled hcs barred located
  rw [compiled.grown.pending] at sound
  exact ⟨c, hc, sound, store⟩

/-- A term is convertible to what a sound match instantiates it to, if that is the pattern then to
the matched term, too. -/
theorem Sound.convertible {A : Nat → Nat → Prop} {pending : List Equation} {c : Candidate}
    {l : Located} (sound : Sound cx A pending c l) (scope' : Scope) (isOver : c.pattern.Over A)
    {t : Term} (ht : l.store.instantiate? c.pattern = some t) :
    (l.store.freeze scope').Convertible cx t l.key ∧
      (∀ e ∈ pending, (l.store.freeze scope').Convertible cx e.lhs e.rhs) ∧
      (l.store.freeze scope').pending = [] := by
  obtain ⟨T, pattern, put_off, closes⟩ := sound.closes
  have instantiated : (l.store.freeze scope').Convertible cx c.pattern t :=
    equal_of_instantiate? (knows_theory l.store.Declares l.store _ _)
      closes.wellFormed.closed.values (isOver.mono closes.declares) ht
  exact ⟨instantiated.symm.trans (closes.equal _ _ pattern),
    fun e he => closes.equal _ _ (put_off e he), closes.pending⟩

/-- What a successful search found is convertible, in the store that it commits, to what it looked
for: to the instantiated pattern, or to what the store makes of the side of the rule. The equations
put off before hold there, and none is left. -/
theorem matched_convertible (cx : Context) (s : Store) (scope : Scope) (occ : Occurrences)
    (target : Term) (n : Nat) (proper : Proper cx s scope) (htarget : target.Over s.Declares)
    (inside : ∀ t, s.instantiate? target = some t →
      ∀ k ∈ t.holes, scope.contains k = true ∨ s.frozen.contains k = true) :
    (∀ (pattern : Term) progress r, pattern.Over s.Declares →
      fill? cx (.standard cx) s scope pattern occ target progress = some ⟨.ok r, n⟩ →
        r.store.Convertible cx r.equation r.matched ∧
        (∀ e ∈ s.pending, r.store.Convertible cx e.lhs e.rhs) ∧ r.store.pending = []) ∧
    (∀ rules r, (∀ rule ∈ rules, rule.source.Over s.Declares) →
      applyRules? cx (.standard cx) s scope rules occ target = some ⟨.ok r, n⟩ →
        ∃ rule t, rules[r.rule]? = some rule ∧ r.store.instantiate? rule.source = some t ∧
          r.store.Convertible cx t r.matched ∧
          (∀ e ∈ s.pending, r.store.Convertible cx e.lhs e.rhs) ∧ r.store.pending = []) := by
  constructor
  · intro pattern progress r isOver h
    obtain ⟨found, searched, _, matched, equation, store⟩ := searched_of_fill? h
    obtain ⟨c, hc, sound, committed⟩ :=
      sound_of_searched proper inside htarget (by simpa using isOver) searched
    obtain rfl := List.mem_singleton.1 (List.mem_of_getElem? hc)
    rw [matched, equation, store, committed]
    exact sound.convertible s.frozen isOver sound.payload
  · intro rules r isOver h
    obtain ⟨found, rule, searched, hrule, index, _, matched, _, store, _⟩ :=
      searched_of_applyRules? h
    have candidates : ∀ c ∈ rules.map Rule.candidate, c.pattern.Over s.Declares := by
      intro c hc
      obtain ⟨rule, hrule, rfl⟩ := List.mem_map.1 hc
      exact isOver rule hrule
    obtain ⟨c, hc, sound, committed⟩ := sound_of_searched proper inside htarget candidates searched
    rw [List.getElem?_map, hrule] at hc
    cases hc
    -- The rule was admitted for what its two sides are instantiated to.
    obtain ⟨_, progress⟩ := sound.progress
    obtain ⟨t, ht, _⟩ := Option.bind_eq_some_iff.1 progress
    rw [matched, store, committed, index]
    exact ⟨rule, t, hrule, (Store.instantiate?_freeze _ _ _).trans ht,
      sound.convertible s.frozen (isOver rule (List.mem_of_getElem? hrule)) ht⟩

/-- With `d` defined as `c a`, the pattern `f (c ?0)` is found in `f d` by unfolding, and so is the
rule `f (c ?0) = ?0`. -/
theorem matched_convertible_definition :
    let f (x : Term) : Term := .mk (.const "f") [x]
    let c (x : Term) : Term := .mk (.const "c") [x]
    let signature := Signature.empty.define "d" (c (.const "a")) none
    let cx : Context := { signature, limit := 9 }
    let s := (Store.empty.fresh 0 none .ordinary).2
    let pattern := f (c (.hole 0 []))
    (∃ r n, fill? cx (.standard cx) s ⟨0⟩ pattern .all (f (.const "d")) .any = some ⟨.ok r, n⟩ ∧
      r.equation = f (c (.const "a")) ∧ r.matched = f (.const "d") ∧
      r.store.Convertible cx r.equation r.matched) ∧
    ∃ r n, applyRules? cx (.standard cx) s ⟨0⟩ [⟨pattern, .hole 0 [], none, .leftToRight⟩] .all
        (f (.const "d")) = some ⟨.ok r, n⟩ ∧
      ∃ t, r.store.instantiate? pattern = some t ∧ r.store.Convertible cx t r.matched := by
  intro f c signature cx s pattern
  have declared : s.Declares 0 0 := ⟨_, rfl, rfl⟩
  have isOver : pattern.Over s.Declares := by
    simpa [pattern, f, c, Term.over_hole] using declared
  have proper : Proper cx s ⟨0⟩ := by
    refine ⟨.of_unassigned (by rintro (_ | k) <;> rfl) rfl, (Signature.over_empty _).define ?_,
      ?_, ?_, fun p h form hc => by cases hc⟩
    · simp [c]
    · rintro (_ | k) d a hd ha <;> cases hd
      cases ha
    · rintro (_ | k) d hd _ <;> cases hd
      decide
  have target : (f (.const "d")).Over s.Declares := by simp [f]
  have inside : InScope s ⟨0⟩ (f (.const "d")) := by
    intro t ht k hk
    have same : s.instantiate? (f (.const "d")) = some (f (.const "d")) := by decide +kernel
    rw [same] at ht
    cases ht
    cases hk
  have filled : ((fill? cx (.standard cx) s ⟨0⟩ pattern .all (f (.const "d")) .any).bind
      fun r => r.result.toOption).map (fun r => (r.equation, r.matched)) =
        some (f (c (.const "a")), f (.const "d")) := by decide +kernel
  have applied : ((applyRules? cx (.standard cx) s ⟨0⟩
      [⟨pattern, .hole 0 [], none, .leftToRight⟩] .all (f (.const "d"))).bind
      fun r => r.result.toOption).map (·.rule) = some 0 := by decide +kernel
  obtain ⟨r, hr, shown⟩ := Option.map_eq_some_iff.1 filled
  obtain ⟨equation, matched⟩ := Prod.mk.inj shown
  obtain ⟨n, h⟩ := exists_of_result hr
  obtain ⟨r', hr', _⟩ := Option.map_eq_some_iff.1 applied
  obtain ⟨n', h'⟩ := exists_of_result hr'
  obtain ⟨fill, _⟩ := matched_convertible cx s ⟨0⟩ .all (f (.const "d")) n proper target inside
  obtain ⟨_, rules⟩ := matched_convertible cx s ⟨0⟩ .all (f (.const "d")) n' proper target inside
  obtain ⟨rule, t, hrule, ht, equal, _⟩ := rules _ r' (by simpa [Rule.source] using isOver) h'
  refine ⟨⟨r, n, h, equation, matched, (fill pattern _ r isOver h).1⟩, r', n', h', t, ?_, equal⟩
  obtain rfl := List.mem_singleton.1 (List.mem_of_getElem? hrule)
  exact ht

end

/-! ## What a search may not rely on -/

/-- A filling that succeeds though pattern and matched term are not convertible in the store that it
commits, on a well-formed store, a signature and terms that keep to the declared holes, and a target
whose holes are in the scope. -/
def Misleads (cx : Context) (s : Store) (scope : Scope) (pattern target : Term) : Prop :=
  s.WellFormed ∧ cx.signature.Over s.Declares ∧ pattern.Over s.Declares ∧
    target.Over s.Declares ∧ InScope s scope target ∧
    ∃ r n, fill? cx (.standard cx) s scope pattern .all target .any = some ⟨.ok r, n⟩ ∧
      ¬ r.store.Convertible cx r.equation r.matched

/-- An interpretation that tells terms apart: `a` and `y` are found atomic, `p` and `mk` are where
their argument is, and `f` where its first argument is, of up to three. -/
def Interpretation.probe : Interpretation where
  const c :=
    if c = "a" ∨ c = "y" then {.atom}
    else if c = "p" ∨ c = "mk" then {.arrow [.atom] .atom}
    else if c = "f" then
      {.arrow [.atom] .atom, .arrow [.atom] (.arrow [] .atom),
        .arrow [.atom] (.arrow [] (.arrow [] .atom))}
    else ∅
  hole k := if k = 1 then {.atom} else ∅

section
variable {cx : Context} {s : Store} {scope : Scope} {pattern target equation matched : Term}
  {committed : Store}

theorem inScope_of_no_holes (same : s.instantiate? target = some target)
    (none' : target.holes = []) : InScope s scope target := by
  intro t ht k hk
  obtain rfl := Option.some.inj (same.symm.trans ht)
  rw [none'] at hk
  cases hk

/-- Where no hole has variables and no constant a definition, the probe is a model if it gives every
assigned hole what its value denotes. -/
theorem probe_models (plain : ∀ k d, s.hole? k = some d → d.arity = 0)
    (undefined : ∀ c, cx.signature.definition? c = none)
    (value : ∀ k v, s.value? k = some v → ∀ ρ, v.denote .probe ρ = Interpretation.probe.hole k)
    (canonical : ∀ p h form n, cx.signature.canonical? p h = some form →
      cx.signature.projection? p = some n → n = 1 ∧ form.extra = 0 ∧
      ∀ ρ, Token.app (Interpretation.probe.const p) (form.inst.denote .probe ρ) =
        Interpretation.probe.const h) :
    Interpretation.probe.Models (s.theory s.Declares cx.signature true) where
  unfold _ c d hd := by
    have none' := undefined c
    exact absurd (none'.symm.trans hd) (by simp)
  value k v xs hk hv ρ := by
    obtain ⟨d, hd, arity⟩ := hk
    obtain rfl := List.eq_nil_of_length_eq_zero (arity.symm.trans (plain k d hd))
    rw [Term.instantiateMany_nil]
    exact (value k v hv ρ).symm
  canonical p h n form ps es xs hp hc hn he ρ := by
    obtain ⟨rfl, extra, same⟩ := canonical p h form n hc hp
    obtain rfl := List.eq_nil_of_length_eq_zero (Nat.succ.inj hn)
    obtain rfl := List.eq_nil_of_length_eq_zero (he.trans extra)
    rw [Term.apply_nil]
    exact congrArg (fun X => Token.apps X (Term.denoteAll .probe xs ρ)) (same ρ)

theorem exists_of_filled
    (filled : ((fill? cx (.standard cx) s scope pattern .all target .any).bind
      fun r => r.result.toOption).map (fun r => (r.equation, r.matched, r.store)) =
        some (equation, matched, committed))
    (models : Interpretation.probe.Models
      (committed.theory committed.Declares cx.signature true))
    (found : .atom ∈ matched.denote .probe (fun _ => ∅) ↔
      .atom ∉ equation.denote .probe fun _ => ∅) :
    ∃ r n, fill? cx (.standard cx) s scope pattern .all target .any = some ⟨.ok r, n⟩ ∧
      ¬ r.store.Convertible cx r.equation r.matched := by
  obtain ⟨r, hr, shown⟩ := Option.map_eq_some_iff.1 filled
  obtain ⟨n, h⟩ := exists_of_result hr
  cases shown
  refine ⟨r, n, h, fun equal => ?_⟩
  rw [models.denote_eq equal] at found
  exact iff_not_self found

end

/-- Without one of the conditions of `Proper` a match is not sound.
* Hole `0` is a placeholder of the caller's, which is removed with the value that it was given.
* The types of holes `0` and `1` use a hole `3` that is declared by the match only. The types of
  their values make it the value of hole `2`, and it is removed.
* The canonical form of `h` for `p` uses hole `0`, which becomes a term with a placeholder in it. -/
theorem misleading_placeholders :
    let f (xs : List Term) : Term := .mk (.const "f") xs
    let g (x : Term) : Term := .mk (.const "g") [x]
    let a : Term := .const "a"
    let typed := Signature.empty.declare "x" (g (.hole 2 [])) |>.declare "y" (g (.lam (.sort 0) a))
    let canonical := Signature.empty.addProjection "p" 1 |>.addCanonical "p" "h" ⟨.hole 0 [], 0⟩
    let s := (Store.empty.fresh 0 none .ordinary).2
    let s' := (Store.empty.fresh 0 (some (g (.hole 3 []))) .ordinary).2
    Misleads { limit := 9 } (Store.empty.fresh 0 none .placeholder).2 ⟨0⟩ (f [.hole 0 []]) (f [a]) ∧
    Misleads { signature := typed, limit := 9 }
      ((s'.fresh 0 (some (g (.hole 3 []))) .ordinary).2.fresh 0 none .ordinary).2 ⟨0⟩
      (f [.mk (.hole 2 []) [.const "b"], .hole 0 [], .hole 1 []]) (f [a, .const "x", .const "y"]) ∧
    Misleads { signature := canonical, limit := 9 } (s.fresh 0 none .ordinary).2 ⟨0⟩
      (f [.mk (.const "p") [.mk (.const "mk") [.hole 1 []]], .hole 1 []]) (f [.const "h", a]) := by
  intro f g a typed canonical s s'
  refine ⟨?_, ?_, ?_⟩
  · let s := (Store.empty.fresh 0 none .placeholder).2
    have declared : s.Declares 0 0 := ⟨_, rfl, rfl⟩
    have filled : ((fill? { limit := 9 } (.standard { limit := 9 }) s ⟨0⟩ (f [.hole 0 []]) .all
        (f [a]) .any).bind fun r => r.result.toOption).map
          (fun r => (r.equation, r.matched, r.store)) =
        some (f [.hole 0 []], f [a], { slots := [none, none], version := 2 }) := by
      decide +kernel
    refine ⟨.of_unassigned (by rintro (_ | k) <;> rfl) rfl, Signature.over_empty _, ?_, ?_,
      inScope_of_no_holes (by decide +kernel) (by decide +kernel), exists_of_filled filled ?_ ?_⟩
    · simpa [f, Term.over_hole] using declared
    · simp [f, a]
    · refine probe_models ?_ (fun c => rfl) ?_ (fun p h form n hc => by cases hc)
      · rintro (_ | _ | k) d hd <;> cases hd
      · rintro (_ | _ | k) v hv <;> cases hv
    · simp [f, a, Term.denote, Head.denote, Term.denoteAll, Token.apps, Token.app,
        Interpretation.probe]
  · let s := ((s'.fresh 0 (some (g (.hole 3 []))) .ordinary).2.fresh 0 none .ordinary).2
    have declared (k : Nat) (hk : k < 3) : s.Declares k 0 := by
      obtain rfl | rfl | rfl : k = 0 ∨ k = 1 ∨ k = 2 := by omega
      all_goals exact ⟨_, rfl, rfl⟩
    have hole (k : Nat) (hk : k < 3) : (Term.hole k []).Over s.Declares :=
      Term.over_hole.2 ⟨declared k hk, by simp⟩
    let found (type? : Option Term) (v : Term) : Option Hole := some ⟨0, type?, .ordinary, some v⟩
    let type := some (g (.hole 3 []))
    have filled : ((fill? { signature := typed, limit := 9 }
        (.standard { signature := typed, limit := 9 }) s ⟨0⟩
        (f [.mk (.hole 2 []) [.const "b"], .hole 0 [], .hole 1 []]) .all
        (f [a, .const "x", .const "y"]) .any).bind fun r => r.result.toOption).map
          (fun r => (r.equation, r.matched, r.store)) =
        some (f [.mk (.hole 3 []) [.const "b"], .const "x", .const "y"],
          f [a, .const "x", .const "y"],
          { slots := [found type (.const "x"), found type (.const "y"), found none (.hole 3 []),
              none, none, none], version := 4 }) := by
      decide +kernel
    refine ⟨.of_unassigned (by rintro (_ | _ | _ | k) <;> rfl) rfl, ?_, ?_, ?_,
      inScope_of_no_holes (by decide +kernel) (by decide +kernel), exists_of_filled filled ?_ ?_⟩
    · refine ((Signature.over_empty _).declare ?_).declare ?_
      · simpa [g] using hole 2 (by omega)
      · simp [g, a, Term.over_lam]
    · have flexible : (Term.mk (.hole 2 []) [.const "b"]).Over s.Declares :=
        Term.over_mk.2 ⟨hole 2 (by omega), by simp⟩
      simpa [f] using ⟨flexible, hole 0 (by omega), hole 1 (by omega)⟩
    · simp [f, a]
    · refine probe_models ?_ (fun c => rfl) ?_ (fun p h form n hc => by cases hc)
      · rintro (_ | _ | _ | _ | _ | _ | k) d hd <;> cases hd <;> rfl
      · rintro (_ | _ | _ | _ | _ | _ | k) v hv ρ <;> cases hv <;>
          simp [Term.denote, Head.denote, Term.denoteAll, Token.apps, Interpretation.probe]
    · simp [f, a, Term.denote, Head.denote, Term.denoteAll, Token.apps, Token.app,
        Interpretation.probe]
  · let s := (s.fresh 0 none .ordinary).2
    have hole (k : Nat) (hk : k < 2) : (Term.hole k []).Over s.Declares := by
      obtain rfl | rfl : k = 0 ∨ k = 1 := by omega
      all_goals exact Term.over_hole.2 ⟨⟨_, rfl, rfl⟩, by simp⟩
    let p (x : Term) : Term := .mk (.const "p") [.mk (.const "mk") [x]]
    let found (v : Term) : Option Hole := some ⟨0, none, .ordinary, some v⟩
    have filled : ((fill? { signature := canonical, limit := 9 }
        (.standard { signature := canonical, limit := 9 }) s ⟨0⟩
        (f [p (.hole 1 []), .hole 1 []]) .all (f [.const "h", a]) .any).bind
          fun r => r.result.toOption).map (fun r => (r.equation, r.matched, r.store)) =
        some (f [p a, a], f [.const "h", a],
          { slots := [found (.mk (.const "mk") [.hole 2 []]), found a, none], version := 3 }) := by
      decide +kernel
    refine ⟨.of_unassigned (by rintro (_ | _ | k) <;> rfl) rfl, ?_, ?_, ?_,
      inScope_of_no_holes (by decide +kernel) (by decide +kernel), exists_of_filled filled ?_ ?_⟩
    · exact ((Signature.over_empty _).addProjection "p" 1).addCanonical (hole 0 (by omega))
    · simpa [f] using hole 1 (by omega)
    · simp [f, a]
    · refine probe_models ?_ (fun c => rfl) ?_ ?_
      · rintro (_ | _ | _ | k) d hd <;> cases hd <;> rfl
      · rintro (_ | _ | _ | k) v hv ρ <;> cases hv <;>
          simp [a, Term.denote, Head.denote, Term.denoteAll, Token.apps, Token.app,
            Interpretation.probe]
      · intro q c form n hc hq
        change List.lookup (q, c) [(("p", "h"), ⟨.hole 0 [], 0⟩)] = some form at hc
        rw [List.lookup_cons] at hc
        split at hc
        · next same =>
          cases hc
          obtain ⟨rfl, rfl⟩ := Prod.mk.inj (eq_of_beq same)
          obtain rfl : 1 = n := Option.some.inj hq
          simp [Term.denote, Head.denote, Term.denoteAll, Token.apps, Token.app,
            Interpretation.probe]
        · cases hc
    · simp [f, p, a, Term.denote, Head.denote, Term.denoteAll, Token.apps, Token.app,
        Interpretation.probe]

end KeyedMatching
