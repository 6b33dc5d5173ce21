import KeyedMatching.Proofs.Matching.Soundness
import KeyedMatching.Proofs.Matching.Winner

/-!
# Holes that are left after a match

A match removes its placeholders from the store that it commits, and what it gives back is used with
that store.

* `Store.Covers`: terms and values use no holes but those that the store declares;
* `covers_of_match`: so it is after a match of a target whose holes are in the scope;
* `dangling_placeholder`: so it need not be when a hole of the target is one that the match may
  assign.
-/

namespace KeyedMatching

/-- The terms, and the values of the store, use declared holes only, with their arities. -/
structure Store.Covers (s : Store) (ts : List Term) : Prop where
  terms : ∀ t ∈ ts, t.Over s.Declares
  values : ∀ k v, s.value? k = some v → v.Over s.Declares

section
variable {cx : Context} {s : Store} {scope : Scope} {occ : Occurrences} {target : Term}
  {cs : List Candidate} {r : Found}

/-- The matched term and its context use no holes but those of the target. -/
theorem over_of_searched {A : Nat → Nat → Prop} (values : ∀ k n v, A k n → s.value? k = some v →
      v.Over A) (inside : InScope s scope target) (htarget : target.Over A)
    (h : Search.Searched cx (.standard cx) s scope cs occ target r) :
    r.context.Over A ∧ r.located.key.Over A := by
  constructor
  · have restored := restores_of_searched inside h
    exact Term.over_of_bind (Store.over_of_instantiate? values htarget restored)
  · obtain ⟨target', ps, base, pass, normal, _, hit⟩ := mem_hits_of_searched h
    have isOver := Store.over_of_instantiate? values htarget normal
    exact over_of_mem_hits (fun node hnode => Term.over_of_mem_preorder isOver hnode) hit

/-- What a search gives back uses the holes that its store declares, and these include the
caller's. -/
theorem covers_of_searched (proper : Proper cx s scope) (inside : InScope s scope target)
    (htarget : target.Over s.Declares)
    (hcs : ∀ c ∈ cs, c.pattern.Over s.Declares ∧ c.payload.Over s.Declares)
    (h : Search.Searched cx (.standard cx) s scope cs occ target r) :
    (∀ k n, s.Declares k n → r.store.Declares k n) ∧
      r.store.Covers [r.context, r.located.key, r.located.payload] := by
  have values := proper.wellFormed.closed.values
  obtain ⟨context, key⟩ := over_of_searched values inside htarget h
  obtain ⟨c, hc, sound, store⟩ :=
    sound_of_searched proper inside htarget (fun c hc => (hcs c hc).1) h
  obtain ⟨T, _, _, closes⟩ := sound.closes
  have kept : ∀ k n, s.Declares k n → r.store.Declares k n := by
    rw [store]
    exact closes.declares
  have wellFormed := closes.wellFormed
  have payload : r.located.payload.Over r.store.Declares := by
    rw [store]
    have before := (hcs c (List.mem_of_getElem? hc)).2.mono closes.declares
    exact Store.over_of_instantiate? wellFormed.closed.values before sound.payload
  refine ⟨kept, ?_, ?_⟩
  · simpa using ⟨context.mono kept, key.mono kept, payload⟩
  · rw [store]
    exact wellFormed.values

/-- After a match, of a pattern or of a rule, no hole is left without a declaration: not in the
values of the committed store, and not in the terms that the match gives back. The conditions are
those of `matched_convertible`: in particular the unassigned holes of the target are in the scope or
frozen. -/
theorem covers_of_match (cx : Context) (s : Store) (scope : Scope) (occ : Occurrences)
    (target : Term) (n : Nat) (proper : Proper cx s scope) (htarget : target.Over s.Declares)
    (inside : ∀ t, s.instantiate? target = some t →
      ∀ k ∈ t.holes, scope.contains k = true ∨ s.frozen.contains k = true) :
    (∀ (pattern : Term) progress r, pattern.Over s.Declares →
      fill? cx (.standard cx) s scope pattern occ target progress = some ⟨.ok r, n⟩ →
        r.store.Covers [r.context, r.matched, r.equation]) ∧
    (∀ rules r, (∀ rule ∈ rules, rule.lhs.Over s.Declares ∧ rule.rhs.Over s.Declares ∧
        ∀ p, rule.proof? = some p → p.Over s.Declares) →
      applyRules? cx (.standard cx) s scope rules occ target = some ⟨.ok r, n⟩ →
        r.store.Covers [r.context, r.matched, r.equation, r.replacement]) := by
  constructor
  · intro pattern progress r isOver h
    obtain ⟨found, searched, context, matched, equation, store⟩ := searched_of_fill? h
    rw [context, matched, equation, store]
    exact (covers_of_searched proper inside htarget (by simpa using isOver) searched).2
  · intro rules r isOver h
    obtain ⟨found, rule, searched, hrule, _, context, matched, equation, store, replaced⟩ :=
      searched_of_applyRules? h
    have sides (rule : Rule) (hrule : rule ∈ rules) :
        rule.source.Over s.Declares ∧ rule.target.Over s.Declares := by
      obtain ⟨lhs, rhs, _⟩ := isOver rule hrule
      unfold Rule.source Rule.target
      cases rule.direction
      · exact ⟨lhs, rhs⟩
      · exact ⟨rhs, lhs⟩
    have candidates : ∀ c ∈ rules.map Rule.candidate,
        c.pattern.Over s.Declares ∧ c.payload.Over s.Declares := by
      refine List.forall_mem_map.2 fun rule hrule => ?_
      have source := (sides rule hrule).1
      refine ⟨source, ?_⟩
      change (rule.proof?.getD rule.source).Over s.Declares
      cases proof : rule.proof? with
      | none => exact source
      | some p => exact (isOver rule hrule).2.2 p proof
    obtain ⟨kept, covers⟩ := covers_of_searched proper inside htarget candidates searched
    have unreplaced := (sides rule (List.mem_of_getElem? hrule)).2
    rw [← store] at kept covers
    have replacement : r.replacement.Over r.store.Declares := by
      refine Store.over_of_instantiate? (fun k _ v _ hv => covers.values k v hv) ?_ replaced
      exact unreplaced.mono kept
    refine ⟨?_, covers.values⟩
    rw [context, matched, equation]
    intro t ht
    rcases List.mem_append.1 (show t ∈ [_, _, _] ++ [r.replacement] from ht) with before | last
    · exact covers.terms t before
    · rw [List.mem_singleton.1 last]
      exact replacement

/-- With the pattern `f ?0` found in `h (f a)`, hole `0` has the value `a`, and the placeholder that
stood for it is gone. -/
theorem covers_of_match_application :
    let cx : Context := { limit := 5 }
    let s := (Store.empty.fresh 0 none .ordinary).2
    let f (x : Term) : Term := .mk (.const "f") [x]
    let target : Term := .mk (.const "h") [f (.const "a")]
    (∃ r n, fill? cx (.standard cx) s ⟨0⟩ (f (.hole 0 [])) .all target .any = some ⟨.ok r, n⟩ ∧
      r.store.value? 0 = some (.const "a") ∧ r.store.Covers [r.context, r.matched, r.equation]) ∧
    ∃ r n, applyRules? cx (.standard cx) s ⟨0⟩ [⟨f (.hole 0 []), .hole 0 [], none, .leftToRight⟩]
        .all target = some ⟨.ok r, n⟩ ∧
      r.store.value? 0 = some (.const "a") ∧
      r.store.Covers [r.context, r.matched, r.equation, r.replacement] := by
  intro cx s f target
  have hole : (Term.hole 0 []).Over s.Declares := Term.over_hole.2 ⟨⟨_, rfl, rfl⟩, by simp⟩
  have pattern : (f (.hole 0 [])).Over s.Declares := by simpa [f] using hole
  have htarget : target.Over s.Declares := by simp [target, f]
  have proper : Proper cx s ⟨0⟩ := by
    refine ⟨.of_unassigned (by rintro (_ | k) <;> rfl) rfl, Signature.over_empty _, ?_, ?_, nofun⟩
    · rintro (_ | k) d a hd ha <;> cases hd
      cases ha
    · rintro (_ | k) d hd _ <;> cases hd
      decide
  have inside : InScope s ⟨0⟩ target :=
    inScope_of_no_holes (by decide +kernel) (by decide +kernel)
  have filled : ((fill? cx (.standard cx) s ⟨0⟩ (f (.hole 0 [])) .all target .any).bind
      fun r => r.result.toOption).map (fun r => r.store.value? 0) = some (some (.const "a")) := by
    decide +kernel
  have applied : ((applyRules? cx (.standard cx) s ⟨0⟩
      [⟨f (.hole 0 []), .hole 0 [], none, .leftToRight⟩] .all target).bind
      fun r => r.result.toOption).map (fun r => r.store.value? 0) = some (some (.const "a")) := by
    decide +kernel
  obtain ⟨r, hr, value⟩ := Option.map_eq_some_iff.1 filled
  obtain ⟨n, h⟩ := exists_of_result hr
  obtain ⟨r', hr', value'⟩ := Option.map_eq_some_iff.1 applied
  obtain ⟨n', h'⟩ := exists_of_result hr'
  have covers := (covers_of_match cx s ⟨0⟩ .all target n proper htarget inside).1
  have covers' := (covers_of_match cx s ⟨0⟩ .all target n' proper htarget inside).2
  exact ⟨⟨r, n, h, value, covers _ _ r pattern h⟩,
    r', n', h', value', covers' _ r' (by simpa using ⟨pattern, hole⟩) h'⟩

/-- The pattern `f (g ?1)` is found in `f ?0`, where both holes can be assigned. The comparison
without unfolding makes the placeholder of hole `1` part of the value of hole `0`, and then it is
removed. -/
theorem dangling_placeholder :
    let cx : Context := { limit := 5 }
    let s := ((Store.empty.fresh 0 none .ordinary).2.fresh 0 none .ordinary).2
    let f (x : Term) : Term := .mk (.const "f") [x]
    let g (x : Term) : Term := .mk (.const "g") [x]
    Proper cx s ⟨0⟩ ∧ (f (.hole 0 [])).Over s.Declares ∧ (f (g (.hole 1 []))).Over s.Declares ∧
    ∃ r n, fill? cx (.standard cx) s ⟨0⟩ (f (g (.hole 1 []))) .all (f (.hole 0 [])) .any =
        some ⟨.ok r, n⟩ ∧
      r.equation = f (g (.hole 2 [])) ∧ r.store.value? 0 = some (g (.hole 2 [])) ∧
      r.store.hole? 2 = none ∧ ¬ r.store.Covers [r.context, r.matched, r.equation] := by
  intro cx s f g
  have hole (k : Nat) (hk : k < 2) : (Term.hole k []).Over s.Declares := by
    obtain rfl | rfl : k = 0 ∨ k = 1 := by omega
    all_goals exact Term.over_hole.2 ⟨⟨_, rfl, rfl⟩, by simp⟩
  have proper : Proper cx s ⟨0⟩ := by
    refine ⟨.of_unassigned (by rintro (_ | _ | k) <;> rfl) rfl, Signature.over_empty _, ?_, ?_,
      nofun⟩
    · rintro (_ | _ | k) d a hd ha <;> cases hd <;> cases ha
    · rintro (_ | _ | k) d hd _ <;> cases hd <;> decide
  have filled : ((fill? cx (.standard cx) s ⟨0⟩ (f (g (.hole 1 []))) .all (f (.hole 0 []))
      .any).bind fun r => r.result.toOption).map
        (fun r => (r.equation, r.store.value? 0, r.store.hole? 2)) =
      some (f (g (.hole 2 [])), some (g (.hole 2 [])), none) := by decide +kernel
  obtain ⟨r, hr, shown⟩ := Option.map_eq_some_iff.1 filled
  obtain ⟨n, h⟩ := exists_of_result hr
  obtain ⟨equation, rest⟩ := Prod.mk.inj shown
  obtain ⟨value, removed⟩ := Prod.mk.inj rest
  refine ⟨proper, by simpa [f] using hole 0 (by omega), by simpa [f, g] using hole 1 (by omega),
    r, n, h, equation, value, removed, fun covers => ?_⟩
  have isOver := covers.values 0 _ value
  have declared : r.store.Declares 2 0 := by
    have inside : (Term.hole 2 []).Over r.store.Declares := by simpa [g] using isOver
    exact (Term.over_hole.1 inside).1
  obtain ⟨d, hd, _⟩ := declared
  rw [removed] at hd
  cases hd

end

end KeyedMatching
