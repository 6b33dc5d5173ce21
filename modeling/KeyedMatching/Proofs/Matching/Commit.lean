import KeyedMatching.Proofs.Matching.Soundness
import KeyedMatching.Proofs.Matching.Winner

/-!
# The store that a match commits

* `Store.Flat`: no value mentions an assigned hole, which is so after normalising;
* `orderly_of_searched`: a search that succeeds commits an orderly store, with all holes of the
  caller's, if it started from an orderly one and a scope of its.
-/

namespace KeyedMatching

namespace Store

/-! ## Values without assigned holes -/

/-- The values mention holes without a value only. -/
def Flat (s : Store) : Prop :=
  ∀ k v, s.value? k = some v → v.Over fun l _ => s.value? l = none

section
variable {s s' : Store}

/-- The values of all holes but some mention holes without a value only. -/
def FlatBut (hs : List (Nat × Hole)) (s : Store) : Prop :=
  ∀ k v, s.value? k = some v → (∀ p ∈ hs, p.1 ≠ k) → v.Over fun l _ => s.value? l = none

/-- A hole whose value was put together is no exception any more. -/
theorem FlatBut.setValue {p : Nat × Hole} {hs : List (Nat × Hole)} {v w : Term}
    (flat : s.FlatBut (p :: hs)) (hv : s.value? p.1 = some v) (hw : s.instantiate? v = some w) :
    (s.setValue p.1 w).FlatBut hs := by
  have value := value?_setValue_of_value? hv w
  have same (l : Nat) : (s.setValue p.1 w).value? l = none ↔ s.value? l = none := by
    rw [value]
    split
    · next here =>
      rw [here, hv]
      simp
    · rfl
  intro k u hu treated
  simp only [same]
  rw [value] at hu
  split at hu
  · cases hu
    exact (unassigned_of_instantiate? hw).mono fun l _ unset => by simpa [isAssigned] using unset
  · next other => exact flat k u hu (List.forall_mem_cons.2 ⟨fun here => other here.symm, treated⟩)

/-- A hole without a value is no exception. -/
theorem FlatBut.of_unset {p : Nat × Hole} {hs : List (Nat × Hole)} (flat : s.FlatBut (p :: hs))
    (unset : s.value? p.1 = none) : s.FlatBut hs := by
  intro k u hu treated
  refine flat k u hu (List.forall_mem_cons.2 ⟨?_, treated⟩)
  rintro rfl
  rw [unset] at hu
  cases hu

/-- A normalised store is flat. -/
theorem flat_of_normalize? (h : s.normalize? = some s') : s'.Flat := by
  simp only [normalize?, Option.bind_eq_bind, Option.bind_eq_some_iff] at h
  obtain ⟨s₁, treated, es, _, h⟩ := h
  cases h
  have start : s.FlatBut s.holes := by
    intro k v hv untreated
    obtain ⟨d, hd, _⟩ := Option.bind_eq_some_iff.1 hv
    exact absurd rfl (untreated (k, d) (mem_holes.2 hd))
  have flat : s₁.FlatBut [] :=
    treated_induction _ s.pairwise_holes (fun _ => mem_holes.1) start
      (fun _ _ _ _ _ flat => flat.setValue) (fun _ _ _ flat => flat.of_unset) treated
  exact fun k v hv => flat k v hv (by simp)

end

end Store

section
variable {cx : Context} {scope : Scope} {base s : Store} {occ : Occurrences} {target : Term}

/-! ## The store of a match -/

/-- The store of a located match is flat, and has no placeholder outside the scope. -/
theorem flat_of_locates {pass : Pass} {ps : List Pattern} {l : Located} {u : Unifier}
    (h : Locates cx u scope base pass ps l) :
    l.store.Flat ∧ ∀ k d, l.store.hole? k = some d → scope.contains k = false →
      d.kind ≠ .placeholder := by
  obtain ⟨p, s, m, _, _, settled, store, _⟩ := h
  obtain ⟨s', _, _, done⟩ := exists_of_settle? (R := fun _ _ => True) (fun _ _ _ _ _ => trivial)
    (fun _ _ _ => trivial) settled
  obtain ⟨normal, _⟩ := exists_of_conclude? done
  rw [store]
  refine ⟨Store.flat_of_normalize? normal, fun k d hd outside => ?_⟩
  obtain ⟨d', hd', _, _, kind⟩ := Store.inherits_of_normalize? normal k d hd
  rw [← kind]
  exact Store.kind_of_prunePlaceholders hd' outside

/-- The holes that a match leaves are the caller's. -/
theorem inherits_of_locates {pass : Pass} {ps : List Pattern} {l : Located}
    (grown : (s.freeze ⟨max scope.bound s.frozen.bound⟩).Extends base)
    (inside : scope.bound ≤ s.slots.length)
    (h : Locates cx (.standard cx) scope base pass ps l) : s.Inherits l.store := by
  intro k d' hd'
  obtain ⟨d, hd, arity, type, kind⟩ := inherits_of_steps (steps_of_locates h) k d' hd'
  by_cases old : k < s.slots.length
  · exact ⟨d, (grown.old k old).symm.trans hd, arity, type, kind⟩
  · have outside : scope.contains k = false := by
      simp only [Scope.contains, decide_eq_false_iff_not]
      omega
    obtain ⟨_, _, placeholder⟩ := grown.new k d (Nat.not_lt.1 old) hd
    exact absurd (kind.symm.trans placeholder) ((flat_of_locates h).2 k d' hd' outside)

/-! ## A scope of an orderly store -/

section
variable {before : Store}

theorem lt_of_declares {k n : Nat} (h : before.Declares k n) : k < before.slots.length := by
  obtain ⟨d, hd, _⟩ := h
  exact Store.lt_of_hole? hd

/-- What the holes of a store come down to are holes of that store, also when it was enlarged. -/
theorem lt_of_reaches (orderly : before.Orderly) (grown : before.Enlarges s) {k l : Nat}
    (hk : k < before.slots.length) (reach : Relation.ReflTransGen s.DependsOn k l) :
    l < before.slots.length := by
  induction reach with
  | refl => exact hk
  | @tail a b _ step ih =>
    obtain ⟨v, hv, hb⟩ := step
    rw [grown.value?] at hv
    exact Term.over_holes.1 ((orderly.values a v hv).mono fun _ _ q => lt_of_declares q.1) b hb

theorem contains_checkpoint {k : Nat} (h : k < before.slots.length) :
    before.checkpoint.contains k = true :=
  decide_eq_true h

theorem proper_of_enlarges (orderly : before.Orderly) (grown : before.Enlarges s)
    (signature : cx.signature.Over before.Declares) : Proper cx s before.checkpoint where
  wellFormed := (orderly.enlarge grown).wellFormed
  signature := signature.mono fun _ _ => grown.declares
  types := (orderly.enlarge grown).types
  kinds k d hd _ := (orderly.enlarge grown).kinds k d hd
  instances p h form hc k hk l reach _ := by
    have known := Term.over_holes.1
      ((signature.canonicals p h form hc).mono fun _ _ => lt_of_declares) k hk
    exact .inl (contains_checkpoint (lt_of_reaches orderly grown known reach))

theorem inScope_of_enlarges (orderly : before.Orderly) (grown : before.Enlarges s)
    (htarget : target.Over before.Declares) : InScope s before.checkpoint target := by
  intro t ht k hk
  have values (l n : Nat) (v : Term) (_ : before.Declares l n) (hv : s.value? l = some v) :
      v.Over before.Declares := by
    rw [grown.value?] at hv
    exact (orderly.values l v hv).mono fun _ _ q => q.1
  have isOver := Store.over_of_instantiate? values htarget ht
  exact .inl (contains_checkpoint (Term.over_holes.1 (isOver.mono fun _ _ => lt_of_declares) k hk))

/-- A search in an orderly store, with a scope taken before the holes of the candidates were
declared, commits an orderly store with all holes of the caller's. -/
theorem orderly_of_searched {cs : List Candidate} {r : Found} (orderly : before.Orderly)
    (grown : before.Enlarges s) (signature : cx.signature.Over before.Declares)
    (htarget : target.Over before.Declares) (hcs : ∀ c ∈ cs, c.pattern.Over s.Declares)
    (h : Search.Searched cx (.standard cx) s before.checkpoint cs occ target r) :
    r.store.Orderly ∧ ∀ k n, s.Declares k n → r.store.Declares k n := by
  have after := orderly.enlarge grown
  obtain ⟨c, _, sound, store⟩ := sound_of_searched (proper_of_enlarges orderly grown signature)
    (inScope_of_enlarges orderly grown htarget) (htarget.mono fun _ _ => grown.declares) hcs h
  obtain ⟨T, _, _, closes⟩ := sound.closes
  obtain ⟨ps, base, pass, compiled, located⟩ := locates_of_searched h
  have inherits := inherits_of_locates compiled.grown grown.size located
  obtain ⟨flat, _⟩ := flat_of_locates located
  rw [store, after.frozen]
  refine ⟨⟨rfl, closes.pending, fun k d' hd' => ?_, fun k d' a hd' ha => ?_,
    closes.wellFormed.arity, fun k v hv => ?_⟩, closes.declares⟩
  · obtain ⟨d, hd, _, _, kind⟩ := inherits k d' hd'
    rw [← kind]
    exact after.kinds k d hd
  · obtain ⟨d, hd, _, type, _⟩ := inherits k d' hd'
    exact (after.types k d a hd (type.trans ha)).mono closes.declares
  · exact (closes.wellFormed.values k v hv).and_holes (Term.over_holes.1 (flat k v hv))

end

end

end KeyedMatching
