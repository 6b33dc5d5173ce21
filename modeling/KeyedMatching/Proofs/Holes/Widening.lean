import KeyedMatching.Holes.Instantiation
import KeyedMatching.Proofs.Holes.Declaring
import KeyedMatching.Proofs.Matching.Settled
import KeyedMatching.Proofs.Term.Renumbering
import Mathlib.Order.WellFounded

/-!
# Stores with idle holes

`Store.Widens T ρ s s'`: the second store is the first, with hole `ρ k` for each hole `k`, in the
same order, and with further holes that are idle: they have no value, and those that are obligations
have types of `T`. Whatever is done to the two in step leaves them so, and what is read off the
second is what is read off the first, renumbered.

* `Widens.fresh`, `Widens.setValue`, `Widens.prune`: declaring, assigning and removing;
* `Widens.filterMap_holes`: going through the holes in order, where idle ones do not count;
* `Widens.instantiate?`, `Widens.normalize?`: putting values for holes.
-/

namespace KeyedMatching

/-- The declaration with other numbers for the holes. -/
def Hole.renumber (ρ : Nat → Nat) (d : Hole) : Hole :=
  { d with type? := d.type?.map (·.renumber ρ), value? := d.value?.map (·.renumber ρ) }

/-- The equation with other numbers for the holes. -/
def Equation.renumber (ρ : Nat → Nat) (e : Equation) : Equation :=
  { lhs := e.lhs.renumber ρ, rhs := e.rhs.renumber ρ }

/-- The hole has no value. If it is an obligation, then one of the types that `T` admits. -/
def Hole.Idle (T : Term → Prop) (d : Hole) : Prop :=
  d.value? = none ∧ (d.kind = .obligation → ∀ a, d.type? = some a → T a)

namespace Store

/-- The second store is the first, renumbered, with idle holes among the others. -/
structure Widens (T : Term → Prop) (ρ : Nat → Nat) (s s' : Store) : Prop where
  mono : StrictMono ρ
  next : ∀ i, ρ (s.slots.length + i) = s'.slots.length + i
  hole : ∀ k, s'.hole? (ρ k) = (s.hole? k).map (Hole.renumber ρ)
  idle : ∀ l d, (∀ k, ρ k ≠ l) → s'.hole? l = some d → d.Idle T
  frozen : ∀ k, s'.frozen.contains (ρ k) = s.frozen.contains k
  pending : s'.pending = s.pending.map (Equation.renumber ρ)
  version : s'.version = s.version

section
variable {T : Term → Prop} {ρ : Nat → Nat} {s s' : Store}

namespace Widens

theorem inj (h : s.Widens T ρ s') : Function.Injective ρ :=
  h.mono.injective

theorem value? (h : s.Widens T ρ s') (k : Nat) :
    s'.value? (ρ k) = (s.value? k).map (·.renumber ρ) := by
  simp only [Store.value?, h.hole]
  cases s.hole? k <;> rfl

theorem isAssignable (h : s.Widens T ρ s') (k : Nat) :
    s'.isAssignable (ρ k) = s.isAssignable k := by
  simp only [Store.isAssignable, h.frozen, h.hole]
  cases s.hole? k with
  | none => rfl
  | some d => simp [Hole.renumber]

theorem length_le (h : s.Widens T ρ s') : s.slots.length ≤ s'.slots.length := by
  have := h.mono.le_apply (x := s.slots.length)
  have := h.next 0
  simp only [Nat.add_zero] at this
  omega

/-! ## Changes -/

theorem fresh (h : s.Widens T ρ s') (n : Nat) (kind : HoleKind) :
    (s'.fresh n none kind).1 = ρ (s.fresh n none kind).1 ∧
      (s.fresh n none kind).2.Widens T ρ (s'.fresh n none kind).2 := by
  have number : ρ s.slots.length = s'.slots.length := h.next 0
  refine ⟨number.symm, h.mono, fun i => ?_, fun k => ?_, fun l d new hd => ?_, h.frozen, h.pending,
    h.version⟩
  · have later := h.next (1 + i)
    simpa only [Store.fresh, List.length_append, List.length_singleton, Nat.add_assoc] using later
  · rw [hole?_fresh, hole?_fresh, ← number, h.hole]
    by_cases own : k = s.slots.length
    · simp [own, Hole.renumber]
    · simp [own, h.inj.eq_iff]
  · rw [hole?_fresh, ← number, if_neg (new _).symm] at hd
    exact h.idle l d new hd

theorem setValue (h : s.Widens T ρ s') (k : Nat) (v : Term) :
    (s.setValue k v).Widens T ρ (s'.setValue (ρ k) (v.renumber ρ)) := by
  refine ⟨h.mono, fun i => ?_, fun l => ?_, fun l d new hd => ?_, h.frozen, h.pending, h.version⟩
  · simpa [Store.setValue] using h.next i
  · rw [hole?_setValue, hole?_setValue, h.hole, h.hole]
    by_cases own : l = k
    · simp only [own, ↓reduceIte]
      cases s.hole? k <;> rfl
    · simp only [own, h.inj.eq_iff, ↓reduceIte]
  · rw [hole?_setValue, if_neg (new k).symm] at hd
    exact h.idle l d new hd

theorem assign? (h : s.Widens T ρ s') (k : Nat) (v : Term) :
    Option.Rel (Widens T ρ) (s.assign? k v) (s'.assign? (ρ k) (v.renumber ρ)) := by
  unfold Store.assign?
  rw [h.isAssignable]
  split
  · have set := h.setValue k v
    exact .some ⟨set.mono, set.next, set.hole, set.idle, set.frozen, set.pending,
      congrArg (· + 1) h.version⟩
  · exact .none

theorem freeze (h : s.Widens T ρ s') {scope scope' : Scope}
    (same : ∀ k, scope'.contains (ρ k) = scope.contains k) :
    (s.freeze scope).Widens T ρ (s'.freeze scope') :=
  ⟨h.mono, h.next, h.hole, h.idle, same, h.pending, h.version⟩

theorem checkpoint (h : s.Widens T ρ s') (k : Nat) :
    s'.checkpoint.contains (ρ k) = s.checkpoint.contains k := by
  have number : ρ s.slots.length = s'.slots.length := h.next 0
  simp only [Scope.contains, Store.checkpoint, ← number]
  exact decide_eq_decide.2 h.mono.lt_iff_lt

theorem defer (h : s.Widens T ρ s') (e : Equation) :
    (s.defer e).Widens T ρ (s'.defer (e.renumber ρ)) := by
  refine ⟨h.mono, h.next, h.hole, h.idle, h.frozen, ?_, h.version⟩
  simp [Store.defer, h.pending]

theorem of_pending (h : s.Widens T ρ s') (es : List Equation) :
    ({ s with pending := es } : Store).Widens T ρ
      { s' with pending := es.map (Equation.renumber ρ) } :=
  ⟨h.mono, h.next, h.hole, h.idle, h.frozen, rfl, h.version⟩

theorem prune (h : s.Widens T ρ s') {scope : Scope}
    (same : ∀ k, scope.contains (ρ k) = scope.contains k) :
    (prunePlaceholders scope s).Widens T ρ (prunePlaceholders scope s') := by
  have size (t : Store) : (prunePlaceholders scope t).slots.length = t.slots.length :=
    prunePlaceholders_induction (R := fun r => r.slots.length = t.slots.length) rfl
      fun r k _ _ _ _ ih => by simpa [Store.remove] using ih
  have version (t : Store) : (prunePlaceholders scope t).version = t.version :=
    prunePlaceholders_induction (R := fun r => r.version = t.version) rfl fun _ _ _ _ _ _ ih => ih
  have gone {t : Store} {k : Nat} {d : Hole} (hd : t.hole? k = some d)
      (outside : scope.contains k = false) (kind : d.kind = .placeholder) :
      (prunePlaceholders scope t).hole? k = none := by
    cases left : (prunePlaceholders scope t).hole? k with
    | none => rfl
    | some e =>
      have same := hole?_of_prunePlaceholders left
      rw [hd] at same
      cases same
      exact absurd kind (kind_of_prunePlaceholders left outside)
  refine ⟨h.mono, fun i => ?_, fun k => ?_, fun l d new hd => ?_, fun k => ?_, ?_, ?_⟩
  · rw [size, size]
    exact h.next i
  · by_cases removed : ∃ d, s.hole? k = some d ∧ scope.contains k = false ∧ d.kind = .placeholder
    · obtain ⟨d, hd, outside, kind⟩ := removed
      have hd' := h.hole k
      rw [hd] at hd'
      rw [gone hd outside kind, gone hd' ((same k).trans outside) kind]
      rfl
    · have left : (prunePlaceholders scope s).hole? k = s.hole? k :=
        hole?_prunePlaceholders fun d hd outside kind => removed ⟨d, hd, outside, kind⟩
      rw [left, ← h.hole k]
      refine hole?_prunePlaceholders fun d' hd' outside kind => ?_
      rw [h.hole] at hd'
      obtain ⟨d, hd, rfl⟩ := Option.map_eq_some_iff.1 hd'
      exact removed ⟨d, hd, (same k).symm.trans outside, kind⟩
  · exact h.idle l d new (hole?_of_prunePlaceholders hd)
  · rw [(prunePlaceholders_keeps scope s).1, (prunePlaceholders_keeps scope s').1]
    exact h.frozen k
  · rw [(prunePlaceholders_keeps scope s).2, (prunePlaceholders_keeps scope s').2]
    exact h.pending
  · rw [version, version]
    exact h.version

/-! ## Going through the holes -/

end Widens

theorem holes_eq_filterMap (s : Store) :
    s.holes = (List.range s.slots.length).filterMap fun k => (s.hole? k).map fun d => (k, d) := by
  have listed (slots : List (Option Hole)) :
      (slots.zipIdx.filterMap fun p => p.1.map fun d => (p.2, d)) =
        (List.range slots.length).filterMap fun k => slots[k]?.join.map fun d => (k, d) := by
    induction slots using List.reverseRecOn with
    | nil => rfl
    | append_singleton slots slot ih =>
      rw [List.zipIdx_append, List.filterMap_append, ih, List.length_append, List.length_singleton,
        List.range_succ, List.filterMap_append]
      congr 1
      · refine List.filterMap_congr fun k hk => ?_
        rw [List.getElem?_append_left (List.mem_range.1 hk)]
      · cases slot <;> simp
  exact listed s.slots

/-- Going through the numbers below `ρ n` comes to the same as going through those below `n`, if
the others do not count. -/
theorem filterMap_range {α β : Type} (mono : StrictMono ρ) {F : Nat → Option α}
    {F' : Nat → Option β} {g : α → β} (hit : ∀ k, F' (ρ k) = (F k).map g)
    (miss : ∀ l, (∀ k, ρ k ≠ l) → F' l = none) (n : Nat) :
    (List.range (ρ n)).filterMap F' = ((List.range n).filterMap F).map g := by
  induction n with
  | zero =>
    refine List.filterMap_eq_nil_iff.2 fun l hl => miss l fun k same => ?_
    have least := mono.monotone (Nat.zero_le k)
    have := List.mem_range.1 hl
    omega
  | succ n ih =>
    obtain ⟨c, hc⟩ : ∃ c, ρ (n + 1) = ρ n + c + 1 := Nat.exists_eq_add_of_lt (mono (by omega))
    have between : ((List.range (c + 1)).map (ρ n + ·)).filterMap F' = ((F n).map g).toList := by
      have others : (List.range c).filterMap (fun j => F' (ρ n + (j + 1))) = [] := by
        refine List.filterMap_eq_nil_iff.2 fun j hj => miss _ fun k same => ?_
        have := List.mem_range.1 hj
        have above : n < k := mono.lt_iff_lt.1 (by omega)
        have below : k < n + 1 := mono.lt_iff_lt.1 (by omega)
        omega
      rw [List.filterMap_map, List.range_succ_eq_map, List.filterMap_cons, List.filterMap_map]
      simp only [Function.comp_def, Nat.succ_eq_add_one, others, Nat.add_zero, hit]
      cases F n <;> rfl
    rw [hc, Nat.add_assoc, List.range_add, List.filterMap_append, ih, between, List.range_succ,
      List.filterMap_append, List.map_append]
    congr 1
    cases hF : F n <;> simp [hF]

namespace Widens

/-- A choice from the holes that passes over idle ones is the same for both stores. -/
theorem filterMap_holes {α β : Type} (h : s.Widens T ρ s') {f : Nat × Hole → Option α}
    {f' : Nat × Hole → Option β} {g : α → β}
    (hit : ∀ k d, f' (ρ k, d.renumber ρ) = (f (k, d)).map g)
    (miss : ∀ l d, (∀ k, ρ k ≠ l) → d.Idle T → f' (l, d) = none) :
    s'.holes.filterMap f' = (s.holes.filterMap f).map g := by
  have number : ρ s.slots.length = s'.slots.length := h.next 0
  rw [holes_eq_filterMap, holes_eq_filterMap, List.filterMap_filterMap, List.filterMap_filterMap,
    ← number]
  refine filterMap_range h.mono (fun k => ?_) (fun l new => ?_) _
  · rw [h.hole]
    cases s.hole? k with
    | none => rfl
    | some d => exact hit k d
  · cases hd : s'.hole? l with
    | none => rfl
    | some d => exact miss l d new (h.idle l d new hd)

/-! ## Putting values for holes -/

section
variable {again again' : Term → Option Term}

mutual

theorem fillHead (h : s.Widens T ρ s')
    (next : ∀ t, Lifting.option.Related (Maps (Term.renumber ρ)) (again t)
      (again' (t.renumber ρ))) :
    (g : Head) → Lifting.option.Related (Maps (Head.renumber ρ))
      (s.fillHead again g) (s'.fillHead again' (g.renumber ρ))
  | .rel _ => Lifting.option.pure rfl
  | .sort _ => Lifting.option.pure rfl
  | .const _ => Lifting.option.pure rfl
  | .hole _ xs => Lifting.map₁ (h.fillAll next xs) fun _ => rfl
  | .pi a b => Lifting.map₂ (h.fill next a) (h.fill next b) fun _ _ => rfl
  | .lam a b => Lifting.map₂ (h.fill next a) (h.fill next b) fun _ _ => rfl
  | .letIn v a b =>
    Lifting.map₃ (h.fill next a) (h.fill next v) (h.fill next b) fun _ _ _ => rfl
  | .cast t a => Lifting.map₂ (h.fill next a) (h.fill next t) fun _ _ => rfl
  | .case r c bs =>
    Lifting.map₃ (h.fill next r) (h.fill next c) (h.fillAll next bs) fun _ _ _ => rfl
  | .fix _ as bs => Lifting.map₂ (h.fillAll next as) (h.fillAll next bs) fun _ _ => rfl

/-- A hole has its value in the one store if it has it in the other. -/
theorem fill (h : s.Widens T ρ s')
    (next : ∀ t, Lifting.option.Related (Maps (Term.renumber ρ)) (again t)
      (again' (t.renumber ρ))) :
    (t : Term) → Lifting.option.Related (Maps (Term.renumber ρ))
      (s.fill again t) (s'.fill again' (t.renumber ρ))
  | .mk g xs => by
    refine Lifting.option.bind (h.fillHead next g) fun g g' hg => ?_
    refine Lifting.option.bind (h.fillAll next xs) fun ys ys' hys => ?_
    subst hg hys
    cases g with
    | hole k inst =>
      have known := h.value? k
      cases hv : s.value? k with
      | none =>
        rw [hv] at known
        simp only [Head.renumber, known, hv, Option.map_none]
        exact Lifting.option.pure rfl
      | some v =>
        rw [hv] at known
        simp only [Head.renumber, known, hv, Option.map_some, Term.renumberAll_eq_map]
        have value := next (v.instantiateMany inst)
        rw [Term.renumber_instantiateMany] at value
        refine Lifting.option.bind value fun w w' hw => ?_
        rw [hw, ← Term.renumber_betaApply]
        exact Lifting.option.pure rfl
    | _ => exact Lifting.option.pure rfl

theorem fillAll (h : s.Widens T ρ s')
    (next : ∀ t, Lifting.option.Related (Maps (Term.renumber ρ)) (again t)
      (again' (t.renumber ρ))) :
    (xs : List Term) → Lifting.option.Related (Maps (Term.renumberAll ρ))
      (s.fillAll again xs) (s'.fillAll again' (Term.renumberAll ρ xs))
  | [] => Lifting.option.pure rfl
  | x :: xs => Lifting.map₂ (h.fill next x) (h.fillAll next xs) fun _ _ => rfl

end

end

theorem instantiateWithin (h : s.Widens T ρ s') {n n' : Nat} (more : n ≤ n') (t : Term) :
    Lifting.option.Related (Maps (Term.renumber ρ)) (s.instantiateWithin n t)
      (s'.instantiateWithin n' (t.renumber ρ)) := by
  induction n generalizing n' t with
  | zero =>
    cases n' with
    | zero => exact h.fill (fun _ => Lifting.option_none) t
    | succ n' => exact h.fill (fun _ => Lifting.option_none) t
  | succ n ih =>
    obtain ⟨n', rfl⟩ := Nat.exists_eq_add_of_lt more
    exact h.fill (fun u => ih (by omega) u) t

theorem instantiate? (h : s.Widens T ρ s') (t : Term) :
    Lifting.option.Related (Maps (Term.renumber ρ)) (s.instantiate? t)
      (s'.instantiate? (t.renumber ρ)) :=
  h.instantiateWithin h.length_le t

theorem instantiateEquation? (h : s.Widens T ρ s') (e : Equation) :
    Lifting.option.Related (Maps (Equation.renumber ρ)) (s.instantiateEquation? e)
      (s'.instantiateEquation? (e.renumber ρ)) :=
  Lifting.map₂ (h.instantiate? e.lhs) (h.instantiate? e.rhs) fun _ _ => rfl

end Widens

/-- A fold that does nothing at some entries may leave them out. -/
theorem foldlM_filterMap {α β σ : Type} {F : α → Option β} {f : σ → α → Option σ}
    {G : σ → β → Option σ} (xs : List α) (skip : ∀ r, ∀ x ∈ xs, F x = none → f r x = some r)
    (keep : ∀ r, ∀ x ∈ xs, ∀ y, F x = some y → f r x = G r y) (r : σ) :
    xs.foldlM f r = (xs.filterMap F).foldlM G r := by
  induction xs generalizing r with
  | nil => rfl
  | cons x xs ih =>
    have rest := ih (fun r y hy => skip r y (List.mem_cons_of_mem x hy))
      (fun r y hy => keep r y (List.mem_cons_of_mem x hy))
    rw [List.foldlM_cons, List.filterMap_cons]
    cases hF : F x with
    | none =>
      rw [skip r x List.mem_cons_self hF]
      exact rest r
    | some y =>
      rw [keep r x List.mem_cons_self y hF]
      simp only [List.foldlM_cons, rest]

/-- The holes that have a value, with it. -/
def valued (s : Store) : List (Nat × Term) :=
  s.holes.filterMap fun p => p.2.value?.map fun v => (p.1, v)

/-- Normalising goes through the holes that have a value. -/
theorem normalize?_eq (s : Store) : s.normalize? = (do
    let s ← s.valued.foldlM (fun s p => do
      let v ← s.instantiate? p.2
      return s.setValue p.1 v) s
    let pending ← s.pending.mapM s.instantiateEquation?
    return { s with pending }) := by
  unfold Store.normalize? valued
  rw [foldlM_filterMap (F := fun p : Nat × Hole => p.2.value?.map fun v => (p.1, v))
    (G := fun s p => do
      let v ← s.instantiate? p.2
      return s.setValue p.1 v)]
  · intro r p _ unset
    simp only [Option.map_eq_none_iff] at unset
    simp only [unset]
  · intro r p _ q set
    obtain ⟨v, hv, rfl⟩ := Option.map_eq_some_iff.1 set
    simp only [hv]

namespace Widens

theorem normalize? (h : s.Widens T ρ s') :
    Lifting.option.Related (Widens T ρ) s.normalize? s'.normalize? := by
  have values : s'.valued = s.valued.map fun p => (ρ p.1, p.2.renumber ρ) := by
    refine h.filterMap_holes (fun k d => ?_) fun l d _ idle => by simp [idle.1]
    cases hv : d.value? <;> simp [Hole.renumber, hv]
  rw [normalize?_eq, normalize?_eq, values]
  refine Lifting.option.bind (Lifting.foldlM_map _ (fun p _ r r' hr => ?_) h) fun r r' hr => ?_
  · refine Lifting.option.bind (hr.instantiate? p.2) fun v v' hv => ?_
    rw [hv]
    exact Lifting.option.pure (hr.setValue p.1 v)
  · rw [hr.pending]
    refine Lifting.option.bind (Lifting.mapM_map _ fun e _ => hr.instantiateEquation? e)
      fun es es' hes => ?_
    rw [hes]
    exact Lifting.option.pure (hr.of_pending es)

end Widens

end

end Store

end KeyedMatching
