import KeyedMatching.Matching.Pattern
import KeyedMatching.Proofs.Holes.Declaring
import KeyedMatching.Proofs.Unification.Outcome

/-!
# What making a pattern ready does

* `Term.replaceM_keeps`: replacing with a state keeps an invariant of the state, and keeps the term
  to holes that the state knows;
* `Store.Extends`: the store only got placeholders;
* `Pattern.Ready`: a pattern made ready, with its placeholders in a store.
-/

namespace KeyedMatching

/-! ## Replacing with a state -/

section
variable {τ : Type} {inv : τ → Prop} {le : τ → τ → Prop} {α β : Type}

/-- Started in a state with the invariant, the computation ends in a later one, and `Q` holds of
that and the result. -/
def Keeps (inv : τ → Prop) (le : τ → τ → Prop) (x : StateM τ α) (Q : τ → α → Prop) : Prop :=
  ∀ st, inv st → inv (x.run st).2 ∧ le st (x.run st).2 ∧ Q (x.run st).2 (x.run st).1

theorem Keeps.mono {x : StateM τ α} {Q Q' : τ → α → Prop} (h : Keeps inv le x Q)
    (imp : ∀ st a, Q st a → Q' st a) : Keeps inv le x Q' :=
  fun st hst => ⟨(h st hst).1, (h st hst).2.1, imp _ _ (h st hst).2.2⟩

variable (refl : ∀ st, le st st) (trans : ∀ a b c, le a b → le b c → le a c)

include refl in
theorem keeps_pure {a : α} {Q : τ → α → Prop} (h : ∀ st, inv st → Q st a) :
    Keeps inv le (pure a) Q :=
  fun st hst => ⟨hst, refl st, h st hst⟩

include trans in
theorem keeps_bind {x : StateM τ α} {f : α → StateM τ β} {P : τ → α → Prop} {Q : τ → β → Prop}
    (hx : Keeps inv le x P) (later : ∀ st st' a, le st st' → P st a → P st' a)
    (hf : ∀ a, Keeps inv le (f a) fun st b => P st a → Q st b) : Keeps inv le (x >>= f) Q := by
  intro st hst
  obtain ⟨invMid, leMid, first⟩ := hx st hst
  obtain ⟨invEnd, leEnd, second⟩ := hf _ _ invMid
  exact ⟨invEnd, trans _ _ _ leMid leEnd, second (later _ _ _ leEnd first)⟩

variable {f : Term → Nat → StateM τ (Option Term)} {A : τ → Nat → Nat → Prop} {B : Nat → Nat → Prop}

/-- A replacement that answers with terms over the holes that its state knows. -/
structure Replacing (inv : τ → Prop) (le : τ → τ → Prop) (A : τ → Nat → Nat → Prop)
    (B : Nat → Nat → Prop) (f : Term → Nat → StateM τ (Option Term)) : Prop where
  refl : ∀ st, le st st
  trans : ∀ a b c, le a b → le b c → le a c
  later : ∀ st st' k n, le st st' → A st k n → A st' k n
  start : ∀ st k n, inv st → B k n → A st k n
  answer : ∀ u d, u.Over B → Keeps inv le (f u d) fun st r => ∀ w, r = some w → w.Over (A st)

theorem Replacing.over_later (h : Replacing inv le A B f) (st st' : τ) (t : Term)
    (hle : le st st') (ht : t.Over (A st)) : t.Over (A st') :=
  ht.mono fun k n => h.later st st' k n hle

theorem Replacing.overAll_later (h : Replacing inv le A B f) (st st' : τ) (ts : List Term)
    (hle : le st st') (hts : ∀ t ∈ ts, t.Over (A st)) : ∀ t ∈ ts, t.Over (A st') :=
  fun t ht => h.over_later st st' t hle (hts t ht)

mutual

theorem Head.replaceM_keeps (h : Replacing inv le A B f) : (g : Head) → (d : Nat) →
    (Term.ofHead g).Over B → Keeps inv le (g.replaceM f d) fun st g' => (Term.ofHead g').Over (A st)
  | .rel i, _, _ => keeps_pure h.refl fun _ _ => Term.over_rel i
  | .sort n, _, _ => keeps_pure h.refl fun _ _ => Term.over_sort n
  | .const c, _, _ => keeps_pure h.refl fun _ _ => Term.over_const c
  | .hole k xs, d, p => by
    obtain ⟨own, inst⟩ := Term.over_hole.1 p
    refine keeps_bind h.trans (Term.replaceAllM_keeps h xs d inst) ?_ fun ys => ?_
    · exact fun st st' ys hle q => ⟨q.1, h.overAll_later st st' ys hle q.2⟩
    · refine keeps_pure h.refl fun st hst q => Term.over_hole.2 ⟨?_, q.2⟩
      rw [q.1]
      exact h.start st k _ hst own
  | .pi a b, d, p => by
    obtain ⟨pa, pb⟩ := Term.over_pi.1 p
    refine keeps_bind h.trans (Term.replaceM_keeps h a d pa) h.over_later fun a' => ?_
    refine keeps_bind h.trans (Term.replaceM_keeps h b (d + 1) pb) h.over_later fun b' => ?_
    exact keeps_pure h.refl fun _ _ qb qa => Term.over_pi.2 ⟨qa, qb⟩
  | .lam a b, d, p => by
    obtain ⟨pa, pb⟩ := Term.over_lam.1 p
    refine keeps_bind h.trans (Term.replaceM_keeps h a d pa) h.over_later fun a' => ?_
    refine keeps_bind h.trans (Term.replaceM_keeps h b (d + 1) pb) h.over_later fun b' => ?_
    exact keeps_pure h.refl fun _ _ qb qa => Term.over_lam.2 ⟨qa, qb⟩
  | .letIn v a b, d, p => by
    obtain ⟨pa, pv, pb⟩ := Term.over_letIn.1 p
    refine keeps_bind h.trans (Term.replaceM_keeps h a d pa) h.over_later fun a' => ?_
    refine keeps_bind h.trans (Term.replaceM_keeps h v d pv) h.over_later fun v' => ?_
    refine keeps_bind h.trans (Term.replaceM_keeps h b (d + 1) pb) h.over_later fun b' => ?_
    exact keeps_pure h.refl fun _ _ qb qv qa => Term.over_letIn.2 ⟨qa, qv, qb⟩
  | .cast t a, d, p => by
    obtain ⟨pa, pt⟩ := Term.over_cast.1 p
    refine keeps_bind h.trans (Term.replaceM_keeps h a d pa) h.over_later fun a' => ?_
    refine keeps_bind h.trans (Term.replaceM_keeps h t d pt) h.over_later fun t' => ?_
    exact keeps_pure h.refl fun _ _ qt qa => Term.over_cast.2 ⟨qa, qt⟩
  | .case r s bs, d, p => by
    obtain ⟨pr, ps, pbs⟩ := Term.over_case.1 p
    refine keeps_bind h.trans (Term.replaceM_keeps h r d pr) h.over_later fun r' => ?_
    refine keeps_bind h.trans (Term.replaceM_keeps h s d ps) h.over_later fun s' => ?_
    refine keeps_bind h.trans (Term.replaceAllM_keeps h bs d pbs) ?_ fun bs' => ?_
    · exact fun st st' ys hle q => ⟨q.1, h.overAll_later st st' ys hle q.2⟩
    · exact keeps_pure h.refl fun _ _ qbs qs qr => Term.over_case.2 ⟨qr, qs, qbs.2⟩
  | .fix i as bs, d, p => by
    obtain ⟨pas, pbs⟩ := Term.over_fix.1 p
    refine keeps_bind h.trans (Term.replaceAllM_keeps h as d pas) ?_ fun as' => ?_
    · exact fun st st' ys hle q => ⟨q.1, h.overAll_later st st' ys hle q.2⟩
    refine keeps_bind h.trans (Term.replaceAllM_keeps h bs (d + as.length) pbs) ?_ fun bs' => ?_
    · exact fun st st' ys hle q => ⟨q.1, h.overAll_later st st' ys hle q.2⟩
    · exact keeps_pure h.refl fun _ _ qbs qas => Term.over_fix.2 ⟨qas.2, qbs.2⟩

/-- Replacing keeps the invariant, and the term to the holes that the state knows. -/
theorem Term.replaceM_keeps (h : Replacing inv le A B f) : (t : Term) → (d : Nat) → t.Over B →
    Keeps inv le (t.replaceM f d) fun st t' => t'.Over (A st)
  | .mk g [], d, p => by
    have answered (st st' : τ) (r : Option Term) (hle : le st st')
        (q : ∀ w, r = some w → w.Over (A st)) (w : Term) (hw : r = some w) : w.Over (A st') :=
      h.over_later st st' w hle (q w hw)
    refine keeps_bind h.trans (h.answer (.ofHead g) d p) answered fun r => ?_
    cases r with
    | some u => exact keeps_pure h.refl fun _ _ q => q u rfl
    | none =>
      refine keeps_bind h.trans (Head.replaceM_keeps h g d p)
        (fun st st' g' => h.over_later st st' (.ofHead g')) fun g' => ?_
      exact keeps_pure h.refl fun _ _ q _ => q
  | .mk g (x :: xs), d, p => by
    have answered (st st' : τ) (r : Option Term) (hle : le st st')
        (q : ∀ w, r = some w → w.Over (A st)) (w : Term) (hw : r = some w) : w.Over (A st') :=
      h.over_later st st' w hle (q w hw)
    obtain ⟨pg, pxs⟩ := Term.over_mk.1 p
    refine keeps_bind h.trans (h.answer (.mk g (x :: xs)) d p) answered fun r => ?_
    cases r with
    | some u => exact keeps_pure h.refl fun _ _ q => q u rfl
    | none =>
      have spine (u : Term) : Keeps inv le
          (do
            let ys ← Term.replaceAllM f d (x :: xs)
            return u.apply ys) fun st t' => u.Over (A st) → t'.Over (A st) := by
        refine keeps_bind h.trans (Term.replaceAllM_keeps h (x :: xs) d pxs) ?_ fun ys => ?_
        · exact fun st st' ys hle q => ⟨q.1, h.overAll_later st st' ys hle q.2⟩
        · exact keeps_pure h.refl fun _ _ q qu => Term.over_apply.2 ⟨qu, q.2⟩
      refine keeps_bind h.trans (h.answer (.ofHead g) d pg) answered fun r => ?_
      cases r with
      | some u => exact (spine u).mono fun _ _ whole q _ => whole (q u rfl)
      | none =>
        refine keeps_bind h.trans (Head.replaceM_keeps h g d pg)
          (fun st st' g' => h.over_later st st' (.ofHead g')) fun g' => ?_
        exact (spine (.ofHead g')).mono fun _ _ whole q _ _ => whole q

theorem Term.replaceAllM_keeps (h : Replacing inv le A B f) : (xs : List Term) → (d : Nat) →
    (∀ x ∈ xs, x.Over B) → Keeps inv le (Term.replaceAllM f d xs)
      fun st ys => ys.length = xs.length ∧ ∀ y ∈ ys, y.Over (A st)
  | [], _, _ => keeps_pure h.refl fun _ _ => ⟨rfl, by simp⟩
  | x :: xs, d, p => by
    obtain ⟨px, pxs⟩ := List.forall_mem_cons.1 p
    refine keeps_bind h.trans (Term.replaceM_keeps h x d px) h.over_later fun y => ?_
    refine keeps_bind h.trans (Term.replaceAllM_keeps h xs d pxs) ?_ fun ys => ?_
    · exact fun st st' ys hle q => ⟨q.1, h.overAll_later st st' ys hle q.2⟩
    · refine keeps_pure h.refl fun _ _ qys qy => ⟨?_, List.forall_mem_cons.2 ⟨qy, qys.2⟩⟩
      rw [List.length_cons, List.length_cons, qys.1]

end

end

/-! ## A store that only got placeholders -/

/-- The second store came from the first by declaring placeholders. -/
structure Store.Extends (s s' : Store) : Prop where
  size : s.slots.length ≤ s'.slots.length
  frozen : s'.frozen = s.frozen
  pending : s'.pending = s.pending
  old : ∀ k, k < s.slots.length → s'.hole? k = s.hole? k
  new : ∀ k d, s.slots.length ≤ k → s'.hole? k = some d →
    d.value? = none ∧ d.type? = none ∧ d.kind = .placeholder

namespace Store

section
variable {s s₁ s' : Store}

theorem Extends.refl (s : Store) : s.Extends s := by
  refine ⟨Nat.le_refl _, rfl, rfl, fun _ _ => rfl, fun k d past hd => ?_⟩
  exact absurd (lt_of_hole? hd) (Nat.not_lt.2 past)

theorem Extends.trans (h : s.Extends s₁) (h' : s₁.Extends s') : s.Extends s' where
  size := Nat.le_trans h.size h'.size
  frozen := h'.frozen.trans h.frozen
  pending := h'.pending.trans h.pending
  old k hk := (h'.old k (Nat.lt_of_lt_of_le hk h.size)).trans (h.old k hk)
  new k d past hd := by
    by_cases between : k < s₁.slots.length
    · exact h.new k d past (h'.old k between ▸ hd)
    · exact h'.new k d (Nat.not_lt.1 between) hd

theorem extends_fresh (s : Store) (n : Nat) : s.Extends (s.fresh n none .placeholder).2 := by
  refine ⟨by simp [fresh], rfl, rfl, fun k hk => ?_, fun k d past hd => ?_⟩
  · rw [hole?_fresh, if_neg (Nat.ne_of_lt hk)]
  · rw [hole?_fresh] at hd
    split at hd
    · cases hd
      exact ⟨rfl, rfl, rfl⟩
    · exact absurd (lt_of_hole? hd) (Nat.not_lt.2 past)

theorem Extends.appends (h : s.Extends s') : s.Appends s' :=
  ⟨h.size, h.frozen, h.pending, h.old, fun k d past hd => (h.new k d past hd).1⟩

theorem Extends.hole? (h : s.Extends s') {k : Nat} {d : Hole} (hd : s.hole? k = some d) :
    s'.hole? k = some d :=
  h.appends.hole? hd

theorem Extends.value? (h : s.Extends s') (k : Nat) : s'.value? k = s.value? k :=
  h.appends.value? k

theorem Extends.declares (h : s.Extends s') {k n : Nat} (hk : s.Declares k n) :
    s'.Declares k n :=
  h.appends.declares hk

end

end Store

/-! ## Patterns -/

namespace Pattern

/-- The store of a renaming has got placeholders only, each with the arity that a hole of `A`
has. -/
structure Renamed (A : Nat → Nat → Prop) (s : Store) (r : Renaming) : Prop where
  grown : s.Extends r.store
  arity : ∀ p k, (p, k) ∈ r.placeholders →
    s.slots.length ≤ p ∧ ∃ d, r.store.hole? p = some d ∧ A k d.arity

section
variable {A : Nat → Nat → Prop} {s : Store} {known : Scope} {r : Renaming}

theorem renamed_start (A : Nat → Nat → Prop) (s : Store) : Renamed A s ⟨s, []⟩ :=
  ⟨.refl s, by simp⟩

theorem renamed_fresh {k n : Nat} (h : Renamed A s r) (own : A k n) :
    Renamed A s ⟨(r.store.fresh n none .placeholder).2,
      r.placeholders ++ [(r.store.slots.length, k)]⟩ := by
  have grown := Store.extends_fresh r.store n
  refine ⟨h.grown.trans grown, fun p l hp => ?_⟩
  rcases List.mem_append.1 hp with old | new
  · obtain ⟨past, d, hd, arity⟩ := h.arity p l old
    exact ⟨past, d, grown.hole? hd, arity⟩
  · obtain ⟨rfl, rfl⟩ := Prod.mk.inj (List.mem_singleton.1 new)
    refine ⟨h.grown.size, ⟨n, none, .placeholder, none⟩, ?_, own⟩
    rw [Store.hole?_fresh, if_pos rfl]

theorem renamed_rename (declared : ∀ k n, A k n → s.Declares k n) (u : Term) (hu : u.Over A) :
    Keeps (Renamed A s) (fun r r' => r.store.Extends r'.store) (rename known u)
      fun r w? => ∀ w, w? = some w → w.Over r.store.Declares := by
  intro r hr
  have unchanged : Renamed A s r ∧ r.store.Extends r.store ∧
      ∀ w, (none : Option Term) = some w → w.Over r.store.Declares :=
    ⟨hr, .refl _, fun w hw => by cases hw⟩
  unfold rename
  split
  · next k inst =>
    obtain ⟨own, hinst⟩ := Term.over_hole.1 hu
    obtain ⟨e, he, arity⟩ := declared k _ own
    have hinst {s'} (grown : s.Extends s') : ∀ x ∈ inst, x.Over s'.Declares :=
      fun x hx => (hinst x hx).mono fun l n hl => grown.declares (declared l n hl)
    simp only [StateT.run_bind, StateT.run_get, pure_bind]
    split
    · split
      · next p l found =>
        have listed := List.mem_of_find?_eq_some found
        have same : l = k := by simpa using List.find?_some found
        subst same
        obtain ⟨_, d, hd, own'⟩ := hr.arity p l listed
        refine ⟨hr, .refl _, fun w hw => ?_⟩
        cases hw
        have arity' : d.arity = inst.length := (declared l _ own').unique (declared l _ own)
        exact Term.over_hole.2 ⟨⟨d, hd, arity'⟩, hinst hr.grown⟩
      · simp only [hr.grown.hole? he, Option.elim_some, arity]
        have fresh := renamed_fresh hr own
        refine ⟨fresh, Store.extends_fresh _ _, fun w hw => ?_⟩
        cases hw
        refine Term.over_hole.2 ⟨⟨⟨inst.length, none, .placeholder, none⟩, ?_, rfl⟩,
          hinst fresh.grown⟩
        exact (Store.hole?_fresh _ _ _ _ _).trans (if_pos rfl)
    · exact unchanged
  · exact unchanged

/-- The placeholders of a renaming come after the holes of the store. -/
def Past (s : Store) (r : Renaming) : Prop :=
  s.slots.length ≤ r.store.slots.length ∧ ∀ p k, (p, k) ∈ r.placeholders → s.slots.length ≤ p

theorem over_rename (later : ∀ k n, s.slots.length ≤ k → A k n) (u : Term) (hu : u.Over A) :
    Keeps (Past s) (fun _ _ => True) (rename known u) fun _ w? => ∀ w, w? = some w → w.Over A := by
  intro r hr
  have unchanged : Past s r ∧ True ∧ ∀ w, (none : Option Term) = some w → w.Over A :=
    ⟨hr, trivial, fun w hw => by cases hw⟩
  unfold rename
  split
  · next k inst =>
    obtain ⟨_, hinst⟩ := Term.over_hole.1 hu
    simp only [StateT.run_bind, StateT.run_get, pure_bind]
    split
    · split
      · next p l found =>
        have past := hr.2 p l (List.mem_of_find?_eq_some found)
        refine ⟨hr, trivial, fun w hw => ?_⟩
        cases hw
        exact Term.over_hole.2 ⟨later p _ past, hinst⟩
      · refine ⟨⟨?_, fun p l hp => ?_⟩, trivial, fun w hw => ?_⟩
        · exact Nat.le_trans hr.1 (Store.extends_fresh r.store _).size
        · rcases List.mem_append.1 hp with old | new
          · exact hr.2 p l old
          · obtain ⟨rfl, rfl⟩ := Prod.mk.inj (List.mem_singleton.1 new)
            exact hr.1
        · cases hw
          exact Term.over_hole.2 ⟨later _ _ hr.1, hinst⟩
    · exact unchanged
  · exact unchanged

theorem extends_rename (u : Term) :
    Keeps (fun _ => True) (fun r r' : Renaming => r.store.Extends r'.store) (rename known u)
      fun _ _ => True := by
  intro r _
  unfold rename
  split
  · simp only [StateT.run_bind, StateT.run_get, pure_bind]
    split
    · split
      · exact ⟨trivial, .refl _, trivial⟩
      · exact ⟨trivial, Store.extends_fresh _ _, trivial⟩
    · exact ⟨trivial, .refl _, trivial⟩
  · exact ⟨trivial, .refl _, trivial⟩

/-- A pattern made ready of a candidate, from the first store to the second. -/
structure Ready (cx : Context) (known : Scope) (s s' : Store) (c : Candidate) (p : Pattern) :
    Prop where
  candidate : p.candidate = c
  term : whnf? cx s c.pattern .pattern = some p.term
  grown : s.Extends s'
  /-- If the pattern keeps to declared holes, so does its first-order form, and its placeholders
  have the arities of their holes. -/
  firstOrder : ∀ A : Nat → Nat → Prop, (∀ k n, A k n → s.Declares k n) → p.term.Over A →
    p.firstOrder.Over s'.Declares ∧ Renamed A s ⟨s', p.placeholders⟩
  /-- The first-order form has the holes of the pattern and placeholders, and no others. -/
  over_placeholders : ∀ A : Nat → Nat → Prop, (∀ k n, s.slots.length ≤ k → A k n) →
    p.term.Over A → p.firstOrder.Over A

theorem ready_of_compile? {cx : Context} {known : Scope} {s s' : Store} {c : Candidate}
    {p : Pattern} (h : compile? cx s known c = some (.ok (p, s'))) : Ready cx known s s' c p := by
  simp only [compile?, Option.bind_eq_bind, Option.bind_eq_some_iff] at h
  obtain ⟨term, hterm, h⟩ := h
  split at h
  · cases h
  · cases h
    refine ⟨rfl, hterm, ?_, fun A declared isOver => ?_, fun A later isOver => ?_⟩
    · have any (t : Term) : t.Over fun _ _ => True := Term.over_holes.2 fun _ _ => trivial
      have steps : Replacing (fun _ => True) (fun r r' : Renaming => r.store.Extends r'.store)
          (fun _ _ _ => True) (fun _ _ => True) (fun u _ => rename known u) :=
        ⟨fun _ => .refl _, fun _ _ _ => .trans, fun _ _ _ _ _ q => q, fun _ _ _ _ q => q,
          fun u _ _ => (extends_rename u).mono fun _ _ _ w _ => any w⟩
      exact (Term.replaceM_keeps steps term 0 (any term) ⟨s, []⟩ trivial).2.1
    · have steps : Replacing (Renamed A s) (fun r r' : Renaming => r.store.Extends r'.store)
          (fun r => r.store.Declares) A (fun u _ => rename known u) :=
        ⟨fun _ => .refl _, fun _ _ _ => .trans, fun _ _ _ _ grown => grown.declares,
          fun _ k n renamed hk => renamed.grown.declares (declared k n hk),
          fun u _ hu => renamed_rename declared u hu⟩
      obtain ⟨renamed, _, over'⟩ :=
        Term.replaceM_keeps steps term 0 isOver ⟨s, []⟩ (renamed_start A s)
      exact ⟨over', renamed⟩
    · have steps :
          Replacing (Past s) (fun _ _ => True) (fun _ => A) A (fun u _ => rename known u) :=
        ⟨fun _ => trivial, fun _ _ _ _ _ => trivial, fun _ _ _ _ _ q => q, fun _ _ _ _ q => q,
          fun u _ hu => over_rename later u hu⟩
      have start : Past s ⟨s, []⟩ := ⟨Nat.le_refl _, fun _ _ hp => by cases hp⟩
      exact (Term.replaceM_keeps steps term 0 isOver ⟨s, []⟩ start).2.2

end

end Pattern

end KeyedMatching
