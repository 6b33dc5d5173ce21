import KeyedMatching.Matching.Search
import KeyedMatching.Proofs.Matching.InStep

/-!
# Idle holes do not matter to a search

A search in a store with idle holes goes as it goes without them, for rules and a target whose holes
keep their numbers, or it has no answer.

* `selectAndAbstract?_related`: walking through a term, for tests that agree on it;
* `locator_agrees`: the tests of one pass;
* `applyRules?_related`: the whole of a search for rules.
-/

namespace KeyedMatching

/-! ## Walking through a target -/

section
variable {σ : Type} {total : Prop} {P : Nat → Prop} {Q : σ → σ → Prop} {occ : Occurrences}
  {test test' : OccurrenceTest σ}

/-- In terms over holes of `P` the tests report the same occurrences, `Q` relating their states. -/
structure OccurrenceTest.Agrees (total : Prop) (P : Nat → Prop) (Q : σ → σ → Prop)
    (test test' : OccurrenceTest σ) : Prop where
  occurrenceAt : ∀ t d st st', t.Over (fun k _ => P k) → Q st st' →
    (Lifting.following total).Related (fun r r' => r'.1 = r.1 ∧ Q r.2 r'.2)
      (test.occurrenceAt t d st) (test'.occurrenceAt t d st')
  select : ∀ st st', Q st st' → Q (test.select st) (test'.select st')

/-- Walks that have come equally far. -/
structure Selection.InStep (Q : σ → σ → Prop) (sel sel' : Selection σ) : Prop where
  found : sel'.found = sel.found
  selected : sel'.selected = sel.selected
  state : Q sel.state sel'.state

/-- Walks that start in step and stay so. -/
def walks (total : Prop) (Q : σ → σ → Prop) : Lifting (Walk σ) :=
  (Lifting.following total).stateT (Selection.InStep Q)

theorem visit_related (agree : test.Agrees total P Q test') {u : Term} (d : Nat)
    (hu : u.Over fun k _ => P k) :
    (walks total Q).Related Eq (visit occ test u d) (visit occ test' u d) := by
  refine (walks total Q).bind Lifting.stateT_get fun sel sel' hsel => ?_
  have tested := agree.occurrenceAt u d sel.state sel'.state hu hsel.state
  refine (walks total Q).bind (Lifting.stateT_lift tested) fun r r' hr => ?_
  obtain ⟨covered?, state⟩ := r
  obtain ⟨covered?', state'⟩ := r'
  obtain ⟨rfl, hstate⟩ := hr
  cases covered?' with
  | none =>
    exact (walks total Q).bind (Lifting.stateT_set ⟨hsel.found, hsel.selected, hstate⟩) fun _ _ _ =>
      (walks total Q).pure rfl
  | some covered =>
    dsimp only
    rw [hsel.found, hsel.selected]
    split
    · exact (walks total Q).bind (Lifting.stateT_set ⟨rfl, rfl, agree.select _ _ hstate⟩)
        fun _ _ _ => (walks total Q).pure rfl
    · exact (walks total Q).bind (Lifting.stateT_set ⟨rfl, rfl, hstate⟩) fun _ _ _ =>
        (walks total Q).pure rfl

mutual

theorem Head.walk_related (agree : test.Agrees total P Q test') : (g : Head) → (d : Nat) →
    (Term.ofHead g).Over (fun k _ => P k) →
    (walks total Q).Related (Shared fun g => (Term.ofHead g).Over fun k _ => P k)
      (g.walk occ test d) (g.walk occ test' d)
  | .rel _, _, _ => (walks total Q).pure ⟨rfl, Term.over_rel _⟩
  | .sort _, _, p => (walks total Q).pure ⟨rfl, p⟩
  | .const _, _, p => (walks total Q).pure ⟨rfl, p⟩
  | .hole k xs, d, p => by
    obtain ⟨pk, pxs⟩ := Term.over_hole.1 p
    refine (walks total Q).bind (Term.walkFrom_related agree xs d 0 pxs) fun _ _ hxs => ?_
    obtain ⟨rfl, pxs⟩ := hxs
    exact (walks total Q).pure ⟨rfl, Term.over_hole.2 ⟨pk, pxs⟩⟩
  | .pi a b, d, p => by
    obtain ⟨pa, pb⟩ := Term.over_pi.1 p
    refine (walks total Q).bind (Term.walk_related agree a d pa) fun _ _ ha => ?_
    refine (walks total Q).bind (Term.walk_related agree b (d + 1) pb) fun _ _ hb => ?_
    obtain ⟨rfl, pa⟩ := ha
    obtain ⟨rfl, pb⟩ := hb
    exact (walks total Q).pure ⟨rfl, Term.over_pi.2 ⟨pa, pb⟩⟩
  | .lam a b, d, p => by
    obtain ⟨pa, pb⟩ := Term.over_lam.1 p
    refine (walks total Q).bind (Term.walk_related agree a d pa) fun _ _ ha => ?_
    refine (walks total Q).bind (Term.walk_related agree b (d + 1) pb) fun _ _ hb => ?_
    obtain ⟨rfl, pa⟩ := ha
    obtain ⟨rfl, pb⟩ := hb
    exact (walks total Q).pure ⟨rfl, Term.over_lam.2 ⟨pa, pb⟩⟩
  | .letIn v a b, d, p => by
    obtain ⟨pa, pv, pb⟩ := Term.over_letIn.1 p
    refine (walks total Q).bind (Term.walk_related agree a d pa) fun _ _ ha => ?_
    refine (walks total Q).bind (Term.walk_related agree v d pv) fun _ _ hv => ?_
    refine (walks total Q).bind (Term.walk_related agree b (d + 1) pb) fun _ _ hb => ?_
    obtain ⟨rfl, pa⟩ := ha
    obtain ⟨rfl, pv⟩ := hv
    obtain ⟨rfl, pb⟩ := hb
    exact (walks total Q).pure ⟨rfl, Term.over_letIn.2 ⟨pa, pv, pb⟩⟩
  | .cast t a, d, p => by
    obtain ⟨pa, pt⟩ := Term.over_cast.1 p
    refine (walks total Q).bind (Term.walk_related agree a d pa) fun _ _ ha => ?_
    refine (walks total Q).bind (Term.walk_related agree t d pt) fun _ _ ht => ?_
    obtain ⟨rfl, pa⟩ := ha
    obtain ⟨rfl, pt⟩ := ht
    exact (walks total Q).pure ⟨rfl, Term.over_cast.2 ⟨pa, pt⟩⟩
  | .case r t bs, d, p => by
    obtain ⟨pr, pt, pbs⟩ := Term.over_case.1 p
    refine (walks total Q).bind (Term.walk_related agree r d pr) fun _ _ hr => ?_
    refine (walks total Q).bind (Term.walk_related agree t d pt) fun _ _ ht => ?_
    refine (walks total Q).bind (Term.walkFrom_related agree bs d 0 pbs) fun _ _ hbs => ?_
    obtain ⟨rfl, pr⟩ := hr
    obtain ⟨rfl, pt⟩ := ht
    obtain ⟨rfl, pbs⟩ := hbs
    exact (walks total Q).pure ⟨rfl, Term.over_case.2 ⟨pr, pt, pbs⟩⟩
  | .fix i as bs, d, p => by
    obtain ⟨pas, pbs⟩ := Term.over_fix.1 p
    refine (walks total Q).bind (Term.walkFrom_related agree as d 0 pas) fun _ _ has => ?_
    refine (walks total Q).bind (Term.walkFrom_related agree bs (d + as.length) 0 pbs)
      fun _ _ hbs => ?_
    obtain ⟨rfl, pas⟩ := has
    obtain ⟨rfl, pbs⟩ := hbs
    exact (walks total Q).pure ⟨rfl, Term.over_fix.2 ⟨pas, pbs⟩⟩

/-- Two tests that agree on a term abstract the same occurrences. -/
theorem Term.walk_related (agree : test.Agrees total P Q test') : (t : Term) → (d : Nat) →
    t.Over (fun k _ => P k) →
    (walks total Q).Related (Shared fun t => t.Over fun k _ => P k) (t.walk occ test d)
      (t.walk occ test' d)
  | .mk g [], d, p => by
    refine (walks total Q).bind (visit_related agree d p) fun o o' ho => ?_
    subst ho
    cases o with
    | some _ => exact (walks total Q).pure ⟨rfl, Term.over_rel d⟩
    | none =>
      refine (walks total Q).bind (Head.walk_related agree g d p) fun g₁ g₁' hg => ?_
      obtain ⟨rfl, hg⟩ := hg
      exact (walks total Q).pure ⟨rfl, hg⟩
  | .mk g (x :: xs), d, p => by
    obtain ⟨pg, pxs⟩ := Term.over_mk.1 p
    -- What is done with the arguments after the first ones, once the head has become `h`.
    have spine (h : Term) (hh : h.Over fun k _ => P k) (n : Nat) :
        (walks total Q).Related (Shared fun t => t.Over fun k _ => P k)
          (Term.walkFrom occ test d n (x :: xs) >>= fun ys => pure (h.apply ys))
          (Term.walkFrom occ test' d n (x :: xs) >>= fun ys => pure (h.apply ys)) := by
      refine (walks total Q).bind (Term.walkFrom_related agree (x :: xs) d n pxs)
        fun ys ys' hys => ?_
      obtain ⟨rfl, hys⟩ := hys
      exact (walks total Q).pure ⟨rfl, Term.over_apply.2 ⟨hh, hys⟩⟩
    refine (walks total Q).bind (visit_related agree d p) fun o o' ho => ?_
    subst ho
    cases o with
    | some covered => exact spine (.rel d) (Term.over_rel d) covered
    | none =>
      refine (walks total Q).bind (visit_related agree d pg) fun o o' ho => ?_
      subst ho
      cases o with
      | some _ => exact spine (.rel d) (Term.over_rel d) 0
      | none =>
        refine (walks total Q).bind (Head.walk_related agree g d pg) fun g₁ g₁' hg => ?_
        obtain ⟨rfl, hg⟩ := hg
        exact spine (.ofHead g₁') hg 0

theorem Term.walkFrom_related (agree : test.Agrees total P Q test') : (xs : List Term) →
    (d n : Nat) → (∀ x ∈ xs, x.Over fun k _ => P k) →
    (walks total Q).Related (Shared fun ys => ∀ y ∈ ys, y.Over fun k _ => P k)
      (Term.walkFrom occ test d n xs) (Term.walkFrom occ test' d n xs)
  | [], _, 0, p => (walks total Q).pure ⟨rfl, p⟩
  | [], _, _ + 1, p => (walks total Q).pure ⟨rfl, p⟩
  | x :: xs, d, 0, p => by
    obtain ⟨px, pxs⟩ := List.forall_mem_cons.1 p
    refine (walks total Q).bind (Term.walk_related agree x d px) fun _ _ hx => ?_
    refine (walks total Q).bind (Term.walkFrom_related agree xs d 0 pxs) fun _ _ hxs => ?_
    obtain ⟨rfl, px⟩ := hx
    obtain ⟨rfl, pxs⟩ := hxs
    exact (walks total Q).pure ⟨rfl, List.forall_mem_cons.2 ⟨px, pxs⟩⟩
  | _ :: xs, d, n + 1, p => Term.walkFrom_related agree xs d n (List.forall_mem_cons.1 p).2

end

theorem selectAndAbstract?_related (agree : test.Agrees total P Q test') {start start' : σ}
    (h : Q start start') {t : Term} (ht : t.Over fun k _ => P k) :
    (Lifting.following total).Related
      (fun r r' => Shared (fun t : Term => t.Over fun k _ => P k) r.1 r'.1 ∧
        Selection.InStep Q r.2 r'.2)
      (selectAndAbstract? occ test start t) (selectAndAbstract? occ test' start' t) :=
  Term.walk_related agree t 0 ht ⟨0, 0, start⟩ ⟨0, 0, start'⟩ ⟨rfl, rfl, h⟩

end

section
variable {cx : Context} {T : Term → Prop} {ρ : Nat → Nat} {s s' : Store} {scope : Scope}
  {total : Prop} {resolve : Store → Option Store}

/-! ## Locating -/

/-- Locatings that have come equally far, with matches in step. -/
structure Locating.InStep (T : Term → Prop) (ρ : Nat → Nat) (st st' : Locating) : Prop where
  pending? : Option.Rel (Located.InStep T ρ) st.pending? st'.pending?
  located? : Option.Rel (Located.InStep T ρ) st.located? st'.located?
  rejections : st'.rejections = st.rejections

theorem sameAgain?_related {l l' : Located} (hl : l.InStep T ρ l') {t : Term} (ht : t.Fixed ρ)
    (d : Nat) :
    Lifting.option.Related Eq (sameAgain? (.standard cx) l t d)
      (sameAgain? (.discharging cx resolve) l' t d) := by
  have key := Term.over_lift (c := 0) (n := d) hl.fixed
  have again (u : Term) (hu : u.Fixed ρ) (n : Nat) : Lifting.option.Related Eq
      (do if ← KeyedMatching.sameInstance? l.store (l.key.lift 0 d) u then return some n
          else return none)
      (do if ← KeyedMatching.sameInstance? l'.store (l.key.lift 0 d) u then return some n
          else return none) := by
    have same := hl.store.sameInstance? (l.key.lift 0 d) u
    rw [Term.renumber_eq_of_fixed key, Term.renumber_eq_of_fixed hu] at same
    refine Lifting.option.bind same fun b b' hb => ?_
    subst hb
    split <;> exact Lifting.option.pure rfl
  unfold sameAgain?
  rw [hl.key]
  dsimp only
  split
  · split
    · exact again t ht 0
    · exact Lifting.option.pure rfl
  · split
    · exact Lifting.option.pure rfl
    · exact again _ (Term.over_prefix ht _) _

/-- The tests of a pass agree where the holes keep their numbers. -/
theorem locator_agrees (fixed : cx.signature.Fixed ρ) (same : scope.Fixed ρ)
    (discharge : Discharges cx T ρ total resolve) (h : s.Widens T ρ s') {ps ps' : List Pattern}
    (hps : List.Forall₂ (Pattern.InStep T ρ) ps ps') (pass : Pass) :
    (locator cx (.standard cx) scope s ps pass).Agrees total (fun k => ρ k = k)
      (Locating.InStep T ρ) (locator cx (.discharging cx resolve) scope s' ps' pass) := by
  constructor
  · intro t d st st' ht hst
    obtain ⟨pending?, located?, n⟩ := st
    obtain ⟨pending?', located?', n'⟩ := st'
    obtain ⟨hpending, hlocated, rfl⟩ := hst
    cases hlocated with
    | some hl =>
      exact Lifting.map (Lifting.follows (sameAgain?_related hl ht d)) fun o o' ho =>
        ⟨ho.symm, hpending, .some hl, rfl⟩
    | none =>
      have tried := tryPatterns_related pass fixed same discharge h hps ht d n' n' rfl
      refine Lifting.map tried fun r r' hr => ?_
      obtain ⟨hit?, m⟩ := r
      obtain ⟨hit?', m'⟩ := r'
      obtain ⟨hit, rfl⟩ := hr
      cases hit with
      | none => exact ⟨rfl, hpending, .none, rfl⟩
      | some hit =>
        obtain ⟨len, hl⟩ := hit
        exact ⟨congrArg some len, .some hl, .none, rfl⟩
  · intro st st' hst
    obtain ⟨pending?, located?, n⟩ := st
    obtain ⟨pending?', located?', n'⟩ := st'
    obtain ⟨hpending, hlocated, rfl⟩ := hst
    cases hlocated with
    | some hl => exact ⟨hpending, .some hl, rfl⟩
    | none => exact ⟨.none, hpending, rfl⟩

/-! ## Searching -/

/-- Searches that count from the same number. -/
def searches (total : Prop) : Lifting Search :=
  ((Lifting.following total).stateT Eq).exceptT fun _ _ => True

/-- What two searches found, in step. -/
structure Found.InStep (T : Term → Prop) (ρ : Nat → Nat) (r r' : Found) : Prop where
  located : r.located.InStep T ρ r'.located
  context : r'.context = r.context
  occurrences : r'.occurrences = r.occurrences
  store : r.store.Widens T ρ r'.store

namespace Search

theorem related_refl {α : Type} (x : Search α) : (searches total).Related Eq x x := by
  rintro n _ rfl
  refine Lifting.follows fun (r, m) hr => ⟨(r, m), hr, ?_, rfl⟩
  cases r with
  | ok a => exact .ok rfl
  | error e => exact .error trivial

theorem ofAnswer_related {α : Type} {R : α → α → Prop} {x x' : Option α}
    (h : (Lifting.following total).Related R x x') :
    (searches total).Related R (ofAnswer x) (ofAnswer x') :=
  Lifting.exceptT_lift (Lifting.stateT_lift h)

/-- Candidates in step are made ready in step. -/
theorem compileAll_related (fixed : cx.signature.Fixed ρ) (same : scope.Fixed ρ)
    (h : s.Widens T ρ s') {cs cs' : List Candidate}
    (hcs : List.Forall₂ (Candidate.InStep T ρ) cs cs') :
    (searches total).Related
      (fun r r' => List.Forall₂ (Pattern.InStep T ρ) r.1 r'.1 ∧ r.2.Widens T ρ r'.2)
      (compileAll cx scope s cs) (compileAll cx scope s' cs') := by
  induction hcs generalizing s s' with
  | nil => exact (searches total).pure ⟨.nil, h⟩
  | cons hc _ ih =>
    refine (searches total).bind
      (Lifting.stateT_lift (Lifting.follows (Pattern.compile?_related fixed same h hc)))
      fun r r' hr => ?_
    obtain ⟨p, s₁⟩ := r
    obtain ⟨p', s₁'⟩ := r'
    obtain ⟨hp, h₁⟩ := hr
    refine (searches total).bind (ih h₁) fun rs rs' hrs => ?_
    exact (searches total).pure ⟨.cons hp hrs.1, hrs.2⟩

theorem checkDependent_related (fixed : cx.signature.Fixed ρ) {l l' : Located}
    (hl : l.InStep T ρ l') {context : Term} (hcontext : context.Fixed ρ) :
    (searches total).Related (fun _ _ => True) (checkDependent cx (.standard cx) l context)
      (checkDependent cx (.discharging cx resolve) l' context) := by
  unfold checkDependent
  split
  · rw [hl.key]
    have typed := hl.store.inferType? fixed l.key
    rw [Term.renumber_eq_of_fixed hl.fixed] at typed
    refine (searches total).bind (ofAnswer_related (Lifting.follows typed)) fun r r' hr => ?_
    cases hr with
    | error _ => exact (searches total).pure trivial
    | @ok o o' ho =>
      subst ho
      cases o with
      | none => exact (searches total).pure trivial
      | some type =>
        have abstracted := hl.store.inferType? fixed (.lam type context)
        have moved : (Term.lam type context).renumber ρ = .lam (type.renumber ρ) context :=
          congrArg (Term.lam (type.renumber ρ)) (Term.renumber_eq_of_fixed hcontext)
        rw [moved] at abstracted
        refine (searches total).bind (ofAnswer_related (Lifting.follows abstracted))
          fun r r' hr => ?_
        cases hr with
        | error _ => exact Lifting.exceptT_throw trivial
        | ok _ => exact (searches total).pure trivial
  · exact (searches total).pure trivial

/-- The passes over a target locate the same term, with the same context. -/
theorem passes_related (fixed : cx.signature.Fixed ρ) (same : scope.Fixed ρ)
    (discharge : Discharges cx T ρ total resolve) (h : s.Widens T ρ s') {ps ps' : List Pattern}
    (hps : List.Forall₂ (Pattern.InStep T ρ) ps ps') (occ : Occurrences) {target : Term}
    (htarget : target.Fixed ρ) (todo : List Pass) (found : Nat) :
    (searches total).Related (fun r r' => r.1.InStep T ρ r'.1 ∧ r'.2 = r.2)
      (passes cx (.standard cx) scope s ps occ target todo found)
      (passes cx (.discharging cx resolve) scope s' ps' occ target todo found) := by
  induction todo generalizing found with
  | nil =>
    unfold passes
    exact (searches total).bind (related_refl _) fun _ _ _ => Lifting.exceptT_throw trivial
  | cons pass rest ih =>
    unfold passes
    refine (searches total).bind (related_refl get) fun n n' hn => ?_
    subst hn
    refine (searches total).bind (ofAnswer_related (selectAndAbstract?_related
      (locator_agrees fixed same discharge h hps pass) ⟨.none, .none, rfl⟩ htarget))
      fun r r' hr => ?_
    obtain ⟨context, sel⟩ := r
    obtain ⟨context', sel'⟩ := r'
    obtain ⟨⟨rfl, hcontext⟩, hfound, hselected, hsel⟩ := hr
    dsimp only at hfound hselected hsel ⊢
    rw [hfound, hselected, hsel.rejections]
    refine (searches total).bind (related_refl (set sel.state.rejections)) fun _ _ _ => ?_
    have located := hsel.located?
    generalize sel.state.located? = o, sel'.state.located? = o' at located ⊢
    cases located with
    | none => exact ih _
    | some hl =>
      refine (searches total).bind (related_refl _) fun _ _ _ => ?_
      refine (searches total).bind (checkDependent_related fixed hl hcontext) fun _ _ _ => ?_
      exact (searches total).pure ⟨hl, rfl⟩

/-- Only the free variables of a term count. -/
theorem checkFreeRels_congr {ts ts' : List Term}
    (h : ts'.map Term.maxFreeRel = ts.map Term.maxFreeRel) :
    checkFreeRels ts' = checkFreeRels ts := by
  induction ts generalizing ts' with
  | nil =>
    obtain rfl := List.map_eq_nil_iff.1 h
    rfl
  | cons t ts ih =>
    obtain ⟨t', ts', rfl, ht, hts⟩ := List.map_eq_cons_iff.1 h
    simp only [checkFreeRels, ht, ih hts]

theorem checkFreeRels_inStep {cs cs' : List Candidate}
    (hcs : List.Forall₂ (Candidate.InStep T ρ) cs cs') (target : Term) :
    checkFreeRels (target :: cs'.flatMap fun c => [c.pattern, c.payload]) =
      checkFreeRels (target :: cs.flatMap fun c => [c.pattern, c.payload]) := by
  refine checkFreeRels_congr (congrArg (target.maxFreeRel :: ·) ?_)
  induction hcs with
  | nil => rfl
  | cons hc _ ih => simp [hc.pattern, hc.payload, ih]

/-- The holes that a match may not assign correspond to each other. -/
theorem frozen_related (same : scope.Fixed ρ) (h : s.Widens T ρ s') (k : Nat) :
    (⟨max scope.bound s'.frozen.bound⟩ : Scope).contains (ρ k) =
      (⟨max scope.bound s.frozen.bound⟩ : Scope).contains k := by
  have both (t : Store) (l : Nat) : (⟨max scope.bound t.frozen.bound⟩ : Scope).contains l =
      (scope.contains l || t.frozen.contains l) := by
    simp [Scope.contains]
  rw [both, both, same k, h.frozen]

/-- Searches for candidates in step find the same. -/
theorem run_related (fixed : cx.signature.Fixed ρ) (same : scope.Fixed ρ)
    (discharge : Discharges cx T ρ total resolve) (h : s.Widens T ρ s')
    (values : ∀ k v, s.value? k = some v → v.Fixed ρ)
    {cs cs' : List Candidate} (hcs : List.Forall₂ (Candidate.InStep T ρ) cs cs')
    (occ : Occurrences) {target : Term} (htarget : target.Fixed ρ) :
    (searches total).Related (Found.InStep T ρ) (run cx (.standard cx) s scope cs occ target)
      (run cx (.discharging cx resolve) s' scope cs' occ target) := by
  have base := h.freeze (frozen_related same h)
  have instantiated : Lifting.option.Related (Shared fun t : Term => t.Fixed ρ)
      ((s.freeze ⟨max scope.bound s.frozen.bound⟩).instantiate? target)
      ((s'.freeze ⟨max scope.bound s'.frozen.bound⟩).instantiate? target) := by
    intro t ht
    have answered := base.instantiate? target
    rw [Term.renumber_eq_of_fixed htarget] at answered
    obtain ⟨t', ht', hren⟩ := answered t ht
    have stays : t.Fixed ρ := by
      rw [Store.instantiate?_freeze] at ht
      exact Store.over_of_instantiate? (fun k _ v _ hv => values k v hv) htarget ht
    refine ⟨t', ht', ?_, stays⟩
    rw [hren, Term.renumber_eq_of_fixed stays]
  unfold run
  rw [checkFreeRels_inStep hcs]
  refine (searches total).bind (related_refl _) fun _ _ _ => ?_
  refine (searches total).bind (ofAnswer_related (Lifting.follows instantiated)) fun t t' ht => ?_
  obtain ⟨rfl, ht⟩ := ht
  refine (searches total).bind (compileAll_related fixed same base hcs) fun r r' hr => ?_
  obtain ⟨ps, s₁⟩ := r
  obtain ⟨ps', s₁'⟩ := r'
  obtain ⟨hps, h₁⟩ := hr
  refine (searches total).bind (passes_related fixed same discharge h₁ hps occ ht _ 0)
    fun r r' hr => ?_
  obtain ⟨l, context, n⟩ := r
  obtain ⟨l', context', n'⟩ := r'
  obtain ⟨hl, eq⟩ := hr
  cases eq
  exact (searches total).pure ⟨hl, rfl, rfl, hl.store.freeze h.frozen⟩

/-- Of a search that follows one with an answer, the answer is a related one. -/
theorem report_related {α : Type} {R : α → α → Prop} {x x' : Search α}
    (h : (searches total).Related R x x') {a : α} {n : Nat} (hx : report x = some ⟨.ok a, n⟩) :
    (total → (report x').isSome) ∧
      ∀ answer, report x' = some answer → ∃ a', answer = ⟨.ok a', n⟩ ∧ R a a' := by
  obtain ⟨⟨r, m⟩, hr, eq⟩ := Option.map_eq_some_iff.1 hx
  cases eq
  obtain ⟨answers, related⟩ := h 0 0 rfl _ hr
  refine ⟨fun given => ?_, fun answer ha => ?_⟩
  · rw [report, Option.isSome_map]
    exact answers given
  · obtain ⟨⟨r', m'⟩, hr', rfl⟩ := Option.map_eq_some_iff.1 ha
    obtain ⟨outcome, rfl⟩ := related _ hr'
    cases outcome with
    | ok r => exact ⟨_, rfl, r⟩

end Search

/-! ## Applying rules -/

/-- The rule with other numbers for the holes. -/
def Rule.renumber (ρ : Nat → Nat) (r : Rule) : Rule :=
  { r with lhs := r.lhs.renumber ρ, rhs := r.rhs.renumber ρ, proof? := r.proof?.map (·.renumber ρ) }

theorem Rule.source_renumber (r : Rule) : (r.renumber ρ).source = r.source.renumber ρ := by
  obtain ⟨lhs, rhs, proof?, direction⟩ := r
  cases direction <;> rfl

theorem Rule.target_renumber (r : Rule) : (r.renumber ρ).target = r.target.renumber ρ := by
  obtain ⟨lhs, rhs, proof?, direction⟩ := r
  cases direction <;> rfl

theorem Rule.sides_renumber (rules : List Rule) :
    ((rules.map (Rule.renumber ρ)).flatMap fun r => [r.lhs, r.rhs]).map Term.maxFreeRel =
      (rules.flatMap fun r => [r.lhs, r.rhs]).map Term.maxFreeRel := by
  induction rules with
  | nil => rfl
  | cons r rules ih => simp [Rule.renumber, ih]

theorem Rule.candidate_inStep (r : Rule) : r.candidate.InStep T ρ (r.renumber ρ).candidate where
  pattern := r.source_renumber
  payload := by
    have proofs : (r.renumber ρ).proof? = r.proof?.map (·.renumber ρ) := rfl
    simp only [Rule.candidate, proofs, Rule.source_renumber]
    cases r.proof? <;> rfl
  progress := by
    simp only [Rule.candidate, Rule.source_renumber, Rule.target_renumber]
    exact Progress.inStep_mustChange r.source r.target

/-- Applications of a rule, in step. -/
structure Applied.InStep (T : Term → Prop) (ρ : Nat → Nat) (r r' : Applied) : Prop where
  rule : r'.rule = r.rule
  direction : r'.direction = r.direction
  context : r'.context = r.context
  matched : r'.matched = r.matched
  equation : r'.equation = r.equation.renumber ρ
  replacement : r'.replacement = r.replacement.renumber ρ
  store : r.store.Widens T ρ r'.store

/-- Where a rule applies, the same one applies in a store with idle holes, or there is no answer. -/
theorem applyRules?_related (fixed : cx.signature.Fixed ρ) (same : scope.Fixed ρ)
    (discharge : Discharges cx T ρ total resolve) (h : s.Widens T ρ s')
    (values : ∀ k v, s.value? k = some v → v.Fixed ρ) (rules : List Rule) (occ : Occurrences)
    {target : Term} (htarget : target.Fixed ρ) {r : Applied} {n : Nat}
    (hr : applyRules? cx (.standard cx) s scope rules occ target = some ⟨.ok r, n⟩) :
    let answer? := applyRules? cx (.discharging cx resolve) s' scope
      (rules.map (Rule.renumber ρ)) occ target
    (total → answer?.isSome) ∧
      ∀ answer, answer? = some answer → ∃ r', answer = ⟨.ok r', n⟩ ∧ r.InStep T ρ r' := by
  refine Search.report_related ?_ hr
  have candidates : List.Forall₂ (Candidate.InStep T ρ) (rules.map Rule.candidate)
      ((rules.map (Rule.renumber ρ)).map Rule.candidate) := by
    simp only [List.forall₂_map_left_iff, List.forall₂_map_right_iff]
    exact List.forall₂_same.2 fun r _ => r.candidate_inStep
  rw [Search.checkFreeRels_congr (Rule.sides_renumber rules)]
  refine (searches total).bind (Search.related_refl _) fun _ _ _ => ?_
  refine (searches total).bind
    (Search.run_related fixed same discharge h values candidates occ htarget)
    fun found found' hfound => ?_
  rw [hfound.located.index, List.getElem?_map]
  have chosen : Lifting.option.Related (Maps (Rule.renumber ρ)) rules[found.located.index]?
      (rules[found.located.index]?.map (Rule.renumber ρ)) :=
    fun rule hrule => ⟨_, congrArg (Option.map _) hrule, rfl⟩
  refine (searches total).bind (Search.ofAnswer_related (Lifting.follows chosen))
    fun rule rule' hrule => ?_
  subst hrule
  have replaced := hfound.store.instantiate? rule.target
  rw [← Rule.target_renumber] at replaced
  refine (searches total).bind (Search.ofAnswer_related (Lifting.follows replaced))
    fun t t' ht => ?_
  exact (searches total).pure ⟨rfl, rfl, hfound.context, hfound.located.key,
    hfound.located.payload, ht, hfound.store⟩

end

end KeyedMatching
