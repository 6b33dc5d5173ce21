import KeyedMatching.Proofs.Unification.Imitation
import KeyedMatching.Proofs.Unification.Simplification

/-!
# Equations that stay

As long as no hole is assigned, an equation that was put off stays. When it is taken up, the
attempts that failed before fail again, for the store has the same values and they recurse no less
deep; and they use as many unfoldings as before.

* `Unify.Lingers`: equations are put off again when they are taken up;
* `Unify.within_idles`: the equations that unification puts off linger, unless it assigns a hole, or
  uses the last unfolding, or one of them is imitated;
* `Unify.simplify?_again`: so, after equations were taken up to no avail, nothing comes of taking
  them up once more.
-/

namespace KeyedMatching

namespace Unify

section
variable {cx : Context} {s s₁ s' : Store} {n k m : Nat}

/-! ## Taking equations up again -/

/-- Unify equations again, one after the other. -/
def takeUp (cx : Context) (s : Store) (es : List Equation) : Attempt Store :=
  es.foldlM (fun s e => within cx .higherOrder cx.depth s e.lhs e.rhs) s

theorem takeUp_singleton (s : Store) (e : Equation) :
    takeUp cx s [e] = within cx .higherOrder cx.depth s e.lhs e.rhs := by
  simp only [takeUp, List.foldlM_cons, List.foldlM_nil, bind_pure]

theorem takeUp_append (s : Store) (es es' : List Equation) :
    takeUp cx s (es ++ es') = takeUp cx s es >>= fun s => takeUp cx s es' :=
  List.foldlM_append

/-- Taken up beside any others, the equations are put off again, with their sides exchanged if at
all. This uses `c` unfoldings; there are none left all the while if `dry`. -/
structure Lingers (cx : Context) (s : Store) (dry : Prop) (es : List Equation) (c : Nat) :
    Prop where
  unused : dry → c = 0
  again : ∀ ps k, (k = 0 ↔ dry) → ∃ es', List.Forall₂ (fun e e' => e' = e ∨ e' = e.swap) es es' ∧
    (takeUp cx { s with pending := ps } es).run.run (k + c) =
      some (some { s with pending := ps ++ es' }, k)

theorem lingers_nil {dry : Prop} : Lingers cx s dry [] 0 where
  unused _ := rfl
  again ps k _ := by
    refine ⟨[], .nil, ?_⟩
    rw [List.append_nil]
    rfl

theorem lingers_singleton {dry : Prop} {e : Equation} {c : Nat} (unused : dry → c = 0)
    (again : ∀ ps k, (k = 0 ↔ dry) → ∃ e', (e' = e ∨ e' = e.swap) ∧
      (within cx .higherOrder cx.depth { s with pending := ps } e.lhs e.rhs).run.run (k + c) =
        some (some { s with pending := ps ++ [e'] }, k)) : Lingers cx s dry [e] c where
  unused := unused
  again ps k left := by
    obtain ⟨e', sides, run⟩ := again ps k left
    exact ⟨[e'], .cons sides .nil, by rw [takeUp_singleton, run]⟩

theorem Lingers.append {dry : Prop} {es es' : List Equation} {c c' : Nat}
    (h : Lingers cx s dry es c) (h' : Lingers cx s dry es' c') :
    Lingers cx s dry (es ++ es') (c + c') where
  unused d := by rw [h.unused d, h'.unused d]
  again ps k left := by
    have left' : k + c' = 0 ↔ dry := by
      constructor
      · intro none'
        exact left.1 (by omega)
      · intro d
        rw [left.2 d, h'.unused d]
    obtain ⟨qs, sides, run⟩ := h.again ps (k + c') left'
    obtain ⟨qs', sides', run'⟩ := h'.again (ps ++ qs) k left
    refine ⟨qs ++ qs', List.rel_append sides sides', ?_⟩
    have total : k + (c + c') = k + c' + c := by omega
    rw [takeUp_append, total, ← List.append_assoc]
    exact OptionT.run_bind_iff.2 (.inr ⟨_, _, run, run'⟩)

/-- What was put off before does not matter. -/
theorem Lingers.of_pending {dry : Prop} {es ps : List Equation} {c : Nat}
    (h : Lingers cx { s with pending := ps } dry es c) : Lingers cx s dry es c :=
  ⟨h.unused, h.again⟩

/-! ## What an attempt leaves -/

/-- What an attempt that has `n` unfoldings makes of a store, leaving `m`: if no hole was assigned,
then there is nothing new but equations that linger, unless the unfoldings were used up or one of
the equations can be imitated. -/
structure Leaves (cx : Context) (s : Store) (n : Nat) (s' : Store) (m : Nat) : Prop where
  version : s.version ≤ s'.version
  put : s'.version = s.version → ∃ es, s' = { s with pending := s.pending ++ es } ∧
    ((m = 0 → n = 0) → (∀ e ∈ es, imitate? s e = some none) →
      ∃ c, c ≤ n - m ∧ Lingers cx s (n = 0) es c)

theorem Leaves.refl (s : Store) (n m : Nat) : Leaves cx s n s m where
  version := Nat.le_refl _
  put _ := by
    refine ⟨[], ?_, fun _ _ => ⟨0, Nat.zero_le _, lingers_nil⟩⟩
    rw [List.append_nil]

theorem Leaves.trans (h : Leaves cx s n s₁ k) (h' : Leaves cx s₁ k s' m) (less : k ≤ n)
    (less' : m ≤ k) : Leaves cx s n s' m where
  version := Nat.le_trans h.version h'.version
  put same := by
    have := h.version
    have := h'.version
    obtain ⟨es, rfl, lingers⟩ := h.put (by omega)
    obtain ⟨es', rfl, lingers'⟩ := h'.put same
    refine ⟨es ++ es', by rw [List.append_assoc], fun left refused => ?_⟩
    obtain ⟨refused, refused'⟩ := List.forall_mem_append.1 refused
    obtain ⟨c, hc, staying⟩ := lingers (by omega) refused
    obtain ⟨c', hc', staying'⟩ := lingers' (by omega) fun e he =>
      imitate?_of_pending (refused' e he) _
    have dry : (k = 0) = (n = 0) := propext (by omega)
    rw [dry] at staying'
    exact ⟨c + c', by omega, staying.append staying'.of_pending⟩

/-- More unfoldings may have been used before. -/
theorem Leaves.of_le (h : Leaves cx s k s' m) (less : k ≤ n) (less' : m ≤ k) :
    Leaves cx s n s' m :=
  (Leaves.refl s n k).trans h less less'

theorem Leaves.of_assign? {l : Nat} {v : Term} (h : s.assign? l v = some s') (n : Nat) :
    Leaves cx s n s' n := by
  obtain rfl := Store.eq_of_assign? h
  exact ⟨Nat.le_succ _, fun same => absurd same (Nat.succ_ne_self _)⟩

/-- However many unfoldings the attempt starts with, it gives none back, and a success `Leaves`
nothing but equations that linger. -/
def Idles (cx : Context) (s : Store) (x : Attempt Store) : Prop :=
  ∀ n o m, x.run.run n = some (o, m) → m ≤ n ∧ ∀ s', o = some s' → Leaves cx s n s' m

section
variable {x y : Attempt Store}

theorem idles_of_pure (h : ∀ n, Leaves cx s n s' n) : Idles cx s (pure s') := by
  rintro n o m ⟨⟩
  refine ⟨Nat.le_refl n, ?_⟩
  rintro s' ⟨⟩
  exact h n

theorem idles_pure : Idles cx s (pure s) :=
  idles_of_pure fun n => Leaves.refl s n n

theorem idles_failure : Idles cx s failure := by
  rintro n o m ⟨⟩
  exact ⟨Nat.le_refl n, fun s' h => by cases h⟩

theorem idles_cut : Idles cx s (Attempt.ofAnswer none) := by
  rintro n o m ⟨⟩

theorem idles_bind {f : Store → Attempt Store} (hx : Idles cx s x) (hf : ∀ s₁, Idles cx s₁ (f s₁)) :
    Idles cx s (x >>= f) := by
  intro n o m run
  rcases OptionT.run_bind_iff.1 run with ⟨failed, rfl⟩ | ⟨s₁, k, reached, rest⟩
  · exact ⟨(hx n none m failed).1, fun s' h => by cases h⟩
  · obtain ⟨less, leaves⟩ := hx n (some s₁) k reached
    obtain ⟨less', leaves'⟩ := hf s₁ k o m rest
    exact ⟨Nat.le_trans less' less, fun s' h => (leaves s₁ rfl).trans (leaves' s' h) less less'⟩

theorem idles_orElse (hx : Idles cx s x) (hy : Idles cx s y) : Idles cx s (x <|> y) := by
  intro n o m run
  rcases OptionT.run_orElse_iff.1 run with ⟨done, _⟩ | ⟨k, failed, rest⟩
  · exact hx n o m done
  · obtain ⟨less, _⟩ := hx n none k failed
    obtain ⟨less', leaves⟩ := hy k o m rest
    exact ⟨Nat.le_trans less' less, fun s' h => (leaves s' h).of_le less less'⟩

theorem idles_answered {α : Type} {o : Option α} {f : α → Attempt Store}
    (h : ∀ a, o = some a → Idles cx s (f a)) : Idles cx s (Attempt.ofAnswer o >>= f) := by
  cases o with
  | none => exact idles_cut
  | some a => exact h a rfl

theorem idles_ite {p : Prop} [Decidable p] (h : p → Idles cx s x) :
    Idles cx s (if p then x else failure) := by
  by_cases holds : p
  · rw [if_pos holds]
    exact h holds
  · rw [if_neg holds]
    exact idles_failure

end

/-! ## The parts of unification -/

section
variable {again : Store → Term → Term → Attempt Store}

theorem pairs_idles (hagain : ∀ s a b, Idles cx s (again s a b)) (xs ys : List Term) :
    Idles cx s (pairs again s xs ys) := by
  induction xs generalizing s ys with
  | nil => exact idles_pure
  | cons x xs ih =>
    cases ys with
    | nil => exact idles_pure
    | cons y ys => exact idles_bind (hagain s x y) fun s₁ => ih ys

theorem all_idles (hagain : ∀ s a b, Idles cx s (again s a b)) (xs ys : List Term) :
    Idles cx s (all again s xs ys) :=
  idles_ite fun _ => pairs_idles hagain xs ys

theorem heads_idles (hagain : ∀ s a b, Idles cx s (again s a b)) (f g : Head) :
    Idles cx s (heads again s f g) := by
  unfold heads
  split
  · exact idles_ite fun _ => idles_pure
  · exact idles_ite fun _ => idles_pure
  · exact idles_ite fun _ => idles_pure
  · exact idles_ite fun _ => all_idles hagain _ _
  · exact idles_bind (hagain _ _ _) fun s₁ => hagain _ _ _
  · exact idles_bind (hagain _ _ _) fun s₁ => hagain _ _ _
  · refine idles_bind (hagain _ _ _) fun s₁ => ?_
    exact idles_bind (hagain _ _ _) fun s₂ => hagain _ _ _
  · refine idles_bind (hagain _ _ _) fun s₁ => ?_
    exact idles_bind (hagain _ _ _) fun s₂ => all_idles hagain _ _
  · refine idles_ite fun _ => ?_
    exact idles_bind (all_idles hagain _ _) fun s₁ => all_idles hagain _ _
  · exact idles_failure

theorem tops_idles (hagain : ∀ s a b, Idles cx s (again s a b)) (a b : Term) :
    Idles cx s (tops again s a b) := by
  unfold tops
  split
  · exact heads_idles hagain _ _
  · exact idles_bind (hagain _ _ _) fun s₁ => all_idles hagain _ _
  · exact idles_failure

theorem canonical_idles (hagain : ∀ s a b, Idles cx s (again s a b)) (a b : Term) :
    Idles cx s (canonical cx again s a b) := by
  unfold canonical
  split
  · split
    · split
      · exact idles_failure
      · split
        · exact idles_failure
        · dsimp only
          split
          · exact idles_cut
          · exact idles_ite fun _ => idles_bind (hagain _ _ _) fun s₁ => all_idles hagain _ _
    · exact idles_failure
  · exact idles_failure

/-- Going on with the definition of a head for it. -/
theorem idles_unfolded (t : Term) {f : Term → Attempt Store} (hf : ∀ u, Idles cx s (f u)) :
    Idles cx s (do
      let u ← Attempt.ofOption (if (← get) = 0 then none else unfoldHead? cx.signature t)
      Attempt.spend
      f u) := by
  intro n o m run
  change (Attempt.ofOption (if n = 0 then none else unfoldHead? cx.signature t) >>= fun u =>
    Attempt.spend >>= fun _ => f u).run.run n = _ at run
  have failed (run : (failure : Attempt Store).run.run n = some (o, m)) :
      m ≤ n ∧ ∀ s', o = some s' → Leaves cx s n s' m := idles_failure n o m run
  by_cases dry : n = 0
  · rw [if_pos dry] at run
    exact failed run
  · rw [if_neg dry] at run
    cases unfolded : unfoldHead? cx.signature t with
    | none =>
      rw [unfolded] at run
      exact failed run
    | some u =>
      rw [unfolded] at run
      rcases OptionT.run_bind_iff.1 run with ⟨none', _⟩ | ⟨_, k, spent, rest⟩
      · cases none'
      · cases spent
        rcases OptionT.run_bind_iff.1 rest with ⟨none', _⟩ | ⟨_, k, spent, rest⟩
        · rw [Attempt.run_spend dry] at none'
          cases none'
        · rw [Attempt.run_spend dry] at spent
          cases spent
          obtain ⟨less, leaves⟩ := hf u (n - 1) o m rest
          have one := Nat.sub_le n 1
          exact ⟨Nat.le_trans less one, fun s' h => (leaves s' h).of_le one less⟩

theorem unfold_idles (hagain : ∀ s a b, Idles cx s (again s a b)) (a b : Term) :
    Idles cx s (unfold cx again s a b) :=
  idles_orElse (idles_unfolded a fun _ => hagain _ _ _) (idles_unfolded b fun _ => hagain _ _ _)

end

/-! ## Equations that are put off -/

/-- An equation that waits for a hole lingers, and does not use unfoldings. -/
theorem Waits.idles {l : Nat} {inst : List Term} {t : Term} (w : Waits cx s l inst t) :
    Idles cx s (pure (s.defer ⟨.hole l inst, t⟩)) := by
  refine idles_of_pure fun n => ⟨Nat.le_refl _, fun _ => ⟨[_], rfl, fun _ refused => ?_⟩⟩
  refine ⟨0, Nat.zero_le _, lingers_singleton (fun _ => rfl) fun ps k _ => ?_⟩
  obtain ⟨e, sides, put⟩ := w.within (refused _ List.mem_cons_self) ps
  exact ⟨e, sides, by rw [put]; rfl⟩

theorem Solving.idles {again : Store → Term → Term → Attempt Store}
    (hagain : ∀ s a b, Idles cx s (again s a b)) {inst : List Term} {x : Attempt Store}
    (h : Solving cx again s inst x) : Idles cx s x := by
  cases h with
  | cut => exact idles_cut
  | failed => exact idles_failure
  | same inst' => exact all_idles hagain inst inst'
  | assigned h => exact idles_of_pure (Leaves.of_assign? h)
  | waits w => exact w.idles

theorem orElse_assoc {α : Type} (x y z : Attempt α) : ((x <|> y) <|> z) = (x <|> y <|> z) := by
  refine OptionT.ext (StateT.ext fun n => ?_)
  simp only [OptionT.run_orElse, Option.elimM, StateT.run_bind, bind_assoc]
  refine bind_congr fun p => ?_
  obtain ⟨o, m⟩ := p
  cases o <;> rfl

/-- The comparison of two terms neither of which is a hole that may be assigned. -/
theorem step_of_rigid {mode : UnifyMode} {again : Store → Term → Term → Attempt Store} {a b : Term}
    (differ : a ≠ b) (ha : whnf? cx s a .noDelta = some a) (hb : whnf? cx s b .noDelta = some b)
    (left : s.assignable? a = none) (right : s.assignable? b = none) :
    step cx mode again s a b =
      (tops again s a b <|> canonical cx again s a b <|> canonical cx again s b a <|>
        (if mode = .firstOrder then failure else unfold cx again s a b) <|>
        if s.isFlexible a || s.isFlexible b then postpone mode s a b else failure) := by
  unfold step
  rw [if_neg differ, ha, hb]
  change (if a = b then _ else _) = _
  rw [if_neg differ]
  simp only [left, right]

/-- An equation that is put off because nothing else succeeds lingers: when it is taken up, the same
fails again. -/
theorem rigid_idles (deep : n + 1 ≤ cx.depth)
    (hagain : ∀ s a b, Idles cx s (within cx .higherOrder n s a b)) {a b : Term} (differ : a ≠ b)
    (ha : whnf? cx s a .noDelta = some a) (hb : whnf? cx s b .noDelta = some b)
    (left : s.assignable? a = none) (right : s.assignable? b = none) :
    Idles cx s (within cx .higherOrder (n + 1) s a b) := by
  let tried := ((tops (within cx .higherOrder n) s a b <|>
    canonical cx (within cx .higherOrder n) s a b) <|>
    canonical cx (within cx .higherOrder n) s b a) <|> unfold cx (within cx .higherOrder n) s a b
  have compared : within cx .higherOrder (n + 1) s a b =
      (tried <|> if s.isFlexible a || s.isFlexible b then pure (s.defer ⟨a, b⟩) else failure) := by
    simp only [tried, orElse_assoc]
    exact step_of_rigid differ ha hb left right
  have idles : Idles cx s tried :=
    idles_orElse (idles_orElse (idles_orElse (tops_idles hagain a b) (canonical_idles hagain a b))
      (canonical_idles hagain b a)) (unfold_idles hagain a b)
  by_cases flexible : (s.isFlexible a || s.isFlexible b) = true
  · rw [if_pos flexible] at compared
    intro fuel o m run
    rcases OptionT.run_orElse_iff.1 (compared ▸ run) with ⟨done, _⟩ | ⟨k, failed, rest⟩
    · exact idles fuel o m done
    · have less := (idles fuel none k failed).1
      cases rest
      refine ⟨less, ?_⟩
      rintro s' ⟨⟩
      refine ⟨Nat.le_refl _, fun _ => ⟨[⟨a, b⟩], rfl, fun unspent _ => ?_⟩⟩
      refine ⟨fuel - m, Nat.le_refl _, lingers_singleton (by omega) fun ps l left => ?_⟩
      -- The whole comparison is run again, for the failures before have used unfoldings.
      have beside : Beside s.pending ps s { s with pending := ps } :=
        ⟨[], (List.append_nil _).symm, by rw [List.append_nil]⟩
      obtain ⟨_, repeated⟩ := within_repeats deep beside a b fuel _ m run
      obtain ⟨o', run', related⟩ := repeated l (by omega)
      cases related with
      | some beside' =>
        obtain ⟨es, own, rfl⟩ := beside'
        obtain rfl := List.append_cancel_left own
        exact ⟨⟨a, b⟩, .inl rfl, run'⟩
  · rw [if_neg flexible] at compared
    rw [compared]
    exact idles_orElse idles idles_failure

theorem step_idles (deep : n + 1 ≤ cx.depth)
    (hagain : ∀ s a b, Idles cx s (within cx .higherOrder n s a b)) (s : Store) (a b : Term) :
    Idles cx s (within cx .higherOrder (n + 1) s a b) := by
  rw [within]
  unfold step
  by_cases same : a = b
  · rw [if_pos same]
    exact idles_pure
  · rw [if_neg same]
    refine idles_answered fun a' ha => idles_answered fun b' hb => ?_
    have ha' := whnf?_idempotent ha
    have hb' := whnf?_idempotent hb
    by_cases same' : a' = b'
    · rw [if_pos same']
      exact idles_pure
    · rw [if_neg same']
      cases left : s.assignable? a' with
      | some p =>
        obtain rfl := eq_of_assignable? left
        exact (solving_solve (isAssignable_of_assignable? left) ha' hb').idles hagain
      | none =>
        cases right : s.assignable? b' with
        | some p =>
          obtain rfl := eq_of_assignable? right
          exact (solving_solve (isAssignable_of_assignable? right) hb' ha').idles hagain
        | none =>
          have rigid := rigid_idles deep hagain same' ha' hb' left right
          rw [within, step_of_rigid same' ha' hb' left right] at rigid
          exact rigid

/-- What unification leaves if it assigns no hole: equations that linger. -/
theorem within_idles (deep : n ≤ cx.depth) (s : Store) (a b : Term) :
    Idles cx s (within cx .higherOrder n s a b) := by
  induction n generalizing s a b with
  | zero => exact idles_cut
  | succ n ih => exact step_idles deep (ih (Nat.le_of_succ_le deep)) s a b

theorem takeUp_idles (s : Store) (es : List Equation) : Idles cx s (takeUp cx s es) := by
  induction es generalizing s with
  | nil => exact idles_pure
  | cons e es ih => exact idles_bind (within_idles (Nat.le_refl _) s e.lhs e.rhs) ih

/-! ## Imitating none -/

/-- Imitation assigns a hole. -/
theorem version_of_imitate? {e : Equation} (h : imitate? s e = some (some s')) :
    s'.version = s.version + 1 := by
  have side {flex other : Term} (h : imitateSide? s flex other = some (some s')) :
      s'.version = s.version + 1 := by
    obtain ⟨_, _, _, _, _, _, _, assigned⟩ := exists_of_imitateSide? h
    rw [Store.eq_of_assign? assigned]
  exact (imitateSide?_of_imitate? h).elim side side

/-- Equations none of which is imitated are put off again. -/
theorem imitateFirst?_of_refused {es : List Equation}
    (refused : ∀ e ∈ es, imitate? s e = some none) :
    imitateFirst? s es = some { s with pending := s.pending ++ es } := by
  induction es generalizing s with
  | nil =>
    rw [List.append_nil]
    rfl
  | cons e es ih =>
    obtain ⟨first, others⟩ := List.forall_mem_cons.1 refused
    have rest := ih (s := s.defer e) fun e' he' => imitate?_of_pending (others e' he') _
    rw [imitateFirst?, first]
    change imitateFirst? (s.defer e) es = _
    rw [rest]
    simp [Store.defer]

/-- If no hole was assigned, none of the equations is imitated. -/
theorem refused_of_imitateFirst? {es : List Equation} (h : imitateFirst? s es = some s') :
    s.version ≤ s'.version ∧
      (s'.version = s.version → ∀ e ∈ es, imitate? s e = some none) := by
  induction es generalizing s with
  | nil =>
    obtain rfl := Option.some.inj h
    exact ⟨Nat.le_refl _, fun _ _ he => absurd he List.not_mem_nil⟩
  | cons e es ih =>
    simp only [imitateFirst?, Option.bind_eq_bind, Option.bind_eq_some_iff] at h
    obtain ⟨solved, hsolved, h⟩ := h
    cases solved with
    | some s₁ =>
      obtain rfl := Option.some.inj h
      have more : (es.foldl Store.defer s₁).version = s.version + 1 := by
        rw [foldl_defer, ← version_of_imitate? hsolved]
      exact ⟨by omega, fun same => by omega⟩
    | none =>
      obtain ⟨version, refused⟩ := ih h
      refine ⟨version, fun same => List.forall_mem_cons.2 ⟨hsolved, fun e' he' => ?_⟩⟩
      exact imitate?_of_pending (refused same e' he') s.pending

/-! ## Taking up all equations twice -/

/-- Number of unfoldings that are left when the equations put off have been unified again. -/
def unfoldingsLeft? (cx : Context) (s : Store) : Option Nat :=
  ((takeUp cx s.takePending.2 s.pending).run.run cx.config.unfoldFuel).map (·.2)

theorem reunify?_eq_some_iff {o : Option Store} : reunify? cx s = some o ↔
    ∃ m, (takeUp cx s.takePending.2 s.pending).run.run cx.config.unfoldFuel = some (o, m) := by
  simp only [reunify?, run, Option.map_eq_some_iff, Prod.exists, exists_and_right, exists_eq_right]
  rfl

/-- Unless the unfoldings are used up, taking up the equations once more after no hole was assigned
comes out as it did before. -/
theorem simplify?_again (h : simplify? cx s = some (some s')) (same : s'.version = s.version)
    (unspent : unfoldingsLeft? cx s = some 0 → cx.config.unfoldFuel = 0) :
    ∃ s'', simplify? cx s' = some (some s'') ∧ s''.version = s'.version := by
  rw [simplify?_eq] at h
  obtain ⟨next?, reunified, h⟩ := Option.bind_eq_some_iff.1 h
  cases next? with
  | none => cases h
  | some next =>
    obtain ⟨m, run⟩ := reunify?_eq_some_iff.1 reunified
    have left : unfoldingsLeft? cx s = some m := by rw [unfoldingsLeft?, run]; rfl
    obtain ⟨less, leaves⟩ := takeUp_idles s.takePending.2 s.pending _ _ m run
    obtain ⟨version, put⟩ := leaves next rfl
    dsimp only at h
    by_cases idle : next.version = s.version
    · rw [if_pos idle] at h
      obtain ⟨last, imitated, h⟩ := Option.map_eq_some_iff.1 h
      obtain rfl := Option.some.inj h
      obtain ⟨es, rfl, lingers⟩ := put idle
      have refused : ∀ e ∈ es, imitate? s.takePending.2 e = some none :=
        (refused_of_imitateFirst? imitated).2 same
      have stays : last = { s with pending := es } :=
        Option.some.inj (imitated.symm.trans (imitateFirst?_of_refused refused))
      subst stays
      -- With `es` put off and none of them imitated, the second time starts from `es` alone.
      have unspent' : m = 0 → cx.config.unfoldFuel = 0 := fun none' => unspent (none' ▸ left)
      obtain ⟨c, hc, staying⟩ := lingers unspent' refused
      obtain ⟨es', sides, run'⟩ := staying.again [] (cx.config.unfoldFuel - c) (by omega)
      have total : cx.config.unfoldFuel - c + c = cx.config.unfoldFuel := by omega
      rw [total] at run'
      have refused' : ∀ e ∈ es', imitate? s.takePending.2 e = some none := by
        refine Store.forall_right_of_imp (sides.imp fun e e' sides first => ?_) refused
        rcases sides with rfl | rfl
        · exact first
        · exact imitate?_swap first
      have reunified' :
          reunify? cx { s with pending := es } = some (some { s with pending := es' }) :=
        reunify?_eq_some_iff.2 ⟨_, run'⟩
      refine ⟨{ s with pending := es' }, ?_, rfl⟩
      rw [simplify?_eq, reunified']
      change (if s.version = s.version then _ else _) = _
      rw [if_pos rfl]
      exact congrArg (Option.map some) (imitateFirst?_of_refused refused')
    · rw [if_neg idle] at h
      obtain rfl := Option.some.inj (Option.some.inj h)
      exact absurd same idle

end

end Unify

end KeyedMatching
