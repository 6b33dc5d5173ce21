import Mathlib.Logic.Basic

/-!
# What a success says

An attempt that may fail or be cut off, and counts as it goes, is looked at only where it succeeds.
`OptionT.Ensures x Q` and `ExceptT.Ensures x Q` say that every success of `x` satisfies `Q`,
whatever the count was; there is one rule for each way in which attempts are put together.
`ExceptT.Yields x Q` says so of every result, a failure being one with its reason, and
`ExceptT.Leads x s Q` of every result with the state reached from `s`.
-/

namespace OptionT

variable {σ α β : Type}

/-! ## How an attempt comes out -/

section
variable {x y : OptionT (StateT σ Option) α} {f : α → OptionT (StateT σ Option) β} {n m : σ}

theorem run_bind_iff {o : Option β} : (x >>= f).run.run n = some (o, m) ↔
    (x.run.run n = some (none, m) ∧ o = none) ∨
      ∃ a k, x.run.run n = some (some a, k) ∧ (f a).run.run k = some (o, m) := by
  simp only [OptionT.run_bind, StateT.run_bind, Option.bind_eq_bind, Option.elimM,
    Option.bind_eq_some_iff, Prod.exists]
  constructor
  · rintro ⟨o', k, hx, hf⟩
    cases o' with
    | none =>
      cases hf
      exact .inl ⟨hx, rfl⟩
    | some a => exact .inr ⟨a, k, hx, hf⟩
  · rintro (⟨hx, rfl⟩ | ⟨a, k, hx, hf⟩)
    · exact ⟨none, m, hx, rfl⟩
    · exact ⟨some a, k, hx, hf⟩

theorem run_orElse_iff {o : Option α} : (x <|> y).run.run n = some (o, m) ↔
    (x.run.run n = some (o, m) ∧ o.isSome) ∨
      ∃ k, x.run.run n = some (none, k) ∧ y.run.run k = some (o, m) := by
  simp only [OptionT.run_orElse, StateT.run_bind, Option.bind_eq_bind, Option.elimM,
    Option.bind_eq_some_iff, Prod.exists]
  constructor
  · rintro ⟨o', k, hx, hy⟩
    cases o' with
    | none => exact .inr ⟨k, hx, hy⟩
    | some a =>
      cases hy
      exact .inl ⟨hx, rfl⟩
  · rintro (⟨hx, success⟩ | ⟨k, hx, hy⟩)
    · obtain ⟨a, rfl⟩ := Option.isSome_iff_exists.1 success
      exact ⟨some a, m, hx, rfl⟩
    · exact ⟨none, k, hx, hy⟩

end

/-! ## What its successes satisfy -/

/-- Every success of the attempt satisfies `Q`. -/
def Ensures (x : OptionT (StateT σ Option) α) (Q : α → Prop) : Prop :=
  ∀ n a n', x.run.run n = some (some a, n') → Q a

section
variable {x y : OptionT (StateT σ Option) α} {P Q : α → Prop}

theorem Ensures.mono (h : x.Ensures P) (imp : ∀ a, P a → Q a) : x.Ensures Q :=
  fun n a n' ha => imp a (h n a n' ha)

theorem ensures_true : x.Ensures fun _ => True :=
  fun _ _ _ _ => trivial

theorem ensures_pure {a : α} (h : Q a) : (pure a : OptionT (StateT σ Option) α).Ensures Q := by
  intro n b n' hb
  cases hb
  exact h

theorem ensures_failure : (failure : OptionT (StateT σ Option) α).Ensures Q := by
  intro n a n' h
  cases h

theorem ensures_bind {f : α → OptionT (StateT σ Option) β} {R : β → Prop} (hx : x.Ensures P)
    (hf : ∀ a, P a → (f a).Ensures R) : (x >>= f).Ensures R := by
  intro n b n' h
  rcases run_bind_iff.1 h with ⟨_, none'⟩ | ⟨a, m, hm, h⟩
  · cases none'
  · exact hf a (hx n a m hm) m b n' h

theorem ensures_orElse (hx : x.Ensures Q) (hy : y.Ensures Q) : (x <|> y).Ensures Q := by
  intro n a n' h
  rcases run_orElse_iff.1 h with ⟨h, _⟩ | ⟨m, _, h⟩
  · exact hx n a n' h
  · exact hy m a n' h

end

end OptionT

namespace ExceptT

variable {ε σ α β : Type}

/-- Every success of the attempt satisfies `Q`. -/
def Ensures (x : ExceptT ε (StateT σ Option) α) (Q : α → Prop) : Prop :=
  ∀ n a n', x.run.run n = some (.ok a, n') → Q a

section
variable {x : ExceptT ε (StateT σ Option) α} {P Q : α → Prop}

theorem ensures_true : x.Ensures fun _ => True :=
  fun _ _ _ _ => trivial

theorem ensures_pure {a : α} (h : Q a) : (pure a : ExceptT ε (StateT σ Option) α).Ensures Q := by
  intro n b n' hb
  cases hb
  exact h

theorem ensures_throw {e : ε} : (throw e : ExceptT ε (StateT σ Option) α).Ensures Q := by
  intro n a n' h
  cases h

theorem ensures_bind {f : α → ExceptT ε (StateT σ Option) β} {R : β → Prop} (hx : x.Ensures P)
    (hf : ∀ a, P a → (f a).Ensures R) : (x >>= f).Ensures R := by
  intro n b n' h
  simp only [ExceptT.run_bind, StateT.run_bind, Option.bind_eq_bind, Option.bind_eq_some_iff,
    Prod.exists] at h
  obtain ⟨r, m, hm, h⟩ := h
  cases r with
  | error e => cases h
  | ok a => exact hf a (hx n a m hm) m b n' h

end

/-- Every result of the attempt satisfies `Q`. -/
def Yields (x : ExceptT ε (StateT σ Option) α) (Q : Except ε α → Prop) : Prop :=
  ∀ n r n', x.run.run n = some (r, n') → Q r

section
variable {x : ExceptT ε (StateT σ Option) α} {P Q : Except ε α → Prop}

theorem yields_pure {a : α} (h : Q (.ok a)) :
    (pure a : ExceptT ε (StateT σ Option) α).Yields Q := by
  intro n r n' hr
  cases hr
  exact h

theorem yields_throw {e : ε} (h : Q (.error e)) :
    (throw e : ExceptT ε (StateT σ Option) α).Yields Q := by
  intro n r n' hr
  cases hr
  exact h

theorem yields_bind {f : α → ExceptT ε (StateT σ Option) β} {R : Except ε β → Prop}
    (hx : x.Yields P) (failed : ∀ e, P (.error e) → R (.error e))
    (hf : ∀ a, P (.ok a) → (f a).Yields R) : (x >>= f).Yields R := by
  intro n r n' h
  simp only [ExceptT.run_bind, StateT.run_bind, Option.bind_eq_bind, Option.bind_eq_some_iff,
    Prod.exists] at h
  obtain ⟨r', m, hm, h⟩ := h
  have first := hx n r' m hm
  cases r' with
  | error e =>
    cases h
    exact failed e first
  | ok a => exact hf a first m r n' h

end

/-- From the state `s`, every result of the attempt satisfies `Q` together with the state that is
reached. -/
def Leads (x : ExceptT ε (StateT σ Option) α) (s : σ) (Q : Except ε α → σ → Prop) : Prop :=
  ∀ r s', x.run.run s = some (r, s') → Q r s'

section
variable {x : ExceptT ε (StateT σ Option) α} {s : σ} {P Q : Except ε α → σ → Prop}

theorem Leads.mono (h : x.Leads s P) (imp : ∀ r s', P r s' → Q r s') : x.Leads s Q :=
  fun r s' run => imp r s' (h r s' run)

theorem leads_pure {a : α} (h : Q (.ok a) s) :
    (pure a : ExceptT ε (StateT σ Option) α).Leads s Q := by
  intro r s' run
  cases run
  exact h

theorem leads_throw {e : ε} (h : Q (.error e) s) :
    (throw e : ExceptT ε (StateT σ Option) α).Leads s Q := by
  intro r s' run
  cases run
  exact h

theorem leads_set {t : σ} {R : Except ε PUnit → σ → Prop} (h : R (.ok ⟨⟩) t) :
    (set t : ExceptT ε (StateT σ Option) PUnit).Leads s R := by
  intro r s' run
  cases run
  exact h

theorem leads_modify {f : σ → σ} {R : Except ε PUnit → σ → Prop} (h : R (.ok ⟨⟩) (f s)) :
    (modify f : ExceptT ε (StateT σ Option) PUnit).Leads s R := by
  intro r s' run
  cases run
  exact h

theorem leads_bind {f : α → ExceptT ε (StateT σ Option) β} {R : Except ε β → σ → Prop}
    (hx : x.Leads s P) (failed : ∀ e s', P (.error e) s' → R (.error e) s')
    (hf : ∀ a s', P (.ok a) s' → (f a).Leads s' R) : (x >>= f).Leads s R := by
  intro r s' run
  simp only [ExceptT.run_bind, StateT.run_bind, Option.bind_eq_bind, Option.bind_eq_some_iff,
    Prod.exists] at run
  obtain ⟨r', m, hm, run⟩ := run
  have first := hx r' m hm
  cases r' with
  | error e =>
    cases run
    exact failed e s' first
  | ok a => exact hf a m first r s' run

theorem leads_get_bind {f : σ → ExceptT ε (StateT σ Option) α} (h : (f s).Leads s Q) :
    (get >>= f).Leads s Q := by
  refine leads_bind (P := fun r s' => r = .ok s ∧ s' = s) (fun r s' run => ?_)
    (fun e s' failed => ?_) fun a s' same => ?_
  · cases run
    exact ⟨rfl, rfl⟩
  · cases failed.1
  · obtain ⟨same, rfl⟩ := same
    cases same
    exact h

theorem leads_lift_bind {o : Option α} {f : α → ExceptT ε (StateT σ Option) β}
    {R : Except ε β → σ → Prop} (h : ∀ a, o = some a → (f a).Leads s R) :
    (ExceptT.lift (StateT.lift o) >>= f).Leads s R := by
  refine leads_bind (P := fun r s' => ∃ a, o = some a ∧ r = .ok a ∧ s' = s)
    (fun r s' run => ?_) (fun e s' failed => ?_) fun a s' answered => ?_
  · cases ho : o with
    | none =>
      rw [ho] at run
      cases run
    | some a =>
      rw [ho] at run
      cases run
      exact ⟨a, rfl, rfl, rfl⟩
  · obtain ⟨a, _, no, _⟩ := failed
    cases no
  · obtain ⟨b, ho, same, rfl⟩ := answered
    cases same
    exact h a ho

end

end ExceptT
