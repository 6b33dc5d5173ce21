import Mathlib.Data.Option.Defs

/-!
# Computations that follow one another

A `Lifting` of a monad relates two computations by a relation between their results, so that related
computations can be put together from related ones. `Lifting.option` is where this starts: the
second computation follows the first if it has an answer wherever that has one, and a related one.
With `Lifting.together` it has an answer nowhere else; with `Lifting.following` it may have none
there, but no other than a related one. States, failures and errors are added on top by
`Lifting.stateT`, `Lifting.optionT` and `Lifting.exceptT`.
-/

namespace KeyedMatching

/-- A way of relating computations by their results. -/
structure Lifting (m : Type → Type) [Monad m] where
  /-- The results of the two computations are related. -/
  Related : {α : Type} → (α → α → Prop) → m α → m α → Prop
  pure : ∀ {α} {R : α → α → Prop} {a a' : α}, R a a' → Related R (Pure.pure a) (Pure.pure a')
  bind : ∀ {α β} {R : α → α → Prop} {Q : β → β → Prop} {x x' : m α} {f f' : α → m β},
    Related R x x' → (∀ a a', R a a' → Related Q (f a) (f' a')) → Related Q (x >>= f) (x' >>= f')

/-- Two results with, or two failures without a value. -/
inductive Outcome {ε α : Type} (E : ε → ε → Prop) (R : α → α → Prop) :
    Except ε α → Except ε α → Prop
  | ok {a a' : α} (h : R a a') : Outcome E R (.ok a) (.ok a')
  | error {e e' : ε} (h : E e e') : Outcome E R (.error e) (.error e')

/-- The second is what a function makes of the first. -/
abbrev Maps {α : Type} (f : α → α) (a a' : α) : Prop :=
  a' = f a

/-- The second is the first, which satisfies `P`. -/
abbrev Shared {α : Type} (P : α → Prop) (a a' : α) : Prop :=
  a' = a ∧ P a

namespace Lifting

/-- Computations without effects are related where their results are. -/
def id : Lifting Id where
  Related R x x' := R x.run x'.run
  pure h := h
  bind hx hf := hf _ _ hx

/-- The second computation has an answer wherever the first has one. -/
def option : Lifting Option where
  Related R x x' := ∀ a, x = some a → ∃ a', x' = some a' ∧ R a a'
  pure h := by
    rintro a ⟨⟩
    exact ⟨_, rfl, h⟩
  bind hx hf := by
    intro b h
    obtain ⟨a, ha, hb⟩ := Option.bind_eq_some_iff.1 h
    obtain ⟨a', rfl, r⟩ := hx a ha
    exact hf a a' r b hb

/-- Where the first computation has an answer, the second has no other than a related one, and has
one if `total` is true. -/
def following (total : Prop) : Lifting Option where
  Related R x x' := ∀ a, x = some a → (total → x'.isSome) ∧ ∀ a', x' = some a' → R a a'
  pure h := by
    rintro a ⟨⟩
    refine ⟨fun _ => rfl, ?_⟩
    rintro a' ⟨⟩
    exact h
  bind hx hf := by
    intro b h
    obtain ⟨a, ha, hb⟩ := Option.bind_eq_some_iff.1 h
    obtain ⟨answers, related⟩ := hx a ha
    refine ⟨fun total => ?_, fun b' h' => ?_⟩
    · obtain ⟨a', ha'⟩ := Option.isSome_iff_exists.1 (answers total)
      rw [ha']
      exact (hf a a' (related a' ha') b hb).1 total
    · obtain ⟨a', ha', hb'⟩ := Option.bind_eq_some_iff.1 h'
      exact (hf a a' (related a' ha') b hb).2 b' hb'

/-- Both computations have an answer, and related ones, or neither has. -/
def together : Lifting Option where
  Related := Option.Rel
  pure h := .some h
  bind hx hf := by
    cases hx with
    | some h => exact hf _ _ h
    | none => exact .none

section
variable {m : Type → Type} [Monad m] (L : Lifting m) {σ ε : Type}

/-- From related states, the results are related, and so are the states reached. -/
def stateT (Q : σ → σ → Prop) : Lifting (StateT σ m) where
  Related {α} R x x' := ∀ s s', Q s s' →
    L.Related (fun p p' : α × σ => R p.1 p'.1 ∧ Q p.2 p'.2) (x.run s) (x'.run s')
  pure h _ _ q := L.pure ⟨h, q⟩
  bind hx hf s s' q := L.bind (hx s s' q) fun
    | (a, t), (a', t'), h => hf a a' h.1 t t' h.2

/-- Both computations fail, or the results are related. -/
def optionT : Lifting (OptionT m) where
  Related R x x' := L.Related (Option.Rel R) x.run x'.run
  pure h := L.pure (.some h)
  bind hx hf := L.bind hx fun o o' h => by
    cases h with
    | some h => exact hf _ _ h
    | none => exact L.pure .none

/-- Both computations fail, with related errors, or the results are related. -/
def exceptT (E : ε → ε → Prop) : Lifting (ExceptT ε m) where
  Related R x x' := L.Related (Outcome E R) x.run x'.run
  pure h := L.pure (.ok h)
  bind hx hf := L.bind hx fun o o' h => by
    cases h with
    | ok h => exact hf _ _ h
    | error h => exact L.pure (.error h)

variable {L} {α β : Type} {Q : σ → σ → Prop} {E : ε → ε → Prop} {R : α → α → Prop}

/-! ## Results put together -/

section
variable {γ δ : Type} {f : α → α} {g : β → β} {h : γ → γ} {k : δ → δ} {x x' : m α} {y y' : m β}
  {z z' : m γ}

theorem map₁ {c c' : α → δ} (hx : L.Related (Maps f) x x') (same : ∀ a, c' (f a) = k (c a)) :
    L.Related (Maps k) (x >>= fun a => Pure.pure (c a)) (x' >>= fun a => Pure.pure (c' a)) :=
  L.bind hx fun a a' ha => by
    rw [ha]
    exact L.pure (same a)

theorem map₂ {c c' : α → β → δ} (hx : L.Related (Maps f) x x') (hy : L.Related (Maps g) y y')
    (same : ∀ a b, c' (f a) (g b) = k (c a b)) :
    L.Related (Maps k) (x >>= fun a => y >>= fun b => Pure.pure (c a b))
      (x' >>= fun a => y' >>= fun b => Pure.pure (c' a b)) :=
  L.bind hx fun a a' ha => by
    rw [ha]
    exact map₁ hy (same a)

theorem map₃ {c c' : α → β → γ → δ} (hx : L.Related (Maps f) x x') (hy : L.Related (Maps g) y y')
    (hz : L.Related (Maps h) z z') (same : ∀ a b e, c' (f a) (g b) (h e) = k (c a b e)) :
    L.Related (Maps k) (x >>= fun a => y >>= fun b => z >>= fun e => Pure.pure (c a b e))
      (x' >>= fun a => y' >>= fun b => z' >>= fun e => Pure.pure (c' a b e)) :=
  L.bind hx fun a a' ha => by
    rw [ha]
    exact map₂ hy hz (same a)

end

/-! ## Lists -/

/-- Going through two lists keeps states related, the entries of the second being those of the first
under `g`. -/
theorem foldlM_map {f f' : σ → β → m σ} {g : β → β} (xs : List β)
    (h : ∀ x ∈ xs, ∀ s s', Q s s' → L.Related Q (f s x) (f' s' (g x))) {s s' : σ} (start : Q s s') :
    L.Related Q (xs.foldlM f s) ((xs.map g).foldlM f' s') := by
  induction xs generalizing s s' with
  | nil => exact L.pure start
  | cons x xs ih =>
    obtain ⟨hx, hxs⟩ := List.forall_mem_cons.1 h
    exact L.bind (hx s s' start) fun _ _ next => ih hxs next

theorem mapM_map [LawfulMonad m] {f f' : α → m α} {g : α → α} (xs : List α)
    (h : ∀ x ∈ xs, L.Related (Maps g) (f x) (f' (g x))) :
    L.Related (Maps (List.map g)) (xs.mapM f) ((xs.map g).mapM f') := by
  induction xs with
  | nil => exact L.pure rfl
  | cons x xs ih =>
    obtain ⟨hx, hxs⟩ := List.forall_mem_cons.1 h
    rw [List.map_cons, List.mapM_cons, List.mapM_cons]
    exact map₂ hx (ih hxs) fun _ _ => rfl

/-! ## Effects -/

theorem map [LawfulMonad m] {x x' : m α} {f f' : α → β} {T : β → β → Prop} (hx : L.Related R x x')
    (hf : ∀ a a', R a a' → T (f a) (f' a')) : L.Related T (f <$> x) (f' <$> x') := by
  rw [map_eq_pure_bind, map_eq_pure_bind]
  exact L.bind hx fun a a' r => L.pure (hf a a' r)

theorem stateT_lift {x x' : m α} (h : L.Related R x x') :
    (L.stateT Q).Related R (StateT.lift x) (StateT.lift x') :=
  fun _ _ q => L.bind h fun _ _ r => L.pure ⟨r, q⟩

theorem stateT_get : (L.stateT Q).Related Q get get :=
  fun _ _ q => L.pure ⟨q, q⟩

theorem stateT_set {s s' : σ} (q : Q s s') :
    (L.stateT Q).Related (fun _ _ => True) (set s) (set s') :=
  fun _ _ _ => L.pure ⟨trivial, q⟩

theorem stateT_modify {f f' : σ → σ} (h : ∀ s s', Q s s' → Q (f s) (f' s')) :
    (L.stateT Q).Related (fun _ _ => True) (modify f) (modify f') :=
  fun s s' q => L.pure ⟨trivial, h s s' q⟩

theorem optionT_lift {x x' : m α} (h : L.Related R x x') :
    L.optionT.Related R (OptionT.lift x) (OptionT.lift x') :=
  L.bind h fun _ _ r => L.pure (.some r)

theorem optionT_failure : L.optionT.Related R failure failure :=
  L.pure .none

theorem optionT_orElse {x x' y y' : OptionT m α} (hx : L.optionT.Related R x x')
    (hy : L.optionT.Related R y y') : L.optionT.Related R (x <|> y) (x' <|> y') :=
  L.bind hx fun o o' h => by
    cases h with
    | some h => exact L.pure (.some h)
    | none => exact hy

theorem exceptT_lift [LawfulMonad m] {x x' : m α} (h : L.Related R x x') :
    (L.exceptT E).Related R (ExceptT.lift x) (ExceptT.lift x') :=
  map h fun _ _ => .ok

theorem exceptT_throw {e e' : ε} (h : E e e') :
    (L.exceptT E).Related R (throw e) (throw e') :=
  L.pure (.error h)

end

/-- Attempts that count from the same number. -/
def attempt : Lifting (OptionT (StateT Nat Option)) :=
  (option.stateT Eq).optionT

theorem eq_map_of_together {α : Type} {f : α → α} {x x' : Option α}
    (h : together.Related (Maps f) x x') : x' = x.map f := by
  cases h with
  | some h => exact congrArg some h
  | none => rfl

theorem option_none {α : Type} {R : α → α → Prop} {x' : Option α} : option.Related R none x' := by
  rintro a ⟨⟩

section
variable {total : Prop} {α : Type} {R : α → α → Prop} {x x' y : Option α}

/-- What follows a computation with no other answers than a third one's follows that. -/
theorem following_of_option (h : option.Related R x y) (answers : total → x' = y)
    (others : ∀ a, x' = some a → y = some a) : (following total).Related R x x' := by
  intro a ha
  obtain ⟨b, hb, r⟩ := h a ha
  refine ⟨fun given => ?_, fun a' ha' => ?_⟩
  · rw [answers given, hb]
    rfl
  · rw [others a' ha'] at hb
    cases hb
    exact r

theorem follows (h : option.Related R x x') : (following total).Related R x x' :=
  following_of_option h (fun _ => rfl) fun _ answered => answered

end

end Lifting

end KeyedMatching
