import KeyedMatching.Proofs.Reduction
import KeyedMatching.Proofs.Success
import KeyedMatching.Proofs.Unification.Tandem

/-!
# The unfoldings that a problem uses

How many unfoldings a problem uses depends on what is compared, and neither on how many are left,
if any, nor on what has been put off.

* `Attempt.repeats`: an attempt that is made again with more or fewer unfoldings left comes out as
  before and uses as many;
* `Unify.within_repeats`: unification does so beside other equations, also if it recurses deeper.
-/

namespace KeyedMatching

namespace Attempt

theorem run_spend {n : Nat} (h : n ≠ 0) : spend.run.run n = some (some (), n - 1) := by
  have asked : (spend : Attempt Unit).run.run n =
      (if n = 0 then failure else set (n - 1) : Attempt Unit).run.run n := rfl
  rw [asked, if_neg h]
  rfl

/-- The second attempt comes out as the first, whatever number of unfoldings is to be left, as long
as none are left after one of them only if none are after the other. -/
def Repeats {α : Type} (R : α → α → Prop) (x x' : Attempt α) : Prop :=
  ∀ n o m, x.run.run n = some (o, m) → m ≤ n ∧
    ∀ k, (k = 0 ↔ m = 0) → ∃ o', x'.run.run (k + (n - m)) = some (o', k) ∧ Option.Rel R o o'

section
variable {α β : Type} {R : α → α → Prop} {Q : β → β → Prop} {x x' y y' : Attempt α}

theorem repeats_pure {a a' : α} (h : R a a') : Repeats R (pure a) (pure a') := by
  rintro n o m ⟨⟩
  refine ⟨Nat.le_refl n, fun k _ => ⟨some a', ?_, .some h⟩⟩
  rw [Nat.sub_self]
  rfl

theorem repeats_failure : Repeats R failure failure := by
  rintro n o m ⟨⟩
  refine ⟨Nat.le_refl n, fun k _ => ⟨none, ?_, .none⟩⟩
  rw [Nat.sub_self]
  rfl

theorem repeats_bind {f f' : α → Attempt β} (hx : Repeats R x x')
    (hf : ∀ a a', R a a' → Repeats Q (f a) (f' a')) : Repeats Q (x >>= f) (x' >>= f') := by
  intro n o m run
  rcases OptionT.run_bind_iff.1 run with ⟨failed, rfl⟩ | ⟨a, l, reached, rest⟩
  · obtain ⟨less, again⟩ := hx n none m failed
    refine ⟨less, fun k dry => ?_⟩
    obtain ⟨o', failed', rel⟩ := again k dry
    cases rel
    exact ⟨none, OptionT.run_bind_iff.2 (.inl ⟨failed', rfl⟩), .none⟩
  · obtain ⟨less, again⟩ := hx n (some a) l reached
    obtain ⟨o', _, rel⟩ := again l Iff.rfl
    cases rel with
    | @some _ a' related =>
      obtain ⟨less', again'⟩ := hf a a' related l o m rest
      refine ⟨Nat.le_trans less' less, fun k dry => ?_⟩
      obtain ⟨a₁, reached', rel⟩ := again (k + (l - m)) (by omega)
      cases rel with
      | @some _ a₁ related₁ =>
        obtain ⟨o', rest', rel'⟩ := (hf a a₁ related₁ l o m rest).2 k dry
        have total : k + (l - m) + (n - l) = k + (n - m) := by omega
        rw [total] at reached'
        exact ⟨o', OptionT.run_bind_iff.2 (.inr ⟨a₁, _, reached', rest'⟩), rel'⟩

theorem repeats_orElse (hx : Repeats R x x') (hy : Repeats R y y') :
    Repeats R (x <|> y) (x' <|> y') := by
  intro n o m run
  rcases OptionT.run_orElse_iff.1 run with ⟨done, success⟩ | ⟨l, failed, rest⟩
  · obtain ⟨less, again⟩ := hx n o m done
    refine ⟨less, fun k dry => ?_⟩
    obtain ⟨o', done', rel⟩ := again k dry
    refine ⟨o', OptionT.run_orElse_iff.2 (.inl ⟨done', ?_⟩), rel⟩
    cases rel with
    | some related => rfl
    | none => cases success
  · obtain ⟨less, again⟩ := hx n none l failed
    obtain ⟨less', again'⟩ := hy l o m rest
    refine ⟨Nat.le_trans less' less, fun k dry => ?_⟩
    obtain ⟨o', failed', rel⟩ := again (k + (l - m)) (by omega)
    obtain ⟨o'', rest', rel'⟩ := again' k dry
    cases rel
    have total : k + (l - m) + (n - l) = k + (n - m) := by omega
    rw [total] at failed'
    exact ⟨o'', OptionT.run_orElse_iff.2 (.inr ⟨_, failed', rest'⟩), rel'⟩

theorem repeats_get : Repeats (fun n n' => n = 0 ↔ n' = 0) (get : Attempt Nat) get := by
  rintro n o m ⟨⟩
  refine ⟨Nat.le_refl n, fun k dry => ⟨some k, ?_, .some dry.symm⟩⟩
  rw [Nat.sub_self]
  rfl

theorem repeats_spend : Repeats (fun _ _ => True) spend spend := by
  intro n o m run
  by_cases dry : n = 0
  · subst dry
    cases run
    refine ⟨Nat.le_refl 0, fun k dry' => ?_⟩
    obtain rfl := dry'.2 rfl
    exact ⟨none, rfl, .none⟩
  · rw [run_spend dry] at run
    cases run
    refine ⟨Nat.sub_le n 1, fun k _ => ⟨some (), ?_, .some trivial⟩⟩
    have one : n - (n - 1) = 1 := by omega
    rw [one, run_spend (Nat.succ_ne_zero k)]
    rfl

end

/-- Attempts whose results are related, and which use the same number of unfoldings. -/
def repeats : Lifting Attempt where
  Related := Repeats
  pure := repeats_pure
  bind := repeats_bind

end Attempt

namespace Unify

section
variable {cx : Context} {mode : UnifyMode} {p q : List Equation}

/-- The stores differ in what was put off to begin with, `p` or `q`, and in nothing else. -/
def Beside (p q : List Equation) (s s' : Store) : Prop :=
  ∃ es, s.pending = p ++ es ∧ s' = { s with pending := q ++ es }

theorem Beside.assign? {s s' : Store} (h : Beside p q s s') (k : Nat) (v : Term) :
    Option.Rel (Beside p q) (s.assign? k v) (s'.assign? k v) := by
  obtain ⟨es, own, rfl⟩ := h
  rw [Store.assign?_of_pending s (q ++ es)]
  cases assigned : s.assign? k v with
  | none => exact .none
  | some t => exact .some ⟨es, by rw [Store.pending_assign? assigned, own], rfl⟩

theorem Beside.defer {s s' : Store} (h : Beside p q s s') (e : Equation) :
    Beside p q (s.defer e) (s'.defer e) := by
  obtain ⟨es, own, rfl⟩ := h
  refine ⟨es ++ [e], ?_, ?_⟩
  · rw [Store.defer, own, List.append_assoc]
  · rw [Store.defer, Store.defer, List.append_assoc]

theorem renumber_id (t : Term) : t.renumber id = t :=
  Term.renumber_eq_self fun _ _ => rfl

theorem over_id (t : Term) : t.Fixed id :=
  Term.over_holes.2 fun _ _ => rfl

/-- A problem can be unified again beside other equations. -/
theorem tandem_beside : Tandem cx id Attempt.repeats (Beside p q) where
  fixed := ⟨fun _ _ _ => over_id _, fun _ _ _ => over_id _, fun _ _ _ _ => over_id _,
    fun _ _ => over_id _⟩
  failed := Attempt.repeats_failure
  tried := Attempt.repeats_orElse
  cut _ _ _ run := by cases run
  asked := Attempt.repeats_get
  spent := Attempt.repeats_spend
  inj _ := Function.injective_id
  whnf? := by
    rintro s s' ⟨es, _, rfl⟩ t u hu
    refine ⟨u, ?_, (renumber_id u).symm⟩
    rw [renumber_id, whnf?_of_pending, hu]
  instantiate? := by
    rintro s s' ⟨es, _, rfl⟩ t u hu
    refine ⟨u, ?_, (renumber_id u).symm⟩
    rw [renumber_id, Store.instantiate?_of_pending, hu]
  isAssignable := by
    rintro s s' ⟨es, _, rfl⟩ k
    rfl
  assign? h k v := by
    rw [renumber_id]
    exact h.assign? k v
  defer h a b := by
    rw [renumber_id, renumber_id]
    exact h.defer ⟨a, b⟩

/-- The same terms are unified beside other equations, with other unfoldings left and recursing at
least as deep: the attempt comes out as before, and uses as many unfoldings. -/
theorem within_repeats {n m : Nat} (deeper : n ≤ m) {s s' : Store} (h : Beside p q s s')
    (a b : Term) :
    Attempt.Repeats (Beside p q) (within cx mode n s a b) (within cx mode m s' a b) := by
  have related : Attempt.Repeats (Beside p q) (within cx mode n s a b)
      (within cx mode m s' (a.renumber id) (b.renumber id)) :=
    tandem_beside.within_related deeper s s' a b h
  rwa [renumber_id, renumber_id] at related

end

end Unify

end KeyedMatching
