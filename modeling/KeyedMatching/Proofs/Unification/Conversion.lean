import KeyedMatching.Proofs.Holes.Discipline
import KeyedMatching.Proofs.Reduction
import KeyedMatching.Proofs.Success
import KeyedMatching.Proofs.Term.Framed
import KeyedMatching.Proofs.Unification.Inert

/-!
# What a comparison without assignments says

Where no hole can be assigned and no constant is unfolded, unification only compares: it reduces
both terms at the head and asks in turn whether their tops match, or one of them read through a
canonical form. The order of these questions, and which term is the first, make no difference to an
answer.

* `Unify.Coincide`: a relation that is its own explanation, by reduction and matching;
* `Unify.within_answers`: a comparison that comes to an end succeeds on coinciding terms only, and
  on all that are consistently related.
-/

namespace KeyedMatching

namespace Attempt

/-- Whenever the attempt comes to an end, it has either succeeded with the store as it was, and then
`p` holds, or failed, and then `q` does. -/
def Answers (s : Store) (p q : Prop) (x : Attempt Store) : Prop :=
  ∀ n r n', x.run.run n = some (r, n') → r = some s ∧ p ∨ r = none ∧ q

section
variable {s : Store} {p q p' q' : Prop} {x y : Attempt Store}

theorem Answers.imp (h : Answers s p q x) (hp : p → p') (hq : q → q') : Answers s p' q' x :=
  fun n r n' run => (h n r n' run).imp (And.imp_right hp) (And.imp_right hq)

theorem answers_pure (h : p) : Answers s p q (pure s) := by
  intro n r n' run
  cases run
  exact .inl ⟨rfl, h⟩

theorem answers_failure (h : q) : Answers s p q failure := by
  intro n r n' run
  cases run
  exact .inr ⟨rfl, h⟩

theorem answers_ite {c : Prop} [Decidable c] (h : c → Answers s p q x) (fails : ¬ c → q) :
    Answers s p q (if c then x else failure) := by
  split
  · next holds => exact h holds
  · next fails' => exact answers_failure (fails fails')

theorem answers_bind {f : Store → Attempt Store} (hx : Answers s p q x)
    (success : p → Answers s p' q' (f s)) (fails : q → q') : Answers s p' q' (x >>= f) := by
  intro n r n' run
  rcases OptionT.run_bind_iff.1 run with ⟨hm, rfl⟩ | ⟨s₁, m, hm, run⟩
  · rcases hx n none n' hm with ⟨some', _⟩ | ⟨_, hq⟩
    · cases some'
    · exact .inr ⟨rfl, fails hq⟩
  · rcases hx n (some s₁) m hm with ⟨same, hp⟩ | ⟨none', _⟩
    · obtain rfl := Option.some.inj same
      exact success hp m r n' run
    · cases none'

theorem answers_ofAnswer_bind {α : Type} {o : Option α} {f : α → Attempt Store}
    (h : ∀ a, o = some a → Answers s p q (f a)) : Answers s p q (ofAnswer o >>= f) := by
  intro n r n' run
  cases o with
  | none => cases run
  | some a => exact h a rfl n r n' run

theorem answers_orElse (hx : Answers s p q x) (success : p → p')
    (fails : q → Answers s p' q' y) : Answers s p' q' (x <|> y) := by
  intro n r n' run
  rcases OptionT.run_orElse_iff.1 run with ⟨hm, done⟩ | ⟨m, hm, run⟩
  · rcases hx n r n' hm with ⟨rfl, hp⟩ | ⟨rfl, _⟩
    · exact .inl ⟨rfl, success hp⟩
    · cases done
  · rcases hx n none m hm with ⟨some', _⟩ | ⟨_, hq⟩
    · cases some'
    · exact fails hq m r n' run

end

end Attempt

namespace Unify

open Attempt

/-! ## How two terms match -/

/-- The tops of two terms match: the heads child by child, or the last arguments and what is before
them. -/
inductive Tops (R : Term → Term → Prop) : Term → Term → Prop
  | heads {f g} : Head.Framed R f g → Tops R (.ofHead f) (.ofHead g)
  | spines {f g xs ys} : xs ≠ [] → ys ≠ [] →
    R (.mk f (xs.take (xs.length - ys.length))) (.mk g (ys.take (ys.length - xs.length))) →
    List.Forall₂ R (xs.drop (xs.length - ys.length)) (ys.drop (ys.length - xs.length)) →
    Tops R (.mk f xs) (.mk g ys)

/-- The first term, an application of a projection, matches the second read as one: the structure
matches the instance of the canonical form, and the projection's own arguments match what is left of
the arguments. -/
inductive Reads (cx : Context) (R : Term → Term → Prop) : Term → Term → Prop
  | intro {p h n form xs ys x} : cx.signature.projection? p = some n →
    cx.signature.canonical? p h = some form → n ≠ 0 → xs[n - 1]? = some x →
    ys.length = form.span (xs.drop n).length → R x (form.inst.apply (ys.take form.extra)) →
    List.Forall₂ R (xs.drop n) (ys.drop form.extra) →
    Reads cx R (.mk (.const p) xs) (.mk (.const h) ys)

/-- Two reduced terms match, their parts being related by `R`. -/
inductive Matches (cx : Context) (R : Term → Term → Prop) (a b : Term) : Prop
  | same : a = b → Matches cx R a b
  | tops : Tops R a b → Matches cx R a b
  | left : Reads cx R a b → Matches cx R a b
  | right : Reads cx R b a → Matches cx R a b

section
variable {cx : Context} {R S : Term → Term → Prop} {a b : Term}

theorem Tops.mono (imp : ∀ a b, R a b → S a b) (h : Tops R a b) : Tops S a b := by
  cases h with
  | heads framed => exact .heads (framed.mono imp)
  | spines hxs hys front back => exact .spines hxs hys (imp _ _ front) (back.imp imp)

theorem Tops.symm (symm : ∀ a b, R a b → R b a) (h : Tops R a b) : Tops R b a := by
  cases h with
  | heads framed => exact .heads (framed.flip.mono fun a b => symm b a)
  | spines hxs hys front back =>
    exact .spines hys hxs (symm _ _ front) (back.imp symm).flip

theorem Reads.mono (imp : ∀ a b, R a b → S a b) (h : Reads cx R a b) : Reads cx S a b := by
  cases h with
  | intro hp hc pos hx len front back =>
    exact .intro hp hc pos hx len (imp _ _ front) (back.imp imp)

theorem Matches.mono (imp : ∀ a b, R a b → S a b) (h : Matches cx R a b) : Matches cx S a b := by
  cases h with
  | same h => exact .same h
  | tops h => exact .tops (h.mono imp)
  | left h => exact .left (h.mono imp)
  | right h => exact .right (h.mono imp)

theorem Matches.symm (symm : ∀ a b, R a b → R b a) (h : Matches cx R a b) : Matches cx R b a := by
  cases h with
  | same h => exact .same h.symm
  | tops h => exact .tops (h.symm symm)
  | left h => exact .right h
  | right h => exact .left h

end

/-! ## Comparing the parts -/

section
variable {cx : Context} {s : Store} {again : Store → Term → Term → Attempt Store}
  {R N : Term → Term → Prop}

/-- Where `again` succeeds the terms are related by `R`, and where it fails they are not related by
`N`. -/
def Decides (s : Store) (R N : Term → Term → Prop)
    (again : Store → Term → Term → Attempt Store) : Prop :=
  ∀ a b, Answers s (R a b) (¬ N a b) (again s a b)

theorem pairs_answers (hagain : Decides s R N again) {xs ys : List Term}
    (len : xs.length = ys.length) :
    Answers s (List.Forall₂ R xs ys) (¬ List.Forall₂ N xs ys) (pairs again s xs ys) := by
  induction xs generalizing ys with
  | nil =>
    obtain rfl := List.length_eq_zero_iff.1 len.symm
    exact answers_pure .nil
  | cons x xs ih =>
    cases ys with
    | nil => cases len
    | cons y ys =>
      refine answers_bind (hagain x y) (fun hxy => ?_) fun no all => ?_
      · refine (ih (Nat.succ.inj len)).imp (.cons hxy) fun no all => ?_
        exact no (List.forall₂_cons.1 all).2
      · exact no (List.forall₂_cons.1 all).1

theorem all_answers (hagain : Decides s R N again) (xs ys : List Term) :
    Answers s (List.Forall₂ R xs ys) (¬ List.Forall₂ N xs ys) (all again s xs ys) := by
  unfold all
  split
  · next len => exact pairs_answers hagain len
  · next len => exact answers_failure fun all => len all.length_eq

theorem heads_answers (hagain : Decides s R N again) {f : Head}
    (uncast : ∀ t a, f ≠ .cast t a) (g : Head) :
    Answers s (Head.Framed R f g) (¬ Head.Framed N f g) (heads again s f g) := by
  cases f with
  | rel i =>
    cases g with
    | rel j =>
      refine answers_ite (fun same => answers_pure (same ▸ .rel i)) fun other framed => ?_
      cases framed
      exact other rfl
    | _ => exact answers_failure fun framed => by cases framed
  | sort m =>
    cases g with
    | sort n =>
      refine answers_ite (fun same => answers_pure (same ▸ .sort m)) fun other framed => ?_
      cases framed
      exact other rfl
    | _ => exact answers_failure fun framed => by cases framed
  | const c =>
    cases g with
    | const d =>
      refine answers_ite (fun same => answers_pure (same ▸ .const c)) fun other framed => ?_
      cases framed
      exact other rfl
    | _ => exact answers_failure fun framed => by cases framed
  | hole k xs =>
    cases g with
    | hole l ys =>
      refine answers_ite (fun same => ?_) fun other framed => ?_
      · subst same
        refine (all_answers hagain xs ys).imp .hole fun no framed => ?_
        cases framed with
        | hole hxs => exact no hxs
      · cases framed
        exact other rfl
    | _ => exact answers_failure fun framed => by cases framed
  | pi a b =>
    cases g with
    | pi c d =>
      refine answers_bind (hagain a c) (fun hac => ?_) fun no framed => ?_
      · refine (hagain b d).imp (.pi hac) fun no framed => ?_
        cases framed with
        | pi _ hbd => exact no hbd
      · cases framed with
        | pi hac _ => exact no hac
    | _ => exact answers_failure fun framed => by cases framed
  | lam a b =>
    cases g with
    | lam c d =>
      refine answers_bind (hagain a c) (fun hac => ?_) fun no framed => ?_
      · refine (hagain b d).imp (.lam hac) fun no framed => ?_
        cases framed with
        | lam _ hbd => exact no hbd
      · cases framed with
        | lam hac _ => exact no hac
    | _ => exact answers_failure fun framed => by cases framed
  | letIn v a b =>
    cases g with
    | letIn w c d =>
      refine answers_bind (hagain a c) (fun hac => ?_) fun no framed => ?_
      · refine answers_bind (hagain v w) (fun hvw => ?_) fun no framed => ?_
        · refine (hagain b d).imp (.letIn hvw hac) fun no framed => ?_
          cases framed with
          | letIn _ _ hbd => exact no hbd
        · cases framed with
          | letIn hvw _ _ => exact no hvw
      · cases framed with
        | letIn _ hac _ => exact no hac
    | _ => exact answers_failure fun framed => by cases framed
  | cast t a => exact absurd rfl (uncast t a)
  | case r t bs =>
    cases g with
    | case q u cs =>
      refine answers_bind (hagain r q) (fun hrq => ?_) fun no framed => ?_
      · refine answers_bind (hagain t u) (fun htu => ?_) fun no framed => ?_
        · refine (all_answers hagain bs cs).imp (.case hrq htu) fun no framed => ?_
          cases framed with
          | case _ _ hbs => exact no hbs
        · cases framed with
          | case _ htu _ => exact no htu
      · cases framed with
        | case hrq _ _ => exact no hrq
    | _ => exact answers_failure fun framed => by cases framed
  | fix i as bs =>
    cases g with
    | fix j cs ds =>
      refine answers_ite (fun same => ?_) fun other framed => ?_
      · subst same
        refine answers_bind (all_answers hagain as cs) (fun has => ?_) fun no framed => ?_
        · refine (all_answers hagain bs ds).imp (.fix has) fun no framed => ?_
          cases framed with
          | fix _ hbs => exact no hbs
        · cases framed with
          | fix has _ => exact no has
      · cases framed
        exact other rfl
    | _ => exact answers_failure fun framed => by cases framed

theorem tops_answers (hagain : Decides s R N again) {a : Term}
    (uncast : ∀ t u, a.head ≠ .cast t u) (b : Term) :
    Answers s (Tops R a b) (¬ Tops N a b) (tops again s a b) := by
  obtain ⟨f, xs⟩ := a
  obtain ⟨g, ys⟩ := b
  cases xs with
  | nil =>
    cases ys with
    | nil =>
      refine (heads_answers hagain uncast g).imp .heads fun no tops => ?_
      cases tops with
      | heads framed => exact no framed
      | spines some_arg => exact some_arg rfl
    | cons y ys =>
      refine answers_failure fun tops => ?_
      cases tops with
      | spines some_arg => exact some_arg rfl
  | cons x xs =>
    cases ys with
    | nil =>
      refine answers_failure fun tops => ?_
      cases tops with
      | spines _ some_arg => exact some_arg rfl
    | cons y ys =>
      refine answers_bind (hagain _ _) (fun front => ?_) fun no tops => ?_
      · refine (all_answers hagain _ _).imp
          (.spines (List.cons_ne_nil x xs) (List.cons_ne_nil y ys) front) fun no tops => ?_
        cases tops with
        | spines _ _ _ back => exact no back
      · cases tops with
        | spines _ _ front _ => exact no front

theorem canonical_answers (hagain : Decides s R N again) (a b : Term) :
    Answers s (Reads cx R a b) (¬ Reads cx N a b) (canonical cx again s a b) := by
  unfold canonical
  split
  · next p xs h ys =>
    split
    · next n form hp hc =>
      have params {m : Nat} (hm : cx.signature.projection? p = some m) : m = n :=
        Option.some.inj (hm.symm.trans hp)
      have entry {form' : Canonical} (hf : cx.signature.canonical? p h = some form') :
          form' = form := Option.some.inj (hf.symm.trans hc)
      split
      · next zero =>
        refine answers_failure fun reads => ?_
        cases reads with
        | intro hm _ pos => exact pos ((params hm).trans zero)
      · next pos =>
        split
        · next absent =>
          refine answers_failure fun reads => ?_
          cases reads with
          | intro hm _ _ hx =>
            rw [params hm, absent] at hx
            cases hx
        · next x hx =>
          dsimp only
          split
          · exact fun _ _ _ run => by cases run
          · split
            · next len =>
              refine answers_bind (hagain _ _) (fun front => ?_) fun no reads => ?_
              · refine (all_answers hagain _ _).imp (.intro hp hc pos hx len front)
                  fun no reads => ?_
                cases reads with
                | intro hm hf _ _ _ _ back =>
                  rw [params hm, entry hf] at back
                  exact no back
              · cases reads with
                | intro hm hf _ hx' _ front =>
                  rw [params hm, hx] at hx'
                  rw [entry hf, ← Option.some.inj hx'] at front
                  exact no front
            · next len =>
              refine answers_failure fun reads => ?_
              cases reads with
              | intro hm hf _ _ len' =>
                rw [params hm, entry hf] at len'
                exact len len'
    · next unknown =>
      refine answers_failure fun reads => ?_
      cases reads with
      | intro hm hf => exact unknown _ _ hm hf
  · next other =>
    refine answers_failure fun reads => ?_
    cases reads with
    | intro => exact other _ _ _ _ rfl rfl

/-! ## Comparing two terms -/

/-- No hole can be assigned. -/
abbrev Frozen (s : Store) : Prop :=
  ∀ k, s.isAssignable k = false

theorem assignable?_of_frozen (frozen : Frozen s) (a : Term) : s.assignable? a = none := by
  unfold Store.assignable?
  split
  · simp [frozen]
  · rfl

theorem isFlexible_of_frozen (frozen : Frozen s) (a : Term) : s.isFlexible a = false := by
  cases h : a.headHole? with
  | none => simp [Store.isFlexible, h]
  | some k => simp [Store.isFlexible, h, frozen]

theorem unfold_of_no_definitions (bare : cx.signature.definitions = []) (a b : Term) :
    unfold cx again s a b = failure := by
  have none' (t : Term) : unfoldHead? cx.signature t = none := by
    unfold unfoldHead?
    split
    · simp [Signature.definition?, bare]
    · rfl
  unfold Unify.unfold
  simp only [none', ite_self]
  rfl

/-- How a comparison that succeeds has come about. -/
inductive Explained (cx : Context) (s : Store) (R : Term → Term → Prop) (a b : Term) : Prop
  | same : a = b → Explained cx s R a b
  | reduced {a' b'} : whnf? cx s a .noDelta = some a' → whnf? cx s b .noDelta = some b' →
    Matches cx R a' b' → Explained cx s R a b

/-- The terms match, whatever they reduce to. -/
def Demanded (cx : Context) (s : Store) (N : Term → Term → Prop) (a b : Term) : Prop :=
  a = b ∨ ∀ a' b', whnf? cx s a .noDelta = some a' → whnf? cx s b .noDelta = some b' →
    Matches cx N a' b'

theorem step_answers (bare : cx.signature.definitions = []) (frozen : Frozen s)
    (hagain : Decides s R N again) :
    Decides s (Explained cx s R) (Demanded cx s N) (step cx .conversion again) := by
  intro a b
  unfold step
  split
  · next same => exact answers_pure (.same same)
  · next differ =>
    refine answers_ofAnswer_bind fun a' ha => answers_ofAnswer_bind fun b' hb => ?_
    have uncast {t t' : Term} (h : whnf? cx s t .noDelta = some t') (u v : Term) :
        t'.head ≠ .cast u v := by
      intro cast
      have stuck := (headNormal_of_whnf? h).head
      rw [cast] at stuck
      cases stuck
    have demanded (h : Demanded cx s N a b) : Matches cx N a' b' :=
      (h.resolve_left differ) a' b' ha hb
    refine Answers.imp (p := Matches cx R a' b') (q := ¬ Matches cx N a' b') ?_
      (.reduced ha hb) fun no h => no (demanded h)
    split
    · next same => exact answers_pure (.same same)
    · next differ' =>
      rw [assignable?_of_frozen frozen, assignable?_of_frozen frozen, isFlexible_of_frozen frozen,
        isFlexible_of_frozen frozen, unfold_of_no_definitions bare]
      refine answers_orElse (tops_answers hagain (uncast ha) b') .tops fun noTops => ?_
      refine answers_orElse (canonical_answers hagain a' b') .left fun noLeft => ?_
      refine answers_orElse (canonical_answers hagain b' a') .right fun noRight => ?_
      refine answers_orElse (p := False) (q := True) ?_ False.elim fun _ => ?_
      · simp only [ite_self]
        exact answers_failure trivial
      · refine answers_failure fun h => ?_
        cases h with
        | same same => exact differ' same
        | tops h => exact noTops h
        | left h => exact noLeft h
        | right h => exact noRight h

/-! ## What an answer says -/

/-- A relation on terms such that what is related matches, as far as it has a reduced form. -/
structure Consistent (cx : Context) (s : Store) (R : Term → Term → Prop) : Prop where
  symm : ∀ a b, R a b → R b a
  demanded : ∀ a b, R a b → Demanded cx s R a b

/-- Two terms coincide if they are related in a way that explains itself: whatever is related is
the same, or has reduced forms that match, their parts being related again. -/
def Coincide (cx : Context) (s : Store) (a b : Term) : Prop :=
  ∃ R : Term → Term → Prop, (∀ a b, R a b → R b a) ∧ (∀ a b, R a b → Explained cx s R a b) ∧ R a b

theorem Explained.mono {S : Term → Term → Prop} {a b : Term} (imp : ∀ a b, R a b → S a b)
    (h : Explained cx s R a b) : Explained cx s S a b := by
  cases h with
  | same same => exact .same same
  | reduced ha hb h => exact .reduced ha hb (h.mono imp)

theorem Coincide.refl (a : Term) : Coincide cx s a a :=
  ⟨Eq, fun _ _ => Eq.symm, fun _ _ => .same, rfl⟩

theorem Coincide.symm {a b : Term} (h : Coincide cx s a b) : Coincide cx s b a := by
  obtain ⟨R, symm, explained, hab⟩ := h
  exact ⟨R, symm, explained, symm a b hab⟩

theorem Coincide.explained {a b : Term} (h : Coincide cx s a b) :
    Explained cx s (Coincide cx s) a b := by
  obtain ⟨R, symm, explained, hab⟩ := h
  exact (explained a b hab).mono fun c d hcd => ⟨R, symm, explained, hcd⟩

theorem Coincide.of_explained {a b : Term} (h : Explained cx s (Coincide cx s) a b) :
    Coincide cx s a b := by
  refine ⟨Explained cx s (Coincide cx s), fun c d hcd => ?_, fun c d hcd => ?_, h⟩
  · cases hcd with
    | same same => exact .same same.symm
    | reduced hc hd hcd => exact .reduced hd hc (hcd.symm fun _ _ => Coincide.symm)
  · exact hcd.mono fun _ _ => Coincide.explained

theorem demanded_of_explained {a b : Term} (h : Explained cx s R a b) : Demanded cx s R a b := by
  cases h with
  | same same => exact .inl same
  | reduced ha hb h =>
    refine .inr fun a' b' ha' hb' => ?_
    obtain rfl := Option.some.inj (ha.symm.trans ha')
    obtain rfl := Option.some.inj (hb.symm.trans hb')
    exact h

theorem consistent_coincide : Consistent cx s (Coincide cx s) :=
  ⟨fun _ _ => Coincide.symm, fun _ _ h => demanded_of_explained h.explained⟩

/-- Unification that succeeds has come upon terms that coincide, and it does not fail on terms that
are consistently related. -/
theorem within_answers (bare : cx.signature.definitions = []) (frozen : Frozen s)
    (consistent : Consistent cx s N) (n : Nat) :
    Decides s (Coincide cx s) N (within cx .conversion n) := by
  induction n with
  | zero => exact fun _ _ _ _ _ run => by cases run
  | succ n ih =>
    intro a b
    exact (step_answers bare frozen ih a b).imp Coincide.of_explained fun no h =>
      no (consistent.demanded a b h)

end

end Unify

section
variable {cx : Context} {s : Store} {a b : Term}

open Unify

theorem Store.frozen_freeze_checkpoint (s : Store) : Frozen (s.freeze s.checkpoint) := by
  intro k
  by_contra assignable
  have assignable : (s.freeze s.checkpoint).isAssignable k = true := by simpa using assignable
  obtain ⟨d, hd, _⟩ := Store.hole?_some_of_isAssignable assignable
  have inside := Store.lt_of_hole? hd
  have outside := Store.not_frozen_of_isAssignable assignable
  simp only [Scope.contains, decide_eq_false_iff_not] at outside
  exact outside inside

/-- Conversion answers yes on whatever is consistently related. -/
theorem convertible?_of_consistent (bare : cx.signature.definitions = [])
    {R : Term → Term → Prop} (consistent : Consistent cx (s.freeze s.checkpoint) R) (h : R a b)
    {r : Bool} (answer : convertible? cx s a b = some r) : r = true := by
  simp only [convertible?, unify?, run, Option.map_map, Option.map_eq_some_iff,
    Prod.exists] at answer
  obtain ⟨o, n, run, rfl⟩ := answer
  rcases within_answers bare s.frozen_freeze_checkpoint consistent cx.depth a b _ _ _ run with
    ⟨rfl, _⟩ | ⟨rfl, no⟩
  · rfl
  · exact absurd h no

/-- Conversion answers yes only where the terms coincide. -/
theorem coincide_of_convertible? (bare : cx.signature.definitions = [])
    (answer : convertible? cx s a b = some true) : Coincide cx (s.freeze s.checkpoint) a b := by
  simp only [convertible?, unify?, run, Option.map_map, Option.map_eq_some_iff,
    Prod.exists] at answer
  obtain ⟨o, n, run, success⟩ := answer
  rcases within_answers bare s.frozen_freeze_checkpoint consistent_coincide cx.depth a b _ _ _ run
    with ⟨_, yes⟩ | ⟨rfl, _⟩
  · exact yes
  · cases success

end

end KeyedMatching
