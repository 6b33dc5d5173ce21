import KeyedMatching.Proofs.Holes.Total
import KeyedMatching.Proofs.Matching.Located
import KeyedMatching.Proofs.Unification.Calls

/-!
# Handing values over from placeholders to holes

The comparison without unfolding keeps the values of the placeholders from mentioning the
placeholders themselves. The holes that they stand for are no concern of it, and handing the values
over does not ask either.

* `Unify.secluded_of_unify?`: holes that come down to one another only stay so, if both sides of a
  first-order problem are over them;
* `wellFormed_of_handOver`: so the store stays well-formed when the holes handed over are not
  reached from the terms compared;
* `circular_handOver`: when one of them is, the values may run in a circle.
-/

namespace KeyedMatching

namespace Store

/-- The holes of `B` come down to holes of `B` only. -/
def Secluded (B : Nat → Nat → Prop) (s : Store) : Prop :=
  ∀ k n v, B k n → s.value? k = some v → v.Over B

section
variable {B : Nat → Nat → Prop} {s s' : Store} {k : Nat} {v : Term}

theorem secluded_of_assign? (secluded : s.Secluded B) (isOver : v.Over B)
    (h : s.assign? k v = some s') : s'.Secluded B := by
  intro l n w hl hw
  rw [value?_assign? h] at hw
  split at hw
  · obtain rfl := Option.some.inj hw
    exact isOver
  · exact secluded l n w hl hw

/-- What a hole of `B` depends on is one of `B`. -/
theorem Secluded.dependsOn (secluded : s.Secluded B) {a b n : Nat} (ha : B a n)
    (h : s.DependsOn a b) : ∃ m, B b m := by
  obtain ⟨w, hw, hb⟩ := h
  have inside : w.Over fun l _ => ∃ m, B l m := (secluded a n w ha hw).mono fun l m hl => ⟨m, hl⟩
  exact Term.over_holes.1 inside b hb

/-- Handing a value over to a hole outside `B` leaves the paths from holes of `B` as they are. -/
theorem path_of_assign? (secluded : s.Secluded B) (outside : ∀ n, ¬ B k n)
    (h : s.assign? k v = some s') {a b n : Nat} (ha : B a n)
    (path : Relation.TransGen s'.DependsOn a b) :
    Relation.TransGen s.DependsOn a b ∧ ∃ m, B b m := by
  have step {c l m : Nat} (hc : B c m) (hl : s'.DependsOn c l) : s.DependsOn c l := by
    obtain ⟨w, hw, hl⟩ := hl
    rw [value?_assign? h, if_neg] at hw
    · exact ⟨w, hw, hl⟩
    · rintro rfl
      exact outside m hc
  induction path with
  | single hb => exact ⟨.single (step ha hb), secluded.dependsOn ha (step ha hb)⟩
  | tail _ hb ih =>
    obtain ⟨before, m, hm⟩ := ih
    exact ⟨before.tail (step hm hb), secluded.dependsOn hm (step hm hb)⟩

/-- A value over secluded holes closes no circle at a hole that is not one of them. -/
theorem acyclic_of_secluded (acyclic : s.Acyclic) (secluded : s.Secluded B)
    (outside : ∀ n, ¬ B k n) (isOver : v.Over B) (h : s.assign? k v = some s') : s'.Acyclic := by
  have secluded' := secluded_of_assign? secluded isOver h
  -- A path stays in the old store, or comes through the new value to holes of `B`.
  have path : ∀ a b, Relation.TransGen s'.DependsOn a b →
      Relation.TransGen s.DependsOn a b ∨ ∃ m, B b m := by
    have step (c l : Nat) (hl : s'.DependsOn c l) : s.DependsOn c l ∨ ∃ m, B l m := by
      obtain ⟨w, hw, hl⟩ := hl
      rw [value?_assign? h] at hw
      split at hw
      · obtain rfl := Option.some.inj hw
        have inside : v.Over fun l _ => ∃ m, B l m := isOver.mono fun l m hl => ⟨m, hl⟩
        exact .inr (Term.over_holes.1 inside l hl)
      · exact .inl ⟨w, hw, hl⟩
    intro a b hab
    induction hab with
    | single hb => exact (step _ _ hb).imp_left .single
    | tail _ hb ih =>
      rcases ih with before | ⟨m, hm⟩
      · exact (step _ _ hb).imp_left before.tail
      · exact .inr (secluded'.dependsOn hm hb)
  intro a loop
  rcases path a a loop with old | ⟨m, hm⟩
  · exact acyclic a old
  · exact acyclic a (path_of_assign? secluded outside h hm loop).1

end

end Store

/-! ## Secluded holes in a first-order problem -/

namespace Unify

open Store

section
variable {cx : Context} {B : Nat → Nat → Prop} {s s' : Store}

/-- If the holes of `B` come down to one another only, and `p` and `q`, that the two sides are over
them, they still do. -/
def Secludes (B : Nat → Nat → Prop) (s : Store) (p q : Prop) (s' : Store) : Prop :=
  s.Secluded B → p → q → s'.Secluded B

theorem Secludes.trans {s₁ : Store} {p q p₁ q₁ p₂ q₂ : Prop} (h : Secludes B s p₁ q₁ s₁)
    (h' : Secludes B s₁ p₂ q₂ s') (hp : p → p₁ ∧ p₂) (hq : q → q₁ ∧ q₂) : Secludes B s p q s' :=
  fun secluded left right =>
    h' (h secluded (hp left).1 (hq right).1) (hp left).2 (hq right).2

theorem Along.secludes {xs ys : List Term}
    (h : Along (fun s a b s' => Secludes B s (a.Over B) (b.Over B) s') s xs ys s') :
    Secludes B s (∀ x ∈ xs, x.Over B) (∀ y ∈ ys, y.Over B) s' := by
  induction h with
  | nil s => exact fun secluded _ _ => secluded
  | cons hxy _ ih => exact hxy.trans ih List.forall_mem_cons.1 List.forall_mem_cons.1

theorem rules_secludes (forms : ∀ p h form, cx.signature.canonical? p h = some form →
    form.inst.Over B) :
    Rules cx .firstOrder fun s a b s' => Secludes B s (a.Over B) (b.Over B) s' where
  refl s a := fun secluded _ _ => secluded
  symm h := fun secluded ha hb => h secluded hb ha
  reduce ha' h := fun secluded ha hb =>
    h secluded (Theory.over_of_whnf? (fun off => by cases off) secluded ha ha') hb
  instantiate hb' h := fun secluded ha hb =>
    h secluded ha (over_of_instantiate? secluded hb hb')
  assign ht _ hv h := fun secluded _ hb =>
    secluded_of_assign? secluded
      (Term.over_abstractRels? (over_of_instantiate? secluded hb ht) hv) h
  postpone on := by cases on
  hole h := fun secluded ha hb =>
    h.secludes secluded (Term.over_hole.1 ha).2 (Term.over_hole.1 hb).2
  pi h h' := h.trans h' Term.over_pi.1 Term.over_pi.1
  lam h h' := h.trans h' Term.over_lam.1 Term.over_lam.1
  letIn h h' h'' :=
    h.trans (h'.trans h'' id id) Term.over_letIn.1 Term.over_letIn.1
  case h h' h'' :=
    h.trans (h'.trans h''.secludes id id) Term.over_case.1 Term.over_case.1
  fix h h' := h.secludes.trans h'.secludes Term.over_fix.1 Term.over_fix.1
  spine h h' := h.trans h'.secludes Term.over_apply.1 Term.over_apply.1
  canonical := by
    intro s p c n form ps x es xs ys s₁ s' _ hc _ _ h h'
    refine h.trans h'.secludes (fun hx => ?_) fun hy => ?_
    · have args := (Term.over_mk.1 hx).2
      rw [List.forall_mem_append, List.forall_mem_cons] at args
      exact args.2
    · have args := (Term.over_mk.1 hy).2
      rw [List.forall_mem_append] at args
      exact ⟨Term.over_apply.2 ⟨forms p c form hc, args.1⟩, args.2⟩
  unfold on := absurd rfl on

/-- Unifying two terms over secluded holes without unfolding leaves these secluded. -/
theorem secluded_of_unify? (forms : ∀ p h form, cx.signature.canonical? p h = some form →
    form.inst.Over B) (secluded : s.Secluded B) {a b : Term} (ha : a.Over B) (hb : b.Over B)
    (h : unify? cx .firstOrder s a b = some (some s')) : s'.Secluded B :=
  (rules_secludes forms).of_unify? h secluded ha hb

end

end Unify

/-! ## Handing over -/

section
variable {B : Nat → Nat → Prop} {s s' base : Store}

/-- Each placeholder has the arity of its hole, and belongs to `B`; the hole does not. -/
def Apart (B : Nat → Nat → Prop) (s : Store) (ps : List (Nat × Nat)) : Prop :=
  ∀ p k, (p, k) ∈ ps → (∃ n, B p n ∧ s.Declares p n ∧ s.Declares k n) ∧ ∀ n, ¬ B k n

theorem declares_of_assign? {k : Nat} {v : Term} (h : s.assign? k v = some s') :
    s'.Declares = s.Declares := by
  obtain rfl := Store.eq_of_assign? h
  funext l n
  exact propext (Store.declares_setValue l n)

/-- One value is handed over. -/
theorem handedOver_of_assign? {p k n : Nat} {v : Term} (wf : s.WellFormed) (secluded : s.Secluded B)
    (own : B p n) (placeholder : s.Declares p n) (hole : s.Declares k n) (outside : ∀ n, ¬ B k n)
    (hv : s.value? p = some v) (h : s.assign? k v = some s') :
    s'.WellFormed ∧ s'.Secluded B := by
  have isOver := secluded p n v own hv
  refine ⟨.of_declares (Store.acyclic_of_secluded wf.acyclic secluded outside isOver h) ?_ ?_,
    Store.secluded_of_assign? secluded isOver h⟩
  · rw [declares_of_assign? h]
    exact Store.closed_of_assign? wf.closed (wf.values p v hv) h
  · rw [declares_of_assign? h]
    exact Store.bounded_of_assign? (fun _ _ _ hm hn => hm.unique hn) wf.bounded hole
      (wf.bounded p n v placeholder hv) h

theorem wellFormed_of_apart {ps : List (Nat × Nat)} (wf : s.WellFormed) (secluded : s.Secluded B)
    (apart : Apart B s ps) (h : handOver? s ps = some s') : s'.WellFormed := by
  have kept : s'.WellFormed ∧ s'.Secluded B ∧ s'.Declares = s.Declares := by
    refine handOver?_induction
      (R := fun s₁ => s₁.WellFormed ∧ s₁.Secluded B ∧ s₁.Declares = s.Declares)
      ⟨wf, secluded, rfl⟩ (fun p k hp s₁ s₂ v kept hv assigned => ?_) h
    obtain ⟨wf₁, secluded₁, same⟩ := kept
    obtain ⟨⟨n, own, placeholder, hole⟩, outside⟩ := apart p k hp
    rw [← same] at placeholder hole
    obtain ⟨wf₂, secluded₂⟩ :=
      handedOver_of_assign? wf₁ secluded₁ own placeholder hole outside hv assigned
    exact ⟨wf₂, secluded₂, (declares_of_assign? assigned).trans same⟩
  exact kept.1

/-- None of the holes is reached from the term, through however many values. -/
def Store.Avoids (s : Store) (ks : List Nat) (t : Term) : Prop :=
  ∀ l ∈ t.holes, ∀ k ∈ ks, ¬ Relation.ReflTransGen s.DependsOn l k

/-- The declared holes that come down to none of `ks`. -/
def Store.Clear (s : Store) (ks : List Nat) (l n : Nat) : Prop :=
  s.Declares l n ∧ ∀ k ∈ ks, ¬ Relation.ReflTransGen s.DependsOn l k

theorem Store.Avoids.over_clear {ks : List Nat} {t : Term} (h : s.Avoids ks t)
    (declared : t.Over s.Declares) : t.Over (s.Clear ks) :=
  declared.and_holes h

theorem Store.secluded_clear (wf : s.WellFormed) (ks : List Nat) : s.Secluded (s.Clear ks) := by
  rintro l n v ⟨_, clear⟩ hv
  exact (wf.values l v hv).and_holes fun m hm k hk reach => clear k hk (.head ⟨v, hv, hm⟩ reach)

theorem Store.Extends.wellFormed (wf : s.WellFormed) (h : s.Extends s') : s'.WellFormed := by
  have declares : ∀ k n, s.Declares k n → s'.Declares k n := fun _ _ => h.declares
  refine ⟨wf.acyclic.of_keeps fun k v hv => (h.value? k).symm.trans hv, fun k d v hd hv => ?_,
    fun k v hv => (wf.values k v ((h.value? k).symm.trans hv)).mono declares, fun e he => ?_⟩
  · by_cases old : k < s.slots.length
    · exact wf.arity k d v ((h.old k old).symm.trans hd) hv
    · rw [(h.new k d (Nat.not_lt.1 old) hd).1] at hv
      cases hv
  · rw [h.pending] at he
    exact (wf.pending e he).imp (Term.Over.mono · declares) (Term.Over.mono · declares)

/-- The holes that a value may be handed over to. -/
def Pattern.ownHoles (p : Pattern) : List Nat :=
  p.placeholders.map fun (_, hole) => hole

/-- The placeholders of a pattern made ready are apart from its own holes. -/
theorem apart_of_ready {cx : Context} {scope : Scope} {c : Candidate} {p : Pattern}
    (ready : Pattern.Ready cx scope s s' c p)
    (renamed : Pattern.Renamed s.Declares s ⟨s', p.placeholders⟩) (later : s'.Extends base) :
    Apart (base.Clear p.ownHoles) base p.placeholders := by
  intro q k hq
  obtain ⟨past, d, hd, hole⟩ := renamed.arity q k hq
  have unset : base.value? q = none := by
    rw [later.value?, Store.value?, hd]
    exact (ready.grown.new q d past hd).1
  have placeholder : base.Declares q d.arity := later.declares ⟨d, hd, rfl⟩
  refine ⟨⟨d.arity, ⟨placeholder, fun l hl reach => ?_⟩, placeholder,
    later.declares (ready.grown.declares hole)⟩, fun n clear => ?_⟩
  · -- A placeholder has no value, and is not one of the holes.
    obtain ⟨⟨q', l'⟩, hq', rfl⟩ := List.mem_map.1 hl
    rcases Relation.ReflTransGen.cases_head reach with rfl | ⟨m, ⟨v, hv, _⟩, _⟩
    · obtain ⟨_, e, _, ⟨e', he', _⟩⟩ := renamed.arity q' q hq'
      have := Store.lt_of_hole? he'
      omega
    · rw [unset] at hv
      cases hv
  · exact clear.2 k (List.mem_map.2 ⟨(q, k), hq, rfl⟩) .refl

/-- After the values of the placeholders were handed over to their holes the store is well-formed,
so that no hole comes down to itself and values can be put into every term. For that no hole that a
value may be handed to is to be reached from the two terms that were compared, nor from the
instances of canonical forms. -/
theorem wellFormed_of_handOver (cx : Context) (scope : Scope) (c : Candidate) (p : Pattern)
    (s s' base s₁ s₂ : Store) (sub : Term) (wf : s.WellFormed)
    (isOver : cx.signature.Over s.Declares) (pattern : c.pattern.Over s.Declares)
    (compiled : Pattern.compile? cx s scope c = some (.ok (p, s'))) (later : s'.Extends base)
    (candidate : sub.Over base.Declares)
    (avoid : base.Avoids p.ownHoles p.firstOrder ∧
      base.Avoids p.ownHoles sub ∧
      ∀ q h form, cx.signature.canonical? q h = some form →
        base.Avoids p.ownHoles form.inst)
    (unified : unify? cx .firstOrder base p.firstOrder sub = some (some s₁))
    (handed : handOver? s₁ p.placeholders = some s₂) :
    s₂.Acyclic ∧ s₂.WellFormed ∧ ∀ t, ∃ t', s₂.instantiate? t = some t' := by
  have ready := Pattern.ready_of_compile? compiled
  have grown : s.Extends base := ready.grown.trans later
  have wfBase := grown.wellFormed wf
  have term := Theory.over_of_whnf? (fun off => by cases off) wf.closed.values pattern ready.term
  obtain ⟨firstOrder, renamed⟩ := ready.firstOrder s.Declares (fun _ _ => id) term
  have firstOrder : p.firstOrder.Over base.Declares := firstOrder.mono fun _ _ => later.declares
  have signature : cx.signature.Over base.Declares := isOver.mono fun _ _ => grown.declares
  obtain ⟨avoidPattern, avoidSub, avoidForms⟩ := avoid
  have advances :=
    (Unify.leads_of_unify? signature wfBase.closed firstOrder candidate unified).carries
  have secluded := Unify.secluded_of_unify?
    (fun q h form hf => (avoidForms q h form hf).over_clear (signature.canonicals q h form hf))
    (Store.secluded_clear wfBase p.ownHoles) (avoidPattern.over_clear firstOrder)
    (avoidSub.over_clear candidate) unified
  have apart : Apart (base.Clear p.ownHoles) s₁ p.placeholders := by
    intro q k hq
    obtain ⟨⟨n, own, placeholder, hole⟩, outside⟩ := apart_of_ready ready renamed later q k hq
    exact ⟨⟨n, own, advances.advances.declares_iff.2 placeholder,
      advances.advances.declares_iff.2 hole⟩, outside⟩
  have wf₂ := wellFormed_of_apart (wfBase.of_carries advances) secluded apart handed
  exact ⟨wf₂.acyclic, wf₂, Store.exists_instantiate? wf₂.acyclic⟩

/-- The pattern `f ?0` is compared with `f a`; the value that the placeholder gets is handed over to
hole `0`. -/
theorem wellFormed_of_handOver_application :
    let cx : Context := { limit := 5 }
    let s := (Store.empty.fresh 0 none .ordinary).2
    let f (x : Term) : Term := .mk (.const "f") [x]
    let base := (s.fresh 0 none .placeholder).2
    let s₁ : Store := { base.setValue 1 (.const "a") with version := 1 }
    let s₂ : Store := { s₁.setValue 0 (.const "a") with version := 2 }
    unify? cx .firstOrder base (f (.hole 1 [])) (f (.const "a")) = some (some s₁) ∧
      handOver? s₁ [(1, 0)] = some s₂ ∧ s₂.WellFormed := by
  intro cx s f base s₁ s₂
  let c : Candidate := ⟨f (.hole 0 []), f (.hole 0 []), .any⟩
  let p : Pattern := ⟨c, f (.hole 0 []), .fixed, f (.hole 1 []), [(1, 0)]⟩
  have compiled : Pattern.compile? cx s ⟨0⟩ c = some (.ok (p, base)) := rfl
  have unified : unify? cx .firstOrder base p.firstOrder (f (.const "a")) = some (some s₁) := by
    decide +kernel
  have handed : handOver? s₁ p.placeholders = some s₂ := by decide +kernel
  have wf : s.WellFormed := .of_unassigned (by rintro (_ | k) <;> rfl) rfl
  have pattern : c.pattern.Over s.Declares :=
    Term.over_mk_const.2 (List.forall_mem_singleton.2 (Term.over_hole.2 ⟨⟨_, rfl, rfl⟩, by simp⟩))
  have avoidPattern : base.Avoids p.ownHoles p.firstOrder := by
    intro l hl k hk reach
    obtain rfl : l = 1 := List.mem_singleton.1 hl
    obtain rfl : k = 0 := List.mem_singleton.1 hk
    rcases Relation.ReflTransGen.cases_head reach with same | ⟨m, ⟨v, hv, _⟩, _⟩
    · cases same
    · cases hv
  have avoidSub : base.Avoids p.ownHoles (f (.const "a")) := fun l hl => by cases hl
  obtain ⟨_, wf₂, _⟩ := wellFormed_of_handOver cx ⟨0⟩ c p s base base s₁ s₂ (f (.const "a")) wf
    (Signature.over_empty _) pattern compiled (.refl base) (by simp [f])
    ⟨avoidPattern, avoidSub, fun q h form hf => by cases hf⟩ unified handed
  exact ⟨unified, handed, wf₂⟩

/-- The pattern `f ?0` is compared with `f (g ?0)`, in which hole `0` is the pattern's own. The
placeholder takes the value `g ?0`, and handed over to hole `0` that makes a circle: no value can be
put for the hole any more. -/
theorem circular_handOver :
    let cx : Context := { limit := 5 }
    let s := (Store.empty.fresh 0 none .ordinary).2
    let f (x : Term) : Term := .mk (.const "f") [x]
    let g (x : Term) : Term := .mk (.const "g") [x]
    let sub : Term := f (g (.hole 0 []))
    ∃ p base s₁ s₂,
      s.WellFormed ∧ cx.signature.Over s.Declares ∧ sub.Over s.Declares ∧
      Pattern.compile? cx s ⟨0⟩ ⟨f (.hole 0 []), f (.hole 0 []), .any⟩ = some (.ok (p, base)) ∧
      unify? cx .firstOrder base p.firstOrder sub = some (some s₁) ∧
      handOver? s₁ p.placeholders = some s₂ ∧
      ¬ s₂.Acyclic ∧ s₂.instantiate? (.hole 0 []) = none := by
  intro cx s f g sub
  let c : Candidate := ⟨f (.hole 0 []), f (.hole 0 []), .any⟩
  let base := (s.fresh 0 none .placeholder).2
  let value := g (.hole 0 [])
  let s₁ : Store := { base.setValue 1 value with version := 1 }
  let s₂ : Store := { s₁.setValue 0 value with version := 2 }
  have hole : (Term.hole 0 []).Over s.Declares := Term.over_hole.2 ⟨⟨_, rfl, rfl⟩, by simp⟩
  have circle : s₂.DependsOn 0 0 := ⟨value, rfl, by decide⟩
  refine ⟨⟨c, f (.hole 0 []), .fixed, f (.hole 1 []), [(1, 0)]⟩, base, s₁, s₂,
    .of_unassigned (by rintro (_ | k) <;> rfl) rfl, Signature.over_empty _,
    by simpa [sub, f, g] using hole, rfl, by decide +kernel, by decide +kernel,
    fun acyclic => acyclic 0 (.single circle), by decide +kernel⟩

end

end KeyedMatching
