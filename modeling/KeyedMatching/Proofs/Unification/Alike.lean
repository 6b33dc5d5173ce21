import KeyedMatching.Proofs.HeadSteps
import KeyedMatching.Proofs.Unification.Conversion

/-!
# What conversion decides

A comparison without assignments may come to no answer, and what it explores depends on the order of
its questions. What it decides does not: two terms are `Alike` if either can follow the other in
being reduced at the head, and what comes of them agrees part by part. No limit is in this.

* `HeadRun`: so many reductions at the head, each of which is the only one possible;
* `Attains`: a run that ends in a head normal form;
* `Unify.Agree`: reduced terms of one construction, or one read as the other by a canonical form;
* `Unify.Alike.coind`, `Unify.Alike.dest`: the greatest relation by which reduced terms agree;
* `convertible?_iff_alike`: an answer says whether the terms are alike.
-/

namespace KeyedMatching

/-! ## Runs -/

/-- So many reductions at the head, unfolding aside. -/
inductive HeadRun (g : Signature) (s : Store) : Nat → Term → Term → Prop
  | refl (t : Term) : HeadRun g s 0 t t
  | head {n : Nat} {t u v : Term} : HeadStep g s .noDelta 0 t u → HeadRun g s n u v →
    HeadRun g s (n + 1) t v

/-- The first term is reduced at the head to the second, to the head of which nothing applies. -/
structure Attains (g : Signature) (s : Store) (t u : Term) : Prop where
  run : ∃ n, HeadRun g s n t u
  normal : u.HeadNormal s

section
variable {g : Signature} {s : Store} {m n : Nat} {t u v : Term}

/-- Only one reduction is possible at the head of a term. -/
theorem HeadStep.unique (h : HeadStep g s .noDelta m t u) (h' : HeadStep g s .noDelta n t v) :
    u = v := by
  cases h with
  | uncast => cases h'; rfl
  | zeta => cases h'; rfl
  | value _ inst xs assigned =>
    cases h' with
    | value _ _ _ assigned' =>
      obtain rfl := Option.some.inj (assigned.symm.trans assigned')
      rfl
  | beta => cases h'; rfl
  | delta on => cases on

theorem HeadStep.not_headNormal (h : HeadStep g s .noDelta m t u) : ¬ t.HeadNormal s := by
  intro normal
  cases h with
  | uncast => cases normal.head
  | zeta => cases normal.head
  | value _ inst xs assigned =>
    have unset := normal.head
    simp [Term.head, Head.isStuck, assigned] at unset
  | beta _ a b x xs => cases normal.unapplied (List.cons_ne_nil x xs)
  | delta on => cases on

/-- A term is a head normal form, or something applies to its head. -/
theorem Term.headNormal_or_step (g : Signature) (s : Store) (t : Term) :
    t.HeadNormal s ∨ ∃ u, HeadStep g s .noDelta 0 t u := by
  obtain ⟨h, xs⟩ := t
  have stuck (own : h.isStuck s = true) (notLam : (Term.ofHead h).isLam = false) :
      (Term.mk h xs).HeadNormal s := ⟨own, fun _ => notLam⟩
  cases h with
  | cast t a => exact .inr ⟨_, .uncast t a xs⟩
  | letIn v a b => exact .inr ⟨_, .zeta rfl v a b xs⟩
  | hole k inst =>
    cases hv : s.value? k with
    | some v => exact .inr ⟨_, .value rfl inst xs hv⟩
    | none => exact .inl (stuck (by simp [Head.isStuck, hv]) rfl)
  | lam a b =>
    cases xs with
    | nil => exact .inl ⟨rfl, fun applied => absurd rfl applied⟩
    | cons x xs => exact .inr ⟨_, .beta rfl a b x xs⟩
  | _ => exact .inl (stuck rfl rfl)

theorem HeadRun.trans (h : HeadRun g s m t u) (h' : HeadRun g s n u v) :
    HeadRun g s (m + n) t v := by
  induction h with
  | refl t =>
    rw [Nat.zero_add]
    exact h'
  | head first _ ih =>
    rw [Nat.add_right_comm]
    exact .head first (ih h')

theorem HeadRun.apply (h : HeadRun g s n t u) (ys : List Term) :
    HeadRun g s n (t.apply ys) (u.apply ys) := by
  induction h with
  | refl t => exact .refl _
  | head first _ ih => exact .head (first.apply ys) ih

theorem HeadRun.eq_of_headNormal (h : HeadRun g s n t u) (normal : t.HeadNormal s) : u = t := by
  cases h with
  | refl => rfl
  | head first _ => exact absurd normal first.not_headNormal

/-- What a term is reduced to is one. -/
theorem HeadRun.unique (h : HeadRun g s m t u) (normal : u.HeadNormal s)
    (h' : HeadRun g s n t v) (normal' : v.HeadNormal s) : u = v := by
  induction h generalizing n with
  | refl t => exact (h'.eq_of_headNormal normal).symm
  | head first rest ih =>
    cases h' with
    | refl => exact absurd normal' first.not_headNormal
    | head first' rest' =>
      obtain rfl := first.unique first'
      exact ih normal rest'

theorem headRun_of_headSteps (h : HeadSteps g s .noDelta m t u) : ∃ n, HeadRun g s n t u := by
  induction h with
  | refl t => exact ⟨0, .refl t⟩
  | head first _ ih =>
    obtain ⟨n, rest⟩ := ih
    cases first with
    | uncast t a xs => exact ⟨_, .head (.uncast t a xs) rest⟩
    | zeta on v a b xs => exact ⟨_, .head (.zeta on v a b xs) rest⟩
    | value on inst xs assigned => exact ⟨_, .head (.value on inst xs assigned) rest⟩
    | beta on a b x xs => exact ⟨_, .head (.beta on a b x xs) rest⟩
    | delta on => cases on

theorem Term.HeadNormal.attains (normal : t.HeadNormal s) : Attains g s t t :=
  ⟨⟨0, .refl t⟩, normal⟩

theorem Attains.unique (h : Attains g s t u) (h' : Attains g s t v) : u = v := by
  obtain ⟨⟨m, run⟩, normal⟩ := h
  obtain ⟨⟨n, run'⟩, normal'⟩ := h'
  exact run.unique normal run' normal'

theorem HeadRun.attains (h : HeadRun g s n t u) (h' : Attains g s u v) : Attains g s t v := by
  obtain ⟨⟨m, run⟩, normal⟩ := h'
  exact ⟨⟨n + m, h.trans run⟩, normal⟩

theorem attains_of_whnf? {cx : Context} (h : whnf? cx s t .noDelta = some u) :
    Attains cx.signature s t u := by
  refine ⟨?_, headNormal_of_whnf? h⟩
  obtain ⟨⟨u, left⟩, within, rfl⟩ := Option.map_eq_some_iff.1 h
  obtain ⟨m, _, steps⟩ := headSteps_of_whnfWithin within
  exact headRun_of_headSteps steps

/-- Only the values count, and only if they are the same. -/
theorem Attains.of_values {s' : Store} (values : ∀ k, s'.value? k = s.value? k)
    (h : Attains g s t u) : Attains g s' t u := by
  obtain ⟨⟨n, run⟩, head, unapplied⟩ := h
  refine ⟨⟨n, ?_⟩, ?_, unapplied⟩
  · clear head unapplied
    induction run with
    | refl t => exact .refl t
    | head first _ ih =>
      refine .head ?_ ih
      cases first with
      | uncast t a xs => exact .uncast t a xs
      | zeta on v a b xs => exact .zeta on v a b xs
      | value on inst xs assigned => exact .value on inst xs ((values _).trans assigned)
      | beta on a b x xs => exact .beta on a b x xs
  · rw [← head]
    cases u.head <;> simp [Head.isStuck, values]

end

namespace Unify

/-! ## Agreement of reduced terms -/

/-- Heads of one construction, and arguments in pairs. -/
inductive Similar (R : Term → Term → Prop) : Term → Term → Prop
  | mk {f g xs ys} : Head.Framed R f g → List.Forall₂ R xs ys → Similar R (.mk f xs) (.mk g ys)

/-- Two reduced terms are of one construction, or one is read as the other. -/
inductive Agree (cx : Context) (R : Term → Term → Prop) (a b : Term) : Prop
  | similar : Similar R a b → Agree cx R a b
  | left : Reads cx R a b → Agree cx R a b
  | right : Reads cx R b a → Agree cx R a b

/-- To whatever the first term is reduced, the second is reduced to something that agrees with it.
-/
def Follows (cx : Context) (s : Store) (R : Term → Term → Prop) (a b : Term) : Prop :=
  ∀ a', Attains cx.signature s a a' → ∃ b', Attains cx.signature s b b' ∧ Agree cx R a' b'

/-- Two terms are alike if they are related in a way that lets either follow the other. -/
def Alike (cx : Context) (s : Store) (a b : Term) : Prop :=
  ∃ R : Term → Term → Prop, (∀ a b, R a b → R b a) ∧ (∀ a b, R a b → Follows cx s R a b) ∧ R a b

section
variable {cx : Context} {s : Store} {R S : Term → Term → Prop} {a b a' b' : Term}

theorem Similar.mono (imp : ∀ a b, R a b → S a b) (h : Similar R a b) : Similar S a b := by
  obtain ⟨framed, args⟩ := h
  exact .mk (framed.mono imp) (args.imp imp)

theorem Similar.symm (symm : ∀ a b, R a b → R b a) (h : Similar R a b) : Similar R b a := by
  obtain ⟨framed, args⟩ := h
  exact .mk (framed.flip.mono fun a b => symm b a) (args.imp symm).flip

theorem Similar.refl (refl : ∀ a, R a a) (a : Term) : Similar R a a := by
  obtain ⟨f, xs⟩ := a
  exact .mk (.refl refl f) (List.forall₂_same.2 fun x _ => refl x)

theorem Similar.apply {xs ys : List Term} (h : Similar R a b) (args : List.Forall₂ R xs ys) :
    Similar R (a.apply xs) (b.apply ys) := by
  obtain ⟨framed, inner⟩ := h
  exact .mk framed (List.rel_append inner args)

theorem Agree.mono (imp : ∀ a b, R a b → S a b) (h : Agree cx R a b) : Agree cx S a b := by
  cases h with
  | similar h => exact .similar (h.mono imp)
  | left h => exact .left (h.mono imp)
  | right h => exact .right (h.mono imp)

theorem Agree.symm (symm : ∀ a b, R a b → R b a) (h : Agree cx R a b) : Agree cx R b a := by
  cases h with
  | similar h => exact .similar (h.symm symm)
  | left h => exact .right h
  | right h => exact .left h

theorem Follows.mono (imp : ∀ a b, R a b → S a b) (h : Follows cx s R a b) :
    Follows cx s S a b := by
  intro a' ha
  obtain ⟨b', hb, agree⟩ := h a' ha
  exact ⟨b', hb, agree.mono imp⟩

theorem follows_refl (refl : ∀ a, R a a) (a : Term) : Follows cx s R a a :=
  fun a' ha => ⟨a', ha, .similar (.refl refl a')⟩

/-! ## The greatest such relation -/

namespace Alike

theorem coind (symm : ∀ a b, R a b → R b a) (follows : ∀ a b, R a b → Follows cx s R a b)
    (h : R a b) : Alike cx s a b :=
  ⟨R, symm, follows, h⟩

theorem symm (h : Alike cx s a b) : Alike cx s b a := by
  obtain ⟨R, symm, follows, hab⟩ := h
  exact ⟨R, symm, follows, symm a b hab⟩

theorem dest (h : Alike cx s a b) : Follows cx s (Alike cx s) a b := by
  obtain ⟨R, symm, follows, hab⟩ := h
  exact (follows a b hab).mono fun c d hcd => ⟨R, symm, follows, hcd⟩

theorem refl (a : Term) : Alike cx s a a := by
  refine coind (R := Eq) (fun a b => Eq.symm) ?_ rfl
  rintro a b rfl
  exact follows_refl (fun _ => rfl) a

/-- Terms that are related may follow one another in what is alike already. -/
theorem coind_up_to (symm : ∀ a b, R a b → R b a)
    (follows : ∀ a b, R a b → Follows cx s (fun a b => Alike cx s a b ∨ R a b) a b) (h : R a b) :
    Alike cx s a b := by
  refine coind (R := fun a b => Alike cx s a b ∨ R a b) ?_ ?_ (.inr h)
  · exact fun a b => Or.imp .symm (symm a b)
  · rintro a b (h | h)
    · exact h.dest.mono fun c d => .inl
    · exact follows a b h

/-- What reduced terms that are alike have in common. -/
theorem agree (h : Alike cx s a b) (ha : Attains cx.signature s a a')
    (hb : Attains cx.signature s b b') : Agree cx (Alike cx s) a' b' := by
  obtain ⟨c, hc, agree⟩ := h.dest a' ha
  obtain rfl := hb.unique hc
  exact agree

/-- Head normal forms that agree are alike. -/
theorem of_agree (ha : a.HeadNormal s) (hb : b.HeadNormal s) (h : Agree cx (Alike cx s) a b) :
    Alike cx s a b := by
  refine coind_up_to
    (R := fun c d => c.HeadNormal s ∧ d.HeadNormal s ∧ Agree cx (Alike cx s) c d) ?_ ?_ ⟨ha, hb, h⟩
  · rintro c d ⟨hc, hd, h⟩
    exact ⟨hd, hc, h.symm fun _ _ => .symm⟩
  · rintro c d ⟨hc, hd, h⟩ c' hc'
    obtain rfl := hc.attains.unique hc'
    exact ⟨d, hd.attains, h.mono fun _ _ => .inl⟩

theorem of_attains (h : Alike cx s a b) (ha : Attains cx.signature s a a')
    (hb : Attains cx.signature s b b') : Alike cx s a' b' :=
  .of_agree ha.normal hb.normal (h.agree ha hb)

theorem of_values {s' : Store} (values : ∀ k, s'.value? k = s.value? k) (h : Alike cx s a b) :
    Alike cx s' a b := by
  obtain ⟨R, symm, follows, hab⟩ := h
  refine ⟨R, symm, fun c d hcd c' hc => ?_, hab⟩
  obtain ⟨d', hd, agree⟩ := follows c d hcd c' (hc.of_values fun k => (values k).symm)
  exact ⟨d', hd.of_values values, agree⟩

end Alike

/-! ## Spines -/

/-- Spines of one length match entry by entry. -/
theorem Tops.of_similar {f g : Head} {xs ys : List Term} (similar : Similar R (.mk f xs) (.mk g ys))
    (front : R (.ofHead f) (.ofHead g)) : Tops R (.mk f xs) (.mk g ys) := by
  obtain ⟨framed, args⟩ := similar
  have len : xs.length = ys.length := args.length_eq
  cases hxs : xs with
  | nil =>
    obtain rfl : ys = [] := List.length_eq_zero_iff.1 (by rw [← len, hxs]; rfl)
    exact .heads framed
  | cons x xs' =>
    rw [← hxs]
    have left : xs ≠ [] := by simp [hxs]
    have right : ys ≠ [] := by
      rintro rfl
      exact left (List.length_eq_zero_iff.1 len)
    refine .spines left right ?_ ?_
    · simpa [len] using front
    · simpa [len] using args

/-- Where the first terms of a spine are read as a head alone, the spine is read as an application
of it. -/
theorem Reads.of_front {f g : Head} {xs ys : List Term} {n : Nat} (len : xs.length = n + ys.length)
    (front : Reads cx R (.mk f (xs.take n)) (.ofHead g)) (back : List.Forall₂ R (xs.drop n) ys) :
    Reads cx R (.mk f xs) (.mk g ys) := by
  cases front with
  | @intro p h m form _ _ x hp hc pos hx span structure' own =>
    have within : m - 1 < n := by
      by_contra beyond
      rw [List.getElem?_eq_none (by simp only [List.length_take]; omega)] at hx
      cases hx
    obtain ⟨zero, least⟩ : form.extra = 0 ∧ n ≤ m := by
      simp only [List.length_nil, Canonical.span, List.length_drop, List.length_take] at span
      omega
    obtain rfl : m = n := by omega
    rw [List.getElem?_take_of_lt within] at hx
    refine .intro hp hc pos hx ?_ ?_ ?_
    · rw [Canonical.span, zero, List.length_drop]
      omega
    · simpa [zero] using structure'
    · rw [zero]
      exact back

end

/-! ## Comparisons -/

section
variable {cx : Context} {s : Store} {a b a' b' : Term}

theorem matches_of_coincide (ha : a.HeadNormal s) (hb : b.HeadNormal s) (h : Coincide cx s a b) :
    Matches cx (Coincide cx s) a b := by
  cases h.explained with
  | same h => exact .same h
  | reduced ha' hb' h =>
    obtain rfl := ha.attains.unique (attains_of_whnf? ha')
    obtain rfl := hb.attains.unique (attains_of_whnf? hb')
    exact h

/-- Reduced terms that coincide, one of which has no arguments: they are heads of one construction,
or the one is read as the other. -/
theorem agree_of_coincide_ofHead {f g : Head} {xs : List Term} (ha : (Term.mk f xs).HeadNormal s)
    (hb : (Term.ofHead g).HeadNormal s) (h : Coincide cx s (.mk f xs) (.ofHead g)) :
    xs = [] ∧ Head.Framed (Coincide cx s) f g ∨
      Reads cx (Coincide cx s) (.mk f xs) (.ofHead g) := by
  cases matches_of_coincide ha hb h with
  | same same =>
    obtain ⟨rfl, rfl⟩ := Term.mk.inj same
    exact .inl ⟨rfl, .refl Coincide.refl f⟩
  | tops tops =>
    cases tops with
    | heads framed => exact .inl ⟨rfl, framed⟩
    | spines _ none' => exact absurd rfl none'
  | left reads => exact .inr reads
  | right reads =>
    cases reads with
    | intro _ _ _ hx => cases hx

/-- Spines that match from their ends agree from their heads: if one is longer, it is read as an
application of what the other is headed by. -/
theorem agree_of_tops (ha : a.HeadNormal s) (hb : b.HeadNormal s)
    (h : Tops (Coincide cx s) a b) : Agree cx (Coincide cx s) a b := by
  cases h with
  | heads framed => exact .similar (.mk framed .nil)
  | @spines f g xs ys _ _ front back =>
    rcases Nat.le_total ys.length xs.length with longer | longer
    · have none' : ys.length - xs.length = 0 := by omega
      rw [none', List.take_zero] at front
      rw [none', List.drop_zero] at back
      rcases agree_of_coincide_ofHead (ha.take _) (hb.take 0) front with ⟨bare, framed⟩ | reads
      · have len : xs.length - ys.length = 0 := by
          have length := congrArg List.length bare
          rw [List.length_take, List.length_nil] at length
          omega
        rw [len, List.drop_zero] at back
        exact .similar (.mk framed back)
      · exact .left (.of_front (by omega) reads back)
    · have none' : xs.length - ys.length = 0 := by omega
      rw [none', List.take_zero] at front
      rw [none', List.drop_zero] at back
      rcases agree_of_coincide_ofHead (hb.take _) (ha.take 0) front.symm with
        ⟨bare, framed⟩ | reads
      · have len : ys.length - xs.length = 0 := by
          have length := congrArg List.length bare
          rw [List.length_take, List.length_nil] at length
          omega
        rw [len, List.drop_zero] at back
        exact .similar (.mk (framed.flip.mono fun _ _ => .symm) back)
      · exact .right (.of_front (by omega) reads (back.imp fun _ _ => .symm).flip)

theorem alike_of_coincide (h : Coincide cx s a b) : Alike cx s a b := by
  refine .coind (R := Coincide cx s) (fun _ _ => .symm) (fun c d h => ?_) h
  cases h.explained with
  | same same =>
    subst same
    exact follows_refl .refl c
  | reduced hc hd h =>
    have reduced := attains_of_whnf? hc
    have reduced' := attains_of_whnf? hd
    intro c' hc'
    obtain rfl := reduced.unique hc'
    refine ⟨_, reduced', ?_⟩
    cases h with
    | same same =>
      subst same
      exact .similar (.refl .refl _)
    | tops h => exact agree_of_tops reduced.normal reduced'.normal h
    | left h => exact .left h
    | right h => exact .right h

theorem consistent_alike : Consistent cx s (Alike cx s) := by
  refine ⟨fun _ _ => .symm, fun a b h => .inr fun a' b' ha hb => ?_⟩
  have reduced := attains_of_whnf? ha
  have reduced' := attains_of_whnf? hb
  cases h.agree reduced reduced' with
  | left h => exact .left h
  | right h => exact .right h
  | similar similar =>
    obtain ⟨f, xs⟩ := a'
    obtain ⟨g, ys⟩ := b'
    refine .tops (.of_similar similar ?_)
    cases similar with
    | mk framed _ =>
      exact .of_agree (reduced.normal.take 0) (reduced'.normal.take 0) (.similar (.mk framed .nil))

end

end Unify

open Unify in
/-- Where nothing is unfolded, an answer of conversion says whether the terms are alike. -/
theorem convertible?_iff_alike {cx : Context} {s : Store} {a b : Term} {r : Bool}
    (bare : cx.signature.definitions = []) (answer : convertible? cx s a b = some r) :
    r = true ↔ Alike cx s a b := by
  have values (k : Nat) : s.value? k = (s.freeze s.checkpoint).value? k := rfl
  constructor
  · rintro rfl
    exact (alike_of_coincide (coincide_of_convertible? bare answer)).of_values values
  · intro h
    have alike := h.of_values fun k => (values k).symm
    exact convertible?_of_consistent bare consistent_alike alike answer

end KeyedMatching
