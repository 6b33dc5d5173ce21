import KeyedMatching.Proofs.Unification.Congruence

/-!
# Two comparisons in a row

A term that is alike a second is compared with a third by way of that. The two comparisons are
followed part by part, through whatever canonical forms are used for either of them, and make one.
Only what a canonical form leaves out of account can come between.

* `Unify.Sided`: what a canonical form compares of an application on either side, and what it leaves
  out;
* `Unify.Part`, `Unify.Place`: the parts of three terms that the comparisons come upon together;
* `Unify.Gap`: what can go wrong at such a place, by `Unify.Reread` or `Unify.Moved`;
* `Unify.alike_of_clear`: if nothing does, the first and the third term are alike;
* `Unify.clear_of_alike`: if they are, nothing does, unless two constants are canonical for one
  another.
-/

namespace KeyedMatching

namespace Unify

/-! ## The two sides of a canonical form -/

/-- The sides of a canonical form: an application of the projection, which is read, and one of the
constant that it is read as. -/
inductive Side
  | projection
  | head
  deriving DecidableEq

/-- A term on one side of the canonical form of `h` for the projection `p`: the arguments that are
left out of account, and what is compared with the other side. Of an application of the projection
that is the structure and the arguments after it, of one of the constant `h` the instance and the
arguments that it does not take. -/
inductive Sided (cx : Context) (p h : String) : Side → Term → List Term → List Term → Prop
  | projection {n xs} : cx.signature.projection? p = some n → n ≠ 0 →
    Sided cx p h .projection (.mk (.const p) xs) (xs.take (n - 1)) (xs.drop (n - 1))
  | head {form ys} : cx.signature.canonical? p h = some form → form.extra ≤ ys.length →
    Sided cx p h .head (.mk (.const h) ys) (ys.take form.extra)
      (form.inst.apply (ys.take form.extra) :: ys.drop form.extra)

section
variable {cx : Context} {R S T : Term → Term → Prop} {a b c : Term}

theorem Reads.sided (h : Reads cx R a b) :
    ∃ p h os us os' vs, Sided cx p h .projection a os us ∧ Sided cx p h .head b os' vs ∧
      List.Forall₂ R us vs := by
  cases h with
  | @intro p h n form xs ys x hp hc pos hx len front back =>
    have fits : form.extra ≤ ys.length := by
      rw [len, Canonical.span]
      omega
    refine ⟨p, h, _, _, _, _, .projection hp pos, .head hc fits, ?_⟩
    obtain ⟨within, rfl⟩ := List.getElem?_eq_some_iff.1 hx
    rw [List.drop_eq_getElem_cons within, Nat.sub_add_cancel (Nat.one_le_iff_ne_zero.2 pos)]
    exact .cons front back

theorem Sided.reads {p h : String} {os us os' vs : List Term}
    (ha : Sided cx p h .projection a os us) (hb : Sided cx p h .head b os' vs)
    (all : List.Forall₂ R us vs) : Reads cx R a b := by
  cases ha with
  | @projection n xs hp pos =>
    cases hb with
    | @head form ys hc fits =>
      have len := all.length_eq
      have within : n - 1 < xs.length := by
        rw [List.length_drop, List.length_cons] at len
        omega
      rw [List.drop_eq_getElem_cons within,
        Nat.sub_add_cancel (Nat.one_le_iff_ne_zero.2 pos)] at all
      obtain ⟨front, back⟩ := List.forall₂_cons.1 all
      refine .intro hp hc pos (List.getElem?_eq_getElem within) ?_ front back
      have rest := back.length_eq
      rw [List.length_drop, List.length_drop] at rest
      rw [Canonical.span, List.length_drop]
      omega

/-! ## Parts that belong together -/

/-- Parts of three reduced terms that comparing the first with the second and that with the third
comes upon together: the children and the arguments where all are of one construction, and what is
compared where a canonical form is used for one comparison at least. Two instances of it are not
such parts: they are of one kind if the arguments that they take are. -/
inductive Part (cx : Context) (R : Term → Term → Prop) (a b c : Term) : Term → Term → Term → Prop
  | child {i : Nat} {x y z} : Similar R a b → Similar R b c → a.head.parts[i]? = some x →
    b.head.parts[i]? = some y → c.head.parts[i]? = some z → Part cx R a b c x y z
  | argument {i : Nat} {x y z} : Similar R a b → Similar R b c → a.args[i]? = some x →
    b.args[i]? = some y → c.args[i]? = some z → Part cx R a b c x y z
  | read {p h σ τ ρ os us os' vs os'' ws} {i : Nat} {x y z} : Sided cx p h σ a os us →
    Sided cx p h τ b os' vs → Sided cx p h ρ c os'' ws → List.Forall₂ R us vs →
    List.Forall₂ R vs ws → (σ ≠ τ ∨ τ ≠ ρ) → (σ = .head → ρ = .head → i ≠ 0) →
    us[i]? = some x → vs[i]? = some y → ws[i]? = some z → Part cx R a b c x y z

/-- The first and the third term are on one side of a canonical form and the second on the other,
and what this leaves out of account of the first and the third is related, too. -/
inductive Tallies (cx : Context) (R : Term → Term → Prop) (a b c : Term) : Prop
  | intro {p h σ τ os us os' vs os'' ws} : σ ≠ τ → Sided cx p h σ a os us →
    Sided cx p h τ b os' vs → Sided cx p h σ c os'' ws → List.Forall₂ R us vs →
    List.Forall₂ R vs ws → List.Forall₂ R os os'' → Tallies cx R a b c

/-- The second of three reduced terms is compared by a canonical form with the first and again with
the third, and these do not tally. -/
structure Reread (cx : Context) (R : Term → Term → Prop) (a b c : Term) : Prop where
  first : Reads cx R a b ∨ Reads cx R b a
  second : Reads cx R b c ∨ Reads cx R c b
  apart : ¬ Tallies cx R a b c

/-- The first two of three reduced terms are applications of one constant, and the third, an
application of a projection, is read as the second. Of the first, the canonical form has another
instance. -/
inductive Moved (cx : Context) (R : Term → Term → Prop) : Term → Term → Term → Prop
  | intro {p h form xs ys zs} : cx.signature.canonical? p h = some form →
    Similar R (.mk (.const h) xs) (.mk (.const h) ys) →
    Reads cx R (.mk (.const p) zs) (.mk (.const h) ys) →
    ¬ R (form.inst.apply (xs.take form.extra)) (form.inst.apply (ys.take form.extra)) →
    Moved cx R (.mk (.const h) xs) (.mk (.const h) ys) (.mk (.const p) zs)

/-- The first and the third of three reduced terms are not related, and a canonical form may account
for that. -/
structure Gap (cx : Context) (R : Term → Term → Prop) (a b c : Term) : Prop where
  unrelated : ¬ R a c
  cause : Reread cx R a b c ∨ Moved cx R a b c ∨ Moved cx R c b a

variable (back : ∀ a b, R a b → R b a)
include back

theorem Part.symm {x y z : Term} (h : Part cx R a b c x y z) : Part cx R c b a z y x := by
  cases h with
  | child hab hbc hx hy hz => exact .child (hbc.symm back) (hab.symm back) hz hy hx
  | argument hab hbc hx hy hz => exact .argument (hbc.symm back) (hab.symm back) hz hy hx
  | read ha hb hc hab hbc mixed kept hx hy hz =>
    exact .read hc hb ha (hbc.imp back).flip (hab.imp back).flip
      (mixed.symm.imp Ne.symm Ne.symm) (fun hρ hσ => kept hσ hρ) hz hy hx

theorem Tallies.symm (h : Tallies cx R a b c) : Tallies cx R c b a := by
  obtain ⟨other, ha, hb, hc, hab, hbc, rest⟩ := h
  exact ⟨other, hc, hb, ha, (hbc.imp back).flip, (hab.imp back).flip, (rest.imp back).flip⟩

theorem Gap.symm (h : Gap cx R a b c) : Gap cx R c b a := by
  refine ⟨fun related => h.unrelated (back _ _ related), h.cause.imp (fun reread => ?_) Or.symm⟩
  exact ⟨reread.second.symm, reread.first.symm, fun tallies => reread.apart (tallies.symm back)⟩

end

/-! ## One step of two comparisons -/

section
variable {cx : Context} {R T : Term → Term → Prop} {a b c : Term}
  (next : ∀ x y z, Part cx R a b c x y z → R x y → R y z → T x z)
  (sub : ∀ a b, R a b → T a b) (back : ∀ a b, R a b → R b a) (back' : ∀ a b, T a b → T b a)

include next in
theorem similar_comp (hab : Similar R a b) (hbc : Similar R b c) : Similar T a c := by
  have child (i : Nat) (x y z : Term) (hx : a.head.parts[i]? = some x)
      (hy : b.head.parts[i]? = some y) (hz : c.head.parts[i]? = some z) :=
    next x y z (.child hab hbc hx hy hz)
  have argument (i : Nat) (x y z : Term) (hx : a.args[i]? = some x) (hy : b.args[i]? = some y)
      (hz : c.args[i]? = some z) :=
    next x y z (.argument hab hbc hx hy hz)
  cases hab with
  | mk framed args =>
    cases hbc with
    | mk framed' args' =>
      exact .mk (.comp_at child framed framed') (forall₂_comp_at argument args args')

include next sub back' in
theorem agree_of_sided {p h : String} {σ τ ρ : Side}
    {os us os' vs os'' ws : List Term} (ha : Sided cx p h σ a os us) (hb : Sided cx p h τ b os' vs)
    (hc : Sided cx p h ρ c os'' ws) (hab : List.Forall₂ R us vs) (hbc : List.Forall₂ R vs ws)
    (mixed : σ ≠ τ ∨ τ ≠ ρ) (left : σ = ρ → List.Forall₂ R os os'') : Agree cx T a c := by
  have all (kept : σ = .head → ρ ≠ .head) : List.Forall₂ T us ws := forall₂_comp_at
    (fun i x y z hx hy hz =>
      next x y z (.read ha hb hc hab hbc mixed (fun hσ hρ => absurd hρ (kept hσ)) hx hy hz)) hab hbc
  cases σ with
  | projection =>
    cases ρ with
    | head => exact .left (ha.reads hc (all (by simp)))
    | projection =>
      have all := all (by simp)
      cases ha with
      | @projection n xs hp =>
        cases hc with
        | @projection _ zs hp' =>
          obtain rfl := Option.some.inj (hp.symm.trans hp')
          have args := List.rel_append ((left rfl).imp sub) all
          simp only [List.take_append_drop] at args
          exact .similar (.mk (.const p) args)
  | head =>
    cases ρ with
    | projection => exact .right (hc.reads ha ((all (by simp)).imp back').flip)
    | head =>
      have whole := hab
      have whole' := hbc
      cases ha with
      | @head form xs hf fits =>
        cases hc with
        | @head _ zs hf' fits' =>
          obtain rfl := Option.some.inj (hf.symm.trans hf')
          cases hab with
          | cons _ hab =>
            cases hbc with
            | cons _ hbc =>
              have rest : List.Forall₂ T (xs.drop form.extra) (zs.drop form.extra) :=
                forall₂_comp_at (fun i x y z hx hy hz =>
                  next x y z (.read (.head hf fits) hb (.head hf fits') whole whole' mixed
                    (fun _ _ => Nat.succ_ne_zero i) hx hy hz)) hab hbc
              have args := List.rel_append ((left rfl).imp sub) rest
              simp only [List.take_append_drop] at args
              exact .similar (.mk (.const h) args)

include next sub back back' in
/-- A comparison of two terms of one construction, before one by a canonical form. -/
theorem agree_of_similar_reads (hab : Similar R a b) (hbc : Reads cx R b c ∨ Reads cx R c b)
    (settled : ¬ Moved cx R a b c) : Agree cx T a c := by
  rcases hbc with hbc | hcb
  · obtain ⟨p, h, os, us, os', vs, hb, hc, all⟩ := hbc.sided
    cases hb with
    | @projection n ys hp pos =>
      cases hab with
      | @mk f _ xs _ framed args =>
        cases framed
        refine agree_of_sided next sub back' (.projection hp pos) (.projection hp pos) hc
          (List.forall₂_drop _ args) all (.inr (by simp)) (by simp)
  · obtain ⟨p, h, os, us, os', vs, hc, hb, all⟩ := hcb.sided
    cases hb with
    | @head form ys hf fits =>
      cases hc with
      | @projection n zs hp pos =>
        have similar := hab
        cases hab with
        | @mk f _ xs _ framed args =>
          cases framed
          have instances : R (form.inst.apply (xs.take form.extra))
              (form.inst.apply (ys.take form.extra)) := by
            by_contra apart
            exact settled (.intro hf similar hcb apart)
          have fits' : form.extra ≤ xs.length := args.length_eq ▸ fits
          refine agree_of_sided next sub back' (.head hf fits') (.head hf fits) (.projection hp pos)
            (.cons instances (List.forall₂_drop _ args)) (all.imp back).flip (.inr (by simp))
            (by simp)

include next sub back back' in
/-- Two comparisons in a row are one, as far as the tops of the terms are concerned. -/
theorem agree_comp (hab : Agree cx R a b) (hbc : Agree cx R b c)
    (clear : ¬ (Reread cx R a b c ∨ Moved cx R a b c ∨ Moved cx R c b a)) : Agree cx T a c := by
  obtain ⟨once, settled, settled'⟩ := (not_or.1 clear).imp_right not_or.1
  have first (similar : Similar R a b) (h : Reads cx R b c ∨ Reads cx R c b) : Agree cx T a c :=
    agree_of_similar_reads next sub back back' similar h settled
  have second (h : Reads cx R a b ∨ Reads cx R b a) (similar : Similar R b c) : Agree cx T a c := by
    have next' (x y z : Term) (part : Part cx R c b a x y z) (hxy : R x y) (hyz : R y z) : T x z :=
      back' z x (next z y x (part.symm back) (back y z hyz) (back x y hxy))
    exact (agree_of_similar_reads next' sub back back' (similar.symm back) h.symm
      settled').symm back'
  have both (h : Reads cx R a b ∨ Reads cx R b a) (h' : Reads cx R b c ∨ Reads cx R c b) :
      Agree cx T a c := by
    have tallies : Tallies cx R a b c := by
      by_contra apart
      exact once ⟨h, h', apart⟩
    obtain ⟨other, ha, hb, hc, hab, hbc, rest⟩ := tallies
    exact agree_of_sided next sub back' ha hb hc hab hbc (.inl other) fun _ => rest
  cases hab with
  | similar similar =>
    cases hbc with
    | similar similar' => exact .similar (similar_comp next similar similar')
    | left h => exact first similar (.inl h)
    | right h => exact first similar (.inr h)
  | left h =>
    cases hbc with
    | similar similar => exact second (.inl h) similar
    | left h' => exact both (.inl h) (.inl h')
    | right h' => exact both (.inl h) (.inr h')
  | right h =>
    cases hbc with
    | similar similar => exact second (.inr h) similar
    | left h' => exact both (.inr h) (.inl h')
    | right h' => exact both (.inr h) (.inr h')

end

/-! ## All steps -/

/-- The places that two comparisons in a row come upon: the reduced forms of three terms, and those
of the parts that belong together. -/
inductive Place (cx : Context) (s : Store) : Term → Term → Term → Term → Term → Term → Prop
  | here {a b c x y z} : Attains cx.signature s a x → Attains cx.signature s b y →
    Attains cx.signature s c z → Place cx s a b c x y z
  | beneath {a b c a' b' c' a₁ b₁ c₁ x y z} : Attains cx.signature s a a' →
    Attains cx.signature s b b' → Attains cx.signature s c c' →
    Part cx (Alike cx s) a' b' c' a₁ b₁ c₁ → Place cx s a₁ b₁ c₁ x y z → Place cx s a b c x y z

/-- No canonical form comes between the first and the third term, wherever the comparisons lead. -/
def Clear (cx : Context) (s : Store) (a b c : Term) : Prop :=
  ∀ x y z, Place cx s a b c x y z → ¬ Gap cx (Alike cx s) x y z

section
variable {cx : Context} {s : Store} {a b c x y z : Term}

theorem Place.symm (h : Place cx s a b c x y z) : Place cx s c b a z y x := by
  induction h with
  | here ha hb hc => exact .here hc hb ha
  | beneath ha hb hc part _ ih => exact .beneath hc hb ha (part.symm fun _ _ => .symm) ih

theorem Clear.symm (h : Clear cx s a b c) : Clear cx s c b a :=
  fun x y z place gap => h z y x place.symm (gap.symm fun _ _ => .symm)

/-- Alikeness can be followed through a third term, unless a canonical form comes between. -/
theorem alike_of_clear (hab : Alike cx s a b) (hbc : Alike cx s b c) (clear : Clear cx s a b c) :
    Alike cx s a c := by
  refine .coind_up_to
    (R := fun a c => ∃ b, Alike cx s a b ∧ Alike cx s b c ∧ Clear cx s a b c) ?_ ?_
    ⟨b, hab, hbc, clear⟩
  · rintro a c ⟨b, hab, hbc, clear⟩
    exact ⟨b, hbc.symm, hab.symm, clear.symm⟩
  · rintro a c ⟨b, hab, hbc, clear⟩ a' ha
    obtain ⟨b', hb, agree⟩ := hab.dest a' ha
    obtain ⟨c', hc, agree'⟩ := hbc.dest b' hb
    refine ⟨c', hc, ?_⟩
    by_cases alike : Alike cx s a' c'
    · exact (alike.agree ha.normal.attains hc.normal.attains).mono fun _ _ => .inl
    · refine agree_comp (R := Alike cx s) ?_ (fun _ _ => .inl) (fun _ _ => .symm) ?_ agree agree' ?_
      · exact fun x y z part hxy hyz => .inr ⟨y, hxy, hyz, fun u v w place =>
          clear u v w (.beneath ha hb hc part place)⟩
      · rintro x z (h | ⟨y, hxy, hyz, clear⟩)
        · exact .inl h.symm
        · exact .inr ⟨y, hyz.symm, hxy.symm, clear.symm⟩
      · exact fun cause => clear a' b' c' (.here ha hb hc) ⟨alike, cause⟩

/-! ## Nothing comes between alike terms -/

/-- Of two constants at most one is canonical for the other, and none for itself. -/
def Oriented (cx : Context) : Prop :=
  ∀ p h form, cx.signature.canonical? p h = some form → cx.signature.canonical? h p = none

theorem Similar.parts {R : Term → Term → Prop} {i : Nat} (h : Similar R a b) :
    (a.head.parts[i]? = some x → b.head.parts[i]? = some y → R x y) ∧
      (a.args[i]? = some x → b.args[i]? = some y → R x y) := by
  obtain ⟨framed, args⟩ := h
  exact ⟨related_of_getElem? framed.forall₂_parts, related_of_getElem? args⟩

theorem Similar.head_eq {R : Term → Term → Prop} {k : String} (h : Similar R a b)
    (head : a.head = .const k) : b.head = .const k := by
  cases h with
  | mk framed =>
    obtain rfl : _ = Head.const k := head
    cases framed
    rfl

theorem Sided.unique {p h : String} {σ : Side} {os us os' vs : List Term}
    (sided : Sided cx p h σ a os us) (sided' : Sided cx p h σ a os' vs) : us = vs := by
  cases sided with
  | projection hp =>
    cases sided' with
    | projection hp' =>
      obtain rfl := Option.some.inj (hp.symm.trans hp')
      rfl
  | head hf =>
    cases sided' with
    | head hf' =>
      obtain rfl := Option.some.inj (hf.symm.trans hf')
      rfl

section
variable {R : Term → Term → Prop} (oriented : Oriented cx)
include oriented

theorem Part.related_of_similar (part : Part cx R a b c x y z) (h : Similar R a c) : R x z := by
  cases part with
  | child _ _ hx _ hz => exact h.parts.1 hx hz
  | argument _ _ hx _ hz => exact h.parts.2 hx hz
  | @read p k _ _ _ _ _ _ _ _ _ i _ _ _ ha hb hc _ _ _ kept hx _ hz =>
    cases ha with
    | projection hp =>
      cases hc with
      | projection hp' =>
        obtain rfl := Option.some.inj (hp.symm.trans hp')
        rw [List.getElem?_drop] at hx hz
        exact h.parts.2 hx hz
      | head hf =>
        obtain rfl := Head.const.inj (h.head_eq rfl)
        rw [oriented _ _ _ hf] at hf
        cases hf
    | head hf =>
      cases hc with
      | projection =>
        obtain rfl := Head.const.inj (h.head_eq rfl)
        rw [oriented _ _ _ hf] at hf
        cases hf
      | head hf' =>
        obtain rfl := Option.some.inj (hf.symm.trans hf')
        obtain ⟨j, rfl⟩ := Nat.exists_eq_succ_of_ne_zero (kept rfl rfl)
        rw [List.getElem?_cons_succ, List.getElem?_drop] at hx hz
        exact h.parts.2 hx hz

theorem Part.related_of_reads (part : Part cx R a b c x y z) (h : Reads cx R a c) : R x z := by
  obtain ⟨p, k, _, _, _, _, left, right, all⟩ := h.sided
  have heads : a.head = .const p ∧ c.head = .const k := by
    cases left
    cases right
    exact ⟨rfl, rfl⟩
  have form : ∃ form, cx.signature.canonical? p k = some form := by
    cases right with
    | head hf => exact ⟨_, hf⟩
  obtain ⟨form, hf⟩ := form
  have apart : p ≠ k := by
    rintro rfl
    rw [oriented _ _ _ hf] at hf
    cases hf
  have similar (hab : Similar R a b) (hbc : Similar R b c) : False :=
    apart (Head.const.inj ((hbc.head_eq (hab.head_eq heads.1)).symm.trans heads.2))
  cases part with
  | child hab hbc => exact (similar hab hbc).elim
  | argument hab hbc => exact (similar hab hbc).elim
  | read ha _ hc _ _ _ _ hx _ hz =>
    have first := ha
    have last := hc
    cases ha with
    | projection =>
      obtain rfl := Head.const.inj heads.1
      cases hc with
      | projection => exact absurd (Head.const.inj heads.2) apart
      | head =>
        obtain rfl := Head.const.inj heads.2
        obtain rfl := first.unique left
        obtain rfl := last.unique right
        exact related_of_getElem? all hx hz
    | head hf' =>
      obtain rfl := Head.const.inj heads.1
      cases hc with
      | projection =>
        obtain rfl := Head.const.inj heads.2
        rw [oriented _ _ _ hf] at hf'
        cases hf'
      | head => exact absurd (Head.const.inj heads.2) apart

theorem Part.related (back : ∀ a b, R a b → R b a) (part : Part cx R a b c x y z)
    (h : Agree cx R a c) : R x z := by
  cases h with
  | similar h => exact part.related_of_similar oriented h
  | left h => exact part.related_of_reads oriented h
  | right h => exact back z x ((part.symm back).related_of_reads oriented h)

theorem Place.alike (place : Place cx s a b c x y z) (h : Alike cx s a c) : Alike cx s x z := by
  induction place with
  | here ha _ hc => exact h.of_attains ha hc
  | beneath ha _ hc part _ ih => exact ih (part.related oriented (fun _ _ => .symm) (h.agree ha hc))

/-- Where the first and the third term are alike, so are their parts: nothing comes between. -/
theorem clear_of_alike (h : Alike cx s a c) : Clear cx s a b c :=
  fun _ _ _ place gap => gap.unrelated (place.alike oriented h)

end

/-- Of applications of a constant of no canonical form, only the arguments count. -/
theorem clear_of_args {k : String} {xs ys zs : List Term}
    (noProjection : cx.signature.projection? k = none)
    (noHead : ∀ p, cx.signature.canonical? p k = none)
    (args : ∀ (i : Nat) (x y z : Term), xs[i]? = some x → ys[i]? = some y → zs[i]? = some z →
      Clear cx s x y z) :
    Clear cx s (.mk (.const k) xs) (.mk (.const k) ys) (.mk (.const k) zs) := by
  have stays {us : List Term} {u : Term} (h : Attains cx.signature s (.mk (.const k) us) u) :
      u = .mk (.const k) us := by
    have normal : (Term.mk (.const k) us).HeadNormal s := ⟨rfl, fun _ => rfl⟩
    exact h.unique normal.attains
  have not_reads {us : List Term} {t : Term} :
      ¬ Reads cx (Alike cx s) (.mk (.const k) us) t := by
    rintro ⟨hp, _⟩
    rw [noProjection] at hp
    cases hp
  intro x y z place gap
  cases place with
  | here ha hb hc =>
    obtain rfl := stays ha
    obtain rfl := stays hb
    obtain rfl := stays hc
    rcases gap.cause with reread | moved | moved
    · exact reread.first.elim not_reads not_reads
    · cases moved with
      | intro _ _ reads => exact not_reads reads
    · cases moved with
      | intro _ _ reads => exact not_reads reads
  | beneath ha hb hc part place =>
    obtain rfl := stays ha
    obtain rfl := stays hb
    obtain rfl := stays hc
    cases part with
    | child _ _ hx => cases hx
    | argument _ _ hx hy hz => exact args _ _ _ _ hx hy hz x y z place gap
    | read sided =>
      cases sided with
      | projection hp =>
        rw [noProjection] at hp
        cases hp
      | head hf =>
        rw [noHead] at hf
        cases hf

end

end Unify

end KeyedMatching
