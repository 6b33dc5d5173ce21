import KeyedMatching.Proofs.Holes.Commuting
import KeyedMatching.Proofs.Matching.Commit
import KeyedMatching.Unification

/-!
# What normalising leaves of the meaning

Normalising brings the values of a store to an end one after the other, so that what stands for a
hole is reduced before an instance is put into it.

* `Store.PartlyNormal.comesTo`: up to contraction, every term comes down to the same as before;
* `Store.PartlyNormal.instantiate?_eq`: and to the very same, if no abstraction is put for a
  variable of a value on the way (`Store.Plain`);
* `Store.partlyNormal_of_normalSteps`: this is so after some values, in whatever order;
* `Store.meaning_of_normalize?`: and after all.
-/

namespace KeyedMatching

namespace Store

/-! ## Runs that put in no abstraction -/

/-- The first term comes down to the second, and no instance that is read on the way has an
abstraction among its arguments. -/
def PlainRun (s : Store) (t t' : Term) : Prop :=
  ∀ R, s.Layered (fun ys => ∀ y ∈ ys, y.isLam = false) R → R t t'

/-- Values are put into the term without an abstraction being put for a variable of a value. -/
def Plain (s : Store) (t : Term) : Prop :=
  ∃ t', s.PlainRun t t'

/-- Plain runs are put together from plain runs. -/
theorem plainRun_of_layer {s : Store} {t t' : Term}
    (h : s.Layer s.PlainRun (fun ys u w => (∀ y ∈ ys, y.isLam = false) ∧ s.PlainRun u w) t t') :
    s.PlainRun t t' :=
  fun R rules => rules t t' (h.mono (fun _ _ run => run R rules) fun _ _ _ h => ⟨h.1, h.2 R rules⟩)

section
variable {s : Store}

theorem instantiate?_of_plainRun (acyclic : s.Acyclic) {t t' : Term} (run : s.PlainRun t t') :
    s.instantiate? t = some t' :=
  run (fun t t' => s.instantiate? t = some t') fun _ _ layer =>
    instantiate?_of_layer acyclic (layer.mono (fun _ _ => id) fun _ _ _ h => h.2)

/-- A plain run is an induction on its layers, at each of which the runs are known. -/
theorem plainRun_induction {R : Term → Term → Prop}
    (rules : ∀ t t', s.Layer (fun x y => s.PlainRun x y ∧ R x y)
      (fun ys u w => (∀ y ∈ ys, y.isLam = false) ∧ s.PlainRun u w ∧ R u w) t t' → R t t')
    {t t' : Term} (run : s.PlainRun t t') : R t t' := by
  refine (run (fun t t' => s.PlainRun t t' ∧ R t t') fun t t' layer => ?_).2
  have known := plainRun_of_layer
    (layer.mono (fun _ _ h => h.1) fun _ _ _ h => ⟨h.1, h.2.1⟩)
  exact ⟨known, rules t t' (layer.mono (fun _ _ => id) fun _ _ _ h => h)⟩

theorem exists_plainRuns {xs : List Term} (h : ∀ x ∈ xs, s.Plain x) :
    ∃ ys, List.Forall₂ s.PlainRun xs ys := by
  have each : List.Forall₂ (fun x z => ∃ y, s.PlainRun x y ∧ (fun _ _ => True) y z) xs xs :=
    List.forall₂_same.2 fun x hx => (h x hx).imp fun _ run => ⟨run, trivial⟩
  obtain ⟨ys, runs, _⟩ := exists_forall₂_of_comp each
  exact ⟨ys, runs⟩

/-- A term is plain at a head that is no assigned hole, if its children are. -/
theorem plain_of_children {h : Head} {xs : List Term} (unset : s.Unset h)
    (framed : h.Framed (fun a _ => s.Plain a) h) (hxs : ∀ x ∈ xs, s.Plain x) :
    s.Plain (.mk h xs) := by
  have each : h.Framed (fun a c => ∃ b, s.PlainRun a b ∧ (fun _ _ => True) b c) h :=
    framed.mono fun _ _ run => run.imp fun _ run => ⟨run, trivial⟩
  obtain ⟨g, runs, _⟩ := each.exists_of_comp
  obtain ⟨ys, args⟩ := exists_plainRuns hxs
  exact ⟨_, plainRun_of_layer (.frame unset runs args)⟩

section
variable {f : Nat → Nat → Term} {R : Term → Term → Prop} {P : Term → Prop}

theorem forall_of_bindAll (each : ∀ a d b, R (a.bind f d) b → P a) {xs ys : List Term} {d : Nat}
    (h : List.Forall₂ R (Term.bindAll f d xs) ys) : ∀ x ∈ xs, P x := by
  rw [Term.bindAll_eq_map, List.forall₂_map_left_iff] at h
  exact forall_right_of_forall₂ (h.imp fun a b => each a d b).flip

/-- What is true of the children with a binding put in is true of the children. -/
theorem framed_of_bind (each : ∀ a d b, R (a.bind f d) b → P a) {h h' g : Head} {d : Nat}
    (same : h.bind f d = .ofHead h') (notVar : ∀ i, h ≠ .rel i) (framed : h'.Framed R g) :
    h.Framed (fun a _ => P a) h := by
  have all {xs ys : List Term} {d : Nat} (h : List.Forall₂ R (Term.bindAll f d xs) ys) :
      List.Forall₂ (fun a _ => P a) xs xs := List.forall₂_same.2 (forall_of_bindAll each h)
  cases h with
  | rel i => exact absurd rfl (notVar i)
  | sort n => exact .sort n
  | const c => exact .const c
  | hole k xs =>
    cases same
    cases framed with
    | hole hxs => exact .hole (all hxs)
  | pi a b =>
    cases same
    cases framed with
    | pi ha hb => exact .pi (each _ _ _ ha) (each _ _ _ hb)
  | lam a b =>
    cases same
    cases framed with
    | lam ha hb => exact .lam (each _ _ _ ha) (each _ _ _ hb)
  | letIn v a b =>
    cases same
    cases framed with
    | letIn hv ha hb => exact .letIn (each _ _ _ hv) (each _ _ _ ha) (each _ _ _ hb)
  | cast t a =>
    cases same
    cases framed with
    | cast ht ha => exact .cast (each _ _ _ ht) (each _ _ _ ha)
  | case r c bs =>
    cases same
    cases framed with
    | case hr hc hbs => exact .case (each _ _ _ hr) (each _ _ _ hc) (all hbs)
  | fix i as bs =>
    cases same
    cases framed with
    | fix has hbs => exact .fix (all has) (all hbs)

/-- What plain runs come to goes along with terms that are put for variables and are no
abstractions. -/
theorem plainRuns_bindAll (acyclic : s.Acyclic)
    (values : ∀ k v, s.value? k = some v → v.Over s.Suffices) (hf : Term.MovesAlong f)
    (neutral : ∀ d i, (f d i).isLam = false) (free : ∀ d i, s.Instantiated (f d i))
    {xs ys zs : List Term} {d : Nat} (runs : List.Forall₂ s.PlainRun xs ys)
    (fits : ∀ x ∈ xs, x.Over s.Suffices)
    (bound : List.Forall₂ s.PlainRun (Term.bindAll f d xs) zs) : ys.map (·.bind f d) = zs := by
  have read : List.Forall₂ (fun x z => s.instantiate? (x.bind f d) = some z) xs
      (ys.map (·.bind f d)) :=
    List.forall₂_map_right_iff.2 (forall₂_of_over (runs.imp fun x y run fits =>
      instantiate?_bind acyclic values hf neutral free fits
        (instantiate?_of_plainRun acyclic run) d) fits)
  rw [Term.bindAll_eq_map, List.forall₂_map_left_iff] at bound
  refine forall₂_unique (fun _ _ _ hb hc => ?_) read bound
  exact Option.some.inj (hb.symm.trans (instantiate?_of_plainRun acyclic hc))

/-- The first term runs plainly to the second, and whatever the binding turns into the first is
plain. -/
def ReflectsPlain (s : Store) (f : Nat → Nat → Term) (x y : Term) : Prop :=
  s.PlainRun x y ∧ ∀ t d, x = t.bind f d → t.Over s.Suffices → s.Plain t

theorem plain_of_reflectsPlain {xs ys : List Term} {d : Nat}
    (h : List.Forall₂ (s.ReflectsPlain f) (Term.bindAll f d xs) ys)
    (fits : ∀ x ∈ xs, x.Over s.Suffices) : ∀ x ∈ xs, s.Plain x := fun x hx =>
  forall_of_bindAll (P := fun a => a.Over s.Suffices → s.Plain a) (fun a d _ h => h.2 a d rfl) h x
    hx (fits x hx)

/-- The value of a hole is read for it with the binding put in just as before. -/
theorem plain_of_bind_value (acyclic : s.Acyclic)
    (values : ∀ k v, s.value? k = some v → v.Over s.Suffices) (hf : Term.MovesAlong f)
    (neutral : ∀ d i, (f d i).isLam = false) (free : ∀ d i, s.Instantiated (f d i))
    {k d : Nat} {v w : Term} {inst xs ys : List Term} (hv : s.value? k = some v)
    (onHead : (Term.ofHead (.hole k inst)).Over s.Suffices)
    (hinst : List.Forall₂ (s.ReflectsPlain f) (Term.bindAll f d inst) ys)
    (neutral' : ∀ y ∈ ys, y.isLam = false) (hw : s.ReflectsPlain f (v.instantiateMany ys) w)
    (args : ∀ x ∈ xs, s.Plain x) : s.Plain (.mk (.hole k inst) xs) := by
  obtain ⟨own, onInst⟩ := Term.over_hole.1 onHead
  obtain ⟨zs, insts⟩ := exists_plainRuns (plain_of_reflectsPlain hinst onInst)
  obtain rfl := plainRuns_bindAll acyclic values hf neutral free insts onInst
    (hinst.imp fun _ _ h => h.1)
  have fits : v.Scoped zs.length := insts.length_eq ▸ own v hv
  have instantiated := instantiated_of_forall₂
    (insts.imp fun _ _ run => instantiate?_of_plainRun acyclic run)
  obtain ⟨w', run⟩ := hw.2 (v.instantiateMany zs) d (hf.bind_instantiateMany fits d).symm
    (Term.over_instantiateMany (values k v hv)
      fun z hz => (instantiated z hz).over_suffices)
  obtain ⟨us, runs⟩ := exists_plainRuns args
  refine ⟨_, plainRun_of_layer (.value hv insts ⟨fun z hz => ?_, run⟩ runs)⟩
  rw [← Term.isLam_bind neutral z d]
  exact neutral' _ (List.mem_map_of_mem hz)

/-- A term is plain if it is with terms put for its variables that are no abstractions. -/
theorem plain_of_bind (acyclic : s.Acyclic)
    (values : ∀ k v, s.value? k = some v → v.Over s.Suffices) (hf : Term.MovesAlong f)
    (neutral : ∀ d i, (f d i).isLam = false) (free : ∀ d i, s.Instantiated (f d i)) {t u : Term}
    {d : Nat} (run : s.PlainRun (t.bind f d) u) (p : t.Over s.Suffices) : s.Plain t := by
  refine plainRun_induction
    (R := fun x _ => ∀ t d, x = t.bind f d → t.Over s.Suffices → s.Plain t) ?_ run t d rfl p
  clear run p
  rintro _ u layer ⟨h, xs⟩ d rfl p
  obtain ⟨onHead, onArgs⟩ := Term.over_mk.1 p
  have args {ys : List Term} (h : List.Forall₂ (s.ReflectsPlain f) (Term.bindAll f d xs) ys) :=
    plain_of_reflectsPlain h onArgs
  rw [Term.bind] at layer
  by_cases var : ∃ i, h = .rel i
  · obtain ⟨i, rfl⟩ := var
    rw [Head.bind] at layer
    have own := free d i
    generalize f d i = a at own layer
    obtain ⟨g, zs⟩ := a
    rw [Term.apply] at layer
    cases layer with
    | frame unset framed hxs =>
      have later := List.forall₂_drop zs.length hxs
      rw [List.drop_left] at later
      exact plain_of_children (fun _ _ same => by cases same) (.rel i) (args later)
    | value hv =>
      have open' := (Term.over_hole.1 (Term.over_mk.1 own).1).1
      simp [isAssigned, hv] at open'
  · have notVar : ∀ i, h ≠ .rel i := fun i same => var ⟨i, same⟩
    obtain ⟨h', same⟩ : ∃ h', h.bind f d = .ofHead h' := by
      cases h with
      | rel i => exact absurd rfl (notVar i)
      | _ => exact ⟨_, rfl⟩
    rw [same, Term.ofHead, Term.apply, List.nil_append] at layer
    cases layer with
    | frame unset framed hxs =>
      have children : h.Framed (fun a _ => a.Over s.Suffices → s.Plain a) h :=
        framed_of_bind (fun a d _ h => h.2 a d rfl) same notVar framed
      refine plain_of_children (fun k inst hole => ?_) (children.of_over onHead) (args hxs)
      subst hole
      cases same
      exact unset k _ rfl
    | value hv hinst hw hzs =>
      cases h with
      | rel i => exact absurd rfl (notVar i)
      | hole k inst =>
        cases same
        exact plain_of_bind_value acyclic values hf neutral free hv onHead hinst hw.1 hw.2
          (args hzs)
      | _ => cases same

end

end

/-- Some values are as before. Each of the others has become what it comes down to, or a term equal
to that up to contraction; the former if no abstraction is put for a variable on the way. -/
structure PartlyNormal (s s' : Store) : Prop where
  unset : ∀ k, s.value? k = none → s'.value? k = none
  values : ∀ k v, s.value? k = some v → s'.value? k = some v ∨
    ∃ v' w, s.instantiate? v = some v' ∧ v'.BetaEqual w ∧ (s.Plain v → v' = w) ∧
      s.Instantiated w ∧ s'.value? k = some w

section
variable {s s' s'' : Store}

namespace PartlyNormal

theorem refl (s : Store) : s.PartlyNormal s :=
  ⟨fun _ => id, fun _ _ => .inl⟩

theorem isAssigned_eq (h : s.PartlyNormal s') (k : Nat) : s'.isAssigned k = s.isAssigned k := by
  unfold isAssigned
  cases hv : s.value? k with
  | none => rw [h.unset k hv]
  | some v =>
    rcases h.values k v hv with same | ⟨_, w, _, _, _, _, hw⟩
    · rw [same]
    · rw [hw]
      rfl

theorem instantiated_iff (h : s.PartlyNormal s') {t : Term} :
    s'.Instantiated t ↔ s.Instantiated t := by
  simp only [Instantiated, h.isAssigned_eq]

theorem unset_iff (h : s.PartlyNormal s') {g : Head} (unset : s.Unset g) : s'.Unset g :=
  fun k inst same => h.unset k (unset k inst same)

/-- Up to contraction, a term comes down to the same. -/
theorem comesTo (acyclic : s.Acyclic) (tight : s.WellScoped) (acyclic' : s'.Acyclic)
    (tight' : s'.WellScoped) (h : s.PartlyNormal s') {t t' : Term}
    (ht : s.instantiate? t = some t') : s'.ComesTo t t' := by
  refine instantiate?_induction acyclic (R := s'.ComesTo) ?_ ht
  intro t t' _ layer
  cases layer with
  | frame unset framed hxs =>
    exact comesTo_of_layer acyclic' (.frame (h.unset_iff unset) (framed.mono fun _ _ h => h.2)
      (hxs.imp fun _ _ h => h.2))
  | @value k v xs ys w zs zs' hv hxs hw hzs =>
    have free : ∀ y ∈ ys, s.Instantiated y := instantiated_of_forall₂ (hxs.imp fun _ _ h => h.1)
    have free' : ∀ y ∈ ys, s'.Instantiated y := fun y hy => h.instantiated_iff.2 (free y hy)
    have insts := hxs.imp fun _ _ h => h.2
    have args := hzs.imp fun _ _ h => h.2
    rcases h.values k v hv with same | ⟨v', u, hv', near, -, done, hu⟩
    · -- The value has stayed, and so it is read with the instance as before.
      obtain ⟨v₁, hv₁⟩ := exists_instantiate? acyclic' v
      obtain ⟨w₁, hw₁, near₁⟩ := commutes acyclic' tight'.values k v v₁ ys same hv₁ free'
      obtain ⟨w₂, hw₂, near₂⟩ := hw.2
      obtain rfl := Option.some.inj (hw₁.symm.trans hw₂)
      exact ((commutes acyclic' tight'.values k).comesTo acyclic' same hv₁ insts args).trans
        (.betaApply (near₁.symm.trans near₂) (Term.BetaEqual.forall₂_refl zs'))
    · -- The value was brought to an end before the instance is put in.
      have hu' := instantiate?_of_unassigned (h.instantiated_iff.2 done)
      obtain ⟨w₁, hw₁, near₁⟩ := commutes acyclic tight.values k v v' ys hv hv' free
      obtain rfl := Option.some.inj (hw₁.symm.trans hw.1)
      have inside := Term.BetaEqual.instantiateMany near (Term.BetaEqual.forall₂_refl ys)
      exact ((commutes acyclic' tight'.values k).comesTo acyclic' hu hu' insts args).trans
        (.betaApply (inside.symm.trans near₁.symm) (Term.BetaEqual.forall₂_refl zs'))

/-- A term comes down to the very same, if no abstraction is put for a variable of a value on the
way: then none is put for one in the values that are read. -/
theorem instantiate?_eq (acyclic : s.Acyclic) (tight : s.WellScoped) (acyclic' : s'.Acyclic)
    (h : s.PartlyNormal s') {t t' : Term} (run : s.PlainRun t t') :
    s'.instantiate? t = some t' := by
  refine plainRun_induction (R := fun t t' => s'.instantiate? t = some t') ?_ run
  intro t t' layer
  refine instantiate?_of_layer acyclic' ?_
  cases layer with
  | frame unset framed hxs =>
    exact .frame (h.unset_iff unset) (framed.mono fun _ _ h => h.2) (hxs.imp fun _ _ h => h.2)
  | @value k v xs ys w zs zs' hv hxs hw hzs =>
    obtain ⟨neutral, run, hw⟩ := hw
    have insts := hxs.imp fun _ _ h => h.2
    have args := hzs.imp fun _ _ h => h.2
    rcases h.values k v hv with same | ⟨v', u, hv', -, identical, done, hu⟩
    · exact .value same insts hw args
    · have free : ∀ y ∈ ys, s.Instantiated y :=
        instantiated_of_forall₂ (hxs.imp fun _ _ h => instantiate?_of_plainRun acyclic h.1)
      have moves := Term.movesAlong_putFirst ys
      have neutral := Term.isLam_putFirst neutral
      obtain rfl := identical (plain_of_bind acyclic tight.values moves neutral
        (Term.over_putFirst free) run (tight.values k v hv))
      have later := instantiate?_bind acyclic tight.values moves neutral (Term.over_putFirst free)
        (tight.values k v hv) hv' 0
      have known := Option.some.inj ((instantiate?_of_plainRun acyclic run).symm.trans later)
      have stays : s'.Instantiated (v'.instantiateMany ys) :=
        h.instantiated_iff.2 (Term.over_instantiateMany done free)
      refine .value hu insts ?_ args
      rw [known]
      exact instantiate?_of_unassigned stays

end PartlyNormal

/-! ## One value after the other -/

/-- One more value may be brought to an end. -/
theorem PartlyNormal.step (acyclic : s.Acyclic) (tight : s.WellScoped) (acyclic' : s'.Acyclic)
    (tight' : s'.WellScoped) (h : s.PartlyNormal s') (step : NormalStep s' s'') :
    s.PartlyNormal s'' := by
  obtain ⟨hv, hw⟩ := step
  next k u w =>
  have value := value?_setValue_of_value? hv w
  constructor
  · intro l unset
    have unset' := h.unset l unset
    rw [value, if_neg, unset']
    rintro rfl
    rw [unset'] at hv
    cases hv
  · intro l v known
    rw [value]
    by_cases same : l = k
    · subst same
      rw [if_pos rfl]
      rcases h.values l v known with old | ⟨v', u', hv', near, identical, done, renewed⟩
      · obtain rfl := Option.some.inj (old.symm.trans hv)
        obtain ⟨v', hv'⟩ := exists_instantiate? acyclic v
        obtain ⟨w', hw', near⟩ := h.comesTo acyclic tight acyclic' tight' hv'
        obtain rfl := Option.some.inj (hw'.symm.trans hw)
        refine .inr ⟨v', w', hv', near.symm, ?_,
          h.instantiated_iff.1 (unassigned_of_instantiate? hw), rfl⟩
        rintro ⟨v'', run⟩
        have before := instantiate?_of_plainRun acyclic run
        have after := h.instantiate?_eq acyclic tight acyclic' run
        rw [Option.some.inj (hv'.symm.trans before), Option.some.inj (hw.symm.trans after)]
      · obtain rfl := Option.some.inj (renewed.symm.trans hv)
        obtain rfl := eq_of_instantiate? (h.instantiated_iff.2 done) hw
        exact .inr ⟨v', w, hv', near, identical, done, rfl⟩
    · rw [if_neg same]
      exact h.values l v known

/-- The declaration without the value. -/
def bare (d : Hole) : Hole :=
  { d with value? := none }

/-- What keeps its meaning in the second store, some values of the first having been brought to an
end. -/
structure KeepsMeaning (s s' : Store) : Prop where
  /-- Every term comes down to the same, up to contraction. -/
  equal : ∀ t, ∃ t' t'', s.instantiate? t = some t' ∧ s'.instantiate? t = some t'' ∧
    t'.BetaEqual t''
  /-- It comes down to the very same if no abstraction is put for a variable of a value. -/
  identical : ∀ t, s.Plain t → s'.instantiate? t = s.instantiate? t
  /-- So the question whether two terms have the same instance is answered as before. -/
  verdict : ∀ t u, s.Plain t → s.Plain u → sameInstance? s' t u = sameInstance? s t u
  /-- Such a value is as before, or what it came down to. -/
  values : ∀ k v, s.value? k = some v → s.Plain v →
    s'.value? k = some v ∨ s'.value? k = s.instantiate? v

/-- The equations that are put off have no part in it. -/
theorem KeepsMeaning.of_pending (h : s.KeepsMeaning s') (es : List Equation) :
    s.KeepsMeaning { s' with pending := es } := by
  have instantiate (t : Term) := instantiate?_of_pending s' es t
  refine ⟨fun t => ?_, fun t plain => ?_, fun t u ht hu => ?_, h.values⟩
  · rw [instantiate]
    exact h.equal t
  · rw [instantiate]
    exact h.identical t plain
  · rw [sameInstance?, instantiate, instantiate]
    exact h.verdict t u ht hu

end

open Relation

/-- The value of hole `0` applies hole `1`, and the value of that is its variable. The value of hole
`2` puts an abstraction for the variable. -/
def nested : Store :=
  { slots := [some ⟨1, none, .ordinary, some (.mk (.hole 1 [.rel 0]) [.const "b"])⟩,
      some ⟨1, none, .ordinary, some (.rel 0)⟩,
      some ⟨0, none, .ordinary, some (.hole 0 [.lam (.const "T") (.rel 0)])⟩] }

end Store

end KeyedMatching
