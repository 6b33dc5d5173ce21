import KeyedMatching.Proofs.Equality.Contraction
import KeyedMatching.Proofs.Holes.Layers

/-!
# Putting values for holes and terms for variables

Does it matter whether terms are put for the variables of a term before values are put for its holes
or after? Only as far as contraction goes, if every hole is used with as many arguments as its value
needs:

* `Store.instantiate?_bind`: it does not matter if none of the terms is an abstraction;
* `Store.commutes`: in any case the results are equal up to contraction. A variable at the head of
  an application may be put into the value of a hole, and an abstraction for the variable: only
  what comes in by a value is contracted with the arguments.
-/

namespace KeyedMatching

/-! ## Going through a frame -/

section
variable {α : Type} {R S : Term → Term → Prop} {A : Nat → Nat → Prop}

theorem forall₂_of_over {xs ys : List Term}
    (h : List.Forall₂ (fun x y => x.Over A → R x y) xs ys) (hxs : ∀ x ∈ xs, x.Over A) :
    List.Forall₂ R xs ys := by
  induction h with
  | nil => exact .nil
  | cons hy _ ih =>
    rw [List.forall_mem_cons] at hxs
    exact .cons (hy hxs.1) (ih hxs.2)

theorem Head.Framed.of_over {h g : Head} (framed : Framed (fun a b => a.Over A → R a b) h g)
    (p : (Term.ofHead h).Over A) : Framed R h g := by
  cases framed with
  | rel i => exact .rel i
  | sort n => exact .sort n
  | const c => exact .const c
  | hole hxs => exact .hole (forall₂_of_over hxs (Term.over_hole.1 p).2)
  | pi ha hb => exact .pi (ha (Term.over_pi.1 p).1) (hb (Term.over_pi.1 p).2)
  | lam ha hb => exact .lam (ha (Term.over_lam.1 p).1) (hb (Term.over_lam.1 p).2)
  | letIn hv ha hb =>
    obtain ⟨pa, pv, pb⟩ := Term.over_letIn.1 p
    exact .letIn (hv pv) (ha pa) (hb pb)
  | cast ht ha => exact .cast (ht (Term.over_cast.1 p).2) (ha (Term.over_cast.1 p).1)
  | case hr hc hbs =>
    obtain ⟨pr, pc, pbs⟩ := Term.over_case.1 p
    exact .case (hr pr) (hc pc) (forall₂_of_over hbs pbs)
  | fix has hbs =>
    obtain ⟨pas, pbs⟩ := Term.over_fix.1 p
    exact .fix (forall₂_of_over has pas) (forall₂_of_over hbs pbs)

/-- What is related in two steps has something between. -/
theorem exists_forall₂_of_comp {R S : α → α → Prop} {xs zs : List α}
    (h : List.Forall₂ (fun x z => ∃ y, R x y ∧ S y z) xs zs) :
    ∃ ys, List.Forall₂ R xs ys ∧ List.Forall₂ S ys zs := by
  induction h with
  | nil => exact ⟨[], .nil, .nil⟩
  | cons hx _ ih =>
    obtain ⟨y, hxy, hyz⟩ := hx
    obtain ⟨ys, hxs, hys⟩ := ih
    exact ⟨y :: ys, .cons hxy hxs, .cons hyz hys⟩

theorem Head.Framed.exists_of_comp {f h : Head}
    (framed : Framed (fun a c => ∃ b, R a b ∧ S b c) f h) : ∃ g, Framed R f g ∧ Framed S g h := by
  cases framed with
  | rel i => exact ⟨_, .rel i, .rel i⟩
  | sort n => exact ⟨_, .sort n, .sort n⟩
  | const c => exact ⟨_, .const c, .const c⟩
  | hole hxs =>
    obtain ⟨ys, hxs, hys⟩ := exists_forall₂_of_comp hxs
    exact ⟨_, .hole hxs, .hole hys⟩
  | pi ha hb =>
    obtain ⟨_, ha, ha'⟩ := ha
    obtain ⟨_, hb, hb'⟩ := hb
    exact ⟨_, .pi ha hb, .pi ha' hb'⟩
  | lam ha hb =>
    obtain ⟨_, ha, ha'⟩ := ha
    obtain ⟨_, hb, hb'⟩ := hb
    exact ⟨_, .lam ha hb, .lam ha' hb'⟩
  | letIn hv ha hb =>
    obtain ⟨_, hv, hv'⟩ := hv
    obtain ⟨_, ha, ha'⟩ := ha
    obtain ⟨_, hb, hb'⟩ := hb
    exact ⟨_, .letIn hv ha hb, .letIn hv' ha' hb'⟩
  | cast ht ha =>
    obtain ⟨_, ht, ht'⟩ := ht
    obtain ⟨_, ha, ha'⟩ := ha
    exact ⟨_, .cast ht ha, .cast ht' ha'⟩
  | case hr hc hbs =>
    obtain ⟨_, hr, hr'⟩ := hr
    obtain ⟨_, hc, hc'⟩ := hc
    obtain ⟨_, hbs, hbs'⟩ := exists_forall₂_of_comp hbs
    exact ⟨_, .case hr hc hbs, .case hr' hc' hbs'⟩
  | fix has hbs =>
    obtain ⟨_, has, has'⟩ := exists_forall₂_of_comp has
    obtain ⟨_, hbs, hbs'⟩ := exists_forall₂_of_comp hbs
    exact ⟨_, .fix has hbs, .fix has' hbs'⟩

end

namespace Store

/-! ## Instances and their values -/

/-- No assigned hole is left in the term. -/
abbrev Instantiated (s : Store) (t : Term) : Prop :=
  t.Over fun k _ => s.isAssigned k = false

/-- An instance of `n` arguments has one for every variable that the value of hole `k` uses. -/
def Suffices (s : Store) (k n : Nat) : Prop :=
  ∀ v, s.value? k = some v → v.Scoped n

/-- Hole `k` is used with `n` arguments as it is declared, if it is. -/
def Suits (s : Store) (k n : Nat) : Prop :=
  ∀ d, s.hole? k = some d → d.arity = n

/-- Every value uses only the variables that its hole has, and uses holes as they are declared. -/
structure WellScoped (s : Store) : Prop where
  arity : ∀ k d v, s.hole? k = some d → d.value? = some v → ∀ i ∈ v.freeRels, i < d.arity
  suits : ∀ k v, s.value? k = some v → v.Over s.Suits

section
variable {s : Store}

theorem WellScoped.scoped_value (tight : s.WellScoped) {k n : Nat} {v : Term} (suits : s.Suits k n)
    (hv : s.value? k = some v) : v.Scoped n := by
  obtain ⟨d, hd, hdv⟩ := Option.bind_eq_some_iff.1 hv
  rw [← suits d hd]
  exact Term.scoped_iff.2 (tight.arity k d v hd hdv)

theorem WellScoped.over_suffices (tight : s.WellScoped) {t : Term} (p : t.Over s.Suits) :
    t.Over s.Suffices :=
  p.mono fun _ _ suits _ hv => tight.scoped_value suits hv

theorem WellScoped.values (tight : s.WellScoped) (k : Nat) (v : Term) (hv : s.value? k = some v) :
    v.Over s.Suffices :=
  tight.over_suffices (tight.suits k v hv)

theorem Instantiated.over_suffices {t : Term} (p : s.Instantiated t) : t.Over s.Suffices := by
  refine p.mono fun k _ unset v hv => ?_
  simp [isAssigned, hv] at unset

theorem instantiated_of_forall₂ {xs ys : List Term}
    (h : List.Forall₂ (fun x y => s.instantiate? x = some y) xs ys) : ∀ y ∈ ys, s.Instantiated y :=
  forall_right_of_forall₂ (h.imp fun _ _ h => unassigned_of_instantiate? h)

/-- The children of a term without assigned holes stay as they are. -/
theorem Instantiated.children {h : Head} {xs : List Term} (p : s.Instantiated (.mk h xs)) :
    s.Unset h ∧ h.Framed (fun a b => s.instantiate? a = some b) h ∧
      List.Forall₂ (fun a b => s.instantiate? a = some b) xs xs := by
  obtain ⟨t', same, ht'⟩ : ∃ t', Term.mk h xs = t' ∧ s.instantiate? (.mk h xs) = some t' :=
    ⟨_, rfl, instantiate?_of_unassigned p⟩
  cases layer_of_instantiateWithin ht' with
  | frame unset framed hxs =>
    obtain ⟨rfl, rfl⟩ := Term.mk.inj same
    exact ⟨unset, framed, hxs⟩
  | value hv =>
    have own := (Term.over_hole.1 (Term.over_mk.1 p).1).1
    simp [isAssigned, hv] at own

end

/-! ## A binding in a layer -/

section
variable {s : Store} {f : Nat → Nat → Term} {Q : Term → Term → Prop}
  {N : List Term → Term → Term → Prop}

/-- A binding on either side leaves a frame one, with the children bound. -/
theorem framed_bind {f' : Nat → Nat → Term} {h g : Head} (unset : s.Unset h)
    (framed : h.Framed (fun a b => ∀ d, Q (a.bind f d) (b.bind f' d)) g)
    (notVar : ∀ i, h ≠ .rel i) (d : Nat) :
    ∃ h' g', h.bind f d = .ofHead h' ∧ g.bind f' d = .ofHead g' ∧ s.Unset h' ∧ h'.Framed Q g' := by
  have other {h' : Head} (shape : h'.shape ≠ .hole) : s.Unset h' := by
    rintro k inst rfl
    exact absurd rfl shape
  cases framed with
  | rel i => exact absurd rfl (notVar i)
  | sort n => exact ⟨_, _, rfl, rfl, unset, .sort n⟩
  | const c => exact ⟨_, _, rfl, rfl, unset, .const c⟩
  | @hole k xs ys hxs =>
    refine ⟨_, _, rfl, rfl, ?_, .hole (forall₂_bindAll hxs d)⟩
    rintro l inst same
    obtain ⟨rfl, -⟩ := Head.hole.inj same
    exact unset k xs rfl
  | pi ha hb => exact ⟨_, _, rfl, rfl, other (by simp [Head.shape]), .pi (ha d) (hb (d + 1))⟩
  | lam ha hb => exact ⟨_, _, rfl, rfl, other (by simp [Head.shape]), .lam (ha d) (hb (d + 1))⟩
  | letIn hv ha hb =>
    exact ⟨_, _, rfl, rfl, other (by simp [Head.shape]), .letIn (hv d) (ha d) (hb (d + 1))⟩
  | cast ht ha => exact ⟨_, _, rfl, rfl, other (by simp [Head.shape]), .cast (ht d) (ha d)⟩
  | case hr hc hbs =>
    exact ⟨_, _, rfl, rfl, other (by simp [Head.shape]),
      .case (hr d) (hc d) (forall₂_bindAll hbs d)⟩
  | @fix i as as' bs bs' has hbs =>
    refine ⟨_, .fix i (Term.bindAll f' d as') (Term.bindAll f' (d + as.length) bs'), rfl, ?_,
      other (by simp [Head.shape]), .fix (forall₂_bindAll has d) (forall₂_bindAll hbs _)⟩
    rw [has.length_eq]
    rfl

/-- A binding goes into a layer at a head that is no assigned hole, if the terms put in stay as they
are. -/
theorem layer_bind (free : ∀ d i, s.Instantiated (f d i))
    (stays : ∀ a b, s.instantiate? a = some b → Q a b)
    {h g : Head} {xs ys : List Term} (unset : s.Unset h)
    (framed : h.Framed (fun a b => ∀ d, Q (a.bind f d) (b.bind f d)) g)
    (hxs : List.Forall₂ (fun a b => ∀ d, Q (a.bind f d) (b.bind f d)) xs ys) (d : Nat) :
    s.Layer Q N ((Term.mk h xs).bind f d) ((Term.mk g ys).bind f d) := by
  have args := forall₂_bindAll hxs d
  rw [Term.bind, Term.bind]
  by_cases var : ∃ i, h = .rel i
  · obtain ⟨i, rfl⟩ := var
    cases framed with
    | rel =>
      rw [Head.bind]
      have own := free d i
      generalize f d i = t at own
      obtain ⟨h', zs⟩ := t
      obtain ⟨unset', framed', hzs⟩ := own.children
      exact .frame unset' (framed'.mono stays) (List.rel_append (hzs.imp stays) args)
  · obtain ⟨h', g', hh, hg, unset', framed'⟩ :=
      framed_bind unset framed (fun i same => var ⟨i, same⟩) d
    rw [hh, hg]
    exact .frame unset' framed' args

end

section
variable {s : Store} {f : Nat → Nat → Term}

/-! ## No abstraction is put in -/

/-- Terms that are no abstractions can be put for variables before values are put for holes, or
after. -/
theorem instantiate?_bind (acyclic : s.Acyclic)
    (values : ∀ k v, s.value? k = some v → v.Over s.Suffices) (hf : Term.MovesAlong f)
    (neutral : ∀ d i, (f d i).isLam = false) (free : ∀ d i, s.Instantiated (f d i)) {t t' : Term}
    (p : t.Over s.Suffices) (h : s.instantiate? t = some t') (d : Nat) :
    s.instantiate? (t.bind f d) = some (t'.bind f d) := by
  refine instantiate?_induction acyclic
    (R := fun t t' => t.Over s.Suffices → ∀ d, s.instantiate? (t.bind f d) = some (t'.bind f d))
    ?_ h p d
  intro t t' _ layer p d
  refine instantiate?_of_layer acyclic ?_
  cases layer with
  | frame unset framed hxs =>
    obtain ⟨onHead, onArgs⟩ := Term.over_mk.1 p
    have children := (framed.mono fun _ _ h => h.2).of_over onHead
    exact layer_bind free (fun _ _ h => h) unset children
      (forall₂_of_over (hxs.imp fun _ _ h => h.2) onArgs) d
  | @value k v xs ys w zs zs' hv hxs hw hzs =>
    obtain ⟨onHead, onArgs⟩ := Term.over_mk.1 p
    obtain ⟨own, onInst⟩ := Term.over_hole.1 onHead
    have all {xs ys : List Term} (h : List.Forall₂ (fun x y => s.instantiate? x = some y ∧
        (x.Over s.Suffices → ∀ d, s.instantiate? (x.bind f d) = some (y.bind f d))) xs ys)
        (p : ∀ x ∈ xs, x.Over s.Suffices) :
        List.Forall₂ (fun x y => s.instantiate? x = some y) (Term.bindAll f d xs)
          (Term.bindAll f d ys) :=
      forall₂_bindAll (forall₂_of_over (h.imp fun _ _ h => h.2) p) d
    have fits : v.Scoped ys.length := hxs.length_eq ▸ own v hv
    have instantiated := instantiated_of_forall₂ (hxs.imp fun _ _ h => h.1)
    have inside := hw.2 (Term.over_instantiateMany (values k v hv)
      fun y hy => (instantiated y hy).over_suffices) d
    rw [hf.bind_instantiateMany fits, ← Term.bindAll_eq_map] at inside
    rw [hf.bind_betaApply neutral, ← Term.bindAll_eq_map]
    exact .value hv (all hxs onInst) inside (all hzs onArgs)

/-! ## Abstractions may be put in -/

/-- Whatever instance is put into the value of hole `k`, it may as well be put into what the value
comes down to, up to contraction. -/
def Commutes (s : Store) (k : Nat) : Prop :=
  ∀ v v' ys, s.value? k = some v → s.instantiate? v = some v' → (∀ y ∈ ys, s.Instantiated y) →
    ∃ w, s.instantiate? (v.instantiateMany ys) = some w ∧ w.BetaEqual (v'.instantiateMany ys)

/-- The term comes down to one that is equal up to contraction. -/
def ComesTo (s : Store) (t t' : Term) : Prop :=
  ∃ u, s.instantiate? t = some u ∧ u.BetaEqual t'

theorem comesTo_of_instantiate? {t t' : Term} (h : s.instantiate? t = some t') : s.ComesTo t t' :=
  ⟨t', h, .refl t'⟩

theorem ComesTo.trans {t t' t'' : Term} (h : s.ComesTo t t') (h' : t'.BetaEqual t'') :
    s.ComesTo t t'' := by
  obtain ⟨u, hu, near⟩ := h
  exact ⟨u, hu, near.trans h'⟩

/-- Children that come down to equal ones make terms that do. -/
theorem comesTo_of_layer (acyclic : s.Acyclic) {t t' : Term}
    (h : s.Layer s.ComesTo (fun _ _ _ => False) t t') : s.ComesTo t t' := by
  cases h with
  | frame unset framed hxs =>
    obtain ⟨g, hg, heads⟩ := framed.exists_of_comp
    obtain ⟨ys, hys, args⟩ := exists_forall₂_of_comp hxs
    exact ⟨_, instantiate?_of_layer acyclic (.frame unset hg hys), .framed heads args⟩
  | value _ _ no => exact no.elim

/-- Instances and arguments that come down to equal ones may be put into what a value comes down
to. -/
theorem Commutes.comesTo (acyclic : s.Acyclic) {k : Nat} (commutes : s.Commutes k) {v v' : Term}
    {xs ys zs zs' : List Term} (hv : s.value? k = some v) (hv' : s.instantiate? v = some v')
    (hxs : List.Forall₂ s.ComesTo xs ys) (hzs : List.Forall₂ s.ComesTo zs zs') :
    s.ComesTo (.mk (.hole k xs) zs) ((v'.instantiateMany ys).betaApply zs') := by
  obtain ⟨us, hus, insts⟩ := exists_forall₂_of_comp hxs
  obtain ⟨ts, hts, args⟩ := exists_forall₂_of_comp hzs
  obtain ⟨w, hw, near⟩ := commutes v v' us hv hv' (instantiated_of_forall₂ hus)
  refine ⟨_, instantiate?_of_layer acyclic (.value hv hus hw hts), .betaApply ?_ args⟩
  exact near.trans (.instantiateMany (.refl v') insts)

theorem comesTo_bind_of_commutes (acyclic : s.Acyclic)
    (values : ∀ k v, s.value? k = some v → v.Over s.Suffices) (hf : Term.MovesAlong f)
    (free : ∀ d i, s.Instantiated (f d i)) {t t' : Term}
    (p : t.Over fun k n => s.Suffices k n ∧ s.Commutes k) (h : s.instantiate? t = some t')
    (d : Nat) : s.ComesTo (t.bind f d) (t'.bind f d) := by
  refine instantiate?_induction acyclic
    (R := fun t t' => (t.Over fun k n => s.Suffices k n ∧ s.Commutes k) →
      ∀ d, s.ComesTo (t.bind f d) (t'.bind f d)) ?_ h p d
  intro t t' _ layer p d
  cases layer with
  | frame unset framed hxs =>
    obtain ⟨onHead, onArgs⟩ := Term.over_mk.1 p
    have children := (framed.mono fun _ _ h => h.2).of_over onHead
    exact comesTo_of_layer acyclic (layer_bind free (fun _ _ => comesTo_of_instantiate?) unset
      children (forall₂_of_over (hxs.imp fun _ _ h => h.2) onArgs) d)
  | @value k v xs ys w zs zs' hv hxs hw hzs =>
    obtain ⟨onHead, onArgs⟩ := Term.over_mk.1 p
    obtain ⟨⟨own, commutes⟩, onInst⟩ := Term.over_hole.1 onHead
    obtain ⟨v', hv'⟩ := exists_instantiate? acyclic v
    have fits : v'.Scoped ys.length := by
      rw [← hxs.length_eq]
      exact scoped_of_instantiate? (fun k _ u enough hu => ⟨values k u hu, enough u hu⟩)
        (values k v hv) (own v hv) hv'
    have bound := commutes.comesTo acyclic hv hv'
      (forall₂_bindAll (forall₂_of_over (hxs.imp fun _ _ h => h.2) onInst) d)
      (forall₂_bindAll (forall₂_of_over (hzs.imp fun _ _ h => h.2) onArgs) d)
    -- Without the binding, too, the instance may be put into what the value comes down to.
    obtain ⟨w', hw', near⟩ :=
      commutes v v' ys hv hv' (instantiated_of_forall₂ (hxs.imp fun _ _ h => h.1))
    obtain rfl := Option.some.inj (hw'.symm.trans hw.1)
    have inside := near.bind hf d
    rw [hf.bind_instantiateMany fits, ← Term.bindAll_eq_map] at inside
    refine bound.trans ?_
    exact (Term.BetaEqual.betaApply inside.symm (Term.BetaEqual.forall₂_refl _)).trans
      (Term.BetaEqual.bind_betaApply hf w' zs' d).symm

/-- In an acyclic store an instance may be put into every value, or into what the value comes down
to: the results are equal up to contraction. -/
theorem commutes (acyclic : s.Acyclic) (values : ∀ k v, s.value? k = some v → v.Over s.Suffices)
    (k : Nat) : s.Commutes k := by
  induction size : (s.below k).card using Nat.strongRecOn generalizing k with
  | ind n ih =>
    intro v v' ys hv hv' free
    have below : v.Over fun l n => s.Suffices l n ∧ s.Commutes l := by
      refine (values k v hv).and_holes fun l hl => ih _ ?_ l rfl
      rw [← size]
      exact card_below_lt acyclic ⟨v, hv, hl⟩
    exact comesTo_bind_of_commutes acyclic values (Term.movesAlong_putFirst ys)
      (Term.over_putFirst free) below hv' 0

end

/-! ## What putting values in comes to -/

/-- A term that can be contracted forever. -/
def selfApplied : Term :=
  let twice := Term.lam (.sort 1) (.mk (.rel 0) [.rel 0])
  twice.apply [twice]

end Store

end KeyedMatching
