import KeyedMatching.Holes.Instantiation
import KeyedMatching.Proofs.Holes.Discipline
import KeyedMatching.Proofs.Term.Framed

/-!
# What putting values for holes does

`Store.Fills s R` lists the rules by which a relation `R` follows the values of `s`: it goes through
every construction, and an assigned hole goes to its value, its instance put in and the rest of the
spine contracted. `Store.Fills.of_instantiate?` is the induction: such a relation holds between a
term and what `Store.instantiate?` makes of it.

* `Store.fillHead_iff`: a head is treated child by child;
* `Store.unassigned_of_instantiate?`: no assigned hole is left;
* `Store.over_of_instantiate?`: no hole comes in but those of the values;
* `Store.eq_of_instantiate?`: a term without assigned holes stays as it is.
-/

namespace KeyedMatching

namespace Store

/-! ## Heads -/

section
variable {s : Store} {again : Term → Option Term}

theorem fillAll_iff {xs ys : List Term} :
    s.fillAll again xs = some ys ↔ List.Forall₂ (fun x y => s.fill again x = some y) xs ys := by
  induction xs generalizing ys with
  | nil =>
    rw [List.forall₂_nil_left_iff, fillAll, Option.some.injEq]
    exact eq_comm
  | cons x xs ih =>
    simp only [fillAll, Option.bind_eq_bind, Option.bind_eq_some_iff, Option.pure_def,
      Option.some.injEq, ih, List.forall₂_cons_left_iff]
    constructor
    · rintro ⟨y, hy, zs, hzs, rfl⟩
      exact ⟨y, zs, hy, hzs, rfl⟩
    · rintro ⟨y, zs, hy, hzs, rfl⟩
      exact ⟨y, hy, zs, hzs, rfl⟩

/-- A head is treated child by child. -/
theorem fillHead_iff {h g : Head} :
    s.fillHead again h = some g ↔ h.Framed (fun t t' => s.fill again t = some t') g := by
  constructor
  · intro hg
    cases h <;>
      simp only [fillHead, Option.bind_eq_bind, Option.bind_eq_some_iff, Option.pure_def,
        Option.some.injEq] at hg
    case rel i => exact hg ▸ .rel i
    case sort n => exact hg ▸ .sort n
    case const c => exact hg ▸ .const c
    case hole k xs =>
      obtain ⟨ys, hys, rfl⟩ := hg
      exact .hole (fillAll_iff.1 hys)
    case pi a b =>
      obtain ⟨a', ha, b', hb, rfl⟩ := hg
      exact .pi ha hb
    case lam a b =>
      obtain ⟨a', ha, b', hb, rfl⟩ := hg
      exact .lam ha hb
    case letIn v a b =>
      obtain ⟨a', ha, v', hv, b', hb, rfl⟩ := hg
      exact .letIn hv ha hb
    case cast t a =>
      obtain ⟨a', ha, t', ht, rfl⟩ := hg
      exact .cast ht ha
    case case r c bs =>
      obtain ⟨r', hr, c', hc, bs', hbs, rfl⟩ := hg
      exact .case hr hc (fillAll_iff.1 hbs)
    case fix i as bs =>
      obtain ⟨as', has, bs', hbs, rfl⟩ := hg
      exact .fix (fillAll_iff.1 has) (fillAll_iff.1 hbs)
  · intro framed
    cases framed with
    | rel i => rfl
    | sort n => rfl
    | const c => rfl
    | hole hxs => rw [fillHead, fillAll_iff.2 hxs]; rfl
    | pi ha hb => rw [fillHead, ha, hb]; rfl
    | lam ha hb => rw [fillHead, ha, hb]; rfl
    | letIn hv ha hb => rw [fillHead, hv, ha, hb]; rfl
    | cast ht ha => rw [fillHead, ht, ha]; rfl
    | case hr hc hbs => rw [fillHead, hr, hc, fillAll_iff.2 hbs]; rfl
    | fix has hbs => rw [fillHead, fillAll_iff.2 has, fillAll_iff.2 hbs]; rfl

end

/-! ## Following the values -/

/-- The rules of putting values for holes. -/
structure Fills (s : Store) (R : Term → Term → Prop) : Prop where
  rel (i : Nat) : R (.rel i) (.rel i)
  sort (n : Nat) : R (.sort n) (.sort n)
  const (c : String) : R (.const c) (.const c)
  hole {k xs ys} : s.value? k = none → List.Forall₂ R xs ys → R (.hole k xs) (.hole k ys)
  pi {a a' b b'} : R a a' → R b b' → R (.pi a b) (.pi a' b')
  lam {a a' b b'} : R a a' → R b b' → R (.lam a b) (.lam a' b')
  letIn {v v' a a' b b'} : R v v' → R a a' → R b b' →
    R (.ofHead (.letIn v a b)) (.ofHead (.letIn v' a' b'))
  cast {t t' a a'} : R t t' → R a a' → R (.ofHead (.cast t a)) (.ofHead (.cast t' a'))
  case {r r' c c' bs bs'} : R r r' → R c c' → List.Forall₂ R bs bs' →
    R (.ofHead (.case r c bs)) (.ofHead (.case r' c' bs'))
  fix {i as as' bs bs'} : List.Forall₂ R as as' → List.Forall₂ R bs bs' →
    R (.ofHead (.fix i as bs)) (.ofHead (.fix i as' bs'))
  spine {h g xs ys} : R (.ofHead h) (.ofHead g) → List.Forall₂ R xs ys → R (.mk h xs) (.mk g ys)
  value {k xs ys v w zs zs'} : s.value? k = some v → List.Forall₂ R xs ys →
    R (v.instantiateMany ys) w → List.Forall₂ R zs zs' →
    R (.mk (.hole k xs) zs) (w.betaApply zs')

section
variable {s : Store} {R : Term → Term → Prop} {again : Term → Option Term}

/-- What `Store.fillHead` makes of a head: a hole of which the instance was treated, or another
head that is related already. -/
def Fills.OnHead (R : Term → Term → Prop) (h g : Head) : Prop :=
  match h with
  | .hole k xs => ∃ ys, g = .hole k ys ∧ List.Forall₂ R xs ys
  | _ => g.shape ≠ .hole ∧ R (.ofHead h) (.ofHead g)

mutual

theorem Fills.of_fillHead (rules : s.Fills R)
    (hagain : ∀ t t', again t = some t' → R t t') :
    (h : Head) → (g : Head) → s.fillHead again h = some g → Fills.OnHead R h g
  | .rel i, g, hg => by
    obtain rfl := Option.some.inj hg
    exact ⟨by simp [Head.shape], rules.rel i⟩
  | .sort n, g, hg => by
    obtain rfl := Option.some.inj hg
    exact ⟨by simp [Head.shape], rules.sort n⟩
  | .const c, g, hg => by
    obtain rfl := Option.some.inj hg
    exact ⟨by simp [Head.shape], rules.const c⟩
  | .hole k xs, g, hg => by
    cases fillHead_iff.1 hg with
    | hole hys => exact ⟨_, rfl, Fills.of_fillAll rules hagain xs _ (fillAll_iff.2 hys)⟩
  | .pi a b, g, hg => by
    cases fillHead_iff.1 hg with
    | pi ha hb =>
      exact ⟨by simp [Head.shape], rules.pi (Fills.of_fill rules hagain a _ ha)
        (Fills.of_fill rules hagain b _ hb)⟩
  | .lam a b, g, hg => by
    cases fillHead_iff.1 hg with
    | lam ha hb =>
      exact ⟨by simp [Head.shape], rules.lam (Fills.of_fill rules hagain a _ ha)
        (Fills.of_fill rules hagain b _ hb)⟩
  | .letIn v a b, g, hg => by
    cases fillHead_iff.1 hg with
    | letIn hv ha hb =>
      exact ⟨by simp [Head.shape], rules.letIn (Fills.of_fill rules hagain v _ hv)
        (Fills.of_fill rules hagain a _ ha) (Fills.of_fill rules hagain b _ hb)⟩
  | .cast t a, g, hg => by
    cases fillHead_iff.1 hg with
    | cast ht ha =>
      exact ⟨by simp [Head.shape], rules.cast (Fills.of_fill rules hagain t _ ht)
        (Fills.of_fill rules hagain a _ ha)⟩
  | .case r c bs, g, hg => by
    cases fillHead_iff.1 hg with
    | case hr hc hbs =>
      exact ⟨by simp [Head.shape], rules.case (Fills.of_fill rules hagain r _ hr)
        (Fills.of_fill rules hagain c _ hc)
        (Fills.of_fillAll rules hagain bs _ (fillAll_iff.2 hbs))⟩
  | .fix i as bs, g, hg => by
    cases fillHead_iff.1 hg with
    | fix has hbs =>
      exact ⟨by simp [Head.shape],
        rules.fix (Fills.of_fillAll rules hagain as _ (fillAll_iff.2 has))
          (Fills.of_fillAll rules hagain bs _ (fillAll_iff.2 hbs))⟩

theorem Fills.of_fill (rules : s.Fills R) (hagain : ∀ t t', again t = some t' → R t t') :
    (t : Term) → (t' : Term) → s.fill again t = some t' → R t t'
  | .mk h xs, t', ht => by
    simp only [fill, Option.bind_eq_bind, Option.bind_eq_some_iff] at ht
    obtain ⟨g, hg, ys, hys, ht⟩ := ht
    have onHead := Fills.of_fillHead rules hagain h g hg
    have onArgs := Fills.of_fillAll rules hagain xs ys hys
    split at ht
    · next k inst =>
      cases h with
      | hole l zs =>
        obtain ⟨inst', eq, onInst⟩ := onHead
        obtain ⟨rfl, rfl⟩ := Head.hole.inj eq
        split at ht
        · next v hv =>
          obtain ⟨w, hw, ht⟩ := Option.bind_eq_some_iff.1 ht
          obtain rfl := Option.some.inj ht
          exact rules.value hv onInst (hagain _ _ hw) onArgs
        · next hv =>
          obtain rfl := Option.some.inj ht
          exact rules.spine (rules.hole hv onInst) onArgs
      | _ => exact absurd rfl onHead.1
    · next other =>
      obtain rfl := Option.some.inj ht
      cases h with
      | hole l zs =>
        obtain ⟨inst', eq, _⟩ := onHead
        exact absurd eq (other l inst')
      | _ => exact rules.spine onHead.2 onArgs

theorem Fills.of_fillAll (rules : s.Fills R) (hagain : ∀ t t', again t = some t' → R t t') :
    (xs : List Term) → (ys : List Term) → s.fillAll again xs = some ys → List.Forall₂ R xs ys
  | [], ys, hys => by
    obtain rfl := Option.some.inj hys
    exact .nil
  | x :: xs, ys, hys => by
    simp only [fillAll, Option.bind_eq_bind, Option.bind_eq_some_iff, Option.pure_def,
      Option.some.injEq] at hys
    obtain ⟨y, hy, zs, hzs, rfl⟩ := hys
    exact .cons (Fills.of_fill rules hagain x y hy) (Fills.of_fillAll rules hagain xs zs hzs)

end

theorem Fills.of_instantiateWithin (rules : s.Fills R) (n : Nat) {t t' : Term}
    (h : s.instantiateWithin n t = some t') : R t t' := by
  induction n generalizing t t' with
  | zero => exact Fills.of_fill rules (fun _ _ h => by cases h) t t' h
  | succ n ih => exact Fills.of_fill rules (fun _ _ h => ih h) t t' h

/-- A relation that follows the values holds between a term and the term with its values put in. -/
theorem Fills.of_instantiate? (rules : s.Fills R) {t t' : Term} (h : s.instantiate? t = some t') :
    R t t' :=
  Fills.of_instantiateWithin rules _ h

end

/-! ## Stores with the same values -/

section
variable {s s' : Store} {again : Term → Option Term}

mutual

theorem fillHead_congr (same : ∀ k, s.value? k = s'.value? k) :
    (h : Head) → s.fillHead again h = s'.fillHead again h
  | .rel _ => rfl
  | .sort _ => rfl
  | .const _ => rfl
  | .hole k xs => by simp only [fillHead, fillAll_congr same xs]
  | .pi a b => by simp only [fillHead, fill_congr same a, fill_congr same b]
  | .lam a b => by simp only [fillHead, fill_congr same a, fill_congr same b]
  | .letIn v a b => by
    simp only [fillHead, fill_congr same v, fill_congr same a, fill_congr same b]
  | .cast t a => by simp only [fillHead, fill_congr same t, fill_congr same a]
  | .case r c bs => by
    simp only [fillHead, fill_congr same r, fill_congr same c, fillAll_congr same bs]
  | .fix i as bs => by simp only [fillHead, fillAll_congr same as, fillAll_congr same bs]

theorem fill_congr (same : ∀ k, s.value? k = s'.value? k) :
    (t : Term) → s.fill again t = s'.fill again t
  | .mk h xs => by simp only [fill, fillHead_congr same h, fillAll_congr same xs, same]

theorem fillAll_congr (same : ∀ k, s.value? k = s'.value? k) :
    (xs : List Term) → s.fillAll again xs = s'.fillAll again xs
  | [] => rfl
  | x :: xs => by simp only [fillAll, fill_congr same x, fillAll_congr same xs]

end

/-- Only the values matter, and the number of holes. -/
theorem instantiate?_congr (same : ∀ k, s.value? k = s'.value? k)
    (size : s.slots.length = s'.slots.length) (t : Term) :
    s.instantiate? t = s'.instantiate? t := by
  have within (n : Nat) : s.instantiateWithin n = s'.instantiateWithin n := by
    induction n with
    | zero =>
      funext t
      exact fill_congr same t
    | succ n ih =>
      funext t
      simp only [instantiateWithin, ih]
      exact fill_congr same t
  rw [instantiate?, instantiate?, size, within]

theorem instantiate?_of_pending (s : Store) (es : List Equation) (t : Term) :
    ({ s with pending := es } : Store).instantiate? t = s.instantiate? t := by
  refine instantiate?_congr (fun k => ?_) ?_ t <;> rfl

theorem instantiate?_freeze (s : Store) (scope : Scope) (t : Term) :
    (s.freeze scope).instantiate? t = s.instantiate? t := by
  refine instantiate?_congr (fun k => ?_) ?_ t <;> rfl

end

/-! ## What is left and what comes in -/

section
variable {s : Store} {t t' : Term}

theorem forall_right_of_forall₂ {P : Term → Prop} {xs ys : List Term}
    (h : List.Forall₂ (fun _ y => P y) xs ys) : ∀ y ∈ ys, P y := by
  induction h with
  | nil => simp
  | cons hy _ ih => exact List.forall_mem_cons.2 ⟨hy, ih⟩

theorem forall_right_of_imp {α : Type} {P : α → Prop} {xs ys : List α}
    (h : List.Forall₂ (fun x y => P x → P y) xs ys) (hxs : ∀ x ∈ xs, P x) : ∀ y ∈ ys, P y := by
  induction h with
  | nil => simp
  | cons hy _ ih =>
    rw [List.forall_mem_cons] at hxs ⊢
    exact ⟨hy hxs.1, ih hxs.2⟩

theorem fills_unassigned (s : Store) :
    s.Fills fun _ t' => t'.Over fun k _ => s.isAssigned k = false := by
  refine ⟨fun _ => Term.over_rel _, fun _ => Term.over_sort _, fun _ => Term.over_const _,
    ?_, ?_, ?_, ?_, ?_, ?_, ?_, ?_, ?_⟩
  · intro k xs ys open' hys
    exact Term.over_hole.2 ⟨by simp [isAssigned, open'], forall_right_of_forall₂ hys⟩
  · exact fun ha hb => Term.over_pi.2 ⟨ha, hb⟩
  · exact fun ha hb => Term.over_lam.2 ⟨ha, hb⟩
  · exact fun hv ha hb => Term.over_letIn.2 ⟨ha, hv, hb⟩
  · exact fun ht ha => Term.over_cast.2 ⟨ha, ht⟩
  · exact fun hr hc hbs => Term.over_case.2 ⟨hr, hc, forall_right_of_forall₂ hbs⟩
  · exact fun has hbs =>
      Term.over_fix.2 ⟨forall_right_of_forall₂ has, forall_right_of_forall₂ hbs⟩
  · exact fun hg hys => Term.over_mk.2 ⟨hg, forall_right_of_forall₂ hys⟩
  · exact fun _ _ hw hzs => Term.over_betaApply hw (forall_right_of_forall₂ hzs)

/-- No assigned hole is left in a term with its values put in. -/
theorem unassigned_of_instantiate? (h : s.instantiate? t = some t') :
    t'.Over fun k _ => s.isAssigned k = false :=
  (fills_unassigned s).of_instantiate? h

theorem fills_over {A : Nat → Nat → Prop}
    (values : ∀ k n v, A k n → s.value? k = some v → v.Over A) :
    s.Fills fun t t' => t.Over A → t'.Over A := by
  refine ⟨fun _ => id, fun _ => id, fun _ => id, ?_, ?_, ?_, ?_, ?_, ?_, ?_, ?_, ?_⟩
  · intro k xs ys _ hys q
    rw [Term.over_hole] at q ⊢
    exact ⟨hys.length_eq ▸ q.1, forall_right_of_imp hys q.2⟩
  · exact fun ha hb q => Term.over_pi.2 ((Term.over_pi.1 q).imp ha hb)
  · exact fun ha hb q => Term.over_lam.2 ((Term.over_lam.1 q).imp ha hb)
  · exact fun hv ha hb q => Term.over_letIn.2 ((Term.over_letIn.1 q).imp ha (And.imp hv hb))
  · exact fun ht ha q => Term.over_cast.2 ((Term.over_cast.1 q).imp ha ht)
  · exact fun hr hc hbs q =>
      Term.over_case.2 ((Term.over_case.1 q).imp hr (And.imp hc (forall_right_of_imp hbs)))
  · exact fun has hbs q =>
      Term.over_fix.2 ((Term.over_fix.1 q).imp (forall_right_of_imp has) (forall_right_of_imp hbs))
  · exact fun hg hys q => Term.over_mk.2 ((Term.over_mk.1 q).imp hg (forall_right_of_imp hys))
  · intro k xs ys v w zs zs' hv hys hw hzs q
    obtain ⟨hole, args⟩ := Term.over_mk.1 q
    obtain ⟨own, inst⟩ := Term.over_hole.1 hole
    exact Term.over_betaApply
      (hw (Term.over_instantiateMany (values k _ v own hv) (forall_right_of_imp hys inst)))
      (forall_right_of_imp hzs args)

/-- Putting values for holes brings in no holes but those of the values. -/
theorem over_of_instantiate? {A : Nat → Nat → Prop}
    (values : ∀ k n v, A k n → s.value? k = some v → v.Over A) (p : t.Over A)
    (h : s.instantiate? t = some t') : t'.Over A :=
  (fills_over values).of_instantiate? h p

theorem scoped_of_forall₂ {A : Nat → Nat → Prop} {xs ys : List Term}
    (h : List.Forall₂ (fun x y => x.Over A → y.Over A ∧ ∀ n, x.Scoped n → y.Scoped n) xs ys)
    (hxs : ∀ x ∈ xs, x.Over A) :
    (∀ y ∈ ys, y.Over A) ∧ ∀ n, (∀ x ∈ xs, x.Scoped n) → ∀ y ∈ ys, y.Scoped n := by
  induction h with
  | nil => simp
  | cons hy _ ih =>
    rw [List.forall_mem_cons] at hxs
    obtain ⟨isOver, within'⟩ := hy hxs.1
    obtain ⟨overs, withins⟩ := ih hxs.2
    refine ⟨List.forall_mem_cons.2 ⟨isOver, overs⟩, fun n q => ?_⟩
    rw [List.forall_mem_cons] at q ⊢
    exact ⟨within' n q.1, withins n q.2⟩

theorem fills_scoped {A : Nat → Nat → Prop}
    (values : ∀ k n v, A k n → s.value? k = some v → v.Over A ∧ v.Scoped n) :
    s.Fills fun t t' => t.Over A → t'.Over A ∧ ∀ n, t.Scoped n → t'.Scoped n := by
  constructor
  case rel => exact fun _ p => ⟨p, fun _ q => q⟩
  case sort => exact fun _ p => ⟨p, fun _ q => q⟩
  case const => exact fun _ p => ⟨p, fun _ q => q⟩
  case hole =>
    intro k xs ys _ hxs p
    obtain ⟨own, inst⟩ := Term.over_hole.1 p
    obtain ⟨overs, withins⟩ := scoped_of_forall₂ hxs inst
    exact ⟨Term.over_hole.2 ⟨hxs.length_eq ▸ own, overs⟩, fun n q =>
      Term.scoped_hole.2 (withins n (Term.scoped_hole.1 q))⟩
  case pi =>
    intro a a' b b' ha hb p
    obtain ⟨oa, sa⟩ := ha (Term.over_pi.1 p).1
    obtain ⟨ob, sb⟩ := hb (Term.over_pi.1 p).2
    exact ⟨Term.over_pi.2 ⟨oa, ob⟩, fun n q =>
      Term.scoped_pi.2 ((Term.scoped_pi.1 q).imp (sa n) (sb _))⟩
  case lam =>
    intro a a' b b' ha hb p
    obtain ⟨oa, sa⟩ := ha (Term.over_lam.1 p).1
    obtain ⟨ob, sb⟩ := hb (Term.over_lam.1 p).2
    exact ⟨Term.over_lam.2 ⟨oa, ob⟩, fun n q =>
      Term.scoped_lam.2 ((Term.scoped_lam.1 q).imp (sa n) (sb _))⟩
  case letIn =>
    intro v v' a a' b b' hv ha hb p
    obtain ⟨pa, pv, pb⟩ := Term.over_letIn.1 p
    obtain ⟨oa, sa⟩ := ha pa
    obtain ⟨ov, sv⟩ := hv pv
    obtain ⟨ob, sb⟩ := hb pb
    exact ⟨Term.over_letIn.2 ⟨oa, ov, ob⟩, fun n q =>
      Term.scoped_letIn.2 ((Term.scoped_letIn.1 q).imp (sa n) (And.imp (sv n) (sb _)))⟩
  case cast =>
    intro t t' a a' ht ha p
    obtain ⟨oa, sa⟩ := ha (Term.over_cast.1 p).1
    obtain ⟨ot, st⟩ := ht (Term.over_cast.1 p).2
    exact ⟨Term.over_cast.2 ⟨oa, ot⟩, fun n q =>
      Term.scoped_cast.2 ((Term.scoped_cast.1 q).imp (sa n) (st n))⟩
  case case =>
    intro r r' c c' bs bs' hr hc hbs p
    obtain ⟨pr, pc, pbs⟩ := Term.over_case.1 p
    obtain ⟨or', sr⟩ := hr pr
    obtain ⟨oc, sc⟩ := hc pc
    obtain ⟨obs, sbs⟩ := scoped_of_forall₂ hbs pbs
    exact ⟨Term.over_case.2 ⟨or', oc, obs⟩, fun n q =>
      Term.scoped_case.2 ((Term.scoped_case.1 q).imp (sr n) (And.imp (sc n) (sbs n)))⟩
  case fix =>
    intro i as as' bs bs' has hbs p
    obtain ⟨oas, sas⟩ := scoped_of_forall₂ has (Term.over_fix.1 p).1
    obtain ⟨obs, sbs⟩ := scoped_of_forall₂ hbs (Term.over_fix.1 p).2
    refine ⟨Term.over_fix.2 ⟨oas, obs⟩, fun n q => Term.scoped_fix.2 ?_⟩
    rw [← has.length_eq]
    exact (Term.scoped_fix.1 q).imp (sas n) (sbs _)
  case spine =>
    intro g g' xs ys hg hxs p
    obtain ⟨pg, pxs⟩ := Term.over_mk.1 p
    obtain ⟨og, sg⟩ := hg pg
    obtain ⟨oxs, sxs⟩ := scoped_of_forall₂ hxs pxs
    exact ⟨Term.over_mk.2 ⟨og, oxs⟩, fun n q =>
      Term.scoped_mk.2 ((Term.scoped_mk.1 q).imp (sg n) (sxs n))⟩
  case value =>
    intro k xs ys v w zs zs' hv hxs hw hzs p
    obtain ⟨hole, args⟩ := Term.over_mk.1 p
    obtain ⟨own, inst⟩ := Term.over_hole.1 hole
    obtain ⟨oys, sys⟩ := scoped_of_forall₂ hxs inst
    obtain ⟨ozs, szs⟩ := scoped_of_forall₂ hzs args
    obtain ⟨overV, scopedV⟩ := values k _ v own hv
    obtain ⟨ow, sw⟩ := hw (Term.over_instantiateMany overV oys)
    refine ⟨Term.over_betaApply ow ozs, fun n q => ?_⟩
    obtain ⟨qhole, qzs⟩ := Term.scoped_mk.1 q
    -- The value is within the arity of its hole, which is the length of the instance.
    have closed : v.Scoped (ys.length + n) := by
      rw [← hxs.length_eq]
      exact scopedV.weaken (Nat.le_add_right _ _)
    refine Term.scoped_betaApply (sw n (Term.scoped_instantiateMany closed ?_)) (szs n qzs)
    exact sys n (Term.scoped_hole.1 qhole)

/-- Putting values for holes keeps a term within its scope, if the values are within their
arities. -/
theorem scoped_of_instantiate? {A : Nat → Nat → Prop}
    (values : ∀ k n v, A k n → s.value? k = some v → v.Over A ∧ v.Scoped n) {n : Nat}
    (p : t.Over A) (q : t.Scoped n) (h : s.instantiate? t = some t') : t'.Scoped n :=
  ((fills_scoped values).of_instantiate? h p).2 n q

theorem eq_of_forall₂ {P : Term → Prop} {xs ys : List Term}
    (h : List.Forall₂ (fun x y => P x → y = x) xs ys) (hxs : ∀ x ∈ xs, P x) : ys = xs := by
  induction h with
  | nil => rfl
  | cons hy _ ih =>
    rw [List.forall_mem_cons] at hxs
    rw [hy hxs.1, ih hxs.2]

theorem fills_eq (s : Store) :
    s.Fills fun t t' => (t.Over fun k _ => s.isAssigned k = false) → t' = t := by
  refine ⟨fun _ _ => rfl, fun _ _ => rfl, fun _ _ => rfl, ?_, ?_, ?_, ?_, ?_, ?_, ?_, ?_, ?_⟩
  · intro k xs ys _ hys q
    rw [eq_of_forall₂ hys (Term.over_hole.1 q).2]
  · intro a a' b b' ha hb q
    rw [ha (Term.over_pi.1 q).1, hb (Term.over_pi.1 q).2]
  · intro a a' b b' ha hb q
    rw [ha (Term.over_lam.1 q).1, hb (Term.over_lam.1 q).2]
  · intro v v' a a' b b' hv ha hb q
    obtain ⟨qa, qv, qb⟩ := Term.over_letIn.1 q
    rw [hv qv, ha qa, hb qb]
  · intro t t' a a' ht ha q
    rw [ht (Term.over_cast.1 q).2, ha (Term.over_cast.1 q).1]
  · intro r r' c c' bs bs' hr hc hbs q
    obtain ⟨qr, qc, qbs⟩ := Term.over_case.1 q
    rw [hr qr, hc qc, eq_of_forall₂ hbs qbs]
  · intro i as as' bs bs' has hbs q
    rw [eq_of_forall₂ has (Term.over_fix.1 q).1, eq_of_forall₂ hbs (Term.over_fix.1 q).2]
  · intro g g' xs ys hg hys q
    obtain ⟨qg, qxs⟩ := Term.over_mk.1 q
    obtain ⟨rfl, -⟩ := Term.mk.inj (hg qg)
    rw [eq_of_forall₂ hys qxs]
  · intro k xs ys v w zs zs' hv _ _ _ q
    have own := (Term.over_hole.1 (Term.over_mk.1 q).1).1
    simp [isAssigned, hv] at own

/-- A term without assigned holes stays as it is. -/
theorem eq_of_instantiate? (p : t.Over fun k _ => s.isAssigned k = false)
    (h : s.instantiate? t = some t') : t' = t :=
  (fills_eq s).of_instantiate? h p

end

end Store

end KeyedMatching
