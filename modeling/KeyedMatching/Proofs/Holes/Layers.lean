import KeyedMatching.Proofs.Holes.Total
import KeyedMatching.Proofs.Term.Framed

/-!
# Putting values for holes, layer by layer

`Store.Layer` is what putting values for holes does at the top of a term, given what it does below:
a head that is no assigned hole stays, and an assigned hole gives way to its value.

* `Store.fill_iff`: this is the equation of `Store.fill`;
* `Store.Layered.of_instantiate?`: a relation that contains its own layers holds between a term and
  the term with its values put in;
* `Store.instantiateWithin_unique`: how many values may be followed into one another does not matter
  where that many suffice;
* `Store.instantiate?_of_layer`: in an acyclic store the number of holes always suffices, so that
  what is put together from the children is the answer.
-/

namespace KeyedMatching

namespace Head.Framed

variable {R S : Term → Term → Prop} {h g : Head}

theorem eq_of_eq (framed : Framed (fun a b => a = b) h g) : h = g := by
  have all {xs ys : List Term} (h : List.Forall₂ (fun a b => a = b) xs ys) : xs = ys :=
    List.forall₂_eq_eq_eq ▸ h
  cases framed with
  | rel i => rfl
  | sort n => rfl
  | const c => rfl
  | hole hxs => rw [all hxs]
  | pi ha hb => rw [ha, hb]
  | lam ha hb => rw [ha, hb]
  | letIn hv ha hb => rw [hv, ha, hb]
  | cast ht ha => rw [ht, ha]
  | case hr hc hbs => rw [hr, hc, all hbs]
  | fix has hbs => rw [all has, all hbs]

/-- Where the first relation allows one answer, and the second only that, the frame is the same. -/
theorem unique {g' : Head} (same : ∀ a b c, R a b → S a c → b = c) (first : Framed R h g)
    (second : Framed S h g') : g = g' :=
  (comp (fun b a c hb hc => same a b c hb hc) first.flip second).eq_of_eq

end Head.Framed

/-- Where the first relation allows one answer, and the second only that, the lists are the same. -/
theorem forall₂_unique {α : Type} {R S : α → α → Prop} {xs ys zs : List α}
    (same : ∀ a b c, R a b → S a c → b = c) (first : List.Forall₂ R xs ys)
    (second : List.Forall₂ S xs zs) : ys = zs := by
  have all := forall₂_comp (T := fun b c => b = c) (fun b a c hb hc => same a b c hb hc) first.flip
    second
  rwa [List.forall₂_eq_eq_eq] at all

namespace Store

/-- The head is no assigned hole. -/
def Unset (s : Store) (h : Head) : Prop :=
  ∀ k inst, h = .hole k inst → s.value? k = none

/-- One layer of putting values for holes: `R` is what happens to the children, and `N` what becomes
of a value with the instance that was put into it. -/
inductive Layer (s : Store) (R : Term → Term → Prop) (N : List Term → Term → Term → Prop) :
    Term → Term → Prop
  | frame {h g xs ys} : s.Unset h → h.Framed R g → List.Forall₂ R xs ys →
    Layer s R N (.mk h xs) (.mk g ys)
  | value {k v xs ys w zs zs'} : s.value? k = some v → List.Forall₂ R xs ys →
    N ys (v.instantiateMany ys) w → List.Forall₂ R zs zs' →
    Layer s R N (.mk (.hole k xs) zs) (w.betaApply zs')

section
variable {s : Store} {R R' : Term → Term → Prop} {N N' : List Term → Term → Term → Prop}
  {again : Term → Option Term}

theorem Layer.mono (children : ∀ a b, R a b → R' a b) (values : ∀ ys u w, N ys u w → N' ys u w)
    {t t' : Term} (h : s.Layer R N t t') : s.Layer R' N' t t' := by
  cases h with
  | frame unset framed hxs => exact .frame unset (framed.mono children) (hxs.imp children)
  | value hv hxs hw hzs =>
    exact .value hv (hxs.imp children) (values _ _ _ hw) (hzs.imp children)

/-! ## One treatment -/

/-- What a treatment makes of a term is one layer on top of what it makes of the children. -/
theorem fill_iff {t t' : Term} :
    s.fill again t = some t' ↔
      s.Layer (fun x y => s.fill again x = some y) (fun _ u w => again u = some w) t t' := by
  constructor
  · obtain ⟨h, xs⟩ := t
    intro ht
    simp only [fill, Option.bind_eq_bind, Option.bind_eq_some_iff] at ht
    obtain ⟨g, hg, ys, hys, ht⟩ := ht
    have framed := fillHead_iff.1 hg
    have args := fillAll_iff.1 hys
    have stays (unset : s.Unset h) (ht : some (Term.mk g ys) = some t') :
        s.Layer (fun x y => s.fill again x = some y) (fun _ u w => again u = some w) (.mk h xs)
          t' := by
      obtain rfl := Option.some.inj ht
      exact .frame unset framed args
    cases framed with
    | @hole k inst inst' hinst =>
      cases hv : s.value? k with
      | none =>
        simp only [hv] at ht
        refine stays (fun l zs same => ?_) ht
        obtain ⟨rfl, -⟩ := Head.hole.inj same
        exact hv
      | some v =>
        simp only [hv] at ht
        obtain ⟨w, hw, ht⟩ := Option.bind_eq_some_iff.1 ht
        obtain rfl := Option.some.inj ht
        exact .value hv hinst hw args
    | _ => exact stays (fun l zs same => by cases same) ht
  · intro layer
    cases layer with
    | @frame h g xs ys unset framed hxs =>
      simp only [fill, fillHead_iff.2 framed, fillAll_iff.2 hxs, Option.bind_eq_bind,
        Option.bind_some]
      cases framed with
      | @hole k inst inst' hinst => simp only [unset k inst rfl]; rfl
      | _ => rfl
    | @value k v xs ys w zs zs' hv hxs hw hzs =>
      simp only [fill, fillHead_iff.2 (Head.Framed.hole hxs), fillAll_iff.2 hzs, hv, hw,
        Option.bind_eq_bind, Option.bind_some]
      rfl

/-! ## Relations that contain their layers -/

/-- The relation contains its own layers, where it may be asked that a value be read with an
instance that is admitted. -/
def Layered (s : Store) (admits : List Term → Prop) (R : Term → Term → Prop) : Prop :=
  ∀ t t', s.Layer R (fun ys u w => admits ys ∧ R u w) t t' → R t t'

/-- Every instance is admitted. -/
def Anything (_ : List Term) : Prop :=
  True

mutual

theorem Layered.framed_of_fill (rules : s.Layered Anything R)
    (hagain : ∀ u w, again u = some w → R u w) : (h : Head) → (g : Head) →
      h.Framed (fun t t' => s.fill again t = some t') g → h.Framed R g
  | .rel _, _, .rel i => .rel i
  | .sort _, _, .sort n => .sort n
  | .const _, _, .const c => .const c
  | .hole _ xs, _, .hole hxs => .hole (Layered.forall₂_of_fill rules hagain xs _ hxs)
  | .pi a b, _, .pi ha hb =>
    .pi (Layered.of_fill rules hagain a _ ha) (Layered.of_fill rules hagain b _ hb)
  | .lam a b, _, .lam ha hb =>
    .lam (Layered.of_fill rules hagain a _ ha) (Layered.of_fill rules hagain b _ hb)
  | .letIn v a b, _, .letIn hv ha hb =>
    .letIn (Layered.of_fill rules hagain v _ hv) (Layered.of_fill rules hagain a _ ha)
      (Layered.of_fill rules hagain b _ hb)
  | .cast t a, _, .cast ht ha =>
    .cast (Layered.of_fill rules hagain t _ ht) (Layered.of_fill rules hagain a _ ha)
  | .case r c bs, _, .case hr hc hbs =>
    .case (Layered.of_fill rules hagain r _ hr) (Layered.of_fill rules hagain c _ hc)
      (Layered.forall₂_of_fill rules hagain bs _ hbs)
  | .fix _ as bs, _, .fix has hbs =>
    .fix (Layered.forall₂_of_fill rules hagain as _ has)
      (Layered.forall₂_of_fill rules hagain bs _ hbs)

theorem Layered.of_fill (rules : s.Layered Anything R)
    (hagain : ∀ u w, again u = some w → R u w) :
    (t : Term) → (t' : Term) → s.fill again t = some t' → R t t'
  | .mk h xs, t', ht => by
    have onHead := Layered.framed_of_fill rules hagain h
    have onArgs := Layered.forall₂_of_fill rules hagain xs
    cases fill_iff.1 ht with
    | frame unset framed hxs => exact rules _ _ (.frame unset (onHead _ framed) (onArgs _ hxs))
    | value hv hinst hw hzs =>
      cases onHead _ (.hole hinst) with
      | hole related => exact rules _ _ (.value hv related ⟨trivial, hagain _ _ hw⟩ (onArgs _ hzs))

theorem Layered.forall₂_of_fill (rules : s.Layered Anything R)
    (hagain : ∀ u w, again u = some w → R u w) : (xs : List Term) → (ys : List Term) →
      List.Forall₂ (fun t t' => s.fill again t = some t') xs ys → List.Forall₂ R xs ys
  | [], _, .nil => .nil
  | x :: xs, _, .cons hx hxs =>
    .cons (Layered.of_fill rules hagain x _ hx) (Layered.forall₂_of_fill rules hagain xs _ hxs)

end

theorem Layered.of_instantiateWithin (rules : s.Layered Anything R) (n : Nat) {t t' : Term}
    (h : s.instantiateWithin n t = some t') : R t t' := by
  induction n generalizing t t' with
  | zero => exact Layered.of_fill rules (fun _ _ h => by cases h) t t' h
  | succ n ih => exact Layered.of_fill rules (fun _ _ h => ih h) t t' h

/-- A relation that contains its layers holds between a term and the term with its values put
in. -/
theorem Layered.of_instantiate? (rules : s.Layered Anything R) {t t' : Term}
    (h : s.instantiate? t = some t') : R t t' :=
  rules.of_instantiateWithin _ h

/-! ## The number of values followed -/

/-- Following one value takes one from the number of values that may be followed. -/
theorem layer_of_instantiateWithin {n : Nat} {t t' : Term}
    (h : s.instantiateWithin n t = some t') :
    s.Layer (fun x y => s.instantiateWithin n x = some y)
      (fun _ u w => ∃ m, n = m + 1 ∧ s.instantiateWithin m u = some w) t t' := by
  cases n with
  | zero => exact (fill_iff.1 h).mono (fun _ _ => id) fun _ _ _ h => by cases h
  | succ n => exact (fill_iff.1 h).mono (fun _ _ => id) fun _ _ _ h => ⟨n, rfl, h⟩

theorem instantiateWithin_of_layer {n : Nat} {t t' : Term}
    (h : s.Layer (fun x y => s.instantiateWithin n x = some y)
      (fun _ u w => ∃ m, n = m + 1 ∧ s.instantiateWithin m u = some w) t t') :
    s.instantiateWithin n t = some t' := by
  cases n with
  | zero =>
    refine fill_iff.2 (h.mono (fun _ _ => id) fun _ _ _ h => ?_)
    obtain ⟨m, impossible, _⟩ := h
    cases impossible
  | succ n =>
    refine fill_iff.2 (h.mono (fun _ _ => id) fun _ _ _ h => ?_)
    obtain ⟨m, same, hw⟩ := h
    cases same
    exact hw

/-- Where two numbers of values to be followed suffice, the answers are the same. -/
theorem instantiateWithin_unique {m n : Nat} {t t' t'' : Term}
    (h : s.instantiateWithin m t = some t') (h' : s.instantiateWithin n t = some t'') :
    t' = t'' := by
  refine Layered.of_instantiateWithin (R := fun t t' =>
    ∀ n t'', s.instantiateWithin n t = some t'' → t' = t'') ?_ m h n t'' h'
  intro t t' layer n t'' h''
  have second := layer_of_instantiateWithin h''
  have same (a b c : Term) (hb : ∀ n t'', s.instantiateWithin n a = some t'' → b = t'')
      (hc : s.instantiateWithin n a = some c) : b = c := hb n c hc
  cases layer with
  | frame unset framed hxs =>
    cases second with
    | frame _ framed' hxs' => rw [framed.unique same framed', forall₂_unique same hxs hxs']
    | value hv => exact absurd hv (by simp [unset _ _ rfl])
  | value hv hxs hw hzs =>
    cases second with
    | frame unset => exact absurd hv (by simp [unset _ _ rfl])
    | value hv' hxs' hw' hzs' =>
      obtain rfl := Option.some.inj (hv.symm.trans hv')
      obtain ⟨m, -, hw'⟩ := hw'
      rw [← forall₂_unique same hxs hxs'] at hw'
      rw [hw.2 m _ hw', forall₂_unique same hzs hzs']

/-- In an acyclic store the answer is put together from those for the children. -/
theorem instantiate?_of_layer (acyclic : s.Acyclic) {t t' : Term}
    (h : s.Layer (fun x y => s.instantiate? x = some y) (fun _ u w => s.instantiate? u = some w)
      t t') : s.instantiate? t = some t' := by
  refine instantiateWithin_of_layer ?_
  cases h with
  | frame unset framed hxs => exact .frame unset framed hxs
  | @value k v xs ys w zs zs' hv hxs hw hzs =>
    -- The holes of the value with its instance have fewer holes below them than hole `k`.
    obtain ⟨m, hm⟩ := Nat.exists_eq_add_of_le' (Nat.one_le_of_lt (lt_of_value? hv))
    have few : (v.instantiateMany ys).Over fun l _ => (s.below l).card ≤ m := by
      refine Term.over_instantiateMany (Term.over_holes.2 fun l hl => ?_) ?_
      · have less := card_below_lt acyclic ⟨v, hv, hl⟩
        have bound := card_below_le s k
        omega
      · have unassigned := forall_right_of_forall₂
          (hxs.imp fun _ _ h => unassigned_of_instantiate? h)
        refine fun y hy => (unassigned y hy).mono fun l _ unset => ?_
        have open' : s.value? l = none := by simpa [isAssigned] using unset
        rw [below_eq_empty open', Finset.card_empty]
        exact Nat.zero_le m
    obtain ⟨u, hu⟩ := exists_instantiateWithin acyclic m few
    obtain rfl := instantiateWithin_unique hu hw
    exact .value hv hxs ⟨m, hm, hu⟩ hzs

/-- Putting values in is an induction on its layers, at each of which the answers are known. -/
theorem instantiate?_induction (acyclic : s.Acyclic)
    (rules : ∀ t t', s.instantiate? t = some t' →
      s.Layer (fun x y => s.instantiate? x = some y ∧ R x y)
        (fun _ u w => s.instantiate? u = some w ∧ R u w) t t' → R t t') {t t' : Term}
    (h : s.instantiate? t = some t') : R t t' := by
  refine (Layered.of_instantiate? (R := fun t t' => s.instantiate? t = some t' ∧ R t t') ?_ h).2
  intro t t' layer
  have known := instantiate?_of_layer acyclic
    (layer.mono (fun _ _ h => h.1) fun _ _ _ h => h.2.1)
  exact ⟨known, rules t t' known (layer.mono (fun _ _ => id) fun _ _ _ h => h.2)⟩

end

end Store

end KeyedMatching
