import KeyedMatching.Proofs.Holes.Total
import KeyedMatching.Proofs.Term.ByNodes
import KeyedMatching.Proofs.Unification.Rules
import KeyedMatching.Proofs.Unification.Spending

/-!
# Equations that wait for a hole

An equation of a hole is put off when the instance of the hole cannot be inverted.

* `Store.headNormal_of_instantiate?`: values that are put into a head normal form do not get to its
  head;
* `Unify.imitateSide?_ne_none`: an instance that can be inverted can be abstracted as well;
* `Unify.solving_solve`: how solving an equation for a hole comes out; in particular, when the
  equation `Waits`;
* `Unify.Waits.within`: unless it is imitated, it is put off again when it is taken up.
-/

namespace KeyedMatching

/-! ## Abstracting variables -/

theorem Term.exists_lastCopyOf? {values : List Term} {d : Nat} {u v : Term} (h : v ∈ values)
    (copy : v.lift 0 d = u) : ∃ i, i < values.length ∧ Term.lastCopyOf? values d u = some i := by
  have some_copy : (values.zipIdx.reverse.find? fun p => p.1.lift 0 d = u).isSome := by
    obtain ⟨i, inside, rfl⟩ := List.mem_iff_getElem.1 h
    rw [List.find?_isSome]
    refine ⟨(values[i], i), ?_, decide_eq_true copy⟩
    rw [List.mem_reverse, List.mk_mem_zipIdx_iff_getElem?]
    exact List.getElem?_eq_getElem inside
  obtain ⟨p, found⟩ := Option.isSome_iff_exists.1 some_copy
  have position := List.mk_mem_zipIdx_iff_getElem?.1
    (List.mem_reverse.1 (List.mem_of_find?_eq_some found))
  have last : Term.lastCopyOf? values d u = some p.2 := congrArg (Option.map Prod.snd) found
  exact ⟨p.2, (List.getElem?_eq_some_iff.1 position).1, last⟩

/-- Abstracting variables leaves no others, if the term has none. -/
theorem Term.scoped_abstractTerms {t : Term} {vars : List Nat}
    (listed : ∀ i ∈ t.freeRels, i ∈ vars) :
    (t.abstractTerms (vars.map .rel)).Scoped (vars.map Term.rel).length := by
  unfold Term.abstractTerms
  rw [Term.replace_eq_bind]
  · refine Term.every_bind (fun d i hi => ?_) t 0 (Term.forall_freeRels.1 listed)
    unfold putReplaced
    by_cases free : d ≤ i
    · have copy : (Term.rel (i - d)).lift 0 d = .rel i := by
        have same : i - d + d = i := by omega
        simp [Term.lift, same]
      obtain ⟨j, inside, found⟩ := Term.exists_lastCopyOf?
        (List.mem_map_of_mem (hi free)) copy
      simp only [found, Option.getD_some, Term.Every, Head.Every, Term.EveryAll, and_true]
      omega
    · cases found : Term.lastCopyOf? (vars.map .rel) d (.rel i) with
      | some j =>
        obtain ⟨v, hv, copy⟩ := Term.lastCopyOf?_eq_some found
        obtain ⟨l, _, rfl⟩ := List.mem_map.1 (List.mem_of_getElem? hv)
        simp [Term.lift] at copy
        omega
      | none =>
        simp only [found, Term.freeRel?, if_neg free, Option.map_none, Option.getD_none,
          Term.Every, Head.Every, Term.EveryAll, and_true]
        omega
  · intro u d other
    cases found : Term.lastCopyOf? (vars.map .rel) d u with
    | some j =>
      obtain ⟨v, hv, copy⟩ := Term.lastCopyOf?_eq_some found
      obtain ⟨l, _, rfl⟩ := List.mem_map.1 (List.mem_of_getElem? hv)
      exact absurd copy.symm (by simpa [Term.lift] using other (l + d))
    | none =>
      have bound : u.freeRel? d = none := by
        unfold Term.freeRel?
        split
        · next i => exact absurd rfl (other i)
        · rfl
      rw [bound]
      rfl

/-! ## What putting values leaves at the head -/

theorem Head.isLam_congr {f g : Head} (shape : g.shape = f.shape) :
    (Term.ofHead g).isLam = (Term.ofHead f).isLam := by
  cases f <;> cases g <;> first | rfl | cases shape

theorem Head.isStuck_congr {s : Store} {f g : Head} (shape : g.shape = f.shape)
    (hole : (Term.ofHead g).headHole? = (Term.ofHead f).headHole?) :
    g.isStuck s = f.isStuck s := by
  cases f with
  | hole k xs =>
    cases g with
    | hole l ys =>
      obtain rfl : l = k := Option.some.inj hole
      rfl
    | _ => cases shape
  | _ => cases g <;> first | rfl | cases shape

namespace Store

/-- A head that nothing applies to is kept, with the number of its arguments. -/
def KeepsTop (s : Store) (t u : Term) : Prop :=
  t.head.isStuck s = true →
    u.head.shape = t.head.shape ∧ u.headHole? = t.headHole? ∧ u.args.length = t.args.length

theorem fills_keepsTop (s : Store) : s.Fills s.KeepsTop where
  rel _ _ := ⟨rfl, rfl, rfl⟩
  sort _ _ := ⟨rfl, rfl, rfl⟩
  const _ _ := ⟨rfl, rfl, rfl⟩
  hole _ _ _ := ⟨rfl, rfl, rfl⟩
  pi _ _ _ := ⟨rfl, rfl, rfl⟩
  lam _ _ _ := ⟨rfl, rfl, rfl⟩
  letIn _ _ _ _ := ⟨rfl, rfl, rfl⟩
  cast _ _ _ := ⟨rfl, rfl, rfl⟩
  case _ _ _ _ := ⟨rfl, rfl, rfl⟩
  fix _ _ _ := ⟨rfl, rfl, rfl⟩
  spine head args stuck := ⟨(head stuck).1, (head stuck).2.1, args.length_eq.symm⟩
  value known _ _ _ stuck := by
    simp [Term.head, Head.isStuck, known] at stuck

variable {s : Store} {t u : Term}

/-- What an unassigned hole comes down to is the hole. -/
theorem exists_of_instantiate?_hole {k : Nat} {inst : List Term} (unset : s.value? k = none)
    (h : s.instantiate? (.hole k inst) = some u) : ∃ inst', u = .hole k inst' := by
  obtain ⟨_, same, bare⟩ := s.fills_keepsTop.of_instantiate? h
    (by simp [Term.head, Head.isStuck, unset])
  obtain ⟨g, xs⟩ := u
  obtain rfl := List.length_eq_zero_iff.1 bare
  cases g with
  | hole l inst' =>
    obtain rfl : l = k := Option.some.inj same
    exact ⟨inst', rfl⟩
  | _ => cases same

/-- Values that are put into a head normal form do not get to its head. -/
theorem headNormal_of_instantiate? (normal : t.HeadNormal s) (h : s.instantiate? t = some u) :
    u.HeadNormal s ∧ (u.args ≠ [] → t.args ≠ []) := by
  obtain ⟨shape, hole, count⟩ := s.fills_keepsTop.of_instantiate? h normal.head
  have applied : u.args ≠ [] → t.args ≠ [] := by
    rw [← List.length_pos_iff, ← List.length_pos_iff, count]
    exact id
  refine ⟨⟨?_, fun some_arg => ?_⟩, applied⟩
  · rw [Head.isStuck_congr shape hole]
    exact normal.head
  · rw [Head.isLam_congr shape]
    exact normal.unapplied (applied some_arg)

theorem whnf?_of_instantiate? {cx : Context} (reduced : whnf? cx s t .noDelta = some t)
    (h : s.instantiate? t = some u) : whnf? cx s u .noDelta = some u := by
  obtain ⟨normal, applied⟩ := headNormal_of_instantiate? (headNormal_of_whnf? reduced) h
  exact whnf?_of_headNormal reduced normal applied

/-- Values are put in once. -/
theorem instantiate?_idempotent (h : s.instantiate? t = some u) : s.instantiate? u = some u :=
  instantiate?_of_unassigned (unassigned_of_instantiate? h)

end Store

/-- The equation with its sides exchanged. -/
def Equation.swap (e : Equation) : Equation :=
  ⟨e.rhs, e.lhs⟩

namespace Unify

/-! ## Imitation -/

section
variable {s : Store} {k : Nat} {inst : List Term} {t : Term}

theorem imitateSide?_of_pending (s : Store) (es : List Equation) (flex other : Term) :
    imitateSide? { s with pending := es } flex other =
      (imitateSide? s flex other).map (·.map fun r => { r with pending := es }) := by
  have assignable (t : Term) :
      ({ s with pending := es } : Store).assignable? t = s.assignable? t := rfl
  simp only [imitateSide?, s.instantiate?_of_pending es, assignable, s.assign?_of_pending es]
  cases s.instantiate? flex with
  | none => rfl
  | some flex =>
    cases hk : s.assignable? flex with
    | none => simp [hk]
    | some p =>
      cases s.instantiate? other with
      | none => simp [hk]
      | some other =>
        simp only [hk, Option.bind_eq_bind, Option.bind_some]
        split <;> rfl

theorem imitate?_eq_none_iff {e : Equation} : imitate? s e = some none ↔
    imitateSide? s e.lhs e.rhs = some none ∧ imitateSide? s e.rhs e.lhs = some none := by
  simp only [imitate?, Option.bind_eq_bind, Option.bind_eq_some_iff]
  constructor
  · rintro ⟨left, hleft, h⟩
    cases left with
    | none => exact ⟨hleft, h⟩
    | some s' => cases h
  · exact fun h => ⟨none, h.1, h.2⟩

theorem imitate?_swap {e : Equation} (h : imitate? s e = some none) :
    imitate? s e.swap = some none :=
  imitate?_eq_none_iff.2 (imitate?_eq_none_iff.1 h).symm

theorem imitate?_of_pending {e : Equation} (h : imitate? s e = some none) (es : List Equation) :
    imitate? { s with pending := es } e = some none := by
  rw [imitate?_eq_none_iff] at h ⊢
  rw [imitateSide?_of_pending s es, imitateSide?_of_pending s es, h.1, h.2]
  exact ⟨rfl, rfl⟩

/-- Where the instance of a hole can be inverted, it can be abstracted as well. -/
theorem imitateSide?_ne_none {v : Term} (free : s.isAssignable k = true)
    (hole : s.instantiate? (.hole k inst) = some (.hole k inst))
    (settled : s.instantiate? t = some t)
    (absent : t.mentions k = false) (inverts : (distinctRels? inst).bind t.abstractRels? = some v) :
    imitateSide? s (.hole k inst) t ≠ some none := by
  obtain ⟨vars, hvars, renumbered⟩ := Option.bind_eq_some_iff.1 inverts
  have listed : ∀ i ∈ t.freeRels, i ∈ vars := by
    unfold Term.abstractRels? at renumbered
    split at renumbered
    · next all =>
      simpa only [List.all_eq_true, List.contains_eq_mem, decide_eq_true_eq] using all
    · cases renumbered
  have tight : (t.abstractTerms inst).isLooseFrom inst.length = false := by
    rw [eq_of_distinctRels? hvars]
    simp only [Term.isLooseFrom, List.any_eq_false, decide_eq_true_eq, Nat.not_le]
    exact Term.scoped_iff.1 (Term.scoped_abstractTerms listed)
  simp [imitateSide?, hole, settled, Store.assignable?, Store.assign?, free, absent, tight]

end

/-! ## Solving for a hole -/

section
variable {cx : Context} {mode : UnifyMode} {again : Store → Term → Term → Attempt Store}
  {s : Store} {k : Nat} {inst : List Term} {hole t u : Term}

theorem mentions_hole (k : Nat) (inst : List Term) : (Term.hole k inst).mentions k = true := by
  by_contra absent
  rw [Bool.not_eq_true, Term.not_mentions_iff, Term.over_hole] at absent
  exact absent.1 rfl

theorem isAssignable_of_assignable? (h : s.assignable? t = some (k, inst)) :
    s.isAssignable k = true := by
  obtain rfl := eq_of_assignable? h
  by_contra refused
  rw [Store.assignable?, if_neg refused] at h
  cases h

theorem solveOr_of_hole {other : Term → Attempt Store} {inst' : List Term}
    (h : s.instantiate? t = some (.hole k inst')) :
    solveOr mode again other s k inst hole t = all again s inst inst' := by
  unfold solveOr
  rw [h]
  exact if_pos rfl

theorem solveOr_of_ne {other : Term → Attempt Store} (h : s.instantiate? t = some u)
    (differs : ∀ inst', u ≠ .hole k inst') :
    solveOr mode again other s k inst hole t =
      if u.mentions k then failure
      else
        match (distinctRels? inst).bind u.abstractRels? with
        | some value => Attempt.ofOption (s.assign? k value)
        | none => other u <|> postpone mode s hole u := by
  unfold solveOr
  rw [h]
  obtain ⟨g, xs⟩ := u
  cases g with
  | hole l inst' =>
    cases xs with
    | nil =>
      by_cases same : l = k
      · subst same
        exact absurd rfl (differs inst')
      · exact if_neg same
    | cons x xs => rfl
  | _ => cases xs <;> rfl

/-- Solving `hole = t` for the hole comes to nothing: the values have been put into the term, which
does not mention the hole, the instance cannot be inverted, and if the term is a hole as well, it
cannot take the first one for its value, or that is looked at as it is. -/
structure Waits (cx : Context) (s : Store) (k : Nat) (inst : List Term) (t : Term) : Prop where
  free : s.isAssignable k = true
  reducedHole : whnf? cx s (.hole k inst) .noDelta = some (.hole k inst)
  reduced : whnf? cx s t .noDelta = some t
  settled : s.instantiate? t = some t
  absent : t.mentions k = false
  rigid : (distinctRels? inst).bind t.abstractRels? = none
  faced : ∀ l inst', s.assignable? t = some (l, inst') →
    ∃ h, s.instantiate? (.hole k inst) = some h ∧ (h.mentions l = true ∨ h = .hole k inst)

theorem Waits.differs (w : Waits cx s k inst t) (inst' : List Term) : t ≠ .hole k inst' := by
  rintro rfl
  have absent := w.absent
  rw [mentions_hole] at absent
  cases absent

theorem Waits.of_pending (w : Waits cx s k inst t) (es : List Equation) :
    Waits cx { s with pending := es } k inst t where
  free := w.free
  reducedHole := by rw [whnf?_of_pending, w.reducedHole]
  reduced := by rw [whnf?_of_pending, w.reduced]
  settled := by rw [Store.instantiate?_of_pending, w.settled]
  absent := w.absent
  rigid := w.rigid
  faced l inst' face := by
    rw [Store.instantiate?_of_pending]
    exact w.faced l inst' face

/-- An equation that waits, and is not imitated, is put off when it is looked at again. -/
theorem Waits.solve (w : Waits cx s k inst t)
    (refused : imitate? s ⟨.hole k inst, t⟩ = some none)
    (again : Store → Term → Term → Attempt Store) :
    ∃ e : Equation, (e = ⟨.hole k inst, t⟩ ∨ e = ⟨t, .hole k inst⟩) ∧
      Unify.solve .higherOrder again s k inst (.hole k inst) t = pure (s.defer e) := by
  have absent : ¬ t.mentions k = true := by simp [w.absent]
  rw [Unify.solve, solveOr_of_ne w.settled w.differs, if_neg absent, w.rigid]
  cases face : s.assignable? t with
  | none => exact ⟨_, .inl rfl, rfl⟩
  | some p =>
    obtain ⟨l, inst'⟩ := p
    have freeOther := isAssignable_of_assignable? face
    obtain rfl := eq_of_assignable? face
    have unset := Store.value?_none_of_isAssignable w.free
    obtain ⟨h, instantiated, outcome⟩ := w.faced l inst' face
    obtain ⟨inst₁, rfl⟩ := Store.exists_of_instantiate?_hole unset instantiated
    have differs : ∀ inst₂, Term.hole k inst₁ ≠ .hole l inst₂ := by
      rintro inst₂ ⟨⟩
      exact w.differs inst' rfl
    simp only [solveOr_of_ne instantiated differs]
    by_cases own : (Term.hole k inst₁).mentions l = true
    · rw [if_pos own]
      exact ⟨_, .inl rfl, rfl⟩
    · rw [if_neg own]
      obtain same := outcome.resolve_left own
      rw [same] at instantiated own ⊢
      cases inverts : (distinctRels? inst').bind (Term.hole k inst).abstractRels? with
      | some v =>
        have possible := imitateSide?_ne_none freeOther w.settled instantiated (by simpa using own)
          inverts
        exact absurd (imitate?_eq_none_iff.1 refused).2 possible
      | none => exact ⟨_, .inr rfl, rfl⟩

theorem step_of_assignable {a b : Term} (differ : a ≠ b)
    (ha : whnf? cx s a .noDelta = some a) (hb : whnf? cx s b .noDelta = some b)
    (face : s.assignable? a = some (k, inst)) :
    step cx mode again s a b = solve mode again s k inst a b := by
  unfold step
  rw [if_neg differ, ha, hb]
  change (if a = b then _ else _) = _
  rw [if_neg differ]
  simp only [face]

/-- Such an equation is put off again beside any others. -/
theorem Waits.within (w : Waits cx s k inst t)
    (refused : imitate? s ⟨.hole k inst, t⟩ = some none) (es : List Equation) :
    ∃ e : Equation, (e = ⟨.hole k inst, t⟩ ∨ e = ⟨t, .hole k inst⟩) ∧
      Unify.within cx .higherOrder cx.depth { s with pending := es } (.hole k inst) t =
        pure { s with pending := es ++ [e] } := by
  have w' := w.of_pending es
  have face : ({ s with pending := es } : Store).assignable? (.hole k inst) = some (k, inst) :=
    if_pos w.free
  obtain ⟨e, sides, put⟩ := w'.solve (imitate?_of_pending refused es)
    (Unify.within cx .higherOrder (cx.depth - 1))
  refine ⟨e, sides, ?_⟩
  have deep : cx.depth = cx.depth - 1 + 1 := by
    have reduced := w.reduced
    cases depth : cx.depth with
    | zero =>
      rw [whnf?, depth] at reduced
      cases reduced
    | succ n => rfl
  rw [deep, Unify.within, step_of_assignable (w.differs inst).symm w'.reducedHole w'.reduced face,
    put]
  rfl

/-- How solving an equation for a hole comes out. -/
inductive Solving (cx : Context) (again : Store → Term → Term → Attempt Store) (s : Store)
    (inst : List Term) : Attempt Store → Prop
  | cut : Solving cx again s inst (Attempt.ofAnswer none)
  | failed : Solving cx again s inst failure
  /-- The other side is the same hole. -/
  | same (inst' : List Term) : Solving cx again s inst (all again s inst inst')
  | assigned {k v s'} : s.assign? k v = some s' → Solving cx again s inst (pure s')
  /-- The equation, or the one that it comes down to from the other side, is put off. -/
  | waits {k inst' t} : Waits cx s k inst' t →
    Solving cx again s inst (pure (s.defer ⟨.hole k inst', t⟩))

theorem solving_assign {v : Term} (free : s.isAssignable k = true) :
    Solving cx again s inst (Attempt.ofOption (s.assign? k v)) := by
  have assigned : s.assign? k v = some _ := if_pos free
  rw [assigned]
  exact .assigned assigned

/-- The other side is a hole as well, and the equation is looked at from there first. -/
theorem solving_face {l : Nat} {inst' : List Term} (free : s.isAssignable k = true)
    (reducedHole : whnf? cx s (.hole k inst) .noDelta = some (.hole k inst))
    (freeOther : s.isAssignable l = true)
    (reducedOther : whnf? cx s (.hole l inst') .noDelta = some (.hole l inst'))
    (settled : s.instantiate? (.hole l inst') = some (.hole l inst'))
    (absent : (Term.hole l inst').mentions k = false)
    (rigid : (distinctRels? inst).bind (Term.hole l inst').abstractRels? = none) :
    Solving cx again s inst
      (solveOr .higherOrder again (fun _ => failure) s l inst' (.hole l inst') (.hole k inst) <|>
        postpone .higherOrder s (.hole k inst) (.hole l inst')) := by
  cases instantiated : s.instantiate? (.hole k inst) with
  | none =>
    unfold solveOr
    rw [instantiated]
    exact .cut
  | some h =>
    have unset := Store.value?_none_of_isAssignable free
    obtain ⟨inst₁, rfl⟩ := Store.exists_of_instantiate?_hole unset instantiated
    have differs : ∀ inst₂, Term.hole k inst₁ ≠ .hole l inst₂ := by
      rintro inst₂ ⟨⟩
      rw [mentions_hole] at absent
      cases absent
    rw [solveOr_of_ne instantiated differs]
    by_cases own : (Term.hole k inst₁).mentions l = true
    · rw [if_pos own]
      refine .waits ⟨free, reducedHole, reducedOther, settled, absent, rigid, ?_⟩
      intro l' inst₂ face
      rw [Store.assignable?, if_pos freeOther] at face
      cases face
      exact ⟨_, instantiated, .inl own⟩
    · rw [if_neg own]
      cases rigidOther : (distinctRels? inst').bind (Term.hole k inst₁).abstractRels? with
      | some v =>
        have assigned : s.assign? l v = some _ := if_pos freeOther
        simp only [assigned]
        exact .assigned assigned
      | none =>
        refine .waits ⟨freeOther, reducedOther,
          Store.whnf?_of_instantiate? reducedHole instantiated,
          Store.instantiate?_idempotent instantiated, by simpa using own, rigidOther, ?_⟩
        intro l' inst₂ face
        rw [Store.assignable?, if_pos free] at face
        cases face
        exact ⟨_, settled, .inr rfl⟩

theorem solving_solve (free : s.isAssignable k = true)
    (reducedHole : whnf? cx s (.hole k inst) .noDelta = some (.hole k inst))
    (reduced : whnf? cx s t .noDelta = some t) :
    Solving cx again s inst (solve .higherOrder again s k inst (.hole k inst) t) := by
  unfold solve
  cases instantiated : s.instantiate? t with
  | none =>
    unfold solveOr
    rw [instantiated]
    exact .cut
  | some u =>
    by_cases same : ∃ inst', u = .hole k inst'
    · obtain ⟨inst', rfl⟩ := same
      rw [solveOr_of_hole instantiated]
      exact .same inst'
    · have differs : ∀ inst', u ≠ .hole k inst' := not_exists.1 same
      rw [solveOr_of_ne instantiated differs]
      by_cases own : u.mentions k = true
      · rw [if_pos own]
        exact .failed
      · rw [if_neg own]
        cases rigid : (distinctRels? inst).bind u.abstractRels? with
        | some v => exact solving_assign free
        | none =>
          cases face : s.assignable? u with
          | none =>
            refine .waits ⟨free, reducedHole, Store.whnf?_of_instantiate? reduced instantiated,
              Store.instantiate?_idempotent instantiated, by simpa using own, rigid, ?_⟩
            intro l inst' yes
            rw [face] at yes
            cases yes
          | some p =>
            obtain ⟨l, inst'⟩ := p
            have freeOther := isAssignable_of_assignable? face
            obtain rfl := eq_of_assignable? face
            exact solving_face free reducedHole freeOther
              (Store.whnf?_of_instantiate? reduced instantiated)
              (Store.instantiate?_idempotent instantiated) (by simpa using own) rigid

end

end Unify

end KeyedMatching
