import KeyedMatching.Proofs.Typing
import KeyedMatching.Proofs.Weakening.Conversion

/-!
# Type inference under one more local type

A local type that is inserted somewhere is the type of a variable that no lifted term has. So
inference finds for a lifted term the lifted type. Errors are different: the terms of an error are
those of the place where it arises, so room is made in them past the binders around that place.

* `Infer.insertLocal`: the local types with one more;
* `TypeError.ArisesIn`: an error is right about terms in a place with given local types;
* `Infer.Weakened`: what is the same with one more local type, wherever it is inserted;
* `Infer.inference_weakens`: inference of any term;
* `Infer.errors_keep_their_place`: an error under a binder, and an instance that is too short.
-/

namespace KeyedMatching

/-- Make room for more variables in the terms of an error. -/
def TypeError.lift (e : TypeError) (c n : Nat) : TypeError :=
  match e with
  | .mismatch arg expected found =>
    .mismatch (arg.lift c n) (expected.lift c n) (found.lift c n)
  | .notAFunction head => .notAFunction (head.lift c n)
  | .notAType term => .notAType (term.lift c n)

theorem Term.lift_eq_sort {t : Term} {c n m : Nat} : t.lift c n = .sort m ↔ t = .sort m := by
  have closed : (Term.sort m).lift c n = .sort m := rfl
  rw [← closed, Term.lift_inj, closed]

/-- A term without arguments is lifted from one without arguments. -/
theorem Term.exists_of_lift_eq_ofHead {t : Term} {g : Head} {c n : Nat}
    (h : t.lift c n = .ofHead g) : ∃ g', t = .ofHead g' ∧ g'.lift c n = g := by
  obtain ⟨g', xs⟩ := t
  rw [Term.lift_mk] at h
  obtain ⟨same, none'⟩ := Term.mk.inj h
  obtain rfl := List.map_eq_nil_iff.1 none'
  exact ⟨g', rfl, same⟩

theorem Term.exists_of_lift_eq_hole {t : Term} {c n k : Nat} {inst : List Term}
    (h : t.lift c n = .hole k inst) : ∃ inst', t = .hole k inst' := by
  obtain ⟨g, rfl, same⟩ := Term.exists_of_lift_eq_ofHead h
  cases g with
  | hole l inst' =>
    rw [Head.lift_hole] at same
    cases same
    exact ⟨inst', rfl⟩
  | _ => simp at same

theorem Term.exists_of_lift_eq_pi {t a b : Term} {c n : Nat} (h : t.lift c n = .pi a b) :
    ∃ a' b', t = .pi a' b' := by
  obtain ⟨g, rfl, same⟩ := Term.exists_of_lift_eq_ofHead h
  cases g with
  | pi a' b' => exact ⟨a', b', rfl⟩
  | _ => simp at same

/-! ## Local types -/

namespace Infer

/-- Insert a local type at position `c`, lifting those that stand inside it. -/
def insertLocal (new : Term) : Nat → List Term → List Term
  | 0, locals => new :: locals
  | c + 1, a :: locals => a.lift c 1 :: insertLocal new c locals
  | _ + 1, [] => []

theorem getElem?_insertLocal_inside (new : Term) {c i : Nat} (inside : i < c)
    (locals : List Term) :
    (insertLocal new c locals)[i]? = locals[i]?.map (·.lift (c - (i + 1)) 1) := by
  induction c generalizing i locals with
  | zero => cases inside
  | succ c ih =>
    cases locals with
    | nil => rfl
    | cons a locals =>
      cases i with
      | zero => rfl
      | succ i =>
        have position : c + 1 - (i + 1 + 1) = c - (i + 1) := by omega
        rw [insertLocal, List.getElem?_cons_succ, List.getElem?_cons_succ, position]
        exact ih (Nat.lt_of_succ_lt_succ inside) locals

theorem getElem?_insertLocal_outside (new : Term) {c i : Nat} (outside : c ≤ i)
    (locals : List Term) : (insertLocal new c locals)[i + 1]? = locals[i]? := by
  induction c generalizing i locals with
  | zero => rfl
  | succ c ih =>
    cases locals with
    | nil => rfl
    | cons a locals =>
      obtain ⟨i, rfl⟩ : ∃ j, i = j + 1 := ⟨i - 1, by omega⟩
      rw [insertLocal, List.getElem?_cons_succ, List.getElem?_cons_succ]
      exact ih (Nat.le_of_succ_le_succ outside) locals

/-- The type of a variable among the local types. -/
theorem local_insertLocal (new : Term) (c i : Nat) (locals : List Term) :
    (insertLocal new c locals)[if c ≤ i then i + 1 else i]?.map
        (fun type => type.lift 0 ((if c ≤ i then i + 1 else i) + 1)) =
      (locals[i]?.map fun type => type.lift 0 (i + 1)).map (·.lift c 1) := by
  by_cases outside : c ≤ i
  · simp only [if_pos outside, getElem?_insertLocal_outside new outside, Option.map_map]
    congr 1
    funext type
    exact (Term.lift_lift type 1 (Nat.le_succ_of_le outside)).symm
  · have inside : i < c := Nat.lt_of_not_le outside
    simp only [if_neg outside, getElem?_insertLocal_inside new inside, Option.map_map]
    congr 1
    funext type
    have along := (Term.movesAlong_lift 1).lift_bind type (i + 1) (Nat.zero_le (c - (i + 1)))
    rw [Nat.sub_add_cancel inside] at along
    exact along.symm

/-! ## Errors -/

/-- With these local types, inference of a term comes to an answer at some depth. -/
def Finds (cx : Context) (s : Store) (locals : List Term) (t : Term) (type? : Option Term) :
    Prop :=
  ∃ n, (within cx (convertible? cx) s n locals t).run = some (.ok type?)

/-- The types that applications of something of a type have. -/
inductive ResultType (cx : Context) (s : Store) (type : Term) : Term → Prop
  | unapplied : ResultType cx s type type
  | applied {u dom body : Term} (h : ResultType cx s type u)
    (function : whnf? cx s u .full = some (.pi dom body)) (x : Term) :
    ResultType cx s type (body.instantiate x)

end Infer

/-- The error is right about terms with these local types: an argument has another type than
expected, an application of what is applied has a type that is no function type, or a domain has
one that is no universe. -/
def TypeError.ArisesIn (cx : Context) (s : Store) (locals : List Term) : TypeError → Prop
  | .mismatch arg expected found =>
    Infer.Finds cx s locals arg (some found) ∧ convertible? cx s found expected = some false
  | .notAFunction head =>
    ∃ type result u, Infer.Finds cx s locals head (some type) ∧
      Infer.ResultType cx s type result ∧ whnf? cx s result .full = some u ∧
      (∀ a b, u ≠ .pi a b) ∧ ∀ k inst, u ≠ .hole k inst
  | .notAType term =>
    ∃ type u, Infer.Finds cx s locals term (some type) ∧ whnf? cx s type .full = some u ∧
      (∀ n, u ≠ .sort n) ∧ ∀ k inst, u ≠ .hole k inst

namespace Infer

/-- One inference and another for each position and each type that is inserted there. All are cut
off, or all have results, moved by `move`, or all end with the same error. That error arises under
some binders more, and past these room is made in it. -/
inductive Weakened {α : Type} (cx : Context) (s : Store) (locals : List Term) (P : α → Prop)
    (move : Nat → α → α) (x : InferM α) (x' : Nat → Term → InferM α) : Prop
  | cut (h : x.run = none) (h' : ∀ c new, (x' c new).run = none)
  | found (a : α) (h : x.run = some (.ok a)) (p : P a)
    (h' : ∀ c new, (x' c new).run = some (.ok (move c a)))
  | failed (e : TypeError) (inner : List Term) (h : x.run = some (.error e))
    (arises : e.ArisesIn cx s (inner ++ locals))
    (h' : ∀ c new, (x' c new).run = some (.error (e.lift (c + inner.length) 1)))

namespace Weakened

section
variable {cx : Context} {s : Store} {locals : List Term} {α β : Type} {P : α → Prop}
  {Q : β → Prop} {move : Nat → α → α} {move' : Nat → β → β} {x : InferM α}
  {x' : Nat → Term → InferM α}

theorem pure {a : α} {a' : Nat → Term → α} (p : P a) (moved : ∀ c new, a' c new = move c a) :
    Weakened cx s locals P move (Pure.pure a) fun c new => Pure.pure (a' c new) :=
  .found a rfl p fun c new => by rw [moved]; rfl

theorem throw {e : TypeError} {e' : Nat → Term → InferM α} (arises : e.ArisesIn cx s locals)
    (moved : ∀ c new, e' c new = MonadExcept.throw (e.lift c 1)) :
    Weakened cx s locals P move (MonadExcept.throw e) e' :=
  .failed e [] rfl arises fun c new => by rw [moved]; rfl

theorem ofAnswer {o : Option α} {o' : Nat → Option α} (p : ∀ a, o = some a → P a)
    (moved : ∀ c, o' c = o.map (move c)) :
    Weakened cx s locals P move (Infer.ofAnswer o) fun c _ => Infer.ofAnswer (o' c) := by
  cases o with
  | none => exact .cut rfl fun c _ => by rw [moved]; rfl
  | some a => exact .found a rfl (p a rfl) fun c _ => by rw [moved]; rfl

theorem bind {f : α → InferM β} {f' : Nat → Term → α → InferM β}
    (hx : Weakened cx s locals P move x x')
    (hf : ∀ a, P a →
      Weakened cx s locals Q move' (f a) fun c new => f' c new (move c a)) :
    Weakened cx s locals Q move' (x >>= f) fun c new => x' c new >>= f' c new := by
  cases hx with
  | cut h h' =>
    exact .cut (by rw [ExceptT.run_bind, h]; rfl) fun c new => by rw [ExceptT.run_bind, h']; rfl
  | failed e inner h arises h' =>
    exact .failed e inner (by rw [ExceptT.run_bind, h]; rfl) arises fun c new => by
      rw [ExceptT.run_bind, h']; rfl
  | found a h p h' =>
    have first : (x >>= f).run = (f a).run := by rw [ExceptT.run_bind, h]; rfl
    have first' (c : Nat) (new : Term) :
        (x' c new >>= f' c new).run = (f' c new (move c a)).run := by
      rw [ExceptT.run_bind, h']; rfl
    cases hf a p with
    | cut g g' => exact .cut (first.trans g) fun c new => (first' c new).trans (g' c new)
    | found b g q g' =>
      exact .found b (first.trans g) q fun c new => (first' c new).trans (g' c new)
    | failed e inner g arises g' =>
      exact .failed e inner (first.trans g) arises fun c new => (first' c new).trans (g' c new)

/-- Under a binder, room is made one variable further out. -/
theorem under {a : Term} (h : Weakened cx s (a :: locals) P move x x') :
    Weakened cx s locals P (fun c => move (c + 1)) x fun c new => x' (c + 1) new := by
  cases h with
  | cut h h' => exact .cut h fun c new => h' (c + 1) new
  | found a h p h' => exact .found a h p fun c new => h' (c + 1) new
  | failed e inner h arises h' =>
    refine .failed e (inner ++ [a]) h (by rwa [List.append_assoc]) fun c new => ?_
    rw [h', List.length_append, List.length_singleton, Nat.add_right_comm, Nat.add_assoc]

theorem mono {P' : α → Prop} (h : Weakened cx s locals P move x x')
    (imp : ∀ a, x.run = some (.ok a) → P a → P' a) : Weakened cx s locals P' move x x' := by
  cases h with
  | cut h h' => exact .cut h h'
  | found a h p h' => exact .found a h (imp a h p) h'
  | failed e inner h arises h' => exact .failed e inner h arises h'

end

end Weakened

/-! ## Inference -/

section
variable {cx : Context} {s : Store}
  {again : List Term → Term → InferM (Option Term)} {locals : List Term}

/-- A type, moved. -/
def moveType (c : Nat) (type? : Option Term) : Option Term :=
  type?.map (·.lift c 1)

/-- What is found for a term: a type that uses holes as it has to, if one is known. -/
def FoundOver (cx : Context) (s : Store) (locals : List Term) (t : Term)
    (type? : Option Term) : Prop :=
  TypeOver s.Saturates type? ∧ Finds cx s locals t type?

/-- Inference goes together with inserting a local type. -/
def Weakens (cx : Context) (s : Store) (again : List Term → Term → InferM (Option Term)) : Prop :=
  ∀ locals t, (∀ a ∈ locals, a.Over s.Saturates) → t.Over s.Saturates →
    Weakened cx s locals (FoundOver cx s locals t) moveType (again locals t) fun c new =>
      again (insertLocal new c locals) (t.lift c 1)

theorem sortOf_weakens (tight : s.Tight cx.signature) (next : Weakens cx s again)
    (hl : ∀ a ∈ locals, a.Over s.Saturates) {type : Term} (p : type.Over s.Saturates) :
    Weakened cx s locals (fun _ => True) (fun _ => id) (sortOf cx s again locals type)
      fun c new => sortOf cx s again (insertLocal new c locals) (type.lift c 1) := by
  refine (next locals type hl p).bind fun u? ⟨uses, finds⟩ => ?_
  cases u? with
  | none => exact .pure trivial fun _ _ => rfl
  | some u =>
    refine (Weakened.ofAnswer (P := fun v => whnf? cx s u .full = some v) (fun v hv => hv)
      fun c => tight.whnf?_lift (uses u rfl) .full c 1).bind fun v hv => ?_
    split
    · exact .pure trivial fun _ _ => rfl
    · exact .pure trivial fun _ _ => rfl
    · next noSort noHole =>
      -- What was no universe and no hole is neither after lifting.
      refine .throw ⟨u, v, finds, hv, noSort, noHole⟩ fun c new => ?_
      split
      · next n lifted => exact absurd (Term.lift_eq_sort.1 lifted) (noSort n)
      · next lifted =>
        obtain ⟨inst, same⟩ := Term.exists_of_lift_eq_hole lifted
        exact absurd same (noHole _ inst)
      · rfl

theorem check_weakens (tight : s.Tight cx.signature) (next : Weakens cx s again)
    (hl : ∀ a ∈ locals, a.Over s.Saturates) {t expected : Term} (p : t.Over s.Saturates)
    (pe : expected.Over s.Saturates) :
    Weakened cx s locals (fun _ => True) (fun _ => id)
      (check (convertible? cx) s again locals t expected)
      fun c new => check (convertible? cx) s again (insertLocal new c locals) (t.lift c 1)
        (expected.lift c 1) := by
  refine (next locals t hl p).bind fun found? ⟨uses, finds⟩ => ?_
  cases found? with
  | none => exact .pure trivial fun _ _ => rfl
  | some found =>
    have compared : Weakened cx s locals (fun b => convertible? cx s found expected = some b)
        (fun _ => id) (Infer.ofAnswer (convertible? cx s found expected))
        fun c _ => Infer.ofAnswer (convertible? cx s (found.lift c 1) (expected.lift c 1)) :=
      .ofAnswer (fun _ answer => answer) fun c => by
        rw [tight.convertible?_lift (uses found rfl) pe, Option.map_id, id]
    refine compared.bind fun b answer => ?_
    cases b with
    | true => exact .pure trivial fun _ _ => rfl
    | false => exact .throw ⟨finds, answer⟩ fun _ _ => rfl

theorem application_weakens (tight : s.Tight cx.signature) (next : Weakens cx s again)
    (hl : ∀ a ∈ locals, a.Over s.Saturates) {head first : Term}
    (finds : Finds cx s locals head (some first)) (xs : List Term) (type : Term)
    (result : ResultType cx s first type) (p : type.Over s.Saturates)
    (hxs : ∀ x ∈ xs, x.Over s.Saturates) :
    Weakened cx s locals (TypeOver s.Saturates) moveType
      (application cx (convertible? cx) s again locals head type xs)
      fun c new => application cx (convertible? cx) s again (insertLocal new c locals)
        (head.lift c 1) (type.lift c 1) (xs.map (·.lift c 1)) := by
  induction xs generalizing type with
  | nil => exact .pure (typeOver_some p) fun _ _ => rfl
  | cons x xs ih =>
    obtain ⟨hx, hxs⟩ := List.forall_mem_cons.1 hxs
    refine (Weakened.ofAnswer (P := fun v => whnf? cx s type .full = some v) (fun v hv => hv)
      fun c => tight.whnf?_lift p .full c 1).bind fun v hv => ?_
    split
    · next dom body =>
      obtain ⟨hdom, hbody⟩ := Term.over_pi.1 (tight.over_of_whnf? p hv)
      refine (check_weakens tight next hl hx hdom).bind fun _ _ => ?_
      have rest := ih (body.instantiate x) (.applied result hv x)
        (Term.over_instantiate hbody hx) hxs
      simp only [Term.lift_instantiate] at rest
      exact rest
    · exact .pure typeOver_none fun _ _ => rfl
    · next noPi noHole =>
      refine .throw ⟨first, type, v, finds, result, hv, noPi, noHole⟩ fun c new => ?_
      split
      · next lifted =>
        obtain ⟨a, b, same⟩ := Term.exists_of_lift_eq_pi lifted
        exact absurd same (noPi a b)
      · next lifted =>
        obtain ⟨inst, same⟩ := Term.exists_of_lift_eq_hole lifted
        exact absurd same (noHole _ inst)
      · rfl

theorem visit_weakens (next : Weakens cx s again) (hl : ∀ a ∈ locals, a.Over s.Saturates)
    {xs : List Term} (hxs : ∀ x ∈ xs, x.Over s.Saturates) :
    Weakened cx s locals (fun _ => True) (fun _ => id) (visit again locals xs)
      fun c new => visit again (insertLocal new c locals) (xs.map (·.lift c 1)) := by
  induction xs with
  | nil => exact .pure trivial fun _ _ => rfl
  | cons x xs ih =>
    obtain ⟨hx, hxs⟩ := List.forall_mem_cons.1 hxs
    exact (next locals x hl hx).bind fun _ _ => ih hxs

theorem head_weakens (tight : s.Tight cx.signature) (next : Weakens cx s again)
    (hl : ∀ a ∈ locals, a.Over s.Saturates) (h : Head) (p : (Term.ofHead h).Over s.Saturates) :
    Weakened cx s locals (TypeOver s.Saturates) moveType
      (head cx (convertible? cx) s again locals h)
      fun c new => head cx (convertible? cx) s again (insertLocal new c locals) (h.lift c 1) := by
  cases h with
  | rel i =>
    simp only [Head.lift_rel]
    refine .pure (fun type known => ?_) fun c new => local_insertLocal new c i locals
    obtain ⟨a, ha, rfl⟩ := Option.map_eq_some_iff.1 known
    exact Term.over_lift (hl a (List.mem_of_getElem? ha))
  | sort m => exact .pure (typeOver_some (Term.over_sort _)) fun _ _ => rfl
  | const k =>
    refine .pure (fun type known => (tight.types k type known).2) fun c _ => ?_
    cases known : cx.signature.type? k with
    | none => rfl
    | some type => exact congrArg some (Term.lift_of_closed (tight.types k type known).1 c 1).symm
  | hole k inst =>
    obtain ⟨enough, hinst⟩ := Term.over_hole.1 p
    simp only [Head.lift_hole, head]
    cases hv : s.value? k with
    | some v =>
      obtain ⟨inside, uses⟩ := tight.value hv enough
      have value := next locals _ hl (Term.over_instantiateMany uses hinst)
      simp only [Term.lift_instantiateMany _ _ inside] at value
      exact value.mono fun _ _ known => known.1
    | none =>
      refine .pure (fun type known => ?_) fun c _ => ?_
      · obtain ⟨a, ha, rfl⟩ := Option.map_eq_some_iff.1 known
        exact Term.over_instantiateMany (tight.declaredType ha enough).2 hinst
      · cases known : (s.hole? k).bind (·.type?) with
        | none => rfl
        | some a =>
          have inside := (tight.declaredType known enough).1
          exact congrArg some (Term.lift_instantiateMany c 1 inside).symm
  | pi a b =>
    obtain ⟨pa, pb⟩ := Term.over_pi.1 p
    refine (sortOf_weakens tight next hl pa).bind fun m _ => ?_
    refine (sortOf_weakens tight next (List.forall_mem_cons.2 ⟨pa, hl⟩) pb).under.bind
      fun n _ => ?_
    have sort (m : Nat) : TypeOver s.Saturates (some (.sort m)) :=
      typeOver_some (Term.over_sort m)
    cases n with
    | none => cases m <;> exact .pure typeOver_none fun _ _ => rfl
    | some n =>
      cases n with
      | zero => cases m <;> exact .pure (sort 0) fun _ _ => rfl
      | succ n =>
        cases m with
        | none => exact .pure typeOver_none fun _ _ => rfl
        | some m => exact .pure (sort (max m (n + 1))) fun _ _ => rfl
  | lam a b =>
    obtain ⟨pa, pb⟩ := Term.over_lam.1 p
    refine (sortOf_weakens tight next hl pa).bind fun _ _ => ?_
    refine (next (a :: locals) b (List.forall_mem_cons.2 ⟨pa, hl⟩) pb).under.bind
      fun type? body => .pure (fun type known => ?_) fun _ _ => ?_
    · obtain ⟨u, hu, rfl⟩ := Option.map_eq_some_iff.1 known
      exact Term.over_pi.2 ⟨pa, body.1 u hu⟩
    · cases type? <;> rfl
  | letIn v a b =>
    obtain ⟨pa, pv, pb⟩ := Term.over_letIn.1 p
    refine (check_weakens tight next hl pv pa).bind fun _ _ => ?_
    have body := next locals _ hl (Term.over_instantiate pb pv)
    simp only [Term.lift_instantiate] at body
    exact body.mono fun _ _ known => known.1
  | cast t a =>
    obtain ⟨pa, pt⟩ := Term.over_cast.1 p
    exact (check_weakens tight next hl pt pa).bind fun _ _ =>
      .pure (typeOver_some pa) fun _ _ => rfl
  | case r t bs =>
    obtain ⟨pr, pt, pbs⟩ := Term.over_case.1 p
    simp only [Head.lift_case]
    refine (next locals t hl pt).bind fun _ _ => ?_
    refine (visit_weakens next hl pbs).bind fun _ _ => ?_
    exact .pure (typeOver_some (Term.over_betaApply pr (by simpa using pt)))
      fun c _ => congrArg some (Term.lift_betaApply c 1 r [t]).symm
  | fix i as bs =>
    simp only [Head.lift_fix]
    refine .pure (fun type known => ?_) fun _ _ => List.getElem?_map
    exact (Term.over_fix.1 p).1 type (List.mem_of_getElem? known)

theorem within_weakens (tight : s.Tight cx.signature) (n : Nat) :
    Weakens cx s (within cx (convertible? cx) s n) := by
  -- The induction is on the depth. What is found at each is kept, because an error speaks of it.
  induction n with
  | zero => exact fun _ _ _ _ => .cut rfl fun _ _ => rfl
  | succ n ih =>
    intro locals t hl p
    refine Weakened.mono (P := TypeOver s.Saturates) ?_ fun type? found uses =>
      ⟨uses, n + 1, found⟩
    obtain ⟨h, xs⟩ := t
    simp only [Term.lift_mk]
    cases xs with
    | nil => exact head_weakens tight ih hl h p
    | cons x xs =>
      obtain ⟨ph, pxs⟩ := Term.over_mk.1 p
      have applied := ih locals (.ofHead h) hl ph
      simp only [Term.lift_ofHead] at applied
      refine applied.bind fun type? ⟨uses, finds⟩ => ?_
      cases type? with
      | none => exact .pure typeOver_none fun _ _ => rfl
      | some type =>
        have result := application_weakens tight ih hl finds (x :: xs) type .unapplied
          (uses type rfl) pxs
        simp only [Term.lift_ofHead] at result
        exact result

end

/-- Inference of a term with one more local type, at any position, of any type: it ends for the
lifted term where it ends for the term; it finds the lifted type; or it comes to the same error.
The terms of an error are those of a place under further binders, `inner` being their types, and
they are lifted past these binders. Nothing but the position matters for where they are lifted. -/
theorem inference_weakens {cx : Context} {s : Store} (tight : s.Tight cx.signature) (n : Nat)
    {locals : List Term} (hl : ∀ a ∈ locals, a.Over s.Saturates) {t : Term}
    (p : t.Over s.Saturates) :
    let inferred := (within cx (convertible? cx) s n locals t).run
    let widened (c : Nat) (new : Term) :=
      (within cx (convertible? cx) s n (insertLocal new c locals) (t.lift c 1)).run
    (inferred = none → ∀ c new, widened c new = none) ∧
    (∀ type?, inferred = some (.ok type?) →
      ∀ c new, widened c new = some (.ok (type?.map (·.lift c 1)))) ∧
    ∀ e, inferred = some (.error e) → ∃ inner, e.ArisesIn cx s (inner ++ locals) ∧
      ∀ c new, widened c new = some (.error (e.lift (c + inner.length) 1)) := by
  intro inferred widened
  cases within_weakens tight n locals t hl p with
  | cut h h' =>
    refine ⟨fun _ => h', fun type? found => ?_, fun e failed => ?_⟩
    · cases h.symm.trans found
    · cases h.symm.trans failed
  | found type? h _ h' =>
    refine ⟨fun cut => ?_, fun type?' found => ?_, fun e failed => ?_⟩
    · cases h.symm.trans cut
    · cases h.symm.trans found
      exact h'
    · cases h.symm.trans failed
  | failed e inner h arises h' =>
    refine ⟨fun cut => ?_, fun type? found => ?_, fun e' failed => ?_⟩
    · cases h.symm.trans cut
    · cases h.symm.trans found
    · cases h.symm.trans failed
      exact ⟨inner, arises, h'⟩

end Infer

/-- A store with one hole, whose value is its variable. -/
def Store.identityHole : Store :=
  (Store.empty.fresh 1 none .ordinary).2.setValue 0 (.rel 0)

theorem Store.tight_identityHole : Store.identityHole.Tight Signature.empty where
  types _ _ h := by cases h
  definitions _ _ h := by cases h
  canonicals _ _ _ h := by cases h
  values k d v hd hv := by
    match k with
    | 0 =>
      cases hd
      cases hv
      exact ⟨by simp [Term.Scoped, Term.Every, Head.Every, Term.EveryAll], Term.over_rel 0⟩
    | k + 1 => cases hd
  declared k d a hd ha := by
    match k with
    | 0 =>
      cases hd
      cases ha
    | k + 1 => cases hd

namespace Infer

/-- Under a binder, a function is applied to a local variable of another type than it expects. The
variable is renumbered by what is inserted before it, and not by what is inserted behind it: there
is one binder around it. -/
theorem inference_weakens_mismatch :
    let cx : Context := { limit := 6 }
    let s := Store.identityHole
    let locals : List Term := [.const "A", .pi (.const "B") (.const "C")]
    let t : Term := .lam (.const "T") (.mk (.rel 2) [.hole 0 [.rel 1]])
    let e : TypeError := .mismatch (.hole 0 [.rel 1]) (.const "B") (.const "A")
    s.Tight cx.signature ∧ (∀ a ∈ locals, a.Over s.Saturates) ∧ t.Over s.Saturates ∧
      (within cx (convertible? cx) s 6 locals t).run = some (.error e) ∧
      ∃ inner, inner.length = 1 ∧ e.ArisesIn cx s (inner ++ locals) ∧
        ∀ c new, (within cx (convertible? cx) s 6 (insertLocal new c locals) (t.lift c 1)).run =
          some (.error (e.lift (c + 1) 1)) := by
  intro cx s locals t e
  have enough : s.Saturates 0 1 := by
    rintro d ⟨⟩
    exact Nat.le_refl 1
  have hl : ∀ a ∈ locals, a.Over s.Saturates := by
    simp only [locals, List.forall_mem_cons, List.not_mem_nil, false_implies, implies_true,
      and_true]
    exact ⟨Term.over_const _, Term.over_pi.2 ⟨Term.over_const _, Term.over_const _⟩⟩
  have arg : (Term.hole 0 [.rel 1]).Over s.Saturates :=
    Term.over_hole.2 ⟨enough, List.forall_mem_singleton.2 (Term.over_rel 1)⟩
  have p : t.Over s.Saturates :=
    Term.over_lam.2 ⟨Term.over_const _,
      Term.over_mk.2 ⟨Term.over_rel 2, List.forall_mem_singleton.2 arg⟩⟩
  have failed : (within cx (convertible? cx) s 6 locals t).run = some (.error e) := by
    decide +kernel
  obtain ⟨inner, arises, widened⟩ :=
    (inference_weakens Store.tight_identityHole 6 hl p).2.2 e failed
  have before : (within cx (convertible? cx) s 6 (insertLocal (.const "N") 0 locals)
      (t.lift 0 1)).run = some (.error (e.lift 1 1)) := by
    decide +kernel
  have behind : (within cx (convertible? cx) s 6 (insertLocal (.const "N") 1 locals)
      (t.lift 1 1)).run = some (.error e) := by
    decide +kernel
  have touched : e.lift 1 1 ≠ e := by decide +kernel
  have past (d : Nat) : e.lift (d + 2) 1 = e := by
    simp [e, TypeError.lift, Term.lift, Term.bind, Head.bind, Term.bindAll]
  have moved : e.lift inner.length 1 = e.lift 1 1 := by
    simpa using (widened 0 (.const "N")).symm.trans before
  have stays : e.lift (1 + inner.length) 1 = e := by
    simpa using (widened 1 (.const "N")).symm.trans behind
  have depth : inner.length = 1 := by
    match h : inner.length with
    | 0 =>
      rw [h] at stays
      exact absurd stays touched
    | 1 => rfl
    | d + 2 =>
      rw [h, past] at moved
      exact absurd moved.symm touched
  rw [depth] at widened
  exact ⟨Store.tight_identityHole, hl, p, failed, inner, depth, arises, widened⟩

/-- The variable in an error under a binder is the one of that binder, which no insertion moves.
And an instance that is shorter than the arity of its hole lets a variable of the value out: that
one takes the type that was inserted. -/
theorem errors_keep_their_place :
    let cx : Context := { limit := 5 }
    let infer (s : Store) (locals : List Term) (t : Term) :=
      (within cx (convertible? cx) s 5 locals t).run
    let selfApplied : Term := .lam (.const "T") (.mk (.rel 0) [.rel 0])
    let e : TypeError := .notAFunction (.rel 0)
    let short : Term := .hole 0 []
    (infer .empty [] selfApplied = some (.error e) ∧
      infer .empty (insertLocal (.const "N") 0 []) (selfApplied.lift 0 1) = some (.error e) ∧
      e.lift 0 1 ≠ e) ∧
    Store.identityHole.Tight cx.signature ∧
      infer .identityHole [.const "A"] short = some (.ok (some (.const "A"))) ∧
      infer .identityHole (insertLocal (.const "N") 0 [.const "A"]) (short.lift 0 1) =
        some (.ok (some (.const "N"))) ∧
      (Term.const "A").lift 0 1 ≠ .const "N" := by
  refine ⟨⟨?_, ?_, ?_⟩, Store.tight_identityHole, ?_, ?_, ?_⟩ <;> decide +kernel

end Infer

end KeyedMatching
