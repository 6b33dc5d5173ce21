import KeyedMatching.Proofs.Matching.Hits
import KeyedMatching.Proofs.Matching.Walk
import KeyedMatching.Proofs.Term.Copies

/-!
# Nothing is left behind

A search for all occurrences leaves no copy of the matched term in its context.

* `keyPrefixes?_lift`: which prefixes of a node a pattern may match does not depend on the binders
  around the node;
* `hit?_of_isCopy`: where a copy of the key of a match stands, there is a match;
* `OccurrenceTest.Thorough`: a node that the test passes over is no copy of a key that it may still
  settle on;
* `Term.walk_clears`: a walk that chooses all occurrences leaves no copy of the key;
* `all_leaves_no_copy`: so does a search.
-/

namespace KeyedMatching

/-! ## Where a copy stands there is a match -/

section
variable {cx : Context} {u : Unifier} {scope : Scope} {base : Store} {pass : Pass}
  {ps : List Pattern}

/-- Which prefixes of a node a pattern may match does not depend on the binders around the node. -/
theorem keyPrefixes?_lift (p : Pattern) (h : Head) (n d : Nat) :
    keyPrefixes? cx pass p (h.lift 0 d) n d = keyPrefixes? cx pass p h n 0 := by
  have fixed (g : Head) : (Term.ofHead g).lift 0 d = .ofHead (h.lift 0 d) ↔
      (Term.ofHead g).lift 0 0 = .ofHead h := by
    simp [Term.lift_ofHead, Head.lift_inj]
  have foreign (k : Nat) :
      (Term.ofHead (h.lift 0 d)).hole? = some k ↔ (Term.ofHead h).hole? = some k := by
    cases h <;> simp [Term.hole?]
  unfold keyPrefixes?
  cases p.cls with
  | fixed => simp only [fixed]
  | foreignHole k => simp only [foreign]
  | localDefinition => simp only [Head.shape_lift]
  | rigid shape => simp only [Head.shape_lift]
  | flexible k => rfl
  | projection proj params => cases h <;> simp

/-- A prefix that is admitted is there. At another node with the same head it is admitted, too, if
it is there; without arguments only if that node has none. -/
theorem mem_keyPrefixes? {p : Pattern} {h : Head} {n d len : Nat}
    (admitted : len ∈ (keyPrefixes? cx pass p h n d).getD []) :
    len ≤ n ∧ ∀ m, len ≤ m → (len = 0 → m = 0) → len ∈ (keyPrefixes? cx pass p h m d).getD [] := by
  -- What is said of the one prefix that most patterns may match.
  have single {ok : Bool} {arity : Nat}
      (here : len ∈ if ok && (if arity = 0 then n = 0 else arity ≤ n) then [arity] else []) :
      len ≤ n ∧ ∀ m, len ≤ m → (len = 0 → m = 0) →
        len ∈ if ok && (if arity = 0 then m = 0 else arity ≤ m) then [arity] else [] := by
    by_cases admits : (ok && (if arity = 0 then n = 0 else arity ≤ n)) = true
    · rw [if_pos admits] at here
      obtain rfl := List.mem_singleton.1 here
      obtain ⟨rfl, long⟩ : ok = true ∧ (if len = 0 then n = 0 else len ≤ n) := by
        simpa using admits
      refine ⟨by split at long <;> omega, fun m enough bare => ?_⟩
      have there : if len = 0 then m = 0 else len ≤ m := by
        split
        · next none' => exact bare none'
        · exact enough
      simp [there]
    · rw [if_neg admits] at here
      cases here
  unfold keyPrefixes? at admitted ⊢
  cases cls : p.cls with
  | fixed =>
    simp only [cls] at admitted ⊢
    exact single admitted
  | foreignHole k =>
    simp only [cls] at admitted ⊢
    exact single admitted
  | localDefinition =>
    simp only [cls] at admitted ⊢
    exact single admitted
  | rigid shape =>
    simp only [cls] at admitted ⊢
    exact single admitted
  | flexible k =>
    simp only [cls] at admitted ⊢
    cases pass with
    | firstOrder => exact single admitted
    | higherOrder =>
      obtain ⟨i, hi, rfl⟩ := List.mem_map.1 admitted
      have := List.mem_range.1 hi
      exact ⟨by omega, fun m enough _ => List.mem_map.2 ⟨i, List.mem_range.2 (by omega), rfl⟩⟩
  | projection proj params =>
    simp only [cls] at admitted ⊢
    cases h with
    | const c =>
      dsimp only at admitted ⊢
      split at admitted
      · next same =>
        simp only [same, if_true]
        exact single admitted
      · next other =>
        simp only [other, if_false]
        split at admitted
        · next form known =>
          split at admitted
          · cases admitted
          · next small =>
            simp only [small, if_false]
            exact single admitted
        · cases admitted
    | _ => cases admitted

/-- Where a copy of the key of a match stands there is a match. -/
theorem hit?_of_isCopy {w t : Term} {e d : Nat} {l : Located}
    (found : hit? cx u scope base pass ps w e = some l) (copy : l.key.IsCopy d t) :
    hit? cx u scope base pass ps t d ≠ none := by
  intro missed
  obtain ⟨i, p, len, listed, admitted, success, _⟩ := firstHit_of_hit? found
  obtain ⟨sub, lowered, tried⟩ := Option.bind_eq_some_iff.1 success
  obtain ⟨⟨l?, n⟩, ran, eq⟩ := Option.bind_eq_some_iff.1 tried
  cases eq
  obtain ⟨rfl, _⟩ := tryPattern_ensures listed 0 l n ran
  have original := Term.lift_of_lower? lowered
  -- The prefix that was matched has as many arguments as the key.
  have head : w.head = l.key.head.lift 0 e := by
    rw [← Term.head_lift, original]
    rfl
  have args : w.args.take len = l.key.args.map (·.lift 0 e) := by
    rw [← Term.args_lift, original]
    rfl
  rw [prefixes, head, keyPrefixes?_lift] at admitted
  obtain ⟨there, elsewhere⟩ := mem_keyPrefixes? admitted
  have length : l.key.args.length = len := by
    rw [← List.length_map (·.lift 0 e), ← args, List.length_take]
    omega
  have here : len ∈ prefixes cx pass p t d := by
    rw [prefixes, copy.head, keyPrefixes?_lift]
    refine elsewhere _ (length ▸ copy.length_le) fun none' => ?_
    rw [copy.2 (List.eq_nil_of_length_eq_zero (length.trans none'))]
    rfl
  have again : attempt? cx u scope base pass i p t d len = some l := by
    rw [attempt?, ← length, copy.1, Term.lower?_lift]
    exact tried
  rw [noHit_of_hit? missed i p listed len here] at again
  cases again

/-- A copy of the matched term is the matched term again. -/
theorem not_isCopy_of_sameAgain? (reflexive : ∀ s t, u.sameInstance? s t t ≠ some false)
    {l : Located} {t : Term} {d : Nat} (h : sameAgain? u l t d = some none) :
    ¬ l.key.IsCopy d t := by
  intro copy
  have args : (l.key.lift 0 d).args.length = l.key.args.length := by
    rw [Term.args_lift, List.length_map]
  have never (n : Nat) {a b : Term} (same : a = b) :
      (do if ← u.sameInstance? l.store a b then return some n else return none) ≠
        some (none : Option Nat) := by
    subst same
    intro no
    obtain ⟨answer, asked, no⟩ := Option.bind_eq_some_iff.1 no
    cases answer with
    | true => cases no
    | false => exact reflexive l.store a asked
  unfold sameAgain? at h
  dsimp only at h
  rw [args] at h
  by_cases bare : l.key.args.length = 0
  · have none' := copy.2 (List.eq_nil_of_length_eq_zero bare)
    have whole : l.key.lift 0 d = t := by
      rw [← copy.1, none', List.take_nil, ← none']
      cases t
      rfl
    rw [if_pos bare, none', List.isEmpty_nil, if_pos rfl] at h
    exact never 0 whole h
  · have admitted : ¬ (t.head ≠ (l.key.lift 0 d).head ∨ t.args.length < l.key.args.length) := by
      rintro (other | short)
      · exact other (by rw [Term.head_lift, copy.head])
      · exact absurd copy.length_le (Nat.not_le.2 short)
    rw [if_neg bare, if_neg admitted] at h
    exact never _ copy.1.symm h

end

/-! ## Walks that choose every occurrence -/

section
variable {σ α β : Type}

/-- `May st key`: the test may settle on that key, or has. A node that the test passes over is no
copy of such a key. -/
structure OccurrenceTest.Thorough (test : OccurrenceTest σ) (May : σ → Term → Prop) : Prop where
  kept : ∀ u d st r st' key, test.occurrenceAt u d st = some (r, st') → May st' key → May st key
  chosen : ∀ u d st n st' key, test.occurrenceAt u d st = some (some n, st') →
    May (test.select st') key → May st key
  passed : ∀ u d st st' key, test.occurrenceAt u d st = some (none, st') → May st key →
    ¬ key.IsCopy d u

/-- For every key that the test may have after a walk it may have had that key before, and `Q` holds
between the key and the result. -/
def Walk.Leaves (May : σ → Term → Prop) (x : Walk σ α) (Q : Term → α → Prop) : Prop :=
  ∀ st a st', x.run st = some (a, st') → ∀ key, May st'.state key → May st.state key ∧ Q key a

/-- No node of the list, and no prefix of one, is a copy of the key under one more binder. -/
def CopyFree (key : Term) (nodes : List (Term × Nat)) : Prop :=
  ∀ node ∈ nodes, ∀ m,
    Term.mk node.1.head (node.1.args.take m) ≠ key.lift 0 (node.2 + 1)

/-- The term `c`, which was made of `t` under `d` binders, has no copy of the key; and it is `t`
with room for the new variable, if it is any term with that. -/
structure Term.Cleared (key : Term) (d : Nat) (t c : Term) : Prop where
  free : CopyFree key (c.preorder d)
  same : ∀ u, c = u.lift d 1 → t = u

/-- `Term.Cleared` for heads. -/
structure Head.Cleared (key : Term) (d : Nat) (h g : Head) : Prop where
  free : CopyFree key (g.inner d)
  same : ∀ f, g = f.lift d 1 → h = f

section
variable {May : σ → Term → Prop}

theorem Walk.leaves_pure {a : α} {Q : Term → α → Prop} (h : ∀ key, Q key a) :
    Walk.Leaves May (pure a) Q := by
  intro st b st' hb
  cases hb
  exact fun key may => ⟨may, h key⟩

theorem Walk.leaves_bind {x : Walk σ α} {f : α → Walk σ β} {P : Term → α → Prop}
    {Q : Term → β → Prop} (hx : Walk.Leaves May x P)
    (hf : ∀ a, Walk.Leaves May (f a) fun key b => P key a → Q key b) :
    Walk.Leaves May (x >>= f) Q := by
  intro st b st' h key may
  obtain ⟨a, mid, ha, hb⟩ := Walk.run_bind_iff.1 h
  obtain ⟨before, second⟩ := hf a mid b st' hb key may
  obtain ⟨start, first⟩ := hx st a mid ha key before
  exact ⟨start, second first⟩

theorem visit_leaves {test : OccurrenceTest σ} (thorough : test.Thorough May) (u : Term) (d : Nat) :
    Walk.Leaves May (visit .all test u d) fun key r => r = none → ¬ key.IsCopy d u := by
  intro st r st' h key may
  cases visited_of_run h with
  | passed hr =>
    have before := thorough.kept u d st.state none _ key hr may
    exact ⟨before, fun _ => thorough.passed u d st.state _ key hr before⟩
  | chosen hr => exact ⟨thorough.chosen u d st.state _ _ key hr may, fun none' => by cases none'⟩
  | left _ other => cases other

end

/-! ### What is put together without a copy -/

section
variable {key : Term} {d : Nat}

theorem copyFree_nil : CopyFree key [] :=
  List.forall_mem_nil _

theorem copyFree_append {nodes nodes' : List (Term × Nat)} :
    CopyFree key (nodes ++ nodes') ↔ CopyFree key nodes ∧ CopyFree key nodes' :=
  List.forall_mem_append

theorem copyFree_preorderAll {xs ys : List Term}
    (h : List.Forall₂ (Term.Cleared key d) xs ys) : CopyFree key (Term.preorderAll d ys) := by
  induction h with
  | nil => exact copyFree_nil
  | cons hy _ ih => exact copyFree_append.2 ⟨hy.free, ih⟩

theorem copyFree_mk {g : Head} {xs ys : List Term}
    (whole : ∀ m, Term.mk g (ys.take m) ≠ key.lift 0 (d + 1)) (inner : CopyFree key (g.inner d))
    (args : List.Forall₂ (Term.Cleared key d) xs ys) :
    CopyFree key ((Term.mk g ys).preorder d) := by
  have rest := copyFree_preorderAll args
  cases ys with
  | nil =>
    exact List.forall_mem_cons.2 ⟨whole, inner⟩
  | cons y ys =>
    have head (m : Nat) : Term.mk g (([] : List Term).take m) ≠ key.lift 0 (d + 1) := by
      rw [List.take_nil]
      exact whole 0
    exact List.forall_mem_cons.2 ⟨whole, List.forall_mem_cons.2 ⟨head,
      copyFree_append.2 ⟨inner, rest⟩⟩⟩

/-- The arguments are what they were with room for the new variable, if they are any terms with
that. -/
theorem eq_of_cleared {xs ys us : List Term} (h : List.Forall₂ (Term.Cleared key d) xs ys)
    (same : ys = us.map (·.lift d 1)) : xs = us := by
  induction h generalizing us with
  | nil =>
    cases us with
    | nil => rfl
    | cons u us => cases same
  | cons hy _ ih =>
    cases us with
    | nil => cases same
    | cons u us =>
      obtain ⟨first, rest⟩ := List.cons.inj same
      rw [hy.same u first, ih rest]

/-- A term with the new variable at its head. -/
theorem Term.cleared_mark {xs ys : List Term} (t : Term)
    (args : List.Forall₂ (Term.Cleared key d) xs ys) :
    Term.Cleared key d t ((Term.rel d).apply ys) := by
  constructor
  · refine copyFree_mk (fun m same => ?_) copyFree_nil args
    have head := congrArg Term.head same
    rw [Term.head_lift] at head
    exact Head.lift_ne_rel _ (Nat.zero_le d) (by omega) head.symm
  · intro u same
    have head := congrArg Term.head same
    rw [Term.head_lift] at head
    exact absurd head.symm (Head.lift_ne_rel _ (Nat.le_refl d) (by omega))

/-- A node that is passed over, as is its head if it has arguments. -/
theorem Term.cleared_mk {h g : Head} {xs ys : List Term} (head : Head.Cleared key d h g)
    (args : List.Forall₂ (Term.Cleared key d) xs ys) (node : ¬ key.IsCopy d (.mk h xs))
    (bare : ¬ key.IsCopy d (.ofHead h)) : Term.Cleared key d (.mk h xs) (.mk g ys) := by
  constructor
  · refine copyFree_mk (fun m same => ?_) head.free args
    -- A copy in the result has no new variable, so it was a copy before.
    rcases hkey : key.lift 0 d with ⟨f, us⟩
    rw [← Term.lift_lift key 1 (Nat.le_refl d), hkey, Term.lift_mk] at same
    obtain ⟨first, rest⟩ := Term.mk.inj same
    have before : Term.mk h (xs.take m) = key.lift 0 d := by
      rw [hkey, head.same f first, eq_of_cleared (List.forall₂_take m args) rest]
    by_cases none' : key.args = []
    · have args : xs.take m = [] := by
        have := congrArg Term.args before
        rwa [Term.args_lift, none', List.map_nil] at this
      rw [args] at before
      refine bare (Term.isCopy_of_prefix (m := 0) ?_ fun _ => rfl)
      exact before
    · exact node (Term.isCopy_of_prefix before fun absent => absurd absent none')
  · intro u same
    obtain ⟨f, us⟩ := u
    rw [Term.lift_mk] at same
    obtain ⟨first, rest⟩ := Term.mk.inj same
    rw [head.same f first, eq_of_cleared args rest]

end

/-! ### The walk -/

section
variable {test : OccurrenceTest σ} {May : σ → Term → Prop}

theorem Walk.leaves_map {x : Walk σ α} {f : α → β} {P : Term → α → Prop} {Q : Term → β → Prop}
    (hx : Walk.Leaves May x P) (imp : ∀ key a, P key a → Q key (f a)) :
    Walk.Leaves May (x >>= fun a => pure (f a)) Q :=
  Walk.leaves_bind hx fun a => Walk.leaves_pure fun key => imp key a

mutual

theorem Head.walk_clears (thorough : test.Thorough May) : (h : Head) → (d : Nat) →
    Walk.Leaves May (h.walk .all test d) fun key g => Head.Cleared key d h g
  | .rel i, d => by
    refine Walk.leaves_pure fun key => ⟨copyFree_nil, fun f same => ?_⟩
    exact Head.lift_inj.1 ((Head.lift_rel d 1 i).trans same)
  | .sort n, d => Walk.leaves_pure fun key => ⟨copyFree_nil, fun f same => Head.lift_inj.1 same⟩
  | .const c, d => Walk.leaves_pure fun key => ⟨copyFree_nil, fun f same => Head.lift_inj.1 same⟩
  | .hole k xs, d => by
    refine Walk.leaves_map (Term.walkFrom_clears thorough xs d 0) fun key ys cleared => ?_
    refine ⟨copyFree_preorderAll cleared, fun f same => ?_⟩
    cases f with
    | hole l us =>
      rw [Head.lift_hole] at same
      obtain ⟨rfl, inst⟩ := Head.hole.inj same
      rw [← eq_of_cleared cleared inst, List.drop_zero]
    | _ => simp at same
  | .pi a b, d => by
    refine Walk.leaves_bind (Term.walk_clears thorough a d) fun a' => ?_
    refine Walk.leaves_map (Term.walk_clears thorough b (d + 1)) fun key b' hb ha => ?_
    refine ⟨copyFree_append.2 ⟨ha.free, hb.free⟩, fun f same => ?_⟩
    cases f with
    | pi u w =>
      obtain ⟨dom, body⟩ := Head.pi.inj same
      rw [ha.same u dom, hb.same w body]
    | _ => simp at same
  | .lam a b, d => by
    refine Walk.leaves_bind (Term.walk_clears thorough a d) fun a' => ?_
    refine Walk.leaves_map (Term.walk_clears thorough b (d + 1)) fun key b' hb ha => ?_
    refine ⟨copyFree_append.2 ⟨ha.free, hb.free⟩, fun f same => ?_⟩
    cases f with
    | lam u w =>
      obtain ⟨dom, body⟩ := Head.lam.inj same
      rw [ha.same u dom, hb.same w body]
    | _ => simp at same
  | .letIn v a b, d => by
    refine Walk.leaves_bind (Term.walk_clears thorough a d) fun a' => ?_
    refine Walk.leaves_bind (Term.walk_clears thorough v d) fun v' => ?_
    refine Walk.leaves_map (Term.walk_clears thorough b (d + 1)) fun key b' hb hv ha => ?_
    refine ⟨copyFree_append.2 ⟨ha.free, copyFree_append.2 ⟨hv.free, hb.free⟩⟩, fun f same => ?_⟩
    cases f with
    | letIn u w r =>
      obtain ⟨value, type, body⟩ := Head.letIn.inj same
      rw [hv.same u value, ha.same w type, hb.same r body]
    | _ => simp at same
  | .cast t a, d => by
    refine Walk.leaves_bind (Term.walk_clears thorough a d) fun a' => ?_
    refine Walk.leaves_map (Term.walk_clears thorough t d) fun key t' ht ha => ?_
    refine ⟨copyFree_append.2 ⟨ha.free, ht.free⟩, fun f same => ?_⟩
    cases f with
    | cast u w =>
      obtain ⟨subject, type⟩ := Head.cast.inj same
      rw [ht.same u subject, ha.same w type]
    | _ => simp at same
  | .case r t bs, d => by
    refine Walk.leaves_bind (Term.walk_clears thorough r d) fun r' => ?_
    refine Walk.leaves_bind (Term.walk_clears thorough t d) fun t' => ?_
    refine Walk.leaves_map (Term.walkFrom_clears thorough bs d 0) fun key bs' hbs ht hr => ?_
    refine ⟨copyFree_append.2 ⟨hr.free, copyFree_append.2 ⟨ht.free, copyFree_preorderAll hbs⟩⟩,
      fun f same => ?_⟩
    cases f with
    | case u w us =>
      rw [Head.lift_case] at same
      obtain ⟨motive, scrutinee, branches⟩ := Head.case.inj same
      rw [hr.same u motive, ht.same w scrutinee, ← eq_of_cleared hbs branches, List.drop_zero]
    | _ => simp at same
  | .fix i as bs, d => by
    refine Walk.leaves_bind (Term.walkFrom_clears thorough as d 0) fun as' => ?_
    refine Walk.leaves_map (Term.walkFrom_clears thorough bs (d + as.length) 0)
      fun key bs' hbs has => ?_
    rw [List.drop_zero] at hbs has
    have len := has.length_eq
    refine ⟨copyFree_append.2 ⟨copyFree_preorderAll has, ?_⟩, fun f same => ?_⟩
    · rw [← len]
      exact copyFree_preorderAll hbs
    · cases f with
      | fix j us ws =>
        rw [Head.lift_fix] at same
        obtain ⟨rfl, types, bodies⟩ := Head.fix.inj same
        obtain rfl := eq_of_cleared has types
        rw [eq_of_cleared hbs bodies]
      | _ => simp at same

/-- A walk that chooses all occurrences leaves no copy of the key. -/
theorem Term.walk_clears (thorough : test.Thorough May) : (t : Term) → (d : Nat) →
    Walk.Leaves May (t.walk .all test d) fun key c => Term.Cleared key d t c
  | .mk h [], d => by
    refine Walk.leaves_bind (visit_leaves thorough (.ofHead h) d) fun r => ?_
    cases r with
    | some n => exact Walk.leaves_pure fun key _ => Term.cleared_mark (.ofHead h) .nil
    | none =>
      refine Walk.leaves_map (Head.walk_clears thorough h d) fun key g head missed => ?_
      exact Term.cleared_mk head .nil (missed rfl) (missed rfl)
  | .mk h (x :: xs), d => by
    have spine (n : Nat) := Term.walkFrom_clears thorough (x :: xs) d n
    refine Walk.leaves_bind (visit_leaves thorough (.mk h (x :: xs)) d) fun r => ?_
    cases r with
    | some n =>
      refine Walk.leaves_map (spine n) fun key ys args _ => ?_
      exact Term.cleared_mark (.mk h (x :: xs)) args
    | none =>
      refine Walk.leaves_bind (visit_leaves thorough (.ofHead h) d) fun r => ?_
      cases r with
      | some n =>
        refine Walk.leaves_map (spine 0) fun key ys args _ _ => ?_
        exact Term.cleared_mark (.mk h (x :: xs)) args
      | none =>
        refine Walk.leaves_bind (Head.walk_clears thorough h d) fun g => ?_
        refine Walk.leaves_map (spine 0) fun key ys args head bare node => ?_
        exact Term.cleared_mk head args (node rfl) (bare rfl)

theorem Term.walkFrom_clears (thorough : test.Thorough May) : (xs : List Term) → (d n : Nat) →
    Walk.Leaves May (Term.walkFrom .all test d n xs) fun key ys =>
      List.Forall₂ (Term.Cleared key d) (xs.drop n) ys
  | [], _, n => Walk.leaves_pure fun key => by
    rw [List.drop_nil]
    exact .nil
  | x :: xs, d, 0 => by
    refine Walk.leaves_bind (Term.walk_clears thorough x d) fun y => ?_
    refine Walk.leaves_map (Term.walkFrom_clears thorough xs d 0) fun key ys rest first => ?_
    exact .cons first rest
  | x :: xs, d, n + 1 => Term.walkFrom_clears thorough xs d n

end

end

end

/-! ## Searches for all occurrences -/

section
variable {cx : Context} {u : Unifier} {s : Store} {scope : Scope} {target : Term}

/-- The key of the match that a locator has located, or one that a node of some term has. -/
def Locating.MayHave (cx : Context) (u : Unifier) (scope : Scope) (base : Store) (pass : Pass)
    (ps : List Pattern) (st : Locating) (key : Term) : Prop :=
  match st.located? with
  | some l => l.key = key
  | none => ∃ t d l, hit? cx u scope base pass ps t d = some l ∧ l.key = key

theorem thorough_locator (reflexive : ∀ s t, u.sameInstance? s t t ≠ some false) {base : Store}
    {ps : List Pattern} {pass : Pass} :
    (locator cx u scope base ps pass).Thorough
      (Locating.MayHave cx u scope base pass ps) := by
  constructor
  case kept =>
    intro t d st r st' key h may
    unfold Locating.MayHave at may ⊢
    rw [(step_of_locator h).located_eq] at may
    exact may
  case chosen =>
    intro t d st n st' key h may
    unfold Locating.MayHave at may ⊢
    cases step_of_locator h with
    | compared located =>
      rw [select_of_located located] at may
      exact may
    | found missing tried =>
      simp only [select_of_missing, missing] at may ⊢
      exact ⟨t, d, _, hit?_of_tryPatterns tried, may⟩
  case passed =>
    intro t d st st' key h may
    unfold Locating.MayHave at may
    cases step_of_locator h with
    | compared located same =>
      rw [located] at may
      subst may
      exact not_isCopy_of_sameAgain? reflexive same
    | missed missing tried =>
      rw [missing] at may
      obtain ⟨w, e, l, found, rfl⟩ := may
      exact fun copy => hit?_of_isCopy found copy (hit?_of_tryPatterns tried)

theorem copyFree_of_searched (reflexive : ∀ s t, u.sameInstance? s t t ≠ some false)
    {cs : List Candidate} {r : Found} (h : Search.Searched cx u s scope cs .all target r) :
    CopyFree r.located.key (r.context.preorder 0) := by
  obtain ⟨_, target', ps, base, _, _, pass, n, sel, walked, located⟩ := h
  have clears := Term.walk_clears (thorough_locator reflexive) target' 0 _ _ _ walked r.located.key
  refine (clears ?_).2.free
  unfold Locating.MayHave
  rw [located]

/-- A term is the same as itself whatever the values of holes are. -/
theorem sameInstance?_self (s : Store) (t : Term) : sameInstance? s t t ≠ some false := by
  intro no
  simp only [sameInstance?, Option.bind_eq_bind, Option.bind_eq_some_iff, Option.pure_def,
    Option.some.injEq, decide_eq_false_iff_not] at no
  obtain ⟨a, ha, b, hb, different⟩ := no
  exact different (Option.some.inj (ha.symm.trans hb))

/-- Choosing all occurrences, of a pattern or of a rule, leaves none behind: no node of the context
and no prefix of one is the matched term again, as it is seen from there. -/
theorem all_leaves_no_copy (cx : Context) (s : Store) (scope : Scope) (target : Term) (n : Nat) :
    (∀ pattern progress r,
      fill? cx (.standard cx) s scope pattern .all target progress = some ⟨.ok r, n⟩ →
        CopyFree r.matched (r.context.preorder 0)) ∧
    (∀ rules r, applyRules? cx (.standard cx) s scope rules .all target = some ⟨.ok r, n⟩ →
      CopyFree r.matched (r.context.preorder 0)) := by
  constructor
  · intro pattern progress r h
    obtain ⟨found, searched, context, matched, _⟩ := searched_of_fill? h
    rw [context, matched]
    exact copyFree_of_searched sameInstance?_self searched
  · intro rules r h
    obtain ⟨found, rule, searched, _, _, context, matched, _⟩ := searched_of_applyRules? h
    rw [context, matched]
    exact copyFree_of_searched sameInstance?_self searched

/-- In `g (fun x => f a b) (f a)` the pattern `f ?0` is found twice, as a prefix under a binder and
as a whole, and so is the rule `f ?0 = a`. -/
theorem all_leaves_no_copy_application :
    let cx : Context := { limit := 5 }
    let s := (Store.empty.fresh 0 none .ordinary).2
    let f (xs : List Term) : Term := .mk (.const "f") xs
    let target : Term := .mk (.const "g")
      [.lam (.sort 0) (f [.const "a", .const "b"]), f [.const "a"]]
    let context : Term := .mk (.const "g") [.lam (.sort 0) (.mk (.rel 1) [.const "b"]), .rel 0]
    (∃ r n, fill? cx (.standard cx) s ⟨0⟩ (f [.hole 0 []]) .all target .any = some ⟨.ok r, n⟩ ∧
      r.context = context ∧ CopyFree r.matched (r.context.preorder 0)) ∧
    ∃ r n, applyRules? cx (.standard cx) s ⟨0⟩ [⟨f [.hole 0 []], .const "a", none, .leftToRight⟩]
        .all target = some ⟨.ok r, n⟩ ∧
      r.context = context ∧ CopyFree r.matched (r.context.preorder 0) := by
  intro cx s f target context
  have filled : ((fill? cx (.standard cx) s ⟨0⟩ (f [.hole 0 []]) .all target .any).bind
      fun r => r.result.toOption).map (·.context) = some context := by decide +kernel
  have applied : ((applyRules? cx (.standard cx) s ⟨0⟩
      [⟨f [.hole 0 []], .const "a", none, .leftToRight⟩] .all target).bind
      fun r => r.result.toOption).map (·.context) = some context := by decide +kernel
  obtain ⟨r, hr, shown⟩ := Option.map_eq_some_iff.1 filled
  obtain ⟨n, h⟩ := exists_of_result hr
  obtain ⟨r', hr', shown'⟩ := Option.map_eq_some_iff.1 applied
  obtain ⟨n', h'⟩ := exists_of_result hr'
  exact ⟨⟨r, n, h, shown, (all_leaves_no_copy cx s ⟨0⟩ target n).1 _ _ r h⟩,
    r', n', h', shown', (all_leaves_no_copy cx s ⟨0⟩ target n').2 _ r' h'⟩

end

end KeyedMatching
