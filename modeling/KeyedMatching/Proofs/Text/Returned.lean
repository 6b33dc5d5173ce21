import KeyedMatching.Proofs.Holes.Declaring
import KeyedMatching.Proofs.Text.Written

/-!
# What reading comes to

Reading a text declares holes and does nothing else to the store, also when it fails, and the term
that is read is legible.

* `Reading.After x s Q`: from the state `s`, the step `x` declares holes at most, and `Q` holds of
  its result and of the state that it reaches; there is one rule for each way in which steps are
  put together;
* `Reading.Returns`: a way of reading terms gives legible ones, and what it reads where no word that
  makes a form stands may have arguments;
* `Reading.returns_step`: so does a step, if what it uses for the terms inside does;
* `Reader.read_returns`: so does the reader.
-/

namespace KeyedMatching

namespace Reading

section
variable {α β : Type}

/-- The step declares holes and does nothing else to the store. If it succeeds, `Q` holds of the
result and of the state reached. -/
def After (x : ReadM α) (s : Reading) (Q : α → Reading → Prop) : Prop :=
  match x s with
  | .ok a s' => s.store.Gains s'.store ∧ Q a s'
  | .error _ s' => s.store.Gains s'.store

section
variable {x : ReadM α} {s : Reading} {P Q : α → Reading → Prop}

theorem After.mono (h : After x s P) (imp : ∀ a s', P a s' → Q a s') : After x s Q := by
  unfold After at h ⊢
  split at h
  · exact ⟨h.1, imp _ _ h.2⟩
  · exact h

theorem after_pure {a : α} (h : Q a s) : After (pure a) s Q :=
  ⟨.refl s.store, h⟩

theorem after_throw {e : ReadFailure} : After (throw e) s Q :=
  Store.Gains.refl s.store

theorem after_bind {f : α → ReadM β} {R : β → Reading → Prop} (hx : After x s P)
    (hf : ∀ a s', P a s' → After (f a) s' R) : After (x >>= f) s R := by
  unfold After at hx ⊢
  rw [bind_apply]
  cases hs : x s with
  | error e s₁ =>
    rw [hs] at hx
    exact hx
  | ok a s₁ =>
    rw [hs] at hx
    have second := hf a s₁ hx.2
    unfold After at second
    dsimp only
    cases hs₁ : f a s₁ with
    | error e s₂ =>
      rw [hs₁] at second
      exact hx.1.trans second
    | ok b s₂ =>
      rw [hs₁] at second
      exact ⟨hx.1.trans second.1, second.2⟩

theorem after_get_bind {f : Reading → ReadM α} (h : After (f s) s Q) :
    After (get >>= f) s Q :=
  after_bind (P := fun r s' => r = s ∧ s' = s) ⟨.refl s.store, rfl, rfl⟩ fun r s' same => by
    rw [same.1, same.2]
    exact h

theorem after_modify {f : Reading → Reading} {R : PUnit → Reading → Prop}
    (same : (f s).store = s.store) (h : R ⟨⟩ (f s)) : After (modify f) s R := by
  have gains : s.store.Gains (f s).store := by
    rw [same]
    exact .refl s.store
  exact ⟨gains, h⟩

theorem after_fail {fault : ReadFault} : After (fail fault) s Q :=
  after_get_bind after_throw

end

/-! ## Characters -/

theorem after_goTo (rest : List Char) (s : Reading) :
    After (goTo rest) s fun _ s' => s'.rest = rest :=
  after_modify rfl rfl

theorem after_peek (s : Reading) : After peek s fun c s' => c = s.rest.head? ∧ s' = s :=
  after_get_bind (after_pure ⟨rfl, rfl⟩)

theorem after_advance (s : Reading) : After advance s fun _ _ => True :=
  after_get_bind ((after_goTo _ s).mono fun _ _ _ => trivial)

theorem after_skipLayout (s : Reading) :
    After skipLayout s fun _ s' => s'.rest = dropLayout false s.rest :=
  after_get_bind (after_goTo _ s)

theorem after_expect (c : Char) (s : Reading) : After (expect c) s fun _ _ => True := by
  refine after_bind (after_skipLayout s) fun _ s' _ => ?_
  refine after_bind (after_peek s') fun next s' _ => ?_
  split
  · exact after_advance s'
  · exact after_fail

/-- The word that stands next in a text. -/
def nextWord (rest : List Char) : String :=
  String.ofList ((dropLayout false rest).takeWhile isNameChar)

/-- A text that starts with a sign has no word next. -/
theorem nextWord_of_sign {rest : List Char} {c : Char} (first : rest.head? = some c)
    (layout : Text.isPlainBlank c = false) (comment : c ≠ ';') (noName : isNameChar c = false) :
    nextWord rest = "" := by
  cases rest with
  | nil => cases first
  | cons d cs =>
    cases first
    simp [nextWord, dropLayout, layout, comment, noName]

theorem after_identifier (s : Reading) :
    After identifier s fun name _ => IsName name ∧ name = nextWord s.rest := by
  refine after_bind (after_skipLayout s) fun _ s' there => ?_
  refine after_get_bind ?_
  dsimp only
  split
  · exact after_fail
  · next some' =>
    refine after_bind (after_goTo _ s') fun _ s'' _ => after_pure ⟨⟨?_, ?_⟩, ?_⟩
    · simpa using some'
    · rw [String.toList_ofList]
      exact List.all_eq_true.1 List.all_takeWhile
    · rw [there, nextWord]

theorem lt_of_digits? {bound n : Nat} {cs : List Char} (h : Text.digits? bound cs = some n) :
    n < bound := by
  unfold Text.digits? at h
  split at h
  · cases h
  · split at h
    · cases h
      assumption
    · cases h

theorem after_number (s : Reading) : After number s fun n _ => n < Text.bound32 := by
  refine after_bind (after_skipLayout s) fun _ s' _ => ?_
  refine after_get_bind ?_
  dsimp only
  split
  · next n hn =>
    exact after_bind (after_goTo _ s') fun _ s'' _ => after_pure (lt_of_digits? hn)
  · exact after_fail

theorem after_atClose (s : Reading) : After atClose s fun _ _ => True := by
  refine after_bind (after_skipLayout s) fun _ s' _ => ?_
  exact after_bind (after_peek s') fun _ s' _ => after_pure trivial

theorem after_atInstanceClose (s : Reading) : After atInstanceClose s fun _ _ => True := by
  refine after_bind (after_skipLayout s) fun _ s' _ => ?_
  refine after_bind (after_peek s') fun next s' _ => ?_
  cases next with
  | some c => exact after_pure trivial
  | none => exact after_fail

theorem after_atLastItem (s : Reading) : After atLastItem s fun _ _ => True := by
  refine after_get_bind ?_
  split
  · exact after_pure trivial
  · exact after_throw

section
variable {closed : ReadM Bool} {item : ReadM α} {Q : α → Prop}

theorem after_itemsWithin (hclosed : ∀ s, After closed s fun _ _ => True)
    (hitem : ∀ s, After item s fun a _ => Q a) (n : Nat) (s : Reading) :
    After (itemsWithin closed item n) s fun xs _ => ∀ x ∈ xs, Q x := by
  induction n generalizing s with
  | zero => exact after_fail
  | succ n ih =>
    refine after_bind (hclosed s) fun done s' _ => ?_
    split
    · exact after_pure (by simp)
    · refine after_bind (hitem s') fun x s₁ hx => ?_
      refine after_bind (ih s₁) fun xs s₂ hxs => ?_
      exact after_pure (List.forall_mem_cons.2 ⟨hx, hxs⟩)

theorem after_items (hclosed : ∀ s, After closed s fun _ _ => True)
    (hitem : ∀ s, After item s fun a _ => Q a) (s : Reading) :
    After (items closed item) s fun xs _ => ∀ x ∈ xs, Q x :=
  after_get_bind (after_itemsWithin hclosed hitem _ s)

end

end

/-! ## Names and holes -/

theorem after_declare (n : Nat) (type? : Option Term) (kind : HoleKind) (s : Reading) :
    After (declare n type? kind) s fun _ _ => True :=
  ⟨s.store.gains_fresh n type? kind, trivial⟩

theorem after_namedHole (name : String) (n : Nat) (s : Reading) :
    After (namedHole name n) s fun _ _ => True := by
  refine after_get_bind ?_
  split
  · refine after_get_bind ?_
    split
    · exact after_pure trivial
    · exact after_fail
  · refine after_bind (after_declare n none .ordinary s) fun k s' _ => ?_
    refine after_bind (after_modify (R := fun _ _ => True) rfl trivial) fun _ _ _ => ?_
    exact after_pure trivial

theorem after_atom (scope : List String) {name : String} (isName : IsName name) (s : Reading) :
    After (atom scope name) s fun t _ =>
      t.Legible scope.length ∧ (MayLead scope name → t.head.MayLead) := by
  unfold atom
  split
  · next i found =>
    obtain ⟨bound, _, _⟩ := List.idxOf?_eq_some_iff.1 found
    refine after_pure ⟨Term.legible_ofHead.2 fun free => ?_, fun _ => trivial⟩
    omega
  · next unbound =>
    split
    · refine after_bind (after_declare 0 none .ordinary s) fun k s' _ => ?_
      exact after_pure ⟨Term.legible_ofHead.2 trivial, fun _ => trivial⟩
    · exact after_pure ⟨Term.legible_ofHead.2 (by simp [Head.Legible, Text.bound32]),
        fun _ => trivial⟩
    · exact after_pure ⟨Term.legible_ofHead.2 (by simp [Head.Legible, Text.bound32]),
        fun _ => trivial⟩
    · next hole prop type =>
      refine after_bind (after_modify (R := fun _ _ => True) rfl trivial) fun _ s' _ => ?_
      refine after_pure ⟨Term.legible_ofHead.2 ⟨isName, ?_⟩, fun leads => ?_⟩
      · simp only [reservedWords, List.mem_cons, List.not_mem_nil, or_false, not_or]
        exact ⟨hole, prop, type⟩
      · exact leads.resolve_left (List.idxOf?_eq_none_iff.1 unbound)

/-! ## Forms -/

/-- Terms that are read are legible, and have heads that may lead, unless a word was read that may
not. -/
def Returns (term : List String → ReadM Term) : Prop :=
  ∀ scope s, After (term scope) s fun t _ =>
    t.Legible scope.length ∧ (MayLead scope (nextWord s.rest) → t.head.MayLead)

section
variable {term : List String → ReadM Term} (hterm : Returns term)
include hterm

theorem after_term (scope : List String) (s : Reading) :
    After (term scope) s fun t _ => t.Legible scope.length :=
  (hterm scope s).mono fun _ _ known => known.1

theorem after_inst (scope : List String) (s : Reading) :
    After (inst term scope) s fun xs _ => ∀ x ∈ xs, x.Legible scope.length := by
  refine after_bind (after_peek s) fun next s' _ => ?_
  split
  · refine after_bind (after_advance s') fun _ s' _ => ?_
    refine after_bind (after_items after_atInstanceClose (after_term hterm scope) s')
      fun xs s' hxs => ?_
    exact after_bind (after_advance s') fun _ s' _ => after_pure hxs
  · exact after_pure (by simp)

theorem after_application (scope : List String) (s : Reading)
    (leads : MayLead scope (nextWord s.rest)) :
    After (application term scope) s fun t _ => t.Legible scope.length ∧ t.head.MayLead := by
  refine after_bind (hterm scope s) fun head s' hhead => ?_
  refine after_bind (after_items after_atClose (after_term hterm scope) s') fun args s' hargs => ?_
  obtain ⟨legible, mayLead⟩ := hhead
  refine after_pure ⟨Term.legible_apply legible (mayLead leads) hargs, ?_⟩
  rw [Term.head_apply]
  exact mayLead leads

theorem after_bindersWithin {build : Term → Term → Term}
    (hbuild : ∀ d a b, a.Legible d → b.Legible (d + 1) →
      (build a b).Legible d ∧ (build a b).head.MayLead)
    (n : Nat) (first : Bool) (scope : List String) (s : Reading) :
    After (bindersWithin term build n first scope) s fun t _ =>
      t.Legible scope.length ∧ (first = true → t.head.MayLead) := by
  induction n generalizing first scope s with
  | zero => exact after_fail
  | succ n ih =>
    refine after_bind (after_skipLayout s) fun _ s' _ => ?_
    refine after_bind (after_atLastItem s') fun last s' _ => ?_
    split
    · split
      · exact after_fail
      · next later =>
        exact (after_term hterm scope s').mono fun t _ legible =>
          ⟨legible, fun first' => absurd first' later⟩
    · refine after_bind (after_expect _ s') fun _ s' _ => ?_
      refine after_bind (after_identifier s') fun name s' _ => ?_
      refine after_bind (after_term hterm scope s') fun type s' htype => ?_
      refine after_bind (after_expect _ s') fun _ s' _ => ?_
      refine after_bind (ih false (name :: scope) s') fun body s' hbody => ?_
      obtain ⟨legible, mayLead⟩ := hbuild scope.length type body htype hbody.1
      exact after_pure ⟨legible, fun _ => mayLead⟩

theorem after_binders {build : Term → Term → Term}
    (hbuild : ∀ d a b, a.Legible d → b.Legible (d + 1) →
      (build a b).Legible d ∧ (build a b).head.MayLead)
    (scope : List String) (s : Reading) :
    After (binders term build scope) s fun t _ => t.Legible scope.length ∧ t.head.MayLead :=
  after_get_bind ((after_bindersWithin hterm hbuild _ true scope s).mono fun _ _ known =>
    ⟨known.1, known.2 rfl⟩)

theorem after_typedName (scope : List String) (s : Reading) :
    After (typedName term scope) s fun p _ => p.2.Legible scope.length := by
  refine after_bind (after_expect _ s) fun _ s' _ => ?_
  refine after_bind (after_identifier s') fun name s' _ => ?_
  refine after_bind (after_term hterm scope s') fun type s' htype => ?_
  exact after_bind (after_expect _ s') fun _ s' _ => after_pure htype

theorem after_fixpoint (scope : List String) (s : Reading) :
    After (fixpoint term scope) s fun t _ => t.Legible scope.length ∧ t.head.MayLead := by
  refine after_bind (after_number s) fun index s' small => ?_
  refine after_bind (after_expect _ s') fun _ s' _ => ?_
  refine after_bind (after_items after_atClose (after_typedName hterm scope) s')
    fun typed s' htyped => ?_
  refine after_bind (after_expect _ s') fun _ s' _ => ?_
  split
  · next inRange =>
    refine after_bind (after_expect _ s') fun _ s' _ => ?_
    refine after_bind (after_items after_atClose (after_term hterm _) s')
      fun bodies s' hbodies => ?_
    refine after_bind (after_expect _ s') fun _ s' _ => ?_
    split
    · next balanced =>
      have types : (typed.map (·.2)).length = typed.length := List.length_map _
      have depth : ((typed.map (·.1)).reverse ++ scope).length = scope.length + typed.length := by
        simp [Nat.add_comm]
      rw [depth] at hbodies
      refine after_pure ⟨Term.legible_ofHead.2 ⟨⟨?_, ?_, small⟩, ?_, ?_⟩, trivial⟩
      · rwa [types]
      · rw [types, balanced]
      · exact Term.legibleAll_iff.2 (List.forall_mem_map.2 htyped)
      · rw [types]
        exact Term.legibleAll_iff.2 hbodies
    · exact after_fail
  · exact after_fail

theorem after_wordForm (scope : List String) (s : Reading) :
    After (wordForm term scope) s fun t _ => t.Legible scope.length ∧ t.head.MayLead := by
  refine after_get_bind ?_
  refine after_bind (after_identifier s) fun word s' hword => ?_
  -- A word that makes no form is read again as the head of an application.
  have applied (leads : MayLead scope word) (s' : Reading) :
      After (do goTo s.rest; application term scope) s' fun t _ =>
        t.Legible scope.length ∧ t.head.MayLead := by
    refine after_bind (after_goTo s.rest s') fun _ s'' there => ?_
    refine after_application hterm scope s'' ?_
    rw [there, ← hword.2]
    exact leads
  split
  · next bound => exact applied (.inl (List.contains_iff_mem.1 bound)) s'
  · split
    · have lam (d : Nat) (a b : Term) (ha : a.Legible d) (hb : b.Legible (d + 1)) :
          (Term.lam a b).Legible d ∧ (Term.lam a b).head.MayLead :=
        ⟨Term.legible_ofHead.2 ⟨ha, hb⟩, trivial⟩
      exact after_binders hterm lam scope s'
    · have pi (d : Nat) (a b : Term) (ha : a.Legible d) (hb : b.Legible (d + 1)) :
          (Term.pi a b).Legible d ∧ (Term.pi a b).head.MayLead :=
        ⟨Term.legible_ofHead.2 ⟨ha, hb⟩, trivial⟩
      exact after_binders hterm pi scope s'
    · refine after_bind (after_expect _ s') fun _ s' _ => ?_
      refine after_bind (after_identifier s') fun name s' _ => ?_
      refine after_bind (after_term hterm scope s') fun type s' htype => ?_
      refine after_bind (after_term hterm scope s') fun value s' hvalue => ?_
      refine after_bind (after_expect _ s') fun _ s' _ => ?_
      refine after_bind (after_term hterm _ s') fun body s' hbody => ?_
      exact after_pure ⟨Term.legible_ofHead.2 ⟨htype, hvalue, hbody⟩, trivial⟩
    · refine after_bind (after_term hterm scope s') fun t s' ht => ?_
      refine after_bind (after_term hterm scope s') fun type s' htype => ?_
      exact after_pure ⟨Term.legible_ofHead.2 ⟨ht, htype⟩, trivial⟩
    · refine after_bind (after_term hterm scope s') fun motive s' hmotive => ?_
      refine after_bind (after_term hterm scope s') fun scrutinee s' hscrutinee => ?_
      refine after_bind (after_items after_atClose (after_term hterm scope) s')
        fun branches s' hbranches => ?_
      exact after_pure ⟨Term.legible_ofHead.2
        ⟨hmotive, hscrutinee, Term.legibleAll_iff.2 hbranches⟩, trivial⟩
    · exact after_fixpoint hterm scope s'
    · refine after_bind (after_number s') fun n s' small => ?_
      exact after_pure ⟨Term.legible_ofHead.2 small, trivial⟩
    · refine after_bind (after_term hterm scope s') fun type s' _ => ?_
      refine after_bind (after_declare 0 (some type) .obligation s') fun k s' _ => ?_
      exact after_pure ⟨Term.legible_ofHead.2 trivial, trivial⟩
    · refine applied (.inr ?_) s'
      simp only [formWords, List.mem_cons, List.not_mem_nil, or_false, not_or]
      exact ⟨‹_›, ‹_›, ‹_›, ‹_›, ‹_›, ‹_›, ‹_›, ‹_›⟩

theorem after_form (scope : List String) (s : Reading) :
    After (form term scope) s fun t _ => t.Legible scope.length ∧ t.head.MayLead := by
  refine after_bind (after_skipLayout s) fun _ s' _ => ?_
  refine after_bind (after_peek s') fun next s'' here => ?_
  obtain ⟨rfl, rfl⟩ := here
  have sign (c : Char) (first : s''.rest.head? = some c) (layout : Text.isPlainBlank c = false)
      (comment : c ≠ ';') (noName : isNameChar c = false) :
      After (application term scope) s'' fun t _ => t.Legible scope.length ∧ t.head.MayLead := by
    refine after_application hterm scope s'' (.inr ?_)
    rw [nextWord_of_sign first layout comment noName]
    decide
  split
  · exact sign '(' ‹_› (by decide) (by decide) (by decide)
  · exact sign '#' ‹_› (by decide) (by decide) (by decide)
  · exact sign '?' ‹_› (by decide) (by decide) (by decide)
  · exact after_wordForm hterm scope s''

/-- What a step reads is legible if the terms inside are. -/
theorem returns_step : Returns (step term) := by
  intro scope s
  refine after_bind (after_skipLayout s) fun _ s' there => ?_
  refine after_bind (after_peek s') fun next s'' here => ?_
  obtain ⟨rfl, rfl⟩ := here
  split
  · exact after_fail
  · refine after_bind (after_advance s'') fun _ s' _ => ?_
    refine after_bind (after_form hterm scope s') fun t s' ht => ?_
    exact after_bind (after_expect _ s') fun _ s' _ => after_pure ⟨ht.1, fun _ => ht.2⟩
  · refine after_bind (after_advance s'') fun _ s' _ => ?_
    refine after_bind (after_number s') fun n s' _ => ?_
    split
    · next inRange =>
      refine after_pure ⟨Term.legible_ofHead.2 fun _ => ?_, fun _ => trivial⟩
      rw [Nat.add_sub_cancel]
      exact inRange
    · exact after_fail
  · refine after_bind (after_advance s'') fun _ s' _ => ?_
    refine after_bind (after_identifier s') fun name s' _ => ?_
    refine after_bind (after_inst hterm scope s') fun xs s' hxs => ?_
    refine after_bind (after_namedHole name xs.length s') fun k s' _ => ?_
    exact after_pure ⟨Term.legible_ofHead.2 (Term.legibleAll_iff.2 hxs), fun _ => trivial⟩
  · refine after_bind (after_identifier s'') fun name s' hname => ?_
    refine (after_atom scope hname.1 s').mono fun t _ known => ⟨known.1, fun leads => ?_⟩
    apply known.2
    rw [hname.2, nextWord, there, dropLayout_dropLayout]
    exact leads

end

theorem returns_termWithin (n : Nat) : Returns (termWithin n) := by
  induction n with
  | zero => exact fun _ _ => after_fail
  | succ n ih => exact returns_step ih

theorem after_wholeTerm (s : Reading) : After wholeTerm s fun t _ => t.Legible 0 := by
  refine after_get_bind ?_
  refine after_bind (after_term (returns_termWithin _) [] s) fun t s' ht => ?_
  refine after_bind (after_skipLayout s') fun _ s' _ => ?_
  refine after_get_bind ?_
  split
  · exact after_pure ht
  · exact after_fail

end Reading

/-- Reading a text declares holes and does nothing else to the store, whether it succeeds or not,
and the term that is read is legible. -/
theorem Reader.read_returns (r : Reader) (s : Store) (input : List Char) :
    s.Gains (r.read s input).2.2 ∧ ∀ t, (r.read s input).1 = .ok t → t.Legible 0 := by
  have after := Reading.after_wholeTerm { rest := input, reader := r, store := s }
  simp only [Reading.After] at after
  simp only [Reader.read, EStateM.run]
  split at after
  · next t s' run =>
    rw [run]
    refine ⟨after.1, fun t' ht' => ?_⟩
    cases ht'
    exact after.2
  · next e s' run =>
    rw [run]
    exact ⟨after, fun t' ht' => by cases ht'⟩

end KeyedMatching
