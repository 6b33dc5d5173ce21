import KeyedMatching.Proofs.Holes.Declaring
import KeyedMatching.Term.Reader

/-!
# What reading does to the store

Reading a term declares holes and does nothing else to the store, also when it fails, and the term
that is read uses declared holes, with the arities that they have.

* `Reading.Reads x Q`: the step `x` enlarges the store, and `Q` holds between its result and every
  store from then on; there is one rule for each way in which steps are put together;
* `Reading.reads_step`: so it is for a form if it is for the terms inside it;
* `Reader.read_enlarges`: so it is for a whole text.
-/

namespace KeyedMatching

namespace Reading

section
variable {α β : Type}

/-- The step enlarges the store, whether it fails or not, and from then on `Q` holds of the store
and the result. -/
def Reads (x : ReadM α) (Q : Store → α → Prop) : Prop :=
  ∀ s, match x s with
    | .ok a s' => s.store.Enlarges s'.store ∧ ∀ later, s'.store.Enlarges later → Q later a
    | .error _ s' => s.store.Enlarges s'.store

section
variable {x : ReadM α} {P Q : Store → α → Prop}

theorem Reads.mono (h : Reads x P) (imp : ∀ s a, P s a → Q s a) : Reads x Q := by
  intro s
  have hs := h s
  split <;> simp_all

theorem reads_pure {a : α} (h : ∀ s, Q s a) : Reads (pure a) Q :=
  fun s => ⟨.refl s.store, fun later _ => h later⟩

theorem reads_bind {f : α → ReadM β} {R : Store → β → Prop} (hx : Reads x P)
    (hf : ∀ a, Reads (f a) fun s b => P s a → R s b) : Reads (x >>= f) R := by
  intro s
  have first := hx s
  rw [bind_apply]
  cases hs : x s with
  | error e s₁ =>
    rw [hs] at first
    exact first
  | ok a s₁ =>
    rw [hs] at first
    obtain ⟨grown, known⟩ := first
    have second := hf a s₁
    dsimp only
    cases hs₁ : f a s₁ with
    | error e s₂ =>
      rw [hs₁] at second
      exact grown.trans second
    | ok b s₂ =>
      rw [hs₁] at second
      obtain ⟨grown', known'⟩ := second
      exact ⟨grown.trans grown', fun later enlarged =>
        known' later enlarged (known later (grown'.trans enlarged))⟩

theorem reads_get : Reads get fun s r => r.store.Enlarges s :=
  fun s => ⟨.refl s.store, fun _ enlarged => enlarged⟩

theorem reads_modify {f : Reading → Reading} (same : ∀ s, (f s).store = s.store) :
    Reads (modify f) fun _ _ => True := by
  intro s
  have grown : s.store.Enlarges (f s).store := by
    rw [same]
    exact .refl s.store
  exact ⟨grown, fun _ _ => trivial⟩

theorem reads_throw {e : ReadFailure} : Reads (throw e) Q :=
  fun s => .refl s.store

theorem reads_fail {fault : ReadFault} : Reads (fail fault) Q :=
  reads_bind reads_get fun _ => reads_throw

end

/-! ## Text -/

theorem reads_goTo (rest : List Char) : Reads (goTo rest) fun _ _ => True :=
  reads_modify fun _ => rfl

theorem reads_peek : Reads peek fun _ _ => True :=
  reads_bind reads_get fun _ => reads_pure fun _ _ => trivial

theorem reads_advance : Reads advance fun _ _ => True :=
  reads_bind reads_get fun _ => (reads_goTo _).mono fun _ _ _ _ => trivial

theorem reads_skipLayout : Reads skipLayout fun _ _ => True :=
  reads_bind reads_get fun _ => (reads_goTo _).mono fun _ _ _ _ => trivial

theorem reads_expect (c : Char) : Reads (expect c) fun _ _ => True := by
  refine reads_bind reads_skipLayout fun _ => ?_
  refine reads_bind reads_peek fun next => ?_
  split
  · exact reads_advance.mono fun _ _ _ _ _ => trivial
  · exact reads_fail

theorem reads_identifier : Reads identifier fun _ _ => True := by
  refine reads_bind reads_skipLayout fun _ => ?_
  refine reads_bind reads_get fun s => ?_
  dsimp only
  split
  · exact reads_fail
  · exact reads_bind (reads_goTo _) fun _ => reads_pure fun _ _ _ _ => trivial

theorem reads_number : Reads number fun _ _ => True := by
  refine reads_bind reads_skipLayout fun _ => ?_
  refine reads_bind reads_get fun s => ?_
  dsimp only
  split
  · exact reads_bind (reads_goTo _) fun _ => reads_pure fun _ _ _ _ => trivial
  · exact reads_fail

theorem reads_atClose : Reads atClose fun _ _ => True := by
  refine reads_bind reads_skipLayout fun _ => ?_
  exact reads_bind reads_peek fun _ => reads_pure fun _ _ _ => trivial

theorem reads_atInstanceClose : Reads atInstanceClose fun _ _ => True := by
  refine reads_bind reads_skipLayout fun _ => ?_
  refine reads_bind reads_peek fun next => ?_
  cases next with
  | some c => exact reads_pure fun _ _ _ => trivial
  | none => exact reads_fail

theorem reads_atLastItem : Reads atLastItem fun _ _ => True := by
  refine reads_bind reads_get fun s => ?_
  split
  · exact reads_pure fun _ _ => trivial
  · exact reads_throw

theorem reads_itemsWithin {closed : ReadM Bool} {item : ReadM α} {Q : Store → α → Prop}
    (hclosed : Reads closed fun _ _ => True) (hitem : Reads item Q) (n : Nat) :
    Reads (itemsWithin closed item n) fun s xs => ∀ x ∈ xs, Q s x := by
  induction n with
  | zero => exact reads_fail
  | succ n ih =>
    refine reads_bind hclosed fun done => ?_
    split
    · exact reads_pure fun _ _ x hx => by cases hx
    · refine reads_bind hitem fun x => ?_
      refine reads_bind ih fun xs => ?_
      exact reads_pure fun _ hxs hx _ => List.forall_mem_cons.2 ⟨hx, hxs⟩

theorem reads_items {closed : ReadM Bool} {item : ReadM α} {Q : Store → α → Prop}
    (hclosed : Reads closed fun _ _ => True) (hitem : Reads item Q) :
    Reads (items closed item) fun s xs => ∀ x ∈ xs, Q s x :=
  reads_bind reads_get fun _ =>
    (reads_itemsWithin hclosed hitem _).mono fun _ _ listed _ => listed

end

/-! ## Holes -/

/-- The term that was read uses declared holes. -/
def Known (s : Store) (t : Term) : Prop :=
  t.Over s.Declares

/-- All terms that were read use declared holes. -/
def AllKnown (s : Store) (ts : List Term) : Prop :=
  ∀ t ∈ ts, Known s t

theorem reads_declare {n : Nat} {kind : HoleKind} (other : kind ≠ .placeholder) :
    Reads (declare n none kind) fun s k => s.Declares k n := by
  intro s
  have grown : s.store.Enlarges (s.store.fresh n none kind).2 :=
    Store.enlarges_fresh other (by simp)
  exact ⟨grown, fun later enlarged => enlarged.declares (s.store.declares_fresh n none kind)⟩

/-- The type of an obligation is read before the hole is declared, and keeps to the holes that are
there by then. -/
theorem reads_obligation {type : ReadM Term} (htype : Reads type Known) :
    Reads (type >>= fun a => declare 0 (some a) .obligation >>= fun k => pure (Term.hole k []))
      Known := by
  intro s
  have first := htype s
  rw [bind_apply]
  cases hs : type s with
  | error e s₁ =>
    rw [hs] at first
    exact first
  | ok a s₁ =>
    rw [hs] at first
    obtain ⟨grown, known⟩ := first
    have declared : s₁.store.Enlarges (s₁.store.fresh 0 (some a) .obligation).2 := by
      refine Store.enlarges_fresh (by simp) fun b hb => ?_
      rw [← Option.some.inj hb]
      exact known s₁.store (.refl s₁.store)
    refine ⟨grown.trans declared, fun later enlarged => ?_⟩
    have own := s₁.store.declares_fresh 0 (some a) .obligation
    exact Term.over_hole.2 ⟨enlarged.declares own, by simp⟩

theorem reads_namedHole (name : String) (n : Nat) :
    Reads (namedHole name n) fun s k => s.Declares k n := by
  refine reads_bind reads_get fun r => ?_
  split
  · next k _ =>
    refine reads_bind reads_get fun r' => ?_
    split
    · next arity =>
      refine reads_pure fun s enlarged _ => ?_
      obtain ⟨d, hd, hn⟩ := Option.map_eq_some_iff.1 arity
      exact enlarged.declares ⟨d, hd, hn⟩
    · exact reads_fail
  · refine reads_bind (reads_declare (by simp)) fun k => ?_
    refine reads_bind (reads_modify fun _ => rfl) fun _ => ?_
    exact reads_pure fun _ _ declared _ => declared

theorem reads_atom (scope : List String) (name : String) : Reads (atom scope name) Known := by
  unfold atom
  split
  · exact reads_pure fun _ => Term.over_rel _
  · split
    · refine reads_bind (reads_declare (by simp)) fun k => ?_
      exact reads_pure fun _ declared => Term.over_hole.2 ⟨declared, by simp⟩
    · exact reads_pure fun _ => Term.over_sort 0
    · exact reads_pure fun _ => Term.over_sort 1
    · refine reads_bind (reads_modify fun _ => rfl) fun _ => ?_
      exact reads_pure fun _ _ => Term.over_const _

/-! ## Forms -/

section
variable {term : List String → ReadM Term} (hterm : ∀ scope, Reads (term scope) Known)
include hterm

theorem reads_inst (scope : List String) : Reads (inst term scope) AllKnown := by
  refine reads_bind reads_peek fun next => ?_
  split
  · refine reads_bind reads_advance fun _ => ?_
    refine reads_bind (reads_items reads_atInstanceClose (hterm scope)) fun xs => ?_
    refine reads_bind reads_advance fun _ => ?_
    exact reads_pure fun _ _ known _ _ => known
  · exact reads_pure fun _ _ t ht => by cases ht

theorem reads_application (scope : List String) : Reads (application term scope) Known := by
  refine reads_bind (hterm scope) fun head => ?_
  refine reads_bind (reads_items reads_atClose (hterm scope)) fun args => ?_
  exact reads_pure fun _ hargs hhead => Term.over_apply.2 ⟨hhead, hargs⟩

theorem reads_bindersWithin {build : Term → Term → Term}
    (hbuild : ∀ s a b, Known s a → Known s b → Known s (build a b)) (n : Nat) (first : Bool)
    (scope : List String) : Reads (bindersWithin term build n first scope) Known := by
  induction n generalizing first scope with
  | zero => exact reads_fail
  | succ n ih =>
    refine reads_bind reads_skipLayout fun _ => ?_
    refine reads_bind reads_atLastItem fun last => ?_
    split
    · split
      · exact reads_fail
      · exact (hterm scope).mono fun _ _ known _ _ => known
    · refine reads_bind (reads_expect _) fun _ => ?_
      refine reads_bind reads_identifier fun name => ?_
      refine reads_bind (hterm scope) fun type => ?_
      refine reads_bind (reads_expect _) fun _ => ?_
      refine reads_bind (ih false (name :: scope)) fun body => ?_
      exact reads_pure fun s hbody _ htype _ _ _ _ => hbuild s type body htype hbody

theorem reads_binders {build : Term → Term → Term}
    (hbuild : ∀ s a b, Known s a → Known s b → Known s (build a b)) (scope : List String) :
    Reads (binders term build scope) Known :=
  reads_bind reads_get fun _ =>
    (reads_bindersWithin hterm hbuild _ true scope).mono fun _ _ known _ => known

theorem reads_typedName (scope : List String) :
    Reads (typedName term scope) fun s p => Known s p.2 := by
  refine reads_bind (reads_expect _) fun _ => ?_
  refine reads_bind reads_identifier fun name => ?_
  refine reads_bind (hterm scope) fun type => ?_
  refine reads_bind (reads_expect _) fun _ => ?_
  exact reads_pure fun _ _ known _ _ => known

theorem reads_fixpoint (scope : List String) : Reads (fixpoint term scope) Known := by
  refine reads_bind reads_number fun index => ?_
  refine reads_bind (reads_expect _) fun _ => ?_
  refine reads_bind (reads_items reads_atClose (reads_typedName hterm scope)) fun typed => ?_
  refine reads_bind (reads_expect _) fun _ => ?_
  split
  · refine reads_bind (reads_expect _) fun _ => ?_
    refine reads_bind (reads_items reads_atClose (hterm _)) fun bodies => ?_
    refine reads_bind (reads_expect _) fun _ => ?_
    split
    · refine reads_pure fun _ _ hbodies _ _ htyped _ _ => ?_
      exact Term.over_fix.2 ⟨List.forall_mem_map.2 htyped, hbodies⟩
    · exact reads_fail
  · exact reads_fail

theorem reads_wordForm (scope : List String) : Reads (wordForm term scope) Known := by
  refine reads_bind reads_get fun start => ?_
  refine reads_bind reads_identifier fun word => ?_
  have applied : Reads (do goTo start.rest; application term scope) fun s t =>
      True → start.store.Enlarges s → Known s t := by
    refine reads_bind (reads_goTo _) fun _ => ?_
    exact (reads_application hterm scope).mono fun _ _ known _ _ _ => known
  split
  · exact applied
  · split
    · refine (reads_binders hterm (fun s a b ha hb => ?_) scope).mono fun _ _ known _ _ => known
      exact Term.over_lam.2 ⟨ha, hb⟩
    · refine (reads_binders hterm (fun s a b ha hb => ?_) scope).mono fun _ _ known _ _ => known
      exact Term.over_pi.2 ⟨ha, hb⟩
    · refine reads_bind (reads_expect _) fun _ => ?_
      refine reads_bind reads_identifier fun name => ?_
      refine reads_bind (hterm scope) fun type => ?_
      refine reads_bind (hterm scope) fun value => ?_
      refine reads_bind (reads_expect _) fun _ => ?_
      refine reads_bind (hterm _) fun body => ?_
      exact reads_pure fun _ hbody _ hvalue htype _ _ _ _ =>
        Term.over_letIn.2 ⟨htype, hvalue, hbody⟩
    · refine reads_bind (hterm scope) fun t => ?_
      refine reads_bind (hterm scope) fun type => ?_
      exact reads_pure fun _ htype ht _ _ => Term.over_cast.2 ⟨htype, ht⟩
    · refine reads_bind (hterm scope) fun motive => ?_
      refine reads_bind (hterm scope) fun scrutinee => ?_
      refine reads_bind (reads_items reads_atClose (hterm scope)) fun branches => ?_
      exact reads_pure fun _ hbranches hscrutinee hmotive _ _ =>
        Term.over_case.2 ⟨hmotive, hscrutinee, hbranches⟩
    · exact (reads_fixpoint hterm scope).mono fun _ _ known _ _ => known
    · refine reads_bind reads_number fun n => ?_
      exact reads_pure fun _ _ _ _ => Term.over_sort n
    · exact (reads_obligation (hterm scope)).mono fun _ _ known _ _ => known
    · exact applied

theorem reads_form (scope : List String) : Reads (form term scope) Known := by
  refine reads_bind reads_skipLayout fun _ => ?_
  refine reads_bind reads_peek fun next => ?_
  split
  case h_4 => exact (reads_wordForm hterm scope).mono fun _ _ known _ _ => known
  all_goals exact (reads_application hterm scope).mono fun _ _ known _ _ => known

/-- A form uses declared holes if the terms inside it do. -/
theorem reads_step (scope : List String) : Reads (step term scope) Known := by
  refine reads_bind reads_skipLayout fun _ => ?_
  refine reads_bind reads_peek fun next => ?_
  split
  · exact reads_fail
  · refine reads_bind reads_advance fun _ => ?_
    refine reads_bind (reads_form hterm scope) fun t => ?_
    refine reads_bind (reads_expect _) fun _ => ?_
    exact reads_pure fun _ _ known _ _ _ => known
  · refine reads_bind reads_advance fun _ => ?_
    refine reads_bind reads_number fun n => ?_
    split
    · exact reads_pure fun _ _ _ _ _ => Term.over_rel _
    · exact reads_fail
  · refine reads_bind reads_advance fun _ => ?_
    refine reads_bind reads_identifier fun name => ?_
    refine reads_bind (reads_inst hterm scope) fun xs => ?_
    refine reads_bind (reads_namedHole name xs.length) fun k => ?_
    exact reads_pure fun _ declared hxs _ _ _ _ => Term.over_hole.2 ⟨declared, hxs⟩
  · refine reads_bind reads_identifier fun name => ?_
    exact (reads_atom scope name).mono fun _ _ known _ _ _ => known

end

theorem reads_termWithin (n : Nat) (scope : List String) : Reads (termWithin n scope) Known := by
  induction n generalizing scope with
  | zero => exact reads_fail
  | succ n ih => exact reads_step ih scope

theorem reads_wholeTerm : Reads wholeTerm Known := by
  refine reads_bind reads_get fun _ => ?_
  refine reads_bind (reads_termWithin _ []) fun t => ?_
  refine reads_bind reads_skipLayout fun _ => ?_
  refine reads_bind reads_get fun _ => ?_
  split
  · exact reads_pure fun _ _ _ known _ => known
  · exact reads_fail

end Reading

/-- Reading a text enlarges the store, whether it succeeds or not, and the term that is read uses
holes that are declared then. -/
theorem Reader.read_enlarges (r : Reader) (s : Store) (input : List Char) :
    s.Enlarges (r.read s input).2.2 ∧
      ∀ t, (r.read s input).1 = .ok t → t.Over (r.read s input).2.2.Declares := by
  have reads := Reading.reads_wholeTerm { rest := input, reader := r, store := s }
  simp only [Reader.read, EStateM.run]
  split at reads
  · next t s' run =>
    rw [run]
    refine ⟨reads.1, fun t' ht' => ?_⟩
    cases ht'
    exact reads.2 s'.store (.refl s'.store)
  · next e s' run =>
    rw [run]
    exact ⟨reads, fun t' ht' => by cases ht'⟩

end KeyedMatching
