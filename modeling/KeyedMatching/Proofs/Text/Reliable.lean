import KeyedMatching.Proofs.Text.Kept
import KeyedMatching.Proofs.Text.Returned

/-!
# What a reader promises

A reader reads texts into one store, and its names for holes are forgotten now and then.

* `Reader.Run`: the states that a reader without names comes to;
* `Reader.Reliable`: what such a state promises for the next text, whatever that is, and for those
  after it;
* `Reading.Tabled`: names stand for different declared holes, which every reading keeps;
* `Reading.hole_of_termWithin`: a term that starts as a hole is the hole of the name there;
* `Reader.Run.reliable`: every state that a reader comes to is reliable.
-/

namespace KeyedMatching

/-- What is promised of a term that is read into a store. -/
structure Term.WellFormed (s : Store) (t : Term) : Prop where
  /-- An application has arguments, and its head is none. -/
  flat : ∀ u e, (u, e) ∈ t.preorder 0 → u.shape = .app →
    u.args ≠ [] ∧ (Term.ofHead u.head).shape ≠ .app
  free : ∀ i ∈ t.freeRels, i ≤ maxFreeIndex
  /-- A fixpoint is one of its types, and there is a body for each. -/
  fixpoints : ∀ i as bs e, (Term.ofHead (.fix i as bs), e) ∈ t.preorder 0 →
    i < as.length ∧ bs.length = as.length
  /-- A hole is declared with as many arguments as it is given. -/
  holes : ∀ k xs e, (Term.hole k xs, e) ∈ t.preorder 0 → s.Declares k xs.length

namespace Reader

/-- What becomes of a reader without names and of a store by reading texts, some of which may be
faulty, and forgetting names. -/
inductive Run (start : Store) : Reader → Store → Prop
  | start : Run start {} start
  | read {r : Reader} {s : Store} (input : List Char) : Run start r s →
    Run start (r.read s input).2.1 (r.read s input).2.2
  | forget {r : Reader} {s : Store} : Run start r s → Run start r.forgetHoles s

/-- What becomes of a reader and a store by reading texts. -/
inductive Reads (r : Reader) (s : Store) : Reader → Store → Prop
  | refl : Reads r s r s
  | read {r' : Reader} {s' : Store} (input : List Char) : Reads r s r' s' →
    Reads r s (r'.read s' input).2.1 (r'.read s' input).2.2

/-- What a reader promises with a store. -/
structure Reliable (r : Reader) (s : Store) : Prop where
  /-- Reading a text, faulty or not, declares holes and does nothing else to the store. -/
  gains : ∀ input, s.Gains (r.read s input).2.2
  /-- What is read is well-formed, also in the stores that later texts are read into. -/
  wellFormed : ∀ input t, (r.read s input).1 = .ok t → ∀ r' s',
    Reads (r.read s input).2.1 (r.read s input).2.2 r' s' → t.WellFormed s'
  /-- A name stands for the same hole as long as names are not forgotten. -/
  lasting : ∀ r' s', Reads r s r' s' → ∀ name k, r.hole? name = some k → r'.hole? name = some k
  /-- Two names stand for two holes. -/
  distinct : ∀ name name' k, r.hole? name = some k → r.hole? name' = some k → name = name'
  /-- What a name stands for is declared. -/
  declared : ∀ name k, r.hole? name = some k → ∃ n, s.Declares k n
  /-- A text that is a hole is read as the hole of its name. -/
  denotes : ∀ input t cs, (r.read s input).1 = .ok t →
    Reading.dropLayout false input = '?' :: cs → ∃ k xs, t = .hole k xs ∧
      (r.read s input).2.1.hole? (Reading.nextWord cs) = some k
  /-- Inside a text, too, names last, and a term that starts as a hole is the hole of its name. -/
  inside : ∀ n scope q t q', Reading.termWithin n scope q = .ok t q' →
    (∀ name k, q.reader.hole? name = some k → q'.reader.hole? name = some k) ∧
      ∀ cs, Reading.dropLayout false q.rest = '?' :: cs → ∃ k xs, t = .hole k xs ∧
        q'.reader.hole? (Reading.nextWord cs) = some k
  /-- A hole in what is read has a name, or is new. -/
  unnamed : ∀ input t, (r.read s input).1 = .ok t → ∀ k xs e, (Term.hole k xs, e) ∈ t.preorder 0 →
    (∃ name, (r.read s input).2.1.hole? name = some k) ∨ s.hole? k = none

end Reader

theorem Store.Gains.hole? {s s' : Store} (h : s.Gains s') {k : Nat} {d : Hole}
    (hd : s.hole? k = some d) : s'.hole? k = some d := by
  have old := Store.lt_of_hole? hd
  obtain ⟨new, -, rfl⟩ := h
  rw [← hd, Store.hole?, Store.hole?, List.getElem?_append_left old]

theorem Store.Gains.declares {s s' : Store} (h : s.Gains s') {k n : Nat} (hk : s.Declares k n) :
    s'.Declares k n := by
  obtain ⟨d, hd, arity⟩ := hk
  exact ⟨d, h.hole? hd, arity⟩

theorem Store.Gains.size_le {s s' : Store} (h : s.Gains s') :
    s.slots.length ≤ s'.slots.length := by
  obtain ⟨new, -, rfl⟩ := h
  simp

namespace Reading

/-! ## Names -/

/-- The names stand for different declared holes, and the store has `base` holes at least. -/
structure Tabled (base : Nat) (s : Reading) : Prop where
  size : base ≤ s.store.slots.length
  declared : ∀ name k, s.reader.hole? name = some k → ∃ n, s.store.Declares k n
  distinct : ∀ name name' k, s.reader.hole? name = some k → s.reader.hole? name' = some k →
    name = name'

/-- A free variable is not too large, a hole is declared and has a name unless it is one of those
from `base` on, and a fixpoint is one of its types and has a body for each. -/
def Proper (base : Nat) (s : Reading) (d : Nat) : Term → Prop
  | .rel i => d ≤ i → i - d ≤ maxFreeIndex
  | .hole k xs => s.store.Declares k xs.length ∧
    ((∃ name, s.reader.hole? name = some k) ∨ base ≤ k)
  | .ofHead (.fix i as bs) => i < as.length ∧ bs.length = as.length
  | _ => True

section
variable {base : Nat} {s s' : Reading}

theorem Tabled.declare (tabled : Tabled base s) (arity : Nat) (type? : Option Term)
    (kind : HoleKind) : Tabled base (s.declared arity type? kind) where
  size := Nat.le_trans tabled.size (onward_declared s arity type? kind).gains.size_le
  declared name k known := by
    obtain ⟨n, hk⟩ := tabled.declared name k known
    exact ⟨n, (onward_declared s arity type? kind).gains.declares hk⟩
  distinct := tabled.distinct

/-- A new name stands for a new hole. -/
theorem Tabled.name (tabled : Tabled base s) (name : String) (arity : Nat) :
    Tabled base ((s.declared arity none .ordinary).named name s.store.slots.length) := by
  have old {other : String} (known : s.reader.hole? other = some s.store.slots.length) : False := by
    obtain ⟨n, d, hd, _⟩ := tabled.declared other _ known
    exact Nat.lt_irrefl _ (Store.lt_of_hole? hd)
  refine ⟨(tabled.declare arity none .ordinary).size, fun other k known => ?_,
    fun other other' k known known' => ?_⟩
  · rw [hole?_named] at known
    split at known
    · cases known
      exact ⟨arity, s.store.declares_fresh arity none .ordinary⟩
    · exact (tabled.declare arity none .ordinary).declared other k known
  · rw [hole?_named] at known known'
    split at known <;> split at known'
    · next here here' => rw [here, here']
    · cases known
      exact (old known').elim
    · cases known'
      exact (old known).elim
    · exact tabled.distinct other other' k known known'

theorem Proper.later (onward : Onward s s') {d : Nat} {u : Term} (h : Proper base s d u) :
    Proper base s' d u := by
  unfold Proper at h ⊢
  split
  · exact h
  · obtain ⟨declares, origin⟩ := h
    refine ⟨onward.gains.declares declares, origin.imp_left ?_⟩
    exact fun ⟨name, known⟩ => ⟨name, onward.names name _ known⟩
  · exact h
  · exact trivial

/-- Names keep standing for different declared holes, and all nodes that are read are proper. -/
theorem rules_proper (input : List Char) (base : Nat) :
    Rules input (Tabled base) (Proper base) where
  move _ tabled := ⟨tabled.size, tabled.declared, tabled.distinct⟩
  meet name tabled := by
    refine ⟨tabled.size, fun other k known => ?_, fun other other' k known known' => ?_⟩
    · rw [hole?_meet] at known
      exact tabled.declared other k known
    · rw [hole?_meet] at known known'
      exact tabled.distinct other other' k known known'
  anonymous tabled := tabled.declare 0 none .ordinary
  obligation tabled _ := tabled.declare 0 _ .obligation
  name arity tabled _ := tabled.name _ arity
  stable onward h := Proper.later onward h
  bound inside free := absurd inside (Nat.not_lt.2 free)
  free _ inRange _ := by rwa [Nat.add_sub_cancel]
  anonymousHole tabled := ⟨Store.declares_fresh _ 0 none .ordinary, .inr tabled.size⟩
  obligationHole tabled _ := ⟨Store.declares_fresh _ 0 _ .obligation, .inr tabled.size⟩
  namedHole _ known declares := ⟨declares, .inl ⟨_, known⟩⟩
  fix inRange balanced := ⟨inRange, balanced⟩
  other {s d u} plain := by
    unfold Proper
    split
    · simp [Term.shape, Head.shape] at plain
    · simp [Term.shape, Head.shape] at plain
    · simp [Term.shape, Head.shape] at plain
    · exact trivial

/-! ## Holes in a text -/

theorem after_namedHole_known (name : String) (n : Nat) (s : Reading) :
    After (namedHole name n) s fun k s' => s'.reader.hole? name = some k := by
  refine after_get_bind ?_
  split
  · next k known =>
    refine after_get_bind ?_
    split
    · exact after_pure known
    · exact after_fail
  · refine after_bind (after_declare n none .ordinary s) fun k s' _ => ?_
    refine after_bind (after_modify (R := fun _ s' => s'.reader.hole? name = some k) rfl ?_)
      fun _ _ known => after_pure known
    exact (hole?_cons _ name name k).trans (if_pos rfl)

/-- Wherever a term starts as a hole, it is the hole of the name there. -/
theorem hole_of_termWithin (n : Nat) (scope : List String) {cs : List Char}
    (next : dropLayout false s.rest = '?' :: cs) :
    After (termWithin n scope) s fun t s' =>
      ∃ k xs, t = .hole k xs ∧ s'.reader.hole? (nextWord cs) = some k := by
  cases n with
  | zero => exact after_fail
  | succ n =>
    refine after_bind (after_skipLayout s) fun _ s₁ there => ?_
    refine after_bind (after_peek s₁) fun c s₂ here => ?_
    obtain ⟨rfl, rfl⟩ := here
    rw [there, next]
    refine after_bind (after_get_bind (after_goTo _ s₂)) fun _ s₃ past => ?_
    refine after_bind (after_identifier s₃) fun name s₄ hname => ?_
    rw [past, there, next] at hname
    refine after_bind (after_inst (returns_termWithin n) scope s₄) fun xs s₅ _ => ?_
    refine after_bind (after_namedHole_known name xs.length s₅) fun k s₆ known => ?_
    refine after_pure ⟨k, xs, rfl, ?_⟩
    rw [← known, hname.2, List.drop_one, List.tail_cons]

theorem hole_of_wholeTerm {cs : List Char} (next : dropLayout false s.rest = '?' :: cs) :
    After wholeTerm s fun t s' =>
      ∃ k xs, t = .hole k xs ∧ s'.reader.hole? (nextWord cs) = some k := by
  refine after_get_bind ?_
  refine after_bind (hole_of_termWithin _ [] next) fun t s₁ known => ?_
  have moved : After skipLayout s₁ fun _ s₂ => s₂.reader = s₁.reader :=
    after_get_bind (after_modify rfl rfl)
  refine after_bind moved fun _ s₂ same => ?_
  refine after_get_bind ?_
  split
  · exact after_pure (by rwa [same])
  · exact after_fail

end

end Reading

namespace Reader

section
variable {start s s' : Store} {r r' : Reader}

/-- Names that stand for different declared holes do so after a text was read. -/
theorem tabled_read {base : Nat} (input : List Char)
    (tabled : Reading.Tabled base (Reading.between r s)) :
    Reading.Tabled base (Reading.between (r.read s input).2.1 (r.read s input).2.2) :=
  (read_keeps (Reading.rules_proper input base) tabled).2.1

theorem tabled_nameless {r : Reader} (nameless : r.holes = []) (s : Store) :
    Reading.Tabled 0 (Reading.between r s) := by
  have unknown (name : String) : r.hole? name = none := by
    rw [hole?, nameless]
    rfl
  refine ⟨Nat.zero_le _, fun name k known => ?_, fun name name' k known => ?_⟩
  all_goals
    rw [Reading.between, unknown] at known
    cases known

theorem Run.tabled (run : Run start r s) : Reading.Tabled 0 (Reading.between r s) := by
  induction run with
  | start => exact tabled_nameless rfl start
  | read input _ ih => exact tabled_read input ih
  | forget _ _ => exact tabled_nameless rfl _

theorem Reads.onward (reads : Reads r s r' s') :
    Reading.Onward (Reading.between r s) (Reading.between r' s') := by
  induction reads with
  | refl => exact .refl _
  | read input _ ih => exact ih.trans (onward_read _ _ input)

theorem Run.of_read (run : Run start r s) {input : List Char} {x : Except ReadError Term}
    (h : r.read s input = (x, r', s')) : Run start r' s' := by
  have next := run.read input
  rwa [h] at next

theorem Reliable.wellFormed_of_read (reliable : Reliable r s) {input : List Char} {t : Term}
    (h : r.read s input = (.ok t, r', s')) : t.WellFormed s' := by
  have wellFormed := reliable.wellFormed input t
  rw [h] at wellFormed
  exact wellFormed rfl r' s' .refl

/-- A term all of whose nodes are proper is well-formed. -/
theorem wellFormed_of_proper {base : Nat} {t : Term}
    (proper : t.EachNode (Reading.Proper base (Reading.between r s)) 0) : t.WellFormed s where
  flat u e _ applied := by
    obtain ⟨h, xs⟩ := u
    cases xs with
    | nil => cases h <;> cases applied
    | cons x xs =>
      refine ⟨List.cons_ne_nil x xs, ?_⟩
      cases h <;> simp [Term.shape, Head.shape, Term.head]
  free i hi := by
    obtain ⟨⟨u, e⟩, hu, own⟩ := List.mem_filterMap.1 hi
    have small := proper u e hu
    dsimp only [Term.freeRel?] at own
    split at own
    · next j =>
      split at own
      · next free =>
        cases own
        exact small free
      · cases own
    · cases own
  fixpoints i as bs e hu := proper _ e hu
  holes k xs e hu := (proper _ e hu).1

/-- Whatever texts were read before, and whenever names were forgotten, a reader keeps its
promises. -/
theorem Run.reliable (run : Run start r s) : Reliable r s := by
  have tabled (base : Nat) (size : base ≤ s.slots.length) :
      Reading.Tabled base (Reading.between r s) :=
    ⟨size, run.tabled.declared, run.tabled.distinct⟩
  have proper {input : List Char} {t : Term} (read : (r.read s input).1 = .ok t) :
      t.EachNode (Reading.Proper s.slots.length
        (Reading.between (r.read s input).2.1 (r.read s input).2.2)) 0 :=
    (read_keeps (Reading.rules_proper input s.slots.length) (tabled _ (Nat.le_refl _))).2.2 t read
  exact {
    gains := fun input => (onward_read r s input).gains
    wellFormed := fun input t read r' s' reads =>
      wellFormed_of_proper ((proper read).mono fun _ _ => Reading.Proper.later reads.onward)
    lasting := fun r' s' reads => reads.onward.names
    distinct := run.tabled.distinct
    declared := run.tabled.declared
    denotes := fun input t cs read next => by
      have after := Reading.hole_of_wholeTerm (s := { rest := input, reader := r, store := s }) next
      simp only [Reading.After] at after
      simp only [Reader.read, EStateM.run] at read ⊢
      split at after
      · next t' s' run =>
        rw [run] at read ⊢
        cases read
        exact after.2
      · next e s' run =>
        rw [run] at read
        cases read
    inside := fun n scope q t q' read => by
      refine ⟨(Reading.onward_termWithin read).names, fun cs next => ?_⟩
      have after := Reading.hole_of_termWithin n scope next
      simp only [Reading.After, read] at after
      exact after.2
    unnamed := fun input t read k xs e hu => by
      refine (proper read _ e hu).2.imp_right fun new => ?_
      rw [Option.eq_none_iff_forall_ne_some]
      intro d hd
      exact absurd (Store.lt_of_hole? hd) (Nat.not_lt.2 new) }

/-- A text that breaks off, one with the same holes, and names that are forgotten then. -/
theorem reliable_broken_off :
    let slot (n : Nat) : Option Hole := some ⟨n, none, .ordinary, none⟩
    let r : Reader := { holes := [("y", 1), ("x", 0)], constants := ["a", "f"] }
    let s : Store := { slots := [slot 1, slot 0] }
    let r' : Reader := { r with constants := ["T", "a", "f"] }
    let s' : Store := { slots := [slot 1, slot 0, slot 0] }
    let t : Term := .lam (.const "T") (.mk (.hole 1 []) [.hole 0 [.rel 0], .rel 4, .hole 2 []])
    (read {} .empty "(f ?x[a] ?y".toList = (.error ⟨.charMissing ')', 11⟩, r, s) ∧
      Run .empty r s ∧ Reliable r s) ∧
    (r.read s "(fun (z T) (?y ?x[z] #3 _))".toList = (.ok t, r', s') ∧ Run .empty r' s' ∧
      t.WellFormed s' ∧ Reliable r' s') ∧
    Reliable r'.forgetHoles s' ∧ r'.forgetHoles.hole? "x" = none := by
  intro slot r s r' s' t
  have broken : read {} .empty "(f ?x[a] ?y".toList = (.error ⟨.charMissing ')', 11⟩, r, s) := by
    decide +kernel
  have whole : r.read s "(fun (z T) (?y ?x[z] #3 _))".toList = (.ok t, r', s') := by
    decide +kernel
  have first : Run .empty r s := Run.of_read .start broken
  have second : Run .empty r' s' := Run.of_read first whole
  have reliable : Reliable r s := Run.reliable first
  exact ⟨⟨broken, first, reliable⟩,
    ⟨whole, second, reliable.wellFormed_of_read whole, Run.reliable second⟩,
    Run.reliable (.forget second), rfl⟩

end

end Reader

end KeyedMatching
