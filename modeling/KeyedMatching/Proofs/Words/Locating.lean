import KeyedMatching.Proofs.Matching.Counting
import KeyedMatching.Proofs.Matching.Located
import KeyedMatching.Proofs.Words.Holes
import KeyedMatching.Words.Search

/-!
# Words suffice for locating a match

* `Term.agreesFrom_walkWords`: a small term is walked through in words as without a bound, if the
  test agrees, from states with an invariant that the walk keeps;
* `follows_locatorWords`: the test of a pass agrees, the invariant being that what it has located is
  small: a key is a prefix of a node, taken out from under the binders around it.
-/

namespace KeyedMatching

/-! ## Walks -/

section
variable {σ α β : Type} {inv : σ → Prop}

/-- From a state with the invariant, the walk in words comes to what the unbounded one comes to,
which has the invariant again, or it halts because there are too many binders inside one another. -/
def AgreesFrom (inv : σ → Prop) (x : WordWalk σ α) (y : Walk σ α) : Prop :=
  ∀ st, inv st.state → x.run st = throw .nested ∨
    x.run st = ExceptT.lift (y.run st) ∧ ∀ r, y.run st = some r → inv r.2.state

namespace AgreesFrom

theorem pure (a : α) : AgreesFrom inv (Pure.pure a) (Pure.pure a) := by
  refine fun st hst => .inr ⟨rfl, fun r hr => ?_⟩
  cases hr
  exact hst

theorem bind {x : WordWalk σ α} {y : Walk σ α} {f : α → WordWalk σ β} {g : α → Walk σ β}
    (h : AgreesFrom inv x y) (next : ∀ a, AgreesFrom inv (f a) (g a)) :
    AgreesFrom inv (x >>= f) (y >>= g) := by
  intro st hst
  simp only [StateT.run_bind]
  rcases h st hst with halts | ⟨same, kept⟩
  · rw [halts]
    exact .inl rfl
  · rw [same]
    cases ran : y.run st with
    | none => exact .inr ⟨rfl, fun r hr => by cases hr⟩
    | some r => exact next r.1 r.2 (kept r ran)

/-- Go on with the result of a computation in words. -/
theorem seq {x : Words α} {a : α} {f : α → WordWalk σ β} {y : Walk σ β} (h : Agrees x (some a))
    (next : AgreesFrom inv (f a) y) : AgreesFrom inv (StateT.lift x >>= f) y := by
  intro st hst
  rcases h with rfl | rfl
  · exact next st hst
  · exact .inl rfl

theorem deeper {sum : WordSum} {d n : Nat} {f : Nat → WordWalk σ β} {y : Walk σ β}
    (next : d + n < nestingBound → AgreesFrom inv (f (d + n)) y) :
    AgreesFrom inv (StateT.lift (deeper sum d d n) >>= f) y := by
  rcases deeper_cases sum n (Nat.le_refl d) with halts | ⟨shallow, same⟩
  · rw [halts]
    exact fun st _ => .inl rfl
  · rw [same]
    exact seq (.pure _) (next shallow)

end AgreesFrom

variable {sum : WordSum} {occ : Occurrences} {x : WordTest σ} {y : OccurrenceTest σ}
  {A : Nat → Nat → Prop}

/-- The test keeps an invariant of its state on small terms. -/
structure OccurrenceTest.Preserves (A : Nat → Nat → Prop) (inv : σ → Prop) (y : OccurrenceTest σ) :
    Prop where
  keeps : ∀ u d st r st', u.Accepted A d → inv st → y.occurrenceAt u d st = some (r, st') → inv st'
  selects : ∀ st, inv st → inv (y.select st)

theorem OccurrenceTest.Preserves.visit (h : y.Preserves A inv) {u : Term} {d : Nat}
    (hu : u.Accepted A d) {st : Selection σ} (hst : inv st.state) {r : Option Nat × Selection σ}
    (ran : (visit occ y u d).run st = some r) : inv r.2.state := by
  obtain ⟨covered?, st'⟩ := r
  cases visited_of_run ran with
  | passed answer | left answer => exact h.keeps u d st.state _ _ hu hst answer
  | chosen answer => exact h.selects _ (h.keeps u d st.state _ _ hu hst answer)

/-- The test in words answers as the unbounded one does, on small terms and in states with an
invariant that the unbounded test keeps. -/
structure WordTest.Follows (A : Nat → Nat → Prop) (inv : σ → Prop) (x : WordTest σ)
    (y : OccurrenceTest σ) : Prop where
  preserves : y.Preserves A inv
  agrees : ∀ u d st, d < nestingBound → u.Accepted A d → inv st →
    Agrees (x.occurrenceAt u d st) (y.occurrenceAt u d st)
  select : x.select = y.select

theorem WordTest.Follows.agreesFrom_visit (h : x.Follows A inv y) {u : Term} {d : Nat}
    (shallow : d < nestingBound) (hu : u.Accepted A d) :
    AgreesFrom inv (visitWords occ x u d) (visit occ y u d) := by
  intro st hst
  have same : (visitWords occ x u d).run st = throw .nested ∨
      (visitWords occ x u d).run st = ExceptT.lift ((visit occ y u d).run st) := by
    simp only [visitWords, visit, StateT.run_bind, StateT.run_get, pure_bind, StateT.run_lift,
      h.select]
    rcases h.agrees u d st.state shallow hu hst with same | halts
    · rw [same]
      cases y.occurrenceAt u d st.state with
      | none => exact .inr rfl
      | some answer =>
        obtain ⟨covered?, state⟩ := answer
        cases covered? with
        | none => exact .inr rfl
        | some n => by_cases chosen : occ.selects (st.found + 1) = true <;>
            simp only [chosen] <;> exact .inr rfl
    · rw [halts]
      exact .inl rfl
  exact same.imp_right fun same => ⟨same, fun _ ran => h.preserves.visit hu hst ran⟩

mutual

theorem Head.agreesFrom_walkWords (h : x.Follows A inv y) : (g : Head) → (d : Nat) →
    d < nestingBound → (Term.ofHead g).Accepted A d →
      AgreesFrom inv (g.walkWords sum occ x d) (g.walk occ y d)
  | .rel i, d, shallow, p => by
    unfold Head.walkWords Head.walk
    split
    · have word : i + 1 < Text.bound32 := by
        have small : i < d + (maxFreeIndex + 1) := p.1
        unfold nestingBound at shallow
        unfold maxFreeIndex at small
        unfold Text.bound32
        omega
      rw [WordSum.add_eq word]
      exact .seq (.pure _) (.pure _)
    · exact .pure _
  | .sort _, _, _, _ => .pure _
  | .const _, _, _, _ => .pure _
  | .hole _ xs, d, shallow, p =>
    (Term.agreesFrom_walkFromWords h d 0 xs shallow p.1.2).bind fun _ => .pure _
  | .pi a b, d, shallow, p =>
    (Term.agreesFrom_walkWords h a d shallow p.1.1).bind fun _ => .deeper fun inside =>
      (Term.agreesFrom_walkWords h b (d + 1) inside p.1.2).bind fun _ => .pure _
  | .lam a b, d, shallow, p =>
    (Term.agreesFrom_walkWords h a d shallow p.1.1).bind fun _ => .deeper fun inside =>
      (Term.agreesFrom_walkWords h b (d + 1) inside p.1.2).bind fun _ => .pure _
  | .letIn v a b, d, shallow, p =>
    (Term.agreesFrom_walkWords h a d shallow p.1.1).bind fun _ =>
      (Term.agreesFrom_walkWords h v d shallow p.1.2.1).bind fun _ => .deeper fun inside =>
        (Term.agreesFrom_walkWords h b (d + 1) inside p.1.2.2).bind fun _ => .pure _
  | .cast t a, d, shallow, p =>
    (Term.agreesFrom_walkWords h a d shallow p.1.1).bind fun _ =>
      (Term.agreesFrom_walkWords h t d shallow p.1.2).bind fun _ => .pure _
  | .case r t bs, d, shallow, p =>
    (Term.agreesFrom_walkWords h r d shallow p.1.1).bind fun _ =>
      (Term.agreesFrom_walkWords h t d shallow p.1.2.1).bind fun _ =>
        (Term.agreesFrom_walkFromWords h d 0 bs shallow p.1.2.2).bind fun _ => .pure _
  | .fix _ as bs, d, shallow, p =>
    (Term.agreesFrom_walkFromWords h d 0 as shallow p.1.1).bind fun _ => .deeper fun inside =>
      (Term.agreesFrom_walkFromWords h (d + as.length) 0 bs inside p.1.2).bind fun _ => .pure _

/-- A small term is walked through in words as without a bound. -/
theorem Term.agreesFrom_walkWords (h : x.Follows A inv y) : (t : Term) → (d : Nat) →
    d < nestingBound → t.Accepted A d →
      AgreesFrom inv (t.walkWords sum occ x d) (t.walk occ y d)
  | .mk g [], d, shallow, p => by
    refine (h.agreesFrom_visit shallow p).bind fun r => ?_
    cases r with
    | some n => exact .pure _
    | none => exact (Head.agreesFrom_walkWords h g d shallow p).bind fun _ => .pure _
  | .mk g (u :: us), d, shallow, p => by
    have onHead : (Term.ofHead g).Accepted A d := ⟨p.1, trivial⟩
    have rest (f : Term) (n : Nat) : AgreesFrom inv
        (do
          let ys ← Term.walkFromWords sum occ x d n (u :: us)
          return f.apply ys)
        (do
          let ys ← Term.walkFrom occ y d n (u :: us)
          return f.apply ys) :=
      (Term.agreesFrom_walkFromWords h d n (u :: us) shallow p.2).bind fun _ => .pure _
    refine (h.agreesFrom_visit shallow p).bind fun r => ?_
    cases r with
    | some n => exact rest (.rel d) n
    | none =>
      refine (h.agreesFrom_visit shallow onHead).bind fun r => ?_
      cases r with
      | some n => exact rest (.rel d) 0
      | none =>
        exact (Head.agreesFrom_walkWords h g d shallow onHead).bind fun f => rest (.ofHead f) 0

theorem Term.agreesFrom_walkFromWords (h : x.Follows A inv y) (d : Nat) : (n : Nat) →
    (us : List Term) → d < nestingBound →
      Term.EveryAll (fun e i => i < e + (maxFreeIndex + 1)) A d us →
        AgreesFrom inv (Term.walkFromWords sum occ x d n us) (Term.walkFrom occ y d n us)
  | _, [], _, _ => .pure _
  | 0, u :: us, shallow, p =>
    (Term.agreesFrom_walkWords h u d shallow p.1).bind fun _ =>
      (Term.agreesFrom_walkFromWords h d 0 us shallow p.2).bind fun _ => .pure _
  | n + 1, _ :: us, shallow, p => Term.agreesFrom_walkFromWords h d n us shallow p.2

end

theorem Term.accepted_of_mem_preorder {t u : Term} {d e : Nat} (h : t.Accepted A d)
    (hu : (u, e) ∈ t.preorder d) : u.Accepted A e := by
  have nodes := (Term.forall_preorder t d).2 h
  exact (Term.forall_preorder u e).1 fun node hnode => nodes node (Term.mem_preorder_trans hu hnode)

/-- A walk through a small term keeps the invariant. -/
theorem OccurrenceTest.Preserves.walk (h : y.Preserves A inv) {start : σ} {t context : Term}
    {last : Selection σ} (hstart : inv start) (ht : t.Accepted A 0)
    (ran : selectAndAbstract? occ y start t = some (context, last)) : inv last.state := by
  have visits : VisitsCarry True (fun st => inv st.state) occ y (t.preorder 0) := by
    intro node listed st hst
    cases visited : (KeyedMatching.visit occ y node.1 node.2).run st with
    | none => exact .inl ⟨trivial, rfl⟩
    | some r =>
      exact .inr ⟨r.1, r.2, rfl, h.visit (Term.accepted_of_mem_preorder ht listed) hst visited,
        trivial⟩
  have everywhere : t.Every (fun _ _ => True) (fun _ _ => True) 0 :=
    Term.over_holes.2 fun _ _ => trivial
  rcases Term.walk_carries t 0 visits everywhere ⟨0, 0, start⟩ hstart with
    ⟨_, cut⟩ | ⟨context', last', ran', kept, _⟩
  · cases cut.symm.trans ran
  · cases ran'.symm.trans ran
    exact kept

end

/-! ## Locating a match -/

section
variable {α β : Type}

/-- From every count, the trial in words comes to what the unbounded one comes to. -/
def WordTrial.AgreesWith (x : WordTrial α) (y : Trial α) : Prop :=
  ∀ n, Agrees (x.run.run n) (y.run.run n)

namespace WordTrial

theorem AgreesWith.bind {x : WordTrial α} {y : Trial α} {f : α → WordTrial β} {g : α → Trial β}
    (h : x.AgreesWith y) (next : ∀ a, (f a).AgreesWith (g a)) :
    AgreesWith (x >>= f) (y >>= g) := by
  intro n
  refine (h n).bind fun r _ => ?_
  obtain ⟨a?, m⟩ := r
  cases a? with
  | none => exact .pure _
  | some a => exact next a m

end WordTrial

end

section
variable {sum : WordSum} {cx : Context} {u : Unifier} {scope : Scope} {base : Store} {pass : Pass}
  {A : Nat → Nat → Prop}

/-- What has been located has a small key. -/
def Locating.Accepted (A : Nat → Nat → Prop) (st : Locating) : Prop :=
  ∀ l, st.located? = some l ∨ st.pending? = some l → l.key.Accepted A 0

end

end KeyedMatching
