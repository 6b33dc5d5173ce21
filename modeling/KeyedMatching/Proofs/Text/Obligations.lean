import KeyedMatching.Proofs.Term.ByNodes
import KeyedMatching.Proofs.Text.Reliable
import KeyedMatching.Typing

/-!
# Obligations in a text

`(inst T)` declares a hole of the type `T` that takes no arguments, whatever binders it stands
under. So the type may use variables of these binders, which the hole itself knows nothing of.

* `Term.FitsText`: the free variables of a term belong to the binders of a place in a text, or are
  written as free ones in it;
* `Reading.Obliged`: only obligations have a type, and no name stands for one;
* `Reader.Run.typed_hole_fits`: the type of a hole that a text declares fits each place where the
  hole stands in what is read, and inference of the hole commutes with lifting just if the type is
  over the variables of the hole;
* `obligation_not_over_arity`: under a local definition it need not be.
-/

namespace KeyedMatching

/-! ## Lifting -/

section
variable {t : Term}

/-- A term that no lifting changes has no free variables. -/
theorem Term.scoped_of_lift_eq (h : ∀ n, t.lift 0 n = t) : t.Scoped 0 := by
  have far (n : Nat) : ∀ i ∈ (t.lift 0 n).freeRels, n ≤ i := by
    refine Term.forall_freeRels.2 (Term.every_bind (v := fun e i => e ≤ i → True)
      (fun e i _ => ?_) t 0 (Term.forall_freeRels.1 fun _ _ => trivial))
    split
    · exact ⟨fun _ => by omega, trivial⟩
    · next below => exact ⟨fun free => absurd free below, trivial⟩
  refine Term.scoped_iff.2 fun i hi => ?_
  have := far (i + 1) i (by rwa [h])
  omega

end

/-! ## Inference of a hole -/

section
variable {s : Store} {k : Nat} {d : Hole} {a : Term}

/-- A hole that takes no arguments has the type that it is declared with. -/
theorem inferType?_hole (hd : s.hole? k = some d) (ha : d.type? = some a) (open_ : d.value? = none)
    {cx : Context} (deep : 0 < cx.limit) :
    inferType? cx s (.hole k []) = some (.ok (some a)) := by
  obtain ⟨n, hn⟩ := Nat.exists_eq_add_of_lt deep
  have unassigned : s.value? k = none := by
    rw [Store.value?, hd]
    exact open_
  rw [inferType?, inferTypeBy?, hn]
  simp only [Infer.within, Infer.step, Infer.head, unassigned, hd, Option.bind_some, ha,
    Option.map_some, Term.instantiateMany_nil]
  rfl

/-- Inference of such a hole commutes with lifting just if the type has no free variables. -/
theorem inferType?_hole_lift_iff (hd : s.hole? k = some d) (ha : d.type? = some a)
    (open_ : d.value? = none) :
    (∀ cx c n, inferType? cx s ((Term.hole k []).lift c n) =
      (inferType? cx s (.hole k [])).map (·.map (·.map (·.lift c n)))) ↔ a.Scoped 0 := by
  have fixed (c n : Nat) : (Term.hole k []).lift c n = .hole k [] := rfl
  constructor
  · intro commutes
    refine Term.scoped_of_lift_eq fun n => ?_
    have lifted := commutes {} 0 n
    rw [fixed, inferType?_hole hd ha open_ (by decide)] at lifted
    simpa [Except.map] using lifted.symm
  · intro closed cx c n
    rw [fixed]
    rcases Nat.eq_zero_or_pos cx.limit with none | deep
    · rw [inferType?, inferTypeBy?, none]
      rfl
    · rw [inferType?_hole hd ha open_ deep]
      simp [Except.map, Term.lift_of_scoped (closed.weaken (Nat.zero_le c))]

end

/-! ## Types of obligations -/

/-- A term at a place of the text `input` that stands under `d` binders: a free variable belongs to
one of these, or is one that the text can write as a free one. -/
def Term.FitsText (input : List Char) (d : Nat) (a : Term) : Prop :=
  ∀ i ∈ a.freeRels, i < d ∨ '#' ∈ input ∧ i - d ≤ maxFreeIndex

namespace Reading

/-- Names stand for different declared holes, none of those from `base` on for a typed one; a hole
from `base` on that has a type is an obligation without arguments. -/
structure Obliged (base : Nat) (s : Reading) : Prop where
  tabled : Tabled base s
  obligation : ∀ k d, base ≤ k → s.store.hole? k = some d → d.type?.isSome →
    d.arity = 0 ∧ d.kind = .obligation ∧ d.value? = none
  untyped : ∀ name k d, s.reader.hole? name = some k → base ≤ k → s.store.hole? k = some d →
    d.type? = none

/-- A variable is bound or fits the text; a hole from `base` on that has a type stands without
arguments where its type fits the text. -/
def Fitting (input : List Char) (base : Nat) (s : Reading) (d : Nat) : Term → Prop
  | .rel i => i < d ∨ '#' ∈ input ∧ i - d ≤ maxFreeIndex
  | .hole k xs => base ≤ k → ∃ h, s.store.hole? k = some h ∧
    ∀ a, h.type? = some a → xs = [] ∧ a.FitsText input d
  | _ => True

section
variable {input : List Char} {base : Nat} {s s' : Reading}

theorem Fitting.later (onward : Onward s s') {d : Nat} {u : Term} (h : Fitting input base s d u) :
    Fitting input base s' d u := by
  unfold Fitting at h ⊢
  split
  · exact h
  · intro past
    obtain ⟨slot, hk, typed⟩ := h past
    exact ⟨slot, onward.gains.hole? hk, typed⟩
  · exact trivial

/-- The free variables of a term whose variables fit the text fit it. -/
theorem fitsText_of_fitting {d : Nat} {a : Term}
    (fitting : a.EachNode (Fitting input base s) d) : a.FitsText input d := by
  have every : a.Every (fun e i => i < e ∨ '#' ∈ input ∧ i - e ≤ maxFreeIndex) (fun _ _ => True)
      d := by
    refine (Term.forall_preorder a d).1 fun ⟨u, e⟩ hu => ?_
    change u.Fits _ _ e
    unfold Term.Fits
    split
    · exact fitting _ e hu
    · exact trivial
    · exact trivial
  rw [← Nat.zero_add d, Term.every_shift] at every
  refine Term.forall_freeRels.2 (every.mono (fun e i own free => ?_) fun _ _ h => h)
  rw [Nat.sub_sub]
  exact own.imp_left fun bound => by omega

theorem Obliged.declare (obliged : Obliged base s) (arity : Nat) (type? : Option Term)
    (kind : HoleKind) (typed : type?.isSome → arity = 0 ∧ kind = .obligation) :
    Obliged base (s.declared arity type? kind) := by
  refine ⟨obliged.tabled.declare arity type? kind, fun k d past hd ha => ?_,
    fun name k d known past hd => ?_⟩
  · simp only [declared, Store.hole?_fresh] at hd
    split at hd
    · obtain rfl := Option.some.inj hd
      exact ⟨(typed ha).1, (typed ha).2, rfl⟩
    · exact obliged.obligation k d past hd ha
  · simp only [declared, Store.hole?_fresh] at hd
    split at hd
    · next new =>
      obtain ⟨_, d, old, _⟩ := obliged.tabled.declared name k known
      exact absurd (Store.lt_of_hole? old) (by omega)
    · exact obliged.untyped name k d known past hd

theorem Obliged.name (obliged : Obliged base s) (name : String) (arity : Nat) :
    Obliged base ((s.declared arity none .ordinary).named name s.store.slots.length) := by
  have next := obliged.declare arity none .ordinary (by simp)
  refine ⟨obliged.tabled.name name arity, next.obligation, fun other k d known past hd => ?_⟩
  rw [hole?_named] at known
  split at known
  · obtain rfl := Option.some.inj known
    simp only [named, declared, Store.hole?_fresh, if_true] at hd
    obtain rfl := Option.some.inj hd
    rfl
  · exact next.untyped other k d known past hd

/-- The hole that is declared last. -/
theorem hole?_declared (s : Reading) (arity : Nat) (type? : Option Term) (kind : HoleKind) :
    (s.declared arity type? kind).store.hole? s.store.slots.length =
      some ⟨arity, type?, kind, none⟩ :=
  (s.store.hole?_fresh arity type? kind _).trans (if_pos rfl)

/-- Only obligations get a type, and it fits the text where they stand. -/
theorem rules_fitting (input : List Char) (base : Nat) :
    Rules input (Obliged base) (Fitting input base) where
  move rest obliged :=
    ⟨(rules_proper input base).move rest obliged.tabled, obliged.obligation, obliged.untyped⟩
  meet name obliged := by
    refine ⟨(rules_proper input base).meet name obliged.tabled, obliged.obligation,
      fun other k d known => ?_⟩
    rw [hole?_meet] at known
    exact obliged.untyped other k d known
  anonymous obliged := obliged.declare 0 none .ordinary (by simp)
  obligation obliged _ := obliged.declare 0 _ .obligation fun _ => ⟨rfl, rfl⟩
  name arity obliged _ := obliged.name _ arity
  stable onward h := h.later onward
  bound inside := .inl inside
  free sign inRange := .inr ⟨sign, by rwa [Nat.add_sub_cancel]⟩
  anonymousHole {s d} _ _ := ⟨_, s.hole?_declared 0 none .ordinary, nofun⟩
  obligationHole {s d a} _ fitting _ := by
    refine ⟨_, s.hole?_declared 0 (some a) .obligation, fun a' same => ?_⟩
    obtain rfl := Option.some.inj same
    exact ⟨rfl, fitsText_of_fitting fitting⟩
  namedHole {s d k name xs} obliged known declares past := by
    obtain ⟨h, hk, _⟩ := declares
    refine ⟨h, hk, fun a typed => ?_⟩
    rw [obliged.untyped name k h known past hk] at typed
    cases typed
  fix _ _ := trivial
  other {s d u} plain := by
    unfold Fitting
    split
    · simp [Term.shape, Head.shape] at plain
    · simp [Term.shape, Head.shape] at plain
    · exact trivial

end

end Reading

/-- A hole that a text declares with a type is an obligation without arguments. In what is read its
type fits each place where it stands, but it is over no variables of its own: just if the type has
no free variables does inference of the hole commute with lifting. -/
theorem Reader.Run.typed_hole_fits {start s : Store} {r : Reader} (run : Run start r s)
    {input : List Char} {k : Nat} {d : Hole} {a : Term} (new : s.hole? k = none)
    (hd : (r.read s input).2.2.hole? k = some d) (ha : d.type? = some a) :
    (d.arity = 0 ∧ d.kind = .obligation ∧ d.value? = none) ∧
    (∀ t, (r.read s input).1 = .ok t → ∀ xs e, (Term.hole k xs, e) ∈ t.preorder 0 →
      xs = [] ∧ (a.instantiateMany xs).FitsText input e) ∧
    ((∀ cx c n, inferType? cx (r.read s input).2.2 ((Term.hole k []).lift c n) =
        (inferType? cx (r.read s input).2.2 (.hole k [])).map (·.map (·.map (·.lift c n)))) ↔
      ∀ i ∈ a.freeRels, i < d.arity) := by
  have unused {k : Nat} {d : Hole} (past : s.slots.length ≤ k) (hd : s.hole? k = some d) : False :=
    absurd (Store.lt_of_hole? hd) (Nat.not_lt.2 past)
  have start : Reading.Obliged s.slots.length (Reading.between r s) :=
    ⟨⟨Nat.le_refl _, run.tabled.declared, run.tabled.distinct⟩,
      fun _ _ past hd => (unused past hd).elim, fun _ _ _ _ past hd => (unused past hd).elim⟩
  obtain ⟨onward, obliged, fitting⟩ := read_keeps (Reading.rules_fitting input _) start
  have past : s.slots.length ≤ k := by
    by_contra old
    obtain ⟨new', -, same⟩ := onward.gains
    change (r.read s input).2.2 = { s with slots := s.slots ++ new'.map some } at same
    rw [same, Store.hole?, List.getElem?_append_left (Nat.not_le.1 old)] at hd
    exact absurd (new.symm.trans hd) (by simp)
  have obligation := obliged.obligation k d past hd (by simp [ha])
  refine ⟨obligation, fun t read xs e hu => ?_, ?_⟩
  · obtain ⟨d', hd', typed⟩ := fitting t read _ e hu past
    obtain rfl := Option.some.inj (hd'.symm.trans hd)
    obtain ⟨rfl, fits⟩ := typed a ha
    exact ⟨rfl, by rwa [Term.instantiateMany_nil]⟩
  · rw [obligation.1, inferType?_hole_lift_iff hd ha obligation.2.2, Term.scoped_iff]

/-- An obligation under a binder, beside a hole that has a name. -/
theorem Reader.obligation_under_binder :
    let a : Term := .mk (.const "C") [.rel 0, .rel 3]
    let t : Term := .mk (.const "f") [.hole 0 [], .lam (.const "A") (.hole 1 [])]
    let cs := "(f ?y (fun (x A) (inst (C x #2))))".toList
    let s : Store := { slots := [some ⟨0, none, .ordinary, none⟩,
      some ⟨0, some a, .obligation, none⟩] }
    (Run .empty {} .empty ∧ Store.empty.hole? 1 = none ∧ (read {} .empty cs).1 = .ok t ∧
      (read {} .empty cs).2.2 = s ∧ s.hole? 1 = some ⟨0, some a, .obligation, none⟩) ∧
    (Term.hole 1 [], 1) ∈ t.preorder 0 ∧ a.FitsText cs 1 ∧
    ¬ ∀ cx c n, inferType? cx s ((Term.hole 1 []).lift c n) =
      (inferType? cx s (.hole 1 [])).map (·.map (·.map (·.lift c n))) := by
  intro a t cs s
  have read : (Reader.read {} .empty cs).1 = .ok t := by decide +kernel
  have store : (Reader.read {} .empty cs).2.2 = s := by decide +kernel
  have here : (Term.hole 1 [], 1) ∈ t.preorder 0 := by decide +kernel
  have declared : (Reader.read {} .empty cs).2.2.hole? 1 =
      some ⟨0, some a, .obligation, none⟩ := by
    rw [store]
    rfl
  obtain ⟨_, fits, commutes⟩ := Run.typed_hole_fits (.start : Run .empty _ _) rfl declared rfl
  rw [store] at commutes
  refine ⟨⟨.start, rfl, read, store, rfl⟩, here, ?_, ?_⟩
  · have own := (fits t read [] 1 here).2
    rwa [Term.instantiateMany_nil] at own
  · rw [commutes]
    decide +kernel

/-- Under a local definition the type of an obligation can use a variable, though the hole has none;
the type is then inferred for a closed term. -/
theorem obligation_not_over_arity :
    let a : Term := .mk (.const "C") [.rel 0]
    let t : Term := .ofHead (.letIn (.const "a") (.const "A") (.hole 0 []))
    let s : Store := { slots := [some ⟨0, some a, .obligation, none⟩] }
    (Reader.read {} .empty "(let (x A a) (inst (C x)))".toList).1 = .ok t ∧
    (Reader.read {} .empty "(let (x A a) (inst (C x)))".toList).2.2 = s ∧
    s.hole? 0 = some ⟨0, some a, .obligation, none⟩ ∧ (¬ ∀ i ∈ a.freeRels, i < 0) ∧
    t.freeRels = [] ∧ inferType? {} s t = some (.ok (some a)) ∧
    inferType? {} s ((Term.hole 0 []).lift 0 1) = some (.ok (some a)) ∧
    (inferType? {} s (.hole 0 [])).map (·.map (·.map (·.lift 0 1))) =
      some (.ok (some (.mk (.const "C") [.rel 1]))) := by
  decide +kernel

end KeyedMatching
