import KeyedMatching.Proofs.Equality.Theory
import Mathlib.Data.Set.Basic

/-!
# A model of equality

Equality does not make everything equal. A term denotes a set of tokens: a token is an atom, or an
arrow from finitely many tokens to one, and an abstraction denotes the arrows that its body bears
out. What a term is found to denote needs finitely many tokens of its variables only
(`Finitary`), so contracting an abstraction does not change what is denoted.

* `Term.denote_instantiate`: putting a term for a variable is giving the variable what the term
  denotes;
* `Interpretation.Models`: the interpretation satisfies the definitions, values and canonical forms
  of a theory;
* `Interpretation.Models.denote_eq`: what is equal in a theory denotes the same in its models.
-/

namespace KeyedMatching

/-- What is said about a term: that it passes an atomic test, or that, given an argument of which
finitely many tokens hold, it yields one. -/
inductive Token where
  | atom
  | arrow (needs : List Token) (yields : Token)

/-- What the variables denote. -/
abbrev Valuation := Nat → Set Token

/-- Give the innermost variable of a body something to denote. -/
def Valuation.push (ρ : Valuation) (X : Set Token) : Valuation
  | 0 => X
  | i + 1 => ρ i

/-- The valuation by finitely many tokens. -/
def Valuation.ofList (es : List (Nat × Token)) : Valuation :=
  fun i => {x | (i, x) ∈ es}

namespace Token

/-- What an application denotes. -/
def app (F X : Set Token) : Set Token :=
  {y | ∃ needs, (∀ x ∈ needs, x ∈ X) ∧ arrow needs y ∈ F}

/-- What an application to several arguments denotes. -/
def apps (F : Set Token) (Xs : List (Set Token)) : Set Token :=
  Xs.foldl app F

/-- What an abstraction denotes whose body denotes `F`. -/
def abs (F : Set Token → Set Token) : Set Token :=
  {y | ∃ needs z, y = arrow needs z ∧ z ∈ F {x | x ∈ needs}}

theorem apps_append (F : Set Token) (Xs Ys : List (Set Token)) :
    apps F (Xs ++ Ys) = apps (apps F Xs) Ys :=
  List.foldl_append

theorem app_mono {F F' X X' : Set Token} (hF : F ⊆ F') (hX : X ⊆ X') : app F X ⊆ app F' X' := by
  rintro y ⟨needs, hneeds, hy⟩
  exact ⟨needs, fun x hx => hX (hneeds x hx), hF hy⟩

end Token

/-! ## Finitary meanings -/

/-- What depends on the variables grows with them, and a token of it needs finitely many of
theirs. -/
structure Finitary (F : Valuation → Set Token) : Prop where
  mono : ∀ ρ ρ' : Valuation, (∀ i, ρ i ⊆ ρ' i) → F ρ ⊆ F ρ'
  finite : ∀ ρ : Valuation, ∀ y ∈ F ρ,
    ∃ es : List (Nat × Token), (∀ e ∈ es, e.2 ∈ ρ e.1) ∧ y ∈ F (.ofList es)

section
variable {F G : Valuation → Set Token} {ρ ρ' : Valuation}

theorem Valuation.push_mono (h : ∀ i, ρ i ⊆ ρ' i) {X X' : Set Token} (hX : X ⊆ X') (i : Nat) :
    ρ.push X i ⊆ ρ'.push X' i := by
  cases i with
  | zero => exact hX
  | succ i => exact h i

theorem Valuation.ofList_left (es fs : List (Nat × Token)) (i : Nat) :
    ofList es i ⊆ ofList (es ++ fs) i :=
  fun _ hx => List.mem_append_left fs hx

theorem Valuation.ofList_right (es fs : List (Nat × Token)) (i : Nat) :
    ofList fs i ⊆ ofList (es ++ fs) i :=
  fun _ hx => List.mem_append_right es hx

/-- The tokens of the outer variables, as those of the variables outside a binder. -/
def outer (es : List (Nat × Token)) : List (Nat × Token) :=
  es.filterMap fun (i, x) => match i with
    | 0 => none
    | i + 1 => some (i, x)

theorem mem_outer {es : List (Nat × Token)} {i : Nat} {x : Token} :
    (i, x) ∈ outer es ↔ (i + 1, x) ∈ es := by
  simp only [outer, List.mem_filterMap, Prod.exists]
  constructor
  · rintro ⟨j, y, hy, h⟩
    cases j with
    | zero => cases h
    | succ j =>
      cases h
      exact hy
  · exact fun h => ⟨i + 1, x, h, rfl⟩

/-- The tokens of the innermost variable. -/
def inner (es : List (Nat × Token)) : List Token :=
  es.filterMap fun (i, x) => if i = 0 then some x else none

theorem mem_inner {es : List (Nat × Token)} {x : Token} : x ∈ inner es ↔ (0, x) ∈ es := by
  simp [inner, List.mem_filterMap]

/-- Finitely many tokens of the variables of a body are some of the innermost and some outside. -/
theorem Valuation.ofList_subset_push {es : List (Nat × Token)} {X : Set Token}
    (h : ∀ x ∈ inner es, x ∈ X) (i : Nat) : ofList es i ⊆ (ofList (outer es)).push X i := by
  intro x hx
  cases i with
  | zero => exact h x (mem_inner.2 hx)
  | succ i => exact mem_outer.2 hx

theorem forall_push {es : List (Nat × Token)} {X : Set Token} (h : ∀ e ∈ es, e.2 ∈ ρ.push X e.1) :
    (∀ x ∈ inner es, x ∈ X) ∧ ∀ e ∈ outer es, e.2 ∈ ρ e.1 :=
  ⟨fun x hx => h (0, x) (mem_inner.1 hx), fun e he => h (e.1 + 1, e.2) (mem_outer.1 he)⟩

namespace Finitary

theorem fixed (X : Set Token) : Finitary fun _ => X :=
  ⟨fun _ _ _ => subset_rfl, fun _ _ hy => ⟨[], by simp, hy⟩⟩

theorem var (i : Nat) : Finitary fun ρ => ρ i := by
  refine ⟨fun _ _ h => h i, fun ρ y hy => ⟨[(i, y)], ?_, List.mem_singleton_self _⟩⟩
  simpa using hy

/-- Finitely many tokens need finitely many. -/
theorem finite_all (hF : Finitary F) (ys : List Token) (hys : ∀ y ∈ ys, y ∈ F ρ) :
    ∃ es : List (Nat × Token), (∀ e ∈ es, e.2 ∈ ρ e.1) ∧ ∀ y ∈ ys, y ∈ F (.ofList es) := by
  induction ys with
  | nil => exact ⟨[], by simp, by simp⟩
  | cons y ys ih =>
    rw [List.forall_mem_cons] at hys
    obtain ⟨es, hes, hy⟩ := hF.finite ρ y hys.1
    obtain ⟨fs, hfs, hall⟩ := ih hys.2
    refine ⟨es ++ fs, List.forall_mem_append.2 ⟨hes, hfs⟩, List.forall_mem_cons.2 ⟨?_, ?_⟩⟩
    · exact hF.mono _ _ (Valuation.ofList_left es fs) hy
    · exact fun z hz => hF.mono _ _ (Valuation.ofList_right es fs) (hall z hz)

theorem app (hF : Finitary F) (hG : Finitary G) : Finitary fun ρ => Token.app (F ρ) (G ρ) := by
  refine ⟨fun ρ ρ' h => Token.app_mono (hF.mono ρ ρ' h) (hG.mono ρ ρ' h), ?_⟩
  rintro ρ y ⟨needs, hneeds, hy⟩
  obtain ⟨es, hes, hy⟩ := hF.finite ρ _ hy
  obtain ⟨fs, hfs, hneeds⟩ := hG.finite_all needs hneeds
  refine ⟨es ++ fs, List.forall_mem_append.2 ⟨hes, hfs⟩, needs, fun x hx => ?_, ?_⟩
  · exact hG.mono _ _ (Valuation.ofList_right es fs) (hneeds x hx)
  · exact hF.mono _ _ (Valuation.ofList_left es fs) hy

theorem abs (hF : Finitary F) : Finitary fun ρ => Token.abs fun X => F (ρ.push X) := by
  refine ⟨?_, ?_⟩
  · rintro ρ ρ' h y ⟨needs, z, rfl, hz⟩
    exact ⟨needs, z, rfl, hF.mono _ _ (Valuation.push_mono h subset_rfl) hz⟩
  · rintro ρ y ⟨needs, z, rfl, hz⟩
    obtain ⟨es, hes, hz⟩ := hF.finite _ z hz
    obtain ⟨own, rest⟩ := forall_push hes
    exact ⟨outer es, rest, needs, z, rfl, hF.mono _ _ (Valuation.ofList_subset_push own) hz⟩

theorem push (hF : Finitary F) (hG : Finitary G) : Finitary fun ρ => F (ρ.push (G ρ)) := by
  refine ⟨fun ρ ρ' h => hF.mono _ _ (Valuation.push_mono h (hG.mono ρ ρ' h)), ?_⟩
  intro ρ y hy
  obtain ⟨es, hes, hy⟩ := hF.finite _ y hy
  obtain ⟨own, rest⟩ := forall_push hes
  -- The tokens of the innermost variable are some of what it was given, and need finitely many.
  obtain ⟨fs, hfs, hown⟩ := hG.finite_all (inner es) own
  refine ⟨outer es ++ fs, List.forall_mem_append.2 ⟨rest, hfs⟩, hF.mono _ _ (fun i x hx => ?_) hy⟩
  have given : ∀ x ∈ inner es, x ∈ G (.ofList (outer es ++ fs)) :=
    fun x hx => hG.mono _ _ (Valuation.ofList_right _ fs) (hown x hx)
  exact Valuation.push_mono (Valuation.ofList_left _ fs) subset_rfl i
    (Valuation.ofList_subset_push given i hx)

/-- An abstraction applied denotes what its body does. -/
theorem app_abs (hF : Finitary F) (X : Set Token) :
    Token.app (Token.abs fun Y => F (ρ.push Y)) X = F (ρ.push X) := by
  ext y
  constructor
  · rintro ⟨needs, hneeds, needs', z, same, hz⟩
    cases same
    exact hF.mono _ _ (Valuation.push_mono (fun _ => subset_rfl) hneeds) hz
  · intro hy
    obtain ⟨es, hes, hy⟩ := hF.finite _ y hy
    obtain ⟨own, rest⟩ := forall_push hes
    refine ⟨inner es, own, inner es, y, rfl, hF.mono _ _ (fun i x hx => ?_) hy⟩
    have outside (i : Nat) : Valuation.ofList (outer es) i ⊆ ρ i := fun x hx => rest (i, x) hx
    exact Valuation.push_mono outside subset_rfl i
      (Valuation.ofList_subset_push (fun _ hx => hx) i hx)

end Finitary

end

/-! ## Denotation -/

/-- What the constants and the holes denote. -/
structure Interpretation where
  const : String → Set Token
  hole : Nat → Set Token

section
variable (I : Interpretation)

mutual

/-- What a head denotes. A hole is applied to its instance. Of types, case analyses and fixpoints
nothing is said. -/
def Head.denote : Head → Valuation → Set Token
  | .rel i, ρ => ρ i
  | .const c, _ => I.const c
  | .hole k xs, ρ => Token.apps (I.hole k) (Term.denoteAll xs ρ)
  | .lam _ b, ρ => Token.abs fun X => b.denote (ρ.push X)
  | .letIn v _ b, ρ => b.denote (ρ.push (v.denote ρ))
  | .cast t _, ρ => t.denote ρ
  | .sort _, _ | .pi _ _, _ | .case _ _ _, _ | .fix _ _ _, _ => ∅

/-- What a term denotes. -/
def Term.denote : Term → Valuation → Set Token
  | .mk h xs, ρ => Token.apps (h.denote ρ) (Term.denoteAll xs ρ)

def Term.denoteAll : List Term → Valuation → List (Set Token)
  | [], _ => []
  | x :: xs, ρ => x.denote ρ :: Term.denoteAll xs ρ

end

end

section
variable {I : Interpretation}

theorem Term.denoteAll_append (xs ys : List Term) (ρ : Valuation) :
    denoteAll I (xs ++ ys) ρ = denoteAll I xs ρ ++ denoteAll I ys ρ := by
  induction xs with
  | nil => rfl
  | cons x xs ih => rw [List.cons_append, denoteAll, denoteAll, ih, List.cons_append]

theorem Term.denote_apply (t : Term) (xs : List Term) (ρ : Valuation) :
    (t.apply xs).denote I ρ = Token.apps (t.denote I ρ) (denoteAll I xs ρ) := by
  obtain ⟨h, ys⟩ := t
  rw [Term.apply, denote, denote, denoteAll_append, Token.apps_append]

theorem Term.denote_ofHead (h : Head) (ρ : Valuation) : (Term.ofHead h).denote I ρ = h.denote I ρ :=
  rfl

theorem finitary_apps {F : Valuation → Set Token} {xs : List Term} (hF : Finitary F)
    (hxs : ∀ x ∈ xs, Finitary (x.denote I)) :
    Finitary fun ρ => Token.apps (F ρ) (Term.denoteAll I xs ρ) := by
  induction xs generalizing F with
  | nil => exact hF
  | cons x xs ih =>
    rw [List.forall_mem_cons] at hxs
    exact ih (hF.app hxs.1) hxs.2

mutual

theorem Head.finitary_denote : (h : Head) → Finitary (h.denote I)
  | .rel i => .var i
  | .const c => .fixed (I.const c)
  | .hole k xs => finitary_apps (.fixed (I.hole k)) (Term.finitary_denoteAll xs)
  | .lam _ b => (Term.finitary_denote b).abs
  | .letIn v _ b => (Term.finitary_denote b).push (Term.finitary_denote v)
  | .cast t _ => Term.finitary_denote t
  | .sort _ | .pi _ _ | .case _ _ _ | .fix _ _ _ => .fixed ∅

theorem Term.finitary_denote : (t : Term) → Finitary (t.denote I)
  | .mk h xs => finitary_apps (Head.finitary_denote h) (Term.finitary_denoteAll xs)

theorem Term.finitary_denoteAll : (xs : List Term) → ∀ x ∈ xs, Finitary (x.denote I)
  | [] => by simp
  | x :: xs => List.forall_mem_cons.2 ⟨Term.finitary_denote x, Term.finitary_denoteAll xs⟩

end

/-! ## Binding -/

/-- What the variables denote under `d` binders when terms are put for them. -/
def Valuation.through (I : Interpretation) (f : Nat → Nat → Term) (d : Nat) (ρ : Valuation) :
    Valuation :=
  fun i => (f d i).denote I ρ

/-- Terms put for variables leave the innermost variable alone. -/
def Outside (I : Interpretation) (f : Nat → Nat → Term) : Prop :=
  ∀ d (ρ : Valuation) X,
    Valuation.through I f (d + 1) (ρ.push X) = (Valuation.through I f d ρ).push X

section
variable {f : Nat → Nat → Term}

mutual

theorem Head.denote_bind (hf : Outside I f) : (h : Head) → (d : Nat) → (ρ : Valuation) →
    (h.bind f d).denote I ρ = h.denote I (.through I f d ρ)
  | .rel _, _, _ => rfl
  | .const _, _, _ => rfl
  | .sort _, _, _ => rfl
  | .hole k xs, d, ρ => by
    change Token.apps (I.hole k) (Term.denoteAll I (Term.bindAll f d xs) ρ) = _
    rw [Term.denoteAll_bindAll hf xs d ρ]
    rfl
  | .pi _ _, _, _ => rfl
  | .lam a b, d, ρ => by
    change Token.abs (fun X => (b.bind f (d + 1)).denote I (ρ.push X)) = _
    simp only [Term.denote_bind hf b (d + 1), hf d ρ]
    rfl
  | .letIn v a b, d, ρ => by
    change (b.bind f (d + 1)).denote I (ρ.push ((v.bind f d).denote I ρ)) = _
    rw [Term.denote_bind hf b (d + 1), Term.denote_bind hf v d ρ, hf d ρ]
    rfl
  | .cast t _, d, ρ => Term.denote_bind hf t d ρ
  | .case _ _ _, _, _ => rfl
  | .fix _ _ _, _, _ => rfl

theorem Term.denote_bind (hf : Outside I f) : (t : Term) → (d : Nat) → (ρ : Valuation) →
    (t.bind f d).denote I ρ = t.denote I (.through I f d ρ)
  | .mk h xs, d, ρ => by
    change ((h.bind f d).apply (Term.bindAll f d xs)).denote I ρ = _
    rw [Term.denote_apply, Head.denote_bind hf h d ρ, Term.denoteAll_bindAll hf xs d ρ]
    rfl

theorem Term.denoteAll_bindAll (hf : Outside I f) : (xs : List Term) → (d : Nat) → (ρ : Valuation) →
    Term.denoteAll I (Term.bindAll f d xs) ρ = Term.denoteAll I xs (.through I f d ρ)
  | [], _, _ => rfl
  | x :: xs, d, ρ => by
    rw [Term.bindAll, Term.denoteAll, Term.denoteAll, Term.denote_bind hf x d ρ,
      Term.denoteAll_bindAll hf xs d ρ]

end

end

/-- A lifted term does not depend on the variables that it was lifted over. -/
theorem Term.denote_lift (t : Term) (n : Nat) (ρ : Valuation) :
    (t.lift 0 n).denote I ρ = t.denote I fun i => ρ (i + n) := by
  have outside : Outside I fun d i => if d ≤ i then .rel (i + n) else .rel i := by
    intro d ρ X
    funext i
    cases i with
    | zero => rfl
    | succ i =>
      by_cases h : d ≤ i <;> simp [Valuation.through, h, denote_ofHead, Head.denote, Valuation.push,
        Nat.succ_add]
  rw [lift, denote_bind outside]
  rfl

/-- Putting a term for the innermost variable is giving it what the term denotes. -/
theorem Term.denote_instantiate (b x : Term) (ρ : Valuation) :
    (b.instantiate x).denote I ρ = b.denote I (ρ.push (x.denote I ρ)) := by
  have outside : Outside I (putFirst [x]) := by
    intro d ρ X
    funext i
    cases i with
    | zero => rfl
    | succ i =>
      rcases Nat.lt_trichotomy i d with low | rfl | high
      · have h₁ : ¬ d ≤ i := by omega
        simp [Valuation.through, Valuation.push, putFirst, h₁, denote_ofHead, Head.denote]
      · simp [Valuation.through, Valuation.push, putFirst, denote_lift]
      · obtain ⟨j, rfl⟩ : ∃ j, i = d + 1 + j := ⟨i - (d + 1), by omega⟩
        have h₁ : d ≤ d + 1 + j := by omega
        have h₂ : d + 1 + j + 1 - (d + 1) = j + 1 := by omega
        have h₃ : d + 1 + j - d = j + 1 := by omega
        have h₄ : d + 1 + j - 1 = d + j := by omega
        have h₅ : d + 1 + j = d + j + 1 := by omega
        simp [Valuation.through, Valuation.push, putFirst, h₁, h₂, h₃, h₄, denote_ofHead,
          Head.denote]
        rw [h₅]
  rw [instantiate, instantiateMany_eq_bind, denote_bind outside]
  congr 1
  funext i
  cases i with
  | zero => exact denote_lift x 0 ρ
  | succ i => simp [Valuation.through, Valuation.push, putFirst, denote_ofHead, Head.denote]

end

/-! ## Models -/

/-- The interpretation makes the equations of the theory true: a defined constant denotes what its
body does, a hole that may be followed what its value does, and a projection of an instance what its
canonical form does. -/
structure Interpretation.Models (I : Interpretation) (T : Theory) : Prop where
  unfold : T.unfolds = true → ∀ c d, T.signature.definition? c = some d →
    ∀ ρ, I.const c = d.body.denote I ρ
  value : ∀ k v xs, T.follows k xs.length → T.value? k = some v →
    ∀ ρ, (Term.hole k xs).denote I ρ = (v.instantiateMany xs).denote I ρ
  canonical : ∀ p h n form ps es xs, T.signature.projection? p = some n →
    T.signature.canonical? p h = some form → ps.length + 1 = n → es.length = form.extra →
    ∀ ρ, (Term.mk (.const p) (ps ++ form.inst.apply es :: xs)).denote I ρ =
      (Term.mk (.const h) (es ++ xs)).denote I ρ

section
variable {I : Interpretation} {T : Theory}

theorem denoteAll_congr {xs ys : List Term}
    (h : List.Forall₂ (fun x y => ∀ ρ, x.denote I ρ = y.denote I ρ) xs ys) (ρ : Valuation) :
    Term.denoteAll I xs ρ = Term.denoteAll I ys ρ := by
  induction h with
  | nil => rfl
  | cons h _ ih => rw [Term.denoteAll, Term.denoteAll, h ρ, ih]

/-- In a model, to denote the same is a congruence that contains the equations of the theory. -/
theorem Interpretation.Models.congruence (models : I.Models T) :
    T.Congruence fun t u => ∀ ρ, t.denote I ρ = u.denote I ρ where
  refl _ _ := rfl
  symm h ρ := (h ρ).symm
  trans h h' ρ := (h ρ).trans (h' ρ)
  hole {k _ _} h ρ := congrArg (Token.apps (I.hole k)) (denoteAll_congr h ρ)
  apply h hs ρ := by rw [Term.denote_apply, Term.denote_apply, h ρ, denoteAll_congr hs ρ]
  pi _ _ _ := rfl
  lam _ hb ρ := congrArg Token.abs (funext fun X => hb (ρ.push X))
  letIn {v v' a a' b b'} hv _ hb ρ := by
    change b.denote I (ρ.push (v.denote I ρ)) = b'.denote I (ρ.push (v'.denote I ρ))
    rw [hv ρ, hb]
  cast ht _ ρ := ht ρ
  case _ _ _ _ := rfl
  fix _ _ _ := rfl
  beta a b x ρ := by
    rw [Term.denote_apply, Term.denote_instantiate]
    exact (Term.finitary_denote b).app_abs (x.denote I ρ)
  zeta v a b ρ := (Term.denote_instantiate b v ρ).symm
  uncast _ _ _ := rfl
  unfold hu hd ρ := models.unfold hu _ _ hd ρ
  value hk hv ρ := models.value _ _ _ hk hv ρ
  canonical hp hc hn he ρ := models.canonical _ _ _ _ _ _ _ hp hc hn he ρ

/-- What is equal in a theory denotes the same in each of its models. -/
theorem Interpretation.Models.denote_eq (models : I.Models T) {t u : Term} (h : T.Equal t u)
    (ρ : Valuation) : t.denote I ρ = u.denote I ρ :=
  h _ models.congruence ρ

end

end KeyedMatching
