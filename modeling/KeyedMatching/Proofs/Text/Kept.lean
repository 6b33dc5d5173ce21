import KeyedMatching.Proofs.Text.Consumed

/-!
# What is kept while a text is read

A text is read in steps that go on in it, meet names and declare holes. What each of these keeps is
kept by every reading, also by one that fails; and what is true of each node that a form adds is
true of every node of the term that is read.

* `Reading.Onward s s'`: names of holes and the holes themselves are as before, with further ones;
* `Term.EachNode P d t`: `P` holds of every node of a term under `d` binders;
* `Reading.Rules`: what is kept, and what is true of each node;
* `Reading.Keeps`: a step keeps it; there is one rule for each way in which steps are put together;
* `Reading.obeys_step`: a form adds nodes as the rules say, if the terms inside it do;
* `Reader.read_keeps`: what the rules say of a whole text.
-/

namespace KeyedMatching

/-! ## Nodes of terms -/

/-- Every node of a term that stands under `d` binders satisfies `P`, which is told how many stand
above it. -/
def Term.EachNode (P : Nat → Term → Prop) (d : Nat) (t : Term) : Prop :=
  ∀ u e, (u, e) ∈ t.preorder d → P e u

section
variable {P Q : Nat → Term → Prop} {d : Nat}

theorem Term.EachNode.mono {t : Term} (h : t.EachNode P d) (imp : ∀ e u, P e u → Q e u) :
    t.EachNode Q d :=
  fun u e hu => imp e u (h u e hu)

theorem Term.eachNode_iff {t : Term} :
    t.EachNode P d ↔ P d t ∧ ∀ p ∈ t.children, p.1.EachNode P (d + p.2) := by
  simp only [Term.EachNode, Term.preorder_eq_cons d t, Term.descendants, List.mem_cons,
    List.mem_flatMap]
  constructor
  · intro h
    exact ⟨h t d (.inl rfl), fun p hp u e hu => h u e (.inr ⟨p, hp, hu⟩)⟩
  · rintro ⟨here, below⟩ u e (same | ⟨p, hp, hu⟩)
    · cases same
      exact here
    · exact below p hp u e hu

theorem Term.eachNode_mk {h : Head} {xs : List Term} : (Term.mk h xs).EachNode P d ↔
    P d (.mk h xs) ∧ (Term.ofHead h).EachNode P d ∧ ∀ x ∈ xs, x.EachNode P d := by
  cases xs with
  | nil =>
    refine ⟨fun own => ⟨(eachNode_iff.1 own).1, own, by simp⟩, fun own => own.2.1⟩
  | cons x xs =>
    rw [eachNode_iff, Term.children, List.forall_mem_cons, List.forall_mem_map]
    rfl

end

namespace Reading

/-- The names of holes and the holes themselves are as before, with further ones. -/
structure Onward (s s' : Reading) : Prop where
  gains : s.store.Gains s'.store
  names : ∀ name k, s.reader.hole? name = some k → s'.reader.hole? name = some k

theorem Onward.refl (s : Reading) : Onward s s :=
  ⟨.refl s.store, fun _ _ known => known⟩

theorem Onward.trans {s s₁ s' : Reading} (h : Onward s s₁) (h' : Onward s₁ s') : Onward s s' :=
  ⟨h.gains.trans h'.gains, fun name k known => h'.names name k (h.names name k known)⟩

/-- The state after a hole was declared. -/
def declared (s : Reading) (arity : Nat) (type? : Option Term) (kind : HoleKind) : Reading :=
  { s with store := (s.store.fresh arity type? kind).2 }

/-- The state after a hole got a name. -/
def named (s : Reading) (name : String) (k : Nat) : Reading :=
  { s with reader := { s.reader with holes := (name, k) :: s.reader.holes } }

theorem onward_declared (s : Reading) (arity : Nat) (type? : Option Term) (kind : HoleKind) :
    Onward s (s.declared arity type? kind) :=
  ⟨s.store.gains_fresh arity type? kind, fun _ _ known => known⟩

@[simp] theorem hole?_named (s : Reading) (name other : String) (k : Nat) :
    (s.named name k).reader.hole? other = if other = name then some k else s.reader.hole? other :=
  hole?_cons s.reader name other k

theorem onward_named {s : Reading} {name : String} (unknown : s.reader.hole? name = none)
    (k : Nat) :
    Onward s (s.named name k) := by
  refine ⟨.refl s.store, fun other _ known => ?_⟩
  rw [hole?_named, if_neg]
  · exact known
  · rintro rfl
    rw [unknown] at known
    cases known

theorem onward_meet (s : Reading) (name : String) :
    Onward s { s with reader := s.reader.meet name } :=
  ⟨.refl s.store, fun other _ known => (hole?_meet s.reader name other).trans known⟩

/-- What is kept while the text `input` is read, and what is then true of each node under `d`
binders of the terms that are read. -/
structure Rules (input : List Char) (I : Reading → Prop) (P : Reading → Nat → Term → Prop) :
    Prop where
  move {s : Reading} (rest : List Char) : I s → I { s with rest }
  meet {s : Reading} (name : String) : I s → I { s with reader := s.reader.meet name }
  anonymous {s : Reading} : I s → I (s.declared 0 none .ordinary)
  obligation {s : Reading} {d : Nat} {a : Term} : I s → a.EachNode (P s) d →
    I (s.declared 0 (some a) .obligation)
  name {s : Reading} {name : String} (arity : Nat) : I s → s.reader.hole? name = none →
    I ((s.declared arity none .ordinary).named name s.store.slots.length)
  stable {s s' : Reading} {d : Nat} {u : Term} : Onward s s' → P s d u → P s' d u
  bound {s : Reading} {d i : Nat} : i < d → P s d (.rel i)
  free {s : Reading} {d n : Nat} : '#' ∈ input → n ≤ maxFreeIndex → P s d (.rel (n + d))
  anonymousHole {s : Reading} {d : Nat} : I s →
    P (s.declared 0 none .ordinary) d (.hole s.store.slots.length [])
  obligationHole {s : Reading} {d : Nat} {a : Term} : I s → a.EachNode (P s) d →
    P (s.declared 0 (some a) .obligation) d (.hole s.store.slots.length [])
  namedHole {s : Reading} {d k : Nat} {name : String} {xs : List Term} : I s →
    s.reader.hole? name = some k → s.store.Declares k xs.length → P s d (.hole k xs)
  fix {s : Reading} {d i : Nat} {as bs : List Term} : i < as.length → bs.length = as.length →
    P s d (.ofHead (.fix i as bs))
  other {s : Reading} {d : Nat} {u : Term} : u.shape ∉ [.rel, .hole, .fix] → P s d u

section
variable {input : List Char} {I : Reading → Prop} {P : Reading → Nat → Term → Prop}

/-- A state on the way through the text, at which what is to be kept holds. -/
structure Holds (input : List Char) (I : Reading → Prop) (s : Reading) : Prop where
  within : s.rest <:+ input
  kept : I s

section
variable {α β : Type} {x : ReadM α} {s : Reading} {A : α → Reading → Prop}

/-- The step goes onward and keeps what is to be kept, whether it fails or not; a fault is reported
with what is left of the text somewhere in it. If the step succeeds, `A` holds of the result and of
the state reached. -/
def Keeps (input : List Char) (I : Reading → Prop) (x : ReadM α) (s : Reading)
    (A : α → Reading → Prop) : Prop :=
  match x s with
  | .ok a s' => Onward s s' ∧ Holds input I s' ∧ A a s'
  | .error e s' => Onward s s' ∧ I s' ∧ e.remaining <:+ input

theorem keeps_pure {a : α} (hs : Holds input I s) (h : A a s) : Keeps input I (pure a) s A :=
  ⟨.refl s, hs, h⟩

theorem keeps_bind {f : α → ReadM β} {C : β → Reading → Prop} (hx : Keeps input I x s A)
    (hf : ∀ a s', Onward s s' → Holds input I s' → A a s' → Keeps input I (f a) s' C) :
    Keeps input I (x >>= f) s C := by
  unfold Keeps at hx ⊢
  rw [bind_apply]
  cases hs : x s with
  | error e s₁ =>
    rw [hs] at hx
    exact hx
  | ok a s₁ =>
    rw [hs] at hx
    obtain ⟨first, holds, ha⟩ := hx
    have second := hf a s₁ first holds ha
    unfold Keeps at second
    dsimp only
    cases hs₁ : f a s₁ with
    | error e s₂ =>
      rw [hs₁] at second
      exact ⟨first.trans second.1, second.2⟩
    | ok b s₂ =>
      rw [hs₁] at second
      exact ⟨first.trans second.1, second.2⟩

theorem keeps_get_bind {f : Reading → ReadM α} (h : Keeps input I (f s) s A) :
    Keeps input I (get >>= f) s A := by
  unfold Keeps at h ⊢
  rw [get_bind_apply]
  exact h

theorem keeps_modify {f : Reading → Reading} {C : PUnit → Reading → Prop} (onward : Onward s (f s))
    (holds : Holds input I (f s)) (h : C ⟨⟩ (f s)) : Keeps input I (modify f) s C :=
  ⟨onward, holds, h⟩

theorem keeps_fail (hs : Holds input I s) {fault : ReadFault} :
    Keeps input I (fail fault : ReadM α) s A :=
  ⟨.refl s, hs.kept, hs.within⟩

end

/-! ## Characters -/

theorem dropLayout_suffix (inside : Bool) (cs : List Char) : dropLayout inside cs <:+ cs := by
  fun_induction dropLayout inside cs with
  | case1 => exact List.suffix_refl _
  | case2 c cs ih => exact ih.trans (List.suffix_cons c cs)
  | case3 c cs blank ih => exact ih.trans (List.suffix_cons c cs)
  | case4 c cs blank comment ih => exact ih.trans (List.suffix_cons c cs)
  | case5 c cs blank comment => exact List.suffix_refl _

section
variable (rules : Rules input I P) {s : Reading} (hs : Holds input I s)
include rules hs

theorem keeps_goTo {rest : List Char} (within : rest <:+ input) :
    Keeps input I (goTo rest) s fun _ _ => True :=
  keeps_modify ⟨.refl s.store, fun _ _ known => known⟩ ⟨within, rules.move rest hs.kept⟩ trivial

omit rules in
theorem keeps_peek : Keeps input I peek s fun c s' => c = s.rest.head? ∧ s' = s :=
  keeps_get_bind (keeps_pure hs ⟨rfl, rfl⟩)

theorem keeps_advance : Keeps input I advance s fun _ _ => True :=
  keeps_get_bind (keeps_goTo rules hs ((List.drop_suffix 1 s.rest).trans hs.within))

theorem keeps_skipLayout : Keeps input I skipLayout s fun _ _ => True :=
  keeps_get_bind (keeps_goTo rules hs ((dropLayout_suffix false s.rest).trans hs.within))

theorem keeps_expect (c : Char) : Keeps input I (expect c) s fun _ _ => True := by
  refine keeps_bind (keeps_skipLayout rules hs) fun _ s' _ hs' _ => ?_
  refine keeps_bind (keeps_peek hs') fun next s' _ hs' _ => ?_
  split
  · exact keeps_advance rules hs'
  · exact keeps_fail hs'

theorem keeps_identifier : Keeps input I identifier s fun _ _ => True := by
  refine keeps_bind (keeps_skipLayout rules hs) fun _ s' _ hs' _ => ?_
  refine keeps_get_bind ?_
  dsimp only
  split
  · exact keeps_fail hs'
  · refine keeps_bind (keeps_goTo rules hs' ?_) fun _ s'' _ hs'' _ => keeps_pure hs'' trivial
    exact (List.dropWhile_suffix _).trans hs'.within

theorem keeps_number : Keeps input I number s fun _ _ => True := by
  refine keeps_bind (keeps_skipLayout rules hs) fun _ s' _ hs' _ => ?_
  refine keeps_get_bind ?_
  dsimp only
  split
  · refine keeps_bind (keeps_goTo rules hs' ?_) fun _ s'' _ hs'' _ => keeps_pure hs'' trivial
    exact (List.dropWhile_suffix _).trans hs'.within
  · exact keeps_fail hs'

theorem keeps_atClose : Keeps input I atClose s fun _ _ => True := by
  refine keeps_bind (keeps_skipLayout rules hs) fun _ s' _ hs' _ => ?_
  exact keeps_bind (keeps_peek hs') fun _ s' _ hs' _ => keeps_pure hs' trivial

theorem keeps_atInstanceClose : Keeps input I atInstanceClose s fun _ _ => True := by
  refine keeps_bind (keeps_skipLayout rules hs) fun _ s' _ hs' _ => ?_
  refine keeps_bind (keeps_peek hs') fun next s' _ hs' _ => ?_
  cases next with
  | some c => exact keeps_pure hs' trivial
  | none => exact keeps_fail hs'

omit rules in
theorem keeps_atLastItem : Keeps input I atLastItem s fun _ _ => True := by
  refine keeps_get_bind ?_
  split
  · exact keeps_pure hs trivial
  · exact ⟨.refl s, hs.kept, List.nil_suffix⟩

omit rules hs in
theorem keeps_itemsWithin {α : Type} {closed : ReadM Bool} {item : ReadM α}
    {A : α → Reading → Prop} (later : ∀ a s s', Onward s s' → A a s → A a s')
    (hclosed : ∀ s, Holds input I s → Keeps input I closed s fun _ _ => True)
    (hitem : ∀ s, Holds input I s → Keeps input I item s A) (n : Nat) {s : Reading}
    (hs : Holds input I s) :
    Keeps input I (itemsWithin closed item n) s fun xs s' => ∀ x ∈ xs, A x s' := by
  induction n generalizing s with
  | zero => exact keeps_fail hs
  | succ n ih =>
    refine keeps_bind (hclosed s hs) fun done s' _ hs' _ => ?_
    split
    · exact keeps_pure hs' (by simp)
    · refine keeps_bind (hitem s' hs') fun x s₁ _ hs₁ hx => ?_
      refine keeps_bind (ih hs₁) fun xs s₂ onward hs₂ hxs => ?_
      exact keeps_pure hs₂ (List.forall_mem_cons.2 ⟨later x s₁ s₂ onward hx, hxs⟩)

omit rules in
theorem keeps_items {α : Type} {closed : ReadM Bool} {item : ReadM α} {A : α → Reading → Prop}
    (later : ∀ a s s', Onward s s' → A a s → A a s')
    (hclosed : ∀ s, Holds input I s → Keeps input I closed s fun _ _ => True)
    (hitem : ∀ s, Holds input I s → Keeps input I item s A) :
    Keeps input I (items closed item) s fun xs s' => ∀ x ∈ xs, A x s' :=
  keeps_get_bind (keeps_itemsWithin later hclosed hitem _ hs)

end

/-! ## Names and holes -/

/-- The rules hold of the nodes of a term that was read under the binders of a scope. -/
def Complies (P : Reading → Nat → Term → Prop) (scope : List String) (t : Term) (s : Reading) :
    Prop :=
  t.EachNode (P s) scope.length

section
variable (rules : Rules input I P)
include rules

theorem complies_later (scope : List String) (t : Term) (s s' : Reading) (onward : Onward s s')
    (known : Complies P scope t s) : Complies P scope t s' :=
  known.mono fun _ _ => rules.stable onward

/-- A node whose children satisfy the rules satisfies them, unless it is of a kind of its own. -/
theorem complies_ofHead {scope : List String} {s : Reading} {h : Head}
    (plain : h.shape ∉ [Shape.rel, .hole, .fix])
    (below : ∀ p ∈ h.children, p.1.EachNode (P s) (scope.length + p.2)) :
    Complies P scope (.ofHead h) s :=
  Term.eachNode_iff.2 ⟨rules.other plain, below⟩

theorem complies_apply {scope : List String} {s : Reading} {t : Term} {xs : List Term}
    (ht : Complies P scope t s) (hxs : ∀ x ∈ xs, Complies P scope x s) :
    Complies P scope (t.apply xs) s := by
  obtain ⟨h, ys⟩ := t
  obtain ⟨_, head, args⟩ := Term.eachNode_mk.1 ht
  have all : ∀ z ∈ ys ++ xs, z.EachNode (P s) scope.length := by
    intro z hz
    rcases List.mem_append.1 hz with own | new
    · exact args z own
    · exact hxs z new
  refine Term.eachNode_mk.2 ⟨?_, head, all⟩
  cases zs : ys ++ xs with
  | nil => exact (Term.eachNode_iff.1 head).1
  | cons z zs => exact rules.other (by simp [Term.shape])

variable {s : Reading} (hs : Holds input I s)
include hs

theorem keeps_namedHole (name : String) (xs : List Term) :
    Keeps input I (namedHole name xs.length) s fun k s' =>
      s'.reader.hole? name = some k ∧ s'.store.Declares k xs.length := by
  refine keeps_get_bind ?_
  split
  · next k known =>
    refine keeps_get_bind ?_
    split
    · next arity =>
      obtain ⟨d, hd, hn⟩ := Option.map_eq_some_iff.1 arity
      exact keeps_pure hs ⟨known, d, hd, hn⟩
    · exact keeps_fail hs
  · next unknown =>
    let s' := (s.declared xs.length none .ordinary).named name s.store.slots.length
    have onward : Onward s s' :=
      (onward_declared s xs.length none .ordinary).trans (onward_named (by exact unknown) _)
    refine ⟨onward, ⟨hs.within, rules.name xs.length hs.kept unknown⟩, ?_, ?_⟩
    · exact (hole?_named _ name name _).trans (if_pos rfl)
    · exact s.store.declares_fresh xs.length none .ordinary

theorem keeps_atom (scope : List String) (name : String) :
    Keeps input I (atom scope name) s (Complies P scope) := by
  have leaf {t : Term} {s : Reading} (h : P s scope.length t) (none_below : t.children = []) :
      Complies P scope t s :=
    Term.eachNode_iff.2 ⟨h, by simp [none_below]⟩
  unfold atom
  split
  · next i found =>
    obtain ⟨bound, _, _⟩ := List.idxOf?_eq_some_iff.1 found
    exact keeps_pure hs (leaf (rules.bound bound) rfl)
  · split
    · exact ⟨onward_declared s 0 none .ordinary, ⟨hs.within, rules.anonymous hs.kept⟩,
        leaf (rules.anonymousHole hs.kept) rfl⟩
    · exact keeps_pure hs (leaf (rules.other (by simp [Term.shape, Head.shape])) rfl)
    · exact keeps_pure hs (leaf (rules.other (by simp [Term.shape, Head.shape])) rfl)
    · refine keeps_bind (keeps_modify (C := fun _ _ => True) (onward_meet s name)
        ⟨hs.within, rules.meet name hs.kept⟩ trivial) fun _ s' _ hs' _ => ?_
      exact keeps_pure hs' (leaf (rules.other (by simp [Term.shape, Head.shape])) rfl)

end

/-! ## Forms -/

/-- Terms are read as the rules say. -/
def Obeys (input : List Char) (I : Reading → Prop) (P : Reading → Nat → Term → Prop)
    (term : List String → ReadM Term) : Prop :=
  ∀ scope s, Holds input I s → Keeps input I (term scope) s (Complies P scope)

section
variable (rules : Rules input I P) {term : List String → ReadM Term} (hterm : Obeys input I P term)
  {s : Reading} (hs : Holds input I s)
include rules hterm

theorem keeps_terms (scope : List String) {closed : ReadM Bool}
    (hclosed : ∀ s, Holds input I s → Keeps input I closed s fun _ _ => True)
    (hs : Holds input I s) :
    Keeps input I (items closed (term scope)) s fun xs s' => ∀ x ∈ xs, Complies P scope x s' :=
  keeps_items hs (complies_later rules scope) hclosed (hterm scope)

include hs

theorem keeps_inst (scope : List String) :
    Keeps input I (inst term scope) s fun xs s' => ∀ x ∈ xs, Complies P scope x s' := by
  refine keeps_bind (keeps_peek hs) fun next s' _ hs' _ => ?_
  split
  · refine keeps_bind (keeps_advance rules hs') fun _ s' _ hs' _ => ?_
    refine keeps_bind (keeps_terms rules hterm scope
      (fun s hs => keeps_atInstanceClose rules hs) hs') fun xs s' _ hs' hxs => ?_
    refine keeps_bind (keeps_advance rules hs') fun _ s'' onward hs'' _ => ?_
    exact keeps_pure hs'' fun x hx => complies_later rules scope x s' s'' onward (hxs x hx)
  · exact keeps_pure hs' (by simp)

theorem keeps_application (scope : List String) :
    Keeps input I (application term scope) s (Complies P scope) := by
  refine keeps_bind (hterm scope s hs) fun head s₁ _ hs₁ hhead => ?_
  refine keeps_bind (keeps_terms rules hterm scope (fun s hs => keeps_atClose rules hs) hs₁)
    fun args s₂ onward hs₂ hargs => ?_
  have hhead' := complies_later rules scope head s₁ s₂ onward hhead
  exact keeps_pure hs₂ (complies_apply rules hhead' hargs)

omit hs in
theorem keeps_bindersWithin {build : Term → Term → Term}
    (hbuild : ∀ (scope : List String) s a b, Complies P scope a s →
      b.EachNode (P s) (scope.length + 1) → Complies P scope (build a b) s)
    (n : Nat) (first : Bool) (scope : List String) {s : Reading} (hs : Holds input I s) :
    Keeps input I (bindersWithin term build n first scope) s (Complies P scope) := by
  induction n generalizing first scope s with
  | zero => exact keeps_fail hs
  | succ n ih =>
    refine keeps_bind (keeps_skipLayout rules hs) fun _ s' _ hs' _ => ?_
    refine keeps_bind (keeps_atLastItem hs') fun last s' _ hs' _ => ?_
    split
    · split
      · exact keeps_fail hs'
      · exact hterm scope s' hs'
    · refine keeps_bind (keeps_expect rules hs' _) fun _ s' _ hs' _ => ?_
      refine keeps_bind (keeps_identifier rules hs') fun name s' _ hs' _ => ?_
      refine keeps_bind (hterm scope s' hs') fun type s₁ _ hs₁ htype => ?_
      refine keeps_bind (keeps_expect rules hs₁ _) fun _ s₂ onward hs₂ _ => ?_
      refine keeps_bind (ih false (name :: scope) hs₂) fun body s₃ onward' hs₃ hbody => ?_
      exact keeps_pure hs₃ (hbuild scope s₃ type body
        (complies_later rules scope type s₁ s₃ (onward.trans onward') htype) hbody)

theorem keeps_binders {build : Term → Term → Term}
    (hbuild : ∀ (scope : List String) s a b, Complies P scope a s →
      b.EachNode (P s) (scope.length + 1) → Complies P scope (build a b) s) (scope : List String) :
    Keeps input I (binders term build scope) s (Complies P scope) :=
  keeps_get_bind (keeps_bindersWithin rules hterm hbuild _ true scope hs)

theorem keeps_typedName (scope : List String) :
    Keeps input I (typedName term scope) s fun p s' => Complies P scope p.2 s' := by
  refine keeps_bind (keeps_expect rules hs _) fun _ s' _ hs' _ => ?_
  refine keeps_bind (keeps_identifier rules hs') fun name s' _ hs' _ => ?_
  refine keeps_bind (hterm scope s' hs') fun type s₁ _ hs₁ htype => ?_
  refine keeps_bind (keeps_expect rules hs₁ _) fun _ s₂ onward hs₂ _ => ?_
  exact keeps_pure hs₂ (complies_later rules scope type s₁ s₂ onward htype)

theorem keeps_fixpoint (scope : List String) :
    Keeps input I (fixpoint term scope) s (Complies P scope) := by
  refine keeps_bind (keeps_number rules hs) fun index s' _ hs' _ => ?_
  refine keeps_bind (keeps_expect rules hs' _) fun _ s' _ hs' _ => ?_
  refine keeps_bind (keeps_items hs' (A := fun p s' => Complies P scope p.2 s')
    (fun p => complies_later rules scope p.2) (fun s hs => keeps_atClose rules hs)
    (fun s hs => keeps_typedName rules hterm hs scope)) fun typed s₁ _ hs₁ htyped => ?_
  refine keeps_bind (keeps_expect rules hs₁ _) fun _ s₂ onward hs₂ _ => ?_
  split
  · next inRange =>
    refine keeps_bind (keeps_expect rules hs₂ _) fun _ s₃ onward₃ hs₃ _ => ?_
    refine keeps_bind (keeps_terms rules hterm ((typed.map (·.1)).reverse ++ scope)
      (fun s hs => keeps_atClose rules hs) hs₃) fun bodies s₄ onward₄ hs₄ hbodies => ?_
    refine keeps_bind (keeps_expect rules hs₄ _) fun _ s₅ onward₅ hs₅ _ => ?_
    split
    · next balanced =>
      have types : (typed.map (·.2)).length = typed.length := List.length_map _
      have depth : ((typed.map (·.1)).reverse ++ scope).length =
          scope.length + (typed.map (·.2)).length := by
        simp [Nat.add_comm]
      refine keeps_pure hs₅ (Term.eachNode_iff.2 ⟨rules.fix (by rwa [types])
        (by rw [types, balanced]), List.forall_mem_append.2
          ⟨List.forall_mem_map.2 (List.forall_mem_map.2 fun p hp => ?_),
            List.forall_mem_map.2 fun b hb => ?_⟩⟩)
      · exact complies_later rules scope p.2 s₁ s₅
          (((onward.trans onward₃).trans onward₄).trans onward₅) (htyped p hp)
      · have body := complies_later rules _ b s₄ s₅ onward₅ (hbodies b hb)
        rwa [Complies, depth] at body
    · exact keeps_fail hs₅
  · exact keeps_fail hs₂

theorem keeps_obligation (scope : List String) :
    Keeps input I (term scope >>= fun a => declare 0 (some a) .obligation >>= fun k =>
      pure (Term.hole k [])) s (Complies P scope) := by
  refine keeps_bind (hterm scope s hs) fun type s' _ hs' htype => ?_
  refine ⟨onward_declared s' 0 (some type) .obligation,
    ⟨hs'.within, rules.obligation hs'.kept htype⟩, ?_⟩
  exact Term.eachNode_iff.2 ⟨rules.obligationHole hs'.kept htype, by simp [Term.children,
    Head.children]⟩

theorem keeps_wordForm (scope : List String) :
    Keeps input I (wordForm term scope) s (Complies P scope) := by
  refine keeps_get_bind ?_
  refine keeps_bind (keeps_identifier rules hs) fun word s' _ hs' _ => ?_
  -- A word that makes no form is read again as the head of an application.
  have applied : Keeps input I (do goTo s.rest; application term scope) s' (Complies P scope) :=
    keeps_bind (keeps_goTo rules hs' hs.within) fun _ s'' _ hs'' _ =>
      keeps_application rules hterm hs'' scope
  split
  · exact applied
  · split
    · refine keeps_binders rules hterm hs' (fun scope s a b ha hb => ?_) scope
      exact complies_ofHead rules (by simp [Head.shape]) (by simpa [Head.children] using ⟨ha, hb⟩)
    · refine keeps_binders rules hterm hs' (fun scope s a b ha hb => ?_) scope
      exact complies_ofHead rules (by simp [Head.shape]) (by simpa [Head.children] using ⟨ha, hb⟩)
    · refine keeps_bind (keeps_expect rules hs' _) fun _ s' _ hs' _ => ?_
      refine keeps_bind (keeps_identifier rules hs') fun name s' _ hs' _ => ?_
      refine keeps_bind (hterm scope s' hs') fun type s₁ _ hs₁ htype => ?_
      refine keeps_bind (hterm scope s₁ hs₁) fun value s₂ onward₂ hs₂ hvalue => ?_
      refine keeps_bind (keeps_expect rules hs₂ _) fun _ s₃ onward₃ hs₃ _ => ?_
      refine keeps_bind (hterm (name :: scope) s₃ hs₃) fun body s₄ onward₄ hs₄ hbody => ?_
      have later := onward₃.trans onward₄
      have htype' := complies_later rules scope type s₁ s₄ (onward₂.trans later) htype
      have hvalue' := complies_later rules scope value s₂ s₄ later hvalue
      exact keeps_pure hs₄ (complies_ofHead rules (by simp [Head.shape])
        (by simpa [Head.children] using ⟨htype', hvalue', hbody⟩))
    · refine keeps_bind (hterm scope s' hs') fun t s₁ _ hs₁ ht => ?_
      refine keeps_bind (hterm scope s₁ hs₁) fun type s₂ onward hs₂ htype => ?_
      have ht' := complies_later rules scope t s₁ s₂ onward ht
      exact keeps_pure hs₂ (complies_ofHead rules (by simp [Head.shape])
        (by simpa [Head.children] using ⟨htype, ht'⟩))
    · refine keeps_bind (hterm scope s' hs') fun motive s₁ _ hs₁ hmotive => ?_
      refine keeps_bind (hterm scope s₁ hs₁) fun scrutinee s₂ onward₂ hs₂ hscrutinee => ?_
      refine keeps_bind (keeps_terms rules hterm scope (fun s hs => keeps_atClose rules hs) hs₂)
        fun branches s₃ onward₃ hs₃ hbranches => ?_
      have hmotive' := complies_later rules scope motive s₁ s₃ (onward₂.trans onward₃) hmotive
      have hscrutinee' := complies_later rules scope scrutinee s₂ s₃ onward₃ hscrutinee
      exact keeps_pure hs₃ (complies_ofHead rules (by simp [Head.shape]) (List.forall_mem_cons.2
        ⟨hmotive', List.forall_mem_cons.2 ⟨hscrutinee', List.forall_mem_map.2 hbranches⟩⟩))
    · exact keeps_fixpoint rules hterm hs' scope
    · refine keeps_bind (keeps_number rules hs') fun n s' _ hs' _ => ?_
      exact keeps_pure hs' (complies_ofHead rules (by simp [Head.shape]) (by simp [Head.children]))
    · exact keeps_obligation rules hterm hs' scope
    · exact applied

theorem keeps_form (scope : List String) :
    Keeps input I (form term scope) s (Complies P scope) := by
  refine keeps_bind (keeps_skipLayout rules hs) fun _ s' _ hs' _ => ?_
  refine keeps_bind (keeps_peek hs') fun next s' _ hs' _ => ?_
  split
  case h_4 => exact keeps_wordForm rules hterm hs' scope
  all_goals exact keeps_application rules hterm hs' scope

omit hs in
/-- What a step reads is as the rules say, if the terms inside are. -/
theorem obeys_step : Obeys input I P (step term) := by
  intro scope s hs
  refine keeps_bind (keeps_skipLayout rules hs) fun _ s' _ hs' _ => ?_
  refine keeps_bind (keeps_peek hs') fun next s'' _ hs' here => ?_
  obtain ⟨rfl, rfl⟩ := here
  split
  · exact keeps_fail hs'
  · refine keeps_bind (keeps_advance rules hs') fun _ s' _ hs' _ => ?_
    refine keeps_bind (keeps_form rules hterm hs' scope) fun t s₁ _ hs₁ ht => ?_
    refine keeps_bind (keeps_expect rules hs₁ _) fun _ s₂ onward hs₂ _ => ?_
    exact keeps_pure hs₂ (complies_later rules scope t s₁ s₂ onward ht)
  · next sign =>
    have there : '#' ∈ input := hs'.within.mem (List.mem_of_head? sign)
    refine keeps_bind (keeps_advance rules hs') fun _ s' _ hs' _ => ?_
    refine keeps_bind (keeps_number rules hs') fun n s' _ hs' _ => ?_
    split
    · next inRange =>
      exact keeps_pure hs' (Term.eachNode_iff.2 ⟨rules.free there inRange.1, by
        simp [Term.children, Head.children]⟩)
    · exact keeps_fail hs'
  · refine keeps_bind (keeps_advance rules hs') fun _ s' _ hs' _ => ?_
    refine keeps_bind (keeps_identifier rules hs') fun name s' _ hs' _ => ?_
    refine keeps_bind (keeps_inst rules hterm hs' scope) fun xs s₁ _ hs₁ hxs => ?_
    refine keeps_bind (keeps_namedHole rules hs₁ name xs) fun k s₂ onward hs₂ known => ?_
    exact keeps_pure hs₂ (Term.eachNode_iff.2 ⟨rules.namedHole hs₂.kept known.1 known.2,
      List.forall_mem_map.2 fun x hx => complies_later rules scope x s₁ s₂ onward (hxs x hx)⟩)
  · refine keeps_bind (keeps_identifier rules hs') fun name s' _ hs' _ => ?_
    exact keeps_atom rules hs' scope name

end

section
variable (rules : Rules input I P)
include rules

theorem obeys_termWithin (n : Nat) : Obeys input I P (termWithin n) := by
  induction n with
  | zero => exact fun _ _ hs => keeps_fail hs
  | succ n ih => exact obeys_step rules ih

theorem keeps_wholeTerm {s : Reading} (hs : Holds input I s) :
    Keeps input I wholeTerm s (Complies P []) := by
  refine keeps_get_bind ?_
  refine keeps_bind (obeys_termWithin rules _ [] s hs) fun t s₁ _ hs₁ ht => ?_
  refine keeps_bind (keeps_skipLayout rules hs₁) fun _ s₂ onward hs₂ _ => ?_
  refine keeps_get_bind ?_
  split
  · exact keeps_pure hs₂ (complies_later rules [] t s₁ s₂ onward ht)
  · exact keeps_fail hs₂

end

end

/-- The state of a reader and a store between two texts. -/
def between (r : Reader) (s : Store) : Reading :=
  { rest := [], reader := r, store := s }

end Reading

/-- What the rules keep is kept by reading a whole text, whether it succeeds or not, and every node
of the term that is read is as they say. -/
theorem Reader.read_keeps {I : Reading → Prop} {P : Reading → Nat → Term → Prop} {r : Reader}
    {s : Store} {input : List Char} (rules : Reading.Rules input I P)
    (start : I (Reading.between r s)) :
    let after := Reading.between (r.read s input).2.1 (r.read s input).2.2
    Reading.Onward (Reading.between r s) after ∧ I after ∧
      ∀ t, (r.read s input).1 = .ok t → t.EachNode (P after) 0 := by
  have keeps := Reading.keeps_wholeTerm rules (s := { rest := input, reader := r, store := s })
    ⟨List.suffix_refl _, rules.move input start⟩
  simp only [Reading.Keeps] at keeps
  simp only [Reader.read, EStateM.run]
  split at keeps
  · next t s' run =>
    rw [run]
    obtain ⟨onward, holds, known⟩ := keeps
    refine ⟨⟨onward.gains, onward.names⟩, rules.move [] holds.kept, fun t' ht' => ?_⟩
    cases ht'
    exact Term.EachNode.mono known fun _ _ => rules.stable ⟨.refl s'.store, fun _ _ h => h⟩
  · next e s' run =>
    rw [run]
    obtain ⟨onward, kept, _⟩ := keeps
    exact ⟨⟨onward.gains, onward.names⟩, rules.move [] kept, fun t' ht' => by cases ht'⟩

/-- Nothing else need be kept. -/
theorem Reading.rules_trivial (input : List Char) :
    Reading.Rules input (fun _ => True) (fun _ _ _ => True) := by
  constructor <;> intros <;> trivial

/-- Reading a term goes onward. -/
theorem Reading.onward_termWithin {n : Nat} {scope : List String} {s s' : Reading} {t : Term}
    (read : Reading.termWithin n scope s = .ok t s') : Reading.Onward s s' := by
  have keeps := Reading.obeys_termWithin (Reading.rules_trivial s.rest) n scope s
    ⟨List.suffix_refl _, trivial⟩
  simp only [Reading.Keeps, read] at keeps
  exact keeps.1

/-- Reading a text goes onward, whether it succeeds or not. -/
theorem Reader.onward_read (r : Reader) (s : Store) (input : List Char) :
    Reading.Onward (Reading.between r s)
      (Reading.between (r.read s input).2.1 (r.read s input).2.2) :=
  (Reader.read_keeps (Reading.rules_trivial input) trivial).1

end KeyedMatching
