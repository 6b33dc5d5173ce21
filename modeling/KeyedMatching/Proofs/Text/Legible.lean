import KeyedMatching.Proofs.Term.Everywhere
import KeyedMatching.Term.Printer
import KeyedMatching.Term.Reader

/-!
# Terms that can be written and read

* `IsName`, `IsConstantName`, `reservedWords`, `formWords`: what the reader takes a word for;
* `Term.Legible d t`: under `d` binders, the term has the numbers, the names and the shapes that the
  reader makes;
* `Term.EachConstant P scope t`: every constant satisfies `P` with the names that the text of the
  term gives to the binders around it;
* `Term.Uncaptured`: no constant has one of these names, which is so if no constant is named like a
  binder at all (`Term.uncaptured_of_ungenerated`);
* `ProperScope`: what holds of the names in use at any place of a text.
-/

namespace KeyedMatching

/-! ## Words -/

/-- A word that the reader takes for one name. -/
def IsName (c : String) : Prop :=
  c.toList ≠ [] ∧ ∀ x ∈ c.toList, Reading.isNameChar x = true

/-- The words that stand for a new hole and for the first two universes. -/
def reservedWords : List String :=
  ["_", "Prop", "Type"]

/-- A name that stands for a constant, if it does not stand for a variable. -/
def IsConstantName (c : String) : Prop :=
  IsName c ∧ c ∉ reservedWords

/-- The words that make a form of what stands in parentheses after them. -/
def formWords : List String :=
  ["fun", "forall", "let", "cast", "match", "fix", "Sort", "inst"]

/-- A name that the text of a term gives to binders. -/
def IsGenerated (c : String) : Prop :=
  ∃ d, c = binderName d ∨ c = fixpointName d

instance : DecidablePred IsName := fun c =>
  decidable_of_iff (c.toList ≠ [] ∧ c.toList.all Reading.isNameChar = true)
    (by rw [List.all_eq_true, IsName])

instance : DecidablePred IsConstantName := fun c =>
  inferInstanceAs (Decidable (IsName c ∧ c ∉ reservedWords))

theorem isNameChar_of_isDigit {c : Char} (h : c.isDigit = true) : Reading.isNameChar c = true := by
  simp [Reading.isNameChar, Char.isAlphanum, h]

theorem isDigit_of_mem_repr {n : Nat} {c : Char} (h : c ∈ n.repr.toList) : c.isDigit = true := by
  rw [Nat.repr_eq_ofList_toDigits, String.toList_ofList] at h
  exact Nat.isDigit_of_mem_toDigits (by decide) (by decide) h

theorem repr_toList_ne_nil (n : Nat) : n.repr.toList ≠ [] := by
  rw [Nat.repr_eq_ofList_toDigits, String.toList_ofList]
  exact Nat.toDigits_ne_nil

/-- The digits of a number have its value. -/
theorem digitsValue_repr (n : Nat) : Text.digitsValue n.repr.toList = n := by
  rw [Nat.repr_eq_ofList_toDigits, String.toList_ofList, Text.digitsValue]
  exact Nat.ofDigitChars_eq_foldl.symm.trans Nat.ofDigitChars_ten_toDigits

theorem repr_inj {m n : Nat} : m.repr = n.repr ↔ m = n := by
  refine ⟨fun same => ?_, congrArg Nat.repr⟩
  rw [← digitsValue_repr m, same, digitsValue_repr]

theorem isName_repr (n : Nat) : IsName n.repr :=
  ⟨repr_toList_ne_nil n, fun _ hc => isNameChar_of_isDigit (isDigit_of_mem_repr hc)⟩

theorem isName_binderName (d : Nat) : IsName (binderName d) := by
  refine ⟨by simp [binderName], fun c hc => ?_⟩
  simp only [binderName, String.toList_append, List.mem_append] at hc
  rcases hc with hc | hc
  · rw [List.mem_singleton.1 hc]
    decide
  · exact (isName_repr d).2 c hc

theorem isName_fixpointName (d : Nat) : IsName (fixpointName d) := by
  refine ⟨by simp [fixpointName], fun c hc => ?_⟩
  simp only [fixpointName, String.toList_append, List.mem_append] at hc
  rcases hc with hc | hc
  · rw [List.mem_singleton.1 hc]
    decide
  · exact (isName_repr d).2 c hc

theorem binderName_inj {d e : Nat} : binderName d = binderName e ↔ d = e := by
  rw [binderName, binderName, String.append_right_inj, repr_inj]

theorem fixpointName_inj {d e : Nat} : fixpointName d = fixpointName e ↔ d = e := by
  rw [fixpointName, fixpointName, String.append_right_inj, repr_inj]

theorem binderName_ne_fixpointName (d e : Nat) : binderName d ≠ fixpointName e := by
  intro same
  have chars := congrArg String.toList same
  simp [binderName, fixpointName] at chars

/-- The name of a binder is a letter and then digits. -/
theorem digits_of_isGenerated {c : String} (h : IsGenerated c) :
    c.toList.tail ≠ [] ∧ ∀ x ∈ c.toList.tail, x.isDigit = true := by
  have repr (d : Nat) : d.repr.toList ≠ [] ∧ ∀ x ∈ d.repr.toList, x.isDigit = true :=
    ⟨repr_toList_ne_nil d, fun _ hx => isDigit_of_mem_repr hx⟩
  obtain ⟨d, rfl | rfl⟩ := h
  · simpa [binderName] using repr d
  · simpa [fixpointName] using repr d

theorem not_isGenerated_of_word {c : String} (hc : c ∈ reservedWords ++ formWords) :
    ¬IsGenerated c := by
  have letter : ∀ w ∈ reservedWords ++ formWords,
      w.toList.tail = [] ∨ w.toList.tail.all Char.isDigit = false := by decide
  intro generated
  obtain ⟨some', digits⟩ := digits_of_isGenerated generated
  have other := (letter c hc).resolve_left some'
  rw [List.all_eq_true.2 digits] at other
  cases other

/-- May arguments follow a word in a text? Not if it makes a form, unless it is the name of a
variable. -/
def Reading.MayLead (scope : List String) (word : String) : Prop :=
  word ∈ scope ∨ word ∉ formWords

/-! ## Terms -/

/-- May arguments follow the head in a text? A word that makes a form cannot have any. -/
def Head.MayLead : Head → Prop
  | .const c => c ∉ formWords
  | _ => True

mutual

/-- `Term.Legible` in a head. -/
def Head.Legible (d : Nat) : Head → Prop
  | .rel i => d ≤ i → i - d ≤ maxFreeIndex ∧ i < Text.bound32
  | .sort n => n < Text.bound32
  | .const c => IsConstantName c
  | .hole _ xs => Term.LegibleAll d xs
  | .pi a b | .lam a b => a.Legible d ∧ b.Legible (d + 1)
  | .letIn v a b => a.Legible d ∧ v.Legible d ∧ b.Legible (d + 1)
  | .cast t a => t.Legible d ∧ a.Legible d
  | .case r s bs => r.Legible d ∧ s.Legible d ∧ Term.LegibleAll d bs
  | .fix i as bs =>
    (i < as.length ∧ bs.length = as.length ∧ i < Text.bound32) ∧
      Term.LegibleAll d as ∧ Term.LegibleAll (d + as.length) bs

/-- Under `d` binders, the numbers of a term are of 32 bits, its free variables go up to the largest
index, its constants have names, none that makes a form having arguments, and each fixpoint is one
of as many bodies as there are types. -/
def Term.Legible (d : Nat) : Term → Prop
  | .mk h xs => (xs ≠ [] → h.MayLead) ∧ h.Legible d ∧ Term.LegibleAll d xs

/-- `Term.Legible` for each term of a list. -/
def Term.LegibleAll (d : Nat) : List Term → Prop
  | [] => True
  | x :: xs => x.Legible d ∧ Term.LegibleAll d xs

end

theorem Term.legibleAll_iff {d : Nat} {xs : List Term} :
    Term.LegibleAll d xs ↔ ∀ x ∈ xs, x.Legible d := by
  induction xs with
  | nil => simp [Term.LegibleAll]
  | cons x xs ih => simp [Term.LegibleAll, ih]

theorem Term.legible_ofHead {d : Nat} {h : Head} : (Term.ofHead h).Legible d ↔ h.Legible d := by
  simp [Term.Legible, Term.LegibleAll]

theorem Term.legible_apply {d : Nat} {t : Term} {xs : List Term} (ht : t.Legible d)
    (leads : t.head.MayLead) (hxs : ∀ x ∈ xs, x.Legible d) : (t.apply xs).Legible d := by
  obtain ⟨h, ys⟩ := t
  refine ⟨fun _ => leads, ht.2.1, Term.legibleAll_iff.2 fun x hx => ?_⟩
  rcases List.mem_append.1 hx with own | new
  · exact Term.legibleAll_iff.1 ht.2.2 x own
  · exact hxs x new

mutual

/-- `Term.EachConstant` in a head. -/
def Head.EachConstant (P : List String → String → Prop) (scope : List String) : Head → Prop
  | .rel _ | .sort _ => True
  | .const c => P scope c
  | .hole _ xs => Term.EachConstantAll P scope xs
  | .pi a b | .lam a b =>
    a.EachConstant P scope ∧ b.EachConstant P (binderName scope.length :: scope)
  | .letIn v a b =>
    a.EachConstant P scope ∧ v.EachConstant P scope ∧
      b.EachConstant P (binderName scope.length :: scope)
  | .cast t a => t.EachConstant P scope ∧ a.EachConstant P scope
  | .case r s bs =>
    r.EachConstant P scope ∧ s.EachConstant P scope ∧ Term.EachConstantAll P scope bs
  | .fix _ as bs =>
    Term.EachConstantAll P scope as ∧ Term.EachConstantAll P (fixpointScope scope as.length) bs

/-- Every constant of a term, written in a scope, satisfies `P` with the names in scope there. -/
def Term.EachConstant (P : List String → String → Prop) (scope : List String) : Term → Prop
  | .mk h xs => h.EachConstant P scope ∧ Term.EachConstantAll P scope xs

/-- `Term.EachConstant` for each term of a list. -/
def Term.EachConstantAll (P : List String → String → Prop) (scope : List String) :
    List Term → Prop
  | [] => True
  | x :: xs => x.EachConstant P scope ∧ Term.EachConstantAll P scope xs

end

/-- No constant has the name that the text of the term gives to a binder around it. -/
def Term.Uncaptured (scope : List String) (t : Term) : Prop :=
  t.EachConstant (fun names c => c ∉ names) scope

/-! ## Scopes -/

theorem fixpointScope_succ (scope : List String) (n : Nat) :
    fixpointScope scope (n + 1) =
      fixpointName (fixpointScope scope n).length :: fixpointScope scope n := by
  have length : (fixpointScope scope n).length = scope.length + n := by
    simp [fixpointScope, Nat.add_comm]
  rw [length]
  simp [fixpointScope, List.range_succ]

@[simp] theorem length_fixpointScope (scope : List String) (n : Nat) :
    (fixpointScope scope n).length = scope.length + n := by
  simp [fixpointScope, Nat.add_comm]

section
variable {P Q : List String → String → Prop} {I : List String → Prop}

mutual

theorem Head.EachConstant.imp (binder : ∀ scope, I scope → I (binderName scope.length :: scope))
    (fixpoint : ∀ scope, I scope → I (fixpointName scope.length :: scope))
    (imp : ∀ scope c, I scope → P scope c → Q scope c) :
    (h : Head) → (scope : List String) → I scope → h.EachConstant P scope →
      h.EachConstant Q scope
  | .rel _, _, _, _ => trivial
  | .sort _, _, _, _ => trivial
  | .const c, scope, hI, p => imp scope c hI p
  | .hole _ xs, scope, hI, p => Term.EachConstantAll.imp binder fixpoint imp xs scope hI p
  | .pi a b, scope, hI, p =>
    ⟨Term.EachConstant.imp binder fixpoint imp a scope hI p.1,
      Term.EachConstant.imp binder fixpoint imp b _ (binder scope hI) p.2⟩
  | .lam a b, scope, hI, p =>
    ⟨Term.EachConstant.imp binder fixpoint imp a scope hI p.1,
      Term.EachConstant.imp binder fixpoint imp b _ (binder scope hI) p.2⟩
  | .letIn v a b, scope, hI, p =>
    ⟨Term.EachConstant.imp binder fixpoint imp a scope hI p.1,
      Term.EachConstant.imp binder fixpoint imp v scope hI p.2.1,
      Term.EachConstant.imp binder fixpoint imp b _ (binder scope hI) p.2.2⟩
  | .cast t a, scope, hI, p =>
    ⟨Term.EachConstant.imp binder fixpoint imp t scope hI p.1,
      Term.EachConstant.imp binder fixpoint imp a scope hI p.2⟩
  | .case r s bs, scope, hI, p =>
    ⟨Term.EachConstant.imp binder fixpoint imp r scope hI p.1,
      Term.EachConstant.imp binder fixpoint imp s scope hI p.2.1,
      Term.EachConstantAll.imp binder fixpoint imp bs scope hI p.2.2⟩
  | .fix _ as bs, scope, hI, p => by
    have inside (n : Nat) : I (fixpointScope scope n) := by
      induction n with
      | zero => exact hI
      | succ n ih => exact fixpointScope_succ scope n ▸ fixpoint _ ih
    exact ⟨Term.EachConstantAll.imp binder fixpoint imp as scope hI p.1,
      Term.EachConstantAll.imp binder fixpoint imp bs _ (inside as.length) p.2⟩

/-- What follows for each constant in the scopes that satisfy `I`, if all scopes of a text do. -/
theorem Term.EachConstant.imp (binder : ∀ scope, I scope → I (binderName scope.length :: scope))
    (fixpoint : ∀ scope, I scope → I (fixpointName scope.length :: scope))
    (imp : ∀ scope c, I scope → P scope c → Q scope c) :
    (t : Term) → (scope : List String) → I scope → t.EachConstant P scope →
      t.EachConstant Q scope
  | .mk h xs, scope, hI, p =>
    ⟨Head.EachConstant.imp binder fixpoint imp h scope hI p.1,
      Term.EachConstantAll.imp binder fixpoint imp xs scope hI p.2⟩

theorem Term.EachConstantAll.imp
    (binder : ∀ scope, I scope → I (binderName scope.length :: scope))
    (fixpoint : ∀ scope, I scope → I (fixpointName scope.length :: scope))
    (imp : ∀ scope c, I scope → P scope c → Q scope c) :
    (xs : List Term) → (scope : List String) → I scope → Term.EachConstantAll P scope xs →
      Term.EachConstantAll Q scope xs
  | [], _, _, _ => trivial
  | x :: xs, scope, hI, p =>
    ⟨Term.EachConstant.imp binder fixpoint imp x scope hI p.1,
      Term.EachConstantAll.imp binder fixpoint imp xs scope hI p.2⟩

end

end

/-- A constant that is not named like a binder is not captured by one. -/
theorem Term.uncaptured_of_ungenerated {t : Term}
    (p : t.EachConstant (fun _ c => ¬IsGenerated c) []) : t.Uncaptured [] := by
  refine Term.EachConstant.imp (I := fun scope => ∀ c ∈ scope, IsGenerated c) ?_ ?_ ?_ t [] ?_ p
  · intro scope generated c hc
    rcases List.mem_cons.1 hc with rfl | old
    · exact ⟨_, .inl rfl⟩
    · exact generated c old
  · intro scope generated c hc
    rcases List.mem_cons.1 hc with rfl | old
    · exact ⟨_, .inr rfl⟩
    · exact generated c old
  · exact fun scope c generated plain captured => plain (generated c captured)
  · simp

/-- What holds of the names in use at a place of a text: they are different names, none has a
meaning of its own, and none is the name of a binder that comes later. -/
structure ProperScope (scope : List String) : Prop where
  nodup : scope.Nodup
  names : ∀ c ∈ scope, IsName c
  words : ∀ c ∈ reservedWords ++ formWords, c ∉ scope
  binders : ∀ d, scope.length ≤ d → binderName d ∉ scope
  fixpoints : ∀ d, scope.length ≤ d → fixpointName d ∉ scope

theorem properScope_nil : ProperScope [] := by
  constructor <;> simp

theorem properScope_singleton {c : String} (name : IsName c)
    (plain : c ∉ reservedWords ++ formWords) (other : ¬IsGenerated c) : ProperScope [c] where
  nodup := by simp
  names := by simpa using name
  words w hw same := plain (List.mem_singleton.1 same ▸ hw)
  binders d _ same := other ⟨d, .inl (List.mem_singleton.1 same).symm⟩
  fixpoints d _ same := other ⟨d, .inr (List.mem_singleton.1 same).symm⟩

theorem ProperScope.binder {scope : List String} (proper : ProperScope scope) :
    ProperScope (binderName scope.length :: scope) where
  nodup := List.nodup_cons.2 ⟨proper.binders _ (Nat.le_refl _), proper.nodup⟩
  names := List.forall_mem_cons.2 ⟨isName_binderName _, proper.names⟩
  words w hw captured := by
    rcases List.mem_cons.1 captured with rfl | old
    · exact not_isGenerated_of_word hw ⟨_, .inl rfl⟩
    · exact proper.words w hw old
  binders d hd captured := by
    rw [List.length_cons] at hd
    rcases List.mem_cons.1 captured with same | old
    · have := binderName_inj.1 same
      omega
    · exact proper.binders d (by omega) old
  fixpoints d hd captured := by
    rw [List.length_cons] at hd
    rcases List.mem_cons.1 captured with same | old
    · exact binderName_ne_fixpointName _ _ same.symm
    · exact proper.fixpoints d (by omega) old

theorem ProperScope.fixpoint {scope : List String} (proper : ProperScope scope) :
    ProperScope (fixpointName scope.length :: scope) where
  nodup := List.nodup_cons.2 ⟨proper.fixpoints _ (Nat.le_refl _), proper.nodup⟩
  names := List.forall_mem_cons.2 ⟨isName_fixpointName _, proper.names⟩
  words w hw captured := by
    rcases List.mem_cons.1 captured with rfl | old
    · exact not_isGenerated_of_word hw ⟨_, .inr rfl⟩
    · exact proper.words w hw old
  binders d hd captured := by
    rw [List.length_cons] at hd
    rcases List.mem_cons.1 captured with same | old
    · exact binderName_ne_fixpointName _ _ same
    · exact proper.binders d (by omega) old
  fixpoints d hd captured := by
    rw [List.length_cons] at hd
    rcases List.mem_cons.1 captured with same | old
    · have := fixpointName_inj.1 same
      omega
    · exact proper.fixpoints d (by omega) old

theorem ProperScope.fixpointScope {scope : List String} (proper : ProperScope scope) (n : Nat) :
    ProperScope (fixpointScope scope n) := by
  induction n with
  | zero => exact proper
  | succ n ih => exact fixpointScope_succ scope n ▸ ih.fixpoint

end KeyedMatching
