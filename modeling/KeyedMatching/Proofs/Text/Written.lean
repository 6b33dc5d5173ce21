import KeyedMatching.Proofs.Text.Legible

/-!
# What the text of a term looks like

* `Follows`, `Ends`: what stands after an item of a text;
* `Term.itemEnd?_text`: the look-ahead over one item passes over the text of a term, to what stands
  after it;
* `Term.opening`: with which characters a text starts, so that no layout is dropped from it.
-/

namespace KeyedMatching

open Reading (dropLayout isNameChar itemEnd?)

/-- What stands after an item in a group: a space, or the end of the group. -/
def Follows (rest : List Char) : Prop :=
  ∃ c cs, rest = c :: cs ∧ (c = ' ' ∨ c = ')' ∨ c = ']')

@[simp] theorem follows_cons {c : Char} {cs : List Char} :
    Follows (c :: cs) ↔ c = ' ' ∨ c = ')' ∨ c = ']' := by
  simp [Follows]

/-- What stands after an item of a text, if anything does. -/
def Ends (rest : List Char) : Prop :=
  rest = [] ∨ Follows rest

/-- Characters that an item starts with. -/
def IsOpening (c : Char) : Prop :=
  isNameChar c = true ∨ c = '(' ∨ c = '#' ∨ c = '?'

instance : DecidablePred IsOpening := fun c =>
  inferInstanceAs (Decidable (isNameChar c = true ∨ c = '(' ∨ c = '#' ∨ c = '?'))

theorem not_isNameChar_of_sign {c : Char}
    (h : c ∈ ['(', ')', '[', ']', ';', '#', '?', ' ', '\t', '\n', '\r', '\x0C']) :
    isNameChar c = false := by
  have signs : ['(', ')', '[', ']', ';', '#', '?', ' ', '\t', '\n', '\r', '\x0C'].all
      (!isNameChar ·) = true := by decide
  simpa using List.all_eq_true.1 signs c h

/-- No name goes on past the end of an item. -/
theorem takeWhile_isNameChar_of_ends {rest : List Char} (ends : Ends rest) :
    rest.takeWhile isNameChar = [] := by
  obtain rfl | ⟨c, cs, rfl, sign⟩ := ends
  · rfl
  · have noName : isNameChar c = false := by
      apply not_isNameChar_of_sign
      rcases sign with rfl | rfl | rfl <;> decide
    simp [noName]

/-- No number goes on past the end of an item. -/
theorem takeWhile_isDigit_of_ends {rest : List Char} (ends : Ends rest) :
    rest.takeWhile Char.isDigit = [] := by
  obtain rfl | ⟨c, cs, rfl, rfl | rfl | rfl⟩ := ends
  · rfl
  all_goals rfl

theorem isPlainBlank_of_isOpening {c : Char} (h : IsOpening c) : Text.isPlainBlank c = false := by
  refine Bool.eq_false_iff.2 fun blank => ?_
  simp only [Text.isPlainBlank, Bool.or_eq_true, beq_iff_eq] at blank
  rcases blank with (((rfl | rfl) | rfl) | rfl) | rfl <;> revert h <;> decide

theorem ne_of_isOpening {c d : Char} (h : IsOpening c) (hd : d ∈ [')', ']', ';']) : c ≠ d := by
  rintro rfl
  have signs : [')', ']', ';'].all (¬IsOpening ·) = true := by decide
  exact of_decide_eq_true (List.all_eq_true.1 signs c hd) h

theorem dropLayout_of_isOpening {c : Char} (h : IsOpening c) (cs : List Char) :
    dropLayout false (c :: cs) = c :: cs := by
  have comment : (c == ';') = false := beq_eq_false_iff_ne.2 (ne_of_isOpening h (by simp))
  simp [dropLayout, isPlainBlank_of_isOpening h, comment]

theorem dropLayout_dropLayout (inside : Bool) (cs : List Char) :
    dropLayout false (dropLayout inside cs) = dropLayout inside cs := by
  fun_induction dropLayout inside cs with
  | case1 => rfl
  | case2 c cs ih => exact ih
  | case3 c cs blank ih => exact ih
  | case4 c cs blank comment ih => exact ih
  | case5 c cs blank comment => simp [dropLayout, blank, comment]

theorem dropLayout_digits (n : Nat) (rest : List Char) :
    dropLayout false (Nat.toDigits 10 n ++ rest) = Nat.toDigits 10 n ++ rest := by
  cases digits : Nat.toDigits 10 n with
  | nil => exact absurd digits Nat.toDigits_ne_nil
  | cons c cs =>
    have digit : c ∈ n.repr.toList := by simp [digits]
    exact dropLayout_of_isOpening (.inl (isNameChar_of_isDigit (isDigit_of_mem_repr digit))) _

/-! ## Passing over an item -/

section
variable {depth : Nat} {cs rest : List Char}

/-- Where no group is open, the look-ahead stops after an item. -/
theorem itemEnd?_of_follows (follows : Follows rest) : itemEnd? 0 rest = some rest := by
  obtain ⟨c, cs, rfl, rfl | rfl | rfl⟩ := follows <;> rfl

@[simp] theorem itemEnd?_open : itemEnd? depth ('(' :: cs) = itemEnd? (depth + 1) cs := rfl

@[simp] theorem itemEnd?_openInstance : itemEnd? depth ('[' :: cs) = itemEnd? (depth + 1) cs := rfl

/-- After a group as after any item, the look-ahead stops if no other group is open. -/
@[simp] theorem itemEnd?_close (follows : Follows rest) :
    itemEnd? (depth + 1) (')' :: rest) = itemEnd? depth rest := by
  cases depth with
  | zero => exact (itemEnd?_of_follows follows).symm
  | succ depth => rfl

@[simp] theorem itemEnd?_closeInstance (follows : Follows rest) :
    itemEnd? (depth + 1) (']' :: rest) = itemEnd? depth rest := by
  cases depth with
  | zero => exact (itemEnd?_of_follows follows).symm
  | succ depth => rfl

/-- A character that is no bracket leads to the end of no group. -/
@[simp] theorem itemEnd?_inside {c : Char} (opens : (c == '(' || c == '[') = false)
    (closes : (c == ')' || c == ']') = false) :
    itemEnd? (depth + 1) (c :: cs) = itemEnd? (depth + 1) cs := by
  simp [itemEnd?, opens, closes]

theorem itemEnd?_of_isOpening {c : Char} (h : IsOpening c) (single : c ≠ '(') :
    itemEnd? depth (c :: cs) = itemEnd? depth cs := by
  have opens : (c == '(' || c == '[') = false := by
    have instance' : c ≠ '[' := by
      rintro rfl
      revert h
      decide
    simp [single, instance']
  have closes : (c == ')' || c == ']') = false := by
    simp [ne_of_isOpening h (d := ')') (by simp), ne_of_isOpening h (d := ']') (by simp)]
  simp [itemEnd?, opens, closes, isPlainBlank_of_isOpening h]

theorem itemEnd?_sign {c : Char} (sign : c = '#' ∨ c = '?') :
    itemEnd? depth (c :: cs) = itemEnd? depth cs := by
  rcases sign with rfl | rfl <;> exact itemEnd?_of_isOpening (by decide) (by decide)

theorem itemEnd?_name {c : String} (name : IsName c) :
    itemEnd? depth (c.toList ++ rest) = itemEnd? depth rest := by
  have word {w : List Char} (name : ∀ x ∈ w, isNameChar x = true) :
      itemEnd? depth (w ++ rest) = itemEnd? depth rest := by
    induction w with
    | nil => rfl
    | cons x w ih =>
      obtain ⟨hx, hw⟩ := List.forall_mem_cons.1 name
      have single : x ≠ '(' := by
        rintro rfl
        cases hx
      rw [List.cons_append, itemEnd?_of_isOpening (.inl hx) single, ih hw]
  exact word name.2

theorem itemEnd?_digits (n : Nat) :
    itemEnd? depth (Nat.toDigits 10 n ++ rest) = itemEnd? depth rest := by
  rw [← Nat.toList_repr]
  exact itemEnd?_name (isName_repr n)

end

/-! ## Terms -/

theorem relText_cases (scope : List String) (i : Nat) :
    (∃ c ∈ scope, scope[i]? = some c ∧ relText scope i = c) ∨
      scope.length ≤ i ∧ relText scope i = "#" ++ (i - scope.length).repr := by
  cases bound : scope[i]? with
  | some c => exact .inl ⟨c, List.mem_of_getElem? bound, rfl, by simp [relText, bound]⟩
  | none => exact .inr ⟨List.getElem?_eq_none_iff.1 bound, by simp [relText, bound]⟩

theorem sortText_cases (n : Nat) :
    n = 0 ∧ sortText n = "Prop" ∨ n = 1 ∧ sortText n = "Type" ∨
      sortText n = "(Sort " ++ n.repr ++ ")" := by
  match n with
  | 0 => exact .inl ⟨rfl, rfl⟩
  | 1 => exact .inr (.inl ⟨rfl, rfl⟩)
  | n + 2 => exact .inr (.inr rfl)

theorem follows_textAll {rest : List Char} (follows : Follows rest) (scope : List String)
    (xs : List Term) : Follows ((Term.textAll scope xs).toList ++ rest) := by
  cases xs with
  | nil => exact follows
  | cons x xs => simp [Term.textAll]

theorem follows_typesText {rest : List Char} (follows : Follows rest) (scope : List String)
    (i : Nat) (xs : List Term) :
    Follows ((Term.typesText scope (i + 1) xs).toList ++ rest) := by
  cases xs with
  | nil => exact follows
  | cons x xs => simp [Term.typesText]

mutual

theorem Head.itemEnd?_text : (h : Head) → {scope : List String} → {d : Nat} →
    ProperScope scope → h.Legible d → (depth : Nat) → (rest : List Char) → Follows rest →
    itemEnd? depth ((h.text scope).toList ++ rest) = itemEnd? depth rest
  | .rel i, scope, d, proper, _, depth, rest, _ => by
    rw [Head.text]
    rcases relText_cases scope i with ⟨c, mem, _, text⟩ | ⟨_, text⟩
    · rw [text, itemEnd?_name (proper.names c mem)]
    · rw [text]
      simp [itemEnd?_sign, itemEnd?_digits]
  | .sort n, _, _, _, _, depth, rest, follows => by
    rw [Head.text]
    rcases sortText_cases n with ⟨_, text⟩ | ⟨_, text⟩ | text
    · rw [text, itemEnd?_name (by decide)]
    · rw [text, itemEnd?_name (by decide)]
    · rw [text]
      simp [itemEnd?_digits, follows]
  | .const c, _, _, _, legible, depth, rest, _ => by
    rw [Head.text, itemEnd?_name legible.1]
  | .hole k [], _, _, _, _, depth, rest, _ => by
    simp [Head.text, itemEnd?_sign, itemEnd?_digits]
  | .hole k (x :: xs), scope, _, proper, legible, depth, rest, follows => by
    have hx := x.itemEnd?_text proper legible.1
    have hxs := Term.itemEnd?_textAll xs proper legible.2
    simp [Head.text, itemEnd?_sign, itemEnd?_digits, follows_textAll, hx, hxs, follows]
  | .pi a b, _, _, proper, legible, depth, rest, follows => by
    have ha := a.itemEnd?_text proper legible.1
    have hb := b.itemEnd?_text proper.binder legible.2
    simp [Head.text, itemEnd?_name (isName_binderName _), ha, hb, follows]
  | .lam a b, _, _, proper, legible, depth, rest, follows => by
    have ha := a.itemEnd?_text proper legible.1
    have hb := b.itemEnd?_text proper.binder legible.2
    simp [Head.text, itemEnd?_name (isName_binderName _), ha, hb, follows]
  | .letIn v a b, _, _, proper, legible, depth, rest, follows => by
    have ha := a.itemEnd?_text proper legible.1
    have hv := v.itemEnd?_text proper legible.2.1
    have hb := b.itemEnd?_text proper.binder legible.2.2
    simp [Head.text, itemEnd?_name (isName_binderName _), ha, hv, hb, follows]
  | .cast t a, _, _, proper, legible, depth, rest, follows => by
    have ht := t.itemEnd?_text proper legible.1
    have ha := a.itemEnd?_text proper legible.2
    simp [Head.text, ht, ha, follows]
  | .case r s bs, _, _, proper, legible, depth, rest, follows => by
    have hr := r.itemEnd?_text proper legible.1
    have hs := s.itemEnd?_text proper legible.2.1
    have hbs := Term.itemEnd?_textAll bs proper legible.2.2
    simp [Head.text, hr, hs, hbs, follows_textAll, follows]
  | .fix i as bs, _, _, proper, legible, depth, rest, follows => by
    have has := Term.itemEnd?_typesText as proper legible.2.1 0
    have hbs := Term.itemEnd?_bodiesText bs (proper.fixpointScope as.length) legible.2.2
    simp [Head.text, itemEnd?_digits, has, hbs, follows]

/-- The look-ahead passes over the text of a term to what stands after it. -/
theorem Term.itemEnd?_text : (t : Term) → {scope : List String} → {d : Nat} →
    ProperScope scope → t.Legible d → (depth : Nat) → (rest : List Char) → Follows rest →
    itemEnd? depth ((t.text scope).toList ++ rest) = itemEnd? depth rest
  | .mk h [], _, _, proper, legible, depth, rest, follows =>
    h.itemEnd?_text proper legible.2.1 depth rest follows
  | .mk h (x :: xs), _, _, proper, legible, depth, rest, follows => by
    have hh := h.itemEnd?_text proper legible.2.1
    have hx := x.itemEnd?_text proper legible.2.2.1
    have hxs := Term.itemEnd?_textAll xs proper legible.2.2.2
    simp [Term.text, hh, hx, hxs, follows_textAll, follows]

theorem Term.itemEnd?_textAll : (xs : List Term) → {scope : List String} → {d : Nat} →
    ProperScope scope → Term.LegibleAll d xs → (depth : Nat) → (rest : List Char) →
    Follows rest →
    itemEnd? (depth + 1) ((Term.textAll scope xs).toList ++ rest) = itemEnd? (depth + 1) rest
  | [], _, _, _, _, _, _, _ => rfl
  | x :: xs, _, _, proper, legible, depth, rest, follows => by
    have hx := x.itemEnd?_text proper legible.1
    have hxs := Term.itemEnd?_textAll xs proper legible.2
    simp [Term.textAll, hx, hxs, follows_textAll, follows]

theorem Term.itemEnd?_typesText : (xs : List Term) → {scope : List String} → {d : Nat} →
    ProperScope scope → Term.LegibleAll d xs → (i depth : Nat) → (rest : List Char) →
    Follows rest →
    itemEnd? (depth + 1) ((Term.typesText scope i xs).toList ++ rest) = itemEnd? (depth + 1) rest
  | [], _, _, _, _, _, _, _, _ => rfl
  | x :: xs, scope, _, proper, legible, i, depth, rest, follows => by
    have hx := x.itemEnd?_text proper legible.1
    have hxs := Term.itemEnd?_typesText xs proper legible.2 (i + 1)
    have next := follows_typesText follows scope i xs
    rw [Term.typesText]
    split
    · simp [itemEnd?_name (isName_fixpointName _), hx, hxs, next, follows]
    · simp [itemEnd?_name (isName_fixpointName _), hx, hxs, next, follows]

theorem Term.itemEnd?_bodiesText : (xs : List Term) → {scope : List String} → {d : Nat} →
    ProperScope scope → Term.LegibleAll d xs → (depth : Nat) → (rest : List Char) →
    Follows rest →
    itemEnd? (depth + 1) ((Term.bodiesText scope xs).toList ++ rest) = itemEnd? (depth + 1) rest
  | [], _, _, _, _, _, _, _ => rfl
  | x :: xs, _, _, proper, legible, depth, rest, follows => by
    have hx := x.itemEnd?_text proper legible.1
    have hxs := Term.itemEnd?_textAll xs proper legible.2
    simp [Term.bodiesText, hx, hxs, follows_textAll, follows]

end

/-! ## How a text starts -/

theorem opening_name {c : String} (name : IsName c) :
    ∃ x cs, c.toList = x :: cs ∧ IsOpening x := by
  cases chars : c.toList with
  | nil => exact absurd chars name.1
  | cons x cs => exact ⟨x, cs, rfl, .inl (name.2 x (chars ▸ List.mem_cons_self))⟩

/-- A head is written as a word, which may lead if the head may, or starts with a sign. -/
theorem Head.text_cases {h : Head} {scope : List String} {d : Nat} (proper : ProperScope scope)
    (legible : h.Legible d) :
    IsName (h.text scope) ∧ (h.MayLead → Reading.MayLead scope (h.text scope)) ∨
      ∃ c cs, (h.text scope).toList = c :: cs ∧ (c = '(' ∨ c = '#' ∨ c = '?') := by
  cases h with
  | rel i =>
    rw [Head.text]
    rcases relText_cases scope i with ⟨c, mem, _, text⟩ | ⟨_, text⟩
    · exact .inl (text ▸ ⟨proper.names c mem, fun _ => .inl mem⟩)
    · exact .inr (by simp [text])
  | sort n =>
    rw [Head.text]
    rcases sortText_cases n with ⟨_, text⟩ | ⟨_, text⟩ | text
    · exact .inl (text ▸ ⟨by decide, fun _ => .inr (by decide)⟩)
    · exact .inl (text ▸ ⟨by decide, fun _ => .inr (by decide)⟩)
    · exact .inr (by simp [text])
  | const c => exact .inl ⟨legible.1, .inr⟩
  | hole k xs => cases xs <;> exact .inr (by simp [Head.text])
  | pi a b => exact .inr (by simp [Head.text])
  | lam a b => exact .inr (by simp [Head.text])
  | letIn v a b => exact .inr (by simp [Head.text])
  | cast t a => exact .inr (by simp [Head.text])
  | case r s bs => exact .inr (by simp [Head.text])
  | fix i as bs => exact .inr (by simp [Head.text])

theorem Head.opening {h : Head} {scope : List String} {d : Nat} (proper : ProperScope scope)
    (legible : h.Legible d) : ∃ x cs, (h.text scope).toList = x :: cs ∧ IsOpening x := by
  rcases h.text_cases proper legible with ⟨name, _⟩ | ⟨c, cs, text, sign⟩
  · exact opening_name name
  · exact ⟨c, cs, text, .inr sign⟩

theorem Term.opening {t : Term} {scope : List String} {d : Nat} (proper : ProperScope scope)
    (legible : t.Legible d) : ∃ x cs, (t.text scope).toList = x :: cs ∧ IsOpening x := by
  match t, legible with
  | .mk h [], legible => exact h.opening proper legible.2.1
  | .mk h (x :: xs), _ => simp [Term.text, IsOpening]

theorem dropLayout_text {t : Term} {scope : List String} {d : Nat} (proper : ProperScope scope)
    (legible : t.Legible d) (rest : List Char) :
    dropLayout false ((t.text scope).toList ++ rest) = (t.text scope).toList ++ rest := by
  obtain ⟨x, cs, text, opening⟩ := t.opening proper legible
  rw [text]
  exact dropLayout_of_isOpening opening _

end KeyedMatching
