import KeyedMatching.Proofs.Term.Renumbering
import KeyedMatching.Proofs.Text.Consumed

/-!
# Reading the forms of a text

What the parts of the reader make of a text, if the terms inside are read back.

* `Reading.Recovers A T scope t`: `T` reads the text of the term in the scope as the term, up to the
  numbers of its holes;
* `Reading.consumes_step_group`, `Reading.consumes_form_sign`, `Reading.consumes_form_name`,
  `Reading.consumes_keyword`: which part reads a text, by the character or the word it starts with;
* `Reading.consumes_binders`: the look-ahead takes a binder for a binder and the body for the body;
* `Reading.consumes_textAll`, `Reading.consumes_bodiesText`, `Reading.consumes_typesText`: the lists
  of terms in a text.
-/

namespace KeyedMatching

namespace Reading

/-- `T` reads the text of the term in the scope as the term, up to the numbers of its holes. -/
def Recovers (A : Nat → Nat) (T : List String → ReadM Term) (scope : List String) (t : Term) :
    Prop :=
  Takes A (T scope) (fun t => (t.text scope).toList) (fun ρ t => t.renumber ρ) t

section
variable {A : Nat → Nat} {T : List String → ReadM Term} {scope : List String}
  {input cs rest : List Char} {Q : (Nat → Nat) → Term → Prop}

theorem Recovers.after_space {t : Term} (h : Recovers A T scope t) (follows : Follows rest) :
    Consumes A (T scope) (' ' :: ((t.text scope).toList ++ rest)) rest fun ρ a =>
      a = t.renumber ρ :=
  h.consumes _ _ (h.dropLayout rest) (.inr follows)

/-! ## Ways into a term -/

theorem consumes_step_group (next : dropLayout false input = '(' :: cs)
    (hform : Consumes A (form T scope) cs (')' :: rest) Q) :
    Consumes A (step T scope) input rest Q := by
  apply consumes_then consumes_skipLayout
  rw [next]
  apply consumes_then consumes_peek
  apply consumes_then consumes_advance
  refine consumes_bind hform fun t _ => ?_
  exact consumes_then (consumes_expect rfl) (consumes_pure fun _ => id)

theorem consumes_step_name {c : String} (name : IsName c)
    (next : dropLayout false input = c.toList ++ rest) (ends : Ends rest)
    (hatom : Consumes A (atom scope c) rest rest Q) :
    Consumes A (step T scope) input rest Q := by
  obtain ⟨x, w, chars⟩ : ∃ x w, c.toList = x :: w := List.exists_cons_of_ne_nil name.1
  have first : isNameChar x = true := name.2 x (chars ▸ List.mem_cons_self)
  have word : c = String.ofList (x :: w) := by rw [← chars, String.ofList_toList]
  apply consumes_then consumes_skipLayout
  rw [next, chars]
  apply consumes_then consumes_peek
  have reads : Consumes A (identifier >>= atom scope) (x :: w ++ rest) rest Q := by
    refine consumes_then (consumes_identifier (w := x :: w) (word ▸ name) ?_
      (takeWhile_isNameChar_of_ends ends)) (word ▸ hatom)
    exact dropLayout_of_isOpening (.inl first) _
  split
  · next eq => cases eq
  · next eq => cases eq; cases first
  · next eq => cases eq; cases first
  · next eq => cases eq; cases first
  · exact reads

theorem consumes_form_sign {c : Char} (sign : c = '(' ∨ c = '#' ∨ c = '?')
    (next : dropLayout false input = c :: cs)
    (happlication : Consumes A (application T scope) (c :: cs) rest Q) :
    Consumes A (form T scope) input rest Q := by
  apply consumes_then consumes_skipLayout
  rw [next]
  apply consumes_then consumes_peek
  rcases sign with rfl | rfl | rfl <;> exact happlication

theorem consumes_form_name {c : String} (name : IsName c)
    (next : dropLayout false input = c.toList ++ cs)
    (hword : Consumes A (wordForm T scope) (c.toList ++ cs) rest Q) :
    Consumes A (form T scope) input rest Q := by
  obtain ⟨x, w, chars⟩ : ∃ x w, c.toList = x :: w := List.exists_cons_of_ne_nil name.1
  have first : isNameChar x = true := name.2 x (chars ▸ List.mem_cons_self)
  apply consumes_then consumes_skipLayout
  rw [next]
  rw [chars] at hword ⊢
  apply consumes_then consumes_peek
  split
  · next eq => cases eq; cases first
  · next eq => cases eq; cases first
  · next eq => cases eq; cases first
  · exact hword

/-- A form whose word makes none is read as an application, from the word on. -/
theorem consumes_wordForm_application {c : String} (name : IsName c) (leads : MayLead scope c)
    (h : Consumes A (application T scope) (c.toList ++ ' ' :: cs) rest Q) :
    Consumes A (wordForm T scope) (c.toList ++ ' ' :: cs) rest Q := by
  refine consumes_get fun s here => ?_
  refine consumes_then (consumes_name name) ?_
  have again {mid : List Char} :
      Consumes A (do goTo s.rest; application T scope) mid rest Q := by
    rw [here]
    exact consumes_then consumes_goTo h
  by_cases bound : c ∈ scope
  · rw [if_pos (by simpa using bound)]
    exact again
  · have other : c ∉ formWords := leads.resolve_left bound
    rw [if_neg (by simpa using bound)]
    split
    case h_9 => exact again
    all_goals exact absurd (by decide) other

/-- A form is read as its word says. -/
theorem consumes_keyword (proper : ProperScope scope) {after : Reading → String → ReadM Term}
    (split : wordForm T scope = do
      let s ← get
      let w ← identifier
      if scope.contains w then do
        goTo s.rest
        application T scope
      else after s w)
    (word : List Char) (hword : String.ofList word ∈ formWords)
    (next : dropLayout false input = word ++ ' ' :: cs)
    (hafter : ∀ s, Consumes A (after s (String.ofList word)) (' ' :: cs) rest Q) :
    Consumes A (form T scope) input rest Q := by
  have names : ∀ w ∈ formWords, IsName w := by decide
  have name := names _ hword
  have free : scope.contains (String.ofList word) = false := by
    have := proper.words _ (List.mem_append_right _ hword)
    simpa using this
  have opening : dropLayout false (word ++ ' ' :: cs) = word ++ ' ' :: cs := by
    rw [← next, dropLayout_dropLayout]
  refine consumes_form_name name (by simpa using next) ?_
  rw [split, String.toList_ofList]
  refine consumes_get fun s _ => ?_
  refine consumes_then (consumes_identifier name opening ?_) ?_
  · exact takeWhile_isNameChar_of_ends (.inr (by simp))
  · rw [free]
    exact hafter s

/-! ## Binders -/

/-- After a binder, the last item of a form is read as its body. -/
theorem consumes_body {build : Term → Term → Term} {b : Term} {n : Nat} (proper : ProperScope scope)
    (legible : b.Legible scope.length) (hb : Recovers A T scope b) :
    Consumes A (bindersWithin T build (n + 1) false scope)
      (' ' :: ((b.text scope).toList ++ ')' :: rest)) (')' :: rest) fun ρ t =>
        t = b.renumber ρ := by
  have past : itemEnd? 0 ((b.text scope).toList ++ ')' :: rest) = some (')' :: rest) := by
    rw [b.itemEnd?_text proper legible _ _ (by simp), itemEnd?_of_follows (by simp)]
  have drop : dropLayout false (' ' :: ((b.text scope).toList ++ ')' :: rest)) =
      (b.text scope).toList ++ ')' :: rest := dropLayout_text proper legible _
  apply consumes_then consumes_skipLayout
  rw [drop]
  apply consumes_then (consumes_atLastItem past)
  exact hb.consumes _ _ (dropLayout_text proper legible _) (.inr (by simp))

theorem consumes_binders {build : Term → Term → Term} {a b : Term} (proper : ProperScope scope)
    (legibleA : a.Legible scope.length) (ha : Recovers A T scope a)
    (legibleB : b.Legible (scope.length + 1))
    (hb : Recovers A T (binderName scope.length :: scope) b)
    (here : cs = '(' :: ((binderName scope.length).toList ++ ' ' ::
      ((a.text scope).toList ++ ')' :: ' ' ::
        ((b.text (binderName scope.length :: scope)).toList ++ ')' :: rest)))) :
    Consumes A (binders T build scope) (' ' :: cs) (')' :: rest) fun ρ t =>
      t = build (a.renumber ρ) (b.renumber ρ) := by
  have name := isName_binderName scope.length
  obtain ⟨c, b', text, opening⟩ := b.opening proper.binder legibleB
  -- The look-ahead passes over the binder, and sees that the body is not the end of the form.
  have past : itemEnd? 0 cs =
      some (' ' :: ((b.text (binderName scope.length :: scope)).toList ++ ')' :: rest)) := by
    rw [here]
    simp [itemEnd?_name name, a.itemEnd?_text proper legibleA, itemEnd?_of_follows]
  have more : (' ' :: ((b.text (binderName scope.length :: scope)).toList ++
      ')' :: rest)).dropWhile Text.isPlainBlank = c :: (b' ++ ')' :: rest) := by
    rw [text, List.dropWhile_cons_of_pos (by decide), List.cons_append,
      List.dropWhile_cons_of_neg (by simp [isPlainBlank_of_isOpening opening])]
  have drop : dropLayout false (' ' :: cs) = cs := by
    rw [here]
    rfl
  refine consumes_get fun s same => ?_
  rw [same, List.length_cons]
  apply consumes_then consumes_skipLayout
  rw [drop]
  apply consumes_then (consumes_atLastItem past)
  rw [more, if_neg (by simpa using ne_of_isOpening opening (by simp))]
  apply consumes_then (consumes_expect (by rw [here]; rfl))
  apply consumes_then (consumes_name name)
  refine consumes_bind (ha.consumes _ _ (dropLayout_text proper legibleA _) (.inr (by simp)))
    fun type _ => ?_
  apply consumes_then (consumes_expect rfl)
  rw [here, List.length_cons]
  refine consumes_bind (consumes_body proper.binder legibleB hb) fun body _ => ?_
  refine consumes_pure fun ρ hbody htype => ?_
  rw [htype, hbody]

/-! ## Lists of terms -/

theorem detects_atClose : Detects A atClose ')' :=
  fun _ _ _ next => consumes_atClose next

theorem detects_atInstanceClose : Detects A atInstanceClose ']' :=
  fun _ _ _ next => consumes_atInstanceClose next

theorem toList_textAll (scope : List String) (xs : List Term) :
    (Term.textAll scope xs).toList = spaced (fun x => (x.text scope).toList) xs := by
  induction xs with
  | nil => rfl
  | cons x xs ih =>
    rw [spaced] at ih
    simp [Term.textAll, spaced, ih]

theorem dropLayout_bodiesText (scope : List String) (xs : List Term) :
    dropLayout false ((Term.bodiesText scope xs).toList ++ cs) =
      dropLayout false (spaced (fun x => (x.text scope).toList) xs ++ cs) := by
  cases xs with
  | nil => rfl
  | cons x xs =>
    have drop (cs : List Char) : dropLayout false (' ' :: cs) = dropLayout false cs := rfl
    rw [← toList_textAll]
    simp [Term.bodiesText, Term.textAll, drop]

/-- A type of a fixpoint as it is written, with the name that its number has in the scope. -/
def typedText (scope : List String) (p : Term × Nat) : List Char :=
  '(' :: ((fixpointName (scope.length + p.2)).toList ++ ' ' :: ((p.1.text scope).toList ++ [')']))

theorem dropLayout_typesText (scope : List String) (xs : List Term) :
    dropLayout false ((Term.typesText scope 0 xs).toList ++ cs) =
      dropLayout false (spaced (typedText scope) (xs.zipIdx) ++ cs) := by
  have later (xs : List Term) (i : Nat) : (Term.typesText scope (i + 1) xs).toList =
      spaced (typedText scope) (xs.zipIdx (i + 1)) := by
    induction xs generalizing i with
    | nil => rfl
    | cons x xs ih =>
      have tail := ih (i + 1)
      rw [spaced] at tail
      simp [Term.typesText, spaced, typedText, tail]
  cases xs with
  | nil => rfl
  | cons x xs =>
    have drop (cs : List Char) : dropLayout false (' ' :: cs) = dropLayout false cs := rfl
    have tail := later xs 0
    rw [spaced] at tail
    simp [Term.typesText, spaced, typedText, tail, drop]

theorem length_text_le_textAll (scope : List String) {x : Term} {xs : List Term}
    (hx : x ∈ xs) :
    (x.text scope).toList.length ≤ (Term.textAll scope xs).toList.length := by
  induction xs with
  | nil => cases hx
  | cons y ys ih =>
    simp only [Term.textAll, String.toList_append, List.length_append]
    rcases List.mem_cons.1 hx with rfl | later
    · omega
    · have := ih later
      omega

theorem length_text_le_typesText (scope : List String) {x : Term} {xs : List Term}
    (hx : x ∈ xs) (i : Nat) :
    (x.text scope).toList.length ≤ (Term.typesText scope i xs).toList.length := by
  induction xs generalizing i with
  | nil => cases hx
  | cons y ys ih =>
    simp only [Term.typesText, String.toList_append, List.length_append]
    rcases List.mem_cons.1 hx with rfl | later
    · omega
    · have := ih later (i + 1)
      omega

theorem length_text_le_bodiesText (scope : List String) {x : Term} {xs : List Term}
    (hx : x ∈ xs) :
    (x.text scope).toList.length ≤ (Term.bodiesText scope xs).toList.length := by
  cases xs with
  | nil => cases hx
  | cons y ys =>
    simp only [Term.bodiesText, String.toList_append, List.length_append]
    rcases List.mem_cons.1 hx with rfl | later
    · omega
    · have := length_text_le_textAll scope later
      omega

theorem consumes_textAll {xs : List Term} (hxs : ∀ x ∈ xs, Recovers A T scope x) :
    Consumes A (items atClose (T scope)) ((Term.textAll scope xs).toList ++ ')' :: rest)
      (')' :: rest) fun ρ ys => ys = xs.map (·.renumber ρ) := by
  rw [toList_textAll]
  exact consumes_items detects_atClose (.inl rfl) hxs rfl

theorem consumes_bodiesText {closed : ReadM Bool} {close : Char} {xs : List Term}
    (hclosed : Detects A closed close) (hclose : close = ')' ∨ close = ']')
    (hxs : ∀ x ∈ xs, Recovers A T scope x) :
    Consumes A (items closed (T scope)) ((Term.bodiesText scope xs).toList ++ close :: rest)
      (close :: rest) fun ρ ys => ys = xs.map (·.renumber ρ) :=
  consumes_items hclosed hclose hxs (dropLayout_bodiesText scope xs)

theorem consumes_hole {k : Nat} {xs : List Term} (arity : A k = xs.length)
    (next : dropLayout false input = '?' :: (Nat.toDigits 10 k ++ cs))
    (ends : cs.takeWhile isNameChar = [])
    (hinst : Consumes A (inst T scope) cs rest fun ρ ys => ys = xs.map (·.renumber ρ)) :
    Consumes A (step T scope) input rest fun ρ a => a = (Term.hole k xs).renumber ρ := by
  have name : String.ofList (Nat.toDigits 10 k) = k.repr := Nat.repr_eq_ofList_toDigits.symm
  apply consumes_then consumes_skipLayout
  rw [next]
  apply consumes_then consumes_peek
  apply consumes_then consumes_advance
  refine consumes_then
    (consumes_identifier (name ▸ isName_repr k) (dropLayout_digits k cs) ends) ?_
  refine consumes_bind hinst fun ys known => ?_
  have length : ys.length = xs.length := by
    obtain ⟨ρ, rfl⟩ := known
    simp
  rw [length, name]
  refine consumes_bind (consumes_namedHole arity) fun l _ => ?_
  refine consumes_pure fun ρ hl hys => ?_
  rw [hl, hys, Term.renumber_mk, Head.renumber_hole]
  rfl

theorem takes_typedName (proper : ProperScope scope) {p : Term × Nat}
    (legible : p.1.Legible scope.length) (hp : Recovers A T scope p.1) :
    Takes A (typedName T scope) (typedText scope)
      (fun ρ p => (fixpointName (scope.length + p.2), p.1.renumber ρ)) p where
  opening := ⟨_, _, rfl, by decide⟩
  consumes input rest here ends := by
    have next : dropLayout false input = '(' :: ((fixpointName (scope.length + p.2)).toList ++
        ' ' :: ((p.1.text scope).toList ++ ')' :: rest)) := by
      rw [here]
      simp [typedText]
    apply consumes_then (consumes_expect next)
    apply consumes_then (consumes_name (isName_fixpointName _))
    refine consumes_bind (hp.consumes _ _ (dropLayout_text proper legible _) (.inr (by simp)))
      fun type _ => ?_
    apply consumes_then (consumes_expect rfl)
    refine consumes_pure fun ρ htype => ?_
    rw [htype]

theorem consumes_typesText (proper : ProperScope scope) {xs : List Term}
    (legible : ∀ x ∈ xs, x.Legible scope.length) (hxs : ∀ x ∈ xs, Recovers A T scope x) :
    Consumes A (items atClose (typedName T scope))
      ((Term.typesText scope 0 xs).toList ++ ')' :: rest) (')' :: rest) fun ρ ps =>
        ps = xs.zipIdx.map fun p => (fixpointName (scope.length + p.2), p.1.renumber ρ) := by
  refine consumes_items detects_atClose (.inl rfl) (fun p hp => ?_) (dropLayout_typesText scope xs)
  have mem : p.1 ∈ xs := List.fst_mem_of_mem_zipIdx hp
  exact takes_typedName proper (legible p.1 mem) (hxs p.1 mem)

end

end Reading

end KeyedMatching
