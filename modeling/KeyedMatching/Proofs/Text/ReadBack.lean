import KeyedMatching.Proofs.Text.Forms

/-!
# Reading back what was written

* `Term.Readable A scope t`: in a scope, the text of the term can be read back;
* `Reading.recovers_rel` to `Reading.recovers_application`: each construction is read back, if the
  terms inside it are;
* `Reading.recovers_step`: a step recovers a term if what it uses for the terms inside recovers
  those, whose texts are shorter;
* `Reading.recovers_termWithin`: so does reading at as many levels as the text has characters;
* `Reader.read_text`: what is written is read back.
-/

namespace KeyedMatching

/-- A term that can be read back from its text in a scope: it has the numbers, names and shapes that
the reader makes, no constant has the name of a binder around it, and each hole has its arity. -/
structure Term.Readable (A : Nat → Nat) (scope : List String) (t : Term) : Prop where
  legible : t.Legible scope.length
  uncaptured : t.Uncaptured scope
  arities : t.Over fun k n => n = A k

section
variable {A : Nat → Nat} {scope : List String}

theorem Term.eachConstantAll_iff {P : List String → String → Prop} {xs : List Term} :
    Term.EachConstantAll P scope xs ↔ ∀ x ∈ xs, x.EachConstant P scope := by
  induction xs with
  | nil => simp [Term.EachConstantAll]
  | cons x xs ih => simp [Term.EachConstantAll, ih]

theorem Term.Readable.head {h : Head} {xs : List Term} (p : (Term.mk h xs).Readable A scope) :
    (Term.ofHead h).Readable A scope where
  legible := Term.legible_ofHead.2 p.legible.2.1
  uncaptured := ⟨p.uncaptured.1, trivial⟩
  arities := (Term.over_mk.1 p.arities).1

theorem Term.Readable.args {h : Head} {xs : List Term} (p : (Term.mk h xs).Readable A scope)
    {x : Term} (hx : x ∈ xs) : x.Readable A scope where
  legible := Term.legibleAll_iff.1 p.legible.2.2 x hx
  uncaptured := Term.eachConstantAll_iff.1 p.uncaptured.2 x hx
  arities := (Term.over_mk.1 p.arities).2 x hx

end

namespace Reading

section
variable {A : Nat → Nat} {T : List String → ReadM Term} {scope : List String}

/-! ## Terms -/

section
variable (proper : ProperScope scope)
include proper

theorem recovers_of_consumes {t : Term} (readable : t.Readable A scope)
    (h : ∀ input rest, dropLayout false input = (t.text scope).toList ++ rest → Ends rest →
      Consumes A (step T scope) input rest fun ρ a => a = t.renumber ρ) :
    Recovers A (step T) scope t :=
  ⟨t.opening proper readable.legible, h⟩

theorem recovers_rel {i : Nat} (readable : (Term.rel i).Readable A scope) :
    Recovers A (step T) scope (.rel i) := by
  refine recovers_of_consumes proper readable fun input rest here ends => ?_
  rw [Term.text, Head.text] at here
  rcases relText_cases scope i with ⟨c, mem, bound, text⟩ | ⟨free, text⟩
  · rw [text] at here
    obtain ⟨lt, at'⟩ := List.getElem?_eq_some_iff.1 bound
    have idx : scope.idxOf? c = some i := by
      refine List.idxOf?_eq_some_iff.2 ⟨lt, at', fun j hj same => ?_⟩
      rw [← at'] at same
      have := (proper.nodup.getElem_inj_iff).1 same
      omega
    exact consumes_step_name (proper.names c mem) here ends (consumes_atom_bound idx)
  · rw [text] at here
    obtain ⟨inRange, small⟩ := readable.legible.2.1 free
    have back : i - scope.length + scope.length = i := Nat.sub_add_cancel free
    have next : dropLayout false input = '#' :: (Nat.toDigits 10 (i - scope.length) ++ rest) := by
      simpa using here
    apply consumes_then consumes_skipLayout
    rw [next]
    apply consumes_then consumes_peek
    apply consumes_then consumes_advance
    apply consumes_then (consumes_number (by omega) (dropLayout_digits _ _) ends)
    rw [back, if_pos ⟨inRange, small⟩]
    exact consumes_pure fun _ => rfl

theorem recovers_sort {n : Nat} (readable : (Term.sort n).Readable A scope) :
    Recovers A (step T) scope (.sort n) := by
  refine recovers_of_consumes proper readable fun input rest here ends => ?_
  have reserved {w : String} (hw : w ∈ reservedWords) : scope.idxOf? w = none :=
    List.idxOf?_eq_none_iff.2 (proper.words w (List.mem_append_left _ hw))
  rw [Term.text, Head.text] at here
  rcases sortText_cases n with ⟨rfl, text⟩ | ⟨rfl, text⟩ | text
  · rw [text] at here
    refine consumes_step_name (by decide) here ends ?_
    unfold atom
    rw [reserved (by decide)]
    exact consumes_pure fun _ => rfl
  · rw [text] at here
    refine consumes_step_name (by decide) here ends ?_
    unfold atom
    rw [reserved (by decide)]
    exact consumes_pure fun _ => rfl
  · have small : n < Text.bound32 := readable.legible.2.1
    have next : dropLayout false input =
        '(' :: (['S', 'o', 'r', 't'] ++ ' ' :: (Nat.toDigits 10 n ++ ')' :: rest)) := by
      rw [here, text]
      simp
    refine consumes_step_group next
      (consumes_keyword proper rfl ['S', 'o', 'r', 't'] (by decide) rfl fun s => ?_)
    refine consumes_then (consumes_number small (dropLayout_digits n _) (.inr (by simp))) ?_
    exact consumes_pure fun _ => rfl

theorem recovers_const {c : String} (readable : (Term.const c).Readable A scope) :
    Recovers A (step T) scope (.const c) := by
  obtain ⟨name, constant⟩ := readable.legible.2.1
  refine recovers_of_consumes proper readable fun input rest here ends => ?_
  exact consumes_step_name name here ends
    (consumes_atom_constant readable.uncaptured.1 constant)

end

section
variable {n : Nat} (proper : ProperScope scope)
  (hT : ∀ scope t, ProperScope scope → t.Readable A scope → (t.text scope).toList.length ≤ n →
    Recovers A T scope t)
include proper hT

/-- What is written for a binder and its body, after the word of the form. -/
def binderText (word : List Char) (scope : List String) (a b : Term) : List Char :=
  '(' :: (word ++ ' ' :: '(' :: ((binderName scope.length).toList ++ ' ' ::
    ((a.text scope).toList ++ ')' :: ' ' ::
      ((b.text (binderName scope.length :: scope)).toList ++ [')']))))

/-- Products and abstractions, which differ in their words. -/
theorem recovers_binder {build : Term → Term → Term} {a b : Term} {word : List Char}
    (readable : (build a b).Readable A scope) (readableA : a.Readable A scope)
    (readableB : b.Readable A (binderName scope.length :: scope))
    (text : ((build a b).text scope).toList = binderText word scope a b)
    (hform : ∀ input cs rest Q, dropLayout false input = word ++ ' ' :: cs →
      Consumes A (binders T build scope) (' ' :: cs) rest Q →
      Consumes A (form T scope) input rest Q)
    (hbuild : ∀ ρ, (build a b).renumber ρ = build (a.renumber ρ) (b.renumber ρ))
    (stands : ∀ cs, dropLayout false (word ++ cs) = word ++ cs)
    (size : ((build a b).text scope).toList.length ≤ n + 1) :
    Recovers A (step T) scope (build a b) := by
  rw [text, binderText] at size
  simp only [List.length_cons, List.length_append] at size
  have ha := hT _ a proper readableA (by omega)
  have hb := hT _ b proper.binder readableB (by omega)
  refine recovers_of_consumes proper readable fun input rest here _ => ?_
  simp only [text, binderText, List.cons_append, List.nil_append, List.append_assoc] at here
  refine consumes_step_group here (hform _ _ _ _ (stands _) ?_)
  simp only [hbuild]
  exact consumes_binders proper readableA.legible ha readableB.legible hb rfl

theorem recovers_pi {a b : Term} (readable : (Term.pi a b).Readable A scope)
    (size : ((Term.pi a b).text scope).toList.length ≤ n + 1) :
    Recovers A (step T) scope (.pi a b) := by
  have readableA : a.Readable A scope :=
    ⟨readable.legible.2.1.1, readable.uncaptured.1.1, (Term.over_pi.1 readable.arities).1⟩
  have readableB : b.Readable A (binderName scope.length :: scope) :=
    ⟨readable.legible.2.1.2, readable.uncaptured.1.2, (Term.over_pi.1 readable.arities).2⟩
  have text : ((Term.pi a b).text scope).toList =
      binderText ['f', 'o', 'r', 'a', 'l', 'l'] scope a b := by
    simp [Term.text, Head.text, binderText]
  refine recovers_binder proper hT readable readableA readableB text ?_ (fun _ => rfl)
    (fun _ => rfl) size
  exact fun _ _ _ _ next h => consumes_keyword proper rfl _ (by decide) next fun _ => h

theorem recovers_lam {a b : Term} (readable : (Term.lam a b).Readable A scope)
    (size : ((Term.lam a b).text scope).toList.length ≤ n + 1) :
    Recovers A (step T) scope (.lam a b) := by
  have readableA : a.Readable A scope :=
    ⟨readable.legible.2.1.1, readable.uncaptured.1.1, (Term.over_lam.1 readable.arities).1⟩
  have readableB : b.Readable A (binderName scope.length :: scope) :=
    ⟨readable.legible.2.1.2, readable.uncaptured.1.2, (Term.over_lam.1 readable.arities).2⟩
  have text : ((Term.lam a b).text scope).toList = binderText ['f', 'u', 'n'] scope a b := by
    simp [Term.text, Head.text, binderText]
  refine recovers_binder proper hT readable readableA readableB text ?_ (fun _ => rfl)
    (fun _ => rfl) size
  exact fun _ _ _ _ next h => consumes_keyword proper rfl _ (by decide) next fun _ => h

theorem recovers_letIn {v a b : Term} (readable : (Term.ofHead (.letIn v a b)).Readable A scope)
    (size : ((Term.ofHead (.letIn v a b)).text scope).toList.length ≤ n + 1) :
    Recovers A (step T) scope (.ofHead (.letIn v a b)) := by
  obtain ⟨legibleA, legibleV, legibleB⟩ := readable.legible.2.1
  obtain ⟨freeA, freeV, freeB⟩ := readable.uncaptured.1
  obtain ⟨overA, overV, overB⟩ := Term.over_letIn.1 readable.arities
  have text : ((Term.ofHead (.letIn v a b)).text scope).toList = '(' :: (['l', 'e', 't'] ++
      ' ' :: '(' :: ((binderName scope.length).toList ++ ' ' :: ((a.text scope).toList ++
        ' ' :: ((v.text scope).toList ++ ')' :: ' ' ::
          ((b.text (binderName scope.length :: scope)).toList ++ [')']))))) := by
    simp [Term.text, Head.text]
  rw [text] at size
  simp only [List.length_cons, List.length_append] at size
  have ha := hT _ a proper ⟨legibleA, freeA, overA⟩ (by omega)
  have hv := hT _ v proper ⟨legibleV, freeV, overV⟩ (by omega)
  have hb := hT _ b proper.binder ⟨legibleB, freeB, overB⟩ (by omega)
  refine recovers_of_consumes proper readable fun input rest here _ => ?_
  simp only [text, List.cons_append, List.nil_append, List.append_assoc] at here
  refine consumes_step_group here
    (consumes_keyword proper rfl ['l', 'e', 't'] (by decide) rfl fun s => ?_)
  apply consumes_then (consumes_expect rfl)
  apply consumes_then (consumes_name (isName_binderName _))
  refine consumes_bind (ha.after_space (by simp)) fun type _ => ?_
  refine consumes_bind (hv.after_space (by simp)) fun value _ => ?_
  apply consumes_then (consumes_expect rfl)
  refine consumes_bind (hb.after_space (by simp)) fun body _ => ?_
  refine consumes_pure fun ρ hbody hvalue htype => ?_
  rw [htype, hvalue, hbody]
  rfl

theorem recovers_cast {t a : Term} (readable : (Term.ofHead (.cast t a)).Readable A scope)
    (size : ((Term.ofHead (.cast t a)).text scope).toList.length ≤ n + 1) :
    Recovers A (step T) scope (.ofHead (.cast t a)) := by
  obtain ⟨legibleT, legibleA⟩ := readable.legible.2.1
  obtain ⟨freeT, freeA⟩ := readable.uncaptured.1
  obtain ⟨overA, overT⟩ := Term.over_cast.1 readable.arities
  have text : ((Term.ofHead (.cast t a)).text scope).toList = '(' :: (['c', 'a', 's', 't'] ++
      ' ' :: ((t.text scope).toList ++ ' ' :: ((a.text scope).toList ++ [')']))) := by
    simp [Term.text, Head.text]
  rw [text] at size
  simp only [List.length_cons, List.length_append] at size
  have ht := hT _ t proper ⟨legibleT, freeT, overT⟩ (by omega)
  have ha := hT _ a proper ⟨legibleA, freeA, overA⟩ (by omega)
  refine recovers_of_consumes proper readable fun input rest here _ => ?_
  simp only [text, List.cons_append, List.nil_append, List.append_assoc] at here
  refine consumes_step_group here
    (consumes_keyword proper rfl ['c', 'a', 's', 't'] (by decide) rfl fun s => ?_)
  refine consumes_bind (ht.after_space (by simp)) fun subject _ => ?_
  refine consumes_bind (ha.after_space (by simp)) fun type _ => ?_
  refine consumes_pure fun ρ htype hsubject => ?_
  rw [htype, hsubject]
  rfl

theorem recovers_case {r s : Term} {bs : List Term}
    (readable : (Term.ofHead (.case r s bs)).Readable A scope)
    (size : ((Term.ofHead (.case r s bs)).text scope).toList.length ≤ n + 1) :
    Recovers A (step T) scope (.ofHead (.case r s bs)) := by
  obtain ⟨legibleR, legibleS, legibleBs⟩ := readable.legible.2.1
  obtain ⟨freeR, freeS, freeBs⟩ := readable.uncaptured.1
  obtain ⟨overR, overS, overBs⟩ := Term.over_case.1 readable.arities
  have text : ((Term.ofHead (.case r s bs)).text scope).toList = '(' ::
      (['m', 'a', 't', 'c', 'h'] ++ ' ' :: ((r.text scope).toList ++ ' ' ::
        ((s.text scope).toList ++ ((Term.textAll scope bs).toList ++ [')'])))) := by
    simp [Term.text, Head.text]
  rw [text] at size
  simp only [List.length_cons, List.length_append] at size
  have hr := hT _ r proper ⟨legibleR, freeR, overR⟩ (by omega)
  have hs := hT _ s proper ⟨legibleS, freeS, overS⟩ (by omega)
  have hbs (b : Term) (hb : b ∈ bs) : Recovers A T scope b := by
    have short := length_text_le_textAll scope hb
    exact hT _ b proper ⟨Term.legibleAll_iff.1 legibleBs b hb,
      Term.eachConstantAll_iff.1 freeBs b hb, overBs b hb⟩ (by omega)
  refine recovers_of_consumes proper readable fun input rest here _ => ?_
  simp only [text, List.cons_append, List.nil_append, List.append_assoc] at here
  refine consumes_step_group here
    (consumes_keyword proper rfl ['m', 'a', 't', 'c', 'h'] (by decide) rfl fun s => ?_)
  refine consumes_bind (hr.after_space (by simp)) fun motive _ => ?_
  refine consumes_bind (hs.after_space (follows_textAll (by simp) scope bs)) fun scrutinee _ => ?_
  refine consumes_bind (consumes_textAll hbs) fun branches _ => ?_
  refine consumes_pure fun ρ hbranches hscrutinee hmotive => ?_
  rw [hmotive, hscrutinee, hbranches, ← Term.renumberAll_eq_map]
  rfl

theorem recovers_fix {i : Nat} {as bs : List Term}
    (readable : (Term.ofHead (.fix i as bs)).Readable A scope)
    (size : ((Term.ofHead (.fix i as bs)).text scope).toList.length ≤ n + 1) :
    Recovers A (step T) scope (.ofHead (.fix i as bs)) := by
  obtain ⟨⟨inRange, balanced, small⟩, legibleAs, legibleBs⟩ := readable.legible.2.1
  obtain ⟨freeAs, freeBs⟩ := readable.uncaptured.1
  obtain ⟨overAs, overBs⟩ := Term.over_fix.1 readable.arities
  have text : ((Term.ofHead (.fix i as bs)).text scope).toList = '(' :: (['f', 'i', 'x'] ++
      ' ' :: (Nat.toDigits 10 i ++ ' ' :: '(' :: ((Term.typesText scope 0 as).toList ++
        ')' :: ' ' :: '(' :: ((Term.bodiesText (fixpointScope scope as.length) bs).toList ++
          [')', ')'])))) := by
    simp [Term.text, Head.text]
  rw [text] at size
  simp only [List.length_cons, List.length_append] at size
  have properBs := proper.fixpointScope as.length
  have has (a : Term) (ha : a ∈ as) : Recovers A T scope a := by
    have short := length_text_le_typesText scope ha 0
    exact hT _ a proper ⟨Term.legibleAll_iff.1 legibleAs a ha,
      Term.eachConstantAll_iff.1 freeAs a ha, overAs a ha⟩ (by omega)
  have hbs (b : Term) (hb : b ∈ bs) : Recovers A T (fixpointScope scope as.length) b := by
    have short := length_text_le_bodiesText (fixpointScope scope as.length) hb
    have legible := Term.legibleAll_iff.1 legibleBs b hb
    rw [← length_fixpointScope] at legible
    exact hT _ b properBs ⟨legible, Term.eachConstantAll_iff.1 freeBs b hb, overBs b hb⟩ (by omega)
  refine recovers_of_consumes proper readable fun input rest here _ => ?_
  simp only [text, List.cons_append, List.nil_append, List.append_assoc] at here
  refine consumes_step_group here
    (consumes_keyword proper rfl ['f', 'i', 'x'] (by decide) rfl fun s => ?_)
  refine consumes_then (consumes_number small (dropLayout_digits i _) (.inr (by simp))) ?_
  apply consumes_then (consumes_expect rfl)
  refine consumes_bind (consumes_typesText proper (Term.legibleAll_iff.1 legibleAs) has)
    fun typed known => ?_
  have length : typed.length = as.length := by
    obtain ⟨ρ, rfl⟩ := known
    simp
  have names : (typed.map (·.1)).reverse ++ scope = fixpointScope scope as.length := by
    obtain ⟨ρ, rfl⟩ := known
    rw [List.map_map, fixpointScope, List.range_eq_range', ← List.zipIdx_map_snd 0 as, List.map_map]
    rfl
  apply consumes_then (consumes_expect rfl)
  rw [length, if_pos inRange, names]
  apply consumes_then (consumes_expect rfl)
  refine consumes_bind (consumes_bodiesText detects_atClose (.inl rfl) hbs) fun bodies known' => ?_
  have length' : bodies.length = as.length := by
    obtain ⟨ρ, rfl⟩ := known'
    simpa using balanced
  apply consumes_then (consumes_expect rfl)
  rw [length', if_pos rfl]
  refine consumes_pure fun ρ hbodies htyped => ?_
  have types : typed.map (·.2) = as.map (·.renumber ρ) := by
    rw [htyped, List.map_map]
    conv_rhs => rw [← List.zipIdx_map_fst 0 as, List.map_map]
    rfl
  rw [types, hbodies, ← Term.renumberAll_eq_map, ← Term.renumberAll_eq_map]
  rfl

theorem recovers_hole {k : Nat} {xs : List Term} (readable : (Term.hole k xs).Readable A scope)
    (size : ((Term.hole k xs).text scope).toList.length ≤ n + 1) :
    Recovers A (step T) scope (.hole k xs) := by
  obtain ⟨arity, overXs⟩ := Term.over_hole.1 readable.arities
  refine recovers_of_consumes proper readable fun input rest here ends => ?_
  cases xs with
  | nil =>
    simp only [Term.text, Head.text, String.toList_append, Nat.toList_repr] at here
    refine consumes_hole arity.symm here (takeWhile_isNameChar_of_ends ends) ?_
    apply consumes_then consumes_peek
    have plain : rest.head? ≠ some '[' := by
      obtain rfl | ⟨c, cs, rfl, rfl | rfl | rfl⟩ := ends <;> simp
    rw [if_neg plain]
    exact consumes_pure fun _ => rfl
  | cons x xs =>
    have text : ((Term.hole k (x :: xs)).text scope).toList = '?' :: (Nat.toDigits 10 k ++
        '[' :: ((Term.bodiesText scope (x :: xs)).toList ++ [']'])) := by
      simp [Term.text, Head.text, Term.bodiesText]
    rw [text] at size
    simp only [List.length_cons, List.length_append] at size
    have hxs (y : Term) (hy : y ∈ x :: xs) : Recovers A T scope y := by
      have short := length_text_le_bodiesText scope hy
      exact hT _ y proper ⟨Term.legibleAll_iff.1 readable.legible.2.1 y hy,
        Term.eachConstantAll_iff.1 readable.uncaptured.1 y hy, overXs y hy⟩ (by omega)
    simp only [text, List.cons_append, List.nil_append, List.append_assoc] at here
    refine consumes_hole arity.symm here rfl ?_
    apply consumes_then consumes_peek
    rw [List.head?_cons, if_pos rfl]
    apply consumes_then consumes_advance
    refine consumes_bind (consumes_bodiesText detects_atInstanceClose (.inr rfl) hxs)
      fun ys _ => ?_
    exact consumes_then consumes_advance (consumes_pure fun _ => id)

theorem recovers_application {h : Head} {x : Term} {xs : List Term}
    (readable : (Term.mk h (x :: xs)).Readable A scope)
    (size : ((Term.mk h (x :: xs)).text scope).toList.length ≤ n + 1) :
    Recovers A (step T) scope (.mk h (x :: xs)) := by
  have legible := readable.head.legible.2.1
  have text : ((Term.mk h (x :: xs)).text scope).toList = '(' :: ((h.text scope).toList ++
      ((Term.textAll scope (x :: xs)).toList ++ [')'])) := by
    simp [Term.text, Term.textAll]
  rw [text] at size
  simp only [List.length_cons, List.length_append] at size
  have hh : Recovers A T scope (.ofHead h) := hT _ _ proper readable.head (by
    rw [Term.text]
    omega)
  have hxs (y : Term) (hy : y ∈ x :: xs) : Recovers A T scope y := by
    have short := length_text_le_textAll scope hy
    exact hT _ y proper (readable.args hy) (by omega)
  refine recovers_of_consumes proper readable fun input rest here _ => ?_
  simp only [text, List.cons_append, List.nil_append, List.append_assoc] at here
  refine consumes_step_group here ?_
  have applied : Consumes A (application T scope)
      ((h.text scope).toList ++ ((Term.textAll scope (x :: xs)).toList ++ ')' :: rest))
      (')' :: rest) fun ρ a => a = (Term.mk h (x :: xs)).renumber ρ := by
    refine consumes_bind (hh.consumes _ _ (hh.dropLayout _)
      (.inr (follows_textAll (by simp) scope _))) fun head _ => ?_
    refine consumes_bind (consumes_textAll hxs) fun args _ => ?_
    refine consumes_pure fun ρ hargs hhead => ?_
    rw [hargs, hhead, Term.renumber_mk, Term.renumber_mk]
    rfl
  have stands := hh.dropLayout ((Term.textAll scope (x :: xs)).toList ++ ')' :: rest)
  rcases h.text_cases proper legible with ⟨name, leads⟩ | ⟨c, cs, first, sign⟩
  · refine consumes_form_name name stands ?_
    have spaced : (Term.textAll scope (x :: xs)).toList ++ ')' :: rest =
        ' ' :: ((x.text scope).toList ++ ((Term.textAll scope xs).toList ++ ')' :: rest)) := by
      simp [Term.textAll]
    rw [spaced] at applied ⊢
    exact consumes_wordForm_application name (leads (readable.legible.1 (by simp))) applied
  · rw [Term.text, first, List.cons_append] at stands
    rw [first, List.cons_append] at applied ⊢
    exact consumes_form_sign sign stands applied

/-- What a step reads back, if the terms inside are read back, whose texts are shorter. -/
theorem recovers_step {t : Term} (readable : t.Readable A scope)
    (size : (t.text scope).toList.length ≤ n + 1) : Recovers A (step T) scope t := by
  obtain ⟨h, xs⟩ := t
  cases xs with
  | cons x xs => exact recovers_application proper hT readable size
  | nil =>
    cases h with
    | rel i => exact recovers_rel proper readable
    | sort m => exact recovers_sort proper readable
    | const c => exact recovers_const proper readable
    | hole k xs => exact recovers_hole proper hT readable size
    | pi a b => exact recovers_pi proper hT readable size
    | lam a b => exact recovers_lam proper hT readable size
    | letIn v a b => exact recovers_letIn proper hT readable size
    | cast t a => exact recovers_cast proper hT readable size
    | case r s bs => exact recovers_case proper hT readable size
    | fix i as bs => exact recovers_fix proper hT readable size

end

theorem recovers_termWithin (n : Nat) : ∀ scope t, ProperScope scope → t.Readable A scope →
    (t.text scope).toList.length ≤ n → Recovers A (termWithin n) scope t := by
  induction n with
  | zero =>
    intro scope t proper readable size
    obtain ⟨c, cs, text, _⟩ := t.opening proper readable.legible
    rw [text, List.length_cons] at size
    omega
  | succ n ih => exact fun scope t proper readable size => recovers_step proper ih readable size

theorem consumes_wholeTerm {t : Term} (readable : t.Readable A []) :
    Consumes A wholeTerm (t.text []).toList [] fun ρ a => a = t.renumber ρ := by
  refine consumes_get fun s here => ?_
  rw [here]
  have recovers := recovers_termWithin (A := A) ((t.text []).toList.length + 1) [] t
    properScope_nil readable (Nat.le_succ _)
  have stands := recovers.dropLayout []
  rw [List.append_nil] at stands
  refine consumes_bind (recovers.consumes _ [] (by rwa [List.append_nil]) (.inl rfl))
    fun a _ => ?_
  apply consumes_then consumes_skipLayout
  refine consumes_get fun s' done => ?_
  rw [done]
  exact consumes_pure fun _ => id

end

theorem numbering_fresh (A : Nat → Nat) (input : List Char) (s : Store) :
    Numbering A { rest := input, reader := {}, store := s } :=
  ⟨fun _ _ known => (nomatch known), fun _ _ _ known => (nomatch known)⟩

/-- The holes that the reader does not know can get numbers that no hole of the store has. -/
theorem Numbering.exists_injective {A : Nat → Nat} {s : Reading} (numbering : Numbering A s) :
    ∃ ρ : Nat → Nat, ρ.Injective ∧ Numbers s.reader ρ := by
  let ρ (k : Nat) : Nat := (s.reader.hole? k.repr).getD (s.store.slots.length + k)
  have cases (k : Nat) : s.reader.hole? k.repr = some (ρ k) ∧ ρ k < s.store.slots.length ∨
      ρ k = s.store.slots.length + k := by
    cases known : s.reader.hole? k.repr with
    | none => exact .inr (by simp [ρ, known])
    | some l =>
      obtain ⟨d, hd, _⟩ := numbering.declared k l known
      have value : ρ k = l := by simp [ρ, known]
      rw [value]
      exact .inl ⟨rfl, Store.lt_of_hole? hd⟩
  refine ⟨ρ, fun k k' same => ?_, fun k l known => by simp [ρ, known]⟩
  rcases cases k with ⟨known, old⟩ | new <;> rcases cases k' with ⟨known', old'⟩ | new'
  · exact numbering.distinct k k' (ρ k) known (same ▸ known')
  · omega
  · omega
  · omega

end Reading

/-- The text of a term is read back as the term with other numbers for its holes, if no constant is
captured. -/
theorem Reader.read_of_readable {A : Nat → Nat} {t : Term} (readable : t.Readable A [])
    (s : Store) : ∃ ρ : Nat → Nat, ρ.Injective ∧
      (({} : Reader).read s (t.text []).toList).1 = .ok (t.renumber ρ) := by
  obtain ⟨a, s', run, _, numbering, known⟩ := Reading.consumes_wholeTerm readable
    { rest := (t.text []).toList, reader := {}, store := s } rfl (Reading.numbering_fresh A _ s)
  obtain ⟨ρ, injective, numbers⟩ := numbering.exists_injective
  refine ⟨ρ, injective, ?_⟩
  rw [Reader.read, EStateM.run, run, (known ρ numbers).2]

/-- What is written is read back. The text of a term, whose numbers and names are such that the
reader can make them, whose holes each have one arity and whose constants are named like no binder,
is read by a new reader to its end, and gives the term with other numbers for its holes, no two
holes getting the same. -/
theorem Reader.read_text {A : Nat → Nat} {t : Term} (legible : t.Legible 0)
    (constants : t.EachConstant (fun _ c => c ∉ formWords ∧ ¬IsGenerated c) [])
    (arities : t.Over fun k n => n = A k) (s : Store) :
    ∃ ρ : Nat → Nat, ρ.Injective ∧
      (({} : Reader).read s (t.text []).toList).1 = .ok (t.renumber ρ) ∧
      (t.holes = [] → (({} : Reader).read s (t.text []).toList).1 = .ok t) := by
  have ungenerated : t.EachConstant (fun _ c => ¬IsGenerated c) [] :=
    Term.EachConstant.imp (I := fun _ => True) (fun _ _ => trivial) (fun _ _ => trivial)
      (fun _ _ _ h => h.2) t [] trivial constants
  have readable : t.Readable A [] := ⟨legible, Term.uncaptured_of_ungenerated ungenerated, arities⟩
  obtain ⟨ρ, injective, read⟩ := Reader.read_of_readable readable s
  refine ⟨ρ, injective, read, fun closed => ?_⟩
  rw [read, Term.renumber_eq_self (by simp [closed])]

/-- Two fixpoints and a hole that occurs twice. -/
theorem Reader.read_text_fixpoint :
    let t : Term := .mk (.fix 1 [.const "N", .pi (.const "N") (.sort 2)]
      [.lam (.rel 4) (.rel 2), .hole 7 [.rel 0, .rel 3]]) [.rel 1, .hole 7 [.const "N", .sort 0]]
    (t.Legible 0 ∧ t.EachConstant (fun _ c => c ∉ formWords ∧ ¬IsGenerated c) [] ∧
      t.Over fun _ n => n = 2) ∧
    t.text [] = "((fix 1 ((f0 N) (f1 (forall (x0 N) (Sort 2)))) ((fun (x2 #2) f0) ?7[f1 #1])) " ++
      "#1 ?7[N Prop])" ∧
    ∃ ρ : Nat → Nat, ρ.Injective ∧
      (({} : Reader).read .empty (t.text []).toList).1 = .ok (t.renumber ρ) := by
  intro t
  have plain : "N" ∉ formWords ∧ ¬IsGenerated "N" :=
    ⟨by decide, fun generated => (digits_of_isGenerated generated).1 (by decide)⟩
  have legible : t.Legible 0 := by
    simp [t, Term.Legible, Term.LegibleAll, Head.Legible, Head.MayLead, Text.bound32, maxFreeIndex]
    decide
  have constants : t.EachConstant (fun _ c => c ∉ formWords ∧ ¬IsGenerated c) [] := by
    simp only [t, Term.EachConstant, Term.EachConstantAll, Head.EachConstant, plain]
    simp
  have arities : t.Over fun _ n => n = 2 := by
    simp [t, Term.Over, Term.Every, Term.EveryAll, Head.Every]
  obtain ⟨ρ, injective, read, _⟩ := Reader.read_text legible constants arities .empty
  exact ⟨⟨legible, constants, arities⟩, by rfl, ρ, injective, read⟩

end KeyedMatching
