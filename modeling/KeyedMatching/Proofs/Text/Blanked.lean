import KeyedMatching.Proofs.Text.Consumed
import KeyedMatching.Proofs.Text.Returned

/-!
# Texts without their comments

A comment is layout where a text is read, but the look-ahead that finds the last item of a product
or an abstraction takes the characters of a comment for characters of items.

* `Reading.blanked`: a text with a space for each comment;
* `Reading.dropLayout_blanked`, `Reading.takeWhile_blanked`: reading goes on alike in it;
* `Reading.quiet`: no comment in a text leads the look-ahead astray;
* `Reading.Moves i j`: on the way from one place of a text to another, `i` open groups are closed
  and `j` others are opened, and what is quiet stays so;
* `Reading.lastItem?_blanked`: at a quiet place the look-ahead finds the same, or the form is not
  closed.
-/

namespace KeyedMatching

namespace Reading

/-- A text with a space for each comment. The flag tells whether the start is inside a comment,
whose space stands already. -/
def blanked : Bool → List Char → List Char
  | _, [] => []
  | true, c :: cs => if c == '\n' then c :: blanked false cs else blanked true cs
  | false, c :: cs => if c == ';' then ' ' :: blanked true cs else c :: blanked false cs

/-- Does a character open a group for the look-ahead? -/
def opensGroup (c : Char) : Bool :=
  c == '(' || c == '['

/-- Does a character close a group for the look-ahead? -/
def closesGroup (c : Char) : Bool :=
  c == ')' || c == ']'

/-- A comment, given by the text after its semicolon, has no character of a group in it. -/
def Ungrouped (cs : List Char) : Prop :=
  ∀ c ∈ cs.takeWhile (· != '\n'), opensGroup c = false ∧ closesGroup c = false

instance (cs : List Char) : Decidable (Ungrouped cs) :=
  List.decidableBAll _ _

/-- Nor does it stand before a closing parenthesis. -/
def Harmless (cs : List Char) : Prop :=
  Ungrouped cs ∧ (dropLayout true cs).head? ≠ some ')'

instance (cs : List Char) : Decidable (Harmless cs) :=
  inferInstanceAs (Decidable (_ ∧ _))

/-- Up to the end of the form that a text goes on with, `level` groups being open in it, has no
comment a character of a group in it, and does none stand before the end of the form? -/
def quietInside : Bool → Nat → List Char → Bool
  | _, _, [] => true
  | true, level, c :: cs => quietInside (c != '\n') level cs
  | false, level, c :: cs =>
    if c == ';' then
      (if level = 0 then decide (Harmless cs) else decide (Ungrouped cs)) &&
        quietInside true level cs
    else if opensGroup c then quietInside false (level + 1) cs
    else if closesGroup c then level == 0 || quietInside false (level - 1) cs
    else quietInside false level cs

/-- The words of the forms in which the look-ahead is used. -/
def binderWords : List String :=
  ["fun", "forall"]

/-- Does no comment in a text lead the look-ahead astray? In a product or an abstraction it has no
character of a group in it and does not stand before the end. -/
def quiet : Bool → List Char → Bool
  | _, [] => true
  | true, c :: cs => quiet (c != '\n') cs
  | false, c :: cs =>
    if c == ';' then quiet true cs
    else if c == '(' && binderWords.contains (nextWord cs) then
      quietInside false 0 cs && quiet false cs
    else quiet false cs

/-! ## The same characters -/

theorem dropLayout_blanked (inside : Bool) (cs : List Char) :
    dropLayout false (blanked inside cs) = blanked false (dropLayout inside cs) := by
  fun_induction dropLayout inside cs with
  | case1 inside => cases inside <;> rfl
  | case2 c cs ih =>
    simp only [blanked]
    by_cases newline : c = '\n'
    · subst newline
      simpa [dropLayout, Text.isPlainBlank] using ih
    · have stays : (c != '\n') = true := by simpa using newline
      rw [stays] at ih ⊢
      simpa [newline] using ih
  | case3 c cs blank ih =>
    have text : (c == ';') = false := by
      rw [beq_eq_false_iff_ne]
      rintro rfl
      simp [Text.isPlainBlank] at blank
    simpa [blanked, text, dropLayout, blank] using ih
  | case4 c cs blank comment ih => simpa [blanked, comment, dropLayout, Text.isPlainBlank] using ih
  | case5 c cs blank comment => simp [blanked, dropLayout, blank, comment]

section
variable {p : Char → Bool} (comment : p ';' = false) (space : p ' ' = false)
include comment space

theorem takeWhile_blanked (cs : List Char) :
    (blanked false cs).takeWhile p = cs.takeWhile p := by
  induction cs with
  | nil => rfl
  | cons c cs ih =>
    rw [blanked]
    split
    · next same =>
      rw [eq_of_beq same, List.takeWhile_cons_of_neg (by simp [space]),
        List.takeWhile_cons_of_neg (by simp [comment])]
    · rw [List.takeWhile_cons, List.takeWhile_cons, ih]

theorem dropWhile_blanked (cs : List Char) :
    (blanked false cs).dropWhile p = blanked false (cs.dropWhile p) := by
  induction cs with
  | nil => rfl
  | cons c cs ih =>
    rw [blanked]
    split
    · next same =>
      rw [eq_of_beq same, List.dropWhile_cons_of_neg (by simp [space]),
        List.dropWhile_cons_of_neg (by simp [comment])]
      rfl
    · next other =>
      rw [List.dropWhile_cons, List.dropWhile_cons]
      split
      · exact ih
      · rw [blanked, if_neg other]

end

/-- Where a text does not start with a comment, it starts alike without comments. -/
theorem blanked_cons {c : Char} (text : c ≠ ';') (cs : List Char) :
    blanked false (c :: cs) = c :: blanked false cs := by
  rw [blanked, if_neg (by simpa using text)]

/-- After layout there is no comment. -/
theorem ne_of_head?_dropLayout {inside : Bool} {cs : List Char} {c : Char}
    (first : (dropLayout inside cs).head? = some c) : Text.isPlainBlank c = false ∧ c ≠ ';' := by
  fun_induction dropLayout inside cs with
  | case1 => cases first
  | case2 c cs ih => exact ih first
  | case3 c cs blank ih => exact ih first
  | case4 c cs blank comment ih => exact ih first
  | case5 c cs blank comment =>
    obtain rfl := Option.some.inj first
    exact ⟨by simpa using blank, by simpa using comment⟩

theorem head?_blanked {cs : List Char} (text : cs.head? ≠ some ';') :
    (blanked false cs).head? = cs.head? := by
  cases cs with
  | nil => rfl
  | cons c cs => rw [blanked_cons (by simpa using text), List.head?_cons, List.head?_cons]

theorem isEmpty_blanked (cs : List Char) : (blanked false cs).isEmpty = cs.isEmpty := by
  cases cs with
  | nil => rfl
  | cons c cs =>
    rw [blanked]
    split <;> rfl

/-- Where a form starts whose word has the look-ahead used in it, the comments in it are harmless if
the text is quiet. -/
theorem quietInside_of_quiet {cs : List Char} (h : quiet false ('(' :: cs) = true)
    (binds : binderWords.contains (nextWord cs) = true) : quietInside false 0 cs = true := by
  rw [quiet, if_neg (by decide), if_pos (by rw [binds]; rfl)] at h
  exact (Bool.and_eq_true_iff.1 h).1

/-! ## Moves -/

/-- On the way from a place of a text to a later one, `i` open groups are closed and `j` others are
opened: what is quiet before is so after it, and no text gets longer. -/
structure Moves (i j : Nat) (cs cs' : List Char) : Prop where
  inside : ∀ level, quietInside false (i + level) cs = true →
    quietInside false (j + level) cs' = true
  quiet : quiet false cs = true → quiet false cs' = true
  length_le : cs'.length ≤ cs.length
  blanked_le : (blanked false cs').length ≤ (blanked false cs).length
  blanked_lt : cs'.length < cs.length → (blanked false cs').length < (blanked false cs).length

theorem Moves.refl (i : Nat) (cs : List Char) : Moves i i cs cs :=
  ⟨fun _ => id, id, Nat.le_refl _, Nat.le_refl _, fun less => absurd less (Nat.lt_irrefl _)⟩

theorem Moves.trans {i j k : Nat} {cs cs₁ cs' : List Char} (h : Moves i j cs cs₁)
    (h' : Moves j k cs₁ cs') : Moves i k cs cs' where
  inside level := h'.inside level ∘ h.inside level
  quiet := h'.quiet ∘ h.quiet
  length_le := Nat.le_trans h'.length_le h.length_le
  blanked_le := Nat.le_trans h'.blanked_le h.blanked_le
  blanked_lt less := by
    have := h.blanked_le
    have := h'.blanked_le
    rcases Nat.lt_or_ge cs₁.length cs.length with first | _
    · have := h.blanked_lt first
      omega
    · have := h'.blanked_lt (by omega)
      omega

/-- Further groups may be open. -/
theorem Moves.under {i j : Nat} {cs cs' : List Char} (h : Moves i j cs cs') (k : Nat) :
    Moves (i + k) (j + k) cs cs' :=
  { h with
    inside := fun level inside => by
      rw [Nat.add_assoc] at inside ⊢
      exact h.inside (k + level) inside }

/-- A move over a character that is no semicolon. -/
theorem Moves.cons {i j : Nat} {c : Char} {cs : List Char} (text : c ≠ ';')
    (inside : ∀ level, quietInside false (i + level) (c :: cs) = true →
      quietInside false (j + level) cs = true) :
    Moves i j (c :: cs) cs where
  inside := inside
  quiet h := by
    rw [Reading.quiet, if_neg (by simpa using text)] at h
    split at h
    · exact (Bool.and_eq_true_iff.1 h).2
    · exact h
  length_le := by simp
  blanked_le := by simp [blanked_cons text]
  blanked_lt _ := by simp [blanked_cons text]

theorem moves_open {c : Char} (opens : opensGroup c = true) (i : Nat) (cs : List Char) :
    Moves i (i + 1) (c :: cs) cs := by
  have text : c ≠ ';' := by
    rintro rfl
    cases opens
  refine .cons text fun level h => ?_
  rwa [quietInside, if_neg (by simpa using text), if_pos opens, Nat.add_right_comm] at h

theorem moves_close {c : Char} (closes : closesGroup c = true) (i : Nat) (cs : List Char) :
    Moves (i + 1) i (c :: cs) cs := by
  have text : c ≠ ';' := by
    rintro rfl
    cases closes
  have other : opensGroup c = false := by
    simp only [closesGroup, Bool.or_eq_true, beq_iff_eq] at closes
    rcases closes with rfl | rfl <;> rfl
  refine .cons text fun level h => ?_
  rw [quietInside, if_neg (by simpa using text), if_neg (by simp [other]), if_pos closes,
    Nat.add_right_comm] at h
  simpa using h

/-- A character that is neither of a group nor of a comment. -/
def isPlain (c : Char) : Bool :=
  c != ';' && !opensGroup c && !closesGroup c

theorem moves_plain {c : Char} (plain : isPlain c = true) (i : Nat) (cs : List Char) :
    Moves i i (c :: cs) cs := by
  simp only [isPlain, Bool.and_eq_true, bne_iff_ne, Bool.not_eq_true'] at plain
  obtain ⟨⟨text, opens⟩, closes⟩ := plain
  refine .cons text fun level h => ?_
  rwa [quietInside, if_neg (by simpa using text), if_neg (by simp [opens]),
    if_neg (by simp [closes])] at h

theorem moves_dropWhile {p : Char → Bool} (plain : ∀ c, p c = true → isPlain c = true) (i : Nat)
    (cs : List Char) : Moves i i cs (cs.dropWhile p) := by
  induction cs with
  | nil => exact .refl i []
  | cons c cs ih =>
    rw [List.dropWhile_cons]
    split
    · next h => exact (moves_plain (plain c h) i cs).trans ih
    · exact .refl i _

theorem isPlain_of_isPlainBlank (c : Char) (blank : Text.isPlainBlank c = true) :
    isPlain c = true := by
  simp only [Text.isPlainBlank, Bool.or_eq_true, beq_iff_eq] at blank
  obtain (((rfl | rfl) | rfl) | rfl) | rfl := blank <;> decide

theorem isPlain_of_isNameChar (c : Char) (name : isNameChar c = true) : isPlain c = true := by
  have other (d : Char) (sign : isNameChar d = false) : (c == d) = false := by
    rw [beq_eq_false_iff_ne]
    rintro rfl
    rw [sign] at name
    cases name
  simp [isPlain, opensGroup, closesGroup, bne, other ';' (by decide), other '(' (by decide),
    other '[' (by decide), other ')' (by decide), other ']' (by decide)]

theorem quietInside_dropLayout {inside : Bool} {i : Nat} {cs : List Char}
    (h : quietInside inside i cs = true) : quietInside false i (dropLayout inside cs) = true := by
  fun_induction dropLayout inside cs with
  | case1 => rfl
  | case2 c cs ih => exact ih h
  | case3 c cs blank ih =>
    exact ih ((moves_plain (isPlain_of_isPlainBlank c blank) i cs).inside 0 h)
  | case4 c cs blank comment ih =>
    rw [quietInside, if_pos comment] at h
    exact ih (Bool.and_eq_true_iff.1 h).2
  | case5 => exact h

theorem quiet_dropLayout {inside : Bool} {cs : List Char} (h : quiet inside cs = true) :
    quiet false (dropLayout inside cs) = true := by
  fun_induction dropLayout inside cs with
  | case1 => rfl
  | case2 c cs ih => exact ih h
  | case3 c cs blank ih => exact ih ((moves_plain (isPlain_of_isPlainBlank c blank) 0 cs).quiet h)
  | case4 c cs blank comment ih =>
    rw [quiet, if_pos comment] at h
    exact ih h
  | case5 => exact h

theorem moves_dropLayout (i : Nat) (cs : List Char) : Moves i i cs (dropLayout false cs) where
  inside _ := quietInside_dropLayout
  quiet := quiet_dropLayout
  length_le := length_dropLayout_le false cs
  blanked_le := by
    rw [← dropLayout_blanked]
    exact length_dropLayout_le false _
  blanked_lt less := by
    cases cs with
    | nil => cases less
    | cons c cs =>
      rw [← dropLayout_blanked, blanked]
      split
      · exact Nat.lt_succ_of_le (length_dropLayout_le false (blanked true cs))
      · next text =>
        rw [dropLayout] at less ⊢
        split
        · exact Nat.lt_succ_of_le (length_dropLayout_le false _)
        · next blank =>
          rw [if_neg blank, if_neg text] at less
          exact absurd less (Nat.lt_irrefl _)

/-! ## The look-ahead -/

/-- Is the item at the start of a text the last one of its form? Nothing tells if the text ends with
the item. -/
def lastItem? (cs : List Char) : Option Bool :=
  (itemEnd? 0 cs).map fun after => (after.dropWhile Text.isPlainBlank).head? = some ')'

theorem not_mem_blanked (inside : Bool) (cs : List Char) : ';' ∉ blanked inside cs := by
  fun_induction blanked inside cs with
  | case1 => simp
  | case2 c cs newline ih => simpa [eq_of_beq newline] using ih
  | case3 c cs newline ih => exact ih
  | case4 c cs comment ih => simpa using ih
  | case5 c cs comment ih =>
    have text : c ≠ ';' := by simpa using comment
    simpa [ih] using text.symm

theorem dropLayout_eq_dropWhile {cs : List Char} (h : ';' ∉ cs) :
    dropLayout false cs = cs.dropWhile Text.isPlainBlank := by
  induction cs with
  | nil => rfl
  | cons c cs ih =>
    obtain ⟨first, rest⟩ := not_or.1 (mt List.mem_cons.2 h)
    have text : (c == ';') = false := beq_eq_false_iff_ne.2 (Ne.symm first)
    rw [dropLayout, List.dropWhile_cons, ih rest, text]
    rfl

/-- Without comments the blanks are all the layout. -/
theorem head?_dropWhile_isPlainBlank_blanked (inside : Bool) (cs : List Char) :
    ((blanked inside cs).dropWhile Text.isPlainBlank).head? = (dropLayout inside cs).head? := by
  rw [← dropLayout_eq_dropWhile (not_mem_blanked inside cs), dropLayout_blanked]
  exact head?_blanked fun first => (ne_of_head?_dropLayout first).2 rfl

section
variable {c : Char} {cs : List Char}

theorem Ungrouped.plain (h : Ungrouped (c :: cs)) (stays : c ≠ '\n') :
    opensGroup c = false ∧ closesGroup c = false :=
  h c (by simp [stays])

theorem Ungrouped.tail (h : Ungrouped (c :: cs)) (stays : c ≠ '\n') : Ungrouped cs :=
  fun d hd => h d (by simp [stays, hd])

theorem Harmless.tail (h : Harmless (c :: cs)) (stays : c ≠ '\n') : Harmless cs := by
  have on : (c != '\n') = true := by simpa using stays
  obtain ⟨plain, last⟩ := h
  rw [dropLayout, on] at last
  exact ⟨plain.tail stays, last⟩

/-- No group ends after the blanks at the start of a text, if none does after the layout. -/
theorem head?_dropWhile_ne (h : (dropLayout false cs).head? ≠ some ')') :
    (cs.dropWhile Text.isPlainBlank).head? ≠ some ')' := by
  induction cs with
  | nil => simp
  | cons c cs ih =>
    rw [dropLayout] at h
    rw [List.dropWhile_cons]
    split at h
    · next blank =>
      rw [if_pos blank]
      exact ih h
    · next blank =>
      rw [if_neg blank]
      split at h
      · next comment => simp [eq_of_beq comment]
      · exact h

/-- No group ends after the blanks at the start of a harmless comment or of its last part. -/
theorem Harmless.head?_ne (h : Harmless cs) :
    (cs.dropWhile Text.isPlainBlank).head? ≠ some ')' := by
  induction cs with
  | nil => simp
  | cons c cs ih =>
    by_cases newline : c = '\n'
    · subst newline
      have after : (dropLayout false cs).head? ≠ some ')' := h.2
      exact head?_dropWhile_ne after
    · rw [List.dropWhile_cons]
      split
      · exact ih (h.tail newline)
      · rintro first
        rw [Option.some.inj first] at h
        exact absurd (h.1.plain (by decide)).2 (by decide)

theorem itemEnd?_cons (depth : Nat) : itemEnd? depth (c :: cs) =
    if opensGroup c then itemEnd? (depth + 1) cs
    else if closesGroup c then
      match depth with
      | 0 => some (c :: cs)
      | 1 => some cs
      | depth + 1 => itemEnd? depth cs
    else if depth == 0 && Text.isPlainBlank c then some (c :: cs)
    else itemEnd? depth cs := by
  cases depth <;> rfl

/-- Within a harmless comment nothing is the last item of a form. -/
theorem Harmless.lastItem?_ne (h : Harmless cs) : lastItem? cs ≠ some true := by
  induction cs with
  | nil => simp [lastItem?, itemEnd?]
  | cons c cs ih =>
    have last := h.head?_ne
    by_cases blank : Text.isPlainBlank c = true
    · have plain := isPlain_of_isPlainBlank c blank
      simp only [isPlain, Bool.and_eq_true, Bool.not_eq_true'] at plain
      simpa [lastItem?, itemEnd?_cons, plain.1.2, plain.2, blank] using last
    · have stays : c ≠ '\n' := by
        rintro rfl
        exact blank (by decide)
      obtain ⟨opens, closes⟩ := h.1.plain stays
      simpa [lastItem?, itemEnd?_cons, opens, closes, blank] using ih (h.tail stays)

theorem harmless_of_quietInside (h : quietInside false 0 (';' :: cs) = true) : Harmless cs := by
  simp only [quietInside, beq_self_eq_true, if_true, Bool.and_eq_true, decide_eq_true_eq] at h
  exact h.1

theorem ungrouped_of_quietInside {i : Nat} (h : quietInside false i (';' :: cs) = true) :
    Ungrouped cs ∧ quietInside true i cs = true := by
  rw [quietInside, if_pos (by rfl)] at h
  split at h
  · simp only [Bool.and_eq_true, decide_eq_true_eq] at h
    exact ⟨h.1.1, h.2⟩
  · simpa using h

/-- After an item it is the same whether the form ends. -/
theorem head?_dropWhile_blanked (quiet : quietInside false 0 cs = true) :
    ((blanked false cs).dropWhile Text.isPlainBlank).head? = some ')' ↔
      (cs.dropWhile Text.isPlainBlank).head? = some ')' := by
  induction cs with
  | nil => rfl
  | cons c cs ih =>
    by_cases comment : c = ';'
    · subst comment
      rw [head?_dropWhile_isPlainBlank_blanked]
      exact iff_of_false (harmless_of_quietInside quiet).2 (by simp [Text.isPlainBlank])
    · rw [blanked_cons comment, List.dropWhile_cons, List.dropWhile_cons]
      split
      · next blank => exact ih ((moves_plain (isPlain_of_isPlainBlank c blank) 0 cs).inside 0 quiet)
      · rfl

/-- The end of a group is found alike. -/
theorem itemEnd?_blanked {inside : Bool} {k : Nat}
    (quiet : quietInside inside (k + 1) cs = true) (ungrouped : inside = true → Ungrouped cs) :
    itemEnd? (k + 1) (blanked inside cs) = (itemEnd? (k + 1) cs).map (blanked false) ∧
      ∀ after ∈ itemEnd? (k + 1) cs, quietInside false 0 after = true := by
  induction cs generalizing inside k with
  | nil => cases inside <;> exact ⟨rfl, by simp [itemEnd?]⟩
  | cons c cs ih =>
    cases inside with
    | true =>
      by_cases newline : c = '\n'
      · subst newline
        have after : quietInside false (k + 1) cs = true := quiet
        exact ih after (by simp)
      · have stays : (c != '\n') = true := by simpa using newline
        have own := ungrouped rfl
        obtain ⟨opens, closes⟩ := own.plain newline
        rw [quietInside, stays] at quiet
        simpa [blanked, newline, itemEnd?_cons, opens, closes] using
          ih quiet fun _ => own.tail newline
    | false =>
      by_cases comment : c = ';'
      · subst comment
        obtain ⟨own, quiet⟩ := ungrouped_of_quietInside quiet
        exact ih quiet fun _ => own
      · rw [blanked_cons comment, itemEnd?_cons, itemEnd?_cons]
        split
        · next opens => exact ih ((moves_open opens _ cs).inside 0 quiet) (by simp)
        · split
          · next closes =>
            have quiet := (moves_close closes k cs).inside 0 quiet
            cases k with
            | zero => exact ⟨rfl, by simpa using quiet⟩
            | succ k => exact ih quiet (by simp)
          · next opens closes =>
            have plain : isPlain c = true := by simp [isPlain, comment, opens, closes]
            simpa using ih ((moves_plain plain _ cs).inside 0 quiet) (by simp)

/-- At a quiet place the look-ahead finds the same, unless nothing but a comment is left. -/
theorem lastItem?_blanked (quiet : quietInside false 0 cs = true) :
    lastItem? (blanked false cs) = lastItem? cs ∨
      lastItem? (blanked false cs) = some false ∧ lastItem? cs = none ∧ cs.head? ≠ some '(' := by
  -- Where both scans come to an end, it is the same whether the form ends there.
  have same {x y : Option (List Char)} (hx : x = y.map (blanked false))
      (hy : ∀ after ∈ y, quietInside false 0 after = true) :
      x.map (fun after => decide ((after.dropWhile Text.isPlainBlank).head? = some ')')) =
        y.map fun after => decide ((after.dropWhile Text.isPlainBlank).head? = some ')') := by
    rw [hx, Option.map_map]
    exact Option.map_congr fun after h => decide_eq_decide.2 (head?_dropWhile_blanked (hy after h))
  induction cs with
  | nil => exact .inl rfl
  | cons c cs ih =>
    by_cases comment : c = ';'
    · subst comment
      have harmless := harmless_of_quietInside quiet
      have blanks : lastItem? (blanked false (';' :: cs)) = some false := by
        have first := head?_dropWhile_isPlainBlank_blanked true cs
        simpa [lastItem?, itemEnd?, blanked, Text.isPlainBlank] using first ▸ harmless.2
      have through : lastItem? (';' :: cs) = lastItem? cs := rfl
      rw [blanks, through]
      cases last : lastItem? cs with
      | none => exact .inr ⟨rfl, rfl, by simp⟩
      | some b =>
        cases b with
        | false => exact .inl rfl
        | true => exact absurd last harmless.lastItem?_ne
    · rw [blanked_cons comment, lastItem?, lastItem?, itemEnd?_cons, itemEnd?_cons]
      split
      · next opens =>
        obtain ⟨found, after⟩ := itemEnd?_blanked ((moves_open opens 0 cs).inside 0 quiet) (by simp)
        exact .inl (same found after)
      · next opens =>
        have here : some (c :: blanked false cs) = (some (c :: cs)).map (blanked false) := by
          rw [Option.map_some, blanked_cons comment]
        split
        · exact .inl (same here (by simpa using quiet))
        · next closes =>
          split
          · exact .inl (same here (by simpa using quiet))
          · have plain : isPlain c = true := by simp [isPlain, comment, opens, closes]
            refine (ih ((moves_plain plain 0 cs).inside 0 quiet)).imp_right fun h => ?_
            refine ⟨h.1, h.2.1, fun first => opens ?_⟩
            rw [Option.some.inj first]
            rfl

end

end Reading

end KeyedMatching
