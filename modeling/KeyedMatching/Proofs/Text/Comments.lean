import KeyedMatching.Proofs.Text.Blanked

/-!
# Reading without comments

A text is read alongside the same text with a space for each comment. Where all comments in products
and abstractions are harmless, both readings go the same way.

* `Reading.Alike i j x y s A`: at the state `s`, and without comments, `x` and `y` come to the same,
  or both fail; there is one rule for each way in which steps are put together;
* `Reading.Fits n m s`: what is left of a text is quiet, and shorter than `n` and, without comments,
  than `m`;
* `Reading.alike_step`: a step reads alike, if the terms inside are read alike;
* `Reader.read_blanked`: so do whole texts;
* `Reader.comment_read_as_items`: without the condition they need not.
-/

namespace KeyedMatching

namespace Reading

/-- The same state with a space for each comment of what is left of the text. -/
def bare (s : Reading) : Reading :=
  { s with rest := blanked false s.rest }

section
variable {α β : Type} {i j k : Nat}

/-- Two runs come to the same result and the same place but for the comments, or both fail with the
same names and holes. From `cs` on, `i` groups are closed and `j` opened. -/
def Agree (i j : Nat) (cs : List Char) (A : α → Reading → Prop) :
    EStateM.Result ReadFailure Reading α → EStateM.Result ReadFailure Reading α → Prop
  | .ok a s, p => p = .ok a s.bare ∧ Moves i j cs s.rest ∧ A a s
  | .error _ s, p => ∃ e s', p = .error e s' ∧ s'.reader = s.reader ∧ s'.store = s.store

/-- `x` at a state and `y` at the same state without comments agree. -/
def Alike (i j : Nat) (x y : ReadM α) (s : Reading) (A : α → Reading → Prop) : Prop :=
  Agree i j s.rest A (x s) (y s.bare)

section
variable {x y : ReadM α} {s : Reading} {A B : α → Reading → Prop}

theorem Agree.imp {i' j' : Nat} {cs cs' : List Char} {p q : EStateM.Result ReadFailure Reading α}
    (h : Agree i j cs A p q)
    (imp : ∀ a s, Moves i j cs s.rest → A a s → Moves i' j' cs' s.rest ∧ B a s) :
    Agree i' j' cs' B p q := by
  cases p with
  | ok a s => exact ⟨h.1, imp a s h.2.1 h.2.2⟩
  | error e s => exact h

theorem Agree.after {p q : EStateM.Result ReadFailure Reading α} {cs cs' : List Char}
    (moves : Moves i j cs cs') (h : Agree j k cs' A p q) : Agree i k cs A p q :=
  h.imp fun _ _ further ha => ⟨moves.trans further, ha⟩

theorem Alike.mono (h : Alike i j x y s A)
    (imp : ∀ a s', Moves i j s.rest s'.rest → A a s' → B a s') : Alike i j x y s B :=
  Agree.imp h fun a s' moves ha => ⟨moves, imp a s' moves ha⟩

/-- Further groups may be open. -/
theorem Alike.under (h : Alike i j x y s A) (k : Nat) : Alike (i + k) (j + k) x y s A :=
  Agree.imp h fun _ _ moves ha => ⟨moves.under k, ha⟩

theorem alike_pure {a : α} (h : A a s) : Alike i i (pure a) (pure a) s A :=
  ⟨rfl, .refl i s.rest, h⟩

theorem alike_fail {fault : ReadFault} :
    Alike i j (fail fault : ReadM α) (fail fault) s A :=
  ⟨_, s.bare, rfl, rfl, rfl⟩

theorem alike_bind {f g : α → ReadM β} {C : β → Reading → Prop} (hx : Alike i j x y s A)
    (hf : ∀ a s', Moves i j s.rest s'.rest → A a s' → Alike j k (f a) (g a) s' C) :
    Alike i k (x >>= f) (y >>= g) s C := by
  unfold Alike at hx ⊢
  rw [bind_apply, bind_apply]
  cases hs : x s with
  | ok a s' =>
    rw [hs] at hx
    obtain ⟨same, moves, ha⟩ := hx
    rw [same]
    exact Agree.after moves (hf a s' moves ha)
  | error e s' =>
    rw [hs] at hx
    obtain ⟨e', t, same, reader, store⟩ := hx
    rw [same]
    exact ⟨e', t, rfl, reader, store⟩

theorem alike_get_bind {f g : Reading → ReadM α} (h : Alike i j (f s) (g s.bare) s A) :
    Alike i j (get >>= f) (get >>= g) s A :=
  h

theorem alike_peek_bind {f g : Option Char → ReadM α}
    (h : Alike i j (f s.rest.head?) (g (blanked false s.rest).head?) s A) :
    Alike i j (peek >>= f) (peek >>= g) s A :=
  h

theorem alike_modify {f : Reading → Reading} (same : f s.bare = (f s).bare)
    (here : (f s).rest = s.rest) : Alike i i (modify f) (modify f) s fun _ s' => s' = f s := by
  refine ⟨?_, here ▸ .refl i s.rest, rfl⟩
  exact congrArg (EStateM.Result.ok ()) same

end

/-! ## Characters -/

section
variable {s : Reading}

theorem alike_goTo {rest : List Char} (moves : Moves i j s.rest rest) :
    Alike i j (goTo rest) (goTo (blanked false rest)) s fun _ s' => s' = { s with rest } :=
  ⟨rfl, moves, rfl⟩

theorem alike_advance {c : Char} {cs : List Char} (here : s.rest = c :: cs) (text : c ≠ ';')
    (moves : Moves i j (c :: cs) cs) :
    Alike i j advance advance s fun _ s' => s' = { s with rest := cs } := by
  have blank : s.bare.rest.drop 1 = blanked false cs := by
    rw [bare, here, blanked_cons text]
    rfl
  have dropped : s.rest.drop 1 = cs := by
    rw [here]
    rfl
  refine alike_get_bind ?_
  rw [dropped, blank]
  exact alike_goTo (here ▸ moves)

theorem alike_skipLayout : Alike i i skipLayout skipLayout s fun _ s' =>
    s' = { s with rest := dropLayout false s.rest } := by
  refine alike_get_bind ?_
  rw [bare, dropLayout_blanked]
  exact alike_goTo (moves_dropLayout i s.rest)

/-- After layout the next characters are the same. -/
theorem head?_after_layout (cs : List Char) :
    (blanked false (dropLayout false cs)).head? = (dropLayout false cs).head? :=
  head?_blanked fun first => (ne_of_head?_dropLayout first).2 rfl

/-- The text is shorter than it was at `s`. -/
def Shrinks (s : Reading) : α → Reading → Prop :=
  fun _ s' => s'.rest.length < s.rest.length

theorem alike_expect {c : Char} (moves : ∀ cs, Moves i j (c :: cs) cs) :
    Alike i j (expect c) (expect c) s (Shrinks s) := by
  refine alike_bind alike_skipLayout fun _ s₁ moves₁ there => ?_
  refine alike_peek_bind ?_
  have here : s₁.rest = dropLayout false s.rest := by rw [there]
  rw [here, head?_after_layout, ← here]
  split
  · next first =>
    cases rest : s₁.rest with
    | nil =>
      rw [rest] at first
      cases first
    | cons d cs =>
      rw [rest] at first
      obtain rfl := Option.some.inj first
      have start : (dropLayout false s.rest).head? = some d := by
        rw [← here, rest]
        rfl
      have text := (ne_of_head?_dropLayout start).2
      refine (alike_advance rest text (moves cs)).mono fun _ s' _ same => ?_
      have := moves₁.length_le
      rw [rest, List.length_cons] at this
      rw [Shrinks, same]
      exact this
  · exact alike_fail

theorem alike_open : Alike i (i + 1) (expect '(') (expect '(') s (Shrinks s) :=
  alike_expect fun cs => moves_open rfl i cs

theorem alike_close : Alike (i + 1) i (expect ')') (expect ')') s (Shrinks s) :=
  alike_expect fun cs => moves_close rfl i cs

theorem alike_identifier : Alike i i identifier identifier s fun name s' =>
    s' = { s with rest := s'.rest } ∧ s'.rest.length < s.rest.length ∧ name = nextWord s.rest := by
  refine alike_bind alike_skipLayout fun _ s₁ moves₁ there => ?_
  refine alike_get_bind ?_
  have word := takeWhile_blanked (p := isNameChar) (by decide) (by decide) s₁.rest
  have after := dropWhile_blanked (p := isNameChar) (by decide) (by decide) s₁.rest
  dsimp only [bare]
  rw [word, after]
  split
  · exact alike_fail
  · next some' =>
    refine alike_bind (alike_goTo (moves_dropWhile isPlain_of_isNameChar i s₁.rest))
      fun _ s₂ moves₂ past => alike_pure ⟨?_, ?_, ?_⟩
    · rw [past, there]
    · have parts := congrArg List.length
        (List.takeWhile_append_dropWhile (p := isNameChar) (l := s₁.rest))
      have taken : (s₁.rest.takeWhile isNameChar).length ≠ 0 := by
        simpa [List.isEmpty_iff] using some'
      have := moves₁.length_le
      rw [List.length_append] at parts
      rw [past]
      dsimp only
      omega
    · rw [nextWord, there]

/-- A word that is read may be read again, from the same place. -/
theorem alike_word_bind {f g : String → ReadM α} {A : α → Reading → Prop}
    (h : ∀ word s', Moves i i s.rest s'.rest → s' = { s with rest := s'.rest } →
      word = nextWord s.rest → Agree i j s.rest A (f word s') (g word s'.bare)) :
    Alike i j (identifier >>= f) (identifier >>= g) s A := by
  have word := alike_identifier (i := i) (s := s)
  unfold Alike at word ⊢
  rw [bind_apply, bind_apply]
  cases hs : identifier s with
  | ok name s' =>
    rw [hs] at word
    obtain ⟨same, moves, back, _, known⟩ := word
    rw [same]
    exact h name s' moves back known
  | error e s' =>
    rw [hs] at word
    obtain ⟨e', t, same, kept⟩ := word
    rw [same]
    exact ⟨e', t, rfl, kept⟩

theorem isPlain_of_isDigit (c : Char) (digit : c.isDigit = true) : isPlain c = true :=
  isPlain_of_isNameChar c (isNameChar_of_isDigit digit)

theorem alike_number : Alike i i number number s fun _ _ => True := by
  refine alike_bind alike_skipLayout fun _ s₁ _ _ => ?_
  refine alike_get_bind ?_
  have digits := takeWhile_blanked (p := Char.isDigit) (by decide) (by decide) s₁.rest
  have after := dropWhile_blanked (p := Char.isDigit) (by decide) (by decide) s₁.rest
  dsimp only [bare]
  rw [digits, after]
  split
  · refine alike_bind (alike_goTo (moves_dropWhile isPlain_of_isDigit i s₁.rest))
      fun _ s₂ _ _ => alike_pure trivial
  · exact alike_fail

theorem alike_atClose : Alike i i atClose atClose s fun _ _ => True := by
  refine alike_bind alike_skipLayout fun _ s₁ _ there => ?_
  refine alike_peek_bind ?_
  rw [there, head?_after_layout]
  exact alike_pure trivial

theorem alike_atInstanceClose : Alike i i atInstanceClose atInstanceClose s fun closed s' =>
    closed = true → s'.rest.head? = some ']' := by
  refine alike_bind alike_skipLayout fun _ s₁ _ there => ?_
  refine alike_peek_bind ?_
  have here : s₁.rest = dropLayout false s.rest := by rw [there]
  rw [here, head?_after_layout, ← here]
  cases first : s₁.rest.head? with
  | some c =>
    refine alike_pure fun closed => ?_
    rw [first, of_decide_eq_true closed]
  | none => exact alike_fail

theorem atLastItem_of_some {last : Bool} (h : lastItem? s.rest = some last) :
    atLastItem s = .ok last s := by
  obtain ⟨after, past, rfl⟩ := Option.map_eq_some_iff.1 h
  rw [atLastItem, get_bind_apply, past]
  rfl

theorem atLastItem_of_none (h : lastItem? s.rest = none) :
    atLastItem s = .error { fault := .unclosedParenthesis, remaining := [] } s := by
  rw [atLastItem, get_bind_apply, Option.map_eq_none_iff.1 h]
  rfl

theorem expect_of_other {c : Char} (other : (dropLayout false s.rest).head? ≠ some c) :
    expect c s = .error { fault := .charMissing c, remaining := dropLayout false s.rest }
      { s with rest := dropLayout false s.rest } := by
  have run : expect c s = (if (dropLayout false s.rest).head? = some c then advance
    else fail (.charMissing c)) { s with rest := dropLayout false s.rest } := rfl
  rw [run, if_neg other]
  rfl

theorem bind_error {x : ReadM α} {f : α → ReadM β} {s' : Reading} {e : ReadFailure}
    (h : x s = .error e s') : (x >>= f) s = .error e s' := by
  rw [bind_apply, h]

/-- At a quiet place the look-ahead finds the same. If it comes to the end of the text in a comment,
and so finds nothing, then reading without comments must fail, where an item that is not last cannot
stand. -/
theorem alike_atLastItem_bind {f g : Bool → ReadM α} {A : α → Reading → Prop}
    (harmless : quietInside false 0 s.rest = true) (h : ∀ last, Alike i j (f last) (g last) s A)
    (refused : s.rest.head? ≠ some '(' →
      ∃ e s', g false s.bare = .error e s' ∧ s'.reader = s.reader ∧ s'.store = s.store) :
    Alike i j (atLastItem >>= f) (atLastItem >>= g) s A := by
  unfold Alike
  rw [bind_apply, bind_apply]
  rcases lastItem?_blanked harmless with same | ⟨notLast, unclosed, noGroup⟩
  · cases found : lastItem? s.rest with
    | none =>
      rw [atLastItem_of_none found, atLastItem_of_none (s := s.bare) (same.trans found)]
      exact ⟨_, s.bare, rfl, rfl, rfl⟩
    | some last =>
      rw [atLastItem_of_some found, atLastItem_of_some (s := s.bare) (same.trans found)]
      exact h last
  · rw [atLastItem_of_none unclosed, atLastItem_of_some (s := s.bare) notLast]
    exact refused noGroup

/-! ## Items, names and holes -/

/-- What is left of the text is quiet, and shorter than `n` and, without comments, than `m`. -/
structure Fits (n m : Nat) (s : Reading) : Prop where
  quiet : Reading.quiet false s.rest = true
  length_lt : s.rest.length < n
  blanked_lt : (blanked false s.rest).length < m

theorem Moves.fits {n m : Nat} {s' : Reading} (moves : Moves i j s.rest s'.rest) (h : Fits n m s) :
    Fits n m s' where
  quiet := moves.quiet h.quiet
  length_lt := Nat.lt_of_le_of_lt moves.length_le h.length_lt
  blanked_lt := Nat.lt_of_le_of_lt moves.blanked_le h.blanked_lt

/-- Where the text got shorter, less is needed. -/
theorem Moves.fits_less {n m : Nat} {s' : Reading} (moves : Moves i j s.rest s'.rest)
    (less : s'.rest.length < s.rest.length) (h : Fits (n + 1) (m + 1) s) : Fits n m s' where
  quiet := moves.quiet h.quiet
  length_lt := Nat.lt_of_lt_of_le less (Nat.le_of_lt_succ h.length_lt)
  blanked_lt := Nat.lt_of_lt_of_le (moves.blanked_lt less) (Nat.le_of_lt_succ h.blanked_lt)

theorem fits_self {n m : Nat} (h : Fits n m s) :
    Fits (s.rest.length + 1) ((blanked false s.rest).length + 1) s :=
  ⟨h.quiet, Nat.lt_succ_self _, Nat.lt_succ_self _⟩

/-- Items are read alike if each of them is. `R` is what is known where they end. -/
theorem alike_itemsWithin {n m : Nat} {closed : ReadM Bool} {item item' : ReadM α}
    {R : Reading → Prop}
    (hclosed : ∀ s, Alike i i closed closed s fun done s' => done = true → R s')
    (hitem : ∀ s, Fits n m s → Alike i i item item' s (Shrinks s)) (p q : Nat) {s : Reading}
    (fits : Fits n m s) (within : Fits p q s) :
    Alike i i (itemsWithin closed item p) (itemsWithin closed item' q) s fun _ s' => R s' := by
  induction p generalizing q s with
  | zero => exact absurd within.length_lt (Nat.not_lt_zero _)
  | succ p ih =>
    cases q with
    | zero => exact absurd within.blanked_lt (Nat.not_lt_zero _)
    | succ q =>
      refine alike_bind (hclosed s) fun done s₁ moves₁ ended => ?_
      have fits₁ := moves₁.fits fits
      have within₁ := moves₁.fits within
      split
      · next done => exact alike_pure (ended done)
      · refine alike_bind (hitem s₁ fits₁) fun x s₂ moves₂ less => ?_
        refine alike_bind (ih q (moves₂.fits fits₁) (moves₂.fits_less less within₁))
          fun xs s₃ _ after => ?_
        exact alike_pure after

theorem alike_items {n m : Nat} {closed : ReadM Bool} {item item' : ReadM α} {R : Reading → Prop}
    (hclosed : ∀ s, Alike i i closed closed s fun done s' => done = true → R s')
    (hitem : ∀ s, Fits n m s → Alike i i item item' s (Shrinks s)) (fits : Fits n m s) :
    Alike i i (items closed item) (items closed item') s fun _ s' => R s' :=
  alike_get_bind (alike_itemsWithin hclosed hitem _ _ fits (fits_self fits))

theorem alike_declare (arity : Nat) (type? : Option Term) (kind : HoleKind) :
    Alike i i (declare arity type? kind) (declare arity type? kind) s fun _ _ => True :=
  ⟨rfl, .refl i s.rest, trivial⟩

theorem alike_namedHole (name : String) (arity : Nat) :
    Alike i i (namedHole name arity) (namedHole name arity) s fun _ _ => True := by
  refine alike_get_bind ?_
  dsimp only [bare]
  cases s.reader.hole? name with
  | some k =>
    refine alike_get_bind ?_
    dsimp only [bare]
    split
    · exact alike_pure trivial
    · exact alike_fail
  | none =>
    refine alike_bind (alike_declare arity none .ordinary) fun k s₁ _ _ => ?_
    refine alike_bind (alike_modify rfl rfl) fun _ s₂ _ _ => ?_
    exact alike_pure trivial

theorem alike_atom (scope : List String) (name : String) :
    Alike i i (atom scope name) (atom scope name) s fun _ _ => True := by
  unfold atom
  split
  · exact alike_pure trivial
  · split
    · refine alike_bind (alike_declare 0 none .ordinary) fun k s₁ _ _ => ?_
      exact alike_pure trivial
    · exact alike_pure trivial
    · exact alike_pure trivial
    · refine alike_bind (alike_modify rfl rfl) fun _ s₁ _ _ => ?_
      exact alike_pure trivial

end

/-! ## Forms -/

/-- Terms are read alike where the texts fit. -/
def Tracks (n m : Nat) (term term' : List String → ReadM Term) : Prop :=
  ∀ i scope s, Fits n m s → Alike i i (term scope) (term' scope) s (Shrinks s)

section
variable {n m : Nat} {term term' : List String → ReadM Term} (tracks : Tracks n m term term')
  {s : Reading} (fits : Fits n m s)
include tracks fits

theorem alike_terms (scope : List String) :
    Alike i i (items atClose (term scope)) (items atClose (term' scope)) s fun _ _ => True :=
  alike_items (R := fun _ => True) (fun _ => alike_atClose.mono fun _ _ _ _ _ => trivial)
    (tracks i scope) fits

theorem alike_inst (scope : List String) :
    Alike i i (inst term scope) (inst term' scope) s fun _ _ => True := by
  refine alike_peek_bind ?_
  cases rest : s.rest with
  | nil => exact alike_pure trivial
  | cons c cs =>
    by_cases bracket : c = '['
    · subst bracket
      refine alike_bind (alike_advance rest (by decide) (moves_open rfl i cs))
        fun _ s₁ moves₁ _ => ?_
      refine alike_bind (alike_items (fun _ => alike_atInstanceClose) (tracks (i + 1) scope)
        (moves₁.fits fits)) fun xs s₂ moves₂ ends => ?_
      cases rest₂ : s₂.rest with
      | nil => simp [rest₂] at ends
      | cons d ds =>
        obtain rfl : d = ']' := by simpa [rest₂] using ends
        refine alike_bind (alike_advance rest₂ (by decide) (moves_close rfl i ds))
          fun _ s₃ _ _ => ?_
        exact alike_pure trivial
    · have other : (blanked false (c :: cs)).head? ≠ some '[' := by
        rw [blanked]
        split
        · simp
        · simpa using bracket
      rw [if_neg (by simpa using bracket), if_neg other]
      exact alike_pure trivial

theorem alike_application (scope : List String) :
    Alike i i (application term scope) (application term' scope) s fun _ _ => True := by
  refine alike_bind (tracks i scope s fits) fun head s₁ moves₁ _ => ?_
  refine alike_bind (alike_terms tracks (moves₁.fits fits) scope) fun args s₂ _ _ => ?_
  exact alike_pure trivial

theorem alike_typedName (scope : List String) :
    Alike i i (typedName term scope) (typedName term' scope) s (Shrinks s) := by
  refine alike_bind alike_open fun _ s₁ moves₁ less => ?_
  refine alike_bind alike_identifier fun name s₂ moves₂ _ => ?_
  have fits₂ := moves₂.fits (moves₁.fits fits)
  refine alike_bind (tracks (i + 1) scope s₂ fits₂) fun type s₃ moves₃ _ => ?_
  refine alike_bind alike_close fun _ s₄ moves₄ _ => alike_pure ?_
  have := moves₂.length_le
  have := moves₃.length_le
  have := moves₄.length_le
  unfold Shrinks at less ⊢
  omega

theorem alike_fixpoint (scope : List String) :
    Alike i i (fixpoint term scope) (fixpoint term' scope) s fun _ _ => True := by
  refine alike_bind alike_number fun index s₁ moves₁ _ => ?_
  have fits₁ := moves₁.fits fits
  refine alike_bind alike_open fun _ s₂ moves₂ _ => ?_
  have fits₂ := moves₂.fits fits₁
  refine alike_bind (alike_items (R := fun _ => True)
    (fun _ => alike_atClose.mono fun _ _ _ _ _ => trivial)
    (fun s fits => alike_typedName tracks fits scope) fits₂) fun typed s₃ moves₃ _ => ?_
  have fits₃ := moves₃.fits fits₂
  refine alike_bind alike_close fun _ s₄ moves₄ _ => ?_
  split
  · refine alike_bind alike_open fun _ s₅ moves₅ _ => ?_
    have fits₅ := moves₅.fits (moves₄.fits fits₃)
    refine alike_bind (alike_terms tracks fits₅ _) fun bodies s₆ moves₆ _ => ?_
    refine alike_bind alike_close fun _ s₇ _ _ => ?_
    split
    · exact alike_pure trivial
    · exact alike_fail
  · exact alike_fail

/-- After the word of a product or an abstraction, whose comments are harmless, binders and the body
are read alike, although the text without comments is shorter. -/
theorem alike_bindersWithin (build : Term → Term → Term) (p q : Nat) (first : Bool)
    (scope : List String) (within : Fits p q s) (harmless : quietInside false 0 s.rest = true) :
    Alike 0 0 (bindersWithin term build p first scope) (bindersWithin term' build q first scope) s
      fun _ _ => True := by
  induction p generalizing q first scope s with
  | zero => exact absurd within.length_lt (Nat.not_lt_zero _)
  | succ p ih =>
    cases q with
    | zero => exact absurd within.blanked_lt (Nat.not_lt_zero _)
    | succ q =>
      refine alike_bind alike_skipLayout fun _ s₁ moves₁ there => ?_
      have fits₁ := moves₁.fits fits
      have harmless₁ := moves₁.inside 0 harmless
      refine alike_atLastItem_bind harmless₁ (fun last => ?_) fun noGroup => ?_
      · split
        · split
          · exact alike_fail
          · exact (tracks 0 scope s₁ fits₁).mono fun _ _ _ _ => trivial
        · refine alike_bind alike_open fun _ s₂ moves₂ less => ?_
          have fits₂ := moves₂.fits fits₁
          have within₂ := moves₂.fits_less less (moves₁.fits within)
          refine alike_bind alike_identifier fun name s₃ moves₃ _ => ?_
          have fits₃ := moves₃.fits fits₂
          refine alike_bind (tracks 1 scope s₃ fits₃) fun type s₄ moves₄ _ => ?_
          refine alike_bind alike_close fun _ s₅ moves₅ _ => ?_
          have moves := (moves₂.trans moves₃).trans (moves₄.trans moves₅)
          have harmless₅ := moves.inside 0 harmless₁
          have within₅ := moves₅.fits (moves₄.fits (moves₃.fits within₂))
          refine alike_bind (ih (moves.fits fits₁) q false (name :: scope) within₅ harmless₅)
            fun body s₆ _ _ => ?_
          exact alike_pure trivial
      · -- The form is not closed, which the text without comments shows only here.
        have start : (dropLayout false s₁.bare.rest).head? ≠ some '(' := by
          rw [bare, dropLayout_blanked, head?_after_layout, there, dropLayout_dropLayout]
          rwa [there] at noGroup
        refine ⟨_, _, bind_error (expect_of_other start), rfl, rfl⟩

theorem alike_binders (build : Term → Term → Term) (scope : List String)
    (harmless : quietInside false 0 s.rest = true) :
    Alike 0 0 (binders term build scope) (binders term' build scope) s fun _ _ => True :=
  alike_get_bind (alike_bindersWithin tracks fits build _ _ true scope (fits_self fits) harmless)

/-- What stands between parentheses after a word is read alike, and so is an application from the
word on. -/
theorem alike_wordForm (scope : List String)
    (harmless : binderWords.contains (nextWord s.rest) = true → quietInside false 0 s.rest = true) :
    Alike 0 0 (wordForm term scope) (wordForm term' scope) s fun _ _ => True := by
  refine alike_get_bind ?_
  refine alike_word_bind fun word s₁ moves₁ same known => ?_
  have fits₁ := moves₁.fits fits
  have onward {x y : ReadM Term} (h : Alike 0 0 x y s₁ fun _ _ => True) :
      Agree 0 0 s.rest (fun _ _ => True) (x s₁) (y s₁.bare) :=
    Agree.after moves₁ h
  have applied : Agree 0 0 s.rest (fun _ _ => True)
      ((do goTo s.rest; application term scope) s₁)
      ((do goTo s.bare.rest; application term' scope) s₁.bare) := by
    have back : ({ s₁ with rest := s.rest } : Reading) = s := by rw [same]
    have back' : ({ s₁.bare with rest := s.bare.rest } : Reading) = s.bare := by rw [same]; rfl
    change Agree 0 0 s.rest _ (application term scope { s₁ with rest := s.rest })
      (application term' scope { s₁.bare with rest := s.bare.rest })
    rw [back, back']
    exact alike_application tracks fits scope
  split
  · exact applied
  · split
    · refine onward (alike_binders tracks fits₁ .lam scope (moves₁.inside 0 (harmless ?_)))
      rw [← known]
      rfl
    · refine onward (alike_binders tracks fits₁ .pi scope (moves₁.inside 0 (harmless ?_)))
      rw [← known]
      rfl
    · refine onward (alike_bind alike_open fun _ s₂ moves₂ _ => ?_)
      have fits₂ := moves₂.fits fits₁
      refine alike_bind alike_identifier fun name s₃ moves₃ _ => ?_
      have fits₃ := moves₃.fits fits₂
      refine alike_bind (tracks 1 scope s₃ fits₃) fun type s₄ moves₄ _ => ?_
      have fits₄ := moves₄.fits fits₃
      refine alike_bind (tracks 1 scope s₄ fits₄) fun value s₅ moves₅ _ => ?_
      have fits₅ := moves₅.fits fits₄
      refine alike_bind alike_close fun _ s₆ moves₆ _ => ?_
      refine alike_bind (tracks 0 (name :: scope) s₆ (moves₆.fits fits₅)) fun body s₇ _ _ => ?_
      exact alike_pure trivial
    · refine onward (alike_bind (tracks 0 scope s₁ fits₁) fun t s₂ moves₂ _ => ?_)
      refine alike_bind (tracks 0 scope s₂ (moves₂.fits fits₁)) fun type s₃ _ _ => ?_
      exact alike_pure trivial
    · refine onward (alike_bind (tracks 0 scope s₁ fits₁) fun motive s₂ moves₂ _ => ?_)
      have fits₂ := moves₂.fits fits₁
      refine alike_bind (tracks 0 scope s₂ fits₂) fun scrutinee s₃ moves₃ _ => ?_
      refine alike_bind (alike_terms tracks (moves₃.fits fits₂) scope) fun branches s₄ _ _ => ?_
      exact alike_pure trivial
    · exact onward (alike_fixpoint tracks fits₁ scope)
    · refine onward (alike_bind alike_number fun n s₂ _ _ => ?_)
      exact alike_pure trivial
    · refine onward (alike_bind (tracks 0 scope s₁ fits₁) fun type s₂ _ _ => ?_)
      refine alike_bind (alike_declare 0 (some type) .obligation) fun k s₃ _ _ => ?_
      exact alike_pure trivial
    · exact applied

theorem alike_form (scope : List String)
    (harmless : binderWords.contains (nextWord s.rest) = true → quietInside false 0 s.rest = true) :
    Alike 0 0 (form term scope) (form term' scope) s fun _ _ => True := by
  refine alike_bind alike_skipLayout fun _ s₁ moves₁ there => ?_
  have fits₁ := moves₁.fits fits
  refine alike_peek_bind ?_
  have here : s₁.rest = dropLayout false s.rest := by rw [there]
  have word : nextWord s₁.rest = nextWord s.rest := by
    rw [nextWord, nextWord, here, dropLayout_dropLayout]
  have start : (blanked false s₁.rest).head? = s₁.rest.head? := by rw [here, head?_after_layout]
  rw [start]
  split
  case h_4 =>
    exact alike_wordForm tracks fits₁ scope fun binds => moves₁.inside 0 (harmless (word ▸ binds))
  all_goals exact alike_application tracks fits₁ scope

end

/-- What a step reads is read alike, if the terms inside are. -/
theorem alike_step {n m : Nat} {term term' : List String → ReadM Term}
    (tracks : Tracks n m term term') : Tracks (n + 1) (m + 1) (step term) (step term') := by
  intro i scope s fits
  refine alike_bind alike_skipLayout fun _ s₁ moves₁ there => ?_
  have fits₁ := moves₁.fits fits
  refine alike_peek_bind ?_
  have here : s₁.rest = dropLayout false s.rest := by rw [there]
  have start : (blanked false s₁.rest).head? = s₁.rest.head? := by rw [here, head?_after_layout]
  rw [start]
  have start_le := moves₁.length_le
  -- After the first character the text is shorter, so that the terms inside fit.
  have inner {j : Nat} {c : Char} {cs : List Char} {s₂ : Reading} (rest : s₁.rest = c :: cs)
      (moves : Moves i j s₁.rest s₂.rest) (past : s₂ = { s₁ with rest := cs }) :
      Fits n m s₂ ∧ s₂.rest.length < s.rest.length := by
    have less : s₂.rest.length < s₁.rest.length := by rw [past, rest]; exact Nat.lt_succ_self _
    exact ⟨moves.fits_less less fits₁, Nat.lt_of_lt_of_le less start_le⟩
  split
  · exact alike_fail
  · next first =>
    obtain ⟨cs, rest⟩ := List.head?_eq_some_iff.1 first
    refine alike_bind (alike_advance rest (by decide) (moves_open rfl i cs))
      fun _ s₂ moves₂ past => ?_
    obtain ⟨fits₂, less⟩ := inner rest moves₂ past
    have harmless : binderWords.contains (nextWord s₂.rest) = true →
        quietInside false 0 s₂.rest = true := by
      rw [past]
      exact quietInside_of_quiet (rest ▸ fits₁.quiet)
    have form := (alike_form tracks fits₂ scope harmless).under (i + 1)
    rw [Nat.zero_add] at form
    refine alike_bind form fun t s₃ moves₃ _ => ?_
    refine alike_bind alike_close fun _ s₄ moves₄ _ => alike_pure ?_
    have := moves₃.length_le
    have := moves₄.length_le
    unfold Shrinks
    omega
  · next first =>
    obtain ⟨cs, rest⟩ := List.head?_eq_some_iff.1 first
    refine alike_bind (alike_advance rest (by decide) (moves_plain rfl i cs))
      fun _ s₂ moves₂ past => ?_
    obtain ⟨_, less⟩ := inner rest moves₂ past
    refine alike_bind alike_number fun k s₃ moves₃ _ => ?_
    split
    · exact alike_pure (Nat.lt_of_le_of_lt moves₃.length_le less)
    · exact alike_fail
  · next first =>
    obtain ⟨cs, rest⟩ := List.head?_eq_some_iff.1 first
    refine alike_bind (alike_advance rest (by decide) (moves_plain rfl i cs))
      fun _ s₂ moves₂ past => ?_
    obtain ⟨fits₂, less⟩ := inner rest moves₂ past
    refine alike_bind alike_identifier fun name s₃ moves₃ _ => ?_
    refine alike_bind (alike_inst tracks (moves₃.fits fits₂) scope) fun xs s₄ moves₄ _ => ?_
    refine alike_bind (alike_namedHole name xs.length) fun k s₅ moves₅ _ => alike_pure ?_
    have := moves₃.length_le
    have := moves₄.length_le
    have := moves₅.length_le
    unfold Shrinks
    omega
  · refine alike_bind alike_identifier fun name s₂ _ ⟨_, less, _⟩ => ?_
    refine (alike_atom scope name).mono fun t s₃ moves₃ _ => ?_
    have := moves₃.length_le
    unfold Shrinks
    omega

theorem tracks_termWithin (n m : Nat) : Tracks n m (termWithin n) (termWithin m) := by
  induction n generalizing m with
  | zero => exact fun _ _ _ fits => absurd fits.length_lt (Nat.not_lt_zero _)
  | succ n ih =>
    cases m with
    | zero => exact fun _ _ _ fits => absurd fits.blanked_lt (Nat.not_lt_zero _)
    | succ m => exact alike_step (ih m)

theorem alike_wholeTerm {s : Reading} (quiet : Reading.quiet false s.rest = true) :
    Alike 0 0 wholeTerm wholeTerm s fun _ _ => True := by
  refine alike_get_bind ?_
  have fits : Fits (s.rest.length + 1) (s.bare.rest.length + 1) s :=
    ⟨quiet, Nat.lt_succ_self _, Nat.lt_succ_self _⟩
  refine alike_bind (tracks_termWithin _ _ 0 [] s fits) fun t s₁ _ _ => ?_
  refine alike_bind alike_skipLayout fun _ s₂ _ there => ?_
  refine alike_get_bind ?_
  rw [bare, isEmpty_blanked]
  split
  · exact alike_pure trivial
  · exact alike_fail

end

end Reading

/-- If all comments in products and abstractions are harmless, then a text is read as if each of its
comments were a space: either both texts are read as the same term or both are faulty, and the names
and the holes are the same afterwards. -/
theorem Reader.read_blanked (r : Reader) (s : Store) {input : List Char}
    (quiet : Reading.quiet false input = true) :
    ((∃ t, (r.read s input).1 = .ok t ∧ (r.read s (Reading.blanked false input)).1 = .ok t) ∨
      ∃ e e', (r.read s input).1 = .error e ∧
        (r.read s (Reading.blanked false input)).1 = .error e') ∧
    (r.read s (Reading.blanked false input)).2 = (r.read s input).2 := by
  have alike := Reading.alike_wholeTerm (s := { rest := input, reader := r, store := s }) quiet
  simp only [Reading.Alike, Reading.bare] at alike
  simp only [Reader.read, EStateM.run]
  cases run : Reading.wholeTerm { rest := input, reader := r, store := s } with
  | ok t s' =>
    rw [run] at alike
    rw [alike.1]
    exact ⟨.inl ⟨t, rfl, rfl⟩, rfl⟩
  | error e s' =>
    rw [run] at alike
    obtain ⟨e', s'', run', reader, store⟩ := alike
    rw [run']
    exact ⟨.inr ⟨_, _, rfl, rfl⟩, Prod.ext reader store⟩

/-- Comments in an abstraction, and others outside it with brackets in them. -/
theorem Reader.read_blanked_abstraction :
    let input := "(f ; a (\n (fun ; binders\n (x T) ; body\n (g x ?y ; end\n)) b ; ]\n)".toList
    let bare := Reading.blanked false input
    let t : Term := .mk (.const "f")
      [.lam (.const "T") (.mk (.const "g") [.rel 0, .hole 0 []]), .const "b"]
    Reading.quiet false input = true ∧ (Reader.read {} .empty input).1 = .ok t ∧
      (Reader.read {} .empty bare).1 = .ok t ∧
      (Reader.read {} .empty bare).2 = (Reader.read {} .empty input).2 := by
  intro input bare t
  have quiet : Reading.quiet false input = true := by decide +kernel
  have read : (Reader.read {} .empty input).1 = .ok t := by decide +kernel
  obtain ⟨⟨t', ht', ht''⟩ | ⟨e, _, he, _⟩, same⟩ := Reader.read_blanked {} .empty quiet
  · rw [read] at ht'
    cases ht'
    exact ⟨quiet, read, ht'', same⟩
  · rw [read] at he
    cases he

/-- The look-ahead takes a comment after the body of an abstraction for a further item, and a
bracket in a comment for one of the text. -/
theorem Reader.comment_read_as_items :
    let after := "(fun (x T) x ; the body\n )".toList
    let within := "(fun (x T) (f ; (\n x))".toList
    ((Reader.read {} .empty after).1 = .error ⟨.charMissing '(', 11⟩ ∧
      (Reader.read {} .empty (Reading.blanked false after)).1 = .ok (.lam (.const "T") (.rel 0))) ∧
    (Reader.read {} .empty within).1 = .error ⟨.identifierMissing, 21⟩ ∧
      (Reader.read {} .empty (Reading.blanked false within)).1 =
        .ok (.lam (.const "T") (.mk (.const "f") [.rel 0])) := by
  decide +kernel

end KeyedMatching
