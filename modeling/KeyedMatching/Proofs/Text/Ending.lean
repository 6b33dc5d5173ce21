import KeyedMatching.Proofs.Text.Bytes
import KeyedMatching.Proofs.Text.Kept

/-!
# Where reading ends

A text is read byte by byte alongside its characters. Both readings go the same way, so that the
cursor is always between two characters. A bound on the nesting makes a difference only if it is not
larger than what is left of the text.

* `Cursor.At input s c`: the cursor `c` is at the place that the characters are read from at `s`;
* `Cursor.Meets input enough k x y s c`: from there both steps come to the same result, at a place
  that is not before `k`, or to the same fault at the same place; only if the bound is not `enough`
  may it be met. There is one rule for each way in which steps are put together;
* `Cursor.meets_step`: so it is for a step, if it is for the terms inside it;
* `Cursor.read_ends`: every text is read to a term or to a fault, at a place between characters.
-/

namespace KeyedMatching

namespace Cursor

variable {input : String} {enough : Prop}

/-- The cursor is before what is left of the characters, and the same is known. -/
structure At (input : String) (s : Reading) (c : Cursor) : Prop where
  suffix : s.rest <:+ input.toList
  pos : c.pos + utf8Length s.rest = utf8Length input.toList
  reader : c.reader = s.reader
  store : c.store = s.store

/-- A fault in the characters, and one in the bytes: it is the same one, at the same place, and no
bound was met. -/
structure SameFault (input : String) (e : ReadFailure) (e' : ReadError) : Prop where
  fault : e'.fault = e.fault
  bounded : e.fault ≠ .tooDeep
  suffix : e.remaining <:+ input.toList
  position : e'.position + utf8Length e.remaining = utf8Length input.toList

section
variable {α β : Type}

/-- Two runs come to the same, unless a bound was met that is not large enough. -/
def Agree (input : String) (enough : Prop) (k : Nat) :
    EStateM.Result ReadFailure Reading α → EStateM.Result Stop Cursor α → Prop
  | .ok a s, .ok b c => b = a ∧ At input s c ∧ k ≤ c.pos
  | .ok _ _, .error (.fault e') _ => e'.fault = .tooDeep ∧ ¬enough
  | .error e s, .error (.fault e') c =>
    SameFault input e e' ∧ c.reader = s.reader ∧ c.store = s.store ∨
      e'.fault = .tooDeep ∧ ¬enough
  | _, _ => False

/-- The step `x` at `s` and the step `y` at `c` come to the same, not before the position `k`. -/
def Meets (input : String) (enough : Prop) (k : Nat) (x : ReadM α) (y : CursorM α) (s : Reading)
    (c : Cursor) : Prop :=
  Agree input enough k (x s) (y c)

section
variable {k l : Nat} {x : ReadM α} {y : CursorM α} {s : Reading} {c : Cursor}

theorem Meets.mono (h : Meets input enough k x y s c) (le : l ≤ k) :
    Meets input enough l x y s c := by
  unfold Meets Agree at h ⊢
  split <;> simp_all
  omega

theorem meets_pure (here : At input s c) (a : α) :
    Meets input enough c.pos (pure a) (pure a) s c :=
  ⟨rfl, here, Nat.le_refl _⟩

theorem meets_bind_run {f : α → ReadM β} {g : α → CursorM β} (hx : Meets input enough k x y s c)
    (hf : ∀ a s' c', x s = .ok a s' → At input s' c' → k ≤ c'.pos →
      Meets input enough l (f a) (g a) s' c') :
    Meets input enough l (x >>= f) (y >>= g) s c := by
  unfold Meets Agree at hx
  unfold Meets
  rw [Reading.bind_apply, Reading.bind_apply]
  split at hx
  · next a s' b c' hs hc =>
    obtain ⟨rfl, there, le⟩ := hx
    rw [hs, hc]
    exact hf b s' c' hs there le
  · next a s' e' c' hs hc =>
    rw [hs, hc]
    dsimp only
    cases f a s' with
    | ok => exact hx
    | error => exact .inr hx
  · next e s' e' c' hs hc =>
    rw [hs, hc]
    exact hx
  · exact hx.elim

theorem meets_bind {f : α → ReadM β} {g : α → CursorM β} (hx : Meets input enough k x y s c)
    (hf : ∀ a s' c', At input s' c' → k ≤ c'.pos → Meets input enough l (f a) (g a) s' c') :
    Meets input enough l (x >>= f) (y >>= g) s c :=
  meets_bind_run hx fun a s' c' _ => hf a s' c'

theorem ok_of_bind {f : α → ReadM β} {b : β} {s' : Reading} (h : (x >>= f) s = .ok b s') :
    ∃ a s₁, x s = .ok a s₁ ∧ f a s₁ = .ok b s' := by
  rw [Reading.bind_apply] at h
  split at h
  · exact ⟨_, _, by assumption, h⟩
  · cases h

theorem meets_get_bind {f : Reading → ReadM α} {g : Cursor → CursorM α}
    (h : Meets input enough k (f s) (g c) s c) : Meets input enough k (get >>= f) (get >>= g) s c :=
  h

/-- The characters that are left are looked at, which the bytes are not yet. -/
theorem meets_get_left {f : Reading → ReadM α} (h : Meets input enough k (f s) y s c) :
    Meets input enough k (get >>= f) y s c :=
  h

theorem meets_fail (here : At input s c) {fault : ReadFault} (other : fault ≠ .tooDeep) :
    Meets input enough k (Reading.fail fault : ReadM α) (fail fault) s c :=
  .inl ⟨⟨rfl, other, here.suffix, here.pos⟩, here.reader, here.store⟩

theorem meets_ite {p q : Prop} [Decidable p] [Decidable q] {x' : ReadM α} {y' : CursorM α}
    (same : p ↔ q) (yes : p → Meets input enough k x y s c)
    (no : ¬p → Meets input enough k x' y' s c) :
    Meets input enough k (if p then x else x') (if q then y else y') s c := by
  by_cases h : p
  · rw [if_pos h, if_pos (same.1 h)]
    exact yes h
  · rw [if_neg h, if_neg fun h' => h (same.2 h')]
    exact no h

/-- A bound that is not large enough may be met. -/
theorem meets_tooDeep (small : ¬enough) : Meets input enough k x (fail .tooDeep) s c := by
  unfold Meets
  cases x s with
  | ok => exact ⟨rfl, small⟩
  | error => exact .inr ⟨rfl, small⟩

theorem meets_know (here : At input s c) (f : Reader → Reader) :
    Meets input enough c.pos (modify fun s => { s with reader := f s.reader })
      (modify fun c => { c with reader := f c.reader }) s c :=
  ⟨rfl, ⟨here.suffix, here.pos, congrArg f here.reader, here.store⟩, Nat.le_refl _⟩

end

/-! ## Characters -/

section
variable {k : Nat} {s : Reading} {c : Cursor}

/-- Both may go on to what is left after a word. -/
theorem At.move (here : At input s c) {word rest : List Char} (parts : s.rest = word ++ rest) :
    At input { s with rest } { c with pos := c.pos + utf8Length word } where
  suffix := (List.suffix_append word rest).trans (parts ▸ here.suffix)
  pos := by
    rw [← here.pos, parts, utf8Length_append]
    exact Nat.add_assoc _ _ _
  reader := here.reader
  store := here.store

theorem At.bytesFrom_eq (here : At input s c) : bytesFrom input c.pos = encoded s.rest :=
  Cursor.bytesFrom_eq here.suffix here.pos

theorem meets_goTo (here : At input s c) {word rest : List Char} (parts : s.rest = word ++ rest) :
    Meets input enough (c.pos + utf8Length word) (Reading.goTo rest)
      (goTo (c.pos + utf8Length word)) s c :=
  ⟨rfl, here.move parts, Nat.le_refl _⟩

theorem meets_skipLayout (here : At input s c) :
    Meets input enough c.pos Reading.skipLayout (skipLayout input) s c := by
  refine meets_get_bind ?_
  obtain ⟨layout, parts⟩ := Reading.dropLayout_suffix false s.rest
  have size : layoutSize false (encoded s.rest) = utf8Length layout := by
    have total := layoutSize_encoded false s.rest
    conv at total => rhs; rw [← parts, utf8Length_append]
    exact Nat.add_right_cancel total
  dsimp only
  rw [here.bytesFrom_eq, size]
  exact (meets_goTo here parts.symm).mono (Nat.le_add_right _ _)

theorem At.head?_eq (here : At input s c) : (bytes input)[c.pos]? = (encoded s.rest).head? := by
  rw [← here.bytesFrom_eq, bytesFrom, List.head?_drop]

theorem meets_peek_right {α : Type} {x : ReadM α} {g : Option UInt8 → CursorM α}
    (here : At input s c) (h : Meets input enough k x (g (encoded s.rest).head?) s c) :
    Meets input enough k x (peek input >>= g) s c := by
  rw [← here.head?_eq] at h
  exact h

theorem meets_peek_bind {α : Type} {f : Option Char → ReadM α} {g : Option UInt8 → CursorM α}
    (here : At input s c)
    (h : Meets input enough k (f s.rest.head?) (g (encoded s.rest).head?) s c) :
    Meets input enough k (Reading.peek >>= f) (peek input >>= g) s c :=
  meets_peek_right here h

theorem meets_advance (here : At input s c) {d : Char} {cs : List Char} (rest : s.rest = d :: cs)
    (single : IsSingle d) : Meets input enough (c.pos + 1) Reading.advance advance s c := by
  have size : utf8Length [d] = 1 := utf8Length_of_isSingle single []
  have moved : Meets input enough (c.pos + utf8Length [d]) (Reading.goTo cs)
      (goTo (c.pos + utf8Length [d])) s c := meets_goTo here rest
  rw [size] at moved
  refine meets_get_bind ?_
  rwa [rest]

theorem meets_expect (here : At input s c) {d : Char} (single : IsSingle d) :
    Meets input enough (c.pos + 1) (Reading.expect d) (expect input d) s c := by
  refine meets_bind (meets_skipLayout here) fun _ s₁ c₁ here₁ le₁ => ?_
  refine meets_peek_bind here₁ (meets_ite (head?_encoded_eq_byte single _).symm ?_ fun _ => ?_)
  · intro first
    obtain ⟨cs, rest⟩ := List.head?_eq_some_iff.1 first
    exact (meets_advance here₁ rest single).mono (Nat.add_le_add_right le₁ 1)
  · exact meets_fail here₁ nofun

theorem run_eq (here : At input s c) {p : Char → Bool} (plain : Plain p) :
    run input p c.pos = utf8Length (s.rest.takeWhile p) := by
  rw [run, here.bytesFrom_eq, takeWhile_encoded plain, length_encoded]

/-- The slice of a word is the word. -/
theorem slice_eq (here : At input s c) {word rest : List Char} (parts : s.rest = word ++ rest) :
    slice input c.pos (c.pos + utf8Length word) = pure (String.ofList word) := by
  have there := here.move parts
  have start := String.Pos.Raw.isValid_eq_true_iff.2 (isValid_of_suffix here.suffix here.pos)
  have stop := String.Pos.Raw.isValid_eq_true_iff.2 (isValid_of_suffix there.suffix there.pos)
  have text := extract_eq (parts ▸ here.suffix) (parts ▸ here.pos)
  rw [slice, if_pos ⟨start, stop, Nat.le_add_right _ _⟩, text]

theorem meets_identifier (here : At input s c) :
    Meets input enough (c.pos + 1) Reading.identifier (identifier input) s c := by
  refine meets_bind (meets_skipLayout here) fun _ s₁ c₁ here₁ le₁ => ?_
  refine meets_get_bind ?_
  dsimp only
  have parts := (List.takeWhile_append_dropWhile (p := Reading.isNameChar) (l := s₁.rest)).symm
  rw [run_eq here₁ plain_isNameChar, slice_eq here₁ parts]
  generalize s₁.rest.takeWhile Reading.isNameChar = word at parts ⊢
  generalize s₁.rest.dropWhile Reading.isNameChar = rest at parts ⊢
  cases word with
  | nil =>
    have stays : c₁.pos + utf8Length [] = c₁.pos := rfl
    rw [stays, if_pos rfl]
    exact .inl ⟨⟨rfl, nofun, here₁.suffix, here₁.pos⟩, here₁.reader, here₁.store⟩
  | cons d ds =>
    have size := utf8Length_lt_cons d ds
    change Meets input enough _ (do Reading.goTo rest; return String.ofList (d :: ds)) _ s₁ c₁
    refine meets_bind (meets_goTo here₁ parts) fun _ s₂ c₂ here₂ le₂ => ?_
    rw [if_neg (by omega)]
    exact (meets_pure here₂ _).mono (by omega)

theorem meets_number (here : At input s c) :
    Meets input enough c.pos Reading.number (number input) s c := by
  refine meets_bind (meets_skipLayout here) fun _ s₁ c₁ here₁ le₁ => ?_
  refine meets_get_bind ?_
  dsimp only
  have parts := (List.takeWhile_append_dropWhile (p := Char.isDigit) (l := s₁.rest)).symm
  rw [run_eq here₁ plain_isDigit, slice_eq here₁ parts]
  generalize s₁.rest.takeWhile Char.isDigit = word at parts ⊢
  generalize s₁.rest.dropWhile Char.isDigit = rest at parts ⊢
  rw [pure_bind, String.toList_ofList]
  cases Text.digits? Text.bound32 word with
  | some n =>
    refine meets_bind (meets_goTo here₁ parts) fun _ s₂ c₂ here₂ le₂ => ?_
    exact (meets_pure here₂ n).mono (by omega)
  | none => exact .inl ⟨⟨rfl, nofun, here₁.suffix, here₁.pos⟩, here₁.reader, here₁.store⟩

theorem meets_atClose (here : At input s c) :
    Meets input enough c.pos Reading.atClose (atClose input) s c := by
  refine meets_bind (meets_skipLayout here) fun _ s₁ c₁ here₁ le₁ => ?_
  refine meets_peek_bind here₁ ?_
  have same : (encoded s₁.rest).head?.all (· = byte ')') = s₁.rest.head?.all (· = ')') := by
    rcases head?_encoded s₁.rest with ⟨first, first'⟩ | ⟨d, b, first, first', same⟩
    · rw [first, first']
      rfl
    · rw [first, first', Option.all_some, Option.all_some, decide_eq_decide, same _ (by decide)]
  rw [same]
  exact (meets_pure here₁ _).mono le₁

theorem meets_atInstanceClose (here : At input s c) :
    Meets input enough c.pos Reading.atInstanceClose (atInstanceClose input) s c := by
  refine meets_bind (meets_skipLayout here) fun _ s₁ c₁ here₁ le₁ => ?_
  refine meets_peek_bind here₁ ?_
  rcases head?_encoded s₁.rest with ⟨first, first'⟩ | ⟨d, b, first, first', same⟩
  · rw [first, first']
    exact meets_fail here₁ nofun
  · rw [first, first']
    dsimp only
    rw [decide_eq_decide.2 (same ']' (by decide))]
    exact (meets_pure here₁ _).mono le₁

theorem meets_atLastItem (here : At input s c) :
    Meets input enough c.pos Reading.atLastItem (atLastItem input) s c := by
  refine meets_get_bind ?_
  dsimp only
  rw [here.bytesFrom_eq, itemSize?_encoded]
  cases found : Reading.itemEnd? 0 s.rest with
  | none =>
    refine .inl ⟨⟨rfl, nofun, List.nil_suffix, ?_⟩, here.reader, here.store⟩
    rw [bytes_eq, length_encoded]
    rfl
  | some after =>
    obtain ⟨word, parts⟩ := itemEnd?_suffix found
    have size : utf8Length s.rest - utf8Length after = utf8Length word := by
      rw [← parts, utf8Length_append, Nat.add_sub_cancel]
    have there := here.move parts.symm
    have parts' := (List.takeWhile_append_dropWhile (p := Text.isPlainBlank) (l := after)).symm
    have next := (there.move parts').head?_eq
    dsimp only [Option.map_some]
    rw [size, run_eq there plain_isPlainBlank, next,
      decide_eq_decide.2 (head?_encoded_eq_byte (by decide) _)]
    exact meets_pure here _

/-! ## Items, names and holes -/

/-- What is left of the text is shorter than `n` characters and, if the bound is large enough, than
`m` bytes. -/
structure Fits (enough : Prop) (n m : Nat) (s : Reading) : Prop where
  length_lt : s.rest.length < n
  utf8Length_lt : enough → utf8Length s.rest < m

theorem At.length_le {s' : Reading} {c' : Cursor} (here : At input s c) (there : At input s' c')
    (le : c.pos ≤ c'.pos) : s'.rest.length ≤ s.rest.length := by
  have pos := here.pos
  have pos' := there.pos
  refine Nat.le_of_not_lt fun longer => ?_
  obtain ⟨word, parts⟩ :=
    List.suffix_of_suffix_length_le here.suffix there.suffix (Nat.le_of_lt longer)
  cases word with
  | nil => exact absurd longer (by rw [← parts]; exact Nat.lt_irrefl _)
  | cons d ds =>
    have size := utf8Length_lt_cons d ds
    rw [← parts, utf8Length_append] at pos'
    omega

theorem At.length_lt {s' : Reading} {c' : Cursor} (here : At input s c) (there : At input s' c')
    (lt : c.pos < c'.pos) : s'.rest.length < s.rest.length := by
  refine Nat.lt_of_le_of_ne (here.length_le there (Nat.le_of_lt lt)) fun same => ?_
  have parts := List.suffix_of_suffix_length_le there.suffix here.suffix (Nat.le_of_eq same)
  have pos := here.pos
  have pos' := there.pos
  rw [parts.eq_of_length same] at pos'
  omega

theorem Fits.later {n m : Nat} {s' : Reading} {c' : Cursor} (fits : Fits enough n m s)
    (here : At input s c) (there : At input s' c') (le : c.pos ≤ c'.pos) : Fits enough n m s' where
  length_lt := Nat.lt_of_le_of_lt (here.length_le there le) fits.length_lt
  utf8Length_lt h := by
    have := here.pos
    have := there.pos
    have := fits.utf8Length_lt h
    omega

/-- Further on in the text less is needed. -/
theorem Fits.less {n m : Nat} {s' : Reading} {c' : Cursor} (fits : Fits enough (n + 1) (m + 1) s)
    (here : At input s c) (there : At input s' c') (lt : c.pos < c'.pos) : Fits enough n m s' where
  length_lt := Nat.lt_of_lt_of_le (here.length_lt there lt) (Nat.le_of_lt_succ fits.length_lt)
  utf8Length_lt h := by
    have := here.pos
    have := there.pos
    have := fits.utf8Length_lt h
    omega

/-- The bounds on a number of items are large enough. -/
theorem At.fits (here : At input s c) :
    Fits enough (s.rest.length + 1) ((bytes input).length + 1) s where
  length_lt := Nat.lt_succ_self _
  utf8Length_lt _ := by
    have := here.pos
    rw [bytes_eq, length_encoded]
    omega

/-- An item is read alike where the bounds fit what is left, and takes a byte at least. -/
def Tracks (input : String) (enough : Prop) (n m : Nat) {α : Type} (x : ReadM α)
    (y : CursorM α) : Prop :=
  ∀ s c, At input s c → Fits enough n m s → Meets input enough (c.pos + 1) x y s c

theorem meets_itemsWithin {α : Type} {n m : Nat} {closed : ReadM Bool} {closed' : CursorM Bool}
    {item : ReadM α} {item' : CursorM α}
    (hclosed : ∀ s c, At input s c → Meets input enough c.pos closed closed' s c)
    (hitem : Tracks input enough n m item item') (p q : Nat) (here : At input s c)
    (fits : Fits enough n m s) (within : Fits enough p q s) :
    Meets input enough c.pos (Reading.itemsWithin closed item p)
      (itemsWithin closed' item' q) s c := by
  induction p generalizing q s c with
  | zero => exact absurd within.length_lt (Nat.not_lt_zero _)
  | succ p ih =>
    cases q with
    | zero => exact meets_tooDeep fun h => absurd (within.utf8Length_lt h) (Nat.not_lt_zero _)
    | succ q =>
      refine meets_bind (hclosed s c here) fun done s₁ c₁ here₁ le₁ => ?_
      have fits₁ := fits.later here here₁ le₁
      refine meets_ite Iff.rfl (fun _ => (meets_pure here₁ _).mono le₁) fun _ => ?_
      refine meets_bind (hitem s₁ c₁ here₁ fits₁) fun x s₂ c₂ here₂ le₂ => ?_
      have fits₂ := fits₁.later here₁ here₂ (by omega)
      have within₂ := within.less here here₂ (by omega)
      refine meets_bind (ih q here₂ fits₂ within₂) fun xs s₃ c₃ here₃ le₃ => ?_
      exact (meets_pure here₃ _).mono (by omega)

theorem meets_items {α : Type} {n m : Nat} {closed : ReadM Bool} {closed' : CursorM Bool}
    {item : ReadM α} {item' : CursorM α}
    (hclosed : ∀ s c, At input s c → Meets input enough c.pos closed closed' s c)
    (hitem : Tracks input enough n m item item') (here : At input s c) (fits : Fits enough n m s) :
    Meets input enough c.pos (Reading.items closed item) (items input closed' item') s c :=
  meets_itemsWithin hclosed hitem _ _ here fits here.fits

/-- Items end where `closed` says so. -/
theorem closed_of_itemsWithin {α : Type} {closed : ReadM Bool} {item : ReadM α} {n : Nat}
    {xs : List α} {s' : Reading} (h : Reading.itemsWithin closed item n s = .ok xs s') :
    ∃ s₁, closed s₁ = .ok true s' := by
  induction n generalizing s xs with
  | zero => cases h
  | succ n ih =>
    obtain ⟨done, s₁, ended, h⟩ := ok_of_bind h
    cases done with
    | true =>
      cases h
      exact ⟨s, ended⟩
    | false =>
      obtain ⟨x, s₂, _, h⟩ := ok_of_bind h
      obtain ⟨xs, s₃, h, last⟩ := ok_of_bind h
      cases last
      exact ih h

theorem head?_of_atInstanceClose {s' : Reading}
    (h : Reading.atInstanceClose s = .ok true s') : s'.rest.head? = some ']' := by
  obtain ⟨_, s₁, _, h⟩ := ok_of_bind h
  obtain ⟨next, s₂, peeked, h⟩ := ok_of_bind h
  cases peeked
  cases first : s₁.rest.head? with
  | none =>
    rw [first] at h
    cases h
  | some d =>
    rw [first] at h
    have ended : EStateM.Result.ok (decide (d = ']')) s₁ = .ok true s' := h
    injection ended with bracket same
    rw [← same, first, of_decide_eq_true bracket]

theorem meets_declare (here : At input s c) (arity : Nat) (type? : Option Term) (kind : HoleKind) :
    Meets input enough c.pos (Reading.declare arity type? kind) (declare arity type? kind) s c := by
  refine meets_get_bind ?_
  rw [here.store]
  exact ⟨rfl, ⟨here.suffix, here.pos, here.reader, rfl⟩, Nat.le_refl _⟩

theorem meets_namedHole (here : At input s c) (name : String) (arity : Nat) :
    Meets input enough c.pos (Reading.namedHole name arity) (namedHole name arity) s c := by
  refine meets_get_bind ?_
  dsimp only
  rw [here.reader]
  cases s.reader.hole? name with
  | some k =>
    refine meets_get_bind ?_
    rw [here.store]
    exact meets_ite Iff.rfl (fun _ => meets_pure here k) fun _ => meets_fail here nofun
  | none =>
    refine meets_bind (meets_declare here arity none .ordinary) fun k s₁ c₁ here₁ le₁ => ?_
    refine meets_bind (meets_know here₁ fun r => { r with holes := (name, k) :: r.holes })
      fun _ s₂ c₂ here₂ le₂ => ?_
    exact (meets_pure here₂ k).mono (by omega)

theorem meets_atom (here : At input s c) (scope : List String) (name : String) :
    Meets input enough c.pos (Reading.atom scope name) (atom scope name) s c := by
  unfold Reading.atom atom
  cases scope.idxOf? name with
  | some i => exact meets_pure here _
  | none =>
    dsimp only
    split
    · refine meets_bind (meets_declare here 0 none .ordinary) fun k s₁ c₁ here₁ le₁ => ?_
      exact (meets_pure here₁ _).mono le₁
    · exact meets_pure here _
    · exact meets_pure here _
    · simpa only using meets_bind (meets_know here fun r => r.meet name)
        fun _ s₁ c₁ here₁ le₁ => (meets_pure here₁ (Term.const name)).mono le₁

end

/-! ## Forms -/

section
variable {n m : Nat} {term : List String → ReadM Term} {term' : List String → CursorM Term}
  (tracks : ∀ scope, Tracks input enough n m (term scope) (term' scope))
  {s : Reading} {c : Cursor} (here : At input s c) (fits : Fits enough n m s)
include tracks here fits

theorem meets_terms (scope : List String) : Meets input enough c.pos
    (Reading.items Reading.atClose (term scope)) (items input (atClose input) (term' scope)) s c :=
  meets_items (fun _ _ here => meets_atClose here) (tracks scope) here fits

theorem meets_inst (scope : List String) :
    Meets input enough c.pos (Reading.inst term scope) (inst input term' scope) s c := by
  refine meets_peek_bind here (meets_ite (head?_encoded_eq_byte (by decide) _).symm ?_ fun _ => ?_)
  · intro first
    obtain ⟨cs, rest⟩ := List.head?_eq_some_iff.1 first
    refine meets_bind (meets_advance here rest (by decide)) fun _ s₁ c₁ here₁ le₁ => ?_
    have fits₁ := fits.later here here₁ (by omega)
    refine meets_bind_run (meets_items (fun _ _ here => meets_atInstanceClose here) (tracks scope)
      here₁ fits₁) fun xs s₂ c₂ run here₂ le₂ => ?_
    obtain ⟨s₃, closed⟩ := closed_of_itemsWithin run
    obtain ⟨ds, rest₂⟩ := List.head?_eq_some_iff.1 (head?_of_atInstanceClose closed)
    refine meets_bind (meets_advance here₂ rest₂ (by decide)) fun _ s₄ c₄ here₄ le₄ => ?_
    exact (meets_pure here₄ xs).mono (by omega)
  · exact meets_pure here []

theorem meets_application (scope : List String) :
    Meets input enough c.pos (Reading.application term scope)
      (application input term' scope) s c := by
  refine meets_bind (tracks scope s c here fits) fun head s₁ c₁ here₁ le₁ => ?_
  have fits₁ := fits.later here here₁ (by omega)
  refine meets_bind (meets_terms tracks here₁ fits₁ scope) fun args s₂ c₂ here₂ le₂ => ?_
  exact (meets_pure here₂ _).mono (by omega)

theorem meets_typedName (scope : List String) :
    Meets input enough (c.pos + 1) (Reading.typedName term scope)
      (typedName input term' scope) s c := by
  refine meets_bind (meets_expect here (by decide)) fun _ s₁ c₁ here₁ le₁ => ?_
  refine meets_bind (meets_identifier here₁) fun name s₂ c₂ here₂ le₂ => ?_
  have fits₂ := fits.later here here₂ (by omega)
  refine meets_bind (tracks scope s₂ c₂ here₂ fits₂) fun type s₃ c₃ here₃ le₃ => ?_
  refine meets_bind (meets_expect here₃ (by decide)) fun _ s₄ c₄ here₄ le₄ => ?_
  exact (meets_pure here₄ _).mono (by omega)

theorem meets_fixpoint (scope : List String) :
    Meets input enough c.pos (Reading.fixpoint term scope) (fixpoint input term' scope) s c := by
  refine meets_bind (meets_number here) fun index s₁ c₁ here₁ le₁ => ?_
  refine meets_bind (meets_expect here₁ (by decide)) fun _ s₂ c₂ here₂ le₂ => ?_
  have fits₂ := fits.later here here₂ (by omega)
  refine meets_bind (meets_items (fun _ _ here => meets_atClose here)
    (fun _ _ here fits => meets_typedName tracks here fits scope) here₂ fits₂)
    fun typed s₃ c₃ here₃ le₃ => ?_
  refine meets_bind (meets_expect here₃ (by decide)) fun _ s₄ c₄ here₄ le₄ => ?_
  refine meets_ite Iff.rfl (fun _ => ?_) fun _ => meets_fail here₄ nofun
  refine meets_bind (meets_expect here₄ (by decide)) fun _ s₅ c₅ here₅ le₅ => ?_
  have fits₅ := fits.later here here₅ (by omega)
  refine meets_bind (meets_terms tracks here₅ fits₅ _) fun bodies s₆ c₆ here₆ le₆ => ?_
  refine meets_bind (meets_expect here₆ (by decide)) fun _ s₇ c₇ here₇ le₇ => ?_
  refine meets_ite Iff.rfl (fun _ => ?_) fun _ => meets_fail here₇ nofun
  exact (meets_pure here₇ _).mono (by omega)

theorem meets_bindersWithin (build : Term → Term → Term) (p q : Nat) (first : Bool)
    (scope : List String) (within : Fits enough p q s) :
    Meets input enough c.pos (Reading.bindersWithin term build p first scope)
      (bindersWithin input term' build q first scope) s c := by
  induction p generalizing q first scope s c with
  | zero => exact absurd within.length_lt (Nat.not_lt_zero _)
  | succ p ih =>
    cases q with
    | zero => exact meets_tooDeep fun h => absurd (within.utf8Length_lt h) (Nat.not_lt_zero _)
    | succ q =>
      refine meets_bind (meets_skipLayout here) fun _ s₁ c₁ here₁ le₁ => ?_
      refine meets_bind (meets_atLastItem here₁) fun last s₂ c₂ here₂ le₂ => ?_
      have fits₂ := fits.later here here₂ (by omega)
      refine meets_ite Iff.rfl (fun _ => ?_) fun _ => ?_
      · refine meets_ite Iff.rfl (fun _ => meets_fail here₂ nofun) fun _ => ?_
        exact (tracks scope s₂ c₂ here₂ fits₂).mono (by omega)
      · refine meets_bind (meets_expect here₂ (by decide)) fun _ s₃ c₃ here₃ le₃ => ?_
        refine meets_bind (meets_identifier here₃) fun name s₄ c₄ here₄ le₄ => ?_
        have fits₄ := fits₂.later here₂ here₄ (by omega)
        refine meets_bind (tracks scope s₄ c₄ here₄ fits₄) fun type s₅ c₅ here₅ le₅ => ?_
        refine meets_bind (meets_expect here₅ (by decide)) fun _ s₆ c₆ here₆ le₆ => ?_
        have fits₆ := fits₄.later here₄ here₆ (by omega)
        have within₆ := within.less here here₆ (by omega)
        refine meets_bind (ih here₆ fits₆ q false (name :: scope) within₆)
          fun body s₇ c₇ here₇ le₇ => ?_
        exact (meets_pure here₇ _).mono (by omega)

theorem meets_binders (build : Term → Term → Term) (scope : List String) :
    Meets input enough c.pos (Reading.binders term build scope)
      (binders input term' build scope) s c :=
  meets_bindersWithin tracks here fits build _ _ true scope here.fits

/-- What stands between parentheses after a word is read alike, and so is an application from the
word on. -/
theorem meets_wordForm (scope : List String) :
    Meets input enough c.pos (Reading.wordForm term scope) (wordForm input term' scope) s c := by
  refine meets_get_bind ?_
  refine meets_bind (meets_identifier here) fun word s₁ c₁ here₁ le₁ => ?_
  have fits₁ := fits.later here here₁ (by omega)
  have applied : Meets input enough c.pos (do Reading.goTo s.rest; Reading.application term scope)
      (do goTo c.pos; application input term' scope) s₁ c₁ := by
    have back : At input { s₁ with rest := s.rest } { c₁ with pos := c.pos } :=
      ⟨here.suffix, here.pos, here₁.reader, here₁.store⟩
    exact meets_application tracks back ⟨fits.length_lt, fits.utf8Length_lt⟩ scope
  refine meets_ite Iff.rfl (fun _ => applied) fun _ => ?_
  split
  · exact (meets_binders tracks here₁ fits₁ .lam scope).mono (by omega)
  · exact (meets_binders tracks here₁ fits₁ .pi scope).mono (by omega)
  · refine meets_bind (meets_expect here₁ (by decide)) fun _ s₂ c₂ here₂ le₂ => ?_
    refine meets_bind (meets_identifier here₂) fun name s₃ c₃ here₃ le₃ => ?_
    have fits₃ := fits.later here here₃ (by omega)
    refine meets_bind (tracks scope s₃ c₃ here₃ fits₃) fun type s₄ c₄ here₄ le₄ => ?_
    have fits₄ := fits.later here here₄ (by omega)
    refine meets_bind (tracks scope s₄ c₄ here₄ fits₄) fun value s₅ c₅ here₅ le₅ => ?_
    refine meets_bind (meets_expect here₅ (by decide)) fun _ s₆ c₆ here₆ le₆ => ?_
    have fits₆ := fits.later here here₆ (by omega)
    refine meets_bind (tracks (name :: scope) s₆ c₆ here₆ fits₆) fun body s₇ c₇ here₇ le₇ => ?_
    exact (meets_pure here₇ _).mono (by omega)
  · refine meets_bind (tracks scope s₁ c₁ here₁ fits₁) fun t s₂ c₂ here₂ le₂ => ?_
    have fits₂ := fits.later here here₂ (by omega)
    refine meets_bind (tracks scope s₂ c₂ here₂ fits₂) fun type s₃ c₃ here₃ le₃ => ?_
    exact (meets_pure here₃ _).mono (by omega)
  · refine meets_bind (tracks scope s₁ c₁ here₁ fits₁) fun motive s₂ c₂ here₂ le₂ => ?_
    have fits₂ := fits.later here here₂ (by omega)
    refine meets_bind (tracks scope s₂ c₂ here₂ fits₂) fun scrutinee s₃ c₃ here₃ le₃ => ?_
    have fits₃ := fits.later here here₃ (by omega)
    refine meets_bind (meets_terms tracks here₃ fits₃ scope) fun branches s₄ c₄ here₄ le₄ => ?_
    exact (meets_pure here₄ _).mono (by omega)
  · exact (meets_fixpoint tracks here₁ fits₁ scope).mono (by omega)
  · refine meets_bind (meets_number here₁) fun level s₂ c₂ here₂ le₂ => ?_
    exact (meets_pure here₂ _).mono (by omega)
  · refine meets_bind (tracks scope s₁ c₁ here₁ fits₁) fun type s₂ c₂ here₂ le₂ => ?_
    refine meets_bind (meets_declare here₂ 0 (some type) .obligation) fun k s₃ c₃ here₃ le₃ => ?_
    exact (meets_pure here₃ _).mono (by omega)
  · simpa only using applied

theorem meets_form (scope : List String) :
    Meets input enough c.pos (Reading.form term scope) (form input term' scope) s c := by
  refine meets_bind (meets_skipLayout here) fun _ s₁ c₁ here₁ le₁ => ?_
  have fits₁ := fits.later here here₁ le₁
  have applied := (meets_application tracks here₁ fits₁ scope).mono le₁
  have worded := (meets_wordForm tracks here₁ fits₁ scope).mono le₁
  refine meets_peek_bind here₁ ?_
  have starts {d : Char} (single : IsSingle d) := head?_encoded_eq_byte single s₁.rest
  have group := starts (d := '(') (by decide)
  have free := starts (d := '#') (by decide)
  have hole := starts (d := '?') (by decide)
  split
  · next first =>
    rw [if_pos (.inl (group.2 first))]
    exact applied
  · next first =>
    rw [if_pos (.inr (.inl (free.2 first)))]
    exact applied
  · next first =>
    rw [if_pos (.inr (.inr (hole.2 first)))]
    exact applied
  · next noGroup noFree noHole =>
    rw [if_neg fun first => first.elim (fun first => noGroup (group.1 first)) fun first =>
      first.elim (fun first => noFree (free.1 first)) fun first => noHole (hole.1 first)]
    exact worded

end

/-- What a step reads is read alike, if the terms inside are. -/
theorem meets_step {n m : Nat} {term : List String → ReadM Term}
    {term' : List String → CursorM Term}
    (tracks : ∀ scope, Tracks input enough n m (term scope) (term' scope)) (scope : List String) :
    Tracks input enough (n + 1) (m + 1) (Reading.step term scope) (step input term' scope) := by
  intro s c here fits
  refine meets_bind (meets_skipLayout here) fun _ s₁ c₁ here₁ le₁ => ?_
  refine meets_peek_bind here₁ ?_
  -- After the first character less is left, so that the terms inside fit.
  have onward {d : Char} (single : IsSingle d) (first : s₁.rest.head? = some d)
      {x : ReadM Term} {y : CursorM Term} (after : ∀ s₂ c₂, At input s₂ c₂ → c₁.pos + 1 ≤ c₂.pos →
        Fits enough n m s₂ → Meets input enough c₂.pos x y s₂ c₂) :
      Meets input enough (c.pos + 1) (do Reading.advance; x) (do advance; y) s₁ c₁ := by
    obtain ⟨cs, rest⟩ := List.head?_eq_some_iff.1 first
    refine meets_bind (meets_advance here₁ rest single) fun _ s₂ c₂ here₂ le₂ => ?_
    exact (after s₂ c₂ here₂ le₂ (fits.less here here₂ (by omega))).mono (by omega)
  rcases head?_encoded s₁.rest with ⟨first, first'⟩ | ⟨d, b, first, first', same⟩
  · rw [first, first']
    exact meets_fail here₁ nofun
  · rw [first, first']
    dsimp only
    have group := same '(' (by decide)
    have free := same '#' (by decide)
    have hole := same '?' (by decide)
    split
    · next none => cases none
    · next opens =>
      cases opens
      rw [if_pos (group.2 rfl)]
      refine onward (by decide) first fun s₂ c₂ here₂ le₂ fits₂ => ?_
      refine meets_bind (meets_form tracks here₂ fits₂ scope) fun t s₃ c₃ here₃ le₃ => ?_
      refine meets_bind (meets_expect here₃ (by decide)) fun _ s₄ c₄ here₄ le₄ => ?_
      exact (meets_pure here₄ t).mono (by omega)
    · next opens =>
      cases opens
      rw [if_neg (fun first => nomatch group.1 first), if_pos (free.2 rfl)]
      refine onward (by decide) first fun s₂ c₂ here₂ le₂ fits₂ => ?_
      refine meets_bind (meets_number here₂) fun k s₃ c₃ here₃ le₃ => ?_
      refine meets_ite Iff.rfl (fun _ => ?_) fun _ => meets_fail here₃ nofun
      exact (meets_pure here₃ _).mono (by omega)
    · next opens =>
      cases opens
      rw [if_neg (fun first => nomatch group.1 first), if_neg (fun first => nomatch free.1 first),
        if_pos (hole.2 rfl)]
      refine onward (by decide) first fun s₂ c₂ here₂ le₂ fits₂ => ?_
      refine meets_bind (meets_identifier here₂) fun name s₃ c₃ here₃ le₃ => ?_
      have fits₃ := fits₂.later here₂ here₃ (by omega)
      refine meets_bind (meets_inst tracks here₃ fits₃ scope) fun xs s₄ c₄ here₄ le₄ => ?_
      refine meets_bind (meets_namedHole here₄ name xs.length) fun k s₅ c₅ here₅ le₅ => ?_
      exact (meets_pure here₅ _).mono (by omega)
    · next noGroup noFree noHole opens =>
      cases opens
      rw [if_neg fun first => noGroup (group.1 first), if_neg fun first => noFree (free.1 first),
        if_neg fun first => noHole (hole.1 first)]
      refine meets_bind (meets_identifier here₁) fun name s₂ c₂ here₂ le₂ => ?_
      exact (meets_atom here₂ scope name).mono (by omega)

theorem tracks_termWithin (n m : Nat) (scope : List String) :
    Tracks input enough n m (Reading.termWithin n scope) (termWithin input m scope) := by
  induction n generalizing m scope with
  | zero => exact fun _ _ _ fits => absurd fits.length_lt (Nat.not_lt_zero _)
  | succ n ih =>
    cases m with
    | zero =>
      exact fun _ _ _ fits =>
        meets_tooDeep fun h => absurd (fits.utf8Length_lt h) (Nat.not_lt_zero _)
    | succ m => exact meets_step (ih m) scope

theorem meets_wholeTerm {s : Reading} {c : Cursor} {n : Nat} (here : At input s c) :
    Meets input (utf8Length s.rest < n) c.pos Reading.wholeTerm (wholeTermWithin input n) s c := by
  have fits : Fits (utf8Length s.rest < n) (s.rest.length + 1) n s := ⟨Nat.lt_succ_self _, id⟩
  refine meets_get_left ?_
  refine meets_bind (tracks_termWithin _ _ [] s c here fits) fun t s₁ c₁ here₁ le₁ => ?_
  refine meets_bind (meets_skipLayout here₁) fun _ s₂ c₂ here₂ le₂ => ?_
  refine meets_get_left (meets_peek_right here₂ ?_)
  rw [isNone_head?_encoded]
  exact meets_ite Iff.rfl (fun _ => (meets_pure here₂ t).mono (by omega))
    fun _ => meets_fail here₂ nofun

end

/-! ## Whole texts -/

/-- A place in a text that is not inside a character. -/
def IsPlace (input : String) (pos : Nat) : Prop :=
  pos ≤ input.utf8ByteSize ∧ String.Pos.Raw.IsValid input ⟨pos⟩

theorem isPlace_of_suffix {rest : List Char} {pos : Nat} (h : rest <:+ input.toList)
    (here : pos + utf8Length rest = utf8Length input.toList) : IsPlace input pos :=
  ⟨by rw [← utf8Length_toList]; omega, isValid_of_suffix h here⟩

section
variable {α : Type} {k : Nat} {x : ReadM α} {y : CursorM α} {s : Reading} {c c' : Cursor}

theorem Meets.place {a : α} (h : Meets input enough k x y s c) (run : y c = .ok a c') :
    k ≤ c'.pos ∧ IsPlace input c'.pos := by
  unfold Meets at h
  rw [run] at h
  generalize x s = p at h
  cases p with
  | ok b s' =>
    obtain ⟨_, there, le⟩ := h
    exact ⟨le, isPlace_of_suffix there.suffix there.pos⟩
  | error e s' => exact False.elim h

theorem Meets.fault {stop : Stop} (h : Meets input enough k x y s c)
    (run : y c = .error stop c') : ∃ e, stop = .fault e ∧
      (e.fault ≠ .tooDeep ∧ IsPlace input e.position ∨ e.fault = .tooDeep ∧ ¬enough) := by
  unfold Meets at h
  rw [run] at h
  generalize x s = p at h
  cases stop with
  | split start stop => cases p <;> exact False.elim h
  | fault e' =>
    refine ⟨e', rfl, ?_⟩
    cases p with
    | ok b s' => exact .inr h
    | error e s' =>
      refine Or.imp_left (fun ⟨same, _⟩ => ?_) h
      exact ⟨same.fault ▸ same.bounded, isPlace_of_suffix same.suffix same.position⟩

end

/-- The start of a text. -/
theorem at_start (r : Reader) (store : Store) :
    At input { rest := input.toList, reader := r, store } { pos := 0, reader := r, store } :=
  ⟨List.suffix_refl _, Nat.zero_add _, rfl, rfl⟩

/-- If the bound on the nesting is large enough, then the bytes are read as the characters are. -/
theorem readWithin_eq (r : Reader) (store : Store) {n : Nat} (enough : input.utf8ByteSize < n) :
    readWithin input n r store =
      ((r.read store input.toList).1.mapError .fault, (r.read store input.toList).2) := by
  rw [← utf8Length_toList] at enough
  have start : At input _ _ := at_start r store
  have meets := meets_wholeTerm (n := n) start
  unfold Meets Agree at meets
  simp only [readWithin, Reader.read, EStateM.run]
  split at meets
  · next run run' =>
    obtain ⟨rfl, there, _⟩ := meets
    rw [run, run']
    dsimp only
    rw [there.reader, there.store]
    rfl
  · exact absurd enough meets.2
  · next e s e' c run run' =>
    obtain ⟨same, reader, store⟩ | ⟨_, small⟩ := meets
    · have position := same.position
      have error : e' = ⟨e.fault, utf8Length input.toList - utf8Length e.remaining⟩ := by
        rw [ReadError.mk.injEq]
        exact ⟨same.fault, by omega⟩
      rw [run, run']
      dsimp only
      rw [reader, store, error]
      rfl
    · exact absurd enough small
  · exact meets.elim

theorem length_bytes (input : String) : (bytes input).length = input.utf8ByteSize := by
  rw [bytes_eq, length_encoded, utf8Length_toList]

/-- What a cursor stands at when it is not inside a character. -/
theorem IsPlace.at {c : Cursor} (h : IsPlace input c.pos) :
    ∃ s, At input s c ∧ c.pos + utf8Length s.rest = input.utf8ByteSize := by
  obtain ⟨rest, suffix, pos⟩ := suffix_of_isValid h.2
  exact ⟨⟨rest, c.reader, c.store⟩, ⟨suffix, pos, rfl, rfl⟩, utf8Length_toList input ▸ pos⟩

/-- How the reading of a text ends. -/
structure Ends (input : String) : Prop where
  /-- The text is read as its characters are. -/
  same : ∀ r store, read input r store =
    ((r.read store input.toList).1.mapError .fault, (r.read store input.toList).2)
  /-- No bound on the nesting is met: with any larger one the answer is the same. -/
  unbounded : ∀ n r store, input.utf8ByteSize < n →
    readWithin input n r store = read input r store
  /-- A text that is not a term has a fault, which is found at a place that is in the text and not
  inside a character; no slice is taken elsewhere, and no bound is met. -/
  fault : ∀ r store stop, (read input r store).1 = .error stop →
    ∃ e, stop = .fault e ∧ e.fault ≠ .tooDeep ∧ IsPlace input e.position
  /-- Reading a term passes over a byte at least, and comes to a place that is not inside a
  character. -/
  progress : ∀ n scope c t c', IsPlace input c.pos → termWithin input n scope c = .ok t c' →
    c.pos < c'.pos ∧ IsPlace input c'.pos
  /-- What is not a term has such a fault, if the bound on the nesting is larger than what is left
  of the text. -/
  termFault : ∀ n scope c stop c', IsPlace input c.pos →
    termWithin input n scope c = .error stop c' →
    ∃ e, stop = .fault e ∧ (e.fault ≠ .tooDeep ∧ IsPlace input e.position ∨
      e.fault = .tooDeep ∧ n ≤ input.utf8ByteSize - c.pos)

/-- The reading of every text ends, with a term or with a fault, at a place that is not inside a
character. -/
theorem read_ends (input : String) : Ends input := by
  have enough : input.utf8ByteSize < (bytes input).length + 1 := by
    rw [length_bytes]
    exact Nat.lt_succ_self _
  -- From a place that is not inside a character, terms are read as they are from the characters.
  have meets {n : Nat} (scope : List String) {c : Cursor} (h : IsPlace input c.pos) :
      ∃ x s, Meets input (input.utf8ByteSize - c.pos < n) (c.pos + 1) x
        (termWithin input n scope) s c := by
    obtain ⟨s, here, pos⟩ := h.at
    have fits : Fits (input.utf8ByteSize - c.pos < n) (s.rest.length + 1) n s :=
      ⟨Nat.lt_succ_self _, fun h => by omega⟩
    exact ⟨_, s, tracks_termWithin _ n scope s c here fits⟩
  refine ⟨fun r store => readWithin_eq r store enough, fun n r store large => ?_,
    fun r store stop failed => ?_, fun n scope c t c' place run => ?_,
    fun n scope c stop c' place run => ?_⟩
  · rw [read, readWithin_eq r store large, readWithin_eq r store enough]
  · have start : At input _ _ := at_start r store
    have meets := meets_wholeTerm (n := (bytes input).length + 1) start
    rw [read, readWithin, EStateM.run] at failed
    split at failed
    · cases failed
    · next run =>
      cases failed
      obtain ⟨e, rfl, ⟨bounded, place⟩ | ⟨_, small⟩⟩ := meets.fault run
      · exact ⟨e, rfl, bounded, place⟩
      · exact absurd (utf8Length_toList input ▸ enough) small
  · obtain ⟨x, s, meets⟩ := meets (n := n) scope place
    exact meets.place run
  · obtain ⟨x, s, meets⟩ := meets (n := n) scope place
    obtain ⟨e, rfl, h⟩ := meets.fault run
    exact ⟨e, rfl, h.imp_right (.imp_right Nat.le_of_not_lt)⟩

/-- A comment is passed over byte by byte, and the fault is before a character. -/
example : (read "(f ; é\n x é)" {} .empty).1 = .error (.fault ⟨.identifierMissing, 11⟩) := by
  decide +kernel

end Cursor

end KeyedMatching
