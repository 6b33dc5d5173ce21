import KeyedMatching.Proofs.Holes.Declaring
import KeyedMatching.Proofs.Text.Written

/-!
# What reading consumes

The holes of a text are numbers of its own, and reading declares a hole for each. `A` gives each of
them its arity.

* `Reading.Numbering A s`: the names that are known at `s` stand for different declared holes;
* `Reading.Numbers r ρ`: hole `k` of the text is hole `ρ k` for the reader;
* `Reading.Consumes A x input rest Q`: at `input` the step `x` succeeds, goes on to `rest`, and
  gives a result for which `Q ρ` holds, whenever `ρ` numbers the holes that are known afterwards;
  there is one rule for each way in which steps are put together;
* `Reading.consumes_items`: items that are written one after the other are read one after the other.
-/

namespace KeyedMatching

namespace Reading

/-- The holes that the reader knows by number are declared, each with its arity, and two numbers
stand for two holes. -/
structure Numbering (A : Nat → Nat) (s : Reading) : Prop where
  declared : ∀ k l : Nat, s.reader.hole? k.repr = some l → s.store.Declares l (A k)
  distinct : ∀ k k' l : Nat, s.reader.hole? k.repr = some l → s.reader.hole? k'.repr = some l →
    k = k'

/-- Hole `k` of the text is hole `ρ k` of the store. -/
def Numbers (r : Reader) (ρ : Nat → Nat) : Prop :=
  ∀ k l : Nat, r.hole? k.repr = some l → ρ k = l

theorem numbers_exists (r : Reader) : ∃ ρ, Numbers r ρ :=
  ⟨fun k : Nat => (r.hole? k.repr).getD 0, fun k l known => by simp [known]⟩

section
variable {A : Nat → Nat} {α β : Type} {input mid rest : List Char}

/-- At `input` the step succeeds and goes on to `rest`, and its result satisfies `Q` for the numbers
of the holes. -/
def Consumes (A : Nat → Nat) (x : ReadM α) (input rest : List Char) (Q : (Nat → Nat) → α → Prop) :
    Prop :=
  ∀ s : Reading, s.rest = input → Numbering A s →
    ∃ a s', x s = .ok a s' ∧ s'.rest = rest ∧ Numbering A s' ∧
      ∀ ρ, Numbers s'.reader ρ → Numbers s.reader ρ ∧ Q ρ a

section
variable {x : ReadM α} {P Q : (Nat → Nat) → α → Prop}

theorem Consumes.mono (h : Consumes A x input rest P) (imp : ∀ ρ a, P ρ a → Q ρ a) :
    Consumes A x input rest Q := by
  intro s here numbering
  obtain ⟨a, s', run, there, numbering', known⟩ := h s here numbering
  exact ⟨a, s', run, there, numbering', fun ρ hρ => (known ρ hρ).imp_right (imp ρ a)⟩

theorem consumes_pure {a : α} (h : ∀ ρ, Q ρ a) : Consumes A (pure a) input input Q :=
  fun s here numbering => ⟨a, s, rfl, here, numbering, fun ρ hρ => ⟨hρ, h ρ⟩⟩

/-- What the rest of a step does may depend on the first result, as far as that is known for some
numbers of the holes. -/
theorem consumes_bind {f : α → ReadM β} {R : (Nat → Nat) → β → Prop}
    (hx : Consumes A x input mid P)
    (hf : ∀ a, (∃ ρ, P ρ a) → Consumes A (f a) mid rest fun ρ b => P ρ a → R ρ b) :
    Consumes A (x >>= f) input rest R := by
  intro s here numbering
  obtain ⟨a, s₁, run, there, numbering₁, known⟩ := hx s here numbering
  obtain ⟨ρ, hρ⟩ := numbers_exists s₁.reader
  obtain ⟨b, s₂, run₁, there₁, numbering₂, known₁⟩ :=
    hf a ⟨ρ, (known ρ hρ).2⟩ s₁ there numbering₁
  refine ⟨b, s₂, ?_, there₁, numbering₂, fun σ hσ => ?_⟩
  · rw [bind_apply, run]
    exact run₁
  · have second := known₁ σ hσ
    have first := known σ second.1
    exact ⟨first.1, second.2 first.2⟩

/-- `consumes_bind` where the first result is known. -/
theorem consumes_then {f : α → ReadM β} {R : (Nat → Nat) → β → Prop} {a : α}
    (hx : Consumes A x input mid fun _ a' => a' = a) (hf : Consumes A (f a) mid rest R) :
    Consumes A (x >>= f) input rest R :=
  consumes_bind hx fun _ same => same.elim fun _ same => same ▸ hf.mono fun _ _ hb _ => hb

theorem consumes_get {f : Reading → ReadM α}
    (h : ∀ s : Reading, s.rest = input → Consumes A (f s) input rest Q) :
    Consumes A (get >>= f) input rest Q :=
  fun s here numbering => h s here s here numbering

end

/-! ## Characters -/

theorem consumes_goTo : Consumes A (goTo rest) input rest fun _ u => u = () :=
  fun s _ numbering => ⟨(), { s with rest }, rfl, rfl, ⟨numbering.declared, numbering.distinct⟩,
    fun _ hρ => ⟨hρ, rfl⟩⟩

theorem consumes_peek : Consumes A peek input input fun _ c => c = input.head? :=
  consumes_get fun _ here => consumes_pure fun _ => by rw [here]

theorem consumes_advance {c : Char} :
    Consumes A advance (c :: rest) rest fun _ u => u = () :=
  consumes_get fun s here => by
    rw [here]
    exact consumes_goTo

theorem consumes_skipLayout :
    Consumes A skipLayout input (dropLayout false input) fun _ u => u = () :=
  consumes_get fun s here => by
    rw [here]
    exact consumes_goTo

theorem consumes_expect {c : Char} (next : dropLayout false input = c :: rest) :
    Consumes A (expect c) input rest fun _ u => u = () := by
  apply consumes_then consumes_skipLayout
  rw [next]
  apply consumes_then consumes_peek
  rw [List.head?_cons, if_pos rfl]
  exact consumes_advance

/-- A word of a text is what its characters are, up to one of another kind. -/
theorem word_append {p : Char → Bool} {w : List Char} (word : ∀ c ∈ w, p c = true)
    (ends : rest.takeWhile p = []) :
    (w ++ rest).takeWhile p = w ∧ (w ++ rest).dropWhile p = rest := by
  have none_more : rest.dropWhile p = rest := by
    have both := List.takeWhile_append_dropWhile (p := p) (l := rest)
    rwa [ends, List.nil_append] at both
  constructor
  · rw [List.takeWhile_append_of_pos word, ends, List.append_nil]
  · rw [List.dropWhile_append_of_pos word, none_more]

theorem consumes_identifier {w : List Char} (name : IsName (String.ofList w))
    (next : dropLayout false input = w ++ rest) (ends : rest.takeWhile isNameChar = []) :
    Consumes A identifier input rest fun _ a => a = String.ofList w := by
  obtain ⟨some', chars⟩ := name
  rw [String.toList_ofList] at some' chars
  apply consumes_then consumes_skipLayout
  rw [next]
  refine consumes_get fun s here => ?_
  obtain ⟨word, after⟩ := word_append chars ends
  simp only [here, word, after]
  rw [if_neg (by simpa using some')]
  exact consumes_then consumes_goTo (consumes_pure fun _ => rfl)

/-- A name that stands directly at the place reached, with a space after it. -/
theorem consumes_name {c : String} (name : IsName c) :
    Consumes A identifier (c.toList ++ ' ' :: rest) (' ' :: rest) fun _ a => a = c := by
  obtain ⟨x, w, chars, opening⟩ := opening_name name
  have word : String.ofList c.toList = c := String.ofList_toList
  have stands : dropLayout false (c.toList ++ ' ' :: rest) = c.toList ++ ' ' :: rest := by
    rw [chars]
    exact dropLayout_of_isOpening opening _
  have ends : (' ' :: rest).takeWhile isNameChar = [] :=
    takeWhile_isNameChar_of_ends (.inr (by simp))
  simpa only [word] using consumes_identifier (word.symm ▸ name) stands ends

theorem digits?_toDigits {n : Nat} (small : n < Text.bound32) :
    Text.digits? Text.bound32 (Nat.toDigits 10 n) = some n := by
  have value : Text.digitsValue (Nat.toDigits 10 n) = n := by
    rw [← Nat.toList_repr, digitsValue_repr]
  have some' : (Nat.toDigits 10 n).isEmpty = false := by
    simp [Nat.toDigits_ne_nil]
  have digits : (Nat.toDigits 10 n).all Char.isDigit = true := by
    rw [← Nat.toList_repr, List.all_eq_true]
    exact fun c hc => isDigit_of_mem_repr hc
  simp [Text.digits?, value, some', digits, small]

theorem consumes_number {n : Nat} (small : n < Text.bound32)
    (next : dropLayout false input = Nat.toDigits 10 n ++ rest)
    (ends : Ends rest) :
    Consumes A number input rest fun _ a => a = n := by
  have digits : ∀ c ∈ Nat.toDigits 10 n, c.isDigit = true := by
    rw [← Nat.toList_repr]
    exact fun c hc => isDigit_of_mem_repr hc
  apply consumes_then consumes_skipLayout
  rw [next]
  refine consumes_get fun s here => ?_
  obtain ⟨word, after⟩ := word_append digits (takeWhile_isDigit_of_ends ends)
  simp only [here, word, after, digits?_toDigits small]
  exact consumes_then consumes_goTo (consumes_pure fun _ => rfl)

theorem consumes_atClose {c : Char} (next : dropLayout false input = c :: rest) :
    Consumes A atClose input (c :: rest) fun _ closed => closed = decide (c = ')') := by
  apply consumes_then consumes_skipLayout
  rw [next]
  exact consumes_then consumes_peek (consumes_pure fun _ => by simp)

theorem consumes_atInstanceClose {c : Char} (next : dropLayout false input = c :: rest) :
    Consumes A atInstanceClose input (c :: rest) fun _ closed => closed = decide (c = ']') := by
  apply consumes_then consumes_skipLayout
  rw [next]
  exact consumes_then consumes_peek (consumes_pure fun _ => rfl)

theorem consumes_atLastItem {after : List Char} (past : itemEnd? 0 input = some after) :
    Consumes A atLastItem input input fun _ last =>
      last = decide ((after.dropWhile Text.isPlainBlank).head? = some ')') := by
  refine consumes_get fun s here => ?_
  rw [here, past]
  exact consumes_pure fun _ => rfl

/-! ## Items -/

theorem length_dropLayout_le (inside : Bool) (cs : List Char) :
    (dropLayout inside cs).length ≤ cs.length := by
  fun_induction dropLayout inside cs with
  | case1 => simp
  | case2 c cs ih => simp only [List.length_cons]; omega
  | case3 c cs blank ih => simp only [List.length_cons]; omega
  | case4 c cs blank comment ih => simp only [List.length_cons]; omega
  | case5 c cs blank comment => exact Nat.le_refl _

section
variable {closed : ReadM Bool} {item : ReadM α} {close : Char} {chars : β → List Char}
  {value : (Nat → Nat) → β → α}

/-- What is written for items, a space before each. -/
def spaced (chars : β → List Char) (us : List β) : List Char :=
  us.flatMap fun u => ' ' :: chars u

/-- The step reads what is written for an item. -/
structure Takes (A : Nat → Nat) (item : ReadM α) (chars : β → List Char)
    (value : (Nat → Nat) → β → α) (u : β) : Prop where
  opening : ∃ c cs, chars u = c :: cs ∧ IsOpening c
  consumes : ∀ input rest, dropLayout false input = chars u ++ rest → Ends rest →
    Consumes A item input rest fun ρ a => a = value ρ u

/-- The step finds out whether a group ends. -/
def Detects (A : Nat → Nat) (closed : ReadM Bool) (close : Char) : Prop :=
  ∀ input c cs, dropLayout false input = c :: cs →
    Consumes A closed input (c :: cs) fun _ done => done = decide (c = close)

theorem ends_spaced (hclose : close = ')' ∨ close = ']') (us : List β) (rest : List Char) :
    Ends (spaced chars us ++ close :: rest) := by
  cases us with
  | nil => exact .inr (follows_cons.2 (.inr hclose))
  | cons u us => exact .inr (follows_cons.2 (.inl rfl))

theorem Takes.dropLayout {u : β} (hu : Takes A item chars value u) (rest : List Char) :
    dropLayout false (chars u ++ rest) = chars u ++ rest := by
  obtain ⟨c, cs, text, opening⟩ := hu.opening
  rw [text]
  exact dropLayout_of_isOpening opening _

theorem dropLayout_spaced {u : β} (hu : Takes A item chars value u) (us : List β)
    (rest : List Char) :
    Reading.dropLayout false (spaced chars (u :: us) ++ rest) =
      chars u ++ (spaced chars us ++ rest) := by
  have drop (cs : List Char) :
      Reading.dropLayout false (' ' :: cs) = Reading.dropLayout false cs := rfl
  have text : spaced chars (u :: us) ++ rest = ' ' :: (chars u ++ (spaced chars us ++ rest)) := by
    simp [spaced]
  rw [text, drop, hu.dropLayout]

theorem length_le_spaced (chars : β → List Char) (us : List β) :
    us.length ≤ (spaced chars us).length := by
  induction us with
  | nil => simp
  | cons u us ih =>
    simp only [spaced, List.flatMap_cons, List.length_append, List.length_cons] at ih ⊢
    omega

variable (hclosed : Detects A closed close) (hclose : close = ')' ∨ close = ']')
include hclosed hclose

theorem consumes_itemsWithin {us : List β} (hitem : ∀ u ∈ us, Takes A item chars value u) {n : Nat}
    (fuel : us.length < n)
    (here : dropLayout false input = dropLayout false (spaced chars us ++ close :: rest)) :
    Consumes A (itemsWithin closed item n) input (close :: rest) fun ρ xs =>
      xs = us.map (value ρ) := by
  induction us generalizing n input with
  | nil =>
    obtain ⟨n, rfl⟩ : ∃ m, n = m + 1 := ⟨n - 1, by simp at fuel; omega⟩
    have next : dropLayout false input = close :: rest := by
      rw [here]
      rcases hclose with rfl | rfl <;> rfl
    apply consumes_then (hclosed _ _ _ next)
    rw [if_pos (by simp)]
    exact consumes_pure fun _ => rfl
  | cons u us ih =>
    obtain ⟨n, rfl⟩ : ∃ m, n = m + 1 := ⟨n - 1, by simp at fuel; omega⟩
    obtain ⟨hu, hus⟩ := List.forall_mem_cons.1 hitem
    obtain ⟨c, cs, text, opening⟩ := hu.opening
    have next : dropLayout false input = chars u ++ (spaced chars us ++ close :: rest) := by
      rw [here, dropLayout_spaced hu]
    have other : c ≠ close := ne_of_isOpening opening (by rcases hclose with rfl | rfl <;> simp)
    rw [text, List.cons_append] at next
    apply consumes_then (hclosed _ _ _ next)
    rw [if_neg (by simpa using other), ← List.cons_append, ← text]
    refine consumes_bind (hu.consumes _ _ (hu.dropLayout _) (ends_spaced hclose us rest))
      fun x _ => ?_
    refine consumes_bind (ih hus (by simpa using fuel) rfl) fun xs _ => ?_
    refine consumes_pure fun ρ hxs hx => ?_
    rw [hx, hxs, List.map_cons]

/-- Items that are written one after the other are read one after the other. -/
theorem consumes_items {us : List β} (hitem : ∀ u ∈ us, Takes A item chars value u)
    (here : dropLayout false input = dropLayout false (spaced chars us ++ close :: rest)) :
    Consumes A (items closed item) input (close :: rest) fun ρ xs => xs = us.map (value ρ) := by
  refine consumes_get fun s same => consumes_itemsWithin hclosed hclose hitem ?_ here
  -- The items take as many characters as there are items, so that the fuel is enough.
  have left := length_dropLayout_le false input
  rw [same]
  cases us with
  | nil => simp
  | cons u us =>
    have hu := hitem u List.mem_cons_self
    obtain ⟨c, cs, text, _⟩ := hu.opening
    have short := length_le_spaced chars us
    rw [here, dropLayout_spaced hu, text] at left
    simp only [List.length_append, List.length_cons] at left ⊢
    omega

end

/-! ## Names and holes -/

theorem hole?_cons (r : Reader) (name c : String) (l : Nat) :
    ({ r with holes := (name, l) :: r.holes } : Reader).hole? c =
      if c = name then some l else r.hole? c := by
  by_cases same : c = name
  · simp [Reader.hole?, same]
  · have other : (c == name) = false := beq_eq_false_iff_ne.2 same
    simp [Reader.hole?, List.lookup_cons, same, other]

/-- The number of a hole is known afterwards, whether the hole was met before or is new. -/
theorem consumes_namedHole {k n : Nat} (arity : A k = n) :
    Consumes A (namedHole k.repr n) input input fun ρ l => l = ρ k := by
  intro s here numbering
  cases known : s.reader.hole? k.repr with
  | some l =>
    obtain ⟨d, hd, hn⟩ := numbering.declared k l known
    have run : namedHole k.repr n s = .ok l s := by
      rw [namedHole, get_bind_apply, known]
      simp [get_bind_apply, hd, hn, arity]
      rfl
    exact ⟨l, s, run, here, numbering, fun ρ hρ => ⟨hρ, (hρ k l known).symm⟩⟩
  | none =>
    let l := s.store.slots.length
    let s' : Reading := { s with
      reader := { s.reader with holes := (k.repr, l) :: s.reader.holes }
      store := (s.store.fresh n none .ordinary).2 }
    have run : namedHole k.repr n s = .ok l s' := by
      rw [namedHole, get_bind_apply, known]
      rfl
    have table (j : Nat) : s'.reader.hole? j.repr =
        if j = k then some l else s.reader.hole? j.repr := by
      rw [hole?_cons]
      simp only [repr_inj]
    have old {j m : Nat} (hm : s.reader.hole? j.repr = some m) :
        j ≠ k ∧ s'.reader.hole? j.repr = some m := by
      have other : j ≠ k := by
        rintro rfl
        rw [known] at hm
        cases hm
      exact ⟨other, by rw [table, if_neg other, hm]⟩
    have fresh {j m : Nat} (hm : s.reader.hole? j.repr = some m) : m ≠ l := by
      obtain ⟨d, hd, _⟩ := numbering.declared j m hm
      exact Nat.ne_of_lt (Store.lt_of_hole? hd)
    refine ⟨l, s', run, here, ⟨fun j m hm => ?_, fun j j' m hm hm' => ?_⟩, fun ρ hρ => ⟨?_, ?_⟩⟩
    · rw [table] at hm
      split at hm
      · next same =>
        cases hm
        rw [same, arity]
        exact s.store.declares_fresh n none .ordinary
      · have enlarges : s.store.Enlarges (s.store.fresh n none .ordinary).2 :=
          Store.enlarges_fresh (by decide) (by simp)
        exact enlarges.declares (numbering.declared j m hm)
    · rw [table] at hm hm'
      split at hm <;> split at hm'
      · next first second => rw [first, second]
      · cases hm
        exact absurd rfl (fresh hm')
      · cases hm'
        exact absurd rfl (fresh hm)
      · exact numbering.distinct j j' m hm hm'
    · exact fun j m hm => hρ j m (old hm).2
    · exact (hρ k l (by rw [table, if_pos rfl])).symm

theorem hole?_meet (r : Reader) (name c : String) : (r.meet name).hole? c = r.hole? c := by
  unfold Reader.meet Reader.hole?
  split <;> rfl

section
variable {scope : List String} {name : String}

theorem consumes_atom_bound {i : Nat} (bound : scope.idxOf? name = some i) :
    Consumes A (atom scope name) input input fun _ t => t = .rel i := by
  unfold atom
  rw [bound]
  exact consumes_pure fun _ => rfl

theorem consumes_atom_constant (free : name ∉ scope) (constant : name ∉ reservedWords) :
    Consumes A (atom scope name) input input fun _ t => t = .const name := by
  have meet : Consumes A
      (modify fun s : Reading => { s with reader := s.reader.meet name } : ReadM PUnit)
      input input fun _ u => u = () := by
    intro s here numbering
    refine ⟨(), { s with reader := s.reader.meet name }, rfl, here, ⟨fun k l hl => ?_, ?_⟩,
      fun ρ hρ => ⟨fun k l hl => hρ k l ?_, rfl⟩⟩
    · rw [hole?_meet] at hl
      exact numbering.declared k l hl
    · intro k k' l hl hl'
      rw [hole?_meet] at hl hl'
      exact numbering.distinct k k' l hl hl'
    · rw [hole?_meet]
      exact hl
  have others : name ≠ "_" ∧ name ≠ "Prop" ∧ name ≠ "Type" := by
    simpa [reservedWords] using constant
  unfold atom
  rw [List.idxOf?_eq_none_iff.2 free]
  dsimp only
  split
  · exact absurd rfl others.1
  · exact absurd rfl others.2.1
  · exact absurd rfl others.2.2
  · exact consumes_then meet (consumes_pure fun _ => rfl)

end

end

end Reading

end KeyedMatching
