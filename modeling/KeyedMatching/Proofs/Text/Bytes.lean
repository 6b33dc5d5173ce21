import KeyedMatching.Proofs.Text.Blanked
import KeyedMatching.Term.Cursor
import Mathlib.Data.String.Basic

/-!
# The bytes of a text

UTF-8 writes the characters of the grammar as one byte each, which no other character has among its
own. So what is found in the bytes is what is found in the characters.

* `Cursor.encoded`: the bytes of characters; `Cursor.bytes_eq` says that they are those of the text;
* `Cursor.encoded_cases`: a character is a byte of its own or takes bytes of another kind;
* `Cursor.takeWhile_encoded`, `Cursor.layoutSize_encoded`, `Cursor.itemSize?_encoded`: words, layout
  and items end at the same place;
* `Cursor.isValid_of_suffix`, `Cursor.extract_eq`: places between characters, and slices between
  two of them.
-/

namespace KeyedMatching

namespace Cursor

/-! ## Characters as bytes -/

/-- The bytes of characters. -/
def encoded (cs : List Char) : List UInt8 :=
  cs.flatMap String.utf8EncodeChar

theorem encoded_cons (c : Char) (cs : List Char) :
    encoded (c :: cs) = String.utf8EncodeChar c ++ encoded cs :=
  List.flatMap_cons

theorem encoded_append (cs ds : List Char) : encoded (cs ++ ds) = encoded cs ++ encoded ds :=
  List.flatMap_append

theorem length_encoded (cs : List Char) : (encoded cs).length = utf8Length cs := by
  induction cs with
  | nil => rfl
  | cons c cs ih => rw [encoded_cons, List.length_append, ih, String.length_utf8EncodeChar]; rfl

theorem bytes_eq (input : String) : bytes input = encoded input.toList := by
  conv_lhs => rw [bytes, ← @String.ofList_toList input, String.toByteArray_ofList]
  rw [List.utf8Encode, List.data_toByteArray]
  rfl

/-- A character that is one byte. -/
def IsSingle (c : Char) : Prop :=
  c.toNat < 128

instance : DecidablePred IsSingle := fun c => inferInstanceAs (Decidable (c.toNat < 128))

/-- A byte of a character that is more than one byte. -/
def IsPartial (b : UInt8) : Prop :=
  128 ≤ b.toNat

theorem encode_of_isSingle {c : Char} (h : IsSingle c) : String.utf8EncodeChar c = [byte c] :=
  String.utf8EncodeChar_eq_singleton
    (Char.utf8Size_eq_one_iff.2 (UInt32.le_iff_toNat_le.2 (Nat.le_of_lt_succ h)))

theorem encode_of_not_isSingle {c : Char} (h : ¬ IsSingle c) :
    ∀ b ∈ String.utf8EncodeChar c, IsPartial b := by
  have large : ¬ c.val.toNat ≤ 127 := fun le => h (Nat.lt_succ_of_le le)
  simp only [String.utf8EncodeChar, if_neg large, IsPartial]
  split_ifs <;> simp <;> omega

theorem toNat_byte {c : Char} (h : IsSingle c) : (byte c).toNat = c.toNat :=
  (UInt32.toNat_toUInt8 c.val).trans (Nat.mod_eq_of_lt (Nat.lt_trans h (by decide)))

theorem byte_ne_of_isPartial {c : Char} {b : UInt8} (h : IsSingle c) (hb : IsPartial b) :
    b ≠ byte c := by
  rintro rfl
  rw [IsPartial, toNat_byte h] at hb
  exact absurd h (Nat.not_lt.2 hb)

theorem byte_inj {c d : Char} (hc : IsSingle c) (hd : IsSingle d) : byte c = byte d ↔ c = d := by
  rw [← UInt8.toNat_inj, toNat_byte hc, toNat_byte hd, Char.toNat_inj]

theorem beq_byte {c d : Char} (hc : IsSingle c) (hd : IsSingle d) :
    (byte c == byte d) = (c == d) :=
  Bool.eq_iff_iff.2 (by simp [byte_inj hc hd])

theorem beq_byte_of_isPartial {c : Char} {b : UInt8} (h : IsSingle c) (hb : IsPartial b) :
    (b == byte c) = false :=
  beq_eq_false_iff_ne.2 (byte_ne_of_isPartial h hb)

/-- The characters of some kind are all single bytes. -/
def Plain (p : Char → Bool) : Prop :=
  ∀ c, p c = true → IsSingle c

theorem is_byte {c : Char} (h : IsSingle c) (p : Char → Bool) : is p (byte c) = p c := by
  have back : Char.ofUInt8 (byte c) = c := Char.toNat_inj.1 (toNat_byte h)
  rw [is, back]

theorem is_of_isPartial {p : Char → Bool} (plain : Plain p) {b : UInt8} (hb : IsPartial b) :
    is p b = false := by
  refine Bool.eq_false_iff.2 fun yes => ?_
  exact absurd (plain _ yes) (Nat.not_lt.2 hb)

theorem plain_isPlainBlank : Plain Text.isPlainBlank := by
  intro c h
  simp only [Text.isPlainBlank, Bool.or_eq_true, beq_iff_eq] at h
  obtain (((rfl | rfl) | rfl) | rfl) | rfl := h <;> decide

theorem isSingle_of_le {c : Char} {n : UInt32} (le : c.val ≤ n) (small : n.toNat < 128) :
    IsSingle c :=
  Nat.lt_of_le_of_lt (UInt32.le_iff_toNat_le.1 le) small

theorem plain_isAlpha : Plain Char.isAlpha := by
  intro c h
  rcases Bool.or_eq_true_iff.1 h with upper | lower
  · have within : c.val ≥ 'A'.val ∧ c.val ≤ 'Z'.val := of_decide_eq_true upper
    exact isSingle_of_le within.2 (by decide)
  · have within : c.val ≤ 'z'.val := of_decide_eq_true (Bool.and_eq_true_iff.1 lower).2
    exact isSingle_of_le within (by decide)

theorem plain_isDigit : Plain Char.isDigit := by
  intro c h
  have within : c.val ≤ '9'.val := of_decide_eq_true (Bool.and_eq_true_iff.1 h).2
  exact isSingle_of_le within (by decide)

theorem plain_isNameChar : Plain Reading.isNameChar := by
  intro c h
  simp only [Reading.isNameChar, Char.isAlphanum, Bool.or_eq_true, beq_iff_eq] at h
  obtain (((letter | digit) | rfl) | rfl) | rfl := h
  · exact plain_isAlpha c letter
  · exact plain_isDigit c digit
  all_goals decide

/-! ## Lengths -/

theorem utf8Length_append (cs ds : List Char) :
    utf8Length (cs ++ ds) = utf8Length cs + utf8Length ds := by
  rw [← length_encoded, encoded_append, List.length_append, length_encoded, length_encoded]

theorem utf8Length_le_of_suffix {cs ds : List Char} (h : cs <:+ ds) :
    utf8Length cs ≤ utf8Length ds := by
  obtain ⟨es, rfl⟩ := h
  rw [utf8Length_append]
  exact Nat.le_add_left _ _

theorem utf8Length_lt_cons (c : Char) (cs : List Char) : utf8Length cs < utf8Length (c :: cs) :=
  Nat.lt_add_of_pos_left c.utf8Size_pos

theorem utf8Length_of_isSingle {c : Char} (h : IsSingle c) (cs : List Char) :
    utf8Length (c :: cs) = utf8Length cs + 1 := by
  rw [← length_encoded, encoded_cons, encode_of_isSingle h, List.singleton_append,
    List.length_cons, length_encoded]

/-! ## Words, layout and items -/

/-- A character is a byte of its own, or one or more bytes of another kind. -/
theorem encoded_cases (c : Char) (cs : List Char) :
    (IsSingle c ∧ encoded (c :: cs) = byte c :: encoded cs) ∨
      ¬ IsSingle c ∧ ∃ b bs, String.utf8EncodeChar c = b :: bs ∧ (∀ b' ∈ b :: bs, IsPartial b') ∧
        encoded (c :: cs) = b :: (bs ++ encoded cs) := by
  by_cases single : IsSingle c
  · refine .inl ⟨single, ?_⟩
    rw [encoded_cons, encode_of_isSingle single]
    rfl
  · have partials := encode_of_not_isSingle single
    cases bytes : String.utf8EncodeChar c with
    | nil => exact absurd bytes String.utf8EncodeChar_ne_nil
    | cons b bs =>
      refine .inr ⟨single, b, bs, rfl, bytes ▸ partials, ?_⟩
      rw [encoded_cons, bytes]
      rfl

/-- The first byte tells whether a text starts with some character of the grammar. -/
theorem head?_encoded (cs : List Char) : (cs.head? = none ∧ (encoded cs).head? = none) ∨
    ∃ c b, cs.head? = some c ∧ (encoded cs).head? = some b ∧
      ∀ d, IsSingle d → (b = byte d ↔ c = d) := by
  cases cs with
  | nil => exact .inl ⟨rfl, rfl⟩
  | cons c cs =>
    refine .inr ⟨c, ?_⟩
    rcases encoded_cases c cs with ⟨single, bytes⟩ | ⟨several, b, bs, _, partials, bytes⟩
    · exact ⟨byte c, rfl, by rw [bytes]; rfl, fun d hd => byte_inj single hd⟩
    · refine ⟨b, rfl, by rw [bytes]; rfl, fun d hd => iff_of_false ?_ ?_⟩
      · exact byte_ne_of_isPartial hd (partials b List.mem_cons_self)
      · exact fun same => several (same ▸ hd)

theorem head?_encoded_eq_byte {d : Char} (single : IsSingle d) (cs : List Char) :
    (encoded cs).head? = some (byte d) ↔ cs.head? = some d := by
  rcases head?_encoded cs with ⟨first, first'⟩ | ⟨c, b, first, first', same⟩
  · rw [first, first']
    exact iff_of_false nofun nofun
  · rw [first, first', Option.some_inj, Option.some_inj, same d single]

theorem isNone_head?_encoded (cs : List Char) : (encoded cs).head?.isNone = cs.isEmpty := by
  cases cs with
  | nil => rfl
  | cons c cs =>
    rcases head?_encoded (c :: cs) with ⟨none, _⟩ | ⟨_, _, _, first, _⟩
    · cases none
    · rw [first]
      rfl

theorem takeWhile_encoded {p : Char → Bool} (plain : Plain p) (cs : List Char) :
    (encoded cs).takeWhile (is p) = encoded (cs.takeWhile p) := by
  induction cs with
  | nil => rfl
  | cons c cs ih =>
    rcases encoded_cases c cs with ⟨single, bytes⟩ | ⟨several, b, bs, _, partials, bytes⟩
    · rw [bytes, List.takeWhile_cons, List.takeWhile_cons, is_byte single, ih]
      split
      · rw [encoded_cons, encode_of_isSingle single]
        rfl
      · rfl
    · have stops : is p b = false := is_of_isPartial plain (partials b List.mem_cons_self)
      have stops' : p c = false := Bool.eq_false_iff.2 fun yes => several (plain c yes)
      rw [bytes, List.takeWhile_cons, stops, List.takeWhile_cons, stops']
      rfl

/-- A comment goes on over a character of several bytes. -/
theorem layoutSize_partial {bs : List UInt8} (partials : ∀ b ∈ bs, IsPartial b)
    (rest : List UInt8) : layoutSize true (bs ++ rest) = bs.length + layoutSize true rest := by
  induction bs with
  | nil => rw [List.nil_append, List.length_nil, Nat.zero_add]
  | cons b bs ih =>
    have other : (b == byte '\n') = false :=
      beq_byte_of_isPartial (by decide) (partials b List.mem_cons_self)
    rw [List.cons_append, layoutSize, bne, other, List.length_cons, Bool.not_false,
      ih fun b' hb' => partials b' (List.mem_cons_of_mem b hb')]
    omega

theorem layoutSize_encoded (inside : Bool) (cs : List Char) :
    layoutSize inside (encoded cs) + utf8Length (Reading.dropLayout inside cs) = utf8Length cs := by
  induction cs generalizing inside with
  | nil => cases inside <;> rfl
  | cons c cs ih =>
    rcases encoded_cases c cs with ⟨single, bytes⟩ | ⟨several, b, bs, size, partials, bytes⟩
    · have length := utf8Length_of_isSingle single cs
      rw [bytes]
      cases inside with
      | true =>
        have := ih (!(c == '\n'))
        rw [layoutSize, Reading.dropLayout, bne, bne, beq_byte single (by decide)]
        omega
      | false =>
        have inside := ih true
        have outside := ih false
        rw [layoutSize, Reading.dropLayout, is_byte single, beq_byte single (by decide)]
        split
        · omega
        · split <;> omega
    · have notBlank : Text.isPlainBlank c = false :=
        Bool.eq_false_iff.2 fun yes => several (plain_isPlainBlank c yes)
      have notByte (d : Char) (h : IsSingle d) : (c == d) = false :=
        beq_eq_false_iff_ne.2 fun same => several (same ▸ h)
      have first := partials b List.mem_cons_self
      have length : utf8Length (c :: cs) = (b :: bs).length + utf8Length cs := by
        rw [← size, String.length_utf8EncodeChar]
        rfl
      rw [bytes]
      cases inside with
      | true =>
        have := ih true
        rw [← List.cons_append, layoutSize_partial partials, Reading.dropLayout, bne,
          notByte _ (by decide), length]
        exact (Nat.add_assoc _ _ _).trans (congrArg _ this)
      | false =>
        rw [layoutSize, Reading.dropLayout, is_of_isPartial plain_isPlainBlank first, notBlank,
          beq_byte_of_isPartial (by decide) first, notByte _ (by decide)]
        exact Nat.zero_add _

theorem itemEnd?_suffix {depth : Nat} {cs after : List Char}
    (h : Reading.itemEnd? depth cs = some after) : after <:+ cs := by
  induction cs generalizing depth with
  | nil => cases h
  | cons c cs ih =>
    have onward {depth : Nat} (h : Reading.itemEnd? depth cs = some after) : after <:+ c :: cs :=
      (ih h).trans (List.suffix_cons c cs)
    rw [Reading.itemEnd?_cons] at h
    split at h
    · exact onward h
    · split at h
      · split at h
        · cases h
          exact List.suffix_refl _
        · cases h
          exact List.suffix_cons _ _
        · exact onward h
      · split at h
        · cases h
          exact List.suffix_refl _
        · exact onward h

theorem itemSize?_cons (depth : Nat) (b : UInt8) (bs : List UInt8) : itemSize? depth (b :: bs) =
    if b == byte '(' || b == byte '[' then (itemSize? (depth + 1) bs).map (· + 1)
    else if b == byte ')' || b == byte ']' then
      match depth with
      | 0 => some 0
      | 1 => some 1
      | depth + 1 => (itemSize? depth bs).map (· + 1)
    else if depth == 0 && is Text.isPlainBlank b then some 0
    else (itemSize? depth bs).map (· + 1) := by
  cases depth <;> rfl

/-- So does an item. -/
theorem itemSize?_partial {bs : List UInt8} (partials : ∀ b ∈ bs, IsPartial b)
    (depth : Nat) (rest : List UInt8) :
    itemSize? depth (bs ++ rest) = (itemSize? depth rest).map (· + bs.length) := by
  induction bs with
  | nil => simp
  | cons b bs ih =>
    have first := partials b List.mem_cons_self
    have other (c : Char) (h : IsSingle c) := beq_byte_of_isPartial h first
    rw [List.cons_append, itemSize?_cons, other _ (by decide), other _ (by decide),
      other _ (by decide), other _ (by decide), is_of_isPartial plain_isPlainBlank first,
      Bool.and_false, ih fun b' hb' => partials b' (List.mem_cons_of_mem b hb')]
    simp [Function.comp_def, Nat.add_assoc]

theorem itemSize?_encoded (depth : Nat) (cs : List Char) : itemSize? depth (encoded cs) =
    (Reading.itemEnd? depth cs).map fun after => utf8Length cs - utf8Length after := by
  induction cs generalizing depth with
  | nil => rfl
  | cons c cs ih =>
    -- What is found further on is as much further on in the characters.
    have onward (depth k : Nat) (length : utf8Length (c :: cs) = utf8Length cs + k) :
        (itemSize? depth (encoded cs)).map (· + k) =
          (Reading.itemEnd? depth cs).map fun after => utf8Length (c :: cs) - utf8Length after := by
      rw [ih depth, Option.map_map]
      refine Option.map_congr fun after found => ?_
      have := utf8Length_le_of_suffix (itemEnd?_suffix found)
      simp only [Function.comp_apply, length]
      omega
    rw [Reading.itemEnd?_cons]
    rcases encoded_cases c cs with ⟨single, bytes⟩ | ⟨several, b, bs, size, partials, bytes⟩
    · have length := utf8Length_of_isSingle single cs
      have opens : (byte c == byte '(' || byte c == byte '[') = Reading.opensGroup c := by
        rw [beq_byte single (by decide), beq_byte single (by decide), Reading.opensGroup]
      have closes : (byte c == byte ')' || byte c == byte ']') = Reading.closesGroup c := by
        rw [beq_byte single (by decide), beq_byte single (by decide), Reading.closesGroup]
      rw [bytes, itemSize?_cons, opens, closes, is_byte single]
      split
      · exact onward _ 1 length
      · split
        · rcases depth with _ | _ | depth
          · simp
          · simp [length]
          · exact onward _ 1 length
        · split
          · simp
          · exact onward _ 1 length
    · have notByte (d : Char) (h : IsSingle d) : (c == d) = false :=
        beq_eq_false_iff_ne.2 fun same => several (same ▸ h)
      have notBlank : Text.isPlainBlank c = false :=
        Bool.eq_false_iff.2 fun yes => several (plain_isPlainBlank c yes)
      have length : utf8Length (c :: cs) = utf8Length cs + (b :: bs).length := by
        rw [← size, String.length_utf8EncodeChar]
        exact Nat.add_comm _ _
      rw [bytes, ← List.cons_append, itemSize?_partial partials, Reading.opensGroup,
        Reading.closesGroup, notByte _ (by decide), notByte _ (by decide), notByte _ (by decide),
        notByte _ (by decide), notBlank, Bool.and_false]
      exact onward _ _ length

/-! ## Places in a text -/

theorem utf8Length_eq_utf8Len (cs : List Char) : utf8Length cs = String.utf8Len cs := by
  induction cs with
  | nil => rfl
  | cons c cs ih => rw [String.utf8Len_cons, ← ih]; exact Nat.add_comm _ _

theorem utf8Length_toList (s : String) : utf8Length s.toList = s.utf8ByteSize := by
  rw [utf8Length_eq_utf8Len, ← String.utf8ByteSize_ofList, String.ofList_toList]

section
variable {input : String} {rest : List Char} {pos : Nat}

/-- Before what is left of a text is a place between characters. -/
theorem isValid_of_suffix (h : rest <:+ input.toList)
    (here : pos + utf8Length rest = utf8Length input.toList) :
    String.Pos.Raw.IsValid input ⟨pos⟩ := by
  obtain ⟨done, whole⟩ := h
  refine String.Pos.Raw.isValid_iff_exists_append.2 ⟨.ofList done, .ofList rest, ?_, ?_⟩
  · rw [← String.ofList_append, whole, String.ofList_toList]
  · rw [← whole, utf8Length_append] at here
    rw [String.rawEndPos_ofList, ← utf8Length_eq_utf8Len, Nat.add_right_cancel here]

/-- Every place between characters is such a place. -/
theorem suffix_of_isValid (valid : String.Pos.Raw.IsValid input ⟨pos⟩) :
    ∃ rest, rest <:+ input.toList ∧ pos + utf8Length rest = utf8Length input.toList := by
  obtain ⟨s, s', whole, here⟩ := String.Pos.Raw.isValid_iff_exists_append.1 valid
  have size : pos = s.utf8ByteSize := congrArg String.Pos.Raw.byteIdx here
  refine ⟨s'.toList, ⟨s.toList, ?_⟩, ?_⟩
  · rw [whole, String.toList_append]
  · rw [whole, String.toList_append, utf8Length_append, size, utf8Length_toList s]

theorem bytesFrom_eq (h : rest <:+ input.toList)
    (here : pos + utf8Length rest = utf8Length input.toList) :
    bytesFrom input pos = encoded rest := by
  obtain ⟨done, whole⟩ := h
  have size : pos = (encoded done).length := by
    rw [← whole, utf8Length_append] at here
    rw [length_encoded]
    exact Nat.add_right_cancel here
  rw [bytesFrom, bytes_eq, ← whole, encoded_append, size, List.drop_left]

/-- A slice between two such places is the text between them. -/
theorem extract_eq {word : List Char} (h : word ++ rest <:+ input.toList)
    (here : pos + utf8Length (word ++ rest) = utf8Length input.toList) :
    String.Pos.Raw.extract input ⟨pos⟩ ⟨pos + utf8Length word⟩ = String.ofList word := by
  obtain ⟨done, whole⟩ := h
  have size : pos = utf8Length done := by
    rw [← whole, utf8Length_append done] at here
    exact Nat.add_right_cancel here
  have text : input = .ofList (done ++ word ++ rest) := by
    rw [List.append_assoc, whole, String.ofList_toList]
  rw [size, utf8Length_eq_utf8Len, utf8Length_eq_utf8Len, text]
  exact String.extract_of_valid done word rest

end

end Cursor

end KeyedMatching
