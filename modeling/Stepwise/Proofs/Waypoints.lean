import Mathlib
import Stepwise.Location
import Stepwise.Proofs.Spelling

/-! Locations survive writing. A written location is ASCII text with no blank at its ends, and its
indices are the words between the separators; an index is read if it is a numeral that is not negative
and that a machine word holds. -/

namespace Stepwise

section Ascii

/-- Bytes that are characters of their own. -/
def IsAscii (text : Bytes) : Prop := ∀ b ∈ text, b.toNat < 128

def Glyph.ofByte (b : UInt8) : Glyph := .char (Char.ofNat b.toNat)

variable {b : UInt8} {text : Bytes}

theorem Glyph.first?_ascii (h : b.toNat < 128) (rest : Bytes) :
    Glyph.first? (b :: rest) = some (Char.ofNat b.toNat, 1) := by
  have hb : b < 0x80 := UInt8.lt_iff_toNat_lt.mpr h
  rw [first?.eq_def]
  exact if_pos hb

theorem Glyph.read_ascii (h : IsAscii text) : Glyph.read text = text.map Glyph.ofByte := by
  rw [read]
  induction text with
  | nil => rfl
  | cons b rest ih =>
    have hrest := ih fun b' hb' => h b' (List.mem_cons_of_mem b hb')
    rw [readAfter, first?_ascii (h b List.mem_cons_self), List.map_cons, ← hrest]
    rfl

theorem Glyph.toNat_ofNat_ascii (h : b.toNat < 128) : (Char.ofNat b.toNat).toNat = b.toNat := by
  rw [Char.ofNat, dif_pos (.inl (by omega))]
  rfl

theorem Glyph.bytes_ofByte (h : b.toNat < 128) : (Glyph.ofByte b).bytes = [b] := by
  have hval : (Char.ofNat b.toNat).val.toNat = b.toNat := toNat_ofNat_ascii h
  have hle : b.toNat ≤ 127 := by omega
  rw [ofByte, bytes, String.utf8EncodeChar, hval]
  simp [hle]

theorem Glyph.bytes_map_ofByte (h : IsAscii text) : (text.map Glyph.ofByte).flatMap Glyph.bytes = text := by
  induction text with
  | nil => rfl
  | cons b rest ih =>
    have hrest := ih fun b' hb' => h b' (List.mem_cons_of_mem b hb')
    rw [List.map_cons, List.flatMap_cons, bytes_ofByte (h b List.mem_cons_self), hrest]
    rfl

/-- A text between two characters that are no blanks has nothing to trim. -/
theorem Bytes.trim_eq_self {b' : UInt8} (h : IsAscii (b :: text ++ [b']))
    (hb : (Glyph.ofByte b).isBlank = false) (hb' : (Glyph.ofByte b').isBlank = false) :
    Bytes.trim (b :: text ++ [b']) = b :: text ++ [b'] := by
  have hread : Glyph.read (b :: text ++ [b']) =
      Glyph.ofByte b :: (text.map Glyph.ofByte ++ [Glyph.ofByte b']) := by
    rw [Glyph.read_ascii h, List.map_append, List.map_cons]
    rfl
  have hopened : (Glyph.read (b :: text ++ [b'])).dropWhile Glyph.isBlank =
      (b :: text).map Glyph.ofByte ++ [Glyph.ofByte b'] := by
    rw [hread, List.dropWhile_cons_of_neg (by simp [hb])]
    rfl
  rw [trim, hopened, List.reverse_append, List.reverse_singleton, List.singleton_append,
    List.dropWhile_cons_of_neg (by simp [hb']), List.reverse_cons, List.reverse_reverse]
  have hall := Glyph.bytes_map_ofByte h
  rwa [List.map_append] at hall

end Ascii

section Fields

variable {separates : Glyph → Bool} {g : Glyph} {word rest : List Glyph}

theorem Bytes.fieldsBy_word (hword : ∀ g ∈ word, separates g = false) (hne : word ≠ []) :
    Bytes.fieldsBy separates word = [word.flatMap Glyph.bytes] := by
  induction word with
  | nil => exact absurd rfl hne
  | cons g word ih =>
    rw [List.forall_mem_cons] at hword
    cases word with
    | nil => simp [fieldsBy, hword.1]
    | cons g' word =>
      have hg' := hword.2 g' List.mem_cons_self
      rw [fieldsBy, ih hword.2 (List.cons_ne_nil g' word)]
      simp [hword.1, hg']

theorem Bytes.fieldsBy_append (hword : ∀ g ∈ word, separates g = false) (hne : word ≠ [])
    (hg : separates g) :
    Bytes.fieldsBy separates (word ++ g :: rest) =
      word.flatMap Glyph.bytes :: Bytes.fieldsBy separates rest := by
  induction word with
  | nil => exact absurd rfl hne
  | cons g' word ih =>
    rw [List.forall_mem_cons] at hword
    cases word with
    | nil => simp [fieldsBy, hword.1, hg]
    | cons g'' word =>
      have hg'' := hword.2 g'' List.mem_cons_self
      rw [List.cons_append, List.cons_append, fieldsBy, ← List.cons_append,
        ih hword.2 (List.cons_ne_nil g'' word)]
      simp [hword.1, hg'']

end Fields

namespace Location

/-- A word of a written location: bytes of which none separates. -/
def IsWord (word : Bytes) : Prop :=
  word ≠ [] ∧ ∀ b ∈ word, b.toNat < 128 ∧ separates (Glyph.ofByte b) = false

theorem IsWord.isAscii {word : Bytes} (h : IsWord word) : IsAscii word := fun b hb => (h.2 b hb).1

theorem isWord_numeral {raw : Bytes} (h : IsNumeral raw) : IsWord raw := by
  have hdigit (b : UInt8) (hb : isDigit b) : b.toNat < 128 ∧ separates (Glyph.ofByte b) = false := by
    simp only [isDigit, Bool.and_eq_true, decide_eq_true_eq, UInt8.le_iff_toNat_le,
      UInt8.reduceToNat] at hb
    have hlt : b.toNat < 128 := by omega
    have hchar (c : Char) (hc : c.toNat < 48) : Char.ofNat b.toNat ≠ c := by
      rintro rfl
      rw [Glyph.toNat_ofNat_ascii hlt] at hc
      omega
    exact ⟨hlt, by simp [Glyph.ofByte, separates, hchar ' ' (by decide), hchar ',' (by decide)]⟩
  obtain ⟨digits, hne, hall, rfl | rfl⟩ := h
  · exact ⟨hne, fun b hb => hdigit b (List.all_eq_true.mp hall b hb)⟩
  · refine ⟨List.cons_ne_nil _ _, List.forall_mem_cons.mpr ⟨by decide, fun b hb => ?_⟩⟩
    exact hdigit b (List.all_eq_true.mp hall b hb)

theorem isAscii_join {words : List Bytes} (h : ∀ word ∈ words, IsWord word) :
    IsAscii (Bytes.join [32] words) := by
  induction words with
  | nil => exact fun b hb => absurd hb List.not_mem_nil
  | cons word words ih =>
    rw [List.forall_mem_cons] at h
    cases words with
    | nil => exact h.1.isAscii
    | cons word' words =>
      have hrest := ih h.2
      intro b hb
      rw [Bytes.join, List.append_assoc, List.mem_append, List.mem_append, List.mem_singleton] at hb
      · obtain hb | rfl | hb := hb
        · exact h.1.isAscii b hb
        · decide
        · exact hrest b hb
      · exact nofun

/-- What is joined with spaces comes apart again. -/
theorem fields_join {words : List Bytes} (h : ∀ word ∈ words, IsWord word) :
    Bytes.fieldsBy separates (Glyph.read (Bytes.join [32] words)) = words := by
  rw [Glyph.read_ascii (isAscii_join h)]
  induction words with
  | nil => rfl
  | cons word words ih =>
    rw [List.forall_mem_cons] at h
    have hword : ∀ g ∈ word.map Glyph.ofByte, separates g = false := by
      rw [List.forall_mem_map]
      exact fun b hb => (h.1.2 b hb).2
    have hne : word.map Glyph.ofByte ≠ [] := fun hnil => h.1.1 (List.map_eq_nil_iff.mp hnil)
    have hbytes := Glyph.bytes_map_ofByte h.1.isAscii
    cases words with
    | nil =>
      rw [Bytes.join, Bytes.fieldsBy_word hword hne, hbytes]
    | cons word' words =>
      have hjoin : (Bytes.join [32] (word :: word' :: words)).map Glyph.ofByte =
          word.map Glyph.ofByte ++
            Glyph.ofByte 32 :: (Bytes.join [32] (word' :: words)).map Glyph.ofByte := by
        rw [Bytes.join, List.append_assoc, List.map_append, List.map_append]
        · rfl
        · exact nofun
      rw [hjoin, Bytes.fieldsBy_append hword hne (by decide), hbytes, ih h.2]

theorem unbracket_text (inner : Bytes) : unbracket (91 :: inner ++ [93]) = inner := by
  have hreverse : (inner ++ [93]).reverse = 93 :: inner.reverse := by simp
  simp [unbracket, hreverse]

/-- An index, or the field that is none. -/
def readField (field : Bytes) : Except Bytes Int :=
  match readIndex? field with
  | some i => .ok i
  | none => .error field

theorem read_eq (text : Bytes) :
    read text = (Bytes.fieldsBy separates (Glyph.read (unbracket text.trim))).mapM readField := rfl

/-- The fields that are read from a written location are its indices. -/
theorem read_text (l : Location) : read l.text = (l.map Decimal.ofInt).mapM readField := by
  have hwords : ∀ word ∈ l.map Decimal.ofInt, IsWord word := by
    rw [List.forall_mem_map]
    exact fun i _ => isWord_numeral (isNumeral_ofInt i)
  have hascii : IsAscii (91 :: Bytes.join [32] (l.map Decimal.ofInt) ++ [93]) := by
    intro b hb
    rw [List.cons_append, List.mem_cons, List.mem_append, List.mem_singleton] at hb
    obtain rfl | hb | rfl := hb
    · decide
    · exact isAscii_join hwords b hb
    · decide
  rw [read_eq, text, Bytes.trim_eq_self hascii (by decide) (by decide), unbracket_text,
    fields_join hwords]

theorem readField_ofInt {i : Int} (h : Decimal.fitsInt64 i) :
    readField (Decimal.ofInt i) = if i < 0 then .error (Decimal.ofInt i) else .ok i := by
  have hword := readWord?_of_isNumeral (isNumeral_ofInt i)
  rw [numeralValue_ofInt, if_pos h] at hword
  have hvalue : (Int64.ofInt i).toInt = i := by
    simp only [Decimal.fitsInt64, Bool.and_eq_true, decide_eq_true_eq] at h
    exact Int64.toInt_ofInt_of_le h.1 h.2
  rw [readField, readIndex?, hword]
  simp only [hvalue]
  split_ifs <;> rfl

/-- What is read as an index is one that can be written. -/
theorem of_readField {field : Bytes} {i : Int} (h : readField field = .ok i) :
    0 ≤ i ∧ Decimal.fitsInt64 i := by
  rw [readField, readIndex?] at h
  cases hword : Decimal.readWord? field with
  | none =>
    rw [hword] at h
    cases h
  | some n =>
    rw [hword] at h
    by_cases hneg : n.toInt < 0
    · simp [hneg] at h
    · simp only [hneg, if_false, Except.ok.injEq] at h
      subst h
      exact ⟨by omega, fitsInt64_toInt n⟩

theorem read_text_nonneg {l : Location} (h : ∀ i ∈ l, Decimal.fitsInt64 i) (hnonneg : ∀ i ∈ l, 0 ≤ i) :
    read l.text = .ok l := by
  rw [read_text]
  induction l with
  | nil => rfl
  | cons i l ih =>
    rw [List.forall_mem_cons] at h hnonneg
    rw [List.map_cons, List.mapM_cons, readField_ofInt h.1, if_neg (by omega), ih h.2 hnonneg.2]
    rfl

/-- The first negative index is what cannot be read. -/
theorem read_text_negative {l : Location} (h : ∀ i ∈ l, Decimal.fitsInt64 i) (hnegative : ∃ i ∈ l, i < 0) :
    ∃ i ∈ l, i < 0 ∧ read l.text = .error (Decimal.ofInt i) := by
  rw [read_text]
  induction l with
  | nil => exact absurd hnegative (by simp)
  | cons i l ih =>
    rw [List.forall_mem_cons] at h
    rw [List.map_cons, List.mapM_cons, readField_ofInt h.1]
    by_cases hi : i < 0
    · rw [if_pos hi]
      exact ⟨i, List.mem_cons_self, hi, rfl⟩
    · obtain ⟨k, hk, hkneg, hread⟩ := ih h.2 (by simpa [hi] using hnegative)
      rw [if_neg hi, hread]
      exact ⟨k, List.mem_cons_of_mem i hk, hkneg, rfl⟩

theorem of_read {text : Bytes} {l : Location} (h : read text = .ok l) :
    ∀ i ∈ l, 0 ≤ i ∧ Decimal.fitsInt64 i := by
  rw [read_eq] at h
  generalize Bytes.fieldsBy separates (Glyph.read (unbracket text.trim)) = fields at h
  induction fields generalizing l with
  | nil =>
    cases h
    exact fun i hi => absurd hi List.not_mem_nil
  | cons field fields ih =>
    rw [List.mapM_cons] at h
    obtain ⟨i, hi, h⟩ := except_bind_eq_ok h
    obtain ⟨l', hl', h⟩ := except_bind_eq_ok h
    cases h
    exact List.forall_mem_cons.mpr ⟨of_readField hi, ih hl'⟩

end Location

/-- A location whose indices are machine words is read back from its text if none of them is negative,
and its text cannot be read if one is. Whatever else is read as a location has no negative index, and
its own text is read as the same one. -/
theorem locations_survive_writing :
    (∀ l : Location, (∀ i ∈ l, Decimal.fitsInt64 i) →
      ((∀ i ∈ l, 0 ≤ i) → Location.read l.text = .ok l) ∧
      ((∃ i ∈ l, i < 0) → ∃ i ∈ l, i < 0 ∧ Location.read l.text = .error (Decimal.ofInt i))) ∧
    ∀ text l, Location.read text = .ok l → (∀ i ∈ l, 0 ≤ i) ∧ Location.read l.text = .ok l := by
  refine ⟨fun l h => ⟨Location.read_text_nonneg h, Location.read_text_negative h⟩, fun text l h => ?_⟩
  have hread := Location.of_read h
  exact ⟨fun i hi => (hread i hi).1,
    Location.read_text_nonneg (fun i hi => (hread i hi).2) fun i hi => (hread i hi).1⟩

/-- The greatest index and the empty path, a negative index between others, and a text with signs, other
separators and only one bracket. -/
theorem locations_survive_writing_at_limits :
    Location.read (Location.text [0, 9223372036854775807]) = .ok [0, 9223372036854775807] ∧
    Location.read (Location.text []) = .ok [] ∧
    (∃ i ∈ [0, -9223372036854775808, 7], i < 0 ∧
      Location.read (Location.text [0, -9223372036854775808, 7]) = .error (Decimal.ofInt i)) ∧
    Location.read (utf8 " 0,, +007 ]") = .ok [0, 7] ∧
      Location.read (Location.text [0, 7]) = .ok [0, 7] := by
  have hother : Location.read (utf8 " 0,, +007 ]") = .ok [0, 7] := by cbv
  refine ⟨?_, ?_, ?_, hother, (locations_survive_writing.2 _ _ hother).2⟩
  · exact (locations_survive_writing.1 _ (by decide)).1 (by decide)
  · exact (locations_survive_writing.1 [] (by decide)).1 (by decide)
  · exact (locations_survive_writing.1 _ (by decide)).2 ⟨-9223372036854775808, by decide, by decide⟩

end Stepwise
