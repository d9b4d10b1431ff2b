import Mathlib.Data.List.TakeWhile
import Stepwise.Token.Scan

/-! How the lexemes of the language are spelled. What the scanner takes for a token of some kind is
spelled like one, and what is spelled like one is taken for it wherever it ends. -/

namespace Stepwise

/-- One or more digits, perhaps after a minus sign. -/
def IsNumeral (raw : Bytes) : Prop :=
  ∃ digits, digits ≠ [] ∧ digits.all isDigit ∧ (raw = digits ∨ raw = 45 :: digits)

/-- The integer that a numeral stands for. -/
def numeralValue : Bytes → Int
  | 45 :: digits => -(Decimal.value digits : Int)
  | digits => Decimal.value digits

theorem isDigit_ne {b c : UInt8} (hb : isDigit b) (hc : isDigit c = false) : b ≠ c := by
  rintro rfl
  rw [hb] at hc
  cases hc

theorem numeralValue_digits {b : UInt8} {digits : Bytes} (hb : isDigit b) :
    numeralValue (b :: digits) = Decimal.value (b :: digits) := by
  have hne : b ≠ 45 := isDigit_ne hb rfl
  rw [numeralValue.eq_def]
  split
  · next h =>
    cases h
    exact absurd rfl hne
  · rfl

theorem readInt?_of_isNumeral {raw : Bytes} (h : IsNumeral raw) :
    Decimal.readInt? raw = some (numeralValue raw) := by
  obtain ⟨digits, hne, hall, hraw⟩ := h
  have hread : Decimal.readNat? digits = some (Decimal.value digits) := by
    rw [Decimal.readNat?, if_pos ⟨hne, hall⟩]
  obtain rfl | rfl := hraw
  · obtain ⟨b, digits, rfl⟩ := List.exists_cons_of_ne_nil hne
    have hb : isDigit b := (List.all_eq_true.mp hall) b List.mem_cons_self
    rw [numeralValue_digits hb, Decimal.readInt?.eq_def]
    split
    · next h =>
      cases h
      exact absurd hb (by decide)
    · next h =>
      cases h
      exact absurd hb (by decide)
    · rw [hread]
      rfl
  · rw [Decimal.readInt?, hread]
    rfl

/-- An integer literal can be read when a machine word holds its value. -/
theorem readWord?_of_isNumeral {raw : Bytes} (h : IsNumeral raw) :
    Decimal.readWord? raw =
      if Decimal.fitsInt64 (numeralValue raw) then some (Int64.ofInt (numeralValue raw)) else none := by
  rw [Decimal.readWord?, readInt?_of_isNumeral h]

theorem fitsInt64_toInt (n : Int64) : Decimal.fitsInt64 n.toInt := by
  have hlo := n.le_toInt
  have hhi := n.toInt_lt
  rw [Decimal.fitsInt64, Bool.and_eq_true, decide_eq_true_eq, decide_eq_true_eq, Decimal.leastWord,
    Decimal.wordLimit]
  omega

theorem isDigit_digit (n : Nat) : isDigit (Decimal.digit n) := by
  have hlt : 48 + n % 10 < 256 := by omega
  simp only [isDigit, Decimal.digit, Bool.and_eq_true, decide_eq_true_eq, UInt8.le_iff_toNat_le,
    UInt8.reduceToNat, UInt8.toNat_ofNat', Nat.mod_eq_of_lt hlt]
  omega

theorem toNat_digit (n : Nat) : (Decimal.digit n).toNat - 48 = n % 10 := by
  have hlt : 48 + n % 10 < 256 := by omega
  simp only [Decimal.digit, UInt8.toNat_ofNat', Nat.mod_eq_of_lt hlt]
  omega

theorem all_isDigit_ofNat (n : Nat) : (Decimal.ofNat n).all isDigit := by
  fun_induction Decimal.ofNat n with
  | case1 n h => simp [isDigit_digit]
  | case2 n h ih => simp [isDigit_digit, ih]

theorem value_ofNat (n : Nat) : Decimal.value (Decimal.ofNat n) = n := by
  fun_induction Decimal.ofNat n with
  | case1 n h =>
    simp only [Decimal.value, List.foldl_cons, List.foldl_nil, toNat_digit]
    omega
  | case2 n h ih =>
    rw [Decimal.value, List.foldl_append, ← Decimal.value, ih]
    simp only [List.foldl_cons, List.foldl_nil, toNat_digit]
    omega

theorem ofNat_ne_nil (n : Nat) : Decimal.ofNat n ≠ [] := by
  rw [Decimal.ofNat]
  split <;> simp

theorem isNumeral_ofInt (n : Int) : IsNumeral (Decimal.ofInt n) := by
  cases n with
  | ofNat n => exact ⟨_, ofNat_ne_nil n, all_isDigit_ofNat n, .inl rfl⟩
  | negSucc n => exact ⟨_, ofNat_ne_nil (n + 1), all_isDigit_ofNat (n + 1), .inr rfl⟩

theorem numeralValue_ofInt (n : Int) : numeralValue (Decimal.ofInt n) = n := by
  cases n with
  | ofNat n =>
    obtain ⟨b, digits, hdigits⟩ := List.exists_cons_of_ne_nil (ofNat_ne_nil n)
    have hb : isDigit b := by
      have hall := all_isDigit_ofNat n
      rw [hdigits, List.all_cons, Bool.and_eq_true] at hall
      exact hall.1
    rw [Decimal.ofInt, hdigits, numeralValue_digits hb, ← hdigits, value_ofNat]
    rfl
  | negSucc n =>
    rw [Decimal.ofInt, numeralValue, value_ofNat]
    rfl

/-- The texts that are lexemes of a kind. -/
def TokenKind.Spells : TokenKind → Bytes → Prop
  | .eof, raw => raw = []
  | .lparen, raw => raw = [40]
  | .rparen, raw => raw = [41]
  | .int, raw => IsNumeral raw
  | .string, raw => ∃ text : Bytes, 34 ∉ text ∧ raw = 34 :: text ++ [34]
  | .ident, raw => isSymbol raw
  | .keyword k, raw => raw = k.word

theorem ofWord?_eq_some {raw : Bytes} {k : Keyword} (h : Keyword.ofWord? raw = some k) :
    raw = k.word := by
  have hk := List.find?_some h
  exact (beq_iff_eq.mp hk).symm

/-- A text that starts like a number starts with a numeral. -/
theorem isNumeral_of_startsNumber {first : UInt8} {rest : Bytes} (h : startsNumber first rest) :
    IsNumeral (first :: rest.takeWhile isDigit) := by
  have hdigits : (rest.takeWhile isDigit).all isDigit := List.all_takeWhile
  rw [startsNumber, Bool.or_eq_true, Bool.and_eq_true, beq_iff_eq] at h
  obtain h | ⟨rfl, h⟩ := h
  · exact ⟨first :: rest.takeWhile isDigit, by simp, by simp [h], .inl rfl⟩
  · refine ⟨rest.takeWhile isDigit, ?_, hdigits, .inr rfl⟩
    cases rest with
    | nil => cases h
    | cons b rest =>
      have hb : isDigit b := by simpa using h
      simp [hb]

theorem takeWhile_of_head {p : UInt8 → Bool} {rest : Bytes} (h : rest.head?.all fun b => !p b) :
    rest.takeWhile p = [] := by
  cases rest with
  | nil => rfl
  | cons b rest =>
    have hb : p b = false := by simpa using h
    simp [hb]

theorem takeWhile_append_of_all {p : UInt8 → Bool} {word rest : Bytes} (hword : word.all p)
    (hrest : rest.head?.all fun b => !p b) : (word ++ rest).takeWhile p = word := by
  rw [List.takeWhile_append_of_pos (List.all_eq_true.mp hword), takeWhile_of_head hrest,
    List.append_nil]

/-- The text does not go on with a byte that a word or a number could have. -/
def Bounded (rest : Bytes) : Prop := rest.head?.all fun b => !isIdentPart b

theorem isIdentPart_of_isDigit {b : UInt8} (h : isDigit b) : isIdentPart b := by
  simp [isIdentPart, h]

theorem Bounded.digits {rest : Bytes} (h : Bounded rest) : rest.head?.all fun b => !isDigit b := by
  cases rest with
  | nil => rfl
  | cons b rest =>
    have hb : isIdentPart b = false := by simpa [Bounded] using h
    cases hd : isDigit b with
    | false => simp [hd]
    | true => exact absurd (isIdentPart_of_isDigit hd) (by simp [hb])

theorem numberLexeme_of_digits {first : UInt8} {digits rest : Bytes} (hdigits : digits.all isDigit)
    (hrest : Bounded rest) : numberLexeme first (digits ++ rest) = .token .int (first :: digits) := by
  rw [numberLexeme, takeWhile_append_of_all hdigits hrest.digits]
  simp [takeWhile_of_head hrest]

theorem stringLexeme_of_quoted {text rest : Bytes} (h : 34 ∉ text) :
    stringLexeme (text ++ 34 :: rest) = .token .string (34 :: text ++ [34]) := by
  have hinside : (text ++ 34 :: rest).takeWhile (· != 34) = text := by
    refine takeWhile_append_of_all (List.all_eq_true.mpr fun b hb => ?_) rfl
    rw [bne_iff_ne]
    rintro rfl
    exact h hb
  rw [stringLexeme, hinside, if_neg (by simp)]

/-- Whether a lexeme of the kind is a number or a word, which more bytes can make longer. -/
def TokenKind.isOpenEnded : TokenKind → Bool
  | .int | .ident | .keyword _ => true
  | .eof | .lparen | .rparen | .string => false

/-- What a text starts with: a lexeme that ends where it cannot go on, a string that is never closed, a
number that runs into a name, or a byte that starts nothing. -/
inductive Front (first : UInt8) : Bytes → Lexeme → Prop
  | token {kind : TokenKind} {more after : Bytes} :
      kind ≠ .eof → kind.Spells (first :: more) → (kind.isOpenEnded → Bounded after) →
      Front first (more ++ after) (.token kind (first :: more))
  | string {inside : Bytes} :
      first = 34 → 34 ∉ inside → Front first inside (.fault .unterminatedString (first :: inside))
  | number {digits more : Bytes} {b : UInt8} :
      IsNumeral (first :: digits) → isDigit b = false → isIdentPart b →
      Front first (digits ++ b :: more)
        (.fault (.malformedNumber (first :: digits ++ b :: more.takeWhile isIdentPart))
          (first :: digits ++ b :: more.takeWhile isIdentPart))
  | byte {rest : Bytes} :
      first ≠ 40 → first ≠ 41 → first ≠ 34 → ¬ startsNumber first rest → ¬ isIdentStart first →
      Front first rest (.fault (.illegalByte first) [first])

/-- A text is the bytes of a sort that it starts with, and what comes after the last of them. -/
theorem exists_takeWhile (p : UInt8 → Bool) (rest : Bytes) :
    ∃ front after, rest = front ++ after ∧ front.all p ∧ after.head?.all fun b => !p b := by
  refine ⟨_, _, List.takeWhile_append_dropWhile.symm, List.all_takeWhile, ?_⟩
  have hnot := List.head?_dropWhile_not p rest
  cases hhead : (rest.dropWhile p).head? with
  | none => rfl
  | some b => simpa [hhead] using hnot

theorem stringLexeme_front (rest : Bytes) : Front 34 rest (stringLexeme rest) := by
  by_cases hquote : 34 ∈ rest
  · obtain ⟨inside, after, rfl, hinside⟩ := List.eq_append_cons_of_mem hquote
    rw [stringLexeme_of_quoted hinside, List.append_cons]
    exact .token nofun ⟨inside, hinside, rfl⟩ nofun
  · have hall : rest.takeWhile (· != 34) = rest :=
      List.takeWhile_eq_self_iff.mpr fun b hb => bne_iff_ne.mpr (ne_of_mem_of_not_mem hb hquote)
    rw [stringLexeme, hall, if_pos rfl]
    exact .string rfl hquote

theorem numberLexeme_front {first : UInt8} {rest : Bytes} (h : startsNumber first rest) :
    Front first rest (numberLexeme first rest) := by
  have hnumeral := isNumeral_of_startsNumber h
  obtain ⟨digits, after, rfl, hdigits, hend⟩ := exists_takeWhile isDigit rest
  rw [takeWhile_append_of_all hdigits hend] at hnumeral
  by_cases hbounded : Bounded after
  · rw [numberLexeme_of_digits hdigits hbounded]
    exact .token nofun hnumeral fun _ => hbounded
  · cases after with
    | nil => exact absurd rfl hbounded
    | cons b more =>
      have hpart : isIdentPart b := by simpa [Bounded] using hbounded
      have hdigit : isDigit b = false := by simpa using hend
      rw [numberLexeme, takeWhile_append_of_all hdigits hend]
      simpa [hpart] using Front.number hnumeral hdigit hpart

theorem wordLexeme_front {first : UInt8} (rest : Bytes) (h : isIdentStart first) :
    Front first rest (wordLexeme (first :: rest.takeWhile isIdentPart)) := by
  obtain ⟨word, after, rfl, hword, hend⟩ := exists_takeWhile isIdentPart rest
  rw [takeWhile_append_of_all hword hend, wordLexeme]
  cases hk : Keyword.ofWord? (first :: word) with
  | none =>
    have hsymbol : isSymbol (first :: word) := by simp [isSymbol, h, hword, hk]
    exact .token nofun hsymbol fun _ => hend
  | some k => exact .token nofun (ofWord?_eq_some hk) fun _ => hend

theorem Front.single {first : UInt8} {rest : Bytes} {kind : TokenKind} (hkind : kind ≠ .eof)
    (hspells : kind.Spells [first]) (hclosed : kind.isOpenEnded = false) :
    Front first rest (.token kind [first]) :=
  .token hkind hspells fun hopen => absurd hopen (by simp [hclosed])

theorem lexeme_front (first : UInt8) (rest : Bytes) : Front first rest (lexeme first rest) := by
  rw [lexeme]
  split
  · next hopen =>
    rw [hopen]
    exact .single nofun rfl rfl
  next hopen =>
  split
  · next hclose =>
    rw [hclose]
    exact .single nofun rfl rfl
  next hclose =>
  split
  · next hquote =>
    rw [hquote]
    exact stringLexeme_front rest
  next hquote =>
  split
  · next hnumber => exact numberLexeme_front hnumber
  next hnumber =>
  split
  · next hword => exact wordLexeme_front rest hword
  · next hword => exact .byte hopen hclose hquote hnumber hword

section Lexemes

variable {first : UInt8} {rest raw : Bytes} {kind : TokenKind}

theorem lexeme_spells (h : lexeme first rest = .token kind raw) : kind.Spells raw := by
  have hfront := lexeme_front first rest
  rw [h] at hfront
  cases hfront with
  | token hkind hspells hbounded => exact hspells

theorem lexeme_ne_nil (h : lexeme first rest = .token kind raw) : raw ≠ [] := by
  have hfront := lexeme_front first rest
  rw [h] at hfront
  cases hfront with
  | token hkind hspells hbounded => exact List.cons_ne_nil _ _

/-- A number or a word is taken as far as it goes. -/
theorem lexeme_bounded (h : lexeme first rest = .token kind raw) (hkind : kind.isOpenEnded) :
    Bounded (rest.drop (raw.length - 1)) := by
  have hfront := lexeme_front first rest
  rw [h] at hfront
  cases hfront with
  | @token _ more after _ _ hbounded =>
    rw [List.length_cons, Nat.add_sub_cancel, List.drop_left]
    exact hbounded hkind

theorem lexeme_isPrefix (first : UInt8) (rest : Bytes) : (lexeme first rest).raw <+: first :: rest := by
  have hfront := lexeme_front first rest
  generalize lexeme first rest = lex at hfront
  cases hfront with
  | token => exact List.prefix_append _ _
  | string => exact List.prefix_rfl
  | @number digits more b =>
    have hmore : b :: more.takeWhile isIdentPart <+: b :: more :=
      List.cons_prefix_cons.mpr ⟨rfl, List.takeWhile_prefix _⟩
    exact (List.prefix_append_right_inj (first :: digits)).mpr hmore
  | byte => exact List.prefix_append [first] rest

theorem lexeme_append (h : lexeme first rest = .token kind raw) :
    raw ++ rest.drop (raw.length - 1) = first :: rest := by
  have hfront := lexeme_front first rest
  rw [h] at hfront
  cases hfront with
  | token => rw [List.length_cons, Nat.add_sub_cancel, List.drop_left, List.cons_append]

theorem lexeme_fault {cause : Cause} (h : lexeme first rest = .fault cause raw) : cause.kind = .badForm := by
  have hfront := lexeme_front first rest
  rw [h] at hfront
  cases hfront <;> rfl

end Lexemes

theorem except_bind_eq_ok {ε α β : Type} {x : Except ε α} {f : α → Except ε β} {b : β}
    (h : (x >>= f) = .ok b) : ∃ a, x = .ok a ∧ f a = .ok b := by
  cases x with
  | error e => cases h
  | ok a => exact ⟨a, rfl, h⟩

theorem except_bind_eq_error {ε α β : Type} {x : Except ε α} {f : α → Except ε β} {e : ε}
    (h : (x >>= f) = .error e) : x = .error e ∨ ∃ a, x = .ok a ∧ f a = .error e := by
  cases x with
  | error e' =>
    cases h
    exact .inl rfl
  | ok a => exact .inr ⟨a, rfl, h⟩

def Token.Spelled (t : Token) : Prop := t.kind.Spells t.raw

theorem scanFrom_spelled (c : Cursor) (text : Bytes) {ts : Tokens} (h : scanFrom c text = .ok ts) :
    ∀ t ∈ ts.items, t.Spelled := by
  fun_induction scanFrom c text generalizing ts with
  | case1 =>
    cases h
    intro t ht
    cases ht
  | case2 => cases h
  | case3 c text skipped here b rest hdrop hlt kind raw hlex past =>
    rename_i ih
    obtain ⟨ts', hts', h⟩ := except_bind_eq_ok h
    cases h
    intro t ht
    obtain rfl | ht := List.mem_cons.mp ht
    · exact lexeme_spells hlex
    · exact ih hts' t ht

theorem ofWord?_word (k : Keyword) : Keyword.ofWord? k.word = some k := by
  cases k <;> decide

theorem Keyword.exists_word (k : Keyword) :
    ∃ b rest, k.word = b :: rest ∧ isIdentStart b ∧ rest.all isIdentPart := by
  cases k <;> exact ⟨_, _, rfl, by decide, by decide⟩

theorem not_isDigit_of_isIdentStart {b : UInt8} (h : isIdentStart b) : isDigit b = false := by
  simp only [isIdentStart, isLetter, Bool.or_eq_true, Bool.and_eq_true, beq_iff_eq,
    decide_eq_true_eq, UInt8.le_iff_toNat_le, ← UInt8.toNat_inj, UInt8.reduceToNat] at h
  simp only [isDigit, Bool.and_eq_false_iff, decide_eq_false_iff_not, UInt8.le_iff_toNat_le,
    UInt8.reduceToNat]
  omega

/-- No lexeme of another sort starts like a word. -/
theorem lexeme_of_isIdentStart {first : UInt8} (rest : Bytes) (h : isIdentStart first) :
    lexeme first rest = wordLexeme (first :: rest.takeWhile isIdentPart) := by
  have hne (c : UInt8) (hc : isIdentStart c = false) : first ≠ c := by
    rintro rfl
    rw [h] at hc
    cases hc
  rw [lexeme, if_neg (hne 40 rfl), if_neg (hne 41 rfl), if_neg (hne 34 rfl), if_neg, if_pos h]
  simp [startsNumber, not_isDigit_of_isIdentStart h, hne 45 rfl]

theorem lexeme_of_startsNumber {first : UInt8} {rest : Bytes} (h : startsNumber first rest) :
    lexeme first rest = numberLexeme first rest := by
  have hne (c : UInt8) (hc : isDigit c = false) (hminus : c ≠ 45) : first ≠ c := by
    rintro rfl
    simp [startsNumber, hc, hminus] at h
  rw [lexeme, if_neg (hne 40 rfl (by decide)), if_neg (hne 41 rfl (by decide)),
    if_neg (hne 34 rfl (by decide)), if_pos h]

/-- A lexeme that does not go on after its end is the token it is spelled like. -/
theorem lexeme_of_spells {kind : TokenKind} (hkind : kind ≠ .eof) {raw rest : Bytes}
    (h : kind.Spells raw) (hrest : kind.isOpenEnded → Bounded rest) :
    ∃ first more, raw = first :: more ∧ lexeme first (more ++ rest) = .token kind raw := by
  cases kind with
  | eof => exact absurd rfl hkind
  | lparen => exact ⟨40, [], h, by rw [show raw = [40] from h]; rfl⟩
  | rparen => exact ⟨41, [], h, by rw [show raw = [41] from h]; rfl⟩
  | int =>
    obtain ⟨digits, hne, hall, rfl | rfl⟩ := h
    · obtain ⟨b, digits, rfl⟩ := List.exists_cons_of_ne_nil hne
      simp only [List.all_cons, Bool.and_eq_true] at hall
      refine ⟨b, digits, rfl, ?_⟩
      rw [lexeme_of_startsNumber (by simp [startsNumber, hall.1]), numberLexeme_of_digits hall.2 (hrest rfl)]
    · have hstarts : startsNumber 45 (digits ++ rest) := by
        obtain ⟨b, digits, rfl⟩ := List.exists_cons_of_ne_nil hne
        simp only [List.all_cons, Bool.and_eq_true] at hall
        simp [startsNumber, hall.1]
      exact ⟨45, digits, rfl, by rw [lexeme_of_startsNumber hstarts, numberLexeme_of_digits hall (hrest rfl)]⟩
  | string =>
    obtain ⟨text, htext, rfl⟩ := h
    refine ⟨34, text ++ [34], rfl, ?_⟩
    rw [List.append_assoc]
    exact stringLexeme_of_quoted htext
  | ident =>
    cases raw with
    | nil => cases h
    | cons b raw =>
      simp only [TokenKind.Spells, isSymbol, Bool.and_eq_true, Option.isNone_iff_eq_none] at h
      refine ⟨b, raw, rfl, ?_⟩
      rw [lexeme_of_isIdentStart _ h.1.1, takeWhile_append_of_all h.1.2 (hrest rfl), wordLexeme, h.2]
  | keyword k =>
    obtain ⟨b, more, hword, hb, hmore⟩ := k.exists_word
    obtain rfl : raw = k.word := h
    refine ⟨b, more, hword, ?_⟩
    rw [lexeme_of_isIdentStart _ hb, takeWhile_append_of_all hmore (hrest rfl), ← hword, wordLexeme,
      ofWord?_word]

/-- A text is spelled like tokens of one kind only. -/
theorem TokenKind.eq_of_spells {kind kind' : TokenKind} (hkind : kind ≠ .eof) {raw : Bytes}
    (h : kind.Spells raw) (h' : kind'.Spells raw) : kind = kind' := by
  obtain ⟨first, more, rfl, hlex⟩ := lexeme_of_spells hkind h fun _ => (rfl : Bounded [])
  have hkind' : kind' ≠ .eof := by
    rintro rfl
    cases h'
  obtain ⟨first', more', heq, hlex'⟩ := lexeme_of_spells hkind' h' fun _ => (rfl : Bounded [])
  cases heq
  rw [hlex] at hlex'
  cases hlex'
  rfl

end Stepwise
