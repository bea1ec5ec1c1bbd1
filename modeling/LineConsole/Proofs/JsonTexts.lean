import LineConsole.Proofs.Numerals
import LineConsole.Proofs.FixedTexts
import LineConsole.Value.Json
import Mathlib.Data.List.TakeWhile

/-!
Values that are written as JSON and read again. Any library will do that tags variants externally,
writes integers in decimal, escapes what may not stand in a string, and has no text but null for
what is no number. Every integer survives. A string survives if it stands in the text as it is: one
that needs an escape cannot be borrowed, so it is refused and never misread. What is no number is
refused too.
-/
namespace LineConsole

namespace Json

/-- The character stands for itself in a string. -/
def IsPlain (c : Char) : Prop := c ≠ '"' ∧ c ≠ '\\' ∧ 0x20 ≤ c.toNat

instance (c : Char) : Decidable (IsPlain c) :=
  inferInstanceAs (Decidable (c ≠ '"' ∧ c ≠ '\\' ∧ 0x20 ≤ c.toNat))

def PlainText (cs : List Char) : Prop := ∀ c ∈ cs, IsPlain c

instance (cs : List Char) : Decidable (PlainText cs) :=
  decidable_of_iff (cs.all (IsPlain ·) = true) (by simp [PlainText])

theorem plainText_cons {c : Char} {cs : List Char} :
    PlainText (c :: cs) ↔ IsPlain c ∧ PlainText cs := List.forall_mem_cons

/-! What is known of a library -/

def object (name : String) (content : List Char) : List Char :=
  '\x7b' :: '"' :: (name.toList ++ '"' :: ':' :: (content ++ ['\x7d']))

def literal (body : List Char) : List Char := '"' :: (body ++ ['"'])

def Numeral.integer (t : Numeral) : Int :=
  if t.negative then -(t.significand : Int) else t.significand

namespace Library

variable (json : Library)

inductive IsContent : List Char → Prop
  | int (n : Int32) : IsContent (json.writeInt n)
  | float (x : Single) : IsContent (json.writeFloat x)
  | str (text : String) : IsContent (json.writeString text)

/-- A variant with content is an object whose only member has its name. -/
structure TagsExternally : Prop where
  written : ∀ name content, PlainText name.toList →
    json.writeVariant name (some content) = object name content
  read : ∀ name content, PlainText name.toList → json.IsContent content →
    json.readVariant (object name content) = some (name, some content)

/-- Integers are written in decimal. Whole numbers in range are read, but for the negative zero. -/
structure KeepsIntegers : Prop where
  written : ∀ n, json.writeInt n = (toString n.toInt).toList
  read : ∀ (t : Numeral) (n : Int32), t.IsWhole → (t.negative → t.significand ≠ 0) →
    t.integer = n.toInt → json.readInt t.chars = some n

/-- A plain character stands for itself in a string, and any other one is written as an escape. A
string is borrowed from a literal with nothing but plain characters, and not from one with an
escape. -/
structure QuotesStrings (escape : Char → List Char) : Prop where
  written : ∀ text, json.writeString text = literal (text.toList.flatMap escape)
  plain : ∀ c, IsPlain c → escape c = [c]
  escaped : ∀ c, ¬ IsPlain c → ∃ cs, escape c = '\\' :: cs
  borrowed : ∀ body, PlainText body → json.readBorrowed (literal body) = some (String.ofList body)
  refused : ∀ body, '\\' ∈ body → json.readBorrowed (literal body) = none

/-- What is no finite number is written as null. A float is only read where a number begins. -/
structure NullsNonNumbers : Prop where
  written : ∀ x : Single, x.isFinite = false → json.writeFloat x = null
  read : ∀ text x, json.readFloat text = some x →
    ∃ c ∈ (skipBlanks text).head?, c = '-' ∨ c.isDigit

end Library

/-! Integers -/

def Numeral.ofInt (n : Int) : Numeral where
  negative := n < 0
  whole := Nat.toDigits 10 n.natAbs
  fraction := none
  exponent := none
  whole_digits _ hc := Nat.isDigit_of_mem_toDigits (by decide) (by decide) hc
  whole_ne := Nat.toDigits_ne_nil
  whole_lead h := by
    rw [Rounding.head_toDigits h]
    rfl
  fraction_digits := nofun
  exponent_digits := Numeral.no_exponent

theorem Numeral.chars_ofInt (n : Int) : (ofInt n).chars = (toString n).toList := by
  have hchars : (ofInt n).chars = (if n < 0 then ['-'] else []) ++ Nat.toDigits 10 n.natAbs := by
    simp [chars, signChars, fractionChars, exponentChars, ofInt]
  rw [hchars]
  cases n with
  | ofNat m =>
    show Nat.toDigits 10 m = (Nat.repr m).toList
    rw [Nat.toList_repr]
  | negSucc m =>
    rw [if_pos (Int.negSucc_lt_zero m)]
    show '-' :: Nat.toDigits 10 (m + 1) = ("-" ++ Nat.repr (m + 1)).toList
    rw [String.toList_append, Nat.toList_repr]
    rfl

theorem Numeral.significand_ofInt (n : Int) : (ofInt n).significand = n.natAbs := by
  rw [significand]
  simp only [ofInt, Option.getD_none, List.append_nil]
  exact Nat.ofDigitChars_toDigits (by decide) (by decide)

theorem Numeral.integer_ofInt (n : Int) : (ofInt n).integer = n := by
  rw [integer, significand_ofInt, ofInt]
  by_cases hneg : n < 0
  · rw [decide_eq_true hneg, if_pos rfl]
    omega
  · rw [decide_eq_false hneg, if_neg Bool.false_ne_true]
    omega

theorem Numeral.significand_of_negative {n : Int} (h : (ofInt n).negative) :
    (ofInt n).significand ≠ 0 := by
  have hneg : n < 0 := of_decide_eq_true h
  rw [significand_ofInt]
  omega

end Json

open Json

namespace Value

variable {json : Library} {escape : Char → List Char}

/-- The content decides what is read of a value. -/
theorem read?_write (h : json.TagsExternally) (v : Value) :
    read? json (v.write json) = readContent json v.kindName (v.writeContent json) := by
  have hname : PlainText v.kindName.toList := by
    cases v with
    | int n => exact (by decide : PlainText "Int".toList)
    | float x => exact (by decide : PlainText "Float".toList)
    | str text => exact (by decide : PlainText "Str".toList)
  have hcontent : json.IsContent (v.writeContent json) := by
    cases v with
    | int n => exact .int n
    | float x => exact .float x
    | str text => exact .str text
  rw [read?, write, h.written _ _ hname, h.read _ _ hname hcontent]
  rfl

theorem read?_write_float (h : json.TagsExternally) (x : Single) :
    read? json (write json (.float x)) = (json.readFloat (json.writeFloat x)).map .float :=
  read?_write h (.float x)

theorem read?_write_int (htags : json.TagsExternally) (hints : json.KeepsIntegers) (n : Int32) :
    read? json (write json (.int n)) = some (.int n) := by
  have hread := hints.read (.ofInt n.toInt) n ⟨rfl, rfl⟩ Numeral.significand_of_negative
    (Numeral.integer_ofInt _)
  rw [Numeral.chars_ofInt, ← hints.written] at hread
  rw [read?_write htags, kindName, writeContent, readContent, if_pos rfl, hread]
  rfl

theorem readBorrowed_writeString (h : json.QuotesStrings escape) (text : String) :
    json.readBorrowed (json.writeString text) =
      if PlainText text.toList then some text else none := by
  rw [h.written]
  split
  · next hplain =>
    have hbody : text.toList.flatMap escape = text.toList := by
      rw [List.flatMap_congr fun c hc => h.plain c (hplain c hc), List.flatMap_singleton']
    rw [hbody, h.borrowed _ hplain, String.ofList_toList]
  · next hplain =>
    obtain ⟨c, hc, hescaped⟩ : ∃ c ∈ text.toList, ¬ IsPlain c := by
      simpa only [PlainText, not_forall, exists_prop] using hplain
    obtain ⟨cs, hcs⟩ := h.escaped c hescaped
    refine h.refused _ (List.mem_flatMap.mpr ⟨c, hc, ?_⟩)
    rw [hcs]
    exact List.mem_cons_self

theorem read?_write_str (htags : json.TagsExternally) (hstrings : json.QuotesStrings escape)
    (text : String) :
    read? json (write json (.str text)) =
      if PlainText text.toList then some (.str text) else none := by
  rw [read?_write htags, kindName, writeContent, readContent,
    if_neg (show ¬ "Str" = "Int" by decide), if_neg (show ¬ "Str" = "Float" by decide), if_pos rfl,
    readBorrowed_writeString hstrings]
  split <;> rfl

theorem readFloat_null (h : json.NullsNonNumbers) : json.readFloat null = none := by
  cases hread : json.readFloat null with
  | none => rfl
  | some x =>
    obtain ⟨c, ⟨⟩, hc⟩ := h.read null x hread
    exact absurd hc (by decide)

/-- Written as JSON and read again, every integer comes back. A string comes back if it has no
quote, no backslash and no character below the space, and is refused otherwise. Infinities and what
is no number are written as null and refused. -/
theorem json_comes_back_or_is_refused (htags : json.TagsExternally) (hints : json.KeepsIntegers)
    (hstrings : json.QuotesStrings escape) (hfloats : json.NullsNonNumbers) :
    (∀ n, read? json (write json (.int n)) = some (.int n)) ∧
    (∀ text : String,
      (read? json (write json (.str text)) = some (.str text) ↔
        ∀ c ∈ text.toList, c ≠ '"' ∧ c ≠ '\\' ∧ 0x20 ≤ c.toNat) ∧
      (read? json (write json (.str text)) = none ↔
        ∃ c ∈ text.toList, c = '"' ∨ c = '\\' ∨ c.toNat < 0x20)) ∧
    (∀ x : Single, x.isNaN ∨ x.isInfinite →
      write json (.float x) = object "Float" null ∧ read? json (write json (.float x)) = none) := by
  refine ⟨read?_write_int htags hints, fun text => ?_, fun x hx => ?_⟩
  · have hescaped : (∃ c ∈ text.toList, c = '"' ∨ c = '\\' ∨ c.toNat < 0x20) ↔
        ¬ PlainText text.toList := by
      simp only [PlainText, IsPlain, not_forall, exists_prop, not_and_or, not_not, not_le]
    rw [hescaped, read?_write_str htags hstrings]
    by_cases hplain : PlainText text.toList
    · rw [if_pos hplain]
      exact ⟨iff_of_true rfl hplain, iff_of_false nofun (not_not_intro hplain)⟩
    · rw [if_neg hplain]
      exact ⟨iff_of_false nofun hplain, iff_of_true rfl hplain⟩
  · have hfinite : x.isFinite = false := by
      rw [← Bool.not_eq_true, Single.isFinite_iff]
      rintro ⟨hnan, hinfinite⟩
      rcases hx with h | h
      · rw [hnan] at h
        cases h
      · rw [hinfinite] at h
        cases h
    have hnull := hfloats.written x hfinite
    constructor
    · rw [write, writeContent, hnull]
      exact htags.written "Float" null (by decide)
    · rw [read?_write_float htags, hnull, readFloat_null hfloats]
      rfl

end Value

/-! One library -/

namespace Json

theorem escapedChar_of_isPlain {c : Char} (h : IsPlain c) : escapedChar c = [c] := by
  obtain ⟨hquote, hbackslash, hcontrol⟩ := h
  unfold escapedChar
  split
  · exact absurd rfl hquote
  · exact absurd rfl hbackslash
  iterate 5 exact absurd hcontrol (by decide)
  exact if_neg (Nat.not_lt.mpr hcontrol)

theorem escapedChar_of_not_isPlain {c : Char} (h : ¬ IsPlain c) :
    ∃ cs, escapedChar c = '\\' :: cs := by
  unfold escapedChar
  split
  iterate 7 exact ⟨_, rfl⟩
  · next hquote hbackslash _ _ _ _ _ =>
    have hcontrol : c.toNat < 0x20 := by
      by_contra hcontrol
      exact h ⟨hquote, hbackslash, Nat.le_of_not_lt hcontrol⟩
    rw [if_pos hcontrol]
    exact ⟨_, rfl⟩

theorem plainBody_append_quote {body : List Char} (h : PlainText body) (rest : List Char) :
    plainBody (body ++ '"' :: rest) = some (body, rest) := by
  induction body with
  | nil => rfl
  | cons c cs ih =>
    obtain ⟨⟨hquote, hbackslash, hcontrol⟩, hcs⟩ := plainText_cons.mp h
    rw [List.cons_append, plainBody, if_neg hquote,
      if_neg (by rintro (h | h) <;> [exact hbackslash h; omega]), ih hcs]
    rfl

/-- A reader that takes no escapes stops in front of the first one. -/
theorem backslash_mem_of_plainBody {cs : List Char} {p : List Char × List Char}
    (hread : plainBody cs = some p) (h : '\\' ∈ cs) : '\\' ∈ p.2 := by
  induction cs generalizing p with
  | nil => cases h
  | cons c cs ih =>
    rw [plainBody] at hread
    split at hread
    · next hquote =>
      cases hread
      rw [hquote] at h
      exact (List.mem_cons.mp h).resolve_left (by decide)
    · split at hread
      · cases hread
      · next hplain =>
        obtain ⟨⟨body, rest⟩, hq, rfl⟩ := Option.map_eq_some_iff.mp hread
        rcases List.mem_cons.mp h with heq | hmem
        · exact absurd (Or.inl heq.symm) hplain
        · show '\\' ∈ rest
          exact ih hq hmem

theorem atEnd_of_backslash_mem {cs : List Char} (h : '\\' ∈ cs) : atEnd cs = false := by
  rw [atEnd, skipBlanks, List.isEmpty_eq_false_iff]
  intro hblank
  exact absurd (List.dropWhile_eq_nil_iff.mp hblank _ h) (by decide)

theorem readAll_readPlain (body : List Char) :
    readAll readPlain (literal body) =
      (plainBody (body ++ ['"'])).bind fun p =>
        if atEnd p.2 then some (String.ofList p.1) else none := by
  have hopen : expect '"' (literal body) = some (body ++ ['"']) := rfl
  rw [readAll, readPlain, hopen]
  simp only [Option.bind_eq_bind, Option.bind_some]
  cases plainBody (body ++ ['"']) <;> rfl

theorem common_quotesStrings : common.QuotesStrings escapedChar where
  written _ := rfl
  plain _ := escapedChar_of_isPlain
  escaped _ := escapedChar_of_not_isPlain
  borrowed body h := by
    show readAll readPlain (literal body) = _
    rw [readAll_readPlain, plainBody_append_quote h]
    rfl
  refused body h := by
    show readAll readPlain (literal body) = _
    rw [readAll_readPlain]
    cases hbody : plainBody (body ++ ['"']) with
    | none => rfl
    | some p =>
      have hrest := backslash_mem_of_plainBody hbody (List.mem_append_left _ h)
      rw [Option.bind_some, atEnd_of_backslash_mem hrest]
      rfl

theorem nameBody_plain {cs : List Char} (h : PlainText cs) (rest : List Char) :
    nameBody (cs ++ '"' :: rest) = some (cs, rest) := by
  induction cs with
  | nil => rw [List.nil_append, nameBody]
  | cons c cs ih =>
    obtain ⟨⟨hquote, hbackslash, hcontrol⟩, hcs⟩ := plainText_cons.mp h
    rw [List.cons_append, nameBody, if_neg (by rintro (h | h) <;> [exact hbackslash h; omega]),
      ih hcs]
    · rfl
    · exact hquote
    · rintro a b c d rest rfl
      exact absurd rfl hbackslash
    · rintro e rest rfl
      exact absurd rfl hbackslash

theorem quoted_plain {name : String} (h : PlainText name.toList) :
    quoted name = literal name.toList := by
  rw [quoted, List.flatMap_congr fun c hc => escapedChar_of_isPlain (h c hc),
    List.flatMap_singleton']
  rfl

theorem beforeBrace_append (content : List Char) :
    beforeBrace (content ++ ['\x7d']) = some content := by
  have hreverse : (content ++ ['\x7d']).reverse.dropWhile isBlank = '\x7d' :: content.reverse := by
    rw [List.reverse_append]
    rfl
  rw [beforeBrace, hreverse]
  exact congrArg some content.reverse_reverse

theorem readTagged_object {name : String} (h : PlainText name.toList) (content : List Char) :
    readTagged (object name content) = some (name, some content) := by
  have hname : readName ('"' :: (name.toList ++ '"' :: ':' :: (content ++ ['\x7d']))) =
      some (name, ':' :: (content ++ ['\x7d'])) := by
    show (nameBody (name.toList ++ '"' :: ':' :: (content ++ ['\x7d']))).bind _ = _
    rw [nameBody_plain h, Option.bind_some]
    dsimp only
    rw [String.ofList_toList]
    rfl
  have hcolon : expect ':' (':' :: (content ++ ['\x7d'])) = some (content ++ ['\x7d']) := rfl
  show (readName ('"' :: (name.toList ++ '"' :: ':' :: (content ++ ['\x7d'])))).bind _ = _
  rw [hname]
  simp only [Option.bind_eq_bind, Option.bind_some, hcolon, beforeBrace_append]
  rfl

theorem common_tagsExternally : common.TagsExternally where
  written name content h := by
    show '\x7b' :: (quoted name ++ ':' :: (content ++ ['\x7d'])) = _
    rw [quoted_plain h, literal, List.cons_append, List.append_assoc]
    rfl
  read _ content h _ := readTagged_object h content

theorem le_ofDigitChars (cs : List Char) (n : Nat) : n ≤ Nat.ofDigitChars 10 cs n := by
  induction cs generalizing n with
  | nil => exact Nat.le_refl n
  | cons c cs ih =>
    rw [Nat.ofDigitChars_cons]
    exact Nat.le_trans (by omega) (ih _)

/-- Digits whose value fits 64 bits are all absorbed. -/
theorem absorb_digitValues {cs : List Char} {n : Nat}
    (h : Nat.ofDigitChars 10 cs n < UInt64.size) :
    absorb n (digitValues cs) = (Nat.ofDigitChars 10 cs n, []) := by
  induction cs generalizing n with
  | nil => rfl
  | cons c cs ih =>
    have hstep : n * 10 + (c.toNat - 48) = 10 * n + (c.toNat - '0'.toNat) := by
      rw [Nat.mul_comm]
      rfl
    rw [Nat.ofDigitChars_cons] at h ⊢
    have hfits := Nat.lt_of_le_of_lt (le_ofDigitChars cs _) h
    rw [digitValues, List.map_cons, absorb, hstep, if_pos hfits]
    exact ih h

/-- A whole number is read with its value if that fits 64 bits. -/
theorem readNumber_whole {t : Numeral} (h : t.IsWhole) (hsize : t.significand < UInt64.size) :
    readNumber t.chars = some (.ofInteger t.negative t.significand) := by
  have hdigits : t.significand = Nat.ofDigitChars 10 t.whole 0 := by
    rw [Numeral.significand, h.1, Option.getD_none, List.append_nil]
  have habsorb : absorb 0 (digitValues t.whole) = (t.significand, []) := by
    rw [hdigits] at hsize ⊢
    exact absorb_digitValues hsize
  rw [readNumber, t.readAll_parts]
  simp [Number.ofParts, Numeral.parts, habsorb, h.1, h.2]

theorem common_keepsIntegers : common.KeepsIntegers where
  written _ := rfl
  read t n hwhole hzero hvalue := by
    have hlow := n.le_toInt
    have hhigh := n.toInt_lt
    have hsize : t.significand < UInt64.size := by
      unfold Numeral.integer at hvalue
      rw [UInt64.size]
      split at hvalue <;> omega
    have hinteger : Number.ofInteger t.negative t.significand = .integer n.toInt := by
      rw [← hvalue, Numeral.integer, Number.ofInteger]
      unfold Numeral.integer at hvalue
      cases hsign : t.negative with
      | false => rfl
      | true =>
        rw [hsign, if_pos rfl] at hvalue
        have hpos := Nat.pos_of_ne_zero (hzero hsign)
        rw [if_neg (show ¬ (!true) = true by decide), if_pos (by omega), if_pos rfl]
    show (readNumber t.chars).bind Number.toInt32? = some n
    rw [readNumber_whole hwhole hsize, Option.bind_some, hinteger, Number.toInt32?,
      if_pos (by omega), Int32.ofInt_toInt]

/-- In front of a number there are only blanks. -/
theorem head_of_readParts {text rest : List Char} {t : Parts}
    (h : readParts text = some (t, rest)) :
    ∃ c ∈ (skipBlanks text).head?, c = '-' ∨ c.isDigit := by
  rw [readParts] at h
  cases htext : skipBlanks text with
  | nil =>
    rw [htext] at h
    cases h
  | cons c cs =>
    refine ⟨c, rfl, ?_⟩
    by_contra! hc
    have hminus : takeMinus (c :: cs) = (false, c :: cs) := by
      unfold takeMinus
      split
      · next heq => exact absurd (List.cons.inj heq).1 hc.1
      · rfl
    have hdigits : spanDigits (c :: cs) = ([], c :: cs) := by
      rw [spanDigits, if_neg (by rw [← isDigit_iff]; exact hc.2)]
    have hwhole : readWhole (c :: cs) = none := by
      rw [readWhole, hdigits]
    rw [htext, hminus] at h
    simp only [hwhole, Option.bind_eq_bind, Option.bind_none] at h
    cases h

theorem common_nullsNonNumbers : common.NullsNonNumbers where
  written x h := by
    show (if x.isFinite then _ else null) = null
    rw [h, if_neg Bool.false_ne_true]
  read text x h := by
    obtain ⟨number, hnumber, -⟩ := Option.bind_eq_some_iff.mp h
    obtain ⟨t, hparts, -⟩ := Option.bind_eq_some_iff.mp hnumber
    obtain ⟨⟨t', rest⟩, hread, -⟩ := Option.bind_eq_some_iff.mp hparts
    exact head_of_readParts hread

end Json

namespace Value

/-- The least integer comes back; a line break and an infinity do not. -/
theorem line_break_and_infinity_are_refused :
    let json := common
    let x : Single := ⟨0xFF800000⟩
    json.TagsExternally ∧ json.KeepsIntegers ∧ json.QuotesStrings escapedChar ∧
      json.NullsNonNumbers ∧ x.isInfinite ∧
      read? json (write json (.int Int32.minValue)) = some (.int Int32.minValue) ∧
      read? json (write json (.str "a\nb")) = none ∧ read? json (write json (.float x)) = none := by
  intro json x
  have hinfinite : x.isInfinite := by decide +kernel
  obtain ⟨hint, hstr, hfloat⟩ := json_comes_back_or_is_refused common_tagsExternally
    common_keepsIntegers common_quotesStrings common_nullsNonNumbers
  have hbreak : '\n' ∈ "a\nb".toList := by simp
  refine ⟨common_tagsExternally, common_keepsIntegers, common_quotesStrings,
    common_nullsNonNumbers, hinfinite, hint _, ?_, (hfloat x (Or.inr hinfinite)).2⟩
  exact (hstr "a\nb").2.mpr ⟨'\n', hbreak, Or.inr (Or.inr (by decide))⟩

end Value

end LineConsole
