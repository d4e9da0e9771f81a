import Aquifer.Lib.Utf8

/-! JSON strings: the text between the quotes as `encoding/json` writes it for runes, with HTML
escaping, and what is read back from such a text. -/
namespace JsonText

/-- `unicode.ReplacementChar`. -/
def replacement : Char := '\uFFFD'

def hexDigits : List Char :=
  ['0', '1', '2', '3', '4', '5', '6', '7', '8', '9', 'a', 'b', 'c', 'd', 'e', 'f']

def hexDigit (n : Nat) : Char := hexDigits.getD n '0'

/-- The escapes of one letter. -/
def letters : List (Char × Char) :=
  [('"', '"'), ('\\', '\\'), ('\x08', 'b'), ('\x0C', 'f'), ('\n', 'n'), ('\r', 'r'), ('\t', 't')]

/-- The other characters that are escaped: control characters, what means something in HTML, and the
two line separators. -/
def isUnsafe (c : Char) : Bool :=
  c.toNat < 32 || c = '<' || c = '>' || c = '&' || c = '\u2028' || c = '\u2029'

/-- `\u` with four digits. -/
def unicodeEscape (n : Nat) : List Char :=
  ['\\', 'u', hexDigit (n / 4096 % 16), hexDigit (n / 256 % 16), hexDigit (n / 16 % 16),
    hexDigit (n % 16)]

def escape : Option Char → List Char
  | none => unicodeEscape replacement.toNat
  | some c =>
    match letters.lookup c with
    | some letter => ['\\', letter]
    | none => if isUnsafe c then unicodeEscape c.toNat else [c]

/-- The text of a string's runes. -/
def quote (rs : List (Option Char)) : List Char := rs.flatMap escape

def hexValue (x : Char) : Option Nat :=
  if '0' ≤ x ∧ x ≤ '9' then some (x.toNat - 48)
  else if 'a' ≤ x ∧ x ≤ 'f' then some (x.toNat - 87)
  else if 'A' ≤ x ∧ x ≤ 'F' then some (x.toNat - 55)
  else none

/-- `getu4` on four digits. -/
def hex4 (a b c d : Char) : Option Nat :=
  match hexValue a, hexValue b, hexValue c, hexValue d with
  | some a, some b, some c, some d => some (((a * 16 + b) * 16 + c) * 16 + d)
  | _, _, _, _ => none

/-- `utf16.DecodeRune`, of two halves of a pair. -/
def decodePair (n n' : Nat) : Option Char :=
  if 0xD800 ≤ n ∧ n < 0xDC00 ∧ 0xDC00 ≤ n' ∧ n' < 0xE000 then
    some (Char.ofNat ((n - 0xD800) * 1024 + (n' - 0xDC00) + 0x10000))
  else none

def isSurrogate (n : Nat) : Bool := 0xD800 ≤ n && n < 0xE000

/-- What a letter after a backslash stands for. -/
def unescape (e : Char) : Option Char :=
  if e = '/' then some '/' else (letters.find? (·.2 = e)).map Prod.fst

/-- The second half of a pair, if the text goes on with one. -/
def secondHalf (n : Nat) : List Char → Option Char
  | '\\' :: 'u' :: a :: b :: c :: d :: _ => (hex4 a b c d).bind (decodePair n)
  | _ => none

/-- The first character a text stands for, and how many of the text's characters that takes. -/
def token : List Char → Option (Char × Nat)
  | '\\' :: 'u' :: a :: b :: c :: d :: rest =>
    (hex4 a b c d).map fun n =>
      if isSurrogate n then
        match secondHalf n rest with
        | some x => (x, 12)
        | none => (replacement, 6)
      else (Char.ofNat n, 6)
  | '\\' :: e :: _ => (unescape e).map (·, 2)
  | c :: _ => if c = '\\' ∨ c = '"' ∨ c.toNat < 32 then none else some (c, 1)
  | [] => none

/-- The characters of a text from the end of the last token on, of which so many are left. -/
def unquoteFrom : Nat → List Char → Option (List Char)
  | _, [] => some []
  | left + 1, _ :: text => unquoteFrom left text
  | 0, c :: text =>
    match token (c :: text) with
    | some (x, size) => (unquoteFrom (size - 1) text).map (x :: ·)
    | none => none

def unquote (text : List Char) : Option (List Char) := unquoteFrom 0 text

variable {r : Option Char} {rs : List (Option Char)} {text : List Char} {x : Char} {n : Nat}

theorem unquoteFrom_eq_drop (n : Nat) (text : List Char) :
    unquoteFrom n text = unquote (text.drop n) := by
  induction n generalizing text with
  | zero => rfl
  | succ n ih =>
    cases text with
    | nil => rfl
    | cons c text => exact ih text

theorem unquote_append {front : List Char} (hne : front ≠ [])
    (h : token (front ++ text) = some (x, front.length)) :
    unquote (front ++ text) = (unquote text).map (x :: ·) := by
  cases front with
  | nil => exact absurd rfl hne
  | cons c front =>
    rw [List.cons_append] at h ⊢
    rw [unquote, unquoteFrom, h]
    dsimp only
    rw [unquoteFrom_eq_drop, List.length_cons, Nat.add_sub_cancel, List.drop_left]

theorem hexValue_hexDigit (h : n < 16) : hexValue (hexDigit n) = some n := by
  have hall : ∀ a : Fin 16, hexValue (hexDigit a) = some a.val := by decide
  exact hall ⟨n, h⟩

theorem hex4_digits (h : n < 65536) : hex4 (hexDigit (n / 4096 % 16)) (hexDigit (n / 256 % 16))
    (hexDigit (n / 16 % 16)) (hexDigit (n % 16)) = some n := by
  have hdigit : ∀ k : Nat, hexValue (hexDigit (k % 16)) = some (k % 16) := fun k =>
    hexValue_hexDigit (Nat.mod_lt k (by decide))
  rw [hex4, hdigit, hdigit, hdigit, hdigit]
  exact congrArg some (by omega)

/-- An escape of four digits is one character's, unless it is half of a pair. -/
theorem token_unicodeEscape (hn : n < 65536) (hpair : isSurrogate n = false) :
    token (unicodeEscape n ++ text) = some (Char.ofNat n, 6) := by
  rw [unicodeEscape, List.cons_append, List.cons_append, List.cons_append, List.cons_append,
    List.cons_append, List.cons_append, List.nil_append, token, hex4_digits hn, Option.map_some,
    hpair]
  rfl

theorem token_letter {c letter : Char} (h : letters.lookup c = some letter) :
    token ('\\' :: letter :: text) = some (c, 2) := by
  have hall : ∀ e ∈ letters, e.2 ≠ 'u' ∧ unescape e.2 = some e.1 := by decide
  obtain ⟨l, l', hl, -⟩ := List.lookup_eq_some_iff.mp h
  obtain ⟨hu, hread⟩ := hall (c, letter) (by rw [hl]; simp)
  rw [token]
  · rw [hread]
    rfl
  · rintro a b c' d rest hletter -
    exact hu hletter

theorem token_plain {c : Char} (hbar : c ≠ '\\') (hquote : c ≠ '"') (hcontrol : ¬ c.toNat < 32) :
    token (c :: text) = some (c, 1) := by
  rw [token, if_neg (by simp [hbar, hquote, hcontrol])]
  · rintro a b c' d rest hc -
    exact hbar hc
  · rintro e rest hc -
    exact hbar hc

/-- What is escaped by four digits is neither half of a pair nor past them. -/
theorem unsafe_range {c : Char} (h : isUnsafe c = true) :
    c.toNat < 65536 ∧ isSurrogate c.toNat = false := by
  simp only [isUnsafe, Bool.or_eq_true, decide_eq_true_eq] at h
  rcases h with ((((hcontrol | rfl) | rfl) | rfl) | rfl) | rfl
  · refine ⟨by omega, ?_⟩
    simp only [isSurrogate, Bool.and_eq_false_iff, decide_eq_false_iff_not]
    omega
  all_goals decide

theorem token_escape (r : Option Char) (text : List Char) :
    token (escape r ++ text) = some (r.getD replacement, (escape r).length) := by
  cases r with
  | none => exact token_unicodeEscape (by decide) (by decide)
  | some c =>
    rw [escape]
    cases hletter : letters.lookup c with
    | some letter => exact token_letter hletter
    | none =>
      dsimp only
      split_ifs with hunsafe
      · obtain ⟨hrange, hpair⟩ := unsafe_range hunsafe
        rw [token_unicodeEscape hrange hpair, Char.ofNat_toNat]
        rfl
      · refine token_plain ?_ ?_ ?_
        · rintro rfl
          exact absurd hletter (by decide)
        · rintro rfl
          exact absurd hletter (by decide)
        · intro hcontrol
          exact hunsafe (by simp [isUnsafe, hcontrol])

theorem escape_ne_nil (r : Option Char) : escape r ≠ [] := by
  unfold escape unicodeEscape
  split
  · simp
  · split
    · simp
    · split_ifs <;> simp

/-- What is read back: the characters, and the replacement character for every other byte. -/
theorem unquote_quote (rs : List (Option Char)) :
    unquote (quote rs) = some (rs.map (·.getD replacement)) := by
  induction rs with
  | nil => rfl
  | cons r rs ih =>
    rw [quote, List.flatMap_cons, unquote_append (escape_ne_nil r) (token_escape r _)]
    show (unquote (quote rs)).map _ = _
    rw [ih]
    rfl

/-! ### Strings as fields of an object -/

def quoteText (s : String) : List Char := quote (s.toList.map some)

/-- `omitempty` of a string. -/
def omitEmpty (s : String) : Option (List Char) := if s = "" then none else some (quoteText s)

/-- A field that is not there is empty. -/
def readText : Option (List Char) → Option String
  | none => some ""
  | some body => (unquote body).map String.ofList

theorem readText_quoteText (s : String) : readText (some (quoteText s)) = some s := by
  simp [readText, quoteText, unquote_quote, Function.comp_def]

theorem readText_omitEmpty (s : String) : readText (omitEmpty s) = some s := by
  unfold omitEmpty
  split
  · next h => exact congrArg some h.symm
  · exact readText_quoteText s

end JsonText
