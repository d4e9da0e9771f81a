import Mathlib.Data.List.Chain
import Aquifer.Lib.JsonText

/-! JSON texts: their tokens, which texts are a value, and the compact form of one, with HTML
escaping, as `encoding/json` writes it. -/
namespace Json

open JsonText

inductive Token
  | punct (c : Char)
  | word (w : List Char)
  | str (cs : List Char)
deriving DecidableEq

def isSpace (c : Char) : Bool := c = ' ' || c = '\t' || c = '\n' || c = '\r'

def isPunct (c : Char) : Bool :=
  c = '{' || c = '}' || c = '[' || c = ']' || c = ':' || c = ','

/-! ### Tokens -/

/-- Where the reading of a text stands: between tokens, in a word, in a string, or after a backslash
in a string, with what it has of the token. -/
inductive Mode
  | between
  | word (w : List Char)
  | inside (body : List Char)
  | escaped (body : List Char)

/-- One character: the tokens that end with it, and what follows. -/
def Mode.step : Mode → Char → Option (List Token × Mode)
  | .between, c =>
    if isSpace c then some ([], .between)
    else if c = '"' then some ([], .inside [])
    else if isPunct c then some ([.punct c], .between)
    else some ([], .word [c])
  | .word w, c =>
    if isSpace c then some ([.word w], .between)
    else if c = '"' then some ([.word w], .inside [])
    else if isPunct c then some ([.word w, .punct c], .between)
    else some ([], .word (w ++ [c]))
  | .inside body, c =>
    if c = '\\' then some ([], .escaped (body ++ [c]))
    else if c = '"' then (unquote body).map fun cs => ([.str cs], .between)
    else some ([], .inside (body ++ [c]))
  | .escaped body, c => some ([], .inside (body ++ [c]))

/-- The end of the text. -/
def Mode.flush : Mode → Option (List Token)
  | .between => some []
  | .word w => some [.word w]
  | .inside _ | .escaped _ => none

def lex : Mode → List Char → Option (List Token)
  | m, [] => m.flush
  | m, c :: text => (m.step c).bind fun r => (lex r.2 text).map (r.1 ++ ·)

def tokens (text : List Char) : Option (List Token) := lex .between text

/-! ### Values -/

/-- An exponent, if there is one. -/
def isExponent : List Char → Bool
  | [] => true
  | e :: rest =>
    let digits := if rest.head? = some '+' ∨ rest.head? = some '-' then rest.tail else rest
    (e = 'e' || e = 'E') && digits ≠ [] && digits.all Char.isDigit

def isNumber (w : List Char) : Bool :=
  let w := if w.head? = some '-' then w.tail else w
  let int := w.takeWhile Char.isDigit
  (int = ['0'] || (int ≠ [] && int.head? ≠ some '0')) &&
    match w.dropWhile Char.isDigit with
    | '.' :: rest =>
      rest.takeWhile Char.isDigit ≠ [] && isExponent (rest.dropWhile Char.isDigit)
    | rest => isExponent rest

/-- The values of one word. -/
def isScalar (w : List Char) : Bool :=
  w = ['t', 'r', 'u', 'e'] || w = ['f', 'a', 'l', 's', 'e'] || w = ['n', 'u', 'l', 'l'] ||
    isNumber w

/-- What may come next: a value; a value or the end of the array that has just begun; a key or the
end of the object that has just begun; a key; a colon; what follows a value. -/
inductive Expect
  | value
  | element
  | firstKey
  | key
  | colon
  | after
deriving DecidableEq

/-- What a value is in. -/
inductive Frame
  | array
  | object
deriving DecidableEq

def maxNestingDepth : Nat := 10000

def beginValue (fs : List Frame) : Token → Option (Expect × List Frame)
  | .word w => if isScalar w then some (.after, fs) else none
  | .str _ => some (.after, fs)
  | .punct '[' => if fs.length < maxNestingDepth then some (.element, .array :: fs) else none
  | .punct '{' => if fs.length < maxNestingDepth then some (.firstKey, .object :: fs) else none
  | .punct _ => none

def next : Expect → List Frame → Token → Option (Expect × List Frame)
  | .value, fs, t => beginValue fs t
  | .element, .array :: fs, .punct ']' => some (.after, fs)
  | .element, fs, t => beginValue fs t
  | .firstKey, .object :: fs, .punct '}' => some (.after, fs)
  | .firstKey, fs, .str _ | .key, fs, .str _ => some (.colon, fs)
  | .colon, fs, .punct ':' => some (.value, fs)
  | .after, .array :: fs, .punct ',' => some (.value, .array :: fs)
  | .after, .array :: fs, .punct ']' => some (.after, fs)
  | .after, .object :: fs, .punct ',' => some (.key, .object :: fs)
  | .after, .object :: fs, .punct '}' => some (.after, fs)
  | _, _, _ => none

def accepts : Expect → List Frame → List Token → Bool
  | e, fs, [] => e = .after && fs = []
  | e, fs, t :: ts =>
    match next e fs t with
    | some (e', fs') => accepts e' fs' ts
    | none => false

/-- `json.Valid`. -/
def valid (text : List Char) : Bool := (tokens text).any (accepts .value [])

/-! ### Compact texts -/

/-- Outside of strings, in one, or after a backslash in one. -/
inductive Place
  | outside
  | inside
  | escaped
deriving DecidableEq

def Place.next : Place → Char → Place
  | .outside, c => if c = '"' then .inside else .outside
  | .inside, c => if c = '\\' then .escaped else if c = '"' then .outside else .inside
  | .escaped, _ => .inside

/-- The characters that are escaped though they may stand in a string. -/
def isHTML (c : Char) : Bool :=
  c = '<' || c = '>' || c = '&' || c = '\u2028' || c = '\u2029'

/-- What is left of a character. -/
def Place.write : Place → Char → List Char
  | .outside, c => if isSpace c then [] else [c]
  | .inside, c => if isHTML c then unicodeEscape c.toNat else [c]
  | .escaped, c => [c]

def compactFrom : Place → List Char → List Char
  | _, [] => []
  | p, c :: text => p.write c ++ compactFrom (p.next c) text

/-- `compact` of a valid text: spaces go, and strings are escaped for HTML. -/
def compact (text : List Char) : List Char := compactFrom .outside text

variable {text body rest : List Char} {ts : List Token} {p : Place} {c : Char}

theorem compactFrom_append (p : Place) (a b : List Char) :
    compactFrom p (a ++ b) = compactFrom p a ++ compactFrom (a.foldl Place.next p) b := by
  induction a generalizing p with
  | nil => rfl
  | cons c a ih => simp only [List.cons_append, compactFrom, ih, List.foldl_cons, List.append_assoc]

/-! ### The body of a string -/

/-- How a body that can be read begins. -/
inductive Begins : List Char → Char → List Char → Prop
  | plain {c : Char} {rest : List Char} (hc : c ≠ '\\') (hquote : c ≠ '"')
      (hcontrol : ¬ c.toNat < 32) : Begins (c :: rest) c rest
  | letter {e x : Char} {rest : List Char} (he : unescape e = some x) :
      Begins ('\\' :: e :: rest) x rest
  | unicode {a b c d : Char} {n : Nat} {rest : List Char} (hn : hex4 a b c d = some n)
      (hsurrogate : isSurrogate n = false) :
      Begins ('\\' :: 'u' :: a :: b :: c :: d :: rest) (Char.ofNat n) rest
  | lone {a b c d : Char} {n : Nat} {rest : List Char} (hn : hex4 a b c d = some n)
      (hsurrogate : isSurrogate n = true) (hhalf : secondHalf n rest = none) :
      Begins ('\\' :: 'u' :: a :: b :: c :: d :: rest) replacement rest
  | pair {a b c d a' b' c' d' x : Char} {n : Nat} {rest : List Char} (hn : hex4 a b c d = some n)
      (hsurrogate : isSurrogate n = true)
      (hhalf : (hex4 a' b' c' d').bind (decodePair n) = some x) :
      Begins ('\\' :: 'u' :: a :: b :: c :: d :: '\\' :: 'u' :: a' :: b' :: c' :: d' :: rest) x rest

theorem token_of_begins {b : List Char} {x : Char} (h : Begins b x rest) :
    ∃ front, front ≠ [] ∧ b = front ++ rest ∧ token b = some (x, front.length) := by
  cases h with
  | plain hc hquote hcontrol => exact ⟨[x], by simp, rfl, token_plain hc hquote hcontrol⟩
  | @letter e x rest he =>
    refine ⟨['\\', e], by simp, rfl, ?_⟩
    have hu : e ≠ 'u' := by
      rintro rfl
      cases he
    simp [token, he, hu]
  | @unicode a b c d n rest hn hsurrogate =>
    refine ⟨['\\', 'u', a, b, c, d], by simp, rfl, ?_⟩
    simp [token, hn, hsurrogate]
  | @lone a b c d n rest hn hsurrogate hhalf =>
    refine ⟨['\\', 'u', a, b, c, d], by simp, rfl, ?_⟩
    simp [token, hn, hsurrogate, hhalf]
  | @pair a b c d a' b' c' d' x n rest hn hsurrogate hhalf =>
    refine ⟨['\\', 'u', a, b, c, d, '\\', 'u', a', b', c', d'], by simp, rfl, ?_⟩
    simp [token, hn, hsurrogate, secondHalf, hhalf]

theorem unquote_of_begins {b : List Char} {x : Char} (h : Begins b x rest) :
    unquote b = (unquote rest).map (x :: ·) := by
  obtain ⟨front, hne, rfl, htoken⟩ := token_of_begins h
  exact unquote_append hne htoken

theorem secondHalf_eq_some {n : Nat} {x : Char} (h : secondHalf n text = some x) :
    ∃ a b c d rest, text = '\\' :: 'u' :: a :: b :: c :: d :: rest ∧
      (hex4 a b c d).bind (decodePair n) = some x := by
  unfold secondHalf at h
  split at h
  · exact ⟨_, _, _, _, _, rfl, h⟩
  · cases h

theorem begins_of_unquote {cs : List Char} (h : unquote (c :: text) = some cs) :
    ∃ x rest cs', Begins (c :: text) x rest ∧ unquote rest = some cs' := by
  rw [unquote, unquoteFrom] at h
  cases htoken : token (c :: text) with
  | none => simp [htoken] at h
  | some r =>
    obtain ⟨x, size⟩ := r
    simp only [htoken, Option.map_eq_some_iff, unquoteFrom_eq_drop] at h
    obtain ⟨cs', hrest, -⟩ := h
    unfold token at htoken
    split at htoken
    · next a b d e rest heq =>
      obtain ⟨n, hn, hx⟩ := Option.map_eq_some_iff.mp htoken
      cases heq
      split at hx
      · next hsurrogate =>
        split at hx
        · next y hhalf =>
          cases hx
          obtain ⟨a', b', c', d', rest', rfl, hhalf⟩ := secondHalf_eq_some hhalf
          exact ⟨_, _, cs', .pair hn hsurrogate hhalf, hrest⟩
        · next hhalf =>
          cases hx
          exact ⟨_, _, cs', .lone hn hsurrogate hhalf, hrest⟩
      · next hsurrogate =>
        cases hx
        exact ⟨_, _, cs', .unicode hn (by simpa using hsurrogate), hrest⟩
    · next e rest hnot heq =>
      obtain ⟨y, hy, hx⟩ := Option.map_eq_some_iff.mp htoken
      cases heq
      cases hx
      exact ⟨_, _, cs', .letter hy, hrest⟩
    · next c' rest hnot hnot' heq =>
      cases heq
      obtain ⟨hplain, ⟨⟩⟩ := Option.ite_none_left_eq_some.mp htoken
      simp only [not_or] at hplain
      exact ⟨_, _, cs', .plain hplain.1 hplain.2.1 hplain.2.2, hrest⟩
    · cases htoken

/-! ### Compact strings -/

theorem hexValue_plain {x : Char} {v : Nat} (h : hexValue x = some v) :
    x ≠ '\\' ∧ x ≠ '"' ∧ isHTML x = false := by
  refine ⟨?_, ?_, ?_⟩
  · rintro rfl
    cases h
  · rintro rfl
    cases h
  · by_contra hx
    simp only [isHTML, Bool.not_eq_false, Bool.or_eq_true, decide_eq_true_eq] at hx
    rcases hx with (((rfl | rfl) | rfl) | rfl) | rfl <;> cases h

theorem compactFrom_plain (hc : c ≠ '\\') (hquote : c ≠ '"') (hhtml : isHTML c = false) :
    compactFrom .inside (c :: text) = c :: compactFrom .inside text := by
  simp [compactFrom, Place.write, Place.next, hc, hquote, hhtml]

theorem compactFrom_letter (e : Char) :
    compactFrom .inside ('\\' :: e :: text) = '\\' :: e :: compactFrom .inside text := by
  simp [compactFrom, Place.write, Place.next, isHTML]

theorem hex4_eq_some {a b c d : Char} {n : Nat} (h : hex4 a b c d = some n) :
    ∃ i j k l, hexValue a = some i ∧ hexValue b = some j ∧ hexValue c = some k ∧
      hexValue d = some l := by
  unfold hex4 at h
  split at h
  · next i j k l ha hb hc hd => exact ⟨i, j, k, l, ha, hb, hc, hd⟩
  · cases h

theorem compactFrom_unicode {a b c d : Char} {n : Nat} (h : hex4 a b c d = some n) :
    compactFrom .inside ('\\' :: 'u' :: a :: b :: c :: d :: text) =
      '\\' :: 'u' :: a :: b :: c :: d :: compactFrom .inside text := by
  obtain ⟨i, j, k, l, ha, hb, hc, hd⟩ := hex4_eq_some h
  have plain : ∀ {x : Char} {v : Nat} {text : List Char}, hexValue x = some v →
      compactFrom .inside (x :: text) = x :: compactFrom .inside text :=
    fun hx => compactFrom_plain (hexValue_plain hx).1 (hexValue_plain hx).2.1
      (hexValue_plain hx).2.2
  rw [compactFrom_letter, plain ha, plain hb, plain hc, plain hd]

theorem isHTML_range (h : isHTML c = true) : c.toNat < 0xD800 := by
  simp only [isHTML, Bool.or_eq_true, decide_eq_true_eq] at h
  rcases h with (((rfl | rfl) | rfl) | rfl) | rfl <;> decide

theorem compactFrom_html (h : isHTML c = true) :
    compactFrom .inside (c :: text) = unicodeEscape c.toNat ++ compactFrom .inside text := by
  have hc : c ≠ '\\' := by
    rintro rfl
    cases h
  have hquote : c ≠ '"' := by
    rintro rfl
    cases h
  simp [compactFrom, Place.write, Place.next, hc, hquote, h]

theorem begins_html (h : isHTML c = true) : Begins (unicodeEscape c.toNat ++ text) c text := by
  have hrange := isHTML_range h
  have hsurrogate : isSurrogate c.toNat = false := by
    simp only [isSurrogate, Bool.and_eq_false_iff, decide_eq_false_iff_not]
    omega
  have hbegins : Begins (unicodeEscape c.toNat ++ text) (Char.ofNat c.toNat) text :=
    .unicode (hex4_digits (by omega)) hsurrogate
  rwa [Char.ofNat_toNat] at hbegins

theorem secondHalf_of_ne (n : Nat) (hc : c ≠ '\\') : secondHalf n (c :: text) = none := by
  unfold secondHalf
  split
  · next heq => exact absurd (List.cons.inj heq).1 hc
  · rfl

theorem secondHalf_letter (n : Nat) {e x : Char} (he : unescape e = some x) :
    secondHalf n ('\\' :: e :: text) = none := by
  unfold secondHalf
  split
  · next heq =>
    obtain rfl : e = 'u' := (List.cons.inj (List.cons.inj heq).2).1
    cases he
  · rfl

/-- Whether a body goes on with the second half of a pair is the same of its compact form. -/
theorem secondHalf_compactFrom (n : Nat) {cs : List Char} (h : unquote text = some cs) :
    secondHalf n (compactFrom .inside text) = secondHalf n text := by
  cases text with
  | nil => rfl
  | cons c text =>
    obtain ⟨x, rest, cs', hbegins, -⟩ := begins_of_unquote h
    cases hbegins with
    | plain hc hquote hcontrol =>
      rw [secondHalf_of_ne n hc]
      cases hhtml : isHTML c with
      | false => rw [compactFrom_plain hc hquote hhtml, secondHalf_of_ne n hc]
      | true =>
        rw [compactFrom_html hhtml]
        have hrange := isHTML_range hhtml
        simp only [unicodeEscape, List.cons_append, List.nil_append, secondHalf]
        rw [hex4_digits (by omega), Option.bind_some, decodePair, if_neg (by omega)]
    | letter he => rw [compactFrom_letter, secondHalf_letter n he, secondHalf_letter n he]
    | unicode hn | lone hn | pair hn => rw [compactFrom_unicode hn, secondHalf, secondHalf]

theorem begins_compactFrom {b cs : List Char} {x : Char} (h : Begins b x rest)
    (hrest : unquote rest = some cs) :
    Begins (compactFrom .inside b) x (compactFrom .inside rest) := by
  cases h with
  | plain hc hquote hcontrol =>
    cases hhtml : isHTML x with
    | false =>
      rw [compactFrom_plain hc hquote hhtml]
      exact .plain hc hquote hcontrol
    | true =>
      rw [compactFrom_html hhtml]
      exact begins_html hhtml
  | letter he =>
    rw [compactFrom_letter]
    exact .letter he
  | unicode hn hsurrogate =>
    rw [compactFrom_unicode hn]
    exact .unicode hn hsurrogate
  | lone hn hsurrogate hhalf =>
    rw [compactFrom_unicode hn]
    exact .lone hn hsurrogate ((secondHalf_compactFrom _ hrest).trans hhalf)
  | pair hn hsurrogate hhalf =>
    obtain ⟨n', hn', -⟩ := Option.bind_eq_some_iff.mp hhalf
    rw [compactFrom_unicode hn, compactFrom_unicode hn']
    exact .pair hn hsurrogate hhalf

/-- The compact form of a string reads as the string. -/
theorem unquote_compactFrom {b cs : List Char} (h : unquote b = some cs) :
    unquote (compactFrom .inside b) = some cs := by
  induction hlen : b.length using Nat.strongRecOn generalizing b cs with
  | ind n ih =>
    cases b with
    | nil => exact h
    | cons c text =>
      obtain ⟨x, rest, cs', hbegins, hrest⟩ := begins_of_unquote h
      have hshorter : rest.length < n := by
        obtain ⟨front, hne, heq, -⟩ := token_of_begins hbegins
        have := List.length_pos_of_ne_nil hne
        rw [heq, List.length_append] at hlen
        omega
      rw [unquote_of_begins hbegins, hrest] at h
      rw [unquote_of_begins (begins_compactFrom hbegins hrest), ih _ hshorter hrest rfl, ← h]

/-! ### Compact texts have the same tokens -/

def Token.isWord : Token → Bool
  | .word _ => true
  | _ => false

/-- No two words stand next to each other. -/
def Separate (ts : List Token) : Prop := ts.IsChain fun a b => ¬ (a.isWord = true ∧ b.isWord = true)

/-- The reading of the compact text, where the reading of the text stands at `m`. -/
def Mode.compact : Mode → Mode
  | .between => .between
  | .word w => .word w
  | .inside body => .inside (compactFrom .inside body)
  | .escaped body => .escaped (compactFrom .inside body)

def Mode.place : Mode → Place
  | .between | .word _ => .outside
  | .inside _ => .inside
  | .escaped _ => .escaped

/-- The body so far ends where the mode says. -/
def Mode.Sound : Mode → Prop
  | .between | .word _ => True
  | .inside body => body.foldl Place.next .inside = .inside
  | .escaped body => body.foldl Place.next .inside = .escaped

variable {m m' : Mode}

theorem ne_quote_of_isSpace (h : isSpace c = true) : c ≠ '"' := by
  rintro rfl
  cases h

theorem step_sound (hm : m.Sound) (hstep : m.step c = some (ts, m')) :
    m'.Sound ∧ m'.place = m.place.next c := by
  cases m with
  | between | word =>
    simp only [Mode.step] at hstep
    split_ifs at hstep with hspace hquote <;> cases hstep
    · simp [Mode.Sound, Mode.place, Place.next, ne_quote_of_isSpace hspace]
    all_goals simp [Mode.Sound, Mode.place, Place.next, hquote]
  | inside body =>
    simp only [Mode.step] at hstep
    rw [Mode.Sound] at hm
    split_ifs at hstep with hescape hquote
    · cases hstep
      simp [Mode.Sound, Mode.place, Place.next, hm, hescape]
    · obtain ⟨cs, -, heq⟩ := Option.map_eq_some_iff.mp hstep
      cases heq
      simp [Mode.Sound, Mode.place, Place.next, hquote]
    · cases hstep
      simp [Mode.Sound, Mode.place, Place.next, hm, hescape, hquote]
  | escaped body =>
    cases hstep
    rw [Mode.Sound] at hm
    simp [Mode.Sound, Mode.place, Place.next, hm]

theorem lex_of_step (h : m.step c = some (ts, m')) :
    lex m (c :: text) = (lex m' text).map (ts ++ ·) := by
  rw [lex, h]
  rfl

theorem map_nil_append (o : Option (List Token)) : o.map ([] ++ ·) = o := by
  cases o <;> rfl

theorem lex_of_step_nil (h : m.step c = some ([], m')) : lex m (c :: text) = lex m' text :=
  (lex_of_step h).trans (map_nil_append _)

/-- Six characters of an escape are read into the body. -/
theorem lex_unicodeEscape (n : Nat) (body tail : List Char) :
    lex (.inside body) (unicodeEscape n ++ tail) =
      lex (.inside (body ++ unicodeEscape n)) tail := by
  have plain : ∀ (body : List Char) (k : Nat) (tail : List Char),
      lex (.inside body) (hexDigit (k % 16) :: tail) =
        lex (.inside (body ++ [hexDigit (k % 16)])) tail := by
    intro body k tail
    obtain ⟨hescape, hquote, -⟩ :=
      hexValue_plain (hexValue_hexDigit (Nat.mod_lt k (by decide : 0 < 16)))
    apply lex_of_step_nil
    rw [Mode.step, if_neg hescape, if_neg hquote]
  have hfirst : ∀ tail, lex (.inside body) ('\\' :: 'u' :: tail) =
      lex (.inside (body ++ ['\\'] ++ ['u'])) tail := by
    intro tail
    have hbar : (Mode.inside body).step '\\' = some ([], .escaped (body ++ ['\\'])) := rfl
    rw [lex_of_step_nil hbar]
    exact lex_of_step_nil rfl
  simp only [unicodeEscape, List.cons_append, List.nil_append, hfirst, plain, List.append_assoc]

/-- Outside of strings the two readings stand at the same mode. -/
theorem lex_write_outside (hm : m.place = .outside) (hstep : m.step c = some (ts, m'))
    (hspace : isSpace c = false) (tail : List Char) :
    lex m.compact (m.place.write c ++ tail) = (lex m'.compact tail).map (ts ++ ·) := by
  have hsame : m.compact = m ∧ m'.compact = m' := by
    cases m with
    | between | word =>
      simp only [Mode.step] at hstep
      split_ifs at hstep <;> cases hstep <;> exact ⟨rfl, rfl⟩
    | inside | escaped => cases hm
  rw [hsame.1, hsame.2, hm, Place.write, if_neg (by simp [hspace])]
  exact lex_of_step hstep

theorem lex_write_inside (hm : (Mode.inside body).Sound)
    (hstep : (Mode.inside body).step c = some (ts, m')) (tail : List Char) :
    lex (Mode.inside body).compact (Place.inside.write c ++ tail) =
      (lex m'.compact tail).map (ts ++ ·) := by
  have happend : ∀ c, compactFrom .inside (body ++ [c]) =
      compactFrom .inside body ++ Place.inside.write c := by
    intro c
    rw [compactFrom_append, hm, compactFrom, compactFrom, List.append_nil]
  simp only [Mode.step] at hstep
  split_ifs at hstep with hescape hquote
  · cases hstep
    subst hescape
    refine lex_of_step ?_
    rw [Mode.compact, Mode.compact, happend, Mode.step, if_pos rfl]
    rfl
  · subst hquote
    obtain ⟨cs, hcs, heq⟩ := Option.map_eq_some_iff.mp hstep
    cases heq
    refine lex_of_step ?_
    change (Mode.inside (compactFrom .inside body)).step '"' = _
    rw [Mode.step, if_neg (by decide), if_pos rfl, unquote_compactFrom hcs]
    rfl
  · cases hstep
    rw [Mode.compact, Mode.compact, happend]
    cases hhtml : isHTML c with
    | true =>
      rw [Place.write, if_pos hhtml, lex_unicodeEscape]
      exact (map_nil_append _).symm
    | false =>
      rw [Place.write, hhtml]
      refine lex_of_step ?_
      rw [Mode.step, if_neg hescape, if_neg hquote]
      rfl

/-- What is left of a character leads the reading of the compact text to where the character leads
that of the text. A space after a word is not left. -/
theorem lex_write (hm : m.Sound) (hstep : m.step c = some (ts, m'))
    (hword : ∀ w, m = .word w → isSpace c = false) (tail : List Char) :
    lex m.compact (m.place.write c ++ tail) = (lex m'.compact tail).map (ts ++ ·) := by
  cases m with
  | between =>
    cases hspace : isSpace c with
    | true =>
      simp only [Mode.step, hspace, if_true] at hstep
      cases hstep
      rw [Mode.place, Place.write, if_pos hspace]
      exact (map_nil_append _).symm
    | false => exact lex_write_outside rfl hstep hspace tail
  | word w => exact lex_write_outside rfl hstep (hword w rfl) tail
  | inside body => exact lex_write_inside hm hstep tail
  | escaped body =>
    cases hstep
    have happend : compactFrom .inside (body ++ [c]) = compactFrom .inside body ++ [c] := by
      rw [compactFrom_append, hm]
      rfl
    rw [Mode.compact, Mode.compact, happend]
    exact lex_of_step rfl

theorem lex_word {w : List Char} (h : lex (.word w) text = some ts) :
    ∃ w' ts', ts = .word w' :: ts' := by
  induction text generalizing w with
  | nil =>
    cases h
    exact ⟨w, [], rfl⟩
  | cons c text ih =>
    simp only [lex, Mode.step] at h
    split_ifs at h
    · obtain ⟨ts', -, rfl⟩ := Option.map_eq_some_iff.mp h
      exact ⟨w, ts', rfl⟩
    · obtain ⟨ts', -, rfl⟩ := Option.map_eq_some_iff.mp h
      exact ⟨w, ts', rfl⟩
    · obtain ⟨ts', -, rfl⟩ := Option.map_eq_some_iff.mp h
      exact ⟨w, .punct c :: ts', rfl⟩
    · obtain ⟨ts', hts', rfl⟩ := Option.map_eq_some_iff.mp h
      exact ih hts'

theorem lex_cons (h : lex m (c :: text) = some ts) :
    ∃ ts₁ m' ts₂, m.step c = some (ts₁, m') ∧ lex m' text = some ts₂ ∧ ts = ts₁ ++ ts₂ := by
  obtain ⟨⟨ts₁, m'⟩, hstep, hmap⟩ := Option.bind_eq_some_iff.mp h
  obtain ⟨ts₂, hts₂, rfl⟩ := Option.map_eq_some_iff.mp hmap
  exact ⟨ts₁, m', ts₂, hstep, hts₂, rfl⟩

theorem compactFrom_space (h : isSpace c = true) :
    compactFrom .outside (c :: text) = compactFrom .outside text := by
  simp [compactFrom, Place.write, Place.next, h, ne_quote_of_isSpace h]

/-- A text whose words are separate has the tokens of its compact form. The second part is what the
first needs at a space after a word: the compact text goes on without it. -/
theorem lex_compactFrom (text : List Char) :
    (∀ m ts, m.Sound → lex m text = some ts → Separate ts →
      lex m.compact (compactFrom m.place text) = some ts) ∧
    ∀ w ts, lex .between text = some ts → Separate (.word w :: ts) →
      lex (.word w) (compactFrom .outside text) = some (.word w :: ts) := by
  induction text with
  | nil =>
    refine ⟨fun m ts hm h _ => ?_, fun w ts h _ => ?_⟩
    · cases m <;> exact h
    · cases h
      rfl
  | cons c text ih =>
    obtain ⟨ihtext, ihword⟩ := ih
    -- the step of both readings over a character that is not dropped after a word
    have hkeep : ∀ {m m' : Mode} {ts₁ ts₂}, m.Sound → m.step c = some (ts₁, m') →
        (∀ w, m = .word w → isSpace c = false) → lex m' text = some ts₂ → Separate ts₂ →
        lex m.compact (compactFrom m.place (c :: text)) = some (ts₁ ++ ts₂) := by
      intro m m' ts₁ ts₂ hm hstep hword hrest hseparate
      obtain ⟨hm', hplace⟩ := step_sound hm hstep
      rw [compactFrom, lex_write hm hstep hword, ← hplace, ihtext m' ts₂ hm' hrest hseparate]
      rfl
    refine ⟨fun m ts hm h hseparate => ?_, fun w ts h hseparate => ?_⟩
    · obtain ⟨ts₁, m', ts₂, hstep, hrest, rfl⟩ := lex_cons h
      by_cases hword : ∀ w, m = .word w → isSpace c = false
      · exact hkeep hm hstep hword hrest hseparate.right_of_append
      · push Not at hword
        obtain ⟨w, rfl, hspace⟩ := hword
        have hspace : isSpace c = true := by simpa using hspace
        simp only [Mode.step, hspace, if_true] at hstep
        cases hstep
        rw [Mode.place, compactFrom_space hspace]
        exact ihword w ts₂ hrest hseparate
    · obtain ⟨ts₁, m', ts₂, hstep, hrest, rfl⟩ := lex_cons h
      cases hspace : isSpace c with
      | true =>
        simp only [Mode.step, hspace, if_true] at hstep
        cases hstep
        rw [compactFrom_space hspace]
        exact ihword w ts₂ hrest hseparate
      | false =>
        have hnot : ∀ w', Mode.word w = .word w' → isSpace c = false := fun _ _ => hspace
        simp only [Mode.step, hspace, Bool.false_eq_true, if_false] at hstep
        split_ifs at hstep with hquote hpunct <;> cases hstep
        · have hstep : (Mode.word w).step c = some ([.word w], .inside []) := by
            rw [Mode.step, if_neg (by simp [hspace]), if_pos hquote]
          exact hkeep (m := .word w) trivial hstep hnot hrest hseparate.tail
        · have hstep : (Mode.word w).step c = some ([.word w, .punct c], .between) := by
            simp [Mode.step, hspace, hquote, hpunct]
          exact hkeep (m := .word w) trivial hstep hnot hrest hseparate.tail.tail
        · obtain ⟨w', ts', rfl⟩ := lex_word hrest
          exact absurd ⟨rfl, rfl⟩ (List.isChain_cons_cons.mp hseparate).1

/-! ### Values have separate words -/

theorem beginValue_word {fs fs' : List Frame} {w : List Char} {e : Expect}
    (h : beginValue fs (.word w) = some (e, fs')) : e = .after := by
  rw [beginValue, Option.ite_none_right_eq_some] at h
  cases h.2
  rfl

theorem next_word {e e' : Expect} {fs fs' : List Frame} {w : List Char}
    (h : next e fs (.word w) = some (e', fs')) : e ≠ .after ∧ e' = .after := by
  unfold next at h
  split at h <;> first | exact ⟨by simp, beginValue_word h⟩ | contradiction

theorem Token.eq_word {t : Token} (h : t.isWord = true) : ∃ w, t = .word w := by
  cases t with
  | word w => exact ⟨w, rfl⟩
  | punct | str => cases h

theorem separate_of_accepts {e : Expect} {fs : List Frame} (h : accepts e fs ts = true) :
    Separate ts := by
  induction ts generalizing e fs with
  | nil => exact .nil
  | cons t ts ih =>
    rw [accepts] at h
    split at h
    · next e' fs' hnext =>
      refine List.isChain_cons.mpr ⟨fun u hu hwords => ?_, ih h⟩
      obtain ⟨w, rfl⟩ := Token.eq_word hwords.1
      obtain ⟨v, rfl⟩ := Token.eq_word hwords.2
      obtain ⟨-, rfl⟩ := next_word hnext
      obtain ⟨ts', rfl⟩ : ∃ ts', ts = .word v :: ts' := by
        cases ts with
        | nil => cases hu
        | cons a ts' =>
          cases hu
          exact ⟨ts', rfl⟩
      rw [accepts] at h
      split at h
      · next e'' fs'' hnext' => exact (next_word hnext').1 rfl
      · cases h
    · cases h

/-- The compact form of a value has the same tokens, and is a value. -/
theorem tokens_compact (h : valid text = true) : tokens (compact text) = tokens text := by
  cases htokens : tokens text with
  | none => simp [valid, htokens] at h
  | some ts =>
    have haccepts : accepts .value [] ts = true := by simpa [valid, htokens] using h
    exact (lex_compactFrom text).1 .between ts trivial htokens (separate_of_accepts haccepts)

theorem valid_compact (h : valid text = true) : valid (compact text) = true := by
  rw [valid, tokens_compact h]
  exact h

end Json
