import Mathlib.Data.List.Basic
import Mathlib.Tactic.Common

/-! The scheme and the host of a URL as `net/url` parses them. Escapes in a host are kept as they
are written. -/
namespace Url

/-- `Scheme` and `Host`, the latter with its port. -/
structure Parsed where
  scheme : List Char
  host : List Char
deriving DecidableEq, Repr

def isDigit (c : Char) : Bool := '0' ≤ c && c ≤ '9'

def isUpper (c : Char) : Bool := 'A' ≤ c && c ≤ 'Z'

def isLetter (c : Char) : Bool := isUpper c || ('a' ≤ c && c ≤ 'z')

/-- The lower case of an ASCII letter. -/
def lower (c : Char) : Char := if isUpper c then Char.ofNat (c.toNat + 32) else c

def isHex (c : Char) : Bool := isDigit c || ('a' ≤ c && c ≤ 'f') || ('A' ≤ c && c ≤ 'F')

def isControl (c : Char) : Bool := c.toNat < 32 || c.toNat = 127

def isSchemeChar (c : Char) : Bool := isLetter c || isDigit c || c ∈ ['+', '-', '.']

/-- `getScheme`: the scheme and what follows its colon. A text that begins with one is refused. -/
def getScheme (s : List Char) : Option (List Char × List Char) :=
  match s.takeWhile isSchemeChar, s.dropWhile isSchemeChar with
  | [], ':' :: _ => none
  | c :: name, ':' :: rest => if isLetter c then some (c :: name, rest) else some ([], s)
  | _, _ => some ([], s)

/-- Each percent sign is followed by two hex digits. -/
def validEscapes : List Char → Bool
  | [] => true
  | '%' :: a :: b :: rest => isHex a && isHex b && validEscapes rest
  | c :: rest => c ≠ '%' && validEscapes rest

/-- `validOptionalPort`: nothing, or a colon with any number of digits. -/
def validOptionalPort : List Char → Bool
  | [] => true
  | c :: digits => c = ':' && digits.all isDigit

/-- The part after the last `sep`, which is everything if there is none, and the part before it. -/
def afterLast (sep : Char) (s : List Char) : List Char := (s.reverse.takeWhile (· ≠ sep)).reverse

def beforeLast (sep : Char) (s : List Char) : List Char :=
  ((s.reverse.dropWhile (· ≠ sep)).drop 1).reverse

/-- The characters a host may have. -/
def isHostChar (c : Char) : Bool :=
  128 ≤ c.toNat || isLetter c || isDigit c ||
    c ∈ ['-', '_', '.', '~', '!', '$', '&', '\'', '(', ')', '*', '+', ',', ';', '=', ':', '[', ']',
      '<', '>', '"', '%']

/-- `parseHost`: the last colon, or what follows the bracket, begins a port. -/
def parseHost (s : List Char) : Option (List Char) :=
  let portOK :=
    if s.head? = some '[' then ']' ∈ s && validOptionalPort (afterLast ']' s)
    else if ':' ∈ s then validOptionalPort (':' :: afterLast ':' s)
    else true
  if portOK && s.all isHostChar && validEscapes s then some s else none

def isUserinfoChar (c : Char) : Bool :=
  isLetter c || isDigit c ||
    c ∈ ['-', '.', '_', ':', '~', '!', '$', '&', '\'', '(', ')', '*', '+', ',', ';', '=', '%', '@']

/-- `parseAuthority`: the host is what follows the last at sign. -/
def parseAuthority (s : List Char) : Option (List Char) :=
  if '@' ∈ s then
    let userinfo := beforeLast '@' s
    if userinfo.all isUserinfoChar && validEscapes userinfo then parseHost (afterLast '@' s)
    else none
  else parseHost s

/-- The part before the first `sep`. -/
def before (sep : Char) (s : List Char) : List Char := s.takeWhile (· ≠ sep)

/-- `parse` of a text without its fragment. -/
def parseRef (s : List Char) : Option Parsed :=
  if s.any isControl then none
  else if s = ['*'] then some ⟨[], []⟩
  else
    match getScheme s with
    | none => none
    | some (scheme, rest) =>
      let scheme := scheme.map lower
      match before '?' rest with
      | '/' :: '/' :: rest =>
        if scheme = [] ∧ rest.head? = some '/' then
          if validEscapes rest then some ⟨scheme, []⟩ else none
        else if validEscapes (rest.dropWhile (· ≠ '/')) then
          (parseAuthority (before '/' rest)).map (⟨scheme, ·⟩)
        else none
      | '/' :: rest => if validEscapes rest then some ⟨scheme, []⟩ else none
      | rest =>
        -- an opaque URL, or a relative path
        if scheme ≠ [] then some ⟨scheme, []⟩
        else if ':' ∈ before '/' rest then none
        else if validEscapes rest then some ⟨[], []⟩ else none

/-- `url.Parse`. -/
def parse (s : List Char) : Option Parsed :=
  if validEscapes ((s.dropWhile (· ≠ '#')).drop 1) then parseRef (before '#' s) else none

/-! ### What a host addresses -/

/-- The port at the end of a host, if there is one, and the name before it, without brackets. -/
def splitHostPort (host : List Char) : List Char × List Char :=
  let (name, port) :=
    if ':' ∈ host && validOptionalPort (':' :: afterLast ':' host) then
      (beforeLast ':' host, afterLast ':' host)
    else (host, [])
  (if name.head? = some '[' ∧ name.getLast? = some ']' then name.tail.dropLast else name, port)

def hostname (host : List Char) : List Char := (splitHostPort host).1

/-- The ports that go without saying. -/
def defaultPort (scheme : List Char) : Nat :=
  if scheme = "https".toList ∨ scheme = "wss".toList then 443 else 80

def portNumber (digits : List Char) : Nat := digits.foldl (fun n c => n * 10 + (c.toNat - 48)) 0

/-- What a URL addresses: the scheme, the host's name in any case and the port, which may be left
out. -/
def Parsed.target (p : Parsed) : List Char × List Char × Nat :=
  let (name, port) := splitHostPort p.host
  (p.scheme, name.map lower, if port = [] then defaultPort p.scheme else portNumber port)

/-! ### What the parser keeps -/

variable {s : List Char} {p : Parsed}

theorem lower_lower (c : Char) : lower (lower c) = lower c := by
  cases hupper : isUpper c with
  | false =>
    have hsame : lower c = c := if_neg (by simp [hupper])
    rw [hsame, hsame]
  | true =>
    have hlower : lower c = Char.ofNat (c.toNat + 32) := if_pos hupper
    have hrange : 65 ≤ c.toNat ∧ c.toNat ≤ 90 := by
      simp only [isUpper, Bool.and_eq_true, decide_eq_true_eq] at hupper
      exact hupper
    have hall : ∀ k : Fin 26, isUpper (Char.ofNat (k.val + 97)) = false := by decide
    have hnot : isUpper (Char.ofNat (c.toNat + 32)) = false := by
      have hk := hall ⟨c.toNat - 65, by omega⟩
      rwa [show c.toNat - 65 + 97 = c.toNat + 32 by omega] at hk
    rw [hlower]
    exact if_neg (by simp [hnot])

theorem suffix_of_getScheme {scheme rest : List Char} (h : getScheme s = some (scheme, rest)) :
    rest <:+ s := by
  have hdrop : s.dropWhile isSchemeChar <:+ s := List.dropWhile_suffix _
  unfold getScheme at h
  split at h
  · cases h
  · rename_i hrest
    split_ifs at h <;> cases h
    · exact (List.suffix_cons _ _).trans (hrest ▸ hdrop)
    · exact List.suffix_rfl
  · cases h
    exact List.suffix_rfl

theorem afterLast_suffix (sep : Char) (s : List Char) : afterLast sep s <:+ s := by
  rw [afterLast, ← List.reverse_prefix, List.reverse_reverse]
  exact List.takeWhile_prefix _

theorem prefix_before (sep : Char) (s : List Char) : before sep s <+: s := List.takeWhile_prefix _

theorem infix_of_parseAuthority {host : List Char} (h : parseAuthority s = some host) :
    host <:+: s := by
  have hkept : ∀ {t}, parseHost t = some host → host = t := by
    intro t ht
    unfold parseHost at ht
    dsimp only at ht
    split_ifs at ht
    all_goals exact (Option.some.inj ht).symm
  unfold parseAuthority at h
  dsimp only at h
  split_ifs at h
  · rw [hkept h]
    exact (afterLast_suffix '@' s).isInfix
  · obtain rfl := hkept h
    exact List.infix_rfl

theorem map_lower_lower (l : List Char) : (l.map lower).map lower = l.map lower := by
  rw [List.map_map]
  exact List.map_congr_left fun c _ => lower_lower c

theorem parseRef_spec (h : parseRef s = some p) :
    p.scheme.map lower = p.scheme ∧ p.host <:+: s := by
  have hplain : ∀ l : List Char, some (Parsed.mk (l.map lower) []) = some p →
      p.scheme.map lower = p.scheme ∧ p.host <:+: s := by
    rintro l ⟨⟩
    exact ⟨map_lower_lower l, List.nil_infix⟩
  unfold parseRef at h
  split_ifs at h
  · exact hplain [] h
  · split at h
    · cases h
    · rename_i scheme rest hscheme
      dsimp only at h
      split at h
      · -- an authority, up to the next slash
        rename_i authority hrest
        split_ifs at h
        · exact hplain scheme h
        · obtain ⟨host, hhost, rfl⟩ := Option.map_eq_some_iff.mp h
          refine ⟨map_lower_lower scheme, ?_⟩
          have hslashes : authority <:+ before '?' rest := by
            rw [hrest]
            exact (List.suffix_cons '/' authority).trans (List.suffix_cons '/' _)
          have hwithin : before '/' authority <:+: rest :=
            (prefix_before '/' authority).isInfix.trans
              (hslashes.isInfix.trans (prefix_before '?' rest).isInfix)
          exact (infix_of_parseAuthority hhost).trans
            (hwithin.trans (suffix_of_getScheme hscheme).isInfix)
      · split_ifs at h
        exact hplain scheme h
      · split_ifs at h
        · exact hplain scheme h
        · exact hplain [] h

/-- The scheme is in lower case, and the host is as it is written. -/
theorem parse_spec (h : parse s = some p) : p.scheme.map lower = p.scheme ∧ p.host <:+: s := by
  unfold parse at h
  split_ifs at h
  obtain ⟨hscheme, hhost⟩ := parseRef_spec h
  exact ⟨hscheme, hhost.trans (prefix_before '#' s).isInfix⟩

end Url
