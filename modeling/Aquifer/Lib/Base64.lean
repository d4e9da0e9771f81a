import Mathlib.Data.List.Basic
import Mathlib.Tactic.Common

/-! Base64 with padding, as `base64.StdEncoding` writes and reads it. -/
namespace Base64

def alphabet : List Char :=
  "ABCDEFGHIJKLMNOPQRSTUVWXYZabcdefghijklmnopqrstuvwxyz0123456789+/".toList

/-- The character of six bits. -/
def symbol (n : Nat) : Char := alphabet.getD n 'A'

def value (c : Char) : Option Nat :=
  if 'A' ≤ c ∧ c ≤ 'Z' then some (c.toNat - 65)
  else if 'a' ≤ c ∧ c ≤ 'z' then some (c.toNat - 71)
  else if '0' ≤ c ∧ c ≤ '9' then some (c.toNat + 4)
  else if c = '+' then some 62
  else if c = '/' then some 63
  else none

/-- `EncodeToString`. -/
def encode : List UInt8 → List Char
  | [] => []
  | [a] => [symbol (a.toNat / 4), symbol (a.toNat % 4 * 16), '=', '=']
  | [a, b] =>
    [symbol (a.toNat / 4), symbol (a.toNat % 4 * 16 + b.toNat / 16), symbol (b.toNat % 16 * 4), '=']
  | a :: b :: c :: rest =>
    symbol (a.toNat / 4) :: symbol (a.toNat % 4 * 16 + b.toNat / 16) ::
      symbol (b.toNat % 16 * 4 + c.toNat / 64) :: symbol (c.toNat % 64) :: encode rest

/-- The bytes of a quantum, which span two of its characters each. Bits that are left over are
ignored. -/
def byte₁ (x y : Nat) : UInt8 := UInt8.ofNat (x * 4 + y / 16)
def byte₂ (y z : Nat) : UInt8 := UInt8.ofNat (y % 16 * 16 + z / 4)
def byte₃ (z w : Nat) : UInt8 := UInt8.ofNat (z % 4 * 64 + w)

/-- `decodeQuantum`, until there is none left. Only the last quantum is padded. -/
def decodeQuanta : List Char → Option (List UInt8)
  | [] => some []
  | a :: b :: c :: d :: rest => do
    let x ← value a
    let y ← value b
    if d = '=' then
      if rest ≠ [] then none
      else if c = '=' then some [byte₁ x y]
      else
        let z ← value c
        some [byte₁ x y, byte₂ y z]
    else
      let z ← value c
      let w ← value d
      (decodeQuanta rest).map ([byte₁ x y, byte₂ y z, byte₃ z w] ++ ·)
  | _ => none

/-- `DecodeString`, which skips the ends of lines. -/
def decode (s : List Char) : Option (List UInt8) :=
  decodeQuanta (s.filter fun c => c ≠ '\r' && c ≠ '\n')

variable {n : Nat} {bs : List UInt8}

theorem value_symbol (h : n < 64) : value (symbol n) = some n := by
  have hall : ∀ a : Fin 64, value (symbol a) = some a.val := by decide +kernel
  exact hall ⟨n, h⟩

theorem symbol_mem (n : Nat) : symbol n ∈ alphabet := by
  rw [symbol, List.getD_eq_getElem?_getD]
  cases h : alphabet[n]? with
  | none => exact (by decide +kernel : 'A' ∈ alphabet)
  | some c => exact List.mem_of_getElem? h

theorem symbol_plain (n : Nat) : symbol n ≠ '=' ∧ symbol n ≠ '\r' ∧ symbol n ≠ '\n' := by
  have hall : alphabet.all (fun c => c ≠ '=' ∧ c ≠ '\r' ∧ c ≠ '\n') = true := by decide +kernel
  exact of_decide_eq_true (List.all_eq_true.mp hall _ (symbol_mem n))

theorem toNat_inj_ofNat {a : UInt8} (h : n = a.toNat) : UInt8.ofNat n = a := by
  rw [h, UInt8.ofNat_toNat]

theorem decodeQuanta_encode (bs : List UInt8) : decodeQuanta (encode bs) = some bs := by
  induction bs using encode.induct with
  | case1 => rfl
  | case2 a =>
    have ha := a.toNat_lt
    have hx := value_symbol (n := a.toNat / 4) (by omega)
    have hy := value_symbol (n := a.toNat % 4 * 16) (by omega)
    have h₁ : byte₁ (a.toNat / 4) (a.toNat % 4 * 16) = a := toNat_inj_ofNat (by omega)
    simp [encode, decodeQuanta, hx, hy, h₁]
  | case3 a b =>
    have ha := a.toNat_lt
    have hb := b.toNat_lt
    have hx := value_symbol (n := a.toNat / 4) (by omega)
    have hy := value_symbol (n := a.toNat % 4 * 16 + b.toNat / 16) (by omega)
    have hz := value_symbol (n := b.toNat % 16 * 4) (by omega)
    have h₁ : byte₁ (a.toNat / 4) (a.toNat % 4 * 16 + b.toNat / 16) = a :=
      toNat_inj_ofNat (by omega)
    have h₂ : byte₂ (a.toNat % 4 * 16 + b.toNat / 16) (b.toNat % 16 * 4) = b :=
      toNat_inj_ofNat (by omega)
    simp [encode, decodeQuanta, hx, hy, hz, h₁, h₂, (symbol_plain _).1]
  | case4 a b c rest ih =>
    have ha := a.toNat_lt
    have hb := b.toNat_lt
    have hc := c.toNat_lt
    have hx := value_symbol (n := a.toNat / 4) (by omega)
    have hy := value_symbol (n := a.toNat % 4 * 16 + b.toNat / 16) (by omega)
    have hz := value_symbol (n := b.toNat % 16 * 4 + c.toNat / 64) (by omega)
    have hw := value_symbol (n := c.toNat % 64) (by omega)
    have h₁ : byte₁ (a.toNat / 4) (a.toNat % 4 * 16 + b.toNat / 16) = a :=
      toNat_inj_ofNat (by omega)
    have h₂ : byte₂ (a.toNat % 4 * 16 + b.toNat / 16) (b.toNat % 16 * 4 + c.toNat / 64) = b :=
      toNat_inj_ofNat (by omega)
    have h₃ : byte₃ (b.toNat % 16 * 4 + c.toNat / 64) (c.toNat % 64) = c :=
      toNat_inj_ofNat (by omega)
    simp [encode, decodeQuanta, hx, hy, hz, hw, h₁, h₂, h₃, (symbol_plain _).1, ih]

theorem symbol_ascii (n : Nat) : (symbol n).toNat < 128 := by
  have hall : alphabet.all (fun c => c.toNat < 128) = true := by decide +kernel
  exact of_decide_eq_true (List.all_eq_true.mp hall _ (symbol_mem n))

/-- An encoded text has symbols and padding only. -/
theorem encode_forall {p : Char → Prop} (hsymbol : ∀ n, p (symbol n)) (hpad : p '=')
    (bs : List UInt8) : ∀ c ∈ encode bs, p c := by
  induction bs using encode.induct with
  | case1 => simp [encode]
  | case2 a => simp [encode, hsymbol, hpad]
  | case3 a b => simp [encode, hsymbol, hpad]
  | case4 a b c rest ih => simpa [encode, hsymbol] using ih

theorem encode_plain : ∀ c ∈ encode bs, c ≠ '\r' ∧ c ≠ '\n' :=
  encode_forall (fun n => (symbol_plain n).2) (by decide) bs

theorem encode_ascii : ∀ c ∈ encode bs, c.toNat < 128 :=
  encode_forall symbol_ascii (by decide) bs

theorem decode_encode (bs : List UInt8) : decode (encode bs) = some bs := by
  have hsame : (encode bs).filter (fun c => c ≠ '\r' && c ≠ '\n') = encode bs := by
    refine List.filter_eq_self.mpr fun c hc => ?_
    simp [encode_plain c hc]
  rw [decode, hsame, decodeQuanta_encode]

theorem encode_ne_nil (h : bs ≠ []) : encode bs ≠ [] := by
  intro hnil
  have hbs := decodeQuanta_encode bs
  rw [hnil] at hbs
  exact h (Option.some.inj hbs).symm

end Base64
