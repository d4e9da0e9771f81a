import Mathlib.Data.List.Basic
import Mathlib.Tactic.Common

/-! Texts as bytes: the UTF-8 of characters, and the runes that a loop over any bytes meets, which
are characters and single bytes that no character begins with. -/
namespace Utf8

variable {c : Char} {b : UInt8} {bs rest : List UInt8} {cs : List Char} {i j : Nat}

def encode (cs : List Char) : List UInt8 := cs.flatMap String.utf8EncodeChar

/-- The character the bytes begin with, if there is one. -/
def decodeRune (bs : List UInt8) : Option Char := bs.toByteArray.utf8DecodeChar? 0

/-- The runes of the bytes from the end of the last one on, of which so many bytes are left. -/
def runesFrom : Nat → List UInt8 → List (Option Char)
  | _, [] => []
  | left + 1, _ :: bs => runesFrom left bs
  | 0, b :: bs =>
    match decodeRune (b :: bs) with
    | some c => some c :: runesFrom (c.utf8Size - 1) bs
    | none => none :: runesFrom 0 bs

/-- The runes of the bytes, a byte that is no character's as `none`. -/
def runes (bs : List UInt8) : List (Option Char) := runesFrom 0 bs

/-- Bytes as characters, one each. -/
def latin (bs : List UInt8) : List Char := bs.map fun b => Char.ofNat b.toNat

theorem decodeRune_append (c : Char) (bs : List UInt8) :
    decodeRune (String.utf8EncodeChar c ++ bs) = some c := by
  rw [decodeRune, List.toByteArray_append]
  exact ByteArray.utf8DecodeChar?_utf8EncodeChar_append

theorem eq_append_of_decodeRune (h : decodeRune bs = some c) :
    ∃ rest, bs = String.utf8EncodeChar c ++ rest := by
  obtain ⟨l, hl⟩ := ByteArray.exists_of_utf8DecodeChar?_eq_some h
  refine ⟨l.data.toList, ?_⟩
  have hdata := congrArg (fun a : ByteArray => a.data.toList) hl
  simpa using hdata

theorem runesFrom_eq_drop (n : Nat) (bs : List UInt8) : runesFrom n bs = runes (bs.drop n) := by
  induction n generalizing bs with
  | zero => rfl
  | succ n ih =>
    cases bs with
    | nil => rfl
    | cons b bs => exact ih bs

theorem runes_none (h : decodeRune (b :: bs) = none) : runes (b :: bs) = none :: runes bs := by
  rw [runes, runesFrom, h]
  rfl

theorem runes_append (c : Char) (bs : List UInt8) :
    runes (String.utf8EncodeChar c ++ bs) = some c :: runes bs := by
  have hlen : (String.utf8EncodeChar c).length = c.utf8Size := String.length_utf8EncodeChar c
  have hdecode := decodeRune_append c bs
  cases henc : String.utf8EncodeChar c with
  | nil =>
    rw [henc] at hlen
    exact absurd hlen.symm (Nat.pos_iff_ne_zero.mp c.utf8Size_pos)
  | cons b tail =>
    rw [henc] at hdecode hlen
    rw [List.cons_append] at hdecode ⊢
    rw [runes, runesFrom, hdecode]
    dsimp only
    rw [runesFrom_eq_drop, ← hlen, List.length_cons, Nat.add_sub_cancel, List.drop_left]

theorem runes_encode_append (cs : List Char) (bs : List UInt8) :
    runes (encode cs ++ bs) = cs.map some ++ runes bs := by
  induction cs with
  | nil => rfl
  | cons c cs ih =>
    rw [encode, List.flatMap_cons, List.append_assoc, runes_append]
    exact congrArg (some c :: ·) ih

/-! ### A character that is cut off -/

/-- A byte that begins no character. -/
def Continuation (b : UInt8) : Prop := 128 ≤ b.toNat ∧ b.toNat < 192

/-- A character's bytes after its first are such bytes, and the first is not. -/
theorem encodeChar_bytes (c : Char) : ∃ b bs, String.utf8EncodeChar c = b :: bs ∧
    ¬ Continuation b ∧ ∀ x ∈ bs, Continuation x := by
  unfold String.utf8EncodeChar Continuation
  dsimp only
  split_ifs with h1 h2 h3
  · refine ⟨_, _, rfl, ?_, by simp⟩
    rw [UInt8.toNat_ofNat']
    omega
  · refine ⟨_, _, rfl, ?_, ?_⟩
    · rw [UInt8.toNat_ofNat']
      omega
    · simp only [List.mem_cons, List.not_mem_nil, or_false, forall_eq, UInt8.toNat_ofNat']
      omega
  · refine ⟨_, _, rfl, ?_, ?_⟩
    · rw [UInt8.toNat_ofNat']
      omega
    · simp only [List.mem_cons, List.not_mem_nil, or_false, forall_eq_or_imp, forall_eq,
        UInt8.toNat_ofNat']
      omega
  · refine ⟨_, _, rfl, ?_, ?_⟩
    · rw [UInt8.toNat_ofNat']
      omega
    · simp only [List.mem_cons, List.not_mem_nil, or_false, forall_eq_or_imp, forall_eq,
        UInt8.toNat_ofNat']
      omega

theorem decodeRune_continuation (h : Continuation b) : decodeRune (b :: bs) = none := by
  cases hdecode : decodeRune (b :: bs) with
  | none => rfl
  | some c =>
    obtain ⟨rest, hrest⟩ := eq_append_of_decodeRune hdecode
    obtain ⟨first, tail, henc, hfirst, -⟩ := encodeChar_bytes c
    rw [henc, List.cons_append] at hrest
    obtain ⟨rfl, -⟩ := List.cons.inj hrest
    exact absurd h hfirst

/-- Some but not all of a character's bytes are no character. -/
theorem decodeRune_take (h : j < (String.utf8EncodeChar c).length) :
    decodeRune ((String.utf8EncodeChar c).take j) = none := by
  cases hdecode : decodeRune ((String.utf8EncodeChar c).take j) with
  | none => rfl
  | some c' =>
    -- the whole would begin with that character, and so be no longer than the part
    obtain ⟨rest, hrest⟩ := eq_append_of_decodeRune hdecode
    have hwhole := List.take_append_drop j (String.utf8EncodeChar c)
    rw [hrest, List.append_assoc] at hwhole
    have hsame : some c' = some c := by
      rw [← decodeRune_append c' (rest ++ (String.utf8EncodeChar c).drop j), hwhole,
        ← decodeRune_append c [], List.append_nil]
    obtain rfl := Option.some.inj hsame
    have hlen := congrArg List.length hrest
    rw [List.length_take, List.length_append] at hlen
    omega

theorem runes_continuations (h : ∀ x ∈ bs, Continuation x) :
    runes bs = List.replicate bs.length none := by
  induction bs with
  | nil => rfl
  | cons b bs ih =>
    obtain ⟨hb, hbs⟩ := List.forall_mem_cons.mp h
    rw [runes_none (decodeRune_continuation hb), ih hbs, List.length_cons, List.replicate_succ]

/-- Each byte of a character that is cut off is met by itself. -/
theorem runes_take (h : j < (String.utf8EncodeChar c).length) :
    runes ((String.utf8EncodeChar c).take j) = List.replicate j none := by
  have hdecode := decodeRune_take h
  obtain ⟨b, bs, henc, -, hbs⟩ := encodeChar_bytes c
  rw [henc] at h hdecode ⊢
  cases j with
  | zero => rfl
  | succ j =>
    rw [List.take_succ_cons] at hdecode ⊢
    have hlen : (bs.take j).length = j := by
      rw [List.length_take]
      rw [List.length_cons] at h
      omega
    rw [runes_none hdecode, runes_continuations fun x hx => hbs x (List.mem_of_mem_take hx), hlen,
      List.replicate_succ]

theorem encode_cons (c : Char) (cs : List Char) :
    encode (c :: cs) = String.utf8EncodeChar c ++ encode cs := List.flatMap_cons

theorem encode_append (cs cs' : List Char) : encode (cs ++ cs') = encode cs ++ encode cs' :=
  List.flatMap_append

/-- The first `m` bytes of the characters end with one of them. -/
def Boundary (cs : List Char) (m : Nat) : Prop :=
  ∃ front back, cs = front ++ back ∧ (encode cs).take m = encode front

/-- Or there are `j` bytes of a character left over. -/
def Inside (cs : List Char) (m : Nat) : Prop :=
  ∃ front c back j, cs = front ++ c :: back ∧ 0 < j ∧ j < (String.utf8EncodeChar c).length ∧
    m = (encode front).length + j ∧
    (encode cs).take m = encode front ++ (String.utf8EncodeChar c).take j

theorem boundary_or_inside (cs : List Char) (m : Nat) : Boundary cs m ∨ Inside cs m := by
  induction cs generalizing m with
  | nil => exact .inl ⟨[], [], rfl, List.take_nil⟩
  | cons c cs ih =>
    rcases Nat.lt_or_ge m (String.utf8EncodeChar c).length with hlt | hge
    · rcases Nat.eq_zero_or_pos m with rfl | hpos
      · exact .inl ⟨[], c :: cs, rfl, rfl⟩
      · refine .inr ⟨[], c, cs, m, rfl, hpos, hlt, (Nat.zero_add m).symm, ?_⟩
        rw [encode_cons, List.take_append_of_le_length (Nat.le_of_lt hlt)]
        rfl
    · obtain ⟨k, rfl⟩ := Nat.exists_eq_add_of_le hge
      have htake : (encode (c :: cs)).take ((String.utf8EncodeChar c).length + k) =
          String.utf8EncodeChar c ++ (encode cs).take k := by
        rw [encode_cons, List.take_length_add_append]
      rcases ih k with ⟨front, back, hcs, hk⟩ | ⟨front, x, back, j, hcs, hpos, hlt, hk, htk⟩
      · refine .inl ⟨c :: front, back, by rw [hcs, List.cons_append], ?_⟩
        rw [htake, hk, encode_cons]
      · refine .inr ⟨c :: front, x, back, j, by rw [hcs, List.cons_append], hpos, hlt, ?_, ?_⟩
        · rw [encode_cons, List.length_append, hk, Nat.add_assoc]
        · rw [htake, htk, encode_cons, List.append_assoc]

theorem latin_encode (h : ∀ c ∈ cs, c.toNat < 128) : latin (encode cs) = cs := by
  induction cs with
  | nil => rfl
  | cons c cs ih =>
    have hc : c.toNat < 128 := h c List.mem_cons_self
    have hone : String.utf8EncodeChar c = [c.val.toUInt8] := by
      refine String.utf8EncodeChar_eq_singleton ?_
      rw [Char.utf8Size_eq_one_iff]
      exact UInt32.le_iff_toNat_le.mpr (Nat.le_of_lt_succ hc)
    have hback : Char.ofNat c.val.toUInt8.toNat = c := by
      have hval : c.val.toUInt8.toNat = c.toNat := by
        rw [UInt32.toNat_toUInt8]
        exact Nat.mod_eq_of_lt (show c.toNat < 2 ^ 8 by omega)
      rw [hval, Char.ofNat_toNat]
    have htail := ih fun c' hc' => h c' (List.mem_cons_of_mem c hc')
    rw [encode, List.flatMap_cons, hone]
    exact congrArg₂ List.cons hback htail
end Utf8
