import Mathlib.Data.String.Basic
import Aquifer.Lib.Texts

/-! The keys of the Pebble store: how an expiry, a queue and an id are written into them, and what
is read back. -/
namespace Aquifer

/-- The text of a key. Pebble orders bytes, which for UTF-8 is the order of the characters. -/
abbrev Key := List Char

def hexAlphabet : List Char :=
  ['0', '1', '2', '3', '4', '5', '6', '7', '8', '9', 'a', 'b', 'c', 'd', 'e', 'f']

def hexDigit (n : Nat) : Char := hexAlphabet.getD n '0'

def hex (width n : Nat) : Key := Texts.digits 16 hexDigit width n

/-- `%016x` of an `int64`: a sign takes one of the sixteen places. -/
def hex16 (n : Int) : Key :=
  if 0 ≤ n then hex 16 n.toNat
  else '-' :: hex (if n.natAbs < 16 ^ 15 then 15 else 16) n.natAbs

/-- `%016x` of `uint64(n)`. -/
def hexU64 (n : Int) : Key := hex 16 (n % 18446744073709551616).toNat

def expKeyBound (expiresAt : Int) : Key := ['e', 'x', 'p', ':'] ++ hex16 expiresAt

def expKey (expiresAt : Int) (id : String) : Key := expKeyBound expiresAt ++ ':' :: id.toList

/-- The part of a queue-index key that all entries of one queue share. -/
def queuePrefix (queueKey : String) : Key := ['q', 'k', ':'] ++ queueKey.toList ++ ['\x00']

def queueIndexBound (queueKey : String) (createdAt : Int) : Key :=
  queuePrefix queueKey ++ hexU64 createdAt

def queueIndexKey (queueKey : String) (createdAt : Int) (id : String) : Key :=
  queueIndexBound queueKey createdAt ++ ':' :: id.toList

theorem hexDigit_lt (i j : Nat) (h : i < j) (hj : j < 16) : hexDigit i < hexDigit j := by
  have : ∀ j < 16, ∀ i < j, hexDigit i < hexDigit j := by decide
  exact this j hj i h

section Hex

variable {m n : Nat} {i j : Int}

theorem hex_lt_iff (hm : m < 16 ^ 16) (hn : n < 16 ^ 16) : hex 16 m < hex 16 n ↔ m < n :=
  Texts.digits_lt_iff hexDigit_lt hm hn

@[simp] theorem length_hex (w n : Nat) : (hex w n).length = w := Texts.length_digits w n

/-- Digits sort after the sign, and after NUL. -/
theorem sign_lt_hexDigit (i : Nat) : '-' < hexDigit i := by
  have hall : hexAlphabet.all ('-' < ·) = true := by decide
  rw [hexDigit, List.getD_eq_getElem?_getD]
  cases h : hexAlphabet[i]? with
  | none => decide
  | some c => exact of_decide_eq_true (List.all_eq_true.mp hall c (List.mem_of_getElem? h))

theorem mem_hex {c : Char} {w : Nat} (h : c ∈ hex w n) : '-' < c := by
  induction w generalizing n with
  | zero => cases h
  | succ w ih =>
    rcases List.mem_cons.mp h with rfl | h
    · exact sign_lt_hexDigit _
    · exact ih h

end Hex

/-- A time that an `int64` of milliseconds holds and that is not before the epoch. -/
def Ranged (n : Int) : Prop := 0 ≤ n ∧ n < 9223372036854775808

instance (n : Int) : Decidable (Ranged n) := inferInstanceAs (Decidable (_ ∧ _))

section Exp

variable {e now : Int} {id : String}

theorem length_expKeyBound (h : 0 ≤ e) : (expKeyBound e).length = 20 := by
  simp [expKeyBound, hex16, h]

theorem drop_expKey (h : 0 ≤ e) : (expKey e id).drop 21 = id.toList := by
  have hlen := length_expKeyBound h
  rw [expKey, List.drop_append, List.drop_of_length_le (by omega), hlen]
  rfl

theorem length_expKey (h : 0 ≤ e) : (expKey e id).length = 21 + id.toList.length := by
  simp [expKey, length_expKeyBound h]
  omega

theorem expKey_inj {e' : Int} {id' : String} (h : 0 ≤ e) (h' : 0 ≤ e')
    (heq : expKey e id = expKey e' id') : id = id' := by
  have := congrArg (List.drop 21) heq
  rw [drop_expKey h, drop_expKey h'] at this
  exact String.toList_inj.mp this

/-- Expiry keys are in time order. -/
theorem expKey_lt_iff (h : Ranged e) (hnow : now < 9223372036854775808) :
    expKey e id < expKeyBound now ↔ e < now := by
  obtain ⟨h0, h1⟩ := h
  have hsame : ∀ x y : Key, ['e', 'x', 'p', ':'] ++ x < ['e', 'x', 'p', ':'] ++ y ↔ x < y := by
    intro x y
    simp
  rw [expKey, expKeyBound, expKeyBound, List.append_assoc, hsame, hex16, if_pos h0, hex16]
  by_cases hneg : 0 ≤ now
  · rw [if_pos hneg, Texts.append_lt_iff (by simp), hex_lt_iff (by omega) (by omega)]
    omega
  · rw [if_neg hneg]
    have hsign : ∀ x y : Key, ¬ hex 16 e.toNat ++ x < '-' :: y := by
      intro x y hlt
      rcases List.cons_lt_cons_iff.mp hlt with h | ⟨h, -⟩
      · exact absurd h (sign_lt_hexDigit _).not_gt
      · exact absurd h (sign_lt_hexDigit _).ne'
    constructor
    · exact fun hlt => absurd hlt (hsign _ _)
    · omega

/-- The sign sorts before the digits: a negative expiry is before every time past the epoch. -/
theorem expKey_lt_of_neg (h : e < 0) (hnow : 0 ≤ now) : expKey e id < expKeyBound now := by
  rw [expKey, expKeyBound, expKeyBound, hex16, if_neg (by omega), hex16, if_pos hnow,
    List.append_assoc]
  exact List.append_left_lt (List.cons_lt_cons_iff.mpr (.inl (sign_lt_hexDigit _)))

end Exp

/-- The shape of what `NewID` draws: hex digits, and at least one. -/
def HexID (id : String) : Prop := id ≠ "" ∧ ∀ c ∈ id.toList, c ∈ hexAlphabet

instance (id : String) : Decidable (HexID id) :=
  have : Decidable (∀ c ∈ id.toList, c ∈ hexAlphabet) := List.decidableBAll _ _
  inferInstanceAs (Decidable (_ ∧ _))

namespace HexID

variable {id : String}

theorem nul (h : HexID id) : '\x00' ∉ id.toList := fun hmem => absurd (h.2 _ hmem) (by decide)

theorem colon (h : HexID id) : ':' ∉ id.toList := fun hmem => absurd (h.2 _ hmem) (by decide)

theorem length_pos (h : HexID id) : 0 < id.toList.length :=
  List.length_pos_iff.mpr fun h0 => h.1 (String.toList_inj.mp (by simpa using h0))

end HexID

/-- Whatever the expiry, the place where cleanup reads the id has that id or none. -/
theorem expKey_read {e : Int} {id id' : String} (hid' : HexID id')
    (h : (expKey e id).drop 21 = id'.toList) : id = id' := by
  have hlen : (expKeyBound e).length = 20 ∨ (expKeyBound e).length = 21 := by
    simp only [expKeyBound, hex16, List.length_append, List.length_cons, List.length_nil]
    split_ifs <;> simp
  rcases hlen with hlen | hlen
  · rw [expKey, List.drop_append, List.drop_of_length_le (by omega), hlen] at h
    exact String.toList_inj.mp h
  · -- a sign and sixteen digits push the colon into the id's place
    rw [expKey, List.drop_append, List.drop_of_length_le (by omega), hlen] at h
    have hcolon : ':' ∈ id'.toList := by simp [← h]
    exact absurd hcolon hid'.colon

/-- The id an index key ends in: past the last NUL, the sixteen digits and the colon. -/
def indexID (key : Key) : Key := ((key.reverse.takeWhile (· ≠ '\x00')).reverse).drop 17

section QueueIndex

variable {k k' : String} {c c' : Int} {id id' : String}

theorem nul_notMem_hex {w n : Nat} : '\x00' ∉ hex w n := fun h => absurd (mem_hex h) (by decide)

/-- What follows the last NUL of an index key. -/
def indexTail (c : Int) (id : String) : Key := hexU64 c ++ ':' :: id.toList

theorem queueIndexKey_eq : queueIndexKey k c id = queuePrefix k ++ indexTail c id := by
  rw [queueIndexKey, queueIndexBound, indexTail, List.append_assoc]

theorem queuePrefix_queueIndexKey : queuePrefix k <+: queueIndexKey k c id :=
  ⟨indexTail c id, queueIndexKey_eq.symm⟩

theorem nul_notMem_indexTail (hid : HexID id) : '\x00' ∉ indexTail c id := by
  rw [indexTail, List.mem_append, List.mem_cons]
  rintro (h | h | h)
  · exact nul_notMem_hex h
  · exact absurd h (by decide)
  · exact hid.nul h

theorem drop_indexTail : (indexTail c id).drop 17 = id.toList := by
  rw [indexTail, hexU64, List.drop_append, length_hex, List.drop_of_length_le (by simp)]
  rfl

theorem indexTail_inj (h : indexTail c id = indexTail c' id') : id = id' := by
  have := congrArg (List.drop 17) h
  rw [drop_indexTail, drop_indexTail] at this
  exact String.toList_inj.mp this

theorem reverse_queueIndexKey : (queueIndexKey k c id).reverse =
    (indexTail c id).reverse ++ '\x00' :: (['q', 'k', ':'] ++ k.toList).reverse := by
  rw [queueIndexKey_eq]
  simp [queuePrefix]

theorem indexID_queueIndexKey (hid : HexID id) :
    indexID (queueIndexKey k c id) = id.toList := by
  have hall : ∀ x ∈ (indexTail c id).reverse, decide (x ≠ '\x00') = true := by
    intro x hx
    rw [decide_eq_true_iff]
    rintro rfl
    exact nul_notMem_indexTail hid (List.mem_reverse.mp hx)
  rw [indexID, reverse_queueIndexKey, List.takeWhile_append_of_pos hall, List.takeWhile_cons_of_neg]
  · rw [List.append_nil, List.reverse_reverse, drop_indexTail]
  · simp

/-- The last NUL of an index key is the one after the queue key. -/
theorem queueIndexKey_inj (hid : HexID id) (hid' : HexID id')
    (h : queueIndexKey k c id = queueIndexKey k' c' id') : k = k' ∧ id = id' := by
  have hrev := congrArg List.reverse h
  rw [reverse_queueIndexKey, reverse_queueIndexKey] at hrev
  obtain ⟨htail, hkey⟩ := Texts.split_inj (by simpa using nul_notMem_indexTail hid)
    (by simpa using nul_notMem_indexTail hid') hrev
  have hk := List.reverse_injective hkey
  exact ⟨String.toList_inj.mp (by simpa using hk), indexTail_inj (List.reverse_injective htail)⟩

/-- A queue key that leaves the NUL to the index. -/
def NulFree (k : String) : Prop := '\x00' ∉ k.toList

instance (k : String) : Decidable (NulFree k) := inferInstanceAs (Decidable (_ ∉ _))

/-- The range a page iterates holds the keys that begin as the queue's do. -/
theorem queuePrefix_iff_between {key : Key} : queuePrefix k <+: key ↔
    queuePrefix k ≤ key ∧ key < ['q', 'k', ':'] ++ k.toList ++ ['\x01'] := by
  refine Texts.prefix_iff_between (by decide) (fun c => Nat.zero_le c.val.toNat) fun c hc => ?_
  exact Nat.le_of_lt_succ hc

/-- An entry that a page of another queue meets belongs to a key that goes on past a NUL. -/
theorem foreign_of_queuePrefix (hid : HexID id) (h : queuePrefix k <+: queueIndexKey k' c id) :
    k = k' ∨ k.toList ++ ['\x00'] <+: k'.toList := by
  obtain ⟨tail, htail⟩ := h
  rw [queueIndexKey_eq, queuePrefix, queuePrefix, List.append_assoc, List.append_assoc,
    List.append_assoc, List.append_assoc, List.append_cancel_left_eq, List.singleton_append,
    List.singleton_append] at htail
  rcases Texts.split_cases htail with ⟨heq, -⟩ | hpast | ⟨m, hm⟩
  · exact .inl (String.toList_inj.mp heq)
  · exact .inr hpast
  · -- the NUL that ends the queue key would lie in the digits, the colon or the id
    rw [← hm, List.append_assoc, List.append_assoc, List.append_cancel_left_eq,
      List.singleton_append, List.cons.injEq] at htail
    have hnul : '\x00' ∈ indexTail c id := by
      rw [← htail.2]
      exact List.mem_append_right _ List.mem_cons_self
    exact absurd hnul (nul_notMem_indexTail hid)

/-- An entry of a queue whose key has no NUL lies in no other queue's range. -/
theorem eq_of_queuePrefix (hk' : NulFree k') (hid : HexID id)
    (h : queuePrefix k <+: queueIndexKey k' c id) : k = k' := by
  refine (foreign_of_queuePrefix hid h).resolve_right fun hpast => hk' ?_
  exact hpast.subset (List.mem_append_right _ List.mem_cons_self)

theorem drop_queueIndexKey :
    (queueIndexKey k c id).drop ((queuePrefix k).length + 17) = id.toList := by
  rw [queueIndexKey_eq, ← List.drop_drop, List.drop_left, drop_indexTail]

theorem length_queueIndexKey :
    (queueIndexKey k c id).length = (queuePrefix k).length + 17 + id.toList.length := by
  rw [queueIndexKey_eq, indexTail, List.length_append, List.length_append, hexU64, length_hex,
    List.length_cons]
  omega

theorem hexU64_lt_iff (h : Ranged c) (h' : Ranged c') : hexU64 c < hexU64 c' ↔ c < c' := by
  obtain ⟨h0, h1⟩ := h
  obtain ⟨h0', h1'⟩ := h'
  rw [hexU64, hexU64, hex_lt_iff (by omega) (by omega)]
  omega

/-- The entries of a queue are in the order of creation, and of ids where that is the same. -/
theorem queueIndexKey_lt_iff (h : Ranged c) (h' : Ranged c') :
    queueIndexKey k c id < queueIndexKey k c' id' ↔ c < c' ∨ c = c' ∧ id < id' := by
  have hsame : hexU64 c = hexU64 c' ↔ c = c' := by
    refine ⟨fun heq => ?_, fun heq => heq ▸ rfl⟩
    rcases lt_trichotomy c c' with hlt | heq' | hlt
    · exact absurd ((hexU64_lt_iff h h').mpr hlt) (heq ▸ lt_irrefl _)
    · exact heq'
    · exact absurd ((hexU64_lt_iff h' h).mpr hlt) (heq ▸ lt_irrefl _)
  rw [queueIndexKey_eq, queueIndexKey_eq, Texts.append_lt_append_iff rfl, indexTail, indexTail,
    Texts.append_lt_append_iff (by simp [hexU64]), hexU64_lt_iff h h', hsame,
    List.cons_lt_cons_iff, String.lt_iff_toList_lt]
  simp

/-- The bound of a page lies before the entries created at its time or later. -/
theorem queueIndexKey_lt_bound_iff (h : Ranged c) (h' : Ranged c') :
    queueIndexKey k c id < queueIndexBound k c' ↔ c < c' := by
  rw [queueIndexKey_eq, queueIndexBound, Texts.append_lt_append_iff rfl, indexTail,
    Texts.append_lt_iff (by simp [hexU64]), hexU64_lt_iff h h']
  simp

/-- An entry of a key that goes on past a NUL begins as the queue's do. -/
theorem queueIndexKey_foreign (h : k.toList ++ ['\x00'] <+: k'.toList) : ∃ m : Key,
    queueIndexKey k' c id = queuePrefix k ++ ((m ++ '\x00' :: hexU64 c) ++ ':' :: id.toList) ∧
      17 ≤ (m ++ '\x00' :: hexU64 c).length := by
  obtain ⟨m, hm⟩ := h
  refine ⟨m, ?_, ?_⟩
  · rw [queueIndexKey_eq, queuePrefix, ← hm, queuePrefix, indexTail]
    simp
  · rw [List.length_append, List.length_cons, hexU64, length_hex]
    omega

/-- Where such a page reads an id, there is the colon of the entry in it. -/
theorem colon_mem_drop (h : k.toList ++ ['\x00'] <+: k'.toList) :
    ':' ∈ (queueIndexKey k' c id).drop ((queuePrefix k).length + 17) := by
  obtain ⟨m, hkey, hlen⟩ := queueIndexKey_foreign h
  rw [hkey, ← List.drop_drop, List.drop_left, List.drop_append_of_le_length hlen]
  exact List.mem_append_right _ List.mem_cons_self

/-- A page reads an id only from its own queue's entries. -/
theorem queueIndexKey_cut (hid : HexID id) (hid' : HexID id')
    (hstart : queuePrefix k <+: queueIndexKey k' c id)
    (hcut : (queueIndexKey k' c id).drop ((queuePrefix k).length + 17) = id'.toList) :
    k = k' ∧ id = id' := by
  rcases foreign_of_queuePrefix hid hstart with rfl | hpast
  · rw [drop_queueIndexKey] at hcut
    exact ⟨rfl, String.toList_inj.mp hcut⟩
  · exact absurd (hcut ▸ colon_mem_drop hpast) hid'.colon

end QueueIndex

end Aquifer
