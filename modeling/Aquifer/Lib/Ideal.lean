import Aquifer.Lib.Texts

/-! Cryptography as its users assume it: key agreement that commutes, key derivation without
collisions, authenticated encryption that decrypts only what was encrypted, and signatures that
verify. The laws are fields; a plain model at the end meets them all. -/
namespace Ideal

universe u

/-- Key agreement between private keys, the public ones being `size` bytes. -/
structure Agreement (π : Type u) (size : Nat) where
  publicKey : π → List UInt8
  length_publicKey : ∀ a, (publicKey a).length = size
  /-- It may fail, as it does at a public key of low order. -/
  ecdh : π → List UInt8 → Except String (List UInt8)
  ecdh_comm : ∀ a b, ecdh a (publicKey b) = ecdh b (publicKey a)

/-- Keys of a type of their own, of which there are enough for every input. -/
structure Kdf (κ : Type u) where
  derive : (secret salt info : List UInt8) → κ
  derive_inj : ∀ {s t i s' t' i'}, derive s t i = derive s' t' i' → s = s' ∧ t = t' ∧ i = i'

/-- Encryption that authenticates data along with the plaintext. -/
structure Aead (κ : Type u) where
  encrypt : (key : κ) → (nonce plaintext data : List UInt8) → List UInt8
  decrypt : (key : κ) → (nonce ciphertext data : List UInt8) → Option (List UInt8)
  decrypt_encrypt : ∀ {k n a k' n' a' p q},
    decrypt k n (encrypt k' n' p a') a = some q ↔ k = k' ∧ n = n' ∧ a = a' ∧ q = p

structure Signature (π : Type u) where
  publicKey : π → List UInt8
  sign : π → List UInt8 → List UInt8
  verify : (publicKey message signature : List UInt8) → Bool
  verify_sign : ∀ k m, verify (publicKey k) m (sign k m) = true

/-! ### A model of the laws -/

section Model

variable {x y z w : List UInt8}

/-- Bytes after their number in unary. -/
def frame (x : List UInt8) : List UInt8 := List.replicate x.length 1 ++ 0 :: x

/-- Where a frame ends can be read off it. -/
theorem frame_append_inj (h : frame x ++ z = frame y ++ w) : x = y ∧ z = w := by
  have hunary : ∀ n, (0 : UInt8) ∉ List.replicate n 1 := by simp
  simp only [frame, List.append_assoc, List.cons_append] at h
  obtain ⟨hlength, hrest⟩ := Texts.split_inj (hunary _) (hunary _) h
  exact List.append_inj hrest (by simpa using congrArg List.length hlength)

theorem frame_three_inj {a b c a' b' c' : List UInt8}
    (h : frame a ++ (frame b ++ (frame c ++ z)) = frame a' ++ (frame b' ++ (frame c' ++ w))) :
    a = a' ∧ b = b' ∧ c = c' ∧ z = w := by
  obtain ⟨ha, h⟩ := frame_append_inj h
  obtain ⟨hb, h⟩ := frame_append_inj h
  exact ⟨ha, hb, frame_append_inj h⟩

/-- Private keys are bytes, and two agree on their product. -/
def plainAgreement (size : Nat) : Agreement UInt8 (size + 1) where
  publicKey a := List.replicate (size + 1) a
  length_publicKey a := List.length_replicate
  ecdh a pub := if a * pub.headD 0 = 0 then .error "low order point" else .ok [a * pub.headD 0]
  ecdh_comm a b := by simp [List.replicate_succ, UInt8.mul_comm a b]

/-- The key is its inputs. -/
def plainKdf : Kdf (List UInt8) where
  derive secret salt info := frame secret ++ (frame salt ++ (frame info ++ []))
  derive_inj h := by
    obtain ⟨hs, ht, hi, -⟩ := frame_three_inj h
    exact ⟨hs, ht, hi⟩

/-- The plaintext after everything it is encrypted under. -/
def plainAead : Aead (List UInt8) where
  encrypt k n p a := frame k ++ (frame n ++ (frame a ++ p))
  decrypt k n c a :=
    let head := frame k ++ (frame n ++ frame a)
    if head.isPrefixOf c then some (c.drop head.length) else none
  decrypt_encrypt := by
    intro k n a k' n' a' p q
    have hassoc : ∀ l,
        frame k ++ (frame n ++ frame a) ++ l = frame k ++ (frame n ++ (frame a ++ l)) := by
      simp
    simp only [Option.ite_none_right_eq_some, List.isPrefixOf_iff_prefix, Option.some.injEq]
    constructor
    · rintro ⟨⟨l, hl⟩, rfl⟩
      rw [hassoc] at hl
      obtain ⟨rfl, rfl, rfl, rfl⟩ := frame_three_inj hl
      exact ⟨rfl, rfl, rfl, by rw [← hassoc, List.drop_left]⟩
    · rintro ⟨rfl, rfl, rfl, rfl⟩
      rw [← hassoc]
      exact ⟨List.prefix_append _ _, List.drop_left⟩

/-- The signature is the key before the message. -/
def plainSignature (size : Nat) : Signature UInt8 where
  publicKey k := List.replicate (size + 1) k
  sign k m := k :: m
  verify pub m signature := signature = pub.headD 0 :: m
  verify_sign k m := by simp [List.replicate_succ]

end Model

end Ideal
