import Mathlib

/-!
# Codecs

`cipher.AEAD` as its users see it: what was sealed under a nonce with additional data opens again
under both, and sealing adds a fixed number of bytes. A block cipher in CBC mode gives whole blocks
back, and a keyed hash has a fixed size. Of the zstd library, what was compressed is decompressed
again.
-/

namespace Hako.GoLib

/-- `Overhead()` of the ciphers in use. -/
def aeadOverhead : Nat := 16

/-- `Seal` and `Open` without a destination. -/
structure AEAD where
  sealText : (nonce plaintext additionalData : List UInt8) → List UInt8
  openText : (nonce ciphertext additionalData : List UInt8) → Option (List UInt8)
  length_sealText : ∀ nonce p ad, (sealText nonce p ad).length = p.length + aeadOverhead
  openText_sealText : ∀ nonce p ad, openText nonce (sealText nonce p ad) ad = some p

/-- The plaintext behind a tag of sixteen zeros. -/
def plainAEAD : AEAD where
  sealText _ p _ := List.replicate 16 0 ++ p
  openText _ c _ := some (c.drop 16)
  length_sealText _ p _ := by
    rw [List.length_append, List.length_replicate, aeadOverhead, Nat.add_comm]
  openText_sealText _ _ _ := rfl

/-- `aes.BlockSize` -/
def blockSize : Nat := 16

/-- `NewCBCEncrypter` and `NewCBCDecrypter` with their `CryptBlocks`. -/
structure CBC where
  encrypt : (iv plaintext : List UInt8) → List UInt8
  decrypt : (iv ciphertext : List UInt8) → List UInt8
  length_encrypt : ∀ iv p, p.length % blockSize = 0 → (encrypt iv p).length = p.length
  decrypt_encrypt : ∀ iv p, p.length % blockSize = 0 → decrypt iv (encrypt iv p) = p

/-- `hmac.New` with some key, up to `Sum`. -/
structure MAC where
  size : Nat
  sum : List UInt8 → List UInt8
  length_sum : ∀ data, (sum data).length = size

/-- An encoder and a decoder; the decoder gives none for a stream that it refuses. -/
structure Zstd where
  compress : List UInt8 → List UInt8
  decompress : List UInt8 → Option (List UInt8)
  decompress_compress : ∀ bytes, decompress (compress bytes) = some bytes

/-- A codec that stores the bytes as they are. -/
def storedZstd : Zstd := ⟨id, some, fun _ => rfl⟩

end Hako.GoLib
