import Hako.GoLib.Binary
import Hako.Lib.Except
import Hako.Trie.DomainSet

/-!
# The binary form of a domain set

`ReadDomainSetBin` reads three slices, each after its length, and checks that no length is below
one. Nothing makes the three of them one tree, so `Has` can leave them. Whether it does so for a
key is read off the readings of the key: those up to the first hit must not break.
-/

namespace Hako.Trie

open GoLib GoLib.Binary Lib List Nat

/-! ### Writing -/

/-- `WriteBin` to a writer that does not fail. -/
def DomainSet.writeBin (ss : DomainSet) : List UInt8 :=
  [1] ++ putUint64 (.ofNat ss.leaves.length) ++ ss.leaves.flatMap putUint64 ++
    putUint64 (.ofNat ss.labelBitmap.length) ++ ss.labelBitmap.flatMap putUint64 ++
    putUint64 (.ofNat ss.labels.length) ++ ss.labels

/-! ### Reading -/

/-- Why a stream is refused. -/
inductive ReadError where
  | eof
  | unexpectedEOF
  | invalid (text : String)
deriving DecidableEq

/-- `io.ReadFull`: exactly `n` bytes, and what is left of the stream. -/
def readFull (n : Nat) (r : List UInt8) : Except ReadError (List UInt8 × List UInt8) :=
  if n ≤ r.length then .ok (r.take n, r.drop n)
  else if r = [] then .error .eof
  else .error .unexpectedEOF

/-- `binary.Read` of one word. -/
def readUint64 (r : List UInt8) : Except ReadError (UInt64 × List UInt8) := do
  let (bytes, r) ← readFull 8 r
  return (uint64 bytes, r)

def readUint64s : Nat → List UInt8 → Except ReadError (List UInt64 × List UInt8)
  | 0, r => .ok ([], r)
  | n + 1, r => do
    let (word, r) ← readUint64 r
    let (words, r) ← readUint64s n r
    return (word :: words, r)

/-- A length, which is an `int64` and has to be positive. -/
def readLength (r : List UInt8) : Except ReadError (Nat × List UInt8) := do
  let (word, r) ← readUint64 r
  if word.toInt64 < 1 then throw (.invalid "length is invalid")
  else return (word.toNat, r)

/-- `ReadDomainSetBin`: the set, and what is left of the stream. -/
def readDomainSetBin (r : List UInt8) : Except ReadError (DomainSet × List UInt8) := do
  let (version, r) ← readFull 1 r
  if version ≠ [1] then throw (.invalid "version is invalid")
  else
    let (length, r) ← readLength r
    let (leaves, r) ← readUint64s length r
    let (length, r) ← readLength r
    let (labelBitmap, r) ← readUint64s length r
    let (length, r) ← readLength r
    let (labels, r) ← readFull length r
    return (⟨leaves, labelBitmap, labels⟩, r)

variable {r r' bytes : List UInt8} {n : Nat} {ss : DomainSet}

theorem readLength_pos (h : readLength r = .ok (n, r')) : 0 < n := by
  obtain ⟨⟨word, r₁⟩, -, h⟩ := bind_eq_ok.mp h
  dsimp only at h
  by_cases hword : word.toInt64 < 1
  · rw [if_pos hword] at h
    cases h
  · rw [if_neg hword] at h
    cases h
    refine pos_of_ne_zero fun hzero => hword ?_
    rw [← UInt64.toNat_zero, UInt64.toNat_inj] at hzero
    rw [hzero]
    decide

theorem length_readUint64s {words : List UInt64}
    (h : readUint64s n r = .ok (words, r')) : words.length = n := by
  induction n generalizing r words with
  | zero =>
    cases h
    rfl
  | succ n ih =>
    obtain ⟨⟨word, r₁⟩, -, h⟩ := bind_eq_ok.mp h
    obtain ⟨⟨ws, r₂⟩, hws, h⟩ := bind_eq_ok.mp h
    cases h
    rw [length_cons, ih hws]

/-- A set that was read has at least one word of leaves. -/
theorem leaves_ne_nil_of_read {stream rest : List UInt8}
    (h : readDomainSetBin stream = .ok (ss, rest)) : ss.leaves ≠ [] := by
  obtain ⟨⟨version, r⟩, -, h⟩ := bind_eq_ok.mp h
  dsimp only at h
  split at h
  · cases h
  obtain ⟨⟨n, r₁⟩, hlength, h⟩ := bind_eq_ok.mp h
  obtain ⟨⟨leaves, r₂⟩, hleaves, h⟩ := bind_eq_ok.mp h
  obtain ⟨⟨n', r₃⟩, -, h⟩ := bind_eq_ok.mp h
  obtain ⟨⟨bm, r₄⟩, -, h⟩ := bind_eq_ok.mp h
  obtain ⟨⟨n'', r₅⟩, -, h⟩ := bind_eq_ok.mp h
  obtain ⟨⟨labels, r₆⟩, -, h⟩ := bind_eq_ok.mp h
  cases h
  have hlen : leaves.length = n := length_readUint64s hleaves
  exact ne_nil_of_length_pos (hlen ▸ readLength_pos hlength)

/-! ### Reading what was written -/

theorem readFull_append (h : bytes.length = n) (r : List UInt8) :
    readFull n (bytes ++ r) = .ok (bytes, r) := by
  rw [readFull, if_pos (by rw [length_append]; omega), ← h, take_left, drop_left]

theorem readUint64_putUint64 (w : UInt64) (r : List UInt8) :
    readUint64 (putUint64 w ++ r) = .ok (w, r) := by
  rw [readUint64, readFull_append (length_putUint64 w)]
  have hword := uint64_putUint64 w []
  rw [append_nil] at hword
  exact congrArg (fun word => Except.ok (word, r)) hword

theorem readUint64s_putUint64s (words : List UInt64) (r : List UInt8) :
    readUint64s words.length (words.flatMap putUint64 ++ r) = .ok (words, r) := by
  induction words with
  | nil => rfl
  | cons word words ih =>
    rw [flatMap_cons, append_assoc, length_cons, readUint64s, readUint64_putUint64]
    change (readUint64s words.length _ >>= _) = _
    rw [ih]
    rfl

/-- Enough bytes can be read as words. -/
theorem exists_words (h : n * 8 ≤ r.length) :
    ∃ words : List UInt64, words.length = n ∧ r.take (n * 8) = words.flatMap putUint64 := by
  induction n generalizing r with
  | zero => exact ⟨[], rfl, by simp⟩
  | succ n ih =>
    obtain ⟨words, hlength, hwords⟩ := @ih (r.drop 8) (by rw [length_drop]; omega)
    have hfirst : (r.take 8).length = 8 := by
      rw [length_take]
      omega
    refine ⟨uint64 (r.take 8) :: words, by rw [length_cons, hlength], ?_⟩
    rw [flatMap_cons, putUint64_uint64 _ hfirst, ← hwords, ← take_add]
    congr 1
    omega

theorem toInt_toInt64 (h : n < 2 ^ 63) : (UInt64.ofNat n).toInt64.toInt = n := by
  change (UInt64.ofNat n).toBitVec.toInt = n
  have hnat : (UInt64.ofNat n).toBitVec.toNat = n :=
    UInt64.toNat_ofNat_of_lt' (lt_trans h (by decide))
  rw [BitVec.toInt_eq_toNat_of_lt (by omega), hnat]

theorem readLength_putUint64 (hpos : 0 < n) (hlt : n < 2 ^ 63) (r : List UInt8) :
    readLength (putUint64 (.ofNat n) ++ r) = .ok (n, r) := by
  have hint : ¬(UInt64.ofNat n).toInt64 < 1 := by
    rw [Int64.lt_iff_toInt_lt, toInt_toInt64 hlt]
    change ¬(n : Int) < 1
    omega
  rw [readLength, readUint64_putUint64]
  change (if (UInt64.ofNat n).toInt64 < 1 then _ else _) = _
  rw [if_neg hint, UInt64.toNat_ofNat_of_lt' (lt_trans hlt (by decide))]
  rfl

/-- What was written is read again. -/
theorem readDomainSetBin_writeBin (r : List UInt8)
    (hleaves : 0 < ss.leaves.length ∧ ss.leaves.length < 2 ^ 63)
    (hbitmap : 0 < ss.labelBitmap.length ∧ ss.labelBitmap.length < 2 ^ 63)
    (hlabels : 0 < ss.labels.length ∧ ss.labels.length < 2 ^ 63) :
    readDomainSetBin (ss.writeBin ++ r) = .ok (ss, r) := by
  simp only [DomainSet.writeBin, append_assoc]
  rw [readDomainSetBin, readFull_append (length_singleton : [(1 : UInt8)].length = 1), ok_bind]
  dsimp only
  rw [if_neg (not_not_intro rfl), readLength_putUint64 hleaves.1 hleaves.2, ok_bind]
  rw [readUint64s_putUint64s, ok_bind]
  dsimp only
  rw [readLength_putUint64 hbitmap.1 hbitmap.2, ok_bind]
  dsimp only
  rw [readUint64s_putUint64s, ok_bind]
  dsimp only
  rw [readLength_putUint64 hlabels.1 hlabels.2, ok_bind]
  dsimp only
  rw [readFull_append (Eq.refl ss.labels.length), ok_bind]
  rfl

/-! ### Intact readings -/

/-- The readings up to the first hit do not leave the set, and one that ends on a node without an
end is the last. -/
def Intact (rs : List Reading) : Prop :=
  ∀ tried r untried, rs = tried ++ r :: untried → .hit ∉ tried →
    r ≠ .broken ∧ (r = .dangling → untried = [])

theorem intact_cons {r : Reading} {rs : List Reading} :
    Intact (r :: rs) ↔ (r ≠ .broken ∧ (r = .dangling → rs = [])) ∧ (r ≠ .hit → Intact rs) := by
  constructor
  · intro h
    refine ⟨h [] r rs rfl not_mem_nil, fun hr tried r' untried heq hhit => ?_⟩
    refine h (r :: tried) r' untried (by rw [heq]; rfl) ?_
    simpa [hhit] using hr.symm
  · rintro ⟨hhead, htail⟩ tried r' untried heq hhit
    cases tried with
    | nil =>
      obtain ⟨rfl, rfl⟩ := List.cons.inj heq
      exact hhead
    | cons t tried =>
      obtain ⟨rfl, rfl⟩ := List.cons.inj heq
      rw [mem_cons, not_or] at hhit
      exact htail (Ne.symm hhit.1) tried r' untried rfl hhit.2

theorem verdict_ne_outOfRange_iff (rs : List Reading) : verdict rs ≠ .outOfRange ↔ Intact rs := by
  induction rs with
  | nil => exact ⟨fun _ _ _ _ heq => by simp at heq, fun _ => by decide⟩
  | cons r rs ih =>
    rw [intact_cons]
    cases r with
    | hit | broken => simp [verdict, resolve]
    | miss => simpa [verdict, resolve] using ih
    | dangling =>
      cases rs with
      | nil => simpa [verdict, resolve] using ih
      | cons r rs => simp [verdict, resolve]

/-- The tree of the patterns `a` and `*`. -/
def readableStream : List UInt8 :=
  [1] ++ [0, 0, 0, 0, 0, 0, 0, 1] ++ [0, 0, 0, 0, 0, 0, 0, 6] ++
    [0, 0, 0, 0, 0, 0, 0, 1] ++ [0, 0, 0, 0, 0, 0, 0, 28] ++
    [0, 0, 0, 0, 0, 0, 0, 2] ++ lit "*a"

/-- A tree with the one label `a` and a bitmap without ones. -/
def brokenStream : List UInt8 :=
  [1] ++ [0, 0, 0, 0, 0, 0, 0, 1] ++ [0, 0, 0, 0, 0, 0, 0, 2] ++
    [0, 0, 0, 0, 0, 0, 0, 1] ++ [0, 0, 0, 0, 0, 0, 0, 0] ++
    [0, 0, 0, 0, 0, 0, 0, 1] ++ lit "a"

end Hako.Trie
