import Hako.GoLib.Netip
import Hako.Lib.Louds
import Hako.Trie.DomainSetBin

/-!
# Validating rule sets

`inspectMRSStream` looks at a decoded rule set before it is handed to the readers. For domains it
replays the level order on the words of the bitmap: the nodes of a level are counted off, and the
zeros on the way are the nodes of the next one. What passes are the degrees of a tree.
-/

namespace Hako.Bind

open GoLib GoLib.Binary Lib Trie List

/-! ### Streams with a limit -/

/-- `maximumProviderResourceBytes` -/
def maximumProviderResourceBytes : Nat := 16 * 1024 * 1024

/-- `mrsCursor`: what the decoder still gives, and how much of it the limit still allows. -/
structure Cursor where
  data : List UInt8
  n : Nat
deriving DecidableEq

namespace Cursor

/-- `io.ReadFull`, none if there are too few bytes. -/
def readFull (c : Cursor) (size : Nat) : Option (List UInt8 × Cursor) :=
  if size ≤ c.n ∧ size ≤ c.data.length then
    some (c.data.take size, ⟨c.data.drop size, c.n - size⟩)
  else none

def take (c : Cursor) (size : Nat) (label : String) : Except String (List UInt8 × Cursor) :=
  match c.readFull size with
  | some r => .ok r
  | none => .error ("MRS " ++ label ++ " exceeds the decoded payload")

def byte (c : Cursor) (label : String) : Except String (UInt8 × Cursor) := do
  let (value, c) ← c.take 1 label
  return (value.headD 0, c)

def int64 (c : Cursor) (label : String) : Except String (Int × Cursor) := do
  let (value, c) ← c.take 8 label
  return ((uint64 value).toInt64.toInt, c)

/-- The limit keeps the product far from an overflow. -/
def size (c : Cursor) (length : Int) (unit : Nat) (label : String) (allowEmpty : Bool) :
    Except String Nat :=
  if length < 0 ∨ (allowEmpty = false ∧ length = 0) then
    .error ("MRS " ++ label ++ " length is invalid")
  else if unit = 0 ∨ length > ((c.n / unit : Nat) : Int) then
    .error ("MRS " ++ label ++ " length exceeds the decoded payload")
  else .ok (length.toNat * unit)

/-- `sized`, and what `skip` reads and drops. -/
def sized (c : Cursor) (length : Int) (unit : Nat) (label : String) (allowEmpty : Bool) :
    Except String (List UInt8 × Cursor) := do
  let size ← c.size length unit label allowEmpty
  match c.readFull size with
  | some r => return r
  | none => throw ("MRS " ++ label ++ " length exceeds the decoded payload")

def skip (c : Cursor) (length : Int) (unit : Nat) (label : String) (allowEmpty : Bool) :
    Except String Cursor := do
  let (_, c) ← c.sized length unit label allowEmpty
  return c

end Cursor

/-! ### Domains -/

def mrsBit (serializedWords : List UInt8) (index : Nat) : Bool :=
  uint64 ((serializedWords.drop (index / 64 * 8)).take 8) &&& (1 <<< UInt64.ofNat (index % 64)) ≠ 0

/-- The inner loop, with the number of bits that are left: the position, the children seen and
those that count for the next level. -/
def childrenLoop (bitmap : List UInt8) (labelsLength : Nat) :
    Nat → Nat → Nat → Nat → Except String (Nat × Nat × Nat)
  | 0, bitPosition, childrenSeen, nextLevel => .ok (bitPosition, childrenSeen, nextLevel)
  | left + 1, bitPosition, childrenSeen, nextLevel =>
    if mrsBit bitmap bitPosition then .ok (bitPosition, childrenSeen, nextLevel)
    else if childrenSeen + 1 > labelsLength then .error "MRS domain tree has too many children"
    else childrenLoop bitmap labelsLength left (bitPosition + 1) (childrenSeen + 1) (nextLevel + 1)

/-- The variables of the outer loop. -/
structure TreeCount where
  bitPosition : Nat
  childrenSeen : Nat
  levelRemaining : Int
  nextLevel : Nat

/-- The outer loop, with the number of nodes that are left. -/
def nodesLoop (bitmap : List UInt8) (labelsLength logicalBitmapBits : Nat) :
    Nat → TreeCount → Except String TreeCount
  | 0, t => .ok t
  | left + 1, t => do
    let (bitPosition, childrenSeen, nextLevel) ←
      childrenLoop bitmap labelsLength (logicalBitmapBits - t.bitPosition) t.bitPosition
        t.childrenSeen t.nextLevel
    if bitPosition ≥ logicalBitmapBits then throw "MRS domain tree lacks a node delimiter"
    let levelRemaining := t.levelRemaining - 1
    if levelRemaining = 0 ∧ left > 0 then
      if nextLevel = 0 then throw "MRS domain tree is disconnected"
      nodesLoop bitmap labelsLength logicalBitmapBits left
        ⟨bitPosition + 1, childrenSeen, nextLevel, 0⟩
    else
      nodesLoop bitmap labelsLength logicalBitmapBits left
        ⟨bitPosition + 1, childrenSeen, levelRemaining, nextLevel⟩

/-- The second half of `validateDomainMRSBody`, behind the three slices. -/
def validateTree (leavesLength : Nat) (bitmap : List UInt8) (labelsLength : Nat) :
    Except String Unit := do
  let nodes := labelsLength + 1
  if leavesLength * 64 < nodes then throw "MRS domain leaves bitmap is too short"
  let logicalBitmapBits := 2 * labelsLength + 1
  if bitmap.length / 8 * 64 < logicalBitmapBits then
    throw "MRS domain label bitmap is too short"
  let t ← nodesLoop bitmap labelsLength logicalBitmapBits nodes ⟨0, 0, 1, 0⟩
  if t.childrenSeen ≠ labelsLength ∨ t.bitPosition ≠ logicalBitmapBits ∨ t.levelRemaining ≠ 0 ∨
      t.nextLevel ≠ 0 then
    throw "MRS domain tree topology is inconsistent"

def validateDomainMRSBody (c : Cursor) : Except String Unit := do
  let (version, c) ← c.byte "domain-set version"
  if version ≠ 1 then throw "MRS domain-set version is invalid"
  let (leavesLength, c) ← c.int64 "domain leaves length"
  let c ← c.skip leavesLength 8 "domain leaves" false
  let (bitmapLength, c) ← c.int64 "domain label bitmap length"
  let (bitmap, c) ← c.sized bitmapLength 8 "domain label bitmap" false
  let (labelsLength, c) ← c.int64 "domain labels length"
  let _ ← c.skip labelsLength 1 "domain labels" false
  validateTree leavesLength.toNat bitmap labelsLength.toNat

/-! ### Addresses -/

/-- Whether a range of 32 bytes is invalid. -/
def invalidRange (range : List UInt8) : Bool :=
  match addrFromSlice (range.take 16), addrFromSlice (range.drop 16) with
  | some from', some to' =>
    from'.unmap.bitLen ≠ to'.unmap.bitLen ∨ to'.unmap.less from'.unmap
  | _, _ => true

/-- The ranges are read in blocks; whether one of them is invalid is told at the end. -/
def rangesLoop : Nat → Cursor → Bool → Except String Bool
  | 0, _, invalid => .ok invalid
  | remaining + 1, c, invalid =>
    match c.readFull 32 with
    | none => .error "MRS IP-CIDR ranges length exceeds the decoded payload"
    | some (range, c) => rangesLoop remaining c (invalid || invalidRange range)

def validateIPCIDRMRSBody (c : Cursor) : Except String Unit := do
  let (version, c) ← c.byte "IP-CIDR-set version"
  if version ≠ 1 then throw "MRS IP-CIDR-set version is invalid"
  let (rangeCount, c) ← c.int64 "IP-CIDR range count"
  let _ ← c.size rangeCount 32 "IP-CIDR ranges" false
  let invalid ← rangesLoop rangeCount.toNat c false
  if invalid then throw "MRS IP-CIDR range is invalid"

/-! ### Streams -/

/-- `RuleBehavior` -/
inductive RuleBehavior where
  | domain
  | ipcidr
  | classical
deriving DecidableEq, Repr

namespace RuleBehavior

def byte : RuleBehavior → UInt8
  | domain => 0
  | ipcidr => 1
  | classical => 2

def string : RuleBehavior → String
  | domain => "Domain"
  | ipcidr => "IPCIDR"
  | classical => "Classical"

end RuleBehavior

/-- `MrsMagicBytes` -/
def mrsMagicBytes : List UInt8 := lit "MRS" ++ [1]

/-- The header: the number of rules, and the cursor at the body. -/
def inspectHeader (c : Cursor) (expectedBehavior : RuleBehavior) : Except String (Int × Cursor) := do
  let (magic, c) ← c.take mrsMagicBytes.length "magic"
  if magic ≠ mrsMagicBytes then throw "MRS magic is invalid"
  let (behavior, c) ← c.byte "behavior"
  if behavior ≠ expectedBehavior.byte then throw "MRS behavior does not match the provider"
  let (count, c) ← c.int64 "rule count"
  let (extraLength, c) ← c.int64 "extra length"
  let c ← c.skip extraLength 1 "extra" true
  return (count, c)

/-- `inspectMRSStream` -/
def inspectMRSStream (c : Cursor) (expectedBehavior : RuleBehavior) : Except String Int := do
  let (count, c) ← inspectHeader c expectedBehavior
  match expectedBehavior with
  | .domain => validateDomainMRSBody c
  | .ipcidr => validateIPCIDRMRSBody c
  | .classical =>
    throw ("MRS format is unsupported for provider behavior " ++ expectedBehavior.string)
  return count

/-- The cursor of `inspectMRSForIOS` over what the decoder gives. -/
def openCursor (decoded : List UInt8) : Cursor := ⟨decoded, maximumProviderResourceBytes + 1⟩

/-! ### Counting off the levels -/

theorem length_putUint64s (words : List UInt64) :
    (words.flatMap putUint64).length = words.length * 8 := by
  rw [length_flatMap]
  simp [length_putUint64]

theorem mrsBit_putUint64s (words : List UInt64) (i : Nat) :
    mrsBit (words.flatMap putUint64) i = (getBit words i).getD false := by
  have hdrop : (words.flatMap putUint64).drop (i / 64 * 8) =
      (words.drop (i / 64)).flatMap putUint64 := by
    conv_lhs => rw [← take_append_drop (i / 64) words]
    rcases le_total (i / 64) words.length with hle | hle
    · have hlength : ((words.take (i / 64)).flatMap putUint64).length = i / 64 * 8 := by
        rw [length_putUint64s, length_take, min_eq_left hle]
      rw [flatMap_append, ← hlength, drop_left]
    · rw [drop_of_length_le hle, append_nil, take_of_length_le hle,
        drop_of_length_le (by rw [length_putUint64s]; omega)]
      rfl
  rw [mrsBit, hdrop, getBit, ← head?_drop]
  cases words.drop (i / 64) with
  | nil => simp [uint64, Addr.ofBytes]
  | cons word words =>
    rw [flatMap_cons, ← length_putUint64 word, take_left, ← append_nil (putUint64 word),
      uint64_putUint64]
    rfl

section Loops

variable {bitmap : List UInt8} {labelsLength : Nat} {bits : List Bool}
  (hbit : ∀ i, mrsBit bitmap i = bits[i]?.getD false)

include hbit

variable {left pos seen next d logicalBitmapBits : Nat} {rest : List Bool} {t : TreeCount}

theorem childrenLoop_ok {pos' seen' next' : Nat} (hle : pos + left ≤ bits.length)
    (h : childrenLoop bitmap labelsLength left pos seen next = .ok (pos', seen', next')) :
    ∃ d ≤ left, pos' = pos + d ∧ seen' = seen + d ∧ next' = next + d ∧
      bits.drop pos = replicate d false ++ bits.drop pos' ∧
      (d < left → bits.drop pos' = true :: bits.drop (pos' + 1)) := by
  induction left generalizing pos seen next with
  | zero =>
    cases h
    exact ⟨0, Nat.le_refl _, rfl, rfl, rfl, rfl, fun hlt => absurd hlt (Nat.lt_irrefl _)⟩
  | succ left ih =>
    have hlt : pos < bits.length := by omega
    have hcons := drop_eq_getElem_cons hlt
    have hread : mrsBit bitmap pos = bits[pos] := by
      rw [hbit, getElem?_eq_getElem hlt, Option.getD_some]
    rw [childrenLoop, hread] at h
    cases hb : bits[pos] with
    | true =>
      rw [hb] at h hcons
      cases h
      exact ⟨0, Nat.zero_le _, rfl, rfl, rfl, rfl, fun _ => hcons⟩
    | false =>
      rw [hb] at h hcons
      rw [if_neg Bool.false_ne_true] at h
      split at h
      · cases h
      · obtain ⟨d, hd, rfl, rfl, rfl, hdrop, hone⟩ := ih (by omega) h
        refine ⟨d + 1, by omega, by omega, by omega, by omega, ?_, fun hlt => hone (by omega)⟩
        rw [hcons, hdrop]
        rfl

theorem childrenLoop_of (hd : d < left) (hseen : seen + d ≤ labelsLength)
    (hdrop : bits.drop pos = replicate d false ++ true :: rest) :
    childrenLoop bitmap labelsLength left pos seen next = .ok (pos + d, seen + d, next + d) := by
  induction left generalizing pos seen next d with
  | zero => omega
  | succ left ih =>
    have hread : mrsBit bitmap pos = (bits.drop pos).head?.getD false := by
      rw [hbit, head?_drop]
    rw [childrenLoop]
    cases d with
    | zero =>
      rw [hread, hdrop]
      rfl
    | succ d =>
      have hnext : bits.drop (pos + 1) = replicate d false ++ true :: rest := by
        rw [← drop_drop, hdrop]
        rfl
      have hzero : mrsBit bitmap pos = false := by
        rw [hread, hdrop]
        rfl
      have heq := @ih (pos + 1) (seen + 1) (next + 1) d (by omega) (by omega) hnext
      rw [if_neg (by rw [hzero]; exact Bool.false_ne_true), if_neg (by omega), heq]
      simp only [add_assoc, add_comm 1]

/-- What one round of the outer loop does to the levels. -/
theorem nodesLoop_succ
    (hd : t.bitPosition + d < logicalBitmapBits) (hseen : t.childrenSeen + d ≤ labelsLength)
    (hdrop : bits.drop t.bitPosition = replicate d false ++ true :: rest) :
    nodesLoop bitmap labelsLength logicalBitmapBits (left + 1) t =
      if t.levelRemaining - 1 = 0 ∧ left > 0 then
        if t.nextLevel + d = 0 then .error "MRS domain tree is disconnected"
        else nodesLoop bitmap labelsLength logicalBitmapBits left
          ⟨t.bitPosition + d + 1, t.childrenSeen + d, ↑(t.nextLevel + d), 0⟩
      else nodesLoop bitmap labelsLength logicalBitmapBits left
        ⟨t.bitPosition + d + 1, t.childrenSeen + d, t.levelRemaining - 1, t.nextLevel + d⟩ := by
  rw [nodesLoop, childrenLoop_of hbit (by omega) hseen hdrop]
  change (if _ then _ else _) = _
  rw [if_neg (by omega)]
  rfl

theorem nodesLoop_ok {t' : TreeCount}
    (hlogical : logicalBitmapBits ≤ bits.length) (hpos : t.bitPosition ≤ logicalBitmapBits)
    (hlevel : 0 < left → 1 ≤ t.levelRemaining)
    (h : nodesLoop bitmap labelsLength logicalBitmapBits left t = .ok t') :
    ∃ degrees : List Nat, degrees.length = left ∧
      bits.drop t.bitPosition = degreeBits degrees ++ bits.drop t'.bitPosition ∧
      t'.bitPosition = t.bitPosition + degrees.sum + left ∧
      t'.childrenSeen = t.childrenSeen + degrees.sum ∧
      ∀ j < left, (j : Int) < t.levelRemaining + t.nextLevel + (degrees.take j).sum := by
  induction left generalizing t with
  | zero =>
    cases h
    exact ⟨[], rfl, rfl, rfl, rfl, fun j hj => absurd hj (Nat.not_lt_zero j)⟩
  | succ left ih =>
    have hlevel := hlevel (Nat.succ_pos _)
    obtain ⟨⟨pos, seen, next⟩, hchildren, h⟩ := bind_eq_ok.mp h
    obtain ⟨d, hd, rfl, rfl, rfl, hdrop, hone⟩ := childrenLoop_ok hbit (by omega) hchildren
    dsimp only at h
    by_cases hend : t.bitPosition + d ≥ logicalBitmapBits
    · rw [if_pos hend] at h
      cases h
    rw [if_neg hend] at h
    -- the next round, with its levels
    obtain ⟨t₁, hpos₁, hseen₁, hsum, hlevel₁, h⟩ : ∃ t₁ : TreeCount,
        t₁.bitPosition = t.bitPosition + d + 1 ∧ t₁.childrenSeen = t.childrenSeen + d ∧
        t₁.levelRemaining + t₁.nextLevel = t.levelRemaining + t.nextLevel + d - 1 ∧
        (0 < left → 1 ≤ t₁.levelRemaining) ∧
        nodesLoop bitmap labelsLength logicalBitmapBits left t₁ = .ok t' := by
      by_cases hturn : t.levelRemaining - 1 = 0 ∧ left > 0
      · change (if _ then _ else _) = _ at h
        rw [if_pos hturn] at h
        by_cases hnext : t.nextLevel + d = 0
        · rw [if_pos hnext] at h
          cases h
        · rw [if_neg hnext] at h
          refine ⟨_, rfl, rfl, ?_, ?_, h⟩
          · dsimp only
            omega
          · dsimp only
            omega
      · change (if _ then _ else _) = _ at h
        rw [if_neg hturn] at h
        refine ⟨_, rfl, rfl, ?_, ?_, h⟩
        · dsimp only
          omega
        · dsimp only
          omega
    obtain ⟨degrees, hlength, hbits, hpos', hseen', hearlier⟩ := ih (by omega) hlevel₁ h
    refine ⟨d :: degrees, by rw [length_cons, hlength], ?_, ?_, ?_, fun j hj => ?_⟩
    · rw [hdrop, hone (by omega), ← hpos₁, hbits]
      simp [degreeBits]
    · rw [sum_cons]
      omega
    · rw [sum_cons]
      omega
    · cases j with
      | zero =>
        rw [take_zero, sum_nil]
        omega
      | succ j =>
        have := hearlier j (by omega)
        rw [take_succ_cons, sum_cons]
        omega

/-- The levels of a tree are counted off. -/
theorem nodesLoop_of {degrees : List Nat} (hlength : degrees.length = left)
    (hbits : bits.drop t.bitPosition = degreeBits degrees ++ rest)
    (hpos : t.bitPosition + degrees.sum + left ≤ logicalBitmapBits)
    (hseen : t.childrenSeen + degrees.sum ≤ labelsLength)
    (hlevel : 0 < left → 1 ≤ t.levelRemaining) (hlevel' : 0 ≤ t.levelRemaining)
    (hearlier : ∀ j < left, (j : Int) < t.levelRemaining + t.nextLevel + (degrees.take j).sum) :
    ∃ t', nodesLoop bitmap labelsLength logicalBitmapBits left t = .ok t' ∧
      t'.bitPosition = t.bitPosition + degrees.sum + left ∧
      t'.childrenSeen = t.childrenSeen + degrees.sum ∧ 0 ≤ t'.levelRemaining ∧
      t'.levelRemaining + t'.nextLevel = t.levelRemaining + t.nextLevel + degrees.sum - left := by
  induction left generalizing t degrees with
  | zero =>
    obtain rfl := length_eq_zero_iff.mp hlength
    exact ⟨t, rfl, by simp, by simp, hlevel', by simp⟩
  | succ left ih =>
    obtain ⟨d, degrees, rfl⟩ := exists_cons_of_length_eq_add_one hlength
    have hlevel := hlevel (Nat.succ_pos _)
    rw [sum_cons] at hpos hseen
    have hdrop : bits.drop t.bitPosition =
        replicate d false ++ true :: (degreeBits degrees ++ rest) := by
      rw [hbits]
      simp [degreeBits]
    have hnext : bits.drop (t.bitPosition + d + 1) = degreeBits degrees ++ rest := by
      rw [add_assoc, ← drop_drop, hdrop, drop_append, length_replicate]
      simp
    have hafter : ∀ j < left, (j : Int) + 1 <
        t.levelRemaining + t.nextLevel + d + (degrees.take j).sum := by
      intro j hj
      have := hearlier (j + 1) (by omega)
      rw [take_succ_cons, sum_cons] at this
      omega
    rw [nodesLoop_succ hbit (by omega) (by omega) hdrop, sum_cons]
    by_cases hturn : t.levelRemaining - 1 = 0 ∧ left > 0
    · -- the nodes of the next level are those that were counted
      have hsome := hafter 0 hturn.2
      rw [take_zero, sum_nil] at hsome
      rw [if_pos hturn, if_neg (by omega)]
      obtain ⟨t', h, hpos', hseen', hlevel', hsum⟩ := @ih
        ⟨t.bitPosition + d + 1, t.childrenSeen + d, ↑(t.nextLevel + d), 0⟩ degrees
        (Nat.succ.inj hlength) hnext (by dsimp only; omega) (by dsimp only; omega)
        (by dsimp only; omega) (by dsimp only; omega)
        (fun j hj => by have := hafter j hj; dsimp only; omega)
      dsimp only at hpos' hseen' hsum
      exact ⟨t', h, by omega, by omega, hlevel', by omega⟩
    · rw [if_neg hturn]
      obtain ⟨t', h, hpos', hseen', hlevel', hsum⟩ := @ih
        ⟨t.bitPosition + d + 1, t.childrenSeen + d, t.levelRemaining - 1, t.nextLevel + d⟩ degrees
        (Nat.succ.inj hlength) hnext (by dsimp only; omega) (by dsimp only; omega)
        (by dsimp only; omega) (by dsimp only; omega)
        (fun j hj => by have := hafter j hj; dsimp only; omega)
      dsimp only at hpos' hseen' hsum
      exact ⟨t', h, by omega, by omega, hlevel', by omega⟩

end Loops

/-- The counting accepts the level orders of trees, if the bitmaps are long enough. -/
theorem validateTree_ok_iff (leavesLength : Nat) (words : List UInt64) (labelsLength : Nat) :
    validateTree leavesLength (words.flatMap putUint64) labelsLength = .ok () ↔
      labelsLength < leavesLength * 64 ∧
        ∃ degrees rest, TreeDegrees degrees ∧ degrees.sum = labelsLength ∧
          bitsOf words = degreeBits degrees ++ rest := by
  have hbit : ∀ i, mrsBit (words.flatMap putUint64) i = (bitsOf words)[i]?.getD false := by
    intro i
    rw [mrsBit_putUint64s, getBit_eq]
  have hwords : (words.flatMap putUint64).length / 8 * 64 = (bitsOf words).length := by
    rw [length_putUint64s, length_bitsOf, Nat.mul_div_cancel _ (by decide), Nat.mul_comm]
  have hstart : (bitsOf words).drop 0 = bitsOf words := drop_zero
  rw [validateTree, hwords]
  constructor
  · intro h
    by_cases hleaves : leavesLength * 64 < labelsLength + 1
    · rw [if_pos hleaves] at h
      cases h
    rw [if_neg hleaves] at h
    by_cases hbitmap : (bitsOf words).length < 2 * labelsLength + 1
    · change (if _ then _ else _) = _ at h
      rw [if_pos hbitmap] at h
      cases h
    rw [if_neg hbitmap] at h
    obtain ⟨t, hloop, h⟩ := bind_eq_ok.mp h
    obtain ⟨degrees, hlength, hbits, hpos, hseen, hearlier⟩ :=
      nodesLoop_ok hbit (by omega) (Nat.zero_le _) (fun _ => Int.le_refl 1) hloop
    by_cases htopology : t.childrenSeen ≠ labelsLength ∨ t.bitPosition ≠ 2 * labelsLength + 1 ∨
        t.levelRemaining ≠ 0 ∨ t.nextLevel ≠ 0
    · rw [if_pos htopology] at h
      cases h
    dsimp only at hpos hseen hearlier hbits
    rw [hstart] at hbits
    refine ⟨by omega, degrees, _, ⟨by omega, fun j hj => ?_⟩, by omega, hbits⟩
    have := hearlier j (by omega)
    omega
  · rintro ⟨hleaves, degrees, rest, hdegrees, hsum, hbits⟩
    have hlength := hdegrees.length
    have hbitmap : 2 * labelsLength + 1 ≤ (bitsOf words).length := by
      rw [hbits, length_append, length_degreeBits]
      omega
    obtain ⟨t, hloop, hpos, hseen, hlevel, hlevels⟩ := @nodesLoop_of _ labelsLength _ hbit
      (labelsLength + 1) (2 * labelsLength + 1) rest ⟨0, 0, 1, 0⟩ degrees (by omega)
      (hstart.trans hbits) (by dsimp only; omega) (by dsimp only; omega) (fun _ => Int.le_refl 1)
      (by dsimp only; omega) (fun j hj => by have := hdegrees.earlier j (by omega); dsimp only; omega)
    dsimp only at hpos hseen hlevels
    rw [if_neg (by omega)]
    change (if _ then _ else _) = _
    rw [if_neg (by omega)]
    change (nodesLoop _ _ _ _ _ >>= _) = _
    rw [hloop]
    change (if _ then _ else _) = _
    rw [if_neg (by omega)]
    rfl

end Hako.Bind
