import Hako.GoLib.Strings
import Hako.Lib.Except

/-!
# Byte layouts

A layout says which bytes on the wire are hints, how a clue and how a group of six bits is written
as a hint, and which bytes are padding. There is one layout of printable bytes, one of few set
bits, and one for each pattern of the symbols `x`, `p` and `v`.
-/

namespace Hako.Sudoku

open GoLib Lib List

/-! ### The tables -/

/-- The tables of a layout as functions of the index. -/
structure ByteLayout where
  name : GoString
  padMarker : UInt8
  paddingPool : List UInt8
  hintTable : UInt8 → Bool
  encodeHint : UInt8 → UInt8 → UInt8
  encodeGroup : UInt8 → UInt8
  decodeGroup : UInt8 → UInt8
  groupValid : UInt8 → Bool

/-- The errors of the functions that choose a layout. -/
inductive LayoutError where
  /-- `invalid ascii mode: %s` -/
  | invalidMode (mode : GoString)
  /-- `custom table must have 8 symbols, got %d` -/
  | symbols (n : Nat)
  /-- `invalid char %q in custom table` -/
  | invalidChar (c : Nat)
  /-- `custom table must contain exactly 2 x, 2 p, 4 v` -/
  | counts
  /-- `custom table produced empty padding pool` -/
  | emptyPool
deriving DecidableEq

/-! ### The built-in layouts -/

def newASCIILayout : ByteLayout :=
  -- DEL is not printable, so a line feed stands for it
  let printable (b : UInt8) : UInt8 := if b = 0x7F then 0x0A else b
  { name := lit "ascii"
    padMarker := 0x3F
    paddingPool := (List.range 32).map fun i => UInt8.ofNat (0x20 + i)
    hintTable := fun wire => wire &&& 0x40 == 0x40 || wire == 0x0A
    encodeHint := fun val pos => printable ((0x40 : UInt8) ||| val <<< 4 ||| pos)
    encodeGroup := fun group => printable ((0x40 : UInt8) ||| group)
    decodeGroup := fun wire =>
      if wire = 0x0A then 0x3F else if wire &&& 0x40 = 0x40 then wire &&& 0x3F else 0
    groupValid := fun wire => wire &&& 0x40 == 0x40 || wire == 0x0A }

def newEntropyLayout : ByteLayout where
  name := lit "entropy"
  padMarker := 0x80
  paddingPool := (List.range 8).flatMap fun i => [UInt8.ofNat (0x80 + i), UInt8.ofNat (0x10 + i)]
  hintTable wire := wire &&& 0x90 == 0
  encodeHint val pos := val <<< 5 ||| pos
  encodeGroup group := (group &&& 0x30) <<< 1 ||| group &&& 0x0F
  decodeGroup wire := if wire &&& 0x90 ≠ 0 then 0 else (wire >>> 1) &&& 0x30 ||| wire &&& 0x0F
  groupValid wire := wire &&& 0x90 == 0

/-! ### Custom layouts -/

/-- The bits that the symbols of a pattern stand for. -/
structure Pattern where
  xBits : List (Fin 8)
  pBits : List (Fin 8)
  vBits : List (Fin 8)

/-- The loop over a cleaned pattern, whose first symbol is the highest bit. -/
def scanPattern : List (Fin 8) → GoString → Pattern → Except LayoutError Pattern
  | bit :: bits, c :: s, t =>
    if c = 0x78 then scanPattern bits s { t with xBits := t.xBits ++ [bit] }
    else if c = 0x70 then scanPattern bits s { t with pBits := t.pBits ++ [bit] }
    else if c = 0x76 then scanPattern bits s { t with vBits := t.vBits ++ [bit] }
    else .error (.invalidChar (decodeRune (c :: s)).1)
  | _, _, t => .ok t

/-- `1 << bit` -/
def mask (bit : Fin 8) : UInt8 := 1 <<< UInt8.ofNat bit

/-- `b & (1 << bit) != 0` -/
def hasBit (b : UInt8) (bit : Fin 8) : Bool := b &&& mask bit != 0

/-- `bits.OnesCount8` -/
def onesCount8 (b : UInt8) : Nat := (List.finRange 8).countP (hasBit b)

namespace Pattern

def xMask (t : Pattern) : UInt8 := t.xBits.foldl (fun m bit => m ||| mask bit) 0

/-- `encodeBits`, where `dropX` is the bit of the symbol that is left out. -/
def encodeBits (t : Pattern) (p₀ p₁ : Fin 8) (val pos : UInt8) (dropX : Option (Fin 8)) : UInt8 :=
  let out := t.xMask
  let out := match dropX with
    | some bit => out &&& ~~~ mask bit
    | none => out
  let out := if val &&& 0x02 ≠ 0 then out ||| mask p₀ else out
  let out := if val &&& 0x01 ≠ 0 then out ||| mask p₁ else out
  t.vBits.zipIdx.foldl (fun out (bit, i) =>
    if (pos >>> (3 - UInt8.ofNat i)) &&& 0x01 = 1 then out ||| mask bit else out) out

/-- The bytes with one `x` left out and many bits set, each of them once, in order. -/
def padding (t : Pattern) (p₀ p₁ : Fin 8) : List UInt8 :=
  let all := t.xBits.flatMap fun drop => (List.range 4).flatMap fun val =>
    (List.range 16).map fun pos =>
      t.encodeBits p₀ p₁ (UInt8.ofNat val) (UInt8.ofNat pos) (some drop)
  ((all.filter fun b => 5 ≤ onesCount8 b).eraseDups).insertionSort (· ≤ ·)

/-- The value and the place that a hint stands for. -/
def decodeBits (t : Pattern) (p₀ p₁ : Fin 8) (wire : UInt8) : UInt8 :=
  let val : UInt8 := if hasBit wire p₀ then 0x02 else 0
  let val := if hasBit wire p₁ then val ||| 0x01 else val
  let pos := t.vBits.zipIdx.foldl (fun pos (bit, i) =>
    if hasBit wire bit then pos ||| (1 : UInt8) <<< (3 - UInt8.ofNat i) else pos) (0 : UInt8)
  val <<< 4 ||| pos

/-- The tables for a pattern with such `p` bits and such padding. -/
def layout (t : Pattern) (name : GoString) (p₀ p₁ : Fin 8) (padMarker : UInt8)
    (paddingPool : List UInt8) : ByteLayout where
  name := name
  padMarker := padMarker
  paddingPool := paddingPool
  hintTable wire := wire &&& t.xMask == t.xMask
  encodeHint val pos := t.encodeBits p₀ p₁ val pos none
  encodeGroup group := t.encodeBits p₀ p₁ ((group >>> 4) &&& 0x03) (group &&& 0x0F) none
  decodeGroup wire := if wire &&& t.xMask ≠ t.xMask then 0 else t.decodeBits p₀ p₁ wire
  groupValid wire := wire &&& t.xMask == t.xMask

end Pattern

def newCustomLayout (pattern : GoString) : Except LayoutError ByteLayout := do
  let cleaned := toLower ((trimSpace pattern).filter (· ≠ 0x20))
  if cleaned.length ≠ 8 then throw (.symbols cleaned.length)
  let t ← scanPattern [7, 6, 5, 4, 3, 2, 1, 0] cleaned ⟨[], [], []⟩
  if t.xBits.length ≠ 2 ∨ t.pBits.length ≠ 2 ∨ t.vBits.length ≠ 4 then throw .counts
  let p₀ := t.pBits.getD 0 0
  let p₁ := t.pBits.getD 1 0
  match t.padding p₀ p₁ with
  | [] => throw .emptyPool
  | padMarker :: pool =>
    let name := lit "custom(" ++ cleaned ++ lit ")"
    return t.layout name p₀ p₁ padMarker (padMarker :: pool)

/-! ### Modes -/

def resolveLayout (mode customPattern : GoString) : Except LayoutError ByteLayout :=
  let lowered := toLower mode
  if lowered = lit "ascii" ∨ lowered = lit "prefer_ascii" then .ok newASCIILayout
  else if lowered = lit "entropy" ∨ lowered = lit "prefer_entropy" ∨ lowered = [] then
    if trimSpace customPattern ≠ [] then newCustomLayout customPattern else .ok newEntropyLayout
  else .error (.invalidMode mode)

/-! ### Lawful layouts -/

/-- What the connections rely on. -/
structure ByteLayout.Lawful (layout : ByteLayout) : Prop where
  hint_group : ∀ group, group < 64 → layout.hintTable (layout.encodeGroup group) = true
  decode_group : ∀ group, group < 64 → layout.decodeGroup (layout.encodeGroup group) = group
  decode_lt : ∀ b, layout.decodeGroup b < 64
  groupValid_eq : ∀ b, layout.groupValid b = layout.hintTable b
  encodeHint_eq : ∀ val pos, val < 4 → pos < 16 →
    layout.encodeHint val pos = layout.encodeGroup (val <<< 4 ||| pos)
  marker : layout.hintTable layout.padMarker = false
  padding : ∀ b ∈ layout.paddingPool, layout.hintTable b = false
  other : ∃ b ∈ layout.paddingPool, b ≠ layout.padMarker

/-- A property of the bytes below a bound is decided byte by byte. -/
theorem forall_lt_of_fin {n : Nat} {P : UInt8 → Prop} (h : ∀ i : Fin n, P (UInt8.ofNat i)) :
    ∀ b : UInt8, b.toNat < n → P b := by
  intro b hb
  have hP := h ⟨b.toNat, hb⟩
  rwa [UInt8.ofNat_toNat] at hP

/-- The same for a value and a place of a clue. -/
theorem forall_clue_of_fin {P : UInt8 → UInt8 → Prop}
    (h : ∀ (i : Fin 4) (j : Fin 16), P (UInt8.ofNat i) (UInt8.ofNat j)) (val pos : UInt8)
    (hval : val < 4) (hpos : pos < 16) : P val pos :=
  forall_lt_of_fin (n := 16)
    (forall_lt_of_fin (n := 4) (P := fun val => ∀ j : Fin 16, P val (UInt8.ofNat j)) h val hval)
    pos hpos

theorem newASCIILayout_lawful : newASCIILayout.Lawful where
  hint_group := forall_lt_of_fin (n := 64) (by decide +kernel)
  decode_group := forall_lt_of_fin (n := 64) (by decide +kernel)
  decode_lt b := forall_lt_of_fin (n := 256) (P := fun b => newASCIILayout.decodeGroup b < 64)
    (by decide +kernel) b b.toNat_lt
  groupValid_eq _ := rfl
  encodeHint_eq val pos _ _ := by
    change (if _ then _ else _) = (if _ then _ else _)
    rw [UInt8.or_assoc]
  marker := by decide
  padding := by decide +kernel
  other := ⟨0x20, by decide, by decide⟩

theorem newEntropyLayout_lawful : newEntropyLayout.Lawful where
  hint_group := forall_lt_of_fin (n := 64) (by decide +kernel)
  decode_group := forall_lt_of_fin (n := 64) (by decide +kernel)
  decode_lt b := forall_lt_of_fin (n := 256) (P := fun b => newEntropyLayout.decodeGroup b < 64)
    (by decide +kernel) b b.toNat_lt
  groupValid_eq _ := rfl
  encodeHint_eq := forall_clue_of_fin (by decide +kernel)
  marker := by decide
  padding := by decide +kernel
  other := ⟨0x10, by decide, by decide⟩

/-! ### Bits of a byte -/

theorem toBitVec_mask : ∀ bit : Fin 8, (mask bit).toBitVec = BitVec.twoPow 8 bit := by decide

theorem hasBit_eq_getLsbD (b : UInt8) (bit : Fin 8) : hasBit b bit = b.toBitVec.getLsbD bit := by
  have hne : ∀ bit : Fin 8, BitVec.twoPow 8 bit ≠ 0#8 := by decide
  rw [Bool.eq_iff_iff, hasBit, bne_iff_ne, ne_eq, ← UInt8.toBitVec_inj, UInt8.toBitVec_and,
    toBitVec_mask, BitVec.and_twoPow]
  exact ite_ne_right_iff.trans (and_iff_left (hne bit))

theorem hasBit_mask (bit j : Fin 8) : hasBit (mask bit) j = (bit == j) := by
  rw [hasBit_eq_getLsbD, toBitVec_mask, BitVec.getLsbD_twoPow]
  simp [Fin.ext_iff, Bool.beq_eq_decide_eq]

theorem hasBit_or (b c : UInt8) (j : Fin 8) : hasBit (b ||| c) j = (hasBit b j || hasBit c j) := by
  simp only [hasBit_eq_getLsbD, UInt8.toBitVec_or, BitVec.getLsbD_or]

theorem hasBit_and (b c : UInt8) (j : Fin 8) : hasBit (b &&& c) j = (hasBit b j && hasBit c j) := by
  simp only [hasBit_eq_getLsbD, UInt8.toBitVec_and, BitVec.getLsbD_and]

theorem hasBit_not (b : UInt8) (j : Fin 8) : hasBit (~~~ b) j = !hasBit b j := by
  simp only [hasBit_eq_getLsbD, UInt8.toBitVec_not, BitVec.getLsbD_not, j.isLt, decide_true,
    Bool.true_and]

theorem eq_of_hasBit {b c : UInt8} (h : ∀ j, hasBit b j = hasBit c j) : b = c := by
  refine UInt8.toBitVec_inj.mp (BitVec.eq_of_getLsbD_eq fun i hi => ?_)
  have hbit := h ⟨i, hi⟩
  rwa [hasBit_eq_getLsbD, hasBit_eq_getLsbD] at hbit

theorem hasBit_ite_or (c : Prop) [Decidable c] (b : UInt8) (bit j : Fin 8) :
    hasBit (if c then b ||| mask bit else b) j = (hasBit b j || (decide c && bit == j)) := by
  by_cases hc : c
  · rw [if_pos hc, hasBit_or, hasBit_mask, decide_eq_true hc, Bool.true_and]
  · rw [if_neg hc, decide_eq_false hc, Bool.false_and, Bool.or_false]

/-- Of bits that are set or not, each one reads as it was set. -/
theorem any_of_mem {l : List (Fin 8 × Bool)} (hl : (l.map Prod.fst).Nodup) {bit : Fin 8} {on : Bool}
    (h : (bit, on) ∈ l) : (l.any fun e => e.2 && e.1 == bit) = on := by
  rw [Bool.eq_iff_iff, any_eq_true]
  simp only [Bool.and_eq_true, beq_iff_eq]
  refine ⟨?_, fun hon => ⟨_, h, hon, rfl⟩⟩
  rintro ⟨e, he, hon, hbit⟩
  rwa [inj_on_of_nodup_map hl he h hbit] at hon

/-! ### Custom layouts are lawful -/

theorem scanPattern_perm {bits : List (Fin 8)} {s : GoString} {t t' : Pattern}
    (hlen : s.length = bits.length) (h : scanPattern bits s t = .ok t') :
    (t'.xBits ++ t'.pBits ++ t'.vBits).Perm (t.xBits ++ t.pBits ++ t.vBits ++ bits) := by
  induction bits generalizing s t with
  | nil =>
    cases s with
    | nil =>
      cases h
      rw [append_nil]
    | cons c s => cases hlen
  | cons bit bits ih =>
    cases s with
    | nil => cases hlen
    | cons c s =>
      have hlen' : s.length = bits.length := Nat.succ.inj hlen
      rw [scanPattern] at h
      -- wherever the bit is put, it leaves the front of those to come
      split_ifs at h
      all_goals
        refine (ih hlen' h).trans (perm_iff_count.mpr fun a => ?_)
        simp only [count_append, count_cons, count_nil]
        omega

section Custom

variable {x₀ x₁ p₀ p₁ v₀ v₁ v₂ v₃ : Fin 8}

/-- The bits of a byte that `encodeBits` makes, and which of them it sets. -/
def signs (x₀ x₁ p₀ p₁ v₀ v₁ v₂ v₃ : Fin 8) (val pos : UInt8) (drop : Option (Fin 8)) :
    List (Fin 8 × Bool) :=
  [(x₀, drop ≠ some x₀), (x₁, drop ≠ some x₁), (p₀, val &&& 0x02 ≠ 0), (p₁, val &&& 0x01 ≠ 0),
    (v₀, (pos >>> 3) &&& 0x01 = 1), (v₁, (pos >>> 2) &&& 0x01 = 1), (v₂, (pos >>> 1) &&& 0x01 = 1),
    (v₃, (pos >>> 0) &&& 0x01 = 1)]

variable {b : UInt8}

theorem mem_padding_iff {t : Pattern} : b ∈ t.padding p₀ p₁ ↔
    (∃ drop ∈ t.xBits, ∃ val < 4, ∃ pos < 16,
      b = t.encodeBits p₀ p₁ (UInt8.ofNat val) (UInt8.ofNat pos) (some drop)) ∧
      5 ≤ onesCount8 b := by
  simp [Pattern.padding, eq_comm]

/-- The value and the place of a group, which make it up. -/
theorem group_parts : ∀ group : UInt8, group < 64 → (group >>> 4) &&& 0x03 < 4 ∧
    group &&& 0x0F < 16 ∧ ((group >>> 4) &&& 0x03) <<< 4 ||| group &&& 0x0F = group :=
  forall_lt_of_fin (n := 64) (by decide +kernel)

theorem clue_parts : ∀ val pos : UInt8, val < 4 → pos < 16 →
    ((val <<< 4 ||| pos) >>> 4) &&& 0x03 = val ∧ (val <<< 4 ||| pos) &&& 0x0F = pos :=
  forall_clue_of_fin (by decide +kernel)

variable {t : Pattern} (ht : t = ⟨[x₀, x₁], [p₀, p₁], [v₀, v₁, v₂, v₃]⟩)
include ht

theorem hasBit_xMask (j : Fin 8) : hasBit t.xMask j = (x₀ == j || x₁ == j) := by
  subst ht
  simp [Pattern.xMask, hasBit_or, hasBit_mask]

theorem hasBit_encodeBits (val pos : UInt8) (drop : Option (Fin 8)) (j : Fin 8) :
    hasBit (t.encodeBits p₀ p₁ val pos drop) j =
      ((signs x₀ x₁ p₀ p₁ v₀ v₁ v₂ v₃ val pos drop).any fun e => e.2 && e.1 == j) := by
  have hx : hasBit (match drop with
      | some bit => t.xMask &&& ~~~ mask bit
      | none => t.xMask) j =
      (decide (drop ≠ some x₀) && x₀ == j || decide (drop ≠ some x₁) && x₁ == j) := by
    cases drop with
    | none => rw [hasBit_xMask ht]; rfl
    | some bit =>
      rw [hasBit_and, hasBit_not, hasBit_xMask ht, hasBit_mask]
      grind
  subst ht
  simp only [Pattern.encodeBits, zipIdx, foldl, hasBit_ite_or, hx, any, signs]
  simp [Bool.or_assoc]

theorem decodeBits_lt (wire : UInt8) : t.decodeBits p₀ p₁ wire < 64 := by
  subst ht
  simp only [Pattern.decodeBits, zipIdx, foldl]
  generalize hasBit wire p₀ = a₀, hasBit wire p₁ = a₁, hasBit wire v₀ = c₀, hasBit wire v₁ = c₁,
    hasBit wire v₂ = c₂, hasBit wire v₃ = c₃
  decide +revert

theorem isHint_iff (wire : UInt8) :
    wire &&& t.xMask = t.xMask ↔ hasBit wire x₀ = true ∧ hasBit wire x₁ = true := by
  constructor
  · intro h
    have hbit := fun j => congrArg (hasBit · j) h
    simp only [hasBit_and, hasBit_xMask ht] at hbit
    exact ⟨by simpa using hbit x₀, by simpa using hbit x₁⟩
  · rintro ⟨h₀, h₁⟩
    refine eq_of_hasBit fun j => ?_
    rw [hasBit_and, hasBit_xMask ht]
    by_cases hj₀ : x₀ = j
    · subst hj₀; simp [h₀]
    · by_cases hj₁ : x₁ = j
      · subst hj₁; simp [h₁]
      · simp [hj₀, hj₁]

variable (hbits : [x₀, x₁, p₀, p₁, v₀, v₁, v₂, v₃].Perm [7, 6, 5, 4, 3, 2, 1, 0])
include hbits

/-- Each bit of the byte says what its symbol stands for. -/
theorem hasBit_of_mem_signs (val pos : UInt8) (drop : Option (Fin 8)) :
    ∀ e ∈ signs x₀ x₁ p₀ p₁ v₀ v₁ v₂ v₃ val pos drop, hasBit (t.encodeBits p₀ p₁ val pos drop) e.1 =
        e.2 := by
  intro e he
  rw [hasBit_encodeBits ht]
  refine any_of_mem ?_ he
  exact hbits.nodup_iff.mpr (by decide)

/-- A value and a place are read back from their byte. -/
theorem decodeBits_encodeBits (val pos : UInt8) (hval : val < 4) (hpos : pos < 16) :
    t.decodeBits p₀ p₁ (t.encodeBits p₀ p₁ val pos none) = val <<< 4 ||| pos := by
  have hread := hasBit_of_mem_signs ht hbits val pos none
  simp only [signs, forall_mem_cons] at hread
  obtain ⟨-, -, hp₀, hp₁, hv₀, hv₁, hv₂, hv₃, -⟩ := hread
  subst ht
  simp only [Pattern.decodeBits, zipIdx, foldl, hp₀, hp₁, hv₀, hv₁, hv₂, hv₃]
  -- what is left is about a value and a place only
  clear hp₀ hp₁ hv₀ hv₁ hv₂ hv₃
  revert val pos
  exact forall_clue_of_fin (by decide +kernel)

/-- With a full value and a full place, most bits are set. -/
theorem onesCount8_encodeBits (drop : Option (Fin 8)) :
    5 ≤ onesCount8 (t.encodeBits p₀ p₁ 3 15 drop) := by
  have hread : ∀ e ∈ [(x₀, decide (drop ≠ some x₀)), (x₁, decide (drop ≠ some x₁)), (p₀, true),
      (p₁, true), (v₀, true), (v₁, true), (v₂, true), (v₃, true)], hasBit _ e.1 = e.2 :=
    hasBit_of_mem_signs ht hbits 3 15 drop
  simp only [forall_mem_cons] at hread
  have hall : (finRange 8).Perm [7, 6, 5, 4, 3, 2, 1, 0] := by decide
  rw [onesCount8, (hall.trans hbits.symm).countP_eq]
  simp [countP_cons, hread]
  omega

theorem encodeBits_isHint (val pos : UInt8) :
    t.encodeBits p₀ p₁ val pos none &&& t.xMask = t.xMask := by
  have hread := hasBit_of_mem_signs ht hbits val pos none
  simp only [signs, forall_mem_cons] at hread
  exact (isHint_iff ht _).mpr ⟨hread.1, hread.2.1⟩

/-- An `x` is missing from the padding. -/
theorem padding_not_hint (hb : b ∈ t.padding p₀ p₁) :
    b &&& t.xMask ≠ t.xMask := by
  intro heq
  obtain ⟨h₀, h₁⟩ := (isHint_iff ht _).mp heq
  obtain ⟨⟨drop, hdrop, val, _, pos, _, rfl⟩, -⟩ := mem_padding_iff.mp hb
  have hread := hasBit_of_mem_signs ht hbits (UInt8.ofNat val) (UInt8.ofNat pos) (some drop)
  simp only [signs, forall_mem_cons] at hread
  obtain ⟨hx₀, hx₁, -⟩ := hread
  simp only [ht, mem_cons, not_mem_nil, or_false] at hdrop
  obtain rfl | rfl := hdrop
  · rw [hx₀] at h₀
    exact of_decide_eq_true h₀ rfl
  · rw [hx₁] at h₁
    exact of_decide_eq_true h₁ rfl

/-- The padding has a byte without the first `x` and one without the second. -/
theorem exists_padding_ne (marker : UInt8) : ∃ b ∈ t.padding p₀ p₁, b ≠ marker := by
  have hmem : ∀ drop ∈ t.xBits, t.encodeBits p₀ p₁ 3 15 (some drop) ∈ t.padding p₀ p₁ :=
    fun drop hdrop => mem_padding_iff.mpr ⟨⟨drop, hdrop, 3, by omega, 15, by omega, rfl⟩,
      onesCount8_encodeBits ht hbits _⟩
  have hbit := fun drop => hasBit_of_mem_signs ht hbits 3 15 (some drop) _
    (mem_cons_of_mem _ mem_cons_self)
  have hnodup : [x₀, x₁, p₀, p₁, v₀, v₁, v₂, v₃].Nodup := hbits.nodup_iff.mpr (by decide)
  by_cases hfirst : t.encodeBits p₀ p₁ 3 15 (some x₀) = marker
  · refine ⟨_, hmem x₁ (by simp [ht]), fun hsecond => ?_⟩
    have heq := hbit x₀
    rw [hfirst, ← hsecond, hbit x₁] at heq
    simp_all
  · exact ⟨_, hmem x₀ (by simp [ht]), hfirst⟩

theorem layout_lawful {name : GoString} {padMarker : UInt8} {pool : List UInt8}
    (hpool : t.padding p₀ p₁ = padMarker :: pool) :
    (t.layout name p₀ p₁ padMarker (padMarker :: pool)).Lawful where
  hint_group group _ := beq_iff_eq.mpr (encodeBits_isHint ht hbits _ _)
  decode_group group hlt := by
    obtain ⟨hval, hpos, heq⟩ := group_parts group hlt
    simp only [Pattern.layout, encodeBits_isHint ht hbits, ne_eq, not_true_eq_false, if_false]
    rw [decodeBits_encodeBits ht hbits _ _ hval hpos, heq]
  decode_lt b := by
    simp only [Pattern.layout]
    split
    · decide
    · exact decodeBits_lt ht b
  groupValid_eq _ := rfl
  encodeHint_eq val pos hval hpos := by
    obtain ⟨hval', hpos'⟩ := clue_parts val pos hval hpos
    simp only [Pattern.layout, hval', hpos']
  marker := beq_eq_false_iff_ne.mpr (padding_not_hint ht hbits (by rw [hpool]; exact mem_cons_self))
  padding b hb := beq_eq_false_iff_ne.mpr (padding_not_hint ht hbits (hpool ▸ hb))
  other := hpool ▸ exists_padding_ne ht hbits padMarker

end Custom

theorem scanPattern_ne_emptyPool {bits : List (Fin 8)} {s : GoString} {t : Pattern} :
    scanPattern bits s t ≠ .error .emptyPool := by
  fun_induction scanPattern bits s t <;> simp_all

/-- A lawful layout, or an error other than an empty padding pool. -/
def Sound : Except LayoutError ByteLayout → Prop
  | .ok layout => layout.Lawful
  | .error e => e ≠ .emptyPool

theorem newCustomLayout_sound (pattern : GoString) : Sound (newCustomLayout pattern) := by
  generalize h : newCustomLayout pattern = r
  unfold newCustomLayout at h
  generalize toLower ((trimSpace pattern).filter (· ≠ 0x20)) = cleaned at h
  by_cases hlen : cleaned.length ≠ 8
  · rw [if_pos hlen] at h
    cases h
    exact nofun
  rw [if_neg hlen] at h
  cases hscan : scanPattern [7, 6, 5, 4, 3, 2, 1, 0] cleaned ⟨[], [], []⟩ with
  | error e =>
    rw [hscan] at h
    cases h
    exact fun he => scanPattern_ne_emptyPool (he ▸ hscan)
  | ok t =>
    rw [hscan] at h
    by_cases hcounts : t.xBits.length ≠ 2 ∨ t.pBits.length ≠ 2 ∨ t.vBits.length ≠ 4
    · cases (if_pos hcounts).symm.trans h
      exact nofun
    replace h := (if_neg hcounts).symm.trans h
    -- the symbols of each kind, as many as there have to be
    simp only [not_or, not_not] at hcounts hlen
    have hperm := scanPattern_perm hlen hscan
    obtain ⟨xBits, pBits, vBits⟩ := t
    obtain ⟨x₀, x₁, rfl⟩ := length_eq_two.mp hcounts.1
    obtain ⟨p₀, p₁, rfl⟩ := length_eq_two.mp hcounts.2.1
    obtain ⟨v₀, vBits, rfl⟩ := exists_cons_of_length_eq_add_one hcounts.2.2
    obtain ⟨v₁, v₂, v₃, rfl⟩ := length_eq_three.mp (Nat.succ.inj hcounts.2.2)
    obtain ⟨b, hb, -⟩ := exists_padding_ne rfl hperm 0
    obtain ⟨padMarker, pool, hpool⟩ := exists_cons_of_ne_nil (ne_nil_of_mem hb)
    simp only [getD_cons_zero, getD_cons_succ, hpool] at h
    cases h
    exact layout_lawful rfl hperm hpool

/-- Whatever layout is chosen, padding is no hint and groups can be read back. -/
theorem resolveLayout_sound (mode customPattern : GoString) :
    Sound (resolveLayout mode customPattern) := by
  unfold resolveLayout
  dsimp only
  split
  · exact newASCIILayout_lawful
  · split
    · split
      · exact newCustomLayout_sound customPattern
      · exact newEntropyLayout_lawful
    · exact nofun

end Hako.Sudoku
