import Hako.Trie.DomainSetBin

/-!
# Sets of IP ranges in binary form

`WriteBin` writes both ends of a range as IPv6 addresses, and `ReadIpCidrSet` takes every end that
is IPv4-mapped for an IPv4 address. An IPv6 range that begins or ends among the IPv4-mapped
addresses is not read as it was written.
-/

namespace Hako.Cidr

open GoLib GoLib.Binary Lib List Trie Addr

/-- `netipx.IPRange` -/
structure IPRange where
  from_ : Addr
  to_ : Addr
  deriving DecidableEq

/-- `netipx.RangeOfPrefix`, without ends if the prefix is not valid. The functions of `netipx` are
what its documentation says. -/
def rangeOfPrefix (p : Prefix) : IPRange := ⟨p.maskedAddr, prefixLastIP p⟩

def IPRange.isValid (r : IPRange) : Bool :=
  r.from_.isValid && r.from_.bitLen == r.to_.bitLen && r.from_.zone == r.to_.zone &&
    !r.to_.less r.from_

/-- `AddIpCidr`; none if the prefix is refused. -/
def addIpCidr (rr : List IPRange) (ipCidr : Prefix) : Option (List IPRange) :=
  if (rangeOfPrefix ipCidr).isValid then some (rr ++ [rangeOfPrefix ipCidr]) else none

def IPRange.contains (r : IPRange) (ip : Addr) : Bool := !ip.less r.from_ && !r.to_.less ip

/-- `ip.WithZone("")` -/
def withoutZone (ip : Addr) : Addr := { ip with zone := [], zone_eq := fun _ => rfl }

/-- `IsContain`, where the set of `netipx` is the union of its ranges. -/
def isContain (rr : List IPRange) (ip : Addr) : Bool := rr.any (·.contains (withoutZone ip))

/-- The number of an address as an IPv6 address. -/
def val16 (a : Addr) : Nat := if a.bitLen = 32 then 0xffff * 2 ^ 32 + a.val else a.val

def as16 (a : Addr) : List UInt8 := bytesOf 16 (val16 a)

/-- `WriteBin` to a writer that does not fail. -/
def writeBin (rr : List IPRange) : List UInt8 :=
  [1] ++ putUint64 (.ofNat rr.length) ++ rr.flatMap fun r => as16 r.from_ ++ as16 r.to_

def readAddr (r : List UInt8) : Except ReadError (Addr × List UInt8) := do
  let (a16, r) ← readFull 16 r
  return (((addrFromSlice a16).getD .zero).unmap, r)

def readRanges : Nat → List UInt8 → Except ReadError (List IPRange × List UInt8)
  | 0, r => .ok ([], r)
  | n + 1, r => do
    let (from_, r) ← readAddr r
    let (to_, r) ← readAddr r
    let (rr, r) ← readRanges n r
    return (⟨from_, to_⟩ :: rr, r)

/-- `ReadIpCidrSet`: the ranges, and what is left of the stream. -/
def readIpCidrSet (r : List UInt8) : Except ReadError (List IPRange × List UInt8) := do
  let (version, r) ← readFull 1 r
  if version ≠ [1] then throw (.invalid "version is invalid")
  else
    let (length, r) ← readLength r
    readRanges length r

/-! ### Merged sets -/

/-- The place of an address in the order of all addresses, where IPv4 is before IPv6. -/
def place (a : Addr) : Nat := a.bitLen * 2 ^ 128 + a.val

/-- What `Merge` makes of the ranges of the prefixes: ranges with the same addresses that are
sorted, disjoint and not adjacent. -/
structure IsMerge (prefixes : List Prefix) (merged : List IPRange) : Prop where
  union : ∃ rr, prefixes.foldlM addIpCidr [] = some rr ∧ ∀ ip, isContain merged ip = isContain rr ip
  valid : ∀ r ∈ merged, r.isValid ∧ r.from_.zone = []
  separated : merged.Pairwise fun r r' => place r.to_ + 1 < place r'.from_

/-- `Is4In6` -/
def Is4In6 (a : Addr) : Prop := a.bitLen = 128 ∧ a.val / 2 ^ 32 = 0xffff

/-- A range as it is read again. -/
def IPRange.unmap (r : IPRange) : IPRange := ⟨r.from_.unmap, r.to_.unmap⟩

variable {a b ip : Addr} {r r' : IPRange} {rr merged : List IPRange} {prefixes : List Prefix}

theorem val_lt (a : Addr) : a.val < 2 ^ 128 :=
  a.val_lt.trans_le (Nat.pow_le_pow_right two_pos (by have := a.bitLen_eq; omega))

theorem less_iff_place (ha : a.zone = []) (hb : b.zone = []) : a.less b ↔ place a < place b := by
  have := val_lt a
  have := val_lt b
  have hnil : ¬([] : GoString) < [] := by decide
  simp only [less_iff, ha, hb, hnil, and_false, or_false, place]
  omega

theorem isContain_iff (hzone : ∀ r ∈ rr, r.from_.zone = [] ∧ r.to_.zone = []) :
    isContain rr ip ↔ ∃ r ∈ rr, place r.from_ ≤ place ip ∧ place ip ≤ place r.to_ := by
  simp only [isContain, any_eq_true, IPRange.contains, Bool.and_eq_true, Bool.not_eq_true',
    Bool.eq_false_iff]
  refine exists_congr fun r => and_congr_right fun hr => ?_
  rw [Ne, Ne, less_iff_place rfl (hzone r hr).1, less_iff_place (hzone r hr).2 rfl, not_lt, not_lt]
  rfl

theorem unmap_of_not (h : ¬Is4In6 a) : a.unmap = a := if_neg h

theorem place_unmap_lt (h : Is4In6 a) : place a.unmap < 128 * 2 ^ 128 := by
  have hunmap : a.unmap.bitLen = 32 := by rw [unmap, if_pos (by exact h)]
  have hlt := a.unmap.val_lt
  rw [hunmap] at hlt
  rw [place, hunmap]
  omega

theorem zone_unmap (h : a.zone = []) : a.unmap.zone = [] := by
  unfold unmap
  split_ifs
  · rfl
  · exact h

namespace IsMerge

variable (h : IsMerge prefixes merged)
include h

theorem spec (hr : r ∈ merged) : r.from_.isValid ∧ r.to_.isValid ∧ r.from_.zone = [] ∧
    r.to_.zone = [] ∧ place r.from_ ≤ place r.to_ := by
  obtain ⟨hvalid, hzone⟩ := h.valid r hr
  simp only [IPRange.isValid, Bool.and_eq_true, beq_iff_eq, Bool.not_eq_true'] at hvalid
  obtain ⟨⟨⟨hfrom, hlen⟩, heq⟩, hless⟩ := hvalid
  have hto : r.to_.zone = [] := heq ▸ hzone
  refine ⟨hfrom, ?_, hzone, hto, ?_⟩
  · rwa [isValid_iff, ← hlen, ← isValid_iff]
  · rw [← not_lt, ← less_iff_place hto hzone, hless]
    exact Bool.false_ne_true

theorem apart (hr : r ∈ merged) (hr' : r' ∈ merged) :
    r = r' ∨ place r.to_ + 1 < place r'.from_ ∨ place r'.to_ + 1 < place r.from_ := by
  let R : IPRange → IPRange → Prop := fun r r' =>
    place r.to_ + 1 < place r'.from_ ∨ place r'.to_ + 1 < place r.from_
  have hsymm : Std.Symm R := ⟨fun _ _ => Or.symm⟩
  have hpairwise : merged.Pairwise R := h.separated.imp Or.inl
  exact or_iff_not_imp_left.mpr (hpairwise.forall hr hr')

theorem isContain_merged_iff :
    isContain merged ip ↔ ∃ r ∈ merged, place r.from_ ≤ place ip ∧ place ip ≤ place r.to_ :=
  isContain_iff fun _ hr => ⟨(h.spec hr).2.2.1, (h.spec hr).2.2.2.1⟩

theorem isContain_unmap_iff : isContain (merged.map IPRange.unmap) ip ↔
    ∃ r ∈ merged, place r.from_.unmap ≤ place ip ∧ place ip ≤ place r.to_.unmap := by
  rw [isContain_iff]
  · simp only [mem_map, exists_exists_and_eq_and, IPRange.unmap]
  · rintro _ hmem
    obtain ⟨r, hr, rfl⟩ := mem_map.mp hmem
    exact ⟨zone_unmap (h.spec hr).2.2.1, zone_unmap (h.spec hr).2.2.2.1⟩

/-- A range from an IPv4-mapped address to one that is not would take in the address before it. -/
theorem to_of_from (hsame : ∀ ip, isContain (merged.map IPRange.unmap) ip = isContain merged ip)
    (hr : r ∈ merged) (hfrom : Is4In6 r.from_) : Is4In6 r.to_ := by
  by_contra hto
  obtain ⟨-, -, -, -, hle⟩ := h.spec hr
  have hunmap := place_unmap_lt hfrom
  obtain ⟨hlen, hval⟩ := hfrom
  obtain ⟨hplen, hpval, -⟩ := prev_of_pos (a := r.from_) (by omega)
  have hprev : place r.from_.prev + 1 = place r.from_ ∧ 128 * 2 ^ 128 ≤ place r.from_.prev := by
    simp only [place, hplen, hpval, hlen]
    omega
  have hread : isContain (merged.map IPRange.unmap) r.from_.prev := by
    rw [h.isContain_unmap_iff]
    refine ⟨r, hr, by omega, ?_⟩
    rw [unmap_of_not hto]
    omega
  rw [hsame, h.isContain_merged_iff] at hread
  obtain ⟨r', hr', hle', hge'⟩ := hread
  rcases h.apart hr hr' with rfl | hlt | hlt <;> omega

/-- The set that is read contains the same addresses exactly if no end of a range is an
IPv4-mapped IPv6 address. -/
theorem isContain_unmap_eq_iff :
    (∀ ip, isContain (merged.map IPRange.unmap) ip = isContain merged ip) ↔
      ∀ r ∈ merged, ¬Is4In6 r.from_ ∧ ¬Is4In6 r.to_ := by
  constructor
  · intro hsame r hr
    have hto : ¬Is4In6 r.to_ := by
      intro hmapped
      obtain ⟨-, -, -, -, hle⟩ := h.spec hr
      have hread : isContain merged r.to_ := h.isContain_merged_iff.mpr ⟨r, hr, hle, le_rfl⟩
      rw [← hsame, h.isContain_unmap_iff] at hread
      obtain ⟨r', hr', hle', hge'⟩ := hread
      have hplace : 128 * 2 ^ 128 ≤ place r.to_ := by
        rw [place, hmapped.1]
        omega
      -- a range that ends in IPv6 after reading was read as it was written
      have hto' : ¬Is4In6 r'.to_ := fun h' => by
        have := place_unmap_lt h'
        omega
      rw [unmap_of_not hto'] at hge'
      rw [unmap_of_not fun h' => hto' (h.to_of_from hsame hr' h')] at hle'
      rcases h.apart hr hr' with rfl | hlt | hlt
      · exact hto' hmapped
      · omega
      · omega
    exact ⟨fun h' => hto (h.to_of_from hsame hr h'), hto⟩
  · intro hends ip
    have hid : merged.map IPRange.unmap = merged := by
      refine (map_congr_left fun r hr => ?_).trans merged.map_id
      rw [IPRange.unmap, unmap_of_not (hends r hr).1, unmap_of_not (hends r hr).2]
      rfl
    rw [hid]

end IsMerge

/-! ### Reading what was written -/

theorem readAddr_as16 (hvalid : a.isValid) (hzone : a.zone = []) (stream : List UInt8) :
    readAddr (as16 a ++ stream) = .ok (a.unmap, stream) := by
  have hlt := a.val_lt
  have hlt6 : val16 a < 2 ^ 128 := by
    unfold val16
    split_ifs with h
    · rw [h] at hlt
      omega
    · exact val_lt a
  obtain ⟨a6, hbits, hval, hzone6⟩ : ∃ a6 : Addr, a6.bitLen = 128 ∧ a6.val = val16 a ∧ a6.zone = [] :=
    ⟨⟨128, val16 a, [], .inr (.inr rfl), hlt6, fun _ => rfl⟩, rfl, rfl, rfl⟩
  have hslice : addrFromSlice (as16 a) = some a6 := by
    rw [← addrFromSlice_asSlice (by simp [hbits]) hzone6, asSlice, hbits, hval, as16]
  have hunmap : a6.unmap = a.unmap := by
    rcases a.bitLen_eq with h | h | h
    · simp [h] at hvalid
    · rw [val16, if_pos h] at hval
      rw [h] at hlt
      rw [unmap, if_pos (by omega), unmap, if_neg (by omega)]
      exact Addr.ext h.symm (by dsimp only; omega) hzone.symm
    · rw [val16, if_neg (by omega)] at hval
      rw [Addr.ext (hbits.trans h.symm) hval (hzone6.trans hzone.symm)]
  have hlen : (as16 a).length = 16 := length_bytesOf _ _
  rw [readAddr, readFull_append hlen, ok_bind]
  dsimp only
  rw [hslice, Option.getD_some, hunmap]
  rfl

theorem readRanges_write (hranges : ∀ r ∈ rr, r.from_.isValid ∧ r.to_.isValid ∧ r.from_.zone = [] ∧
      r.to_.zone = [] ∧ place r.from_ ≤ place r.to_) (stream : List UInt8) :
    readRanges rr.length (rr.flatMap (fun r => as16 r.from_ ++ as16 r.to_) ++ stream) =
      .ok (rr.map IPRange.unmap, stream) := by
  induction rr with
  | nil => rfl
  | cons r rr ih =>
    obtain ⟨⟨hfrom, hto, hzone, hzone', -⟩, hrr⟩ := forall_mem_cons.mp hranges
    rw [length_cons, flatMap_cons, append_assoc, append_assoc, readRanges,
      readAddr_as16 hfrom hzone, ok_bind]
    dsimp only
    rw [readAddr_as16 hto hzone', ok_bind]
    dsimp only
    rw [ih hrr]
    rfl

/-- A merged set is read with the same addresses as it was written exactly if no end of a range is
an IPv4-mapped IPv6 address. -/
theorem readIpCidrSet_same_iff (h : IsMerge prefixes merged) (hne : merged ≠ [])
    (hlen : merged.length < 2 ^ 63) :
    (∃ rr, readIpCidrSet (writeBin merged) = .ok (rr, []) ∧
      ∀ ip, isContain rr ip = isContain merged ip) ↔
        ∀ r ∈ merged, ¬Is4In6 r.from_ ∧ ¬Is4In6 r.to_ := by
  have hread : readIpCidrSet (writeBin merged) = .ok (merged.map IPRange.unmap, []) := by
    have hranges := readRanges_write (fun _ => h.spec) []
    rw [append_nil] at hranges
    rw [writeBin, append_assoc, readIpCidrSet,
      readFull_append (length_singleton : [(1 : UInt8)].length = 1), ok_bind]
    dsimp only
    rw [if_neg (not_not_intro rfl), readLength_putUint64 (length_pos_iff.mpr hne) hlen, ok_bind]
    exact hranges
  rw [hread, ← h.isContain_unmap_eq_iff]
  constructor
  · rintro ⟨rr, heq, hsame⟩
    cases heq
    exact hsame
  · exact fun hsame => ⟨_, rfl, hsame⟩

/-- The set of `10.0.0.0/8`. -/
theorem readIpCidrSet_same_ten :
    ∃ rr, readIpCidrSet (writeBin [⟨.v4 10 0 0 0, .v4 10 255 255 255⟩]) = .ok (rr, []) ∧
      ∀ ip, isContain rr ip = isContain [⟨.v4 10 0 0 0, .v4 10 255 255 255⟩] ip := by
  have h : IsMerge [⟨.v4 10 0 0 0, 8⟩] [⟨.v4 10 0 0 0, .v4 10 255 255 255⟩] :=
    ⟨⟨_, by decide, fun _ => rfl⟩, by decide, pairwise_singleton _ _⟩
  exact (readIpCidrSet_same_iff h (by simp) (by simp)).mpr (by simp [Is4In6, v4])

/-- The set of `::/80` ends with an IPv4-mapped address. It is read without any of its addresses. -/
theorem readIpCidrSet_loses :
    let zero6 : Addr := ⟨128, 0, [], .inr (.inr rfl), by decide, fun _ => rfl⟩
    ∃ merged rr, IsMerge [⟨zero6, 80⟩] merged ∧ readIpCidrSet (writeBin merged) = .ok (rr, []) ∧
      isContain merged zero6 ∧ ¬isContain rr zero6 := by
  intro zero6
  exact ⟨[rangeOfPrefix ⟨zero6, 80⟩], [⟨zero6, .v4 255 255 255 255⟩],
    ⟨⟨[rangeOfPrefix ⟨zero6, 80⟩], by decide, fun _ => rfl⟩, by decide, pairwise_singleton _ _⟩,
    by decide, by decide, by decide⟩

end Hako.Cidr
