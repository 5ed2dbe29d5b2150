import Hako.GoLib.Utf8

/-!
# IP addresses and prefixes

Go's `netip.Addr` and `netip.Prefix`, with the `netipx` helper for the last address of a
prefix. An address is a number below two to the power of its length in bits; the zero
`Addr` is the one of length zero, so that stepping past either end of a family and the
invalid address are one case.
-/

namespace Hako.GoLib

/-- `netip.Addr`: no address, an IPv4 address, or an IPv6 address with an optional zone. -/
@[ext]
structure Addr where
  bitLen : Nat
  val : Nat
  zone : GoString
  bitLen_eq : bitLen = 0 ∨ bitLen = 32 ∨ bitLen = 128
  val_lt : val < 2 ^ bitLen
  zone_eq : bitLen ≠ 128 → zone = []
deriving DecidableEq

namespace Addr

/-- The zero `Addr`. -/
def zero : Addr := ⟨0, 0, [], .inl rfl, by decide, fun _ => rfl⟩

def isValid (a : Addr) : Bool := a.bitLen != 0

/-- The IPv4 address with the given four bytes. -/
def v4 (a b c d : UInt8) : Addr :=
  ⟨32, ((a.toNat * 256 + b.toNat) * 256 + c.toNat) * 256 + d.toNat, [], .inr (.inl rfl),
    by have := a.toNat_lt; have := b.toNat_lt; have := c.toNat_lt; have := d.toNat_lt; omega,
    fun _ => rfl⟩

/-- The address with another number of the same family. -/
def withVal (a : Addr) (n : Nat) (h : n < 2 ^ a.bitLen) : Addr := { a with val := n, val_lt := h }

/-- `Next`: the following address of the family, or no address. -/
def next (a : Addr) : Addr :=
  if h : a.val + 1 < 2 ^ a.bitLen then a.withVal (a.val + 1) h else zero

/-- `Prev`: the preceding address of the family, or no address. -/
def prev (a : Addr) : Addr :=
  if a.val = 0 then zero else a.withVal (a.val - 1) (Nat.lt_of_le_of_lt (Nat.sub_le _ _) a.val_lt)

/-- `Unmap`: an IPv4-mapped IPv6 address as the IPv4 address. -/
def unmap (a : Addr) : Addr :=
  if a.bitLen = 128 ∧ a.val / 2 ^ 32 = 0xffff then
    ⟨32, a.val % 2 ^ 32, [], .inr (.inl rfl), Nat.mod_lt _ (by decide), fun _ => rfl⟩
  else a

/-- `Less`: by length, then by number, then by zone. -/
def less (a b : Addr) : Bool :=
  a.bitLen < b.bitLen ∨
    a.bitLen = b.bitLen ∧ (a.val < b.val ∨ a.val = b.val ∧ a.bitLen = 128 ∧ a.zone < b.zone)

/-- The `n` low bytes of a number, most significant first. -/
def bytesOf : Nat → Nat → GoString
  | 0, _ => []
  | n + 1, v => bytesOf n (v / 256) ++ [UInt8.ofNat v]

/-- The number with the given bytes, most significant first. -/
def ofBytes (s : GoString) : Nat := s.foldl (fun v b => v * 256 + b.toNat) 0

/-- `AsSlice`: no bytes, four or sixteen; the zone is dropped. -/
def asSlice (a : Addr) : GoString := bytesOf (a.bitLen / 8) a.val

variable (s : GoString) (n v : Nat)

theorem ofBytes_append (b : UInt8) : ofBytes (s ++ [b]) = ofBytes s * 256 + b.toNat := by
  simp [ofBytes]

theorem length_bytesOf : (bytesOf n v).length = n := by
  induction n generalizing v with
  | zero => rfl
  | succ n ih => simp [bytesOf, ih]

theorem ofBytes_bytesOf : ofBytes (bytesOf n v) = v % 256 ^ n := by
  induction n generalizing v with
  | zero => simp [bytesOf, ofBytes, Nat.mod_one]
  | succ n ih =>
    rw [bytesOf, ofBytes_append, ih, UInt8.toNat_ofNat']
    have hmod := Nat.mod_mul (x := v) (a := 256) (b := 256 ^ n)
    rw [show 256 ^ (n + 1) = 256 * 256 ^ n from Nat.pow_succ', hmod]
    omega

theorem bytesOf_ofBytes : bytesOf s.length (ofBytes s) = s := by
  induction s using List.reverseRecOn with
  | nil => rfl
  | append_singleton s b ih =>
    have hb := b.toNat_lt
    have hdiv : (ofBytes s * 256 + b.toNat) / 256 = ofBytes s := by omega
    have hbyte : UInt8.ofNat (ofBytes s * 256 + b.toNat) = b := by
      rw [← UInt8.toNat_inj, UInt8.toNat_ofNat']
      omega
    rw [ofBytes_append, List.length_append, List.length_singleton, bytesOf, hdiv, hbyte, ih]

theorem ofBytes_lt : ofBytes s < 256 ^ s.length := by
  induction s using List.reverseRecOn with
  | nil => decide
  | append_singleton s b ih =>
    have := b.toNat_lt
    rw [ofBytes_append, List.length_append, List.length_singleton, Nat.pow_succ]
    omega

end Addr

/-- `AddrFromSlice`: the address with the given four or sixteen bytes. -/
def addrFromSlice (s : GoString) : Option Addr :=
  if h : s.length = 4 then
    some ⟨32, Addr.ofBytes s, [], .inr (.inl rfl), by
      have := Addr.ofBytes_lt s; rw [h] at this; exact this, fun _ => rfl⟩
  else if h : s.length = 16 then
    some ⟨128, Addr.ofBytes s, [], .inr (.inr rfl), by
      have := Addr.ofBytes_lt s; rw [h] at this; exact this, fun _ => rfl⟩
  else none

namespace Addr

variable {a b : Addr}

/-- The bytes of an address without zone determine it. -/
theorem addrFromSlice_asSlice (hv : a.isValid) (hz : a.zone = []) :
    addrFromSlice a.asSlice = some a := by
  have hlen : a.asSlice.length = a.bitLen / 8 := length_bytesOf _ _
  have hval : ofBytes a.asSlice = a.val % 256 ^ (a.bitLen / 8) := ofBytes_bytesOf _ _
  have hlt := a.val_lt
  rcases a.bitLen_eq with h | h | h
  · simp [isValid, h] at hv
  · rw [h] at hlen hval hlt
    have h4 : a.asSlice.length = 4 := hlen
    have heq : ofBytes a.asSlice = a.val := hval.trans (Nat.mod_eq_of_lt hlt)
    rw [addrFromSlice, dif_pos h4]
    exact congrArg some (Addr.ext h.symm heq hz.symm)
  · rw [h] at hlen hval hlt
    have h16 : a.asSlice.length = 16 := hlen
    have heq : ofBytes a.asSlice = a.val := hval.trans (Nat.mod_eq_of_lt hlt)
    rw [addrFromSlice, dif_neg (by omega), dif_pos h16]
    exact congrArg some (Addr.ext h.symm heq hz.symm)

theorem asSlice_ne_nil (hv : a.isValid) : a.asSlice ≠ [] := by
  intro h
  have hlen : a.asSlice.length = a.bitLen / 8 := length_bytesOf _ _
  rw [h, List.length_nil] at hlen
  have := a.bitLen_eq
  simp only [isValid, bne_iff_ne] at hv
  omega

/-- Addresses without zone differ in their bytes. -/
theorem asSlice_inj (ha : a.zone = []) (hb : b.zone = []) (h : a.asSlice = b.asSlice) : a = b := by
  have hlen := congrArg List.length h
  have hval := congrArg ofBytes h
  simp only [asSlice, length_bytesOf, ofBytes_bytesOf] at hlen hval
  have hbit : a.bitLen = b.bitLen := by
    have := a.bitLen_eq
    have := b.bitLen_eq
    omega
  have hpow : 256 ^ (b.bitLen / 8) = 2 ^ b.bitLen := by
    rcases b.bitLen_eq with h | h | h <;> rw [h] <;> rfl
  rw [hbit, hpow, Nat.mod_eq_of_lt (hbit ▸ a.val_lt), Nat.mod_eq_of_lt b.val_lt] at hval
  exact Addr.ext hbit hval (ha.trans hb.symm)

/-! ### Order -/

theorem less_iff : a.less b ↔ a.bitLen < b.bitLen ∨
    a.bitLen = b.bitLen ∧ (a.val < b.val ∨ a.val = b.val ∧ a.bitLen = 128 ∧ a.zone < b.zone) := by
  simp [less]

/-- Among addresses of one family without zone the order is that of the numbers. -/
theorem less_iff_val_lt (hlen : a.bitLen = b.bitLen) (hb : b.zone = []) :
    a.less b ↔ a.val < b.val := by
  simp [less_iff, hlen, hb]

@[simp]
theorem isValid_iff : a.isValid ↔ a.bitLen ≠ 0 := by simp [isValid]

theorem next_of_lt (h : a.val + 1 < 2 ^ a.bitLen) : a.next = a.withVal (a.val + 1) h := dif_pos h

/-- A valid successor is the next number of the family. -/
theorem next_valid (h : a.next.isValid) :
    a.next.bitLen = a.bitLen ∧ a.next.val = a.val + 1 ∧ a.next.zone = a.zone := by
  by_cases hlt : a.val + 1 < 2 ^ a.bitLen
  · rw [next_of_lt hlt]
    exact ⟨rfl, rfl, rfl⟩
  · rw [next, dif_neg hlt] at h
    exact absurd h (by decide)

theorem valid_of_next_valid (h : a.next.isValid) : a.isValid := by
  have hlen := (next_valid h).1
  rw [isValid_iff] at h ⊢
  omega

/-- A predecessor above zero is the previous number of the family. -/
theorem prev_of_pos (h : 0 < a.val) :
    a.prev.bitLen = a.bitLen ∧ a.prev.val = a.val - 1 ∧ a.prev.zone = a.zone := by
  rw [prev, if_neg (by omega)]
  exact ⟨rfl, rfl, rfl⟩

end Addr

/-! ### Prefixes -/

/-- `netip.Prefix`; it is valid when `isValid` holds. -/
structure Prefix where
  addr : Addr
  bits : Nat
deriving DecidableEq

namespace Prefix

/-- A valid prefix has a valid address without zone and at most as many bits as it. -/
def isValid (p : Prefix) : Bool := p.addr.isValid ∧ p.addr.zone = [] ∧ p.bits ≤ p.addr.bitLen

/-- The number of addresses of the prefix. -/
def card (p : Prefix) : Nat := 2 ^ (p.addr.bitLen - p.bits)

theorem card_pos (p : Prefix) : 0 < p.card := Nat.two_pow_pos _

/-- The number of the address with the host bits cleared. -/
def base (p : Prefix) : Nat := p.addr.val / p.card * p.card

theorem base_le (p : Prefix) : p.base ≤ p.addr.val := Nat.div_mul_le_self _ _

/-- The prefix's addresses fit below the end of the family. -/
theorem base_add_card_le (p : Prefix) (hb : p.bits ≤ p.addr.bitLen) :
    p.base + p.card ≤ 2 ^ p.addr.bitLen := by
  have hpow : 2 ^ p.addr.bitLen = 2 ^ p.bits * p.card := by
    rw [card, ← Nat.pow_add, Nat.add_sub_cancel' hb]
  have hdiv : p.addr.val / p.card < 2 ^ p.bits :=
    Nat.div_lt_of_lt_mul (Nat.mul_comm _ p.card ▸ hpow ▸ p.addr.val_lt)
  calc p.base + p.card = (p.addr.val / p.card + 1) * p.card := (Nat.succ_mul _ _).symm
    _ ≤ 2 ^ p.bits * p.card := Nat.mul_le_mul_right _ hdiv
    _ = 2 ^ p.addr.bitLen := hpow.symm

/-- `Masked().Addr()`: the network address. -/
def maskedAddr (p : Prefix) : Addr :=
  if p.isValid then p.addr.withVal p.base (Nat.lt_of_le_of_lt p.base_le p.addr.val_lt) else .zero

/-- `Contains`: an address of the same family, without zone, with the same network bits. -/
def contains (p : Prefix) (a : Addr) : Bool :=
  p.isValid ∧ a.zone = [] ∧ a.bitLen = p.addr.bitLen ∧ a.val / p.card = p.addr.val / p.card

end Prefix

/-- `netipx.PrefixLastIP`, by its documentation: all host bits set. -/
def prefixLastIP (p : Prefix) : Addr :=
  if h : p.isValid then
    p.addr.withVal (p.base + (p.card - 1)) (by
      have hb : p.bits ≤ p.addr.bitLen := by simp [Prefix.isValid] at h; exact h.2.2
      have := p.base_add_card_le hb
      have := p.card_pos
      omega)
  else .zero

end Hako.GoLib
