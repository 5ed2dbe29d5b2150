import Hako.GoLib.Codec
import Hako.GoLib.Binary

/-!
# The OpenVPN data channel

`Encrypt` gives every packet the next packet id and seals both, either with an AEAD cipher, which
has the id in its nonce and its additional data, or with CBC and a keyed hash, which has the id in
front of the plaintext. `Decrypt` takes a packet apart again, checks it, and then asks a window of
64 bits below the highest id whether the id is new.

The ciphers are ideal: a packet that passes the check is one that the peer has made, as far as the
check covers it. With CBC it does not cover the header.
-/

namespace Hako.OpenVPN.Data

open GoLib Binary List Option Function Nat

/-! ### The replay window -/

structure ReplayWindow where
  recvHighest : UInt32
  recvWindow : BitVec 64
  recvSeen : Bool

def dataChannelReplayWindow : Nat := 64

/-- `acceptPacketID`; none if the id is refused as replayed. -/
def acceptPacketID (w : ReplayWindow) (packetID : UInt32) : Option ReplayWindow :=
  if ¬ w.recvSeen then some ⟨packetID, 1, true⟩
  else if w.recvHighest < packetID then
    let shift := (packetID - w.recvHighest).toNat
    if dataChannelReplayWindow ≤ shift then some ⟨packetID, 1, true⟩
    else some ⟨packetID, w.recvWindow <<< shift ||| 1, true⟩
  else
    let diff := (w.recvHighest - packetID).toNat
    if dataChannelReplayWindow ≤ diff then none
    else
      let mask := 1#64 <<< diff
      if w.recvWindow &&& mask ≠ 0 then none
      else some { w with recvWindow := w.recvWindow ||| mask }

/-- A window stands for a set of ids: it has the highest one, and a bit for each of the 64 below. -/
structure Stands (w : ReplayWindow) (accepted : Set UInt32) : Prop where
  empty : w.recvSeen = false → accepted = ∅
  highest_mem : w.recvSeen = true → w.recvHighest ∈ accepted
  le_highest : ∀ id ∈ accepted, id.toNat ≤ w.recvHighest.toNat
  bit : w.recvSeen = true → ∀ {id : UInt32} {diff : Nat}, w.recvHighest.toNat = id.toNat + diff →
    diff < 64 → (w.recvWindow.getLsbD diff = true ↔ id ∈ accepted)

variable {packet bytes : List UInt8} {iv : Option (List.Vector UInt8 blockSize)} {packetID : UInt32}

theorem getLsbD_mask {i diff : Nat} (hdiff : diff < 64) :
    (1#64 <<< diff).getLsbD i = decide (i = diff) := by
  rw [← BitVec.twoPow_eq, BitVec.getLsbD_twoPow]
  simp [hdiff, eq_comm]

theorem and_mask_ne_zero {window : BitVec 64} {diff : Nat} (hdiff : diff < 64) :
    window &&& 1#64 <<< diff ≠ 0 ↔ window.getLsbD diff = true := by
  rw [← BitVec.twoPow_eq, BitVec.and_twoPow]
  refine ite_ne_right_iff.trans (and_iff_left fun hzero => ?_)
  have hbit := congrArg (·.getLsbD diff) hzero
  simp [hdiff] at hbit

section Window

variable {w : ReplayWindow} {accepted : Set UInt32} {id : UInt32}

/-- A window with one id. -/
theorem stands_only (hbelow : ∀ other ∈ accepted, other.toNat + 64 ≤ id.toNat) :
    Stands ⟨id, 1, true⟩ (insert id accepted) where
  empty := nofun
  highest_mem _ := Set.mem_insert _ _
  le_highest other hother := by
    obtain rfl | hother := hother
    · exact le_refl _
    · exact le_of_add_right_le (hbelow other hother)
  bit _ {other diff} heq hdiff := by
    have heq : id.toNat = other.toNat + diff := heq
    change (1#64).getLsbD diff = true ↔ _
    rw [BitVec.getLsbD_one, Set.mem_insert_iff]
    simp only [zero_lt_succ, decide_true, Bool.true_and, decide_eq_true_eq]
    constructor
    · rintro rfl
      exact .inl (UInt32.toNat_inj.mp heq.symm)
    · rintro (rfl | hother)
      · omega
      · have := hbelow other hother
        omega

variable (h : Stands w accepted)
include h

/-- A higher id shifts the window. -/
theorem Stands.shift (hseen : w.recvSeen = true) {shift : Nat}
    (hshift : id.toNat = w.recvHighest.toNat + shift) (hpos : 0 < shift) (hlt : shift < 64) :
    Stands ⟨id, w.recvWindow <<< shift ||| 1, true⟩ (insert id accepted) where
  empty := nofun
  highest_mem _ := Set.mem_insert _ _
  le_highest other hother := by
    obtain rfl | hother := hother
    · exact le_refl _
    · have := h.le_highest other hother
      change other.toNat ≤ id.toNat
      omega
  bit _ {other diff} heq hdiff := by
    have heq : id.toNat = other.toNat + diff := heq
    change (w.recvWindow <<< shift ||| 1#64).getLsbD diff = true ↔ _
    rw [BitVec.getLsbD_or, BitVec.getLsbD_shiftLeft, BitVec.getLsbD_one, Set.mem_insert_iff]
    obtain rfl | hdiff0 := Nat.eq_zero_or_pos diff
    · exact ⟨fun _ => .inl (UInt32.toNat_inj.mp heq.symm), fun _ => by simp⟩
    · have hne : other ≠ id := fun heq' => by
        rw [heq'] at heq
        omega
      simp only [hne, false_or, ne_of_gt hdiff0, decide_false, Bool.and_false, Bool.or_false,
        hdiff, decide_true, Bool.true_and, Bool.and_eq_true, Bool.not_eq_true',
        decide_eq_false_iff_not]
      by_cases hold : diff < shift
      · -- above the old highest id
        refine ⟨fun hbit => absurd hold hbit.1, fun hmem => ?_⟩
        have := h.le_highest other hmem
        omega
      · have hsub : w.recvHighest.toNat = other.toNat + (diff - shift) := by omega
        rw [h.bit hseen hsub (by omega)]
        exact ⟨fun hmem => hmem.2, fun hmem => ⟨hold, hmem⟩⟩

/-- A lower id sets its bit. -/
theorem Stands.set (hseen : w.recvSeen = true) {diff : Nat}
    (hdiff : w.recvHighest.toNat = id.toNat + diff) (hlt : diff < 64) :
    Stands { w with recvWindow := w.recvWindow ||| 1#64 <<< diff } (insert id accepted) where
  empty hnot := by
    rw [hseen] at hnot
    cases hnot
  highest_mem _ := Set.mem_insert_of_mem _ (h.highest_mem hseen)
  le_highest other hother := by
    obtain rfl | hother := hother
    · change other.toNat ≤ w.recvHighest.toNat
      omega
    · exact h.le_highest other hother
  bit _ {other diff'} heq hlt' := by
    have heq : w.recvHighest.toNat = other.toNat + diff' := heq
    rw [BitVec.getLsbD_or, getLsbD_mask hlt, Set.mem_insert_iff, Bool.or_eq_true,
      h.bit hseen heq hlt', decide_eq_true_eq, or_comm]
    refine or_congr_left ⟨fun hsame => UInt32.toNat_inj.mp (by omega), fun hsame => ?_⟩
    rw [hsame] at heq
    omega

/-- An id is accepted if it is new, and refused only if it was accepted or is too far below the
highest one. -/
theorem Stands.accept (id : UInt32) :
    match acceptPacketID w id with
    | some w' => id ∉ accepted ∧ Stands w' (insert id accepted)
    | none => id ∈ accepted ∨ ∃ high ∈ accepted, id.toNat + 64 ≤ high.toNat := by
  cases hseen : w.recvSeen with
  | false =>
    obtain rfl := h.empty hseen
    simp only [acceptPacketID, hseen, Bool.false_eq_true, not_false_eq_true, if_true]
    exact ⟨Set.notMem_empty _, stands_only nofun⟩
  | true =>
    rw [acceptPacketID, if_neg (not_not.mpr hseen)]
    by_cases hhigher : w.recvHighest < id
    · have hlt := UInt32.lt_iff_toNat_lt.mp hhigher
      have hnew : id ∉ accepted := fun hmem => not_le.mpr hlt (h.le_highest id hmem)
      have hsub := UInt32.toNat_sub_of_le _ _ (UInt32.le_of_lt hhigher)
      rw [if_pos hhigher]
      by_cases hfar : dataChannelReplayWindow ≤ (id - w.recvHighest).toNat
      · rw [if_pos hfar]
        refine ⟨hnew, stands_only fun other hother => ?_⟩
        have hle := h.le_highest other hother
        rw [hsub, dataChannelReplayWindow] at hfar
        omega
      · rw [if_neg hfar]
        refine ⟨hnew, h.shift hseen ?_ ?_ (not_le.mp hfar)⟩
        · omega
        · omega
    · have hle : id ≤ w.recvHighest := UInt32.not_lt.mp hhigher
      have hle' := UInt32.le_iff_toNat_le.mp hle
      have hsub := UInt32.toNat_sub_of_le _ _ hle
      have hdiff : w.recvHighest.toNat = id.toNat + (w.recvHighest - id).toNat := by omega
      rw [if_neg hhigher]
      by_cases hfar : dataChannelReplayWindow ≤ (w.recvHighest - id).toNat
      · rw [if_pos hfar]
        refine .inr ⟨w.recvHighest, h.highest_mem hseen, ?_⟩
        rw [dataChannelReplayWindow] at hfar
        omega
      · have hlt := not_le.mp hfar
        have hbit := h.bit hseen hdiff hlt
        rw [if_neg hfar]
        by_cases hset : w.recvWindow &&& 1#64 <<< (w.recvHighest - id).toNat ≠ 0
        · rw [if_pos hset]
          exact .inl (hbit.mp ((and_mask_ne_zero hlt).mp hset))
        · rw [if_neg hset]
          exact ⟨fun hmem => hset ((and_mask_ne_zero hlt).mpr (hbit.mpr hmem)),
            h.set hseen hdiff hlt⟩

end Window

/-! ### Packets -/

/-- Why `Encrypt` or `Decrypt` fails. -/
inductive DataError where
  | packetIDExhausted
  | random
  | emptyPacket
  | missingPeerID
  | notData (opcode : UInt8)
  | tooShort
  | openFailed
  | cbcTooShort
  | hmacFailed
  | ciphertextLength
  | paddingLength
  | padding
  | missingPacketID
  | replayed (packetID : UInt32)
deriving DecidableEq

def peerIDUnset : UInt32 := 0xffffff

/-- `opcodeKeyID` -/
def opcodeKeyID (opcode keyID : UInt8) : UInt8 := opcode <<< 3 ||| (keyID &&& 7)

/-- `P_DATA_V1` and `P_DATA_V2`. -/
def pDataV1 : UInt8 := 6

def pDataV2 : UInt8 := 9

def dataHeader (peerID : UInt32) (keyID : UInt8) : List UInt8 :=
  if peerID ≠ peerIDUnset then
    [opcodeKeyID pDataV2 keyID, (peerID >>> 16).toUInt8, (peerID >>> 8).toUInt8, peerID.toUInt8]
  else [opcodeKeyID pDataV1 keyID]

def dataPacketHeaderSize (packet : List UInt8) : Except DataError Nat :=
  match packet with
  | [] => .error .emptyPacket
  | b :: _ =>
    let opcode := b >>> 3
    if opcode = pDataV1 then .ok 1
    else if opcode = pDataV2 then if packet.length < 4 then .error .missingPeerID else .ok 4
    else .error (.notData opcode)

def dataChannelTagSize : Nat := 16

def dataChannelIVSize : Nat := 12

/-- `nonce` -/
def nonce (packetID : UInt32) (implicit : List UInt8) : List UInt8 :=
  putUint32 (uint32 implicit ^^^ packetID) ++ implicit.drop 4

/-- The keys of one direction. -/
inductive Cipher where
  | aead (a : AEAD) (implicitIV : List.Vector UInt8 dataChannelIVSize)
  | cbc (block : CBC) (mac : MAC)

variable {cipher : Cipher}

/-- `encryptAEAD` -/
def encryptAEAD (aead : AEAD) (implicitIV header : List UInt8) (packetID : UInt32)
    (packet : List UInt8) : List UInt8 :=
  let ad := header ++ putUint32 packetID
  let sealed := aead.sealText (nonce packetID implicitIV) packet ad
  header ++ putUint32 packetID ++ sealed.drop (sealed.length - dataChannelTagSize) ++
    sealed.take (sealed.length - dataChannelTagSize)

/-- What `encryptCBC` puts behind a plaintext of some length. -/
def cbcPadding (plainLen : Nat) : Nat :=
  let padding := blockSize - plainLen % blockSize
  if padding = 0 then blockSize else padding

/-- What the hash of `encryptCBC` is computed over. -/
def cbcAuthenticated (block : CBC) (iv : List UInt8) (packetID : UInt32) (packet : List UInt8) :
    List UInt8 :=
  let plain := putUint32 packetID ++ packet
  iv ++ block.encrypt iv
    (plain ++ List.replicate (cbcPadding plain.length) (UInt8.ofNat (cbcPadding plain.length)))

/-- `encryptCBC` -/
def encryptCBC (block : CBC) (mac : MAC) (header iv : List UInt8) (packetID : UInt32)
    (packet : List UInt8) : List UInt8 :=
  let authenticated := cbcAuthenticated block iv packetID packet
  header ++ mac.sum authenticated ++ authenticated

/-- The second half of `Encrypt`. Only CBC draws an initialization vector, which may fail. -/
def Cipher.encrypt (cipher : Cipher) (header : List UInt8) (packetID : UInt32)
    (iv : Option (List.Vector UInt8 blockSize)) (packet : List UInt8) :
    Except DataError (List UInt8) :=
  match cipher, iv with
  | .aead a implicitIV, _ => .ok (encryptAEAD a implicitIV.1 header packetID packet)
  | .cbc _ _, none => .error .random
  | .cbc block mac, some iv => .ok (encryptCBC block mac header iv.1 packetID packet)

/-- `decryptAEAD` up to `acceptPacketID`. -/
def decodeAEAD (aead : AEAD) (implicitIV : List UInt8) (headerSize : Nat) (packet : List UInt8) :
    Except DataError (UInt32 × List UInt8) :=
  if packet.length < 1 then .error .emptyPacket
  else if packet.length < headerSize + 4 + dataChannelTagSize + 1 then .error .tooShort
  else
    let header := packet.take headerSize
    let packetIDBytes := (packet.drop headerSize).take 4
    let packetID := uint32 packetIDBytes
    let tag := (packet.drop (headerSize + 4)).take dataChannelTagSize
    let ciphertext := packet.drop (headerSize + 4 + dataChannelTagSize)
    match aead.openText (nonce packetID implicitIV) (ciphertext ++ tag)
      (header ++ packetIDBytes) with
    | none => .error .openFailed
    | some plain => .ok (packetID, plain)

def pkcs7Unpad (padded : List UInt8) (blockSize : Nat) : Except DataError (List UInt8) :=
  if padded.length = 0 ∨ padded.length % blockSize ≠ 0 then .error .paddingLength
  else
    let padding := (padded.getLast?.getD 0).toNat
    if padding = 0 ∨ blockSize < padding ∨ padded.length < padding then .error .padding
    else if (padded.drop (padded.length - padding)).all (·.toNat = padding) then
      .ok (padded.take (padded.length - padding))
    else .error .padding

/-- `decryptCBC` up to `acceptPacketID`. -/
def decodeCBC (block : CBC) (mac : MAC) (headerSize : Nat) (packet : List UInt8) :
    Except DataError (UInt32 × List UInt8) :=
  if packet.length < headerSize + mac.size + blockSize + blockSize then .error .cbcTooShort
  else
    let body := packet.drop headerSize
    let tag := body.take mac.size
    let authenticated := body.drop mac.size
    if tag ≠ mac.sum authenticated then .error .hmacFailed
    else
      let iv := authenticated.take blockSize
      let ciphertext := authenticated.drop blockSize
      if ciphertext.length = 0 ∨ ciphertext.length % blockSize ≠ 0 then .error .ciphertextLength
      else
        match pkcs7Unpad (block.decrypt iv ciphertext) blockSize with
        | .error err => .error err
        | .ok plain =>
          if plain.length < 4 then .error .missingPacketID
          else .ok (uint32 plain, plain.drop 4)

def Cipher.decode (cipher : Cipher) (headerSize : Nat) (packet : List UInt8) :
    Except DataError (UInt32 × List UInt8) :=
  match cipher with
  | .aead a implicitIV => decodeAEAD a implicitIV.1 headerSize packet
  | .cbc block mac => decodeCBC block mac headerSize packet

/-- `Decrypt` up to `acceptPacketID`. -/
def Cipher.opens (cipher : Cipher) (packet : List UInt8) : Except DataError (UInt32 × List UInt8) :=
  match dataPacketHeaderSize packet with
  | .error err => .error err
  | .ok headerSize => cipher.decode headerSize packet

/-! ### What is encrypted comes out again -/

theorem decodeAEAD_encryptAEAD (aead : AEAD) (implicitIV header : List UInt8) (packetID : UInt32)
    (hpacket : packet ≠ []) :
    decodeAEAD aead implicitIV header.length (encryptAEAD aead implicitIV header packetID packet) =
      .ok (packetID, packet) := by
  have hopen := aead.openText_sealText (nonce packetID implicitIV) packet
    (header ++ putUint32 packetID)
  have hlength := aead.length_sealText (nonce packetID implicitIV) packet
    (header ++ putUint32 packetID)
  rw [encryptAEAD]
  generalize aead.sealText (nonce packetID implicitIV) packet (header ++ putUint32 packetID) =
    sealed at hopen hlength
  have hsub : sealed.length - dataChannelTagSize = packet.length := by
    rw [hlength, aeadOverhead, dataChannelTagSize, Nat.add_sub_cancel]
  have htag : (sealed.drop packet.length).length = dataChannelTagSize := by
    rw [length_drop, hlength, Nat.add_sub_cancel_left]
    rfl
  have hid := length_putUint32 packetID
  have hpos := length_pos_iff.mpr hpacket
  rw [hsub]
  -- the pieces of the packet, from the front
  generalize hwire : header ++ putUint32 packetID ++ sealed.drop packet.length ++
    sealed.take packet.length = wire
  have htotal : wire.length = header.length + 4 + dataChannelTagSize + packet.length := by
    rw [← hwire, length_append, length_append, length_append, hid, htag, length_take,
      hlength, min_eq_left (Nat.le_add_right ..)]
  rw [decodeAEAD, if_neg (by rw [htotal]; omega), if_neg (by rw [htotal]; omega)]
  have htakeHeader : wire.take header.length = header := by
    rw [← hwire, append_assoc, append_assoc, take_left]
  have hidBytes : (wire.drop header.length).take 4 = putUint32 packetID := by
    rw [← hwire, append_assoc, append_assoc, drop_left, take_left' hid]
  have hfront : (header ++ putUint32 packetID).length = header.length + 4 := by
    rw [length_append, hid]
  have htagBytes : (wire.drop (header.length + 4)).take dataChannelTagSize =
      sealed.drop packet.length := by
    rw [← hwire, append_assoc, drop_left' hfront, take_left' htag]
  have hciphertext : wire.drop (header.length + 4 + dataChannelTagSize) =
      sealed.take packet.length :=
    hwire ▸ drop_left' (by rw [length_append, hfront, htag])
  have huint : uint32 (putUint32 packetID) = packetID := by
    have h := uint32_putUint32 packetID []
    rwa [append_nil] at h
  simp only [htakeHeader, hidBytes, htagBytes, hciphertext, take_append_drop, huint, hopen]

theorem cbcPadding_spec (plainLen : Nat) :
    0 < cbcPadding plainLen ∧ cbcPadding plainLen ≤ blockSize ∧
      (plainLen + cbcPadding plainLen) % blockSize = 0 := by
  have hpositive : blockSize - plainLen % blockSize ≠ 0 := by
    simp only [blockSize]
    omega
  rw [cbcPadding, if_neg hpositive]
  simp only [blockSize] at hpositive ⊢
  omega

theorem pkcs7Unpad_pad (plain : List UInt8) {padding : Nat} (hpos : 0 < padding)
    (hle : padding ≤ blockSize) (hmod : (plain.length + padding) % blockSize = 0) :
    pkcs7Unpad (plain ++ List.replicate padding (UInt8.ofNat padding)) blockSize = .ok plain := by
  have hlength : (plain ++ replicate padding (UInt8.ofNat padding)).length =
      plain.length + padding := by rw [length_append, length_replicate]
  have htoNat : (UInt8.ofNat padding).toNat = padding :=
    UInt8.toNat_ofNat_of_lt' (lt_of_le_of_lt hle (by decide))
  have hlast : (plain ++ replicate padding (UInt8.ofNat padding)).getLast? =
      some (UInt8.ofNat padding) := by
    rw [getLast?_append, getLast?_replicate, if_neg (ne_of_gt hpos)]
    rfl
  rw [pkcs7Unpad, hlength, if_neg (by omega), hlast]
  simp only [getD_some, htoNat]
  rw [if_neg (by omega), Nat.add_sub_cancel, List.drop_left, List.take_left, if_pos]
  rw [List.all_eq_true]
  intro b hb
  rw [eq_of_mem_replicate hb, htoNat, decide_eq_true_eq]

theorem decodeCBC_encryptCBC (block : CBC) (mac : MAC) (header : List UInt8) {iv : List UInt8}
    (hiv : iv.length = blockSize) (packetID : UInt32) (packet : List UInt8) :
    decodeCBC block mac header.length (encryptCBC block mac header iv packetID packet) =
      .ok (packetID, packet) := by
  have hplain : (putUint32 packetID ++ packet).length = 4 + packet.length := by
    rw [length_append, length_putUint32]
  rw [encryptCBC, cbcAuthenticated]
  set plain := putUint32 packetID ++ packet
  obtain ⟨hpos, hle, hmod⟩ := cbcPadding_spec plain.length
  have hunpad := pkcs7Unpad_pad plain hpos hle hmod
  generalize hpadded : plain ++ replicate (cbcPadding plain.length)
    (UInt8.ofNat (cbcPadding plain.length)) = padded at hunpad
  have hlength : padded.length = plain.length + cbcPadding plain.length := by
    rw [← hpadded, length_append, length_replicate]
  have hblocks : padded.length % blockSize = 0 := hlength ▸ hmod
  have hencrypt := block.length_encrypt iv padded hblocks
  have hone : blockSize ≤ padded.length := by
    simp only [blockSize] at hblocks ⊢
    omega
  generalize hauth : iv ++ block.encrypt iv padded = authenticated
  have hauthLength : authenticated.length = blockSize + padded.length := by
    rw [← hauth, length_append, hiv, hencrypt]
  rw [decodeCBC, append_assoc, length_append, length_append, mac.length_sum,
    hauthLength, if_neg (by omega)]
  dsimp only
  rw [drop_left, take_left' (mac.length_sum _), drop_left' (mac.length_sum _),
    if_neg (not_not.mpr rfl), ← hauth, take_left' hiv, drop_left' hiv, hencrypt,
    if_neg (by simp only [blockSize] at hone hblocks ⊢; omega),
    block.decrypt_encrypt iv padded hblocks, hunpad]
  dsimp only
  rw [if_neg (by omega), uint32_putUint32, drop_left' (length_putUint32 _)]

theorem Cipher.decode_encrypt {header : List UInt8}
    (h : cipher.encrypt header packetID iv packet = .ok bytes) (hpacket : packet ≠ []) :
    cipher.decode header.length bytes = .ok (packetID, packet) := by
  cases cipher with
  | aead a implicitIV =>
    cases h
    exact decodeAEAD_encryptAEAD a implicitIV.1 header packetID hpacket
  | cbc block mac =>
    cases iv with
    | none => cases h
    | some iv =>
      cases h
      exact decodeCBC_encryptCBC block mac header iv.2 packetID packet

/-- All packets of a channel start with its header. -/
theorem Cipher.encrypt_append {header : List UInt8}
    (h : cipher.encrypt header packetID iv packet = .ok bytes) :
    ∃ body, bytes = header ++ body := by
  cases cipher with
  | aead a implicitIV =>
    cases h
    exact ⟨_, by rw [encryptAEAD, append_assoc, append_assoc]⟩
  | cbc block mac =>
    cases iv with
    | none => cases h
    | some iv =>
      cases h
      exact ⟨_, by rw [encryptCBC, append_assoc]⟩

theorem opcodeKeyID_shift {opcode : UInt8} (hopcode : opcode = pDataV1 ∨ opcode = pDataV2)
    (keyID : UInt8) : opcodeKeyID opcode keyID >>> 3 = opcode := by
  obtain ⟨⟨keyID⟩⟩ := keyID
  obtain rfl | rfl := hopcode
  · revert keyID
    decide +kernel
  · revert keyID
    decide +kernel

theorem dataPacketHeaderSize_append (peerID : UInt32) (keyID : UInt8) (body : List UInt8) :
    dataPacketHeaderSize (dataHeader peerID keyID ++ body) =
      .ok (dataHeader peerID keyID).length := by
  rw [dataHeader]
  split
  · simp only [cons_append, dataPacketHeaderSize, opcodeKeyID_shift (.inr rfl)]
    rw [if_neg (by decide), if_pos trivial, if_neg]
    · rfl
    · simp
  · simp only [cons_append, dataPacketHeaderSize, opcodeKeyID_shift (.inl rfl)]
    rw [if_pos trivial]
    rfl

/-- A packet of a channel opens as what was encrypted. -/
theorem Cipher.opens_encrypt {peerID : UInt32} {keyID : UInt8}
    (h : cipher.encrypt (dataHeader peerID keyID) packetID iv packet = .ok bytes)
    (hpacket : packet ≠ []) : cipher.opens bytes = .ok (packetID, packet) := by
  have hdecode := decode_encrypt h hpacket
  obtain ⟨body, rfl⟩ := encrypt_append h
  rw [opens, dataPacketHeaderSize_append]
  exact hdecode

/-- Packets that the check does not tell apart: with CBC, those that differ in the header. -/
def Cipher.Alike : Cipher → List UInt8 → List UInt8 → Prop
  | .aead _ _, packet, packet' => packet = packet'
  | .cbc _ _, packet, packet' => ∃ n n', dataPacketHeaderSize packet = .ok n ∧
      dataPacketHeaderSize packet' = .ok n' ∧ packet.drop n = packet'.drop n'

theorem le_length_of_headerSize {n : Nat} (h : dataPacketHeaderSize packet = .ok n) :
    n ≤ packet.length := by
  cases packet with
  | nil => cases h
  | cons b rest =>
    simp only [dataPacketHeaderSize] at h
    split at h
    · cases h
      exact succ_le_succ (zero_le _)
    · split at h
      · split at h
        · cases h
        · next hlong =>
          cases h
          exact not_lt.mp hlong
      · cases h

theorem Cipher.Alike.opens_eq {packet' : List UInt8} (h : cipher.Alike packet packet') :
    cipher.opens packet = cipher.opens packet' := by
  cases cipher with
  | aead a implicitIV => exact congrArg _ h
  | cbc block mac =>
    obtain ⟨n, n', hn, hn', hbody⟩ := h
    have hlen := congrArg length hbody
    rw [length_drop, length_drop] at hlen
    have hle := le_length_of_headerSize hn
    have hle' := le_length_of_headerSize hn'
    have hshort : packet.length < n + mac.size + blockSize + blockSize ↔
        packet'.length < n' + mac.size + blockSize + blockSize := by omega
    simp only [opens, hn, hn', decode, decodeCBC, hbody, hshort]

/-! ### Channels -/

structure DataChannel where
  send : Cipher
  recv : Cipher
  header : List UInt8
  sendPacketID : UInt32
  window : ReplayWindow

/-- `NewDataChannel`, from where it has the ciphers. -/
def newDataChannel (send recv : Cipher) (peerID : UInt32) (keyID : UInt8) : DataChannel :=
  ⟨send, recv, dataHeader peerID keyID, 0, ⟨0, 0, false⟩⟩

def dataPacketIDRekeyThreshold : UInt32 := 0xFF000000

/-- `Encrypt`, with `nextPacketID`. -/
def DataChannel.encrypt (iv : Option (List.Vector UInt8 blockSize)) (packet : List UInt8)
    (d : DataChannel) : Except DataError (List UInt8) × DataChannel :=
  if dataPacketIDRekeyThreshold ≤ d.sendPacketID then (.error .packetIDExhausted, d)
  else
    let packetID := d.sendPacketID + 1
    (d.send.encrypt d.header packetID iv packet, { d with sendPacketID := packetID })

/-- `Decrypt`, with the packet id that it accepts. -/
def DataChannel.accept (packet : List UInt8) (d : DataChannel) :
    Except DataError (UInt32 × List UInt8) × DataChannel :=
  match d.recv.opens packet with
  | .error err => (.error err, d)
  | .ok (packetID, plain) =>
    match acceptPacketID d.window packetID with
    | none => (.error (.replayed packetID), d)
    | some window => (.ok (packetID, plain), { d with window := window })

/-- `Decrypt` -/
def DataChannel.decrypt (packet : List UInt8) (d : DataChannel) :
    Except DataError (List UInt8) × DataChannel :=
  ((d.accept packet).1.map Prod.snd, (d.accept packet).2)

/-! ### Two channels -/

inductive Side where
  | client
  | server
deriving DecidableEq

def Side.peer : Side → Side
  | client => server
  | server => client

/-- A packet that was encrypted, and what was sent for it. -/
structure Entry where
  packetID : UInt32
  packet : List UInt8
  bytes : List UInt8
deriving DecidableEq

/-- Both channels, what each has encrypted, and what `Decrypt` has returned on each side. -/
structure System where
  channel : Side → DataChannel
  sent : Side → List Entry
  returned : Side → List (UInt32 × List UInt8)

/-- A call of `Encrypt`, or a call of `Decrypt` with whatever comes off the network. -/
inductive Action where
  | encrypt (side : Side) (packet : List UInt8) (nonempty : packet ≠ [])
    (iv : Option (List.Vector UInt8 blockSize))
  | decrypt (side : Side) (packet : List UInt8)

def System.step (c : System) : Action → System
  | .encrypt side packet _ iv =>
    let (result, d) := (c.channel side).encrypt iv packet
    { c with
        channel := Function.update c.channel side d
        sent := Function.update c.sent side (c.sent side ++
          (result.toOption.map fun bytes => (⟨d.sendPacketID, packet, bytes⟩ : Entry)).toList) }
  | .decrypt side packet =>
    let (result, d) := (c.channel side).accept packet
    { c with
        channel := Function.update c.channel side d
        returned := Function.update c.returned side (c.returned side ++ result.toOption.toList) }

def System.run (c : System) (actions : List Action) : System := actions.foldl System.step c

/-- Two channels with mirrored keys. -/
def System.start (clientKeys serverKeys : Cipher) (clientPeer serverPeer : UInt32)
    (clientKeyID serverKeyID : UInt8) : System where
  channel
    | .client => newDataChannel clientKeys serverKeys clientPeer clientKeyID
    | .server => newDataChannel serverKeys clientKeys serverPeer serverKeyID
  sent _ := []
  returned _ := []

/-- The ciphers are ideal for a step: what opens is like a packet that the peer has made. -/
def Ideal (c : System) : Action → Prop
  | .encrypt .. => True
  | .decrypt side packet => ∀ opened, (c.channel side).recv.opens packet = .ok opened →
      ∃ e ∈ c.sent side.peer, (c.channel side).recv.Alike packet e.bytes

/-- The ciphers are ideal all along a run. -/
def IdealRun (c : System) : List Action → Prop
  | [] => True
  | action :: actions => Ideal c action ∧ IdealRun (c.step action) actions

/-- What holds of the packets in one direction: `p` is the channel that encrypts them. -/
structure Direction (p d : DataChannel) (sent : List Entry)
    (returned : List (UInt32 × List UInt8)) : Prop where
  mirrored : d.recv = p.send
  header : ∃ peerID keyID, p.header = dataHeader peerID keyID
  encrypted : ∀ e ∈ sent, e.packet ≠ [] ∧
    ∃ iv, p.send.encrypt p.header e.packetID iv e.packet = .ok e.bytes
  le_sent : ∀ e ∈ sent, e.packetID.toNat ≤ p.sendPacketID.toNat
  distinct : sent.Pairwise fun e e' => e.packetID ≠ e'.packetID
  stands : Stands d.window {id | ∃ plain, (id, plain) ∈ returned}
  genuine : ∀ r ∈ returned, ∃ e ∈ sent, e.packetID = r.1 ∧ e.packet = r.2
  once : (returned.map Prod.fst).Nodup

section Direction

variable {p d : DataChannel} {sent : List Entry} {returned : List (UInt32 × List UInt8)}
  {packet : List UInt8} {e : Entry}

/-- The sender and the receiver use other fields of their channels. -/
theorem Direction.congr (h : Direction p d sent returned) {p' d' : DataChannel}
    (hsend : p'.send = p.send) (hheader : p'.header = p.header)
    (hid : p'.sendPacketID = p.sendPacketID) (hrecv : d'.recv = d.recv)
    (hwindow : d'.window = d.window) : Direction p' d' sent returned where
  mirrored := by rw [hrecv, hsend, h.mirrored]
  header := by rw [hheader]; exact h.header
  encrypted := by rw [hsend, hheader]; exact h.encrypted
  le_sent := by rw [hid]; exact h.le_sent
  distinct := h.distinct
  stands := by rw [hwindow]; exact h.stands
  genuine := h.genuine
  once := h.once

theorem DataChannel.encrypt_frame (d : DataChannel) (iv : Option (List.Vector UInt8 blockSize))
    (packet : List UInt8) :
    (d.encrypt iv packet).2.send = d.send ∧ (d.encrypt iv packet).2.header = d.header ∧
      (d.encrypt iv packet).2.recv = d.recv ∧ (d.encrypt iv packet).2.window = d.window := by
  rw [DataChannel.encrypt]
  split
  · exact ⟨rfl, rfl, rfl, rfl⟩
  · exact ⟨rfl, rfl, rfl, rfl⟩

theorem DataChannel.accept_frame (d : DataChannel) (packet : List UInt8) :
    (d.accept packet).2.send = d.send ∧ (d.accept packet).2.header = d.header ∧
      (d.accept packet).2.sendPacketID = d.sendPacketID ∧ (d.accept packet).2.recv = d.recv := by
  rw [DataChannel.accept]
  split
  · exact ⟨rfl, rfl, rfl, rfl⟩
  · split
    · exact ⟨rfl, rfl, rfl, rfl⟩
    · exact ⟨rfl, rfl, rfl, rfl⟩

variable (h : Direction p d sent returned)
include h

theorem Direction.encrypt (hpacket : packet ≠ []) (iv : Option (List.Vector UInt8 blockSize)) :
    Direction (p.encrypt iv packet).2 d (sent ++ ((p.encrypt iv packet).1.toOption.map fun bytes =>
      (⟨(p.encrypt iv packet).2.sendPacketID, packet, bytes⟩ : Entry)).toList) returned := by
  rw [DataChannel.encrypt]
  by_cases hend : dataPacketIDRekeyThreshold ≤ p.sendPacketID
  · rw [if_pos hend]
    simpa [Except.toOption] using h
  · rw [if_neg hend]
    have hnext : (p.sendPacketID + 1).toNat = p.sendPacketID.toNat + 1 := by
      have hlt := UInt32.lt_iff_toNat_lt.mp (UInt32.not_le.mp hend)
      have hmax : dataPacketIDRekeyThreshold.toNat < 2 ^ 32 - 1 := by decide
      rw [UInt32.toNat_add, UInt32.toNat_one, mod_eq_of_lt (by omega)]
    have hle : ∀ e ∈ sent, e.packetID.toNat ≤ (p.sendPacketID + 1).toNat := fun e he =>
      hnext ▸ le_succ_of_le (h.le_sent e he)
    dsimp only
    cases hbytes : p.send.encrypt p.header (p.sendPacketID + 1) iv packet with
    | error err =>
      -- the packet id is used up
      simp only [Except.toOption, map_none, toList_none, append_nil]
      exact { h with le_sent := hle }
    | ok bytes =>
      refine ⟨h.mirrored, h.header, ?_, ?_, ?_, h.stands, fun r hr => ?_, h.once⟩
      · exact forall_mem_append.mpr ⟨h.encrypted, forall_mem_singleton.mpr ⟨hpacket, iv, hbytes⟩⟩
      · exact forall_mem_append.mpr ⟨hle, forall_mem_singleton.mpr (le_refl _)⟩
      · refine pairwise_append.mpr ⟨h.distinct, pairwise_singleton _ _, ?_⟩
        intro e he e' he' heq
        obtain rfl := mem_singleton.mp he'
        have hless := h.le_sent e he
        rw [heq] at hless
        change (p.sendPacketID + 1).toNat ≤ _ at hless
        omega
      · obtain ⟨e, he, heq⟩ := h.genuine r hr
        exact ⟨e, mem_append_left _ he, heq⟩

/-- What the peer has sent opens as what it has encrypted. -/
theorem Direction.opens (he : e ∈ sent)
    (halike : d.recv.Alike packet e.bytes) : d.recv.opens packet = .ok (e.packetID, e.packet) := by
  obtain ⟨hpacket, iv, hbytes⟩ := h.encrypted e he
  obtain ⟨peerID, keyID, hheader⟩ := h.header
  rw [hheader] at hbytes
  rw [halike.opens_eq, h.mirrored]
  exact Cipher.opens_encrypt hbytes hpacket

theorem Direction.entry_eq {e' : Entry} (he : e ∈ sent)
    (he' : e' ∈ sent) (hid : e.packetID = e'.packetID) : e = e' := by
  have : Std.Symm fun e e' : Entry => e.packetID ≠ e'.packetID := ⟨fun _ _ => Ne.symm⟩
  by_contra hne
  exact h.distinct.forall he he' hne hid

theorem Direction.alike (he : e ∈ sent) :
    d.recv.Alike e.bytes e.bytes := by
  obtain ⟨-, iv, hbytes⟩ := h.encrypted e he
  obtain ⟨peerID, keyID, hheader⟩ := h.header
  rw [hheader] at hbytes
  obtain ⟨body, hbody⟩ := Cipher.encrypt_append hbytes
  have hsize := dataPacketHeaderSize_append peerID keyID body
  rw [← hbody] at hsize
  cases d.recv with
  | aead a implicitIV => rfl
  | cbc block mac => exact ⟨_, _, hsize, hsize, rfl⟩

theorem Direction.accept
    (hideal : ∀ opened, d.recv.opens packet = .ok opened → ∃ e ∈ sent, d.recv.Alike packet e.bytes) :
    Direction p (d.accept packet).2 sent (returned ++ (d.accept packet).1.toOption.toList) := by
  rw [DataChannel.accept]
  cases hopens : d.recv.opens packet with
  | error err => simpa [Except.toOption] using h
  | ok opened =>
    obtain ⟨packetID, plain⟩ := opened
    have haccept := h.stands.accept packetID
    dsimp only
    cases hwindow : acceptPacketID d.window packetID with
    | none => simpa [Except.toOption] using h
    | some window =>
      rw [hwindow] at haccept
      obtain ⟨hnew, hstands⟩ := haccept
      obtain ⟨e, he, halike⟩ := hideal _ hopens
      cases hopens.symm.trans (h.opens he halike)
      simp only [Except.toOption, toList_some]
      refine { h with stands := ?_, genuine := ?_, once := ?_ }
      · convert hstands using 1
        ext id
        simp only [mem_append, mem_singleton, Prod.mk.injEq, Set.mem_ofPred_eq, Set.mem_insert_iff]
        constructor
        · rintro ⟨plain, hmem | ⟨rfl, -⟩⟩
          · exact .inr ⟨plain, hmem⟩
          · exact .inl rfl
        · rintro (rfl | ⟨plain, hmem⟩)
          · exact ⟨_, .inr ⟨rfl, rfl⟩⟩
          · exact ⟨plain, .inl hmem⟩
      · exact forall_mem_append.mpr ⟨h.genuine, forall_mem_singleton.mpr ⟨e, he, rfl, rfl⟩⟩
      · rw [map_append, nodup_append]
        refine ⟨h.once, nodup_singleton _, fun id hid id' hid' heq => ?_⟩
        obtain rfl := mem_singleton.mp hid'
        obtain ⟨r, hr, rfl⟩ := mem_map.mp hid
        refine hnew ⟨r.2, ?_⟩
        rwa [← show r.1 = e.packetID from heq]

end Direction

/-- Both directions. -/
def Inv (c : System) : Prop :=
  ∀ side, Direction (c.channel side.peer) (c.channel side) (c.sent side.peer) (c.returned side)

theorem inv_start (clientKeys serverKeys : Cipher) (clientPeer serverPeer : UInt32)
    (clientKeyID serverKeyID : UInt8) :
    Inv (System.start clientKeys serverKeys clientPeer serverPeer clientKeyID serverKeyID) := by
  have hstands : Stands ⟨0, 0, false⟩ {id | ∃ plain : List UInt8, (id, plain) ∈ []} :=
    ⟨fun _ => by simp, nofun, by simp, nofun⟩
  intro side
  cases side with
  | client | server => exact ⟨rfl, ⟨_, _, rfl⟩, nofun, nofun, .nil, hstands, nofun, .nil⟩

theorem Side.peer_ne (side : Side) : side.peer ≠ side := by
  cases side <;> decide

theorem Side.peer_peer (side : Side) : side.peer.peer = side := by
  cases side <;> rfl

theorem Side.eq_or_eq_peer (side other : Side) : side = other ∨ side = other.peer := by
  cases side <;> cases other <;> simp [Side.peer]

theorem Inv.step {c : System} (h : Inv c) {action : Action} (hideal : Ideal c action) :
    Inv (c.step action) := by
  intro side
  cases action with
  | encrypt sender packet hpacket iv =>
    obtain ⟨hsend, hheader, hrecv, hwindow⟩ := (c.channel sender).encrypt_frame iv packet
    obtain rfl | rfl := side.eq_or_eq_peer sender
    · -- the sender as a receiver
      simp only [System.step, update_self, update_of_ne side.peer_ne]
      exact (h side).congr rfl rfl rfl hrecv hwindow
    · simp only [System.step, sender.peer_peer, update_self, update_of_ne sender.peer_ne]
      have hdir := h sender.peer
      rw [sender.peer_peer] at hdir
      exact hdir.encrypt hpacket iv
  | decrypt receiver packet =>
    obtain ⟨hsend, hheader, hid, hrecv⟩ := (c.channel receiver).accept_frame packet
    obtain rfl | rfl := side.eq_or_eq_peer receiver
    · simp only [System.step, update_self, update_of_ne side.peer_ne]
      exact (h side).accept hideal
    · -- the receiver as a sender
      simp only [System.step, receiver.peer_peer, update_self, update_of_ne receiver.peer_ne]
      have hdir := h receiver.peer
      rw [receiver.peer_peer] at hdir
      exact hdir.congr hsend hheader hid rfl rfl

theorem Inv.run {c : System} (h : Inv c) {actions : List Action} (hideal : IdealRun c actions) :
    Inv (c.run actions) := by
  induction actions generalizing c with
  | nil => exact h
  | cons action actions ih => exact ih (h.step hideal.1) hideal.2

/-- In every run of two channels with mirrored keys and ideal ciphers, on both sides: what `Decrypt`
has returned was encrypted by the peer, each packet at most once; and a packet of the peer, or one
that the check cannot tell from it, is refused only if it was returned before or its id is at least
64 below one that was accepted. -/
theorem decrypt_once (clientKeys serverKeys : Cipher) (clientPeer serverPeer : UInt32)
    (clientKeyID serverKeyID : UInt8) (actions : List Action) (c start : System) (hstart : start =
      System.start clientKeys serverKeys clientPeer serverPeer clientKeyID serverKeyID)
    (hideal : IdealRun start actions) (hc : c = start.run actions) (side : Side) :
    (∀ r ∈ c.returned side, ∃ e ∈ c.sent side.peer, e.packetID = r.1 ∧ e.packet = r.2) ∧
    ((c.returned side).map Prod.fst).Nodup ∧
    ((c.sent side.peer).Pairwise fun e e' => e.packetID ≠ e'.packetID) ∧
    ∀ e ∈ c.sent side.peer, (c.channel side).recv.Alike e.bytes e.bytes ∧
      ∀ packet, (c.channel side).recv.Alike packet e.bytes →
        ∀ err, ((c.channel side).decrypt packet).1 = .error err →
          (e.packetID, e.packet) ∈ c.returned side ∨
            ∃ r ∈ c.returned side, e.packetID.toNat + 64 ≤ r.1.toNat := by
  subst hstart hc
  have h := (inv_start clientKeys serverKeys clientPeer serverPeer clientKeyID serverKeyID).run
    hideal side
  refine ⟨h.genuine, h.once, h.distinct, fun e he => ⟨h.alike he, ?_⟩⟩
  intro packet halike err herr
  have haccept := h.stands.accept e.packetID
  rw [DataChannel.decrypt, DataChannel.accept, h.opens he halike] at herr
  dsimp only at herr
  cases hwindow : acceptPacketID _ e.packetID with
  | some window =>
    rw [hwindow] at herr
    cases herr
  | none =>
    rw [hwindow] at haccept
    obtain ⟨plain, hmem⟩ | ⟨high, ⟨plain, hmem⟩, hfar⟩ := haccept
    · -- the id was accepted with the packet that was encrypted under it
      refine .inl ?_
      obtain ⟨e', he', hid, hpacket⟩ := h.genuine _ hmem
      obtain rfl := h.entry_eq he' he hid
      exact hpacket ▸ hmem
    · exact .inr ⟨(high, plain), hmem, hfar⟩

/-- Of two packets the second arrives, twice. -/
def greetings : List Action :=
  [.encrypt .client [7] (by decide) none, .encrypt .client [8] (by decide) none,
    .decrypt .server (encryptAEAD plainAEAD (List.replicate 12 0) (dataHeader 1 0) 2 [8]),
    .decrypt .server (encryptAEAD plainAEAD (List.replicate 12 0) (dataHeader 1 0) 2 [8])]

theorem greetings_returned_once :
    let keys : Cipher := .aead plainAEAD (List.Vector.replicate 12 0)
    ((System.start keys keys 1 1 0 0).run greetings).returned .server = [(2, [8])] ∧
      ((((System.start keys keys 1 1 0 0).run greetings).returned .server).map Prod.fst).Nodup := by
  intro keys
  refine ⟨by decide +kernel, ?_⟩
  have hideal : IdealRun (System.start keys keys 1 1 0 0) greetings := by
    refine ⟨trivial, trivial, fun _ _ => ⟨⟨2, [8], _⟩, ?_, rfl⟩, fun _ _ => ⟨⟨2, [8], _⟩, ?_, rfl⟩,
      trivial⟩
    · decide +kernel
    · decide +kernel
  exact (decrypt_once keys keys 1 1 0 0 greetings _ _ rfl hideal rfl .server).2.1

end Hako.OpenVPN.Data
