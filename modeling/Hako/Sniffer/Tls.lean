import Hako.GoLib.Utf8
import Hako.Lib.Except
import Hako.Lib.Growing

/-!
# The TLS sniffer

`SniffTLS` strips the headers of TLS records from what has arrived of a stream and asks
`ReadClientHello` for the server name in the handshake message so far. Both answer with a verdict as
early as they can, and else say how many bytes they need at least.
-/

namespace Hako.Sniffer

open GoLib Growing Lib List Nat

/-- The errors of the sniffer, and an index out of range, where Go would panic. -/
inductive SniffError where
  | needAtLeastData (length : Nat)
  | noClue
  | notTLS
  | notClientHello
  | outOfRange
deriving DecidableEq

def errors : Errors SniffError := ⟨.needAtLeastData, .outOfRange⟩

def tlsRecordHeaderLen : Nat := 5

def tlsHandshakeHeaderLen : Nat := 4

def tlsRecordTypeHandshake : UInt8 := 0x16

def tlsHandshakeTypeClientHello : UInt8 := 0x01

def tlsMaxPlaintext : Nat := 1 <<< 14

def isValidTLSVersion (major _minor : UInt8) : Bool := major = 3

/-- `data[i]` -/
def readByte (data : GoString) (i : Nat) : Except SniffError UInt8 := byteAt errors data i

/-- `int(data[i])<<8 | int(data[i+1])` -/
def uint16At (data : GoString) (i : Nat) : Except SniffError Nat := do
  let hi ← readByte data i
  let lo ← readByte data (i + 1)
  return hi.toNat <<< 8 ||| lo.toNat

/-! ### The handshake message -/

/-- The size of a body from the three bytes in front of it. -/
def bodyLen (b₁ b₂ b₃ : UInt8) : Nat := b₁.toNat <<< 16 ||| b₂.toNat <<< 8 ||| b₃.toNat

def clientHelloSize (data : GoString) : Except SniffError Nat :=
  if data.length < tlsHandshakeHeaderLen then .error .noClue
  else do
    let type ← readByte data 0
    if type ≠ tlsHandshakeTypeClientHello then .error .notClientHello
    else do
      let b₁ ← readByte data 1
      let b₂ ← readByte data 2
      let b₃ ← readByte data 3
      return tlsHandshakeHeaderLen + bodyLen b₁ b₂ b₃

/-- The closure `need` of `ReadClientHello`. -/
def need (helloSize : Nat) (data : GoString) (length : Nat) : Except SniffError Unit :=
  if length > helloSize then .error .notClientHello
  else if data.length < length then .error (.needAtLeastData length)
  else .ok ()

/-- What the loop over the names ends with: the server name, or the offset it has come to. -/
inductive Found (namesEnd : Nat) where
  | serverName (name : GoString)
  | offset (offset : Nat) (le : namesEnd ≤ offset)

/-- The loop over the names of a server name extension. -/
def namesLoop (helloSize : Nat) (data : GoString) (namesEnd offset : Nat) :
    Except SniffError (Found namesEnd) :=
  if h : offset < namesEnd then do
    need helloSize data (offset + 3)
    let nameType ← readByte data offset
    let nameLen ← uint16At data (offset + 1)
    if offset + 3 + nameLen > namesEnd then .error .notClientHello
    else do
      need helloSize data (offset + 3 + nameLen)
      if nameType = 0 then do
        let serverName ← slice errors data (offset + 3) (offset + 3 + nameLen)
        if lit "." <:+ serverName then .error .notClientHello else .ok (.serverName serverName)
      else namesLoop helloSize data namesEnd (offset + 3 + nameLen)
  else .ok (.offset offset (not_lt.mp h))
termination_by namesEnd - offset

/-- The server name extension at an offset behind its header. -/
def serverNameExtension (helloSize : Nat) (data : GoString) (extensionEnd offset : Nat) :
    Except SniffError (Found extensionEnd) := do
  need helloSize data (offset + 2)
  let namesLen ← uint16At data offset
  -- from here on the end of the names is that of the extension
  if offset + 2 + namesLen ≠ extensionEnd then .error .notClientHello
  else namesLoop helloSize data extensionEnd (offset + 2)

/-- The loop over the extensions. -/
def extensionsLoop (helloSize : Nat) (data : GoString) (extensionsEnd offset : Nat) :
    Except SniffError GoString :=
  if offset < extensionsEnd then do
    need helloSize data (offset + 4)
    let extension ← uint16At data offset
    let length ← uint16At data (offset + 2)
    if offset + 4 + length > extensionsEnd then .error .notClientHello
    else if extension = 0x00 then
      if length < 2 then .error .notClientHello
      else do
        match ← serverNameExtension helloSize data (offset + 4 + length) (offset + 4) with
        | .serverName name => .ok name
        | .offset next _ => extensionsLoop helloSize data extensionsEnd next
    -- the payload of the last extension cannot change the verdict
    else if offset + 4 + length = extensionsEnd then .error .notTLS
    else do
      need helloSize data (offset + 4 + length)
      extensionsLoop helloSize data extensionsEnd (offset + 4 + length)
  else .error .notTLS
termination_by extensionsEnd - offset

/-- The rest of `ReadClientHello`, from the compression methods on. -/
def readExtensions (helloSize : Nat) (data : GoString) (offset : Nat) :
    Except SniffError GoString := do
  need helloSize data (offset + 1)
  let compressionMethodsLen ← readByte data offset
  let offset := offset + 1 + compressionMethodsLen.toNat
  need helloSize data offset
  if offset = helloSize then .error .notClientHello
  else do
    need helloSize data (offset + 2)
    let extensionsLength ← uint16At data offset
    if offset + 2 + extensionsLength ≠ helloSize then .error .notClientHello
    else extensionsLoop helloSize data (offset + 2 + extensionsLength) (offset + 2)

/-- The body of `ReadClientHello` behind the handshake header. -/
def readBody (helloSize : Nat) (data : GoString) : Except SniffError GoString := do
  let offset := tlsHandshakeHeaderLen + 2 + 32
  need helloSize data (offset + 1)
  let sessionIDLen ← readByte data offset
  if sessionIDLen.toNat > 32 then .error .notClientHello
  else do
    let offset := offset + 1 + sessionIDLen.toNat
    need helloSize data offset
    need helloSize data (offset + 2)
    let cipherSuiteLen ← uint16At data offset
    if cipherSuiteLen % 2 = 1 then .error .notClientHello
    else do
      need helloSize data (offset + 2 + cipherSuiteLen)
      readExtensions helloSize data (offset + 2 + cipherSuiteLen)

/-- `ReadClientHello` -/
def readClientHello (data : GoString) : Except SniffError GoString :=
  if data.length = 0 then .error (.needAtLeastData 1)
  else do
    let type ← readByte data 0
    if type ≠ tlsHandshakeTypeClientHello then .error .notClientHello
    else if data.length < tlsHandshakeHeaderLen then
      .error (.needAtLeastData tlsHandshakeHeaderLen)
    else do
      let helloSize ← clientHelloSize data
      readBody helloSize (if data.length > helloSize then data.take helloSize else data)

/-! ### The records -/

/-- The loop of `SniffTLS`. -/
def sniffLoop (b clientHello : GoString) (wireOffset : Nat) : Except SniffError GoString :=
  if b.length - wireOffset < tlsRecordHeaderLen then
    .error (.needAtLeastData (wireOffset + tlsRecordHeaderLen))
  else do
    let header ← slice errors b wireOffset (wireOffset + tlsRecordHeaderLen)
    let type ← readByte header 0
    let major ← readByte header 1
    let minor ← readByte header 2
    if type ≠ tlsRecordTypeHandshake ∨ ¬ isValidTLSVersion major minor then .error .notTLS
    else do
      let recordLen ← uint16At header 3
      if recordLen > tlsMaxPlaintext then .error .notTLS
      else if recordLen = 0 then .error .notClientHello
      else do
        let payloadOffset := wireOffset + tlsRecordHeaderLen
        let recordEnd := payloadOffset + recordLen
        let payloadEnd := if b.length > recordEnd then recordEnd else b.length
        let payloadEnd := if payloadEnd < payloadOffset then payloadOffset else payloadEnd
        let payload ← slice errors b payloadOffset payloadEnd
        let clientHello := if wireOffset = 0 then payload else clientHello ++ payload
        match readClientHello clientHello with
        | .ok domain => .ok domain
        | .error (.needAtLeastData length) =>
          if payloadEnd < recordEnd then
            let missing := length - clientHello.length
            let remaining := recordEnd - payloadEnd
            .error (.needAtLeastData
              (payloadEnd + if missing > remaining then remaining else missing))
          else sniffLoop b clientHello (wireOffset + tlsRecordHeaderLen + recordLen)
        | .error err => .error err
termination_by b.length - wireOffset
decreasing_by
  simp only [tlsRecordHeaderLen] at *
  omega

/-- `SniffTLS` -/
def sniffTLS (b : GoString) : Except SniffError GoString := sniffLoop b [] 0

/-! ### Verdicts on a part of the message -/

section Sound

variable {α : Type} {whole : GoString} {helloSize limit known : Nat}

theorem sound_readByte {i : Nat} (hi : i < known := by omega) :
    Sound errors whole limit known fun data => readByte data i := Sound.byteAt hi

theorem sound_uint16At {i : Nat} (hi : i + 1 < known := by omega) :
    Sound errors whole limit known fun data => uint16At data i :=
  .bind sound_readByte fun _ _ => .bind sound_readByte fun _ _ => .ok _

/-- After `need` that many bytes are there. -/
theorem sound_need {n : Nat} {g : GoString → Except SniffError α}
    (h : n ≤ helloSize → Sound errors whole helloSize n g) :
    Sound errors whole helloSize known fun data => need helloSize data n >>= fun _ => g data := by
  intro part hpart _
  by_cases hn : n > helloSize
  · simp only [need, if_pos hn]
    exact .inl ⟨rfl, nofun, nofun⟩
  · by_cases hlen : part.length < n
    · simp only [need, if_neg hn, if_pos hlen]
      exact .inr ⟨n, rfl, hlen, not_lt.mp hn⟩
    · have hwhole : ¬ whole.length < n := by
        have := hpart.length_le
        omega
      simp only [need, if_neg hn, if_neg hlen, if_neg hwhole]
      exact h (not_lt.mp hn) part hpart (not_lt.mp hlen)

theorem sound_namesLoop (namesEnd offset : Nat) :
    Sound errors whole helloSize known fun data => namesLoop helloSize data namesEnd offset := by
  induction hm : namesEnd - offset using Nat.strongRecOn generalizing offset known with
  | ind m ih =>
    refine Sound.congr ?_ fun data => namesLoop.eq_def helloSize data namesEnd offset
    by_cases hlt : offset < namesEnd
    · simp only [dif_pos hlt]
      refine sound_need fun _ => .bind sound_readByte fun nameType _ =>
        .bind sound_uint16At fun nameLen _ => .ite (fun _ => .error) fun _ =>
        sound_need fun _ => .ite (fun _ => ?_) fun _ => ih _ (by omega) _ rfl
      exact .bind (.slice (by omega) (le_refl _)) fun name _ =>
        .ite (fun _ => .error) fun _ => .ok _
    · simp only [dif_neg hlt]
      exact .ok _

theorem sound_serverNameExtension (extensionEnd offset : Nat) :
    Sound errors whole helloSize known fun data =>
      serverNameExtension helloSize data extensionEnd offset :=
  sound_need fun _ => .bind sound_uint16At fun _ _ =>
    .ite (fun _ => .error) fun _ => sound_namesLoop _ _

theorem sound_extensionsLoop (extensionsEnd offset : Nat) :
    Sound errors whole helloSize known fun data =>
      extensionsLoop helloSize data extensionsEnd offset := by
  induction hm : extensionsEnd - offset using Nat.strongRecOn generalizing offset known with
  | ind m ih =>
    refine Sound.congr ?_ fun data => extensionsLoop.eq_def helloSize data extensionsEnd offset
    refine .ite (fun hlt => sound_need fun _ => .bind sound_uint16At fun extension _ =>
      .bind sound_uint16At fun length _ => .ite (fun _ => .error) fun _ =>
      .ite (fun _ => .ite (fun _ => .error) fun _ => ?_) fun _ =>
        .ite (fun _ => .error) fun _ => sound_need fun _ => ih _ (by omega) _ rfl)
      fun _ => .error
    -- the names were without a server name, or the search is over
    refine .bind (sound_serverNameExtension _ _) fun found _ => ?_
    cases found with
    | serverName name => exact .ok _
    | offset next hle => exact ih _ (by omega) _ rfl

theorem sound_readExtensions (offset : Nat) :
    Sound errors whole helloSize known fun data => readExtensions helloSize data offset :=
  sound_need fun _ => .bind sound_readByte fun _ _ => sound_need fun _ =>
    .ite (fun _ => .error) fun _ => sound_need fun _ => .bind sound_uint16At
      fun _ _ => .ite (fun _ => .error) fun _ => sound_extensionsLoop _ _

theorem sound_readBody : Sound errors whole helloSize known fun data => readBody helloSize data :=
  sound_need fun _ => .bind sound_readByte fun _ _ => .ite (fun _ => .error)
    fun _ => sound_need fun _ => sound_need fun _ => .bind sound_uint16At fun _ _ =>
      .ite (fun _ => .error) fun _ => sound_need fun _ => sound_readExtensions _

end Sound

/-- A handshake message: a type, the length of the body, and the body. -/
def IsMessage (message : GoString) : Prop :=
  ∃ type b₁ b₂ b₃ body, message = type :: b₁ :: b₂ :: b₃ :: body ∧ body.length = bodyLen b₁ b₂ b₃

@[simp]
theorem readByte_cons_zero (b : UInt8) (rest : GoString) : readByte (b :: rest) 0 = .ok b := rfl

@[simp]
theorem readByte_cons_succ (b : UInt8) (rest : GoString) (i : Nat) :
    readByte (b :: rest) (i + 1) = readByte rest i := rfl

variable {type : UInt8} {rest data extra message b done seen front back : GoString}

theorem readClientHello_other (h : type ≠ tlsHandshakeTypeClientHello)
    (rest : GoString) : readClientHello (type :: rest) = .error .notClientHello := by
  simp [readClientHello, ok_bind, h]

theorem readClientHello_short (h : rest.length < 3) :
    readClientHello (tlsHandshakeTypeClientHello :: rest) = .error (.needAtLeastData 4) := by
  have hlen : (tlsHandshakeTypeClientHello :: rest).length < tlsHandshakeHeaderLen := by
    simp only [length_cons, tlsHandshakeHeaderLen]
    omega
  unfold readClientHello
  rw [if_neg (by simp), readByte_cons_zero, ok_bind, if_neg (by simp), if_pos hlen]
  rfl

theorem readClientHello_header (b₁ b₂ b₃ : UInt8) (rest : GoString) :
    readClientHello (tlsHandshakeTypeClientHello :: b₁ :: b₂ :: b₃ :: rest) =
      readBody (4 + bodyLen b₁ b₂ b₃)
        ((tlsHandshakeTypeClientHello :: b₁ :: b₂ :: b₃ :: rest).take (4 + bodyLen b₁ b₂ b₃)) := by
  have htake : ∀ data : GoString, ∀ n, (if data.length > n then data.take n else data) =
      data.take n := by
    intro data n
    split
    · rfl
    · next hle => rw [take_of_length_le (not_lt.mp hle)]
  have hsize : clientHelloSize (tlsHandshakeTypeClientHello :: b₁ :: b₂ :: b₃ :: rest) =
      .ok (4 + bodyLen b₁ b₂ b₃) := by
    simp only [clientHelloSize]
    rw [if_neg (by simp [tlsHandshakeHeaderLen])]
    rfl
  have hlen : ¬ (tlsHandshakeTypeClientHello :: b₁ :: b₂ :: b₃ :: rest).length <
      tlsHandshakeHeaderLen := by
    simp [tlsHandshakeHeaderLen]
  unfold readClientHello
  rw [if_neg (by simp), readByte_cons_zero, ok_bind, if_neg (by simp), if_neg hlen, hsize, ok_bind,
    htake]

theorem exists_three (h : 3 ≤ data.length) : ∃ a b c rest, data = a :: b :: c :: rest := by
  match data, h with
  | [], h | [_], h | [_, _], h => simp at h
  | a :: b :: c :: rest, _ => exact ⟨a, b, c, rest, rfl⟩

/-- Parts with a whole header are cut to the size that stands in it, as the message is. -/
theorem sound_of_header {b₁ b₂ b₃ : UInt8} {body part : GoString}
    (hlen : body.length = bodyLen b₁ b₂ b₃)
    (hpart : part = tlsHandshakeTypeClientHello :: b₁ :: b₂ :: b₃ :: rest)
    (hmessage : message = tlsHandshakeTypeClientHello :: b₁ :: b₂ :: b₃ :: body)
    (h : part <+: message ++ extra) :
    (readClientHello part = readClientHello (message ++ extra) ∧
      Final errors (readClientHello part)) ∨
    ∃ n, readClientHello part = .error (errors.needs n) ∧ part.length < n ∧ n ≤ message.length := by
  have hsize : message.length = 4 + bodyLen b₁ b₂ b₃ := by
    simp only [hmessage, length_cons, hlen]
    omega
  have hwhole : (message ++ extra).take (4 + bodyLen b₁ b₂ b₃) = message := take_left' hsize
  have htake : part.take (4 + bodyLen b₁ b₂ b₃) <+: message := by
    obtain ⟨t, ht⟩ := h
    rw [← hwhole, ← ht, take_append]
    exact prefix_append _ _
  have hread : readClientHello (message ++ extra) = readBody (4 + bodyLen b₁ b₂ b₃) message := by
    rw [hmessage] at hwhole ⊢
    exact (readClientHello_header b₁ b₂ b₃ (body ++ extra)).trans (congrArg _ hwhole)
  have hread' : readClientHello part = readBody (4 + bodyLen b₁ b₂ b₃) _ :=
    hpart ▸ readClientHello_header b₁ b₂ b₃ rest
  rw [hread, hread', hsize]
  obtain h | ⟨n, hneeds, hlt, hle⟩ := sound_readBody _ htake (zero_le _)
  · exact .inl h
  · refine .inr ⟨n, hneeds, ?_, hle⟩
    rw [length_take] at hlt
    omega

/-- On a part of a message the verdict is the one on the whole, or more is needed of it. -/
theorem sound_readClientHello (h : IsMessage message) (extra : GoString) :
    Sound errors (message ++ extra) message.length 0 readClientHello := by
  obtain ⟨type, b₁, b₂, b₃, body, rfl, hlen⟩ := h
  intro part hpart _
  cases part with
  | nil => exact .inr ⟨1, rfl, by simp, by simp⟩
  | cons type' rest =>
    have hrest := hpart
    rw [cons_append, cons_prefix_cons] at hrest
    obtain ⟨rfl, hrest⟩ := hrest
    by_cases htype : type' = tlsHandshakeTypeClientHello
    · subst htype
      by_cases hshort : rest.length < 3
      · exact .inr ⟨4, readClientHello_short hshort, by simp; omega, by simp⟩
      · obtain ⟨a, b, c, rest, rfl⟩ := exists_three (not_lt.mp hshort)
        simp only [cons_append, cons_prefix_cons] at hrest
        obtain ⟨rfl, rfl, rfl, -⟩ := hrest
        exact sound_of_header hlen rfl rfl hpart
    · left
      rw [cons_append, readClientHello_other htype, readClientHello_other htype]
      exact ⟨rfl, nofun, nofun⟩

/-- Anything is the beginning of some message. -/
theorem exists_message (data : GoString) :
    ∃ message extra, IsMessage message ∧ data <+: message ++ extra := by
  obtain ⟨type, rest, heq⟩ : ∃ type rest, data ++ replicate 4 0 = type :: rest := by
    cases data with
    | nil | cons type rest => exact ⟨_, _, rfl⟩
  have hlen := congrArg length heq
  obtain ⟨b₁, b₂, b₃, rest, rfl⟩ := @exists_three rest (by simp at hlen; omega)
  -- fill up with zeros to the size that the header asks for
  refine ⟨type :: b₁ :: b₂ :: b₃ :: (rest ++ replicate (bodyLen b₁ b₂ b₃) 0).take
    (bodyLen b₁ b₂ b₃), (rest ++ replicate (bodyLen b₁ b₂ b₃) 0).drop (bodyLen b₁ b₂ b₃),
    ⟨type, b₁, b₂, b₃, _, rfl, by simp⟩, ?_⟩
  have hpre : data <+: data ++ replicate 4 0 := prefix_append _ _
  rw [heq] at hpre
  refine hpre.trans ⟨replicate (bodyLen b₁ b₂ b₃) 0, ?_⟩
  simp only [cons_append, take_append_drop]

theorem readClientHello_ne_outOfRange (data : GoString) :
    readClientHello data ≠ .error .outOfRange := by
  obtain ⟨message, extra, hmessage, hpre⟩ := exists_message data
  obtain ⟨_, hfinal⟩ | ⟨n, hneeds, _⟩ := sound_readClientHello hmessage extra data hpre (zero_le _)
  · exact hfinal.1
  · rw [hneeds]
    exact nofun

/-! ### Verdicts on a part of the wire -/

/-- A TLS record with a part of a handshake message. -/
structure Record where
  minor : UInt8
  payload : GoString
  pos : 0 < payload.length
  le : payload.length ≤ tlsMaxPlaintext

def Record.header (r : Record) : GoString :=
  [tlsRecordTypeHandshake, 3, r.minor, UInt8.ofNat (r.payload.length >>> 8),
    UInt8.ofNat r.payload.length]

def Record.bytes (r : Record) : GoString := r.header ++ r.payload

/-- What is sent for some records. -/
def wire (records : List Record) : GoString := records.flatMap Record.bytes

/-- What is sent in some records. -/
def payloads (records : List Record) : GoString := records.flatMap Record.payload

/-- How much of the wire it takes to have the first `n` bytes of the payloads. -/
def wireLength : List Record → Nat → Nat
  | [], _ => 0
  | r :: records, n =>
    tlsRecordHeaderLen +
      if n ≤ r.payload.length then n
      else r.payload.length + wireLength records (n - r.payload.length)

theorem slice_append (a b c : GoString) :
    slice errors (a ++ (b ++ c)) a.length (a.length + b.length) = .ok b := by
  rw [slice, if_pos ⟨by omega, by simp only [length_append]; omega⟩]
  simp

theorem exists_header (h : 5 ≤ data.length) :
    ∃ type major minor hi lo rest, data = [type, major, minor, hi, lo] ++ rest := by
  match data, h with
  | [], h | [_], h | [_, _], h | [_, _, _], h | [_, _, _, _], h => simp at h
  | type :: major :: minor :: hi :: lo :: rest, _ =>
    exact ⟨type, major, minor, hi, lo, rest, rfl⟩

/-- One iteration of the loop, on a record of which `got` has arrived. -/
theorem sniffLoop_eq (seen : GoString) {major minor hi lo : UInt8}
    (hb : b = done ++ ([type, major, minor, hi, lo] ++ rest)) :
    sniffLoop b seen done.length =
      if type ≠ tlsRecordTypeHandshake ∨ ¬ isValidTLSVersion major minor then .error .notTLS
      else
        let recordLen := hi.toNat <<< 8 ||| lo.toNat
        if recordLen > tlsMaxPlaintext then .error .notTLS
        else if recordLen = 0 then .error .notClientHello
        else
          let got := rest.take recordLen
          let clientHello := if done.length = 0 then got else seen ++ got
          match readClientHello clientHello with
          | .ok domain => .ok domain
          | .error (.needAtLeastData length) =>
            if rest.length < recordLen then
              .error (.needAtLeastData
                (b.length + min (length - clientHello.length) (recordLen - rest.length)))
            else sniffLoop b clientHello (done.length + 5 + recordLen)
          | .error err => .error err := by
  have hlen : b.length = done.length + 5 + rest.length := by
    rw [hb]
    simp only [length_append, length_cons, length_nil]
    omega
  have hfive : tlsRecordHeaderLen = 5 := rfl
  have hheader : slice errors b done.length (done.length + tlsRecordHeaderLen) =
      .ok [type, major, minor, hi, lo] := by
    rw [hb]
    exact slice_append done _ rest
  have hrecord : uint16At [type, major, minor, hi, lo] 3 = .ok (hi.toNat <<< 8 ||| lo.toNat) := rfl
  rw [sniffLoop, if_neg (by simp only [tlsRecordHeaderLen]; omega), hheader, ok_bind]
  simp only [readByte_cons_zero, readByte_cons_succ, ok_bind, hrecord]
  generalize hi.toNat <<< 8 ||| lo.toNat = recordLen
  -- the end of what has arrived of the payload
  have hend : (if (if b.length > done.length + tlsRecordHeaderLen + recordLen then
        done.length + tlsRecordHeaderLen + recordLen else b.length) <
        done.length + tlsRecordHeaderLen then done.length + tlsRecordHeaderLen
      else if b.length > done.length + tlsRecordHeaderLen + recordLen then
        done.length + tlsRecordHeaderLen + recordLen else b.length) =
      done.length + tlsRecordHeaderLen + (rest.take recordLen).length := by
    rw [length_take]
    split
    · next hgt =>
      rw [if_neg (by omega)]
      omega
    · next hgt =>
      rw [if_neg (by omega)]
      omega
  have hpayload : slice errors b (done.length + tlsRecordHeaderLen)
      (done.length + tlsRecordHeaderLen + (rest.take recordLen).length) =
      .ok (rest.take recordLen) := by
    have hsplit : b = (done ++ [type, major, minor, hi, lo]) ++
        (rest.take recordLen ++ rest.drop recordLen) := by
      rw [hb, take_append_drop, append_assoc]
    rw [hsplit]
    have h := slice_append (done ++ [type, major, minor, hi, lo]) (rest.take recordLen)
      (rest.drop recordLen)
    rwa [length_append] at h
  rw [hend, hpayload]
  simp only [ok_bind]
  split
  · rfl
  · split
    · rfl
    · split
      · rfl
      · generalize (if done.length = 0 then rest.take recordLen else seen ++ rest.take recordLen) =
          clientHello
        cases readClientHello clientHello with
        | ok domain => rfl
        | error err =>
          cases err with
          | needAtLeastData length =>
            simp only [tlsRecordHeaderLen, length_take]
            by_cases hlt : rest.length < recordLen
            · rw [if_pos (by omega), if_pos hlt]
              congr 2
              split <;> omega
            · rw [if_neg (by omega), if_neg hlt]
          | noClue | notTLS | notClientHello | outOfRange => rfl

theorem sniffLoop_short {wireOffset : Nat} (h : b.length < wireOffset + 5) :
    sniffLoop b seen wireOffset = .error (.needAtLeastData (wireOffset + 5)) := by
  rw [sniffLoop, if_pos (by simp only [tlsRecordHeaderLen]; omega)]
  rfl

theorem sniffLoop_ne_outOfRange (b seen : GoString) (wireOffset : Nat)
    (h : wireOffset ≤ b.length) : sniffLoop b seen wireOffset ≠ .error .outOfRange := by
  induction hm : b.length - wireOffset using Nat.strongRecOn generalizing seen wireOffset with
  | ind m ih =>
    by_cases hshort : b.length < wireOffset + 5
    · rw [sniffLoop_short hshort]
      exact nofun
    · obtain ⟨type, major, minor, hi, lo, rest, hdrop⟩ :=
        @exists_header (b.drop wireOffset) (by simp; omega)
      have hb : b = b.take wireOffset ++ ([type, major, minor, hi, lo] ++ rest) := by
        rw [← hdrop, take_append_drop]
      have hlen : (b.take wireOffset).length = wireOffset := by simp [h]
      have hrest := congrArg length hdrop
      simp only [length_drop, length_append, length_cons, length_nil] at hrest
      have heq := sniffLoop_eq seen hb
      rw [hlen] at heq
      rw [heq]
      simp only
      split
      · exact nofun
      · split
        · exact nofun
        · split
          · exact nofun
          · split
            · exact nofun
            · split
              · exact nofun
              · exact ih _ (by omega) _ _ (by omega) rfl
            · next err _ hread =>
              rw [← hread]
              exact readClientHello_ne_outOfRange _

theorem recordLen_eq {n : Nat} (h : n ≤ tlsMaxPlaintext) :
    (UInt8.ofNat (n >>> 8)).toNat <<< 8 ||| (UInt8.ofNat n).toNat = n := by
  have hlt : n < 2 ^ 16 := lt_of_le_of_lt h (by decide)
  have hlow : (UInt8.ofNat n).toNat < 2 ^ 8 := (UInt8.ofNat n).toNat_lt
  rw [← shiftLeft_add_eq_or_of_lt hlow, shiftLeft_eq, UInt8.toNat_ofNat',
    UInt8.toNat_ofNat', shiftRight_eq_div_pow]
  omega

/-- One iteration of the loop on a record that was sent. -/
theorem sniffLoop_record {b done rest seen : GoString} (r : Record)
    (hb : b = done ++ (r.header ++ rest)) (hseen : done = [] → seen = []) :
    sniffLoop b seen done.length =
      match readClientHello (seen ++ rest.take r.payload.length) with
      | .ok domain => .ok domain
      | .error (.needAtLeastData length) =>
        if rest.length < r.payload.length then
          .error (.needAtLeastData (b.length +
            min (length - (seen ++ rest.take r.payload.length).length)
              (r.payload.length - rest.length)))
        else sniffLoop b (seen ++ rest.take r.payload.length) (done.length + 5 + r.payload.length)
      | .error err => .error err := by
  have hhello : (if done.length = 0 then rest.take r.payload.length
      else seen ++ rest.take r.payload.length) = seen ++ rest.take r.payload.length := by
    split
    · next h => rw [hseen (length_eq_zero_iff.mp h), nil_append]
    · rfl
  have hle := r.le
  have hpos := r.pos
  rw [sniffLoop_eq seen hb, if_neg (by simp [isValidTLSVersion])]
  simp only [recordLen_eq r.le, hhello]
  rw [if_neg (by omega), if_neg (by omega)]

theorem exists_of_prefix_append (h : b <+: front ++ back)
    (hlen : front.length ≤ b.length) : ∃ rest, b = front ++ rest ∧ rest <+: back := by
  obtain ⟨rest, rfl⟩ := prefix_of_prefix_length_le (prefix_append front back) h hlen
  exact ⟨rest, rfl, (prefix_append_right_inj front).mp h⟩

theorem take_prefix_of_prefix_append (h : rest <+: front ++ back) :
    rest.take front.length <+: front := by
  obtain ⟨t, ht⟩ := h
  have hprefix : rest.take front.length <+: (rest ++ t).take front.length := by
    rw [take_append]
    exact prefix_append _ _
  rwa [ht, take_left] at hprefix

/-- The loop passes on a verdict. -/
theorem match_of_final (answer : Except SniffError GoString)
    (onNeed : Nat → Except SniffError GoString) :
    Final errors answer → (match answer with
      | .ok domain => .ok domain
      | .error (.needAtLeastData length) => onNeed length
      | .error err => .error err) = answer := by
  intro h
  cases answer with
  | ok domain => rfl
  | error err =>
    cases err with
    | needAtLeastData length => exact absurd rfl (h.2 length)
    | noClue | notTLS | notClientHello | outOfRange => rfl

/-- The loop on a part of the wire, when some records have been read and were not enough. -/
theorem sniffLoop_settles {tail : GoString} (hmessage : IsMessage message)
    {records : List Record} (hseen : done = [] → seen = [])
    (hdata : seen ++ payloads records = message ++ extra) (hlt : seen.length < message.length)
    (hb : b <+: done ++ (wire records ++ tail)) (hdone : done.length ≤ b.length) :
    sniffLoop b seen done.length = readClientHello (message ++ extra) ∨
      ∃ n, sniffLoop b seen done.length = .error (.needAtLeastData n) ∧ b.length < n ∧
        n ≤ done.length + wireLength records (message.length - seen.length) := by
  have hsound := sound_readClientHello hmessage extra
  have hfive : tlsRecordHeaderLen = 5 := rfl
  induction records generalizing done seen with
  | nil =>
    have hlen := congrArg length hdata
    simp [payloads] at hlen
    omega
  | cons r records ih =>
    by_cases hshort : b.length < done.length + 5
    · refine .inr ⟨_, sniffLoop_short hshort, hshort, ?_⟩
      simp only [wireLength]
      omega
    · have hwire : wire (r :: records) ++ tail =
          r.header ++ (r.payload ++ (wire records ++ tail)) := by
        simp [wire, Record.bytes]
      rw [hwire] at hb
      obtain ⟨b', rfl, hb'⟩ := exists_of_prefix_append hb hdone
      have hheader : r.header.length = 5 := rfl
      simp only [length_append] at hshort
      obtain ⟨rest, rfl, hrest⟩ := exists_of_prefix_append hb' (by omega)
      have hpart : seen ++ rest.take r.payload.length <+: message ++ extra := by
        rw [← hdata, prefix_append_right_inj]
        exact (take_prefix_of_prefix_append hrest).trans (prefix_append _ _)
      rw [sniffLoop_record r rfl hseen]
      obtain ⟨heq, hfinal⟩ | ⟨n, hneeds, hlt', hle⟩ := hsound _ hpart (zero_le _)
      · left
        exact (match_of_final _ _ hfinal).trans heq
      · rw [hneeds]
        simp only [errors]
        simp only [length_append, length_take] at hlt' ⊢
        by_cases hmore : rest.length < r.payload.length
        · -- the rest of this record is needed, or a part of it
          rw [if_pos hmore]
          refine .inr ⟨_, rfl, by omega, ?_⟩
          simp only [wireLength]
          split <;> omega
        · rw [if_neg hmore]
          obtain ⟨rest', rfl, hrest'⟩ := exists_of_prefix_append hrest (by omega)
          rw [take_left] at hpart ⊢
          simp only [length_append] at hlt' hmore
          have hoffset : done.length + 5 + r.payload.length = (done ++ r.bytes).length := by
            simp only [Record.bytes, length_append]
            omega
          have hsplit : done ++ (r.header ++ (r.payload ++ rest')) = done ++ r.bytes ++ rest' := by
            simp [Record.bytes]
          have hlong : r.payload.length < message.length - seen.length := by omega
          simp only [wireLength, if_neg (not_le.mpr hlong)]
          rw [hoffset]
          have h := @ih (done ++ r.bytes) (seen ++ r.payload) (by simp [Record.bytes, Record.header])
            (by rw [← hdata]; simp [payloads]) (by simp only [length_append]; omega)
            (by rw [hsplit, prefix_append_right_inj]; exact hrest') (by rw [hsplit]; simp)
          refine h.imp_right ?_
          rintro ⟨n', hn', hlt'', hle'⟩
          rw [← hoffset, List.length_append, ← Nat.sub_sub] at hle'
          exact ⟨n', hn', by simpa only [length_append] using hlt'', by omega⟩

theorem readClientHello_append (h : IsMessage message) (extra : GoString) :
    readClientHello message = readClientHello (message ++ extra) :=
  ((sound_readClientHello h extra).final (prefix_append _ _) (zero_le _) (le_refl _)).1

/-- Whatever records a handshake message comes in, with or without something behind it, and however
much of them has arrived: the sniffer gives the verdict on the whole message, or asks for more than
has arrived and for no more than the message takes. It never reads outside of its input. -/
theorem sniffTLS_settles :
    (∀ (message extra tail b : GoString) (records : List Record), IsMessage message →
      payloads records = message ++ extra → b <+: wire records ++ tail →
        (sniffTLS b = readClientHello message ∨
          ∃ n, sniffTLS b = .error (.needAtLeastData n) ∧ b.length < n ∧
            n ≤ wireLength records message.length) ∧
        (wireLength records message.length ≤ b.length → sniffTLS b = readClientHello message) ∧
        ∀ n, readClientHello message ≠ .error (.needAtLeastData n)) ∧
    ∀ b : GoString, sniffTLS b ≠ .error .outOfRange ∧ readClientHello b ≠ .error .outOfRange := by
  refine ⟨fun message extra tail b records hmessage hdata hb => ?_, fun b =>
    ⟨sniffLoop_ne_outOfRange b [] 0 (zero_le _), readClientHello_ne_outOfRange b⟩⟩
  have hpos : 0 < message.length := by
    obtain ⟨type, b₁, b₂, b₃, body, rfl, -⟩ := hmessage
    simp
  have hfinal : Final errors (readClientHello message) :=
    ((sound_readClientHello hmessage []).final (prefix_append _ _) (zero_le _) (le_refl _)).2
  have hsettles : sniffTLS b = readClientHello message ∨
      ∃ n, sniffTLS b = .error (.needAtLeastData n) ∧ b.length < n ∧
        n ≤ wireLength records message.length := by
    have h := @sniffLoop_settles extra message b [] [] tail hmessage records (fun _ => rfl) hdata
      hpos hb (zero_le _)
    rw [← readClientHello_append hmessage] at h
    simpa only [sniffTLS, List.length_nil, Nat.zero_add, Nat.sub_zero] using h
  refine ⟨hsettles, fun hlen => ?_, hfinal.2⟩
  obtain heq | ⟨n, _, hlt, hle⟩ := hsettles
  · exact heq
  · omega

/-- The body of a ClientHello for the server `a.b`. -/
def helloBody : GoString :=
  [3, 3] ++ List.replicate 32 0 ++ [0, 0, 2, 0x13, 1, 1, 0, 0, 12, 0, 0, 0, 8, 0, 6, 0, 0, 3] ++ lit "a.b"

/-- The ClientHello in two records, the first of which ends within the header. -/
def helloRecords : List Record :=
  [⟨1, [1, 0], by decide, by decide⟩, ⟨3, 0 :: 55 :: helloBody, by decide, by decide⟩]

/-- The server name is found in two records. -/
theorem sniffTLS_helloRecords : sniffTLS (wire helloRecords) = .ok (lit "a.b") := by
  have hmessage : IsMessage (1 :: 0 :: 0 :: 55 :: helloBody) := ⟨1, 0, 0, 55, helloBody, rfl, rfl⟩
  have hread : readClientHello (1 :: 0 :: 0 :: 55 :: helloBody) = .ok (lit "a.b") := by
    decide +kernel
  rw [← hread]
  exact (sniffTLS_settles.1 _ [] [] (wire helloRecords) helloRecords hmessage rfl
    ⟨[], rfl⟩).2.1 (by decide)

end Hako.Sniffer
