import Hako.GoLib.Io
import Hako.Vision.Write

/-!
# The reading side of a Vision connection

`Read` goes through the frames of the stream: it reads a header, gives the content to the caller,
discards the padding, and goes on with the next header until a frame has ended padding. What it has
read and does not fit into the caller's buffer is kept for the next call.
-/

namespace Hako.Vision

open GoLib GoLib.Binary List Option

/-! ### Calls -/

inductive ReadError where
  | eof
  | unexpectedEOF
  | unknownUUID
  | unknownCommand
  /-- The connection below takes over. -/
  | direct
  /-- The recursion was cut off. -/
  | cut
deriving DecidableEq

structure Result where
  bytes : GoString
  err : Option ReadError
deriving DecidableEq

/-- The fields of a connection that its reading side uses. -/
structure Reader where
  filter : Filter
  remainingBuffer : Option GoString
  remainingContent : Nat
  remainingPadding : Nat
  process : Bool
  filterUUID : Bool
  lastCommand : UInt8

def newReader : Reader := ⟨newFilter, none, 0, 0, true, true, 0⟩

/-- Read until there are `n` bytes or the end is told, as `io.ReadFull` and `io.CopyN` do. -/
def readN (n : Nat) : Nat → Net → GoString → GoString × Net
  | 0, net, got => (got, net)
  | fuel + 1, net, got =>
    if n ≤ got.length then (got, net)
    else
      let (chunk, eof, net) := net.read (n - got.length)
      if eof then (got ++ chunk, net) else readN n fuel net (got ++ chunk)

def readUpTo (n : Nat) (net : Net) : GoString × Net :=
  readN n (net.wire.length + net.sizes.length + 1) net []

/-- `eof` as an error. -/
def endError (eof : Bool) : Option ReadError := if eof then some .eof else none

section Read

variable (userUUID : GoString)

/-- `readBuffer` into a buffer with some room. -/
def readBuffer : Nat → Nat → Net → Reader → Result × Reader × Net
  | 0, _, net, r => (⟨[], some .cut⟩, r, net)
  | fuel + 1, free, net, r =>
    match r.remainingBuffer with
    | some kept =>
      (⟨kept.take free, endError (kept = [])⟩,
        { r with remainingBuffer := if kept.drop free = [] then none else some (kept.drop free) },
        net)
    | none =>
      if 0 < r.remainingContent then
        let readSize := min (max xrayBufSize free) r.remainingContent
        let (chunk, eof, net) := net.read readSize
        let r := { r with
          remainingContent := r.remainingContent - chunk.length
          filter := filterTLS r.filter chunk }
        if free < readSize then
          let (result, r, net) := readBuffer fuel free net { r with remainingBuffer := some chunk }
          ({ result with err := if eof then result.err else none }, r, net)
        else (⟨chunk, endError eof⟩, r, net)
      else
        let (discarded, net) := readUpTo r.remainingPadding net
        if discarded.length < r.remainingPadding then (⟨[], some .eof⟩, r, net)
        else
          let r := { r with remainingPadding := 0 }
          if r.process then
            if r.lastCommand = commandPaddingContinue then
              let need := if r.filterUUID then paddingHeaderLen else paddingHeaderLen - uuidSize
              let (head, net) := readUpTo need net
              if head.length < need then
                (⟨[], some (if head = [] then .eof else .unexpectedEOF)⟩, r, net)
              else if r.filterUUID ∧ head.take uuidSize ≠ userUUID then
                (⟨[], some .unknownUUID⟩, { r with filterUUID := false }, net)
              else
                let head := if r.filterUUID then head.drop uuidSize else head
                readBuffer fuel free net { r with
                  filterUUID := false
                  remainingPadding := uint16At head 3
                  remainingContent := uint16At head 1
                  lastCommand := head.getD 0 0 }
            else if r.lastCommand = commandPaddingEnd then
              readBuffer fuel free net { r with process := false }
            else if r.lastCommand = commandPaddingDirect then (⟨[], some .direct⟩, r, net)
            else (⟨[], some .unknownCommand⟩, r, net)
          else
            let (chunk, eof, net) := net.read free
            (⟨chunk, endError eof⟩, r, net)

/-- `Read` into a slice of some length. -/
def read (size : Nat) (net : Net) (r : Reader) : Result × Reader × Net :=
  if r.process then readBuffer userUUID (net.wire.length + 3) size net r
  else
    let (chunk, eof, net) := net.read size
    (⟨chunk, endError eof⟩, r, net)

/-- A sequence of calls with slices of some lengths. -/
def readAll : List Nat → Net → Reader → List Result
  | [], _, _ => []
  | size :: sizes, net, r =>
    let (result, r, net) := read userUUID size net r
    result :: readAll sizes net r

end Read

/-- The bytes that some calls have returned. -/
def received (results : List Result) : GoString := results.flatMap Result.bytes

/-! ### Reads of the connection below -/

variable {net : Net} {userUUID payload : GoString} {eof : Bool}

theorem Net.read_length_le (net : Net) (limit : Nat) : (net.read limit).1.length ≤ limit := by
  unfold Net.read
  split
  · simp
  · rw [length_take]
    split <;> omega

variable {limit n : Nat} {net' : Net} {r : Reader}

/-- A read gives something, or the end is told, or the connection has used up one of the reads that
it cuts short. -/
theorem Net.read_progress (net : Net) (hlimit : 0 < limit) :
    (net.read limit).2.2.sizes.length ≤ net.sizes.length ∧
      ((net.read limit).1 ≠ [] ∨ (net.read limit).2.1 = true ∨
        (net.read limit).2.2.sizes.length < net.sizes.length) := by
  obtain ⟨wire, sizes, lastEOF⟩ := net
  unfold Net.read
  split
  · exact ⟨le_refl _, .inr (.inl rfl)⟩
  · next hne =>
    cases sizes with
    | nil =>
      refine ⟨le_refl _, .inl fun h => ?_⟩
      obtain h0 | hnil := take_eq_nil_iff.mp h
      · exact absurd h0 (Nat.ne_of_gt hlimit)
      · exact hne hnil
    | cons k ks => exact ⟨by simp, .inr (.inr (by simp))⟩

theorem readN_spec {fuel : Nat} {net : Net} {got : GoString}
    (hfuel : net.wire.length + net.sizes.length < fuel) (hn : got.length ≤ n)
    (hlen : n ≤ got.length + net.wire.length) :
    (readN n fuel net got).1 = got ++ net.wire.take (n - got.length) ∧
      (readN n fuel net got).2.wire = net.wire.drop (n - got.length) ∧
      (readN n fuel net got).2.sizes.length ≤ net.sizes.length := by
  induction fuel generalizing net got with
  | zero => omega
  | succ fuel ih =>
    rw [readN]
    by_cases hdone : n ≤ got.length
    · rw [if_pos hdone, Nat.sub_eq_zero_of_le hdone]
      simp
    · rw [if_neg hdone]
      have hpos : 0 < n - got.length := by omega
      have hle := Net.read_length_le net (n - got.length)
      have hsizes := (Net.read_progress net hpos).1
      generalize hread : net.read (n - got.length) = result at hle hsizes
      obtain ⟨chunk, eof, net'⟩ := result
      obtain ⟨hwire, heof, hmore⟩ := Net.read_spec hpos hread
      simp only at hle hsizes
      cases eof with
      | true =>
        have hnil := heof rfl
        rw [hnil, append_nil] at hwire
        have hfull : chunk.length = n - got.length := by
          rw [hwire] at hlen
          omega
        dsimp only
        rw [if_pos rfl, hwire, ← hfull]
        refine ⟨by simp, ?_, hsizes⟩
        simp [hnil]
      | false =>
        dsimp only
        rw [if_neg Bool.false_ne_true]
        have hmeasure := hmore rfl
        have hlength : net.wire.length = chunk.length + net'.wire.length := by
          rw [hwire, length_append]
        obtain ⟨h₁, h₂, h₃⟩ := @ih net' (got ++ chunk) (by omega)
          (by rw [length_append]; omega) (by rw [length_append]; omega)
        have hsplit : n - got.length = chunk.length + (n - (got ++ chunk).length) := by
          rw [length_append]
          omega
        refine ⟨?_, ?_, le_trans h₃ hsizes⟩
        · rw [h₁, hwire, hsplit, take_length_add_append, append_assoc]
        · rw [h₂, hwire, hsplit, drop_length_add_append]

/-- As many bytes as are asked for, if they come. -/
theorem readUpTo_append {front back : GoString} (hwire : net.wire = front ++ back)
    (hn : front.length = n) : (readUpTo n net).1 = front ∧ (readUpTo n net).2.wire = back ∧
      (readUpTo n net).2.sizes.length ≤ net.sizes.length := by
  subst hn
  obtain ⟨h₁, h₂, h₃⟩ := @readN_spec front.length _ net [] (Nat.lt_succ_self _) (Nat.zero_le _)
    (by rw [hwire]; simp)
  refine ⟨?_, ?_, h₃⟩
  · rw [readUpTo, h₁, hwire]
    simp
  · rw [readUpTo, h₂, hwire]
    simp

theorem readUpTo_nil (hwire : net.wire = []) : readUpTo n net = ([], net) := by
  rw [readUpTo, readN]
  split
  · rfl
  · simp [Net.read, hwire]

/-! ### What a reader has still to give -/

/-- What is behind the current frame: more frames, or raw bytes. -/
def Rest (userUUID : GoString) (r : Reader) (wire payload : GoString) : Prop :=
  if r.process then
    (r.lastCommand = commandPaddingContinue ∧
        Encoded (if r.filterUUID then some userUUID else none) wire payload) ∨
      (r.lastCommand = commandPaddingEnd ∧ wire = payload)
  else wire = payload

/-- The reader has `payload` still to give: what it keeps, the content of the current frame, and
what comes behind its padding. -/
structure Awaits (userUUID : GoString) (r : Reader) (net : Net) (payload : GoString) : Prop where
  frame : ∃ content padding wire more, net.wire = content ++ (padding ++ wire) ∧
    content.length = r.remainingContent ∧ padding.length = r.remainingPadding ∧
    payload = r.remainingBuffer.getD [] ++ (content ++ more) ∧ Rest userUUID r wire more
  kept : r.remainingBuffer ≠ some []
  raw : r.process = false →
    r.remainingBuffer = none ∧ r.remainingContent = 0 ∧ r.remainingPadding = 0

/-- What one call may come to: some of the bytes, or the end where none is left. -/
structure Continues (userUUID : GoString) (net : Net) (free : Nat) (payload : GoString)
    (out : Result × Reader × Net) : Prop where
  rest : ∃ more, payload = out.1.bytes ++ more ∧ Awaits userUUID out.2.1 out.2.2 more ∧
    (out.1.err = some .eof → more = [])
  err : out.1.err = none ∨ out.1.err = some .eof
  sizes : out.2.2.sizes.length ≤ net.sizes.length
  progress : 0 < free →
    out.1.bytes ≠ [] ∨ out.1.err = some .eof ∨ out.2.2.sizes.length < net.sizes.length

theorem Continues.mono {free : Nat} {out : Result × Reader × Net}
    (h : Continues userUUID net' free payload out) (hsizes : net'.sizes.length ≤ net.sizes.length) :
    Continues userUUID net free payload out :=
  ⟨h.rest, h.err, le_trans h.sizes hsizes, fun hfree =>
    (h.progress hfree).imp_right (Or.imp_right fun hlt => lt_of_lt_of_le hlt hsizes)⟩

theorem header_length (userUUID : Option GoString) (command : UInt8) (contentLen paddingLen : Nat) :
    (header userUUID command contentLen paddingLen).length = (userUUID.getD []).length + 5 := by
  simp [header, length_putUint16]

theorem Encoded.eq_nil {userUUID : Option GoString} (h : Encoded userUUID [] payload) :
    payload = [] := by
  generalize hwire : ([] : GoString) = wire at h
  cases h with
  | nil => rfl
  | next _ _ _ | last _ _ =>
    have := congrArg length hwire
    simp [header_length] at this
    omega

theorem endError_eq : endError eof = none ∨ endError eof = some .eof := by
  cases eof
  · exact .inl rfl
  · exact .inr rfl

theorem eof_of_endError (h : endError eof = some .eof) : eof = true := by
  cases eof
  · cases h
  · rfl

theorem Rest.eq_nil (h : Rest userUUID r [] payload) : payload = [] := by
  unfold Rest at h
  split at h
  · obtain ⟨_, henc⟩ | ⟨_, heq⟩ := h
    · exact henc.eq_nil
    · exact heq.symm
  · exact h.symm

/-- A read of any size takes bytes from the front of the wire. -/
theorem Net.read_split {chunk : GoString} (h : net.read limit = (chunk, eof, net')) :
    net.wire = chunk ++ net'.wire ∧ (eof = true → net'.wire = []) ∧
      net'.sizes.length ≤ net.sizes.length := by
  unfold Net.read at h
  split at h
  · next hnil =>
    cases h
    exact ⟨rfl, fun _ => hnil, le_refl _⟩
  · cases h
    refine ⟨(take_append_drop ..).symm, fun he => ?_, by simp⟩
    exact of_decide_eq_true (Bool.and_eq_true_iff.mp he).1

variable {free fuel : Nat}

theorem getD_dropKept (kept : GoString) :
    (if kept.drop free = [] then none else some (kept.drop free)).getD [] = kept.drop free := by
  split
  · next hnil => exact hnil.symm
  · rfl

theorem dropKept_ne (kept : GoString) :
    (if kept.drop free = [] then none else some (kept.drop free)) ≠ some [] := by
  split
  · exact nofun
  · next hne => exact fun h => hne (some.inj h)

theorem take_ne_nil {bytes : GoString} (hfree : 0 < free) (h : bytes ≠ []) :
    bytes.take free ≠ [] := by
  intro htake
  obtain h0 | hnil := take_eq_nil_iff.mp htake
  · omega
  · exact h hnil

/-- What was kept is given first. -/
theorem continues_kept {kept : GoString} (hr : r.remainingBuffer = some kept)
    (h : Awaits userUUID r net payload) :
    Continues userUUID net free payload (readBuffer userUUID (fuel + 1) free net r) := by
  obtain ⟨⟨content, padding, wire, more, hwire, hcontent, hpadding, hpayload, hrest⟩, hkept, hraw⟩ := h
  have hne : kept ≠ [] := fun hnil => hkept (hnil ▸ hr)
  simp only [readBuffer, hr, endError, hne, decide_false, Bool.false_eq_true, if_false]
  refine ⟨⟨kept.drop free ++ (content ++ more), ?_, ⟨⟨content, padding, wire, more, hwire, hcontent,
    hpadding, by rw [getD_dropKept], hrest⟩, dropKept_ne kept, fun hp => ?_⟩, nofun⟩, .inl rfl,
    le_refl _, fun hfree => .inl (take_ne_nil hfree hne)⟩
  · change payload = kept.take free ++ _
    rw [hpayload, hr, getD_some, ← append_assoc (kept.take free), take_append_drop]
  · rw [(hraw hp).1] at hr
    cases hr

/-- A part of the content is read, and kept if there is no room for it. -/
theorem continues_content (hr : r.remainingBuffer = none) (hpos : 0 < r.remainingContent)
    (h : Awaits userUUID r net payload) :
    Continues userUUID net free payload (readBuffer userUUID (fuel + 2) free net r) := by
  obtain ⟨⟨content, padding, wire, more, hwire, hcontent, hpadding, hpayload, hrest⟩, -, hraw⟩ := h
  rw [hr, getD_none, nil_append] at hpayload
  have hprocess : r.process = true := by
    cases hp : r.process with
    | true => rfl
    | false => have := (hraw hp).2.1; omega
  rw [readBuffer]
  simp only [hr, if_pos hpos]
  have hsize : 0 < min (max xrayBufSize free) r.remainingContent := by
    have : 0 < xrayBufSize := by decide
    omega
  have hle := Net.read_length_le net (min (max xrayBufSize free) r.remainingContent)
  have hprogress := (Net.read_progress net hsize).2
  generalize hread : net.read (min (max xrayBufSize free) r.remainingContent) = out at hle hprogress
  obtain ⟨chunk, eof, net'⟩ := out
  obtain ⟨hsplit, heof, hsizes⟩ := Net.read_split hread
  simp only at hle hprogress
  -- the chunk is the front of the content
  obtain ⟨content', rfl⟩ : ∃ content', content = chunk ++ content' := by
    have hpre : chunk <+: content ++ (padding ++ wire) := ⟨net'.wire, hsplit.symm.trans hwire⟩
    obtain ⟨t, ht⟩ := prefix_of_prefix_length_le hpre (prefix_append _ _) (by omega)
    exact ⟨t, ht.symm⟩
  have hwire' : net'.wire = content' ++ (padding ++ wire) := by
    rw [hsplit, append_assoc] at hwire
    exact append_cancel_left hwire
  have hcontent' : content'.length = r.remainingContent - chunk.length := by
    rw [length_append] at hcontent
    omega
  -- nothing is left where the end is told
  have hend : eof = true → content' = [] ∧ more = [] := by
    intro he
    have hnil := hwire'.symm.trans (heof he)
    obtain ⟨h₁, h₂⟩ := append_eq_nil_iff.mp hnil
    obtain ⟨_, h₃⟩ := append_eq_nil_iff.mp h₂
    exact ⟨h₁, (h₃ ▸ hrest).eq_nil⟩
  have hchunk : chunk ≠ [] ∨ net'.sizes.length < net.sizes.length := by
    obtain hne | he | hlt := hprogress
    · exact .inl hne
    · left
      rintro rfl
      rw [(hend he).1] at hcontent
      simp at hcontent
      omega
    · exact .inr hlt
  dsimp only
  split
  · simp only [readBuffer]
    refine ⟨⟨chunk.drop free ++ (content' ++ more), ?_, ⟨⟨content', padding, wire, more, hwire',
      hcontent', hpadding, by rw [getD_dropKept], hrest⟩, dropKept_ne chunk, fun hp => ?_⟩,
      fun herr => ?_⟩, ?_, hsizes, fun hfree => ?_⟩
    · change payload = chunk.take free ++ _
      rw [hpayload, ← append_assoc (chunk.take free), take_append_drop, append_assoc]
    · exact absurd (hprocess.symm.trans hp) nofun
    · cases eof with
      | false => cases herr
      | true =>
        obtain ⟨h₁, h₂⟩ := hend rfl
        have hnil : chunk = [] := of_decide_eq_true (eof_of_endError herr)
        simp [h₁, h₂, hnil]
    · cases eof with
      | false => exact .inl rfl
      | true => exact endError_eq
    · exact hchunk.imp (take_ne_nil hfree) .inr
  · refine ⟨⟨content' ++ more, by rw [hpayload, append_assoc], ⟨⟨content', padding, wire, more,
      hwire', hcontent', hpadding, by simp, hrest⟩, by simp, fun hp => ?_⟩, fun herr => ?_⟩,
      ?_, hsizes, fun _ => ?_⟩
    · exact absurd (hprocess.symm.trans hp) nofun
    · obtain ⟨h₁, h₂⟩ := hend (eof_of_endError herr)
      rw [h₁, h₂, append_nil]
    · exact endError_eq
    · exact hchunk.imp_right .inr

/-- Behind the last frame the bytes are read as they are. -/
theorem continues_raw (hr : r.remainingBuffer = none) (hcontent : r.remainingContent = 0)
    (hpadding : r.remainingPadding = 0) (hwire : Rest userUUID r net.wire payload)
    (hp : r.process = false) :
    Continues userUUID net free payload
      (⟨(net.read free).1, endError (net.read free).2.1⟩, r, (net.read free).2.2) := by
  generalize hread : net.read free = out
  obtain ⟨chunk, eof, net'⟩ := out
  obtain ⟨hsplit, heof, hsizes⟩ := Net.read_split hread
  have hraw : ∀ {wire more : GoString}, Rest userUUID r wire more ↔ wire = more := by
    simp [Rest, hp]
  rw [hraw] at hwire
  refine ⟨⟨net'.wire, hwire.symm.trans hsplit, ⟨⟨[], [], net'.wire, net'.wire, rfl, hcontent.symm,
    hpadding.symm, by simp [hr], hraw.mpr rfl⟩, by simp [hr], fun _ => ⟨hr, hcontent, hpadding⟩⟩,
    fun herr => heof (eof_of_endError herr)⟩, endError_eq, hsizes, fun hfree => ?_⟩
  have hprogress := (Net.read_progress net hfree).2
  rw [hread] at hprogress
  obtain hne | he | hlt := hprogress
  · exact .inl hne
  · exact .inr (.inl (by simp only at he; simp [endError, he]))
  · exact .inr (.inr hlt)

variable {contentLen paddingLen : Nat}

theorem uint16At_header (command : UInt8)
    (hcontent : contentLen < 2 ^ 16) (hpadding : paddingLen < 2 ^ 16) :
    uint16At (command :: (putUint16 contentLen ++ putUint16 paddingLen)) 1 = contentLen ∧
      uint16At (command :: (putUint16 contentLen ++ putUint16 paddingLen)) 3 = paddingLen := by
  constructor
  · exact uint16_pair hcontent
  · exact uint16_pair hpadding

variable (free) in
/-- The padding of a frame is discarded, and the next header is read. -/
theorem readBuffer_header (huuid : userUUID.length = uuidSize) (hr : r.remainingBuffer = none)
    (hcontent : r.remainingContent = 0) (hp : r.process = true)
    (hcommand : r.lastCommand = commandPaddingContinue) {padding back : GoString} {command : UInt8}
    (hpadding : padding.length = r.remainingPadding)
    (hwire : net.wire = padding ++ (header (if r.filterUUID then some userUUID else none) command
      contentLen paddingLen ++ back))
    (hcontentLen : contentLen < 2 ^ 16) (hpaddingLen : paddingLen < 2 ^ 16) :
    ∃ net', net'.wire = back ∧ net'.sizes.length ≤ net.sizes.length ∧
      readBuffer userUUID (fuel + 1) free net r = readBuffer userUUID fuel free net' { r with
        filterUUID := false
        remainingPadding := paddingLen
        remainingContent := contentLen
        lastCommand := command } := by
  obtain ⟨hdiscard, hwire₁, hsizes₁⟩ := readUpTo_append hwire hpadding
  have hneed : (header (if r.filterUUID then some userUUID else none) command contentLen
      paddingLen).length = if r.filterUUID then paddingHeaderLen else paddingHeaderLen - uuidSize := by
    rw [header_length]
    cases r.filterUUID
    · rfl
    · simp [huuid, paddingHeaderLen, uuidSize]
  obtain ⟨hhead, hwire₂, hsizes₂⟩ := readUpTo_append hwire₁ hneed
  refine ⟨_, hwire₂, le_trans hsizes₂ hsizes₁, ?_⟩
  obtain ⟨hlen₁, hlen₃⟩ := uint16At_header command hcontentLen hpaddingLen
  rw [readBuffer]
  simp only [hr, hcontent, lt_irrefl, if_false, hdiscard, hpadding, hp, if_true, hcommand, hhead,
    hneed]
  cases hf : r.filterUUID with
  | false => simp [header, hlen₁, hlen₃]
  | true =>
    have htake : (header (some userUUID) command contentLen paddingLen).take uuidSize = userUUID := by
      rw [← huuid, header, getD_some, take_left]
    have hdrop : (header (some userUUID) command contentLen paddingLen).drop uuidSize =
        command :: (putUint16 contentLen ++ putUint16 paddingLen) := by
      rw [← huuid, header, getD_some, drop_left]
    simp [htake, hdrop, hlen₁, hlen₃]

section

variable (hr : r.remainingBuffer = none) (hcontent : r.remainingContent = 0)
include hr hcontent

/-- At the end of the stream there is no header. -/
theorem continues_eof (hp : r.process = true) (hcommand : r.lastCommand = commandPaddingContinue)
    (hpadding : net.wire.length = r.remainingPadding) :
    Continues userUUID net free [] (readBuffer userUUID (fuel + 1) free net r) := by
  obtain ⟨hdiscard, hwire₁, hsizes₁⟩ := readUpTo_append (append_nil net.wire).symm hpadding
  have hneed : 0 < if r.filterUUID then paddingHeaderLen else paddingHeaderLen - uuidSize := by
    cases r.filterUUID <;> decide
  rw [readBuffer]
  simp only [hr, hcontent, lt_irrefl, if_false, hdiscard, hpadding, hp, if_true, hcommand,
    readUpTo_nil hwire₁, length_nil, if_pos hneed]
  refine ⟨⟨[], rfl, ⟨⟨[], [], [], [], hwire₁, by simp, rfl, by simp, ?_⟩, by simp, by simp⟩,
    fun _ => rfl⟩, .inr rfl, hsizes₁, fun _ => .inr (.inl rfl)⟩
  rw [Rest, if_pos rfl]
  exact .inl ⟨rfl, .nil⟩

theorem readBuffer_end (hp : r.process = true) (hcommand : r.lastCommand = commandPaddingEnd)
    (hlen : r.remainingPadding = (readUpTo r.remainingPadding net).1.length) :
    readBuffer userUUID (fuel + 1) free net r =
      readBuffer userUUID fuel free (readUpTo r.remainingPadding net).2
        { r with remainingPadding := 0, process := false } := by
  have hne : commandPaddingEnd ≠ commandPaddingContinue := by decide
  rw [readBuffer]
  simp [hr, hcontent, hp, hcommand, hne, ← hlen]

theorem readBuffer_raw (hpadding : r.remainingPadding = 0) (hp : r.process = false) :
    readBuffer userUUID (fuel + 1) free net r =
      (⟨(net.read free).1, endError (net.read free).2.1⟩, r, (net.read free).2.2) := by
  obtain ⟨filter, remainingBuffer, remainingContent, remainingPadding, process, filterUUID,
    lastCommand⟩ := r
  obtain ⟨rfl, rfl, rfl, rfl⟩ : _ ∧ _ ∧ _ ∧ _ := ⟨hr, hcontent, hpadding, hp⟩
  rw [readBuffer]
  simp [readUpTo, readN]

end

section

variable (huuid : userUUID.length = uuidSize)
include huuid

/-- One call gives what comes next, whatever is left of the current frame. The recursion ends
because every header takes bytes from the wire. -/
theorem readBuffer_spec (hp : r.process = true)
    (hfuel : net.wire.length + 3 ≤ fuel) (h : Awaits userUUID r net payload) :
    Continues userUUID net free payload (readBuffer userUUID fuel free net r) := by
  induction fuel generalizing net r payload with
  | zero => omega
  | succ fuel ih =>
    cases hr : r.remainingBuffer with
    | some kept => exact continues_kept hr h
    | none =>
      by_cases hpos : 0 < r.remainingContent
      · obtain ⟨fuel, rfl⟩ : ∃ n, fuel = n + 1 := ⟨fuel - 1, by omega⟩
        exact continues_content hr hpos h
      · have hcontent₀ : r.remainingContent = 0 := by omega
        obtain ⟨⟨content, padding, wire, more, hwire, hcontent, hpadding, hpayload, hrest⟩, -, -⟩ := h
        obtain rfl : content = [] := length_eq_zero_iff.mp (hcontent.trans hcontent₀)
        simp only [hr, getD_none, nil_append] at hpayload hwire
        subst hpayload
        -- behind a header the same holds with less on the wire
        have hheader : r.lastCommand = commandPaddingContinue → ∀ {command : UInt8}
            {content padding' back more : GoString},
            net.wire = padding ++ (header (if r.filterUUID then some userUUID else none) command
              content.length padding'.length ++ (content ++ padding' ++ back)) →
            content.length < 2 ^ 16 → padding'.length < 2 ^ 16 →
            Rest userUUID { r with filterUUID := false, lastCommand := command } back more →
            Continues userUUID net free (content ++ more)
              (readBuffer userUUID (fuel + 1) free net r) := by
          intro hcommand command content padding' back more hwire hc hp' hrest
          obtain ⟨net', hwire', hsizes, heq⟩ := readBuffer_header free huuid hr hcontent₀
            hp hcommand hpadding hwire hc hp'
          rw [heq]
          refine (ih (r := { r with
              filterUUID := false
              remainingPadding := padding'.length
              remainingContent := content.length
              lastCommand := command }) hp ?_ ⟨⟨content, padding', back, more, ?_, rfl, rfl, ?_, ?_⟩,
            ?_, ?_⟩).mono hsizes
          · have hlen := congrArg length hwire
            simp only [length_append, header_length] at hlen
            rw [hwire', length_append, length_append]
            omega
          · rw [hwire', append_assoc]
          · simp [hr]
          · exact hrest
          · simp [hr]
          · exact fun hraw => absurd (hp.symm.trans hraw) nofun
        rw [Rest, if_pos hp] at hrest
        obtain ⟨hcommand, henc⟩ | ⟨hcommand, rfl⟩ := hrest
        · generalize hu : (if r.filterUUID then some userUUID else none) = u at henc
          cases henc with
          | nil => exact continues_eof hr hcontent₀ hp hcommand (by simpa [hwire] using hpadding)
          | next hc hp' henc =>
            rw [← hu, append_assoc] at hwire
            exact hheader hcommand hwire hc hp' (by rw [Rest, if_pos hp]; exact .inl ⟨rfl, henc⟩)
          | last hc hp' =>
            rw [← hu, append_assoc] at hwire
            exact hheader hcommand hwire hc hp' (by rw [Rest, if_pos hp]; exact .inr ⟨rfl, rfl⟩)
        · obtain ⟨hdiscard, hwire', hsizes⟩ := readUpTo_append hwire hpadding
          obtain ⟨fuel, rfl⟩ : ∃ n, fuel = n + 1 := ⟨fuel - 1, by omega⟩
          rw [readBuffer_end hr hcontent₀ hp hcommand (by rw [hdiscard, hpadding]),
            readBuffer_raw (r := { r with remainingPadding := 0, process := false }) hr hcontent₀ rfl
              rfl]
          have hraw : Rest userUUID { r with remainingPadding := 0, process := false }
              (readUpTo r.remainingPadding net).2.wire wire := by
            rw [Rest, if_neg Bool.false_ne_true]
            exact hwire'
          exact (continues_raw (r := { r with remainingPadding := 0, process := false }) hr
            hcontent₀ rfl hraw rfl).mono hsizes

theorem read_spec (h : Awaits userUUID r net payload) :
    Continues userUUID net free payload (read userUUID free net r) := by
  unfold read
  split
  · next hp => exact readBuffer_spec huuid hp (le_refl _) h
  · next hp =>
    have hp : r.process = false := by simpa using hp
    obtain ⟨hr, hcontent, hpadding⟩ := h.raw hp
    obtain ⟨content, padding, wire, more, hwire, hc, hpad, hpayload, hrest⟩ := h.frame
    obtain rfl := length_eq_zero_iff.mp (hc.trans hcontent)
    obtain rfl := length_eq_zero_iff.mp (hpad.trans hpadding)
    simp only [hr, getD_none, nil_append] at hpayload hwire
    subst hpayload hwire
    exact continues_raw hr hcontent hpadding hrest hp

/-- The calls return the payload and nothing else: they never fail, what they have returned is a
part of the payload from its start on, and all of it when the end is told, which comes after a call
for each byte and for each read that the connection below cuts short. -/
structure Delivers (net : Net) (sizes : List Nat) (results : List Result) (payload : GoString) :
    Prop where
  ok : ∀ result ∈ results, result.err = none ∨ result.err = some .eof
  isPrefix : received results <+: payload
  complete : (∃ result ∈ results, result.err = some .eof) → received results = payload
  ends : payload.length + net.sizes.length < sizes.countP (0 < ·) →
    ∃ result ∈ results, result.err = some .eof

omit huuid in
theorem received_cons (result : Result) (results : List Result) :
    received (result :: results) = result.bytes ++ received results := rfl

theorem readAll_delivers {sizes : List Nat} (h : Awaits userUUID r net payload) :
    Delivers net sizes (readAll userUUID sizes net r) payload := by
  induction sizes generalizing net r payload with
  | nil => exact ⟨nofun, nil_prefix, nofun, fun hlt => absurd hlt (Nat.not_lt_zero _)⟩
  | cons size sizes ih =>
    have hstep := @read_spec net userUUID payload r size huuid h
    rw [readAll]
    generalize read userUUID size net r = out at hstep
    obtain ⟨result, r', net'⟩ := out
    obtain ⟨⟨more, rfl, hnext, heof⟩, herr, hsizes, hprogress⟩ := hstep
    simp only at herr hsizes hprogress heof hnext
    obtain ⟨ok, hprefix, complete, ends⟩ := ih hnext
    dsimp only
    refine ⟨forall_mem_cons.mpr ⟨herr, ok⟩, ?_, ?_, fun hlt => ?_⟩
    · rw [received_cons]
      exact (prefix_append_right_inj _).mpr hprefix
    · rintro ⟨result', hmem, hend⟩
      rw [received_cons]
      obtain rfl | hmem := mem_cons.mp hmem
      · -- nothing comes behind the end
        obtain rfl := heof hend
        rw [prefix_nil.mp hprefix]
      · rw [complete ⟨result', hmem, hend⟩]
    · by_cases hend : result.err = some .eof
      · exact ⟨result, mem_cons_self, hend⟩
      · obtain ⟨result', hmem, hend'⟩ := ends (by
          rw [length_append] at hlt
          by_cases hsize : 0 < size
          · have hcount : (size :: sizes).countP (0 < ·) = sizes.countP (0 < ·) + 1 :=
              countP_cons_of_pos (decide_eq_true hsize)
            obtain hne | he | hless := hprogress hsize
            · have := length_pos_iff.mpr hne
              omega
            · exact absurd he hend
            · omega
          · rw [countP_cons_of_neg (by simpa using hsize)] at hlt
            omega)
        exact ⟨result', mem_cons_of_mem _ hmem, hend'⟩

end

/-- The peer reads what was written, however the calls on both sides, the padding and the reads of
the connection below turn out, as long as no call switches to direct writing. -/
theorem vision_delivers (chance : Nat → Chance) (userUUID : GoString)
    (huuid : userUUID.length = uuidSize) (calls : List Call)
    (hdirect : (writeAll chance (newWriter userUUID) calls).1.direct = false)
    (reads : List Nat) (lastEOF : Bool) (sizes : List Nat) :
    Delivers ⟨(writeAll chance (newWriter userUUID) calls).2, reads, lastEOF⟩ sizes
      (readAll userUUID sizes ⟨(writeAll chance (newWriter userUUID) calls).2, reads, lastEOF⟩
        newReader) (calls.flatMap Call.payload) := by
  have henc := writeAll_encoded chance userUUID calls hdirect
  exact readAll_delivers huuid ⟨⟨[], [], _, _, rfl, rfl, rfl, rfl, .inl ⟨rfl, henc⟩⟩, nofun, nofun⟩

/-- Two calls, the first of them with an empty buffer, read byte by byte. -/
theorem vision_delivers_hello :
    received (readAll (replicate 16 7) (replicate 8 1)
      ⟨(writeAll (fun _ => ⟨0, 3, fun _ => 0xff⟩) (newWriter (replicate 16 7))
        [.writeBuffer [], .write [lit "he", lit "llo"]]).2, [], false⟩ newReader) = lit "hello" := by
  have h := vision_delivers (fun _ => ⟨0, 3, fun _ => 0xff⟩) (replicate 16 7) rfl
    [.writeBuffer [], .write [lit "he", lit "llo"]] (by decide +kernel) [] false
    (replicate 8 1)
  exact h.complete (h.ends (by decide))

end Hako.Vision
