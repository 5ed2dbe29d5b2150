import Hako.GoLib.Binary
import Hako.GoLib.Io
import Hako.Lib.Reads

/-!
# The TLS disguise of simple-obfs

A client and a server send their bytes as TLS records. The first record of the client is a fake
hello that carries its first bytes as a session ticket, with other extensions behind it; the first
one of the server follows on a fake hello in the same write. A reader skips what stands before the
bytes by its length, which is fixed, and the server skips the other extensions of the hello when it
has read the ticket to its end.

A record that is longer than the buffer is read in several calls; `remain` counts what is left.
-/

namespace Hako.Obfs

open GoLib Lib Binary List Option

def chunkSize : Nat := 16384

/-! ### Writing -/

/-- What a hello holds that is drawn or taken from the clock. -/
structure Draws where
  random : List.Vector UInt8 28
  sessionID : List.Vector UInt8 32
  unix : Nat

/-- A hello of the client up to the length of the session ticket. -/
def clientHelloStart (draws : Draws) (dataLength serverLength : Nat) : List UInt8 :=
  -- handshake, TLS 1.0 version, length
  [22, 0x03, 0x01] ++ putUint16 (212 + dataLength + serverLength) ++
  -- clientHello, length, TLS 1.2 version
  ([1, 0] ++ putUint16 (208 + dataLength + serverLength) ++ [0x03, 0x03]) ++
  -- random with timestamp, sid len, sid
  (Addr.bytesOf 4 draws.unix ++ draws.random.toList ++ [32] ++ draws.sessionID.toList) ++
  -- cipher suites
  [0x00, 0x38,
    0xc0, 0x2c, 0xc0, 0x30, 0x00, 0x9f, 0xcc, 0xa9, 0xcc, 0xa8, 0xcc, 0xaa, 0xc0, 0x2b, 0xc0, 0x2f,
    0x00, 0x9e, 0xc0, 0x24, 0xc0, 0x28, 0x00, 0x6b, 0xc0, 0x23, 0xc0, 0x27, 0x00, 0x67, 0xc0, 0x0a,
    0xc0, 0x14, 0x00, 0x39, 0xc0, 0x09, 0xc0, 0x13, 0x00, 0x33, 0x00, 0x9d, 0x00, 0x9c, 0x00, 0x3d,
    0x00, 0x3c, 0x00, 0x35, 0x00, 0x2f, 0x00, 0xff] ++
  -- compression, extension length, session ticket
  ([0x01, 0x00] ++ putUint16 (79 + dataLength + serverLength) ++ [0x00, 0x23])

/-- The server name extension up to the length of the name. -/
def serverNameStart (serverLength : Nat) : List UInt8 :=
  [0x00, 0x00] ++ putUint16 (serverLength + 5) ++ putUint16 (serverLength + 3) ++ [0]

/-- The extensions that are the same in every hello. -/
def fixedExts : List UInt8 :=
  -- ec_point
  [0x00, 0x0b, 0x00, 0x04, 0x03, 0x01, 0x00, 0x02] ++
  -- groups
  [0x00, 0x0a, 0x00, 0x0a, 0x00, 0x08, 0x00, 0x1d, 0x00, 0x17, 0x00, 0x19, 0x00, 0x18] ++
  -- signature
  [0x00, 0x0d, 0x00, 0x20, 0x00, 0x1e, 0x06, 0x01, 0x06, 0x02, 0x06, 0x03, 0x05,
    0x01, 0x05, 0x02, 0x05, 0x03, 0x04, 0x01, 0x04, 0x02, 0x04, 0x03, 0x03, 0x01,
    0x03, 0x02, 0x03, 0x03, 0x02, 0x01, 0x02, 0x02, 0x02, 0x03] ++
  -- encrypt then mac, extended master secret
  [0x00, 0x16, 0x00, 0x00] ++ [0x00, 0x17, 0x00, 0x00]

/-- What stands behind the session ticket. -/
def otherExts (server : List UInt8) : List UInt8 :=
  serverNameStart server.length ++ (putUint16 server.length ++ (server ++ fixedExts))

/-- `makeClientHelloMsg` -/
def makeClientHelloMsg (draws : Draws) (server data : List UInt8) : List UInt8 :=
  clientHelloStart draws data.length server.length ++
    (putUint16 data.length ++ (data ++ otherExts server))

/-- A hello of the server up to the length of its data. -/
def serverHelloStart (draws : Draws) : List UInt8 :=
  ([0x16] ++ putUint16 0x0301 ++ putUint16 91 ++ [2, 0, 0, 87, 0x03, 0x03]) ++
  (Addr.bytesOf 4 draws.unix ++ draws.random.toList ++ [32] ++ draws.sessionID.toList) ++
  ([0xcc, 0xa8] ++ [0] ++ [0x00, 0x00] ++ [0xff, 0x01, 0x00, 0x01, 0x00] ++
    [0x00, 0x17, 0x00, 0x00] ++ [0x00, 0x0b, 0x00, 0x02, 0x01, 0x00]) ++
  [0x14, 0x03, 0x03, 0x00, 0x01, 0x01] ++ [0x16, 0x03, 0x03]

/-- `makeServerHello` -/
def makeServerHello (draws : Draws) (data : List UInt8) : List UInt8 :=
  serverHelloStart draws ++ (putUint16 data.length ++ data)

/-- A record that is not the first one of its side. -/
def record (b : List UInt8) : List UInt8 := [0x17, 0x03, 0x03] ++ (putUint16 b.length ++ b)

section Writing

variable (hello : List UInt8 → List UInt8)

/-- `write` of both sides, which differ in their hello: the first chunk goes into it. -/
def writeChunk (first : Bool) (b : List UInt8) : List UInt8 :=
  if first then hello b else record b

/-- The loop of `Write` of both sides. -/
def writeLoop (first : Bool) (b : List UInt8) : Bool × List UInt8 :=
  if _ : b = [] then (first, [])
  else
    let rest := writeLoop false (b.drop chunkSize)
    (rest.1, writeChunk hello first (b.take chunkSize) ++ rest.2)
termination_by b.length
decreasing_by
  rw [length_drop]
  exact Nat.sub_lt (length_pos_iff.mpr ‹_›) (by decide)

/-- Calls of `Write` in a row: whether the next chunk is the first one, and the bytes that go out. -/
def writes (first : Bool) : List (List UInt8) → Bool × List UInt8
  | [] => (first, [])
  | b :: bs =>
    let start := writeLoop hello first b
    let rest := writes start.1 bs
    (rest.1, start.2 ++ rest.2)

end Writing

/-- `TLSObfs.Write`, called in a row on a new connection. -/
def TLSObfs.writes (draws : Draws) (server : List UInt8) (bs : List (List UInt8)) : List UInt8 :=
  (Obfs.writes (makeClientHelloMsg draws server) true bs).2

/-- `TLSObfsServer.Write`, called in a row on a new connection. -/
def TLSObfsServer.writes (draws : Draws) (bs : List (List UInt8)) : List UInt8 :=
  (Obfs.writes (makeServerHello draws) true bs).2

/-! ### Reading -/

/-- `read` of both sides: the bytes for a buffer of `n` bytes, what `remain` is set to, and the wire
behind; none while it waits. -/
def readBody (n discardN remain : Nat) (wire : Wire) : Option (List UInt8 × Nat × Wire) := do
  let (_, wire) ← wire.readFull discardN
  let (sizeBuf, wire) ← wire.readFull 2
  let length := uint16 sizeBuf
  if n < length then
    let (bytes, wire) ← wire.read n
    return (bytes, length - bytes.length, wire)
  else
    let (bytes, wire) ← wire.readFull length
    return (bytes, remain, wire)

/-- The reading half of a client. -/
structure TLSObfs where
  wire : Wire
  remain : Nat
  firstResponse : Bool

/-- `TLSObfs.Read` -/
def TLSObfs.read (n : Nat) (c : TLSObfs) : Option (List UInt8 × TLSObfs) :=
  if 0 < c.remain then do
    let (bytes, wire) ← c.wire.readFull (min c.remain n)
    return (bytes, { c with wire := wire, remain := c.remain - bytes.length })
  else do
    let (bytes, remain, wire) ← readBody n (if c.firstResponse then 105 else 3) c.remain c.wire
    return (bytes, ⟨wire, remain, false⟩)

/-- The reading half of a server. -/
structure TLSObfsServer where
  wire : Wire
  remain : Nat
  firstRequest : Bool
  sessionTicketDone : Bool

/-- `skipOtherExts`: what `remain` is set to, and the wire. -/
def skipOtherExts (remain : Nat) (wire : Wire) : Option (Nat × Wire) := do
  let (_, remain, wire) ← readBody 256 7 remain wire
  let (_, wire) ← wire.readFull (4 * 16 + 2)
  return (remain, wire)

/-- `TLSObfsServer.Read` -/
def TLSObfsServer.read (n : Nat) (c : TLSObfsServer) : Option (List UInt8 × TLSObfsServer) :=
  if 0 < c.remain then do
    let (bytes, wire) ← c.wire.readFull (min c.remain n)
    return (bytes, { c with wire := wire, remain := c.remain - bytes.length })
  else if c.firstRequest then do
    let (bytes, remain, wire) ← readBody n (9 * 16 - 4) c.remain c.wire
    return (bytes, { c with wire := wire, remain := remain, firstRequest := false })
  else do
    let (remain, wire) ←
      if c.sessionTicketDone then some (c.remain, c.wire) else skipOtherExts c.remain c.wire
    let (bytes, remain, wire) ← readBody n 3 remain wire
    return (bytes, ⟨wire, remain, false, true⟩)

/-! ### Chunks on the wire -/

/-- What `Write` cuts its bytes into. -/
def Chunks (chunks : List (List UInt8)) : Prop := ∀ b ∈ chunks, b ≠ [] ∧ b.length ≤ chunkSize

/-- The bytes of some chunks. -/
def sentChunks (hello : List UInt8 → List UInt8) (first : Bool) : List (List UInt8) → List UInt8
  | [] => []
  | b :: chunks => writeChunk hello first b ++ chunks.flatMap record

theorem sentChunks_append {hello : List UInt8 → List UInt8} {first : Bool}
    {chunks more : List (List UInt8)} :
    sentChunks hello first (chunks ++ more) =
      sentChunks hello first chunks ++ sentChunks hello (first && chunks.isEmpty) more := by
  cases chunks with
  | nil => simp [sentChunks]
  | cons b chunks =>
    cases more with
    | nil => simp [sentChunks]
    | cons c more => simp [sentChunks, writeChunk]

theorem writeLoop_eq (hello : List UInt8 → List UInt8) (first : Bool) (b : List UInt8) :
    ∃ chunks, Chunks chunks ∧ chunks.flatten = b ∧
      writeLoop hello first b = (first && chunks.isEmpty, sentChunks hello first chunks) := by
  fun_induction writeLoop hello first b with
  | case1 first => exact ⟨[], nofun, rfl, by rw [isEmpty_nil, Bool.and_true]; rfl⟩
  | case2 first b hb rest ih =>
    obtain ⟨chunks, hchunks, hflatten, hrest⟩ := ih
    refine ⟨b.take chunkSize :: chunks, ?_, ?_, ?_⟩
    · refine forall_mem_cons.mpr ⟨⟨?_, length_take_le _ _⟩, hchunks⟩
      rw [ne_eq, take_eq_nil_iff, not_or]
      exact ⟨by decide, hb⟩
    · rw [flatten_cons, hflatten, take_append_drop]
    · have hsent : sentChunks hello false chunks = chunks.flatMap record := by
        cases chunks <;> rfl
      simp only [rest, hrest, hsent, Bool.false_and, isEmpty_cons, Bool.and_false]
      rfl

theorem writes_eq (hello : List UInt8 → List UInt8) (first : Bool) (bs : List (List UInt8)) :
    ∃ chunks, Chunks chunks ∧ chunks.flatten = bs.flatten ∧
      writes hello first bs = (first && chunks.isEmpty, sentChunks hello first chunks) := by
  induction bs generalizing first with
  | nil => exact ⟨[], nofun, rfl, by rw [isEmpty_nil, Bool.and_true]; rfl⟩
  | cons b bs ih =>
    obtain ⟨chunks, hchunks, hflatten, hwrite⟩ := writeLoop_eq hello first b
    obtain ⟨more, hmore, hflatten', hwrites⟩ := ih (first && chunks.isEmpty)
    refine ⟨chunks ++ more, forall_mem_append.mpr ⟨hchunks, hmore⟩, ?_, ?_⟩
    · rw [flatten_append, hflatten, hflatten', flatten_cons]
    · rw [writes, hwrite]
      rw [hwrites, sentChunks_append, Bool.and_assoc]
      cases chunks <;> rfl

/-! ### Reading a record -/

section Reading

variable {wire : Wire} {start data tail rest : List UInt8} {n discardN : Nat}
  {draws : Draws} {server : List UInt8} {c : TLSObfsServer}
  {chunks : List (List UInt8)} {items : List UInt8}

theorem Chunks.exists_cons (h : Chunks chunks) (hflatten : chunks.flatten ≠ []) :
    ∃ b rest, chunks = b :: rest ∧ b ≠ [] ∧ b.length < 2 ^ 16 ∧ Chunks rest := by
  cases chunks with
  | nil => exact absurd rfl hflatten
  | cons b rest =>
    obtain ⟨⟨hb, hlength⟩, hrest⟩ := forall_mem_cons.mp h
    exact ⟨b, rest, rfl, hb, lt_of_le_of_lt hlength (by decide), hrest⟩

theorem Chunks.eq_nil (h : Chunks chunks) (hflatten : chunks.flatten = []) : chunks = [] :=
  eq_nil_iff_forall_not_mem.mpr fun b hb => (h b hb).1 (flatten_eq_nil_iff.mp hflatten b hb)

/-- A record is read up to the size of the buffer, and the rest of it remains. -/
theorem readBody_of_flatten
    (hwire : wire.flatten = start ++ (putUint16 data.length ++ (data ++ rest)))
    (hstart : start.length = discardN) (hdata : data ≠ []) (hlt : data.length < 2 ^ 16)
    (hn : 0 < n) :
    ∃ out tail wire', readBody n discardN 0 wire = some (out, tail.length, wire') ∧
      data = out ++ tail ∧ out ≠ [] ∧ wire'.flatten = tail ++ rest := by
  obtain ⟨wire₁, hread₁, hwire₁⟩ := Wire.readFull_of_flatten hwire hstart
  obtain ⟨wire₂, hread₂, hwire₂⟩ := Wire.readFull_of_flatten hwire₁ (length_putUint16 _)
  have hlength := uint16_putUint16 hlt []
  rw [append_nil] at hlength
  rw [readBody]
  simp only [hread₁, hread₂, bind_eq_bind, bind_some, hlength]
  by_cases hlong : n < data.length
  · rw [if_pos hlong]
    obtain ⟨out, wire₃, hread₃, hne, hle, hwire₃⟩ := @Wire.read_of_flatten n wire₂ hn
      (by rw [hwire₂]; exact append_ne_nil_of_left_ne_nil hdata _)
    -- an underlying read stays within the record, because the buffer does
    rw [hwire₂] at hwire₃
    obtain ⟨tail, rfl, hrest⟩ : ∃ tail, data = out ++ tail ∧ wire₃.flatten = tail ++ rest := by
      rcases append_eq_append_iff.mp hwire₃ with ⟨tail, hout, -⟩ | ⟨tail, hdata', hrest⟩
      · exact absurd (congrArg List.length hout) (by rw [length_append]; omega)
      · exact ⟨tail, hdata', hrest⟩
    refine ⟨out, tail, wire₃, ?_, rfl, hne, hrest⟩
    rw [hread₃, bind_some, length_append, Nat.add_sub_cancel_left]
    rfl
  · rw [if_neg hlong]
    obtain ⟨wire₃, hread₃, hwire₃⟩ := Wire.readFull_of_flatten hwire₂ rfl
    refine ⟨data, [], wire₃, ?_, (append_nil _).symm, hdata, hwire₃⟩
    rw [hread₃]
    rfl

/-- With no bytes on the wire a record cannot be read. -/
theorem readBody_eq_none (hwire : wire.flatten = []) (hpos : 0 < discardN) (remain : Nat) :
    readBody n discardN remain wire = none := by
  rw [readBody, Wire.readFull_eq_none (by rw [hwire]; exact hpos)]
  rfl

/-- What remains of a record is read as far as the buffer takes it. -/
theorem readFull_remain (hwire : wire.flatten = tail ++ rest) (hn : 0 < n) (htail : tail ≠ []) :
    ∃ out left wire', wire.readFull (min tail.length n) = some (out, wire') ∧ tail = out ++ left ∧
      tail.length - out.length = left.length ∧ out ≠ [] ∧ wire'.flatten = left ++ rest := by
  rw [← take_append_drop n tail, append_assoc] at hwire
  obtain ⟨wire', hread, hwire'⟩ :=
    Wire.readFull_of_flatten hwire (by rw [length_take, Nat.min_comm])
  refine ⟨_, _, wire', hread, (take_append_drop n tail).symm, ?_, ?_, hwire'⟩
  · rw [length_take, length_drop]
    omega
  · rw [ne_eq, take_eq_nil_iff, not_or]
    exact ⟨Nat.pos_iff_ne_zero.mp hn, htail⟩

/-! ### The client -/

/-- What a client has still to read. -/
inductive TLSObfs.Left (draws : Draws) : TLSObfs → List UInt8 → Prop
  | fresh {wire : Wire} {chunks : List (List UInt8)} (hchunks : Chunks chunks)
    (hwire : wire.flatten = sentChunks (makeServerHello draws) true chunks) :
    Left draws ⟨wire, 0, true⟩ chunks.flatten
  | within {wire : Wire} {tail : List UInt8} {chunks : List (List UInt8)} (hchunks : Chunks chunks)
    (hwire : wire.flatten = tail ++ chunks.flatMap record) :
    Left draws ⟨wire, tail.length, false⟩ (tail ++ chunks.flatten)

theorem length_serverHelloStart (draws : Draws) : (serverHelloStart draws).length = 105 := by
  simp [serverHelloStart, length_putUint16, Addr.length_bytesOf]

open TLSObfsServer TLSObfs

/-- A client that is at the start of a record. -/
theorem TLSObfs.read_record {first : Bool}
    (hstart : start.length = if first then 105 else 3) (hdata : data ≠ [])
    (hlt : data.length < 2 ^ 16) (hchunks : Chunks chunks) (hwire : wire.flatten =
      start ++ (putUint16 data.length ++ (data ++ chunks.flatMap record))) (hn : 0 < n) :
    ∃ out rest c', read n ⟨wire, 0, first⟩ = some (out, c') ∧
      data ++ chunks.flatten = out ++ rest ∧ Left draws c' rest ∧ out ≠ [] := by
  obtain ⟨out, tail, wire', hread, rfl, hne, hwire'⟩ :=
    readBody_of_flatten hwire hstart hdata hlt hn
  refine ⟨out, tail ++ chunks.flatten, ⟨wire', tail.length, false⟩, ?_, ?_,
    .within hchunks hwire', hne⟩
  · rw [read, if_neg (lt_irrefl 0)]
    simp only [hread, bind_eq_bind, bind_some]
    rfl
  · rw [append_assoc]

theorem TLSObfs.read_gives {c : TLSObfs} (hn : 0 < n)
    (hleft : Left draws c items) (hitems : items ≠ []) :
    ∃ out rest c', c.read n = some (out, c') ∧ items = out ++ rest ∧ Left draws c' rest ∧
      out ≠ [] := by
  cases hleft with
  | fresh hchunks hwire =>
    obtain ⟨b, chunks, rfl, hb, hlt, hrest⟩ := hchunks.exists_cons hitems
    refine read_record (length_serverHelloStart draws) hb hlt hrest ?_ hn
    rw [hwire, sentChunks, writeChunk, if_pos rfl, makeServerHello]
    simp only [append_assoc]
  | within hchunks hwire =>
    rename_i wire tail chunks
    by_cases htail : tail = []
    · subst htail
      obtain ⟨b, chunks, rfl, hb, hlt, hrest⟩ := hchunks.exists_cons hitems
      rw [nil_append, flatten_cons]
      refine @read_record _ [0x17, 0x03, 0x03] _ _ _ _ false rfl hb hlt hrest ?_ hn
      rw [hwire, nil_append, flatMap_cons, record]
      simp only [append_assoc]
    · obtain ⟨out, left, wire', hread, hsplit, hleft, hne, hwire'⟩ := readFull_remain hwire hn htail
      refine ⟨out, left ++ chunks.flatten, ⟨wire', left.length, false⟩, ?_, ?_,
        .within hchunks hwire', hne⟩
      · rw [read, if_pos (length_pos_iff.mpr htail)]
        simp only [hread, bind_eq_bind, bind_some, hleft]
        rfl
      · rw [← append_assoc, hsplit]

/-- With no bytes on the wire a client waits for the next record. -/
theorem TLSObfs.read_eq_none (hwire : wire.flatten = []) (first : Bool) :
    read n ⟨wire, 0, first⟩ = none := by
  have hpos : 0 < if first then 105 else 3 := by split <;> decide
  rw [read, if_neg (lt_irrefl 0), readBody_eq_none hwire hpos]
  rfl

theorem TLSObfs.read_waits {c : TLSObfs} (hleft : Left draws c []) : c.read n = none := by
  generalize hitems : ([] : List UInt8) = items at hleft
  cases hleft with
  | fresh hchunks hwire =>
    obtain rfl := hchunks.eq_nil hitems.symm
    exact read_eq_none hwire true
  | within hchunks hwire =>
    obtain ⟨rfl, hflatten⟩ := append_eq_nil_iff.mp hitems.symm
    obtain rfl := hchunks.eq_nil hflatten
    exact read_eq_none hwire false

/-! ### The server -/

/-- What a server has still to read. -/
inductive TLSObfsServer.Left (draws : Draws) (server : List UInt8) : TLSObfsServer → List UInt8 → Prop
  | fresh {wire : Wire} {chunks : List (List UInt8)} (hchunks : Chunks chunks)
    (hwire : wire.flatten = sentChunks (makeClientHelloMsg draws server) true chunks) :
    Left draws server ⟨wire, 0, true, false⟩ chunks.flatten
  | within {wire : Wire} {tail : List UInt8} {chunks : List (List UInt8)} (ticketDone : Bool)
    (hchunks : Chunks chunks)
    (hwire : wire.flatten =
      tail ++ ((if ticketDone then [] else otherExts server) ++ chunks.flatMap record)) :
    Left draws server ⟨wire, tail.length, false, ticketDone⟩ (tail ++ chunks.flatten)

theorem length_clientHelloStart (draws : Draws) (dataLength serverLength : Nat) :
    (clientHelloStart draws dataLength serverLength).length = 9 * 16 - 4 := by
  simp [clientHelloStart, length_putUint16, Addr.length_bytesOf]

theorem length_serverNameStart (serverLength : Nat) :
    (serverNameStart serverLength).length = 7 := by
  simp [serverNameStart, length_putUint16]

/-- Behind what it skips, a server reads a record like a client. -/
theorem TLSObfsServer.read_skipped {ticketDone : Bool} {wire' : Wire}
    (hskip : (if ticketDone then some (0, wire) else skipOtherExts 0 wire) = some (0, wire')) :
    read n ⟨wire, 0, false, ticketDone⟩ =
      (readBody n 3 0 wire').bind fun r => some (r.1, ⟨r.2.2, r.2.1, false, true⟩) := by
  rw [read, if_neg (lt_irrefl 0), if_neg Bool.false_ne_true]
  cases ticketDone with
  | true =>
    cases hskip
    rfl
  | false =>
    replace hskip : skipOtherExts 0 wire = some (0, wire') := hskip
    simp only [hskip, Bool.false_eq_true, if_false, bind_eq_bind, bind_some]
    rfl

variable (hserver : server.length ≤ 255)
include hserver

/-- The extensions behind the ticket are skipped, whatever the name of the server. -/
theorem skipOtherExts_of_flatten (hwire : wire.flatten = otherExts server ++ rest) :
    ∃ wire', skipOtherExts 0 wire = some (0, wire') ∧ wire'.flatten = rest := by
  simp only [otherExts, append_assoc] at hwire
  obtain ⟨wire₁, hread₁, hwire₁⟩ := Wire.readFull_of_flatten hwire (length_serverNameStart _)
  obtain ⟨wire₂, hread₂, hwire₂⟩ := Wire.readFull_of_flatten hwire₁ (length_putUint16 _)
  obtain ⟨wire₃, hread₃, hwire₃⟩ := Wire.readFull_of_flatten hwire₂ rfl
  obtain ⟨wire₄, hread₄, hwire₄⟩ := @Wire.readFull_of_flatten (4 * 16 + 2) _ _ _ hwire₃ rfl
  have hlength := uint16_putUint16 (n := server.length) (by omega) []
  rw [append_nil] at hlength
  refine ⟨wire₄, ?_, hwire₄⟩
  -- the name fits into the buffer, so nothing of it remains
  rw [skipOtherExts, readBody]
  simp only [hread₁, hread₂, bind_eq_bind, bind_some, hlength,
    if_neg (show ¬ 256 < server.length by omega), hread₃]
  change (Wire.readFull (4 * 16 + 2) wire₃).bind _ = _
  rw [hread₄]
  rfl

/-- A server behind the ticket skips the extensions if it has to. -/
theorem skip_of_flatten (ticketDone : Bool)
    (hwire : wire.flatten = (if ticketDone then [] else otherExts server) ++ rest) :
    ∃ wire', (if ticketDone then some (0, wire) else skipOtherExts 0 wire) = some (0, wire') ∧
      wire'.flatten = rest := by
  cases ticketDone with
  | true => exact ⟨wire, rfl, hwire⟩
  | false => exact skipOtherExts_of_flatten hserver hwire

/-- Behind what it skips, a server comes to a record. -/
theorem TLSObfsServer.read_record (ticketDone : Bool) (hdata : data ≠ [])
    (hlt : data.length < 2 ^ 16) (hchunks : Chunks chunks)
    (hwire : wire.flatten = (if ticketDone then [] else otherExts server) ++
      (record data ++ chunks.flatMap record)) (hn : 0 < n) :
    ∃ out rest c', read n ⟨wire, 0, false, ticketDone⟩ = some (out, c') ∧
      data ++ chunks.flatten = out ++ rest ∧ Left draws server c' rest ∧ out ≠ [] := by
  obtain ⟨wire', hskip, hwire'⟩ := skip_of_flatten hserver ticketDone hwire
  obtain ⟨out, tail, wire'', hread, rfl, hne, hwire''⟩ :=
    @readBody_of_flatten _ [0x17, 0x03, 0x03] _ _ n 3 hwire' rfl hdata hlt hn
  refine ⟨out, tail ++ chunks.flatten, ⟨wire'', tail.length, false, true⟩, ?_, ?_,
    .within true hchunks hwire'', hne⟩
  · rw [read_skipped hskip, hread]
    rfl
  · rw [append_assoc]

theorem TLSObfsServer.read_gives (hn : 0 < n) (hleft : Left draws server c items)
    (hitems : items ≠ []) :
    ∃ out rest c', c.read n = some (out, c') ∧ items = out ++ rest ∧ Left draws server c' rest ∧
      out ≠ [] := by
  cases hleft with
  | fresh hchunks hwire =>
    obtain ⟨b, chunks, rfl, hb, hlt, hrest⟩ := hchunks.exists_cons hitems
    rw [sentChunks, writeChunk, if_pos rfl, makeClientHelloMsg] at hwire
    simp only [append_assoc] at hwire
    obtain ⟨out, tail, wire', hread, rfl, hne, hwire'⟩ :=
      readBody_of_flatten hwire (length_clientHelloStart ..) hb hlt hn
    refine ⟨out, tail ++ chunks.flatten, ⟨wire', tail.length, false, false⟩, ?_, ?_,
      .within false hrest hwire', hne⟩
    · rw [read, if_neg (lt_irrefl 0), if_pos rfl]
      simp only [hread, bind_eq_bind, bind_some]
      rfl
    · rw [flatten_cons, append_assoc]
  | within ticketDone hchunks hwire =>
    rename_i wire tail chunks
    by_cases htail : tail = []
    · subst htail
      obtain ⟨b, chunks, rfl, hb, hlt, hrest⟩ := hchunks.exists_cons hitems
      rw [nil_append, flatten_cons]
      exact read_record hserver ticketDone hb hlt hrest hwire hn
    · obtain ⟨out, left, wire', hread, hsplit, hleft, hne, hwire'⟩ := readFull_remain hwire hn htail
      refine ⟨out, left ++ chunks.flatten, ⟨wire', left.length, false, ticketDone⟩, ?_, ?_,
        .within ticketDone hchunks hwire', hne⟩
      · rw [read, if_pos (length_pos_iff.mpr htail)]
        simp only [hread, bind_eq_bind, bind_some, hleft]
        rfl
      · rw [← append_assoc, hsplit]

theorem TLSObfsServer.read_waits (hleft : Left draws server c []) : c.read n = none := by
  generalize hitems : ([] : List UInt8) = items at hleft
  cases hleft with
  | fresh hchunks hwire =>
    obtain rfl := hchunks.eq_nil hitems.symm
    rw [read, if_neg (lt_irrefl 0), if_pos rfl, readBody_eq_none hwire (by decide)]
    rfl
  | within ticketDone hchunks hwire =>
    rename_i wire tail chunks
    obtain ⟨rfl, hflatten⟩ := append_eq_nil_iff.mp hitems.symm
    obtain rfl := hchunks.eq_nil hflatten
    obtain ⟨wire', hskip, hwire'⟩ := skip_of_flatten hserver ticketDone hwire
    have hread := @read_skipped wire n ticketDone wire' hskip
    rwa [readBody_eq_none hwire' (by decide), bind_none] at hread

end Reading

/-- The sizes of buffers that are not empty. -/
abbrev Size := { n : Nat // 0 < n }

theorem TLSObfs.serves (draws : Draws) :
    Serves (fun n : Size => read n.1) (fun _ => True) (TLSObfs.Left draws) where
  waits _ hleft := read_waits hleft
  gives {_ _ n} _ hleft hitems := read_gives n.2 hleft hitems
  idle hroom := absurd trivial hroom

theorem TLSObfsServer.serves (draws : Draws) {server : List UInt8} (hserver : server.length ≤ 255) :
    Serves (fun n : Size => read n.1) (fun _ => True) (TLSObfsServer.Left draws server) where
  waits _ hleft := read_waits hserver hleft
  gives {_ _ n} _ hleft hitems := read_gives hserver n.2 hleft hitems
  idle hroom := absurd trivial hroom

/-- Both directions, whatever is written, the pieces that the wire comes in and the sizes of the
buffers, if no buffer is empty: the calls of `Read` give what the other side has written, with
nothing of a hello, and wait only if it was given to its end. -/
theorem obfs_delivers {server : List UInt8} (hserver : server.length ≤ 255)
    (clientDraws serverDraws : Draws) (requests responses : List (List UInt8)) {up down : Wire}
    (hup : up.flatten = TLSObfs.writes clientDraws server requests)
    (hdown : down.flatten = TLSObfsServer.writes serverDraws responses)
    {outServer outClient : List UInt8} {s : TLSObfsServer} {c : TLSObfs}
    (hserverReads : Reads (fun n : Size => TLSObfsServer.read n.1) ⟨up, 0, true, false⟩ outServer s)
    (hclientReads : Reads (fun n : Size => TLSObfs.read n.1) ⟨down, 0, true⟩ outClient c) :
    (outServer <+: requests.flatten ∧
      ∀ n : Size, (s.read n.1 = none ↔ outServer = requests.flatten) ∧
        ∀ more s', s.read n.1 = some (more, s') → more ≠ []) ∧ (outClient <+: responses.flatten ∧
      ∀ n : Size, (c.read n.1 = none ↔ outClient = responses.flatten) ∧
        ∀ more c', c.read n.1 = some (more, c') → more ≠ []) := by
  constructor
  · obtain ⟨chunks, hchunks, hflatten, hwrites⟩ :=
      writes_eq (makeClientHelloMsg clientDraws server) true requests
    rw [TLSObfs.writes, hwrites] at hup
    obtain ⟨hstart, hcalls⟩ :=
      (TLSObfsServer.serves clientDraws hserver).exact (.fresh hchunks hup) hserverReads
    rw [hflatten] at hstart hcalls
    exact ⟨hstart, fun n => hcalls n trivial⟩
  · obtain ⟨chunks, hchunks, hflatten, hwrites⟩ :=
      writes_eq (makeServerHello serverDraws) true responses
    rw [TLSObfsServer.writes, hwrites] at hdown
    obtain ⟨hstart, hcalls⟩ :=
      (TLSObfs.serves serverDraws).exact (.fresh hchunks hdown) hclientReads
    rw [hflatten] at hstart hcalls
    exact ⟨hstart, fun n => hcalls n trivial⟩

/-- The server reads a request of two bytes, and the client waits for a response. -/
theorem request_waits_for_read :
    let draws : Draws := ⟨List.Vector.replicate 28 0, List.Vector.replicate 32 0, 0⟩
    let s : TLSObfsServer := ⟨[TLSObfs.writes draws (lit "a.b") [[7, 8]]], 0, true, false⟩
    s.read 1 ≠ none ∧ (∀ out s', s.read 1 = some (out, s') → (s'.read 1 = none ↔ out = [7, 8])) ∧
      TLSObfs.read 1 ⟨[TLSObfsServer.writes draws []], 0, true⟩ = none := by
  intro draws s
  let one : Size := ⟨1, Nat.one_pos⟩
  have h := @obfs_delivers (lit "a.b") (by decide) draws draws [[7, 8]] []
    s.wire [TLSObfsServer.writes draws []] (append_nil _) (append_nil _)
  have hstart := h (.refl _) (.refl _)
  refine ⟨fun hwaits => ?_, fun out s' hread => ?_, (hstart.2.2 one).1.mpr rfl⟩
  · cases (hstart.1.2 one).1.mp hwaits
  · exact ((h (.tail (n := one) (.refl s) hread) (.refl _)).1.2 one).1

end Hako.Obfs
