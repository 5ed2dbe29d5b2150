import Hako.OpenVPN.Data

/-!
# The data epochs of an OpenVPN client

A rekey installs a new data channel. The one before stays for a while: packets under its key id are
still decrypted, and it goes on encrypting until the peer has shown that it uses the new one, a
selection window has passed, or its own deadline. The deadline is staged when the peer asks for the
rekey, possibly long before the new channel is there; if it passes before, data packets are refused
until then.

Every section under `dataLock` is one action, at one moment of a clock that does not run backwards.
`writeDataPacket` has three of them: it selects a channel, promotes the new one if that is due, and
checks its selection again before it encrypts. `writeSem` lets one call run at a time.
-/

namespace Hako.OpenVPN.Epochs

open GoLib Option Function
open Data (Cipher DataChannel DataError newDataChannel)

/-! ### The client -/

/-- In nanoseconds. -/
def authDeferredExpire : Int := 60 * 1000000000

/-- Where the call of `writeDataPacket` is that holds `writeSem`. -/
inductive Writer where
  | idle
  | selecting (packet : List UInt8)
  | promoting (packet : List UInt8)
  | checking (packet : List UInt8) (outbound : Nat)
  /-- It waits for `dataChanged`, which was closed so many times before. -/
  | waiting (packet : List UInt8) (changes : Nat)

/-- The fields that `dataLock` guards, and the data channels. A channel is a number: the channels
are counted as they are installed. -/
structure Client where
  installed : Nat
  channel : Nat → DataChannel
  keyID : Nat → UInt8
  recvEvidence : Nat → Bool
  data : Option Nat
  retiring : Option Nat
  outboundKey : Option Nat
  dataByKey : UInt8 → Option Nat
  outboundStart : Int
  retiringExpiry : Option Int
  pendingRetiringExpiry : Option Int
  pendingOutboundStart : Option Int
  /-- How often `dataChanged` was closed. -/
  changes : Nat
  writer : Writer
  /-- Calls of `decryptDataPacket` that have yet to mark their channel as active. -/
  marks : List Nat
  now : Int

/-- A channel is used for a packet. -/
inductive Event where
  | encrypted (epoch : Nat) (result : Except DataError (List UInt8))
  | decrypted (epoch : Nat) (result : Except DataError (List UInt8))

/-- A deadline is set and has passed. -/
def passed (deadline : Option Int) (now : Int) : Bool :=
  match deadline with
  | some deadline => deadline < now
  | none => false

namespace Client

/-- A deadline that is not set stages nothing. -/
def stageRetiringWindow (window : Int) (c : Client) : Option Int → Client
  | none => c
  | some deadline =>
    { c with
        pendingRetiringExpiry := some deadline
        pendingOutboundStart := some (deadline - window) }

def installDataChannel (window : Int) (c : Client) (keyID : UInt8) (channel : DataChannel) :
    Client :=
  let new := c.installed
  let old := c.data
  let keyIDs := Function.update c.keyID new keyID
  let dataByKey := match old with
    | some old =>
      if keyIDs old ≠ keyID then Function.update c.dataByKey (keyIDs old) (some old)
      else c.dataByKey
    | none => c.dataByKey
  let dataByKey := Function.update dataByKey keyID (some new)
  { c with
      installed := new + 1
      channel := Function.update c.channel new channel
      keyID := keyIDs
      recvEvidence := Function.update c.recvEvidence new false
      retiring := old
      data := some new
      outboundKey := if old.isSome then old else some new
      outboundStart :=
        if old.isSome then c.pendingOutboundStart.getD c.now else c.now
      pendingOutboundStart := none
      dataByKey := fun id =>
        if id ≠ keyID ∧ ∀ o, old = some o → id ≠ keyIDs o then none else dataByKey id
      retiringExpiry :=
        if old.isSome then some (c.pendingRetiringExpiry.getD (c.now + window)) else none
      pendingRetiringExpiry := none
      changes := c.changes + 1 }

def selectionExpired (c : Client) : Bool := c.outboundStart + authDeferredExpire < c.now

def retiringExpired (c : Client) : Bool :=
  c.retiring.isSome && c.outboundKey = c.retiring && passed c.retiringExpiry c.now

/-- The newest channel is to take over. -/
def promotionDue (c : Client) (data : Nat) : Bool :=
  c.recvEvidence data || c.selectionExpired || c.retiringExpired

/-- The first section of `writeDataPacket`, which decides how to go on. -/
def select (c : Client) (packet : List UInt8) : Writer :=
  match c.data with
  | none => .idle
  | some data =>
    if passed c.pendingRetiringExpiry c.now then .waiting packet c.changes
    else
      let outbound := c.outboundKey.getD data
      if outbound ≠ data ∧ c.promotionDue data then .promoting packet
      else .checking packet outbound

/-- The section in which the newest channel takes over. -/
def promote (c : Client) (packet : List UInt8) : Client :=
  if c.outboundKey ≠ c.data ∧ c.outboundKey ≠ none ∧ c.data.any c.promotionDue then
    { c with outboundKey := c.data, outboundStart := c.now, writer := .selecting packet }
  else { c with writer := .selecting packet }

/-- The channel that was selected is still one to encrypt with. -/
def valid (c : Client) (outbound : Nat) : Bool :=
  c.dataByKey (c.keyID outbound) = some outbound &&
    (c.data = some outbound || c.retiring = some outbound || c.outboundKey = some outbound)

/-- The section that checks the selection and encrypts. -/
def check (c : Client) (packet : List UInt8) (outbound : Nat)
    (iv : Option (List.Vector UInt8 blockSize)) : Client × Option Event :=
  if passed c.pendingRetiringExpiry c.now then
    ({ c with writer := .waiting packet c.changes }, none)
  else if ¬ c.valid outbound then ({ c with writer := .selecting packet }, none)
  else if c.data ≠ some outbound ∧ (c.data.any c.promotionDue) then
    ({ c with writer := .selecting packet }, none)
  else
    let (result, channel) := (c.channel outbound).encrypt iv packet
    ({ c with channel := Function.update c.channel outbound channel, writer := .idle },
      some (.encrypted outbound result))

/-- The next section of `writeDataPacket`. -/
def proceed (c : Client) (iv : Option (List.Vector UInt8 blockSize)) : Client × Option Event :=
  match c.writer with
  | .idle => (c, none)
  | .selecting packet => ({ c with writer := c.select packet }, none)
  | .promoting packet => (c.promote packet, none)
  | .checking packet outbound => c.check packet outbound iv
  | .waiting packet changes =>
    (if changes < c.changes then { c with writer := .selecting packet } else c, none)

/-- The section of `decryptDataPacket`. -/
def decryptDataPacket (c : Client) (packet : List UInt8) : Client × Option Event :=
  match packet with
  | [] => (c, none)
  | b :: _ =>
    let keyID := b &&& 7
    if passed c.pendingRetiringExpiry c.now then (c, none)
    else if c.retiring.any (c.keyID · = keyID) ∧ passed c.retiringExpiry c.now then (c, none)
    else
      match c.dataByKey keyID with
      | none => (c, none)
      | some epoch =>
        let (result, channel) := (c.channel epoch).decrypt packet
        ({ c with
            channel := Function.update c.channel epoch channel
            marks := if result.isOk ∧ c.data = some epoch then epoch :: c.marks else c.marks },
          some (.decrypted epoch result))

/-- `MarkPeerActive`, behind `decryptDataPacket`. -/
def markPeerActive (c : Client) (epoch : Nat) : Client :=
  if epoch ∈ c.marks then
    { c with
        recvEvidence := Function.update c.recvEvidence epoch true
        marks := c.marks.erase epoch }
  else c

end Client

/-! ### Epochs as they are installed -/

/-- A channel with the beginning of its selection window and the deadline of the channel before. -/
structure Rekey where
  epoch : Nat
  start : Int
  expiry : Option Int

/-- The client, the rekeys so far, the newest one first, and the deadline that is staged for the
next one. -/
structure System where
  client : Client
  rekeys : List Rekey
  staged : Option Int

inductive Action where
  | tick (elapsed : Nat)
  | stage (deadline : Option Int)
  | install (keyID : UInt8) (channel : DataChannel)
  | write (packet : List UInt8)
  | proceed (iv : Option (List.Vector UInt8 blockSize))
  /-- The context of a call that waits is done. -/
  | cancel
  | decrypt (packet : List UInt8)
  | mark (epoch : Nat)

/-- The windows that a rekey comes with. The first one has nothing to wait for. -/
def System.rekey (window : Int) (s : System) : Rekey where
  epoch := s.client.installed
  start :=
    if s.rekeys = [] then s.client.now else (s.staged.map (· - window)).getD s.client.now
  expiry := if s.rekeys = [] then none else some (s.staged.getD (s.client.now + window))

def System.step (window : Int) (s : System) : Action → System × Option Event
  | .tick elapsed => ({ s with client := { s.client with now := s.client.now + elapsed } }, none)
  | .stage deadline =>
    (⟨s.client.stageRetiringWindow window deadline, s.rekeys, deadline.or s.staged⟩, none)
  | .install keyID channel =>
    (⟨s.client.installDataChannel window keyID channel, s.rekey window :: s.rekeys, none⟩, none)
  | .write packet =>
    match s.client.writer with
    | .idle => ({ s with client := { s.client with writer := .selecting packet } }, none)
    | _ => (s, none)
  | .proceed iv => ({ s with client := (s.client.proceed iv).1 }, (s.client.proceed iv).2)
  | .cancel =>
    match s.client.writer with
    | .waiting _ _ => ({ s with client := { s.client with writer := .idle } }, none)
    | _ => (s, none)
  | .decrypt packet =>
    ({ s with client := (s.client.decryptDataPacket packet).1 },
      (s.client.decryptDataPacket packet).2)
  | .mark epoch => ({ s with client := s.client.markPeerActive epoch }, none)

def System.run (window : Int) (s : System) (actions : List Action) : System :=
  actions.foldl (fun s action => (s.step window action).1) s

/-- A client without data channels. -/
def System.start (channel : DataChannel) (now : Int) : System where
  client := {
    installed := 0
    channel := fun _ => channel
    keyID := fun _ => 0
    recvEvidence := fun _ => false
    data := none
    retiring := none
    outboundKey := none
    dataByKey := fun _ => none
    outboundStart := now
    retiringExpiry := none
    pendingRetiringExpiry := none
    pendingOutboundStart := none
    changes := 0
    writer := .idle
    marks := []
    now := now }
  rekeys := []
  staged := none

/-- Consecutive epochs have different key ids. -/
def Differs (s : System) : Action → Prop
  | .install keyID _ => ∀ data, s.client.data = some data → s.client.keyID data ≠ keyID
  | _ => True

def DiffersRun (window : Int) (s : System) : List Action → Prop
  | [] => True
  | action :: actions => Differs s action ∧ DiffersRun window (s.step window action).1 actions

/-! ### What is to hold -/

/-- The channel of the rekey before the newest one. -/
def lameDuck (rekeys : List Rekey) : Option Nat := rekeys.head?.map Rekey.epoch

/-- The client has the two newest epochs: it encrypts with one of them, and finds exactly these by
their key ids. -/
def Follows (c : Client) : List Rekey → Prop
  | [] => True
  | r :: rest => c.data = some r.epoch ∧ c.retiring = lameDuck rest ∧
      (c.outboundKey = c.data ∨ c.outboundKey = c.retiring ∧ c.retiring ≠ none) ∧
      (∀ old, lameDuck rest = some old → c.keyID old ≠ c.keyID r.epoch) ∧
      ∀ id epoch, c.dataByKey id = some epoch ↔
        (epoch = r.epoch ∨ lameDuck rest = some epoch) ∧ c.keyID epoch = id

/-- When an epoch may be used: no staged deadline has passed, and it is the newest one, or the one
before within its windows. -/
def Allowed (s : System) : Event → Prop
  | .encrypted epoch _ => (∀ deadline, s.staged = some deadline → s.client.now ≤ deadline) ∧
      ∃ r rest, s.rekeys = r :: rest ∧ (epoch = r.epoch ∨ lameDuck rest = some epoch ∧
        s.client.recvEvidence r.epoch = false ∧ s.client.now ≤ r.start + authDeferredExpire ∧
        ∃ deadline, r.expiry = some deadline ∧ s.client.now ≤ deadline)
  | .decrypted epoch _ => (∀ deadline, s.staged = some deadline → s.client.now ≤ deadline) ∧
      ∃ r rest, s.rekeys = r :: rest ∧ (epoch = r.epoch ∨ lameDuck rest = some epoch ∧
        ∃ deadline, r.expiry = some deadline ∧ s.client.now ≤ deadline)

/-! ### The invariant -/

structure Inv (window : Int) (s : System) : Prop where
  follows : Follows s.client s.rekeys
  fresh : ∀ r ∈ s.rekeys, r.epoch < s.client.installed
  empty : s.rekeys = [] → s.client.data = none ∧ s.client.outboundKey = none ∧
    s.client.retiring = none ∧ ∀ id, s.client.dataByKey id = none
  expiry : ∀ r rest, s.rekeys = r :: rest → s.client.retiringExpiry = r.expiry ∧
    (rest ≠ [] → r.expiry ≠ none)
  start : ∀ r rest, s.rekeys = r :: rest → s.client.outboundKey ≠ some r.epoch →
    s.client.outboundStart = r.start
  pending : s.client.pendingRetiringExpiry = s.staged ∧
    s.client.pendingOutboundStart = s.staged.map (· - window)
  /-- Since the call has selected its channel no other one was promoted. -/
  selected : ∀ packet outbound, s.client.writer = .checking packet outbound →
    s.client.outboundKey = some outbound ∨
      s.client.outboundKey = s.client.retiring ∧ s.client.retiring ≠ none

namespace Inv

variable {window : Int} {s : System}

theorem of_start (channel : DataChannel) (now : Int) : Inv window (.start channel now) where
  follows := trivial
  fresh := nofun
  empty _ := ⟨rfl, rfl, rfl, fun _ => rfl⟩
  expiry := nofun
  start := nofun
  pending := ⟨rfl, rfl⟩
  selected := nofun

variable (h : Inv window s)
include h

/-- The invariant says nothing of these fields, the selection of a call apart. -/
theorem frame (channel : Nat → DataChannel) (recvEvidence : Nat → Bool)
    (marks : List Nat) (now : Int) (changes : Nat) {writer : Writer}
    (hwriter : ∀ packet outbound, writer = .checking packet outbound →
      s.client.outboundKey = some outbound ∨
        s.client.outboundKey = s.client.retiring ∧ s.client.retiring ≠ none) :
    Inv window { s with
      client := { s.client with channel, recvEvidence, marks, now, changes, writer } } :=
  { h with selected := hwriter }

theorem data_eq : s.client.data = lameDuck s.rekeys := by
  cases hrekeys : s.rekeys with
  | nil => exact (h.empty hrekeys).1
  | cons r rest =>
    have hfollows := h.follows
    rw [hrekeys] at hfollows
    exact hfollows.1

variable {data : Nat} {keyID : UInt8}

/-- The client has a channel once one was installed. -/
theorem exists_rekeys (hdata : s.client.data = some data) :
    ∃ r rest, s.rekeys = r :: rest ∧ r.epoch = data := by
  rw [h.data_eq] at hdata
  cases hrekeys : s.rekeys with
  | nil => simp [hrekeys, lameDuck] at hdata
  | cons r rest =>
    rw [hrekeys] at hdata
    exact ⟨r, rest, rfl, some.inj hdata⟩

/-! ### Installing a channel -/

theorem stage (deadline : Option Int) :
    Inv window (s.step window (.stage deadline)).1 := by
  cases deadline with
  | none => exact { h with }
  | some deadline => exact { h with pending := ⟨rfl, rfl⟩ }

omit h in
/-- Only the new channel and the one before are left. -/
theorem dataByKey_install {c : Client} {channel : DataChannel}
    (hfresh : ∀ old, c.data = some old → old ≠ c.installed)
    (hdiffer : ∀ old, c.data = some old → c.keyID old ≠ keyID) (id : UInt8) (epoch : Nat) :
    (c.installDataChannel window keyID channel).dataByKey id = some epoch ↔
      (epoch = c.installed ∨ c.data = some epoch) ∧
        (c.installDataChannel window keyID channel).keyID epoch = id := by
  cases hdata : c.data with
  | none =>
    simp only [Client.installDataChannel, hdata, update_apply, reduceCtorEq,
      false_implies, implies_true, and_true, or_false]
    grind
  | some old =>
    have hne := hfresh old hdata
    have hid := hdiffer old hdata
    simp only [Client.installDataChannel, hdata, update_apply, if_neg hne, ne_eq, hid,
      not_false_eq_true, if_true, some.injEq, forall_eq']
    grind

theorem install (channel : DataChannel) (hdiffer : Differs s (.install keyID channel)) :
    Inv window (s.step window (.install keyID channel)).1 := by
  have hfresh : ∀ old, s.client.data = some old → old ≠ s.client.installed := by
    intro old hold
    obtain ⟨r, rest, hrekeys, rfl⟩ := h.exists_rekeys hold
    exact (h.fresh r (by simp [hrekeys])).ne
  have hdata := h.data_eq
  have hempty : s.rekeys = [] ↔ s.client.data = none := by
    simp [hdata, lameDuck]
  refine ⟨⟨rfl, hdata, ?_, ?_, ?_⟩, ?_, nofun, ?_, ?_, ⟨rfl, rfl⟩, ?_⟩
  · -- The channel before goes on encrypting, if there is one.
    cases hd : s.client.data <;> simp [System.step, Client.installDataChannel, hd, System.rekey]
  · intro old hold
    rw [← hdata] at hold
    simp only [System.step, System.rekey, Client.installDataChannel, update_self,
      update_of_ne (hfresh old hold)]
    exact hdiffer old hold
  · intro id epoch
    rw [← hdata]
    exact dataByKey_install hfresh hdiffer id epoch
  · exact List.forall_mem_cons.mpr
      ⟨Nat.lt_succ_self _, fun r hr => (h.fresh r hr).trans (Nat.lt_succ_self _)⟩
  · rintro r rest ⟨⟩
    simp only [System.step, Client.installDataChannel, System.rekey, hempty, h.pending.1]
    cases hd : s.client.data <;> simp [hempty, hd]
  · rintro r rest ⟨⟩ hkey
    simp only [System.step, Client.installDataChannel, System.rekey, hempty, h.pending.2] at hkey ⊢
    cases hd : s.client.data with
    | none => simp [hd] at hkey
    | some old => simp
  · intro packet outbound hwriter
    -- A call has selected a channel, so there was one, and it goes on encrypting.
    have hsome : s.client.data ≠ none := by
      intro hnone
      obtain ⟨-, hkey, hretiring, -⟩ := h.empty (hempty.mpr hnone)
      have hselected := h.selected packet outbound hwriter
      simp [hkey, hretiring] at hselected
    refine .inr ⟨?_, hsome⟩
    exact if_pos (isSome_iff_ne_none.mpr hsome)

/-! ### The sections of a write -/

/-- Once there is a channel, one is chosen for encryption. -/
theorem outboundKey_ne_none (hdata : s.client.data = some data) :
    s.client.outboundKey ≠ none := by
  obtain ⟨r, rest, hrekeys, rfl⟩ := h.exists_rekeys hdata
  have hfollows := h.follows
  rw [hrekeys] at hfollows
  obtain ⟨-, -, hkey | ⟨hkey, hretiring⟩, -⟩ := hfollows
  · simp [hkey, hdata]
  · rwa [hkey]

theorem select (packet : List UInt8) :
    Inv window { s with client := { s.client with writer := s.client.select packet } } := by
  refine h.frame _ _ _ _ _ ?_
  intro packet' outbound hselect
  rw [Client.select] at hselect
  cases hdata : s.client.data with
  | none => simp [hdata] at hselect
  | some data =>
    obtain ⟨key, hkey⟩ := ne_none_iff_exists'.mp (h.outboundKey_ne_none hdata)
    simp only [hdata, hkey, getD_some] at hselect
    split_ifs at hselect
    obtain ⟨-, rfl⟩ := Writer.checking.inj hselect
    exact .inl hkey

theorem promote (packet : List UInt8) :
    Inv window { s with client := s.client.promote packet } := by
  rw [Client.promote]
  split_ifs with hdue
  · obtain ⟨data, hdata, -⟩ := (any_eq_true _ _).mp hdue.2.2
    obtain ⟨r, rest, hrekeys, rfl⟩ := h.exists_rekeys hdata
    obtain ⟨client, rekeys, staged⟩ := s
    obtain rfl : rekeys = r :: rest := hrekeys
    obtain ⟨hnewest, hretiring, -, hids, hmap⟩ := h.follows
    refine ⟨⟨hnewest, hretiring, .inl rfl, hids, hmap⟩, h.fresh, nofun, h.expiry, ?_,
      h.pending, nofun⟩
    -- The selection window is over.
    rintro r' rest' ⟨⟩ hkey
    exact absurd hnewest hkey
  · exact h.frame _ _ _ _ _ (by nofun)

theorem check (packet : List UInt8) (outbound : Nat) (iv : Option (List.Vector UInt8 blockSize)) :
    Inv window { s with client := (s.client.check packet outbound iv).1 } := by
  rw [Client.check]
  split_ifs
  all_goals exact h.frame _ _ _ _ _ (by nofun)

theorem proceed (iv : Option (List.Vector UInt8 blockSize)) :
    Inv window (s.step window (.proceed iv)).1 := by
  rw [System.step, Client.proceed]
  cases hwriter : s.client.writer with
  | idle => exact h
  | selecting packet => exact h.select packet
  | promoting packet => exact h.promote packet
  | checking packet outbound => exact h.check packet outbound iv
  | waiting packet changes =>
    dsimp only
    split
    · exact h.frame _ _ _ _ _ (by nofun)
    · exact h

theorem decrypt (packet : List UInt8) :
    Inv window (s.step window (.decrypt packet)).1 := by
  cases packet with
  | nil => exact h
  | cons b packet =>
    rw [System.step, Client.decryptDataPacket]
    split_ifs
    · exact h
    · exact h
    · split
      · exact h
      · exact h.frame _ _ _ _ _ h.selected

/-! ### Runs -/

theorem step {action : Action} (hdiffer : Differs s action) :
    Inv window (s.step window action).1 := by
  cases action with
  | tick elapsed => exact h.frame _ _ _ _ _ h.selected
  | stage deadline => exact h.stage deadline
  | install keyID channel => exact h.install channel hdiffer
  | write packet | cancel =>
    rw [System.step]
    split
    · exact h.frame _ _ _ _ _ (by nofun)
    · exact h
  | proceed iv => exact h.proceed iv
  | decrypt packet => exact h.decrypt packet
  | mark epoch =>
    rw [System.step, Client.markPeerActive]
    split
    · exact h.frame _ _ _ _ _ h.selected
    · exact h

theorem run {actions : List Action} (hdiffer : DiffersRun window s actions) :
    Inv window (s.run window actions) := by
  induction actions generalizing s with
  | nil => exact h
  | cons action actions ih => exact ih (h.step hdiffer.1) hdiffer.2

end Inv

/-! ### The use of an epoch -/

theorem passed_eq_false {deadline : Option Int} {now : Int} :
    passed deadline now = false ↔ ∀ d, deadline = some d → now ≤ d := by
  cases deadline <;> simp [passed]

namespace Client

variable {c : Client} {packet : List UInt8} {event : Event}

/-- What the last check before an encryption makes sure of. -/
theorem check_event {outbound : Nat} {iv : Option (List.Vector UInt8 blockSize)}
    (h : (c.check packet outbound iv).2 = some event) :
    (∃ result, event = .encrypted outbound result) ∧
      passed c.pendingRetiringExpiry c.now = false ∧ c.valid outbound ∧
      (c.data = some outbound ∨ ∀ data, c.data = some data → c.promotionDue data = false) := by
  rw [check] at h
  split_ifs at h with hpending hvalid hdue
  obtain rfl := some.inj h
  refine ⟨⟨_, rfl⟩, by simpa using hpending, by simpa using hvalid, ?_⟩
  rw [or_iff_not_imp_left]
  rintro hne data hdata
  simpa [hdata] using fun hany => hdue ⟨hne, hany⟩

/-- What `decryptDataPacket` makes sure of. -/
theorem decryptDataPacket_event (h : (c.decryptDataPacket packet).2 = some event) :
    ∃ keyID epoch result, event = .decrypted epoch result ∧ c.dataByKey keyID = some epoch ∧
      passed c.pendingRetiringExpiry c.now = false ∧
      (∀ retiring, c.retiring = some retiring → c.keyID retiring = keyID →
        passed c.retiringExpiry c.now = false) := by
  cases packet with
  | nil => cases h
  | cons b packet =>
    rw [decryptDataPacket] at h
    split_ifs at h with hpending hexpired
    cases hepoch : c.dataByKey (b &&& 7) with
    | none => simp [hepoch] at h
    | some epoch =>
      rw [hepoch] at h
      obtain rfl := some.inj h
      refine ⟨b &&& 7, epoch, _, rfl, hepoch, by simpa using hpending, ?_⟩
      intro retiring hretiring hid
      simpa [hretiring, hid] using hexpired

end Client

namespace Inv

variable {window : Int} {s : System} {event : Event} (h : Inv window s)
include h

/-- A staged deadline that has not passed for the client has not passed. -/
theorem staged_le
    (hpending : passed s.client.pendingRetiringExpiry s.client.now = false) (deadline : Int)
    (hstaged : s.staged = some deadline) : s.client.now ≤ deadline :=
  passed_eq_false.mp hpending deadline (h.pending.1.trans hstaged)

/-- The channel before the newest one has a deadline, and it is the one the client keeps. -/
theorem exists_expiry {r : Rekey} {rest : List Rekey}
    (hrekeys : s.rekeys = r :: rest) {old : Nat} (hold : lameDuck rest = some old)
    (hexpiry : passed s.client.retiringExpiry s.client.now = false) :
    ∃ deadline, r.expiry = some deadline ∧ s.client.now ≤ deadline := by
  obtain ⟨hkept, hset⟩ := h.expiry r rest hrekeys
  have hrest : rest ≠ [] := by
    rintro rfl
    cases hold
  obtain ⟨deadline, hdeadline⟩ := ne_none_iff_exists'.mp (hset hrest)
  exact ⟨deadline, hdeadline, passed_eq_false.mp hexpiry deadline (hkept.trans hdeadline)⟩

variable {packet : List UInt8}

theorem allowed_check {outbound : Nat} {iv : Option (List.Vector UInt8 blockSize)}
    (hwriter : s.client.writer = .checking packet outbound)
    (hevent : (s.client.check packet outbound iv).2 = some event) : Allowed s event := by
  obtain ⟨⟨result, rfl⟩, hpending, hvalid, hdue⟩ := Client.check_event hevent
  simp only [Client.valid, Bool.and_eq_true, decide_eq_true_eq] at hvalid
  cases hrekeys : s.rekeys with
  | nil =>
    rw [(h.empty hrekeys).2.2.2] at hvalid
    cases hvalid.1
  | cons r rest =>
    have hfollows := h.follows
    rw [hrekeys] at hfollows
    obtain ⟨hdata, hretiring, hkey, -, hmap⟩ := hfollows
    refine ⟨h.staged_le hpending, r, rest, hrekeys, ?_⟩
    obtain hnewest | hold := ((hmap _ _).mp hvalid.1).1
    · exact .inl hnewest
    · by_cases hnewest : s.client.data = some outbound
      · exact .inl (some.inj (hnewest.symm.trans hdata))
      · -- The selection has not changed: the channel before is still the one that encrypts.
        have hretired : s.client.retiring = some outbound := hretiring.trans hold
        have houtbound : s.client.outboundKey = s.client.retiring := by
          obtain hselected | ⟨hselected, -⟩ := h.selected packet outbound hwriter
          · rw [hselected, hretired]
          · exact hselected
        have hquiet := (hdue.resolve_left hnewest) r.epoch hdata
        simp only [Client.promotionDue, Client.selectionExpired, Client.retiringExpired,
          Bool.or_eq_false_iff, decide_eq_false_iff_not, houtbound, hretired] at hquiet
        obtain ⟨⟨hactive, hselection⟩, hexpiry⟩ := hquiet
        have hstart := h.start r rest hrekeys (by
          rw [houtbound, hretired, ← hdata]
          exact Ne.symm hnewest)
        refine .inr ⟨hold, hactive, ?_, h.exists_expiry hrekeys hold (by simpa using hexpiry)⟩
        rw [← hstart]
        exact not_lt.mp hselection

theorem allowed_decrypt
    (hevent : (s.client.decryptDataPacket packet).2 = some event) : Allowed s event := by
  obtain ⟨keyID, epoch, result, rfl, hepoch, hpending, hexpiry⟩ :=
    Client.decryptDataPacket_event hevent
  cases hrekeys : s.rekeys with
  | nil =>
    rw [(h.empty hrekeys).2.2.2] at hepoch
    cases hepoch
  | cons r rest =>
    have hfollows := h.follows
    rw [hrekeys] at hfollows
    obtain ⟨-, hretiring, -, -, hmap⟩ := hfollows
    obtain ⟨hnewest | hold, hid⟩ := (hmap _ _).mp hepoch
    · exact ⟨h.staged_le hpending, r, rest, hrekeys, .inl hnewest⟩
    · have hpassed := hexpiry epoch (hretiring.trans hold) hid
      exact ⟨h.staged_le hpending, r, rest, hrekeys,
        .inr ⟨hold, h.exists_expiry hrekeys hold hpassed⟩⟩

theorem allowed {action : Action}
    (hevent : (s.step window action).2 = some event) : Allowed s event := by
  cases action with
  | tick elapsed | stage deadline | install keyID channel | mark epoch => cases hevent
  | write packet | cancel =>
    rw [System.step] at hevent
    split at hevent <;> cases hevent
  | proceed iv =>
    rw [System.step, Client.proceed] at hevent
    cases hwriter : s.client.writer with
    | checking packet outbound =>
      rw [hwriter] at hevent
      exact h.allowed_check hwriter hevent
    | _ => simp [hwriter] at hevent
  | decrypt packet => exact h.allowed_decrypt hevent

end Inv

/-- Whatever the calls do, and in whatever order: once an epoch is installed the client has the two
newest ones, encrypts with one of them and finds exactly these by their key ids; and a packet is
encrypted or decrypted only with an epoch that may be used at that moment. -/
theorem epochs_respected (window : Int) (channel : DataChannel) (now : Int) (actions : List Action)
    (hdiffer : DiffersRun window (.start channel now) actions) :
    Follows ((System.start channel now).run window actions).client
        ((System.start channel now).run window actions).rekeys ∧ ∀ action event,
        (((System.start channel now).run window actions).step window action).2 = some event →
          Allowed ((System.start channel now).run window actions) event := by
  have hinv := (@Inv.of_start window channel now).run hdiffer
  exact ⟨hinv.follows, fun _ _ => hinv.allowed⟩

/-- A channel with the given key id. -/
def plainChannel (keyID : UInt8) : DataChannel :=
  let keys : Cipher := .aead plainAEAD (List.Vector.replicate 12 0)
  newDataChannel keys keys 1 keyID

/-- A rekey, and a packet to write before the peer uses the new epoch. -/
def firstRekey : List Action :=
  [.install 0 (plainChannel 0), .stage (some 3600), .tick 10, .install 1 (plainChannel 1),
    .write [7], .proceed none]

theorem firstRekey_uses_lameDuck :
    let s := (System.start (plainChannel 0) 0).run 3600 firstRekey
    ∃ result, (s.step 3600 (.proceed none)).2 = some (.encrypted 0 result) ∧
      Allowed s (.encrypted 0 result) := by
  have hdiffer : DiffersRun 3600 (.start (plainChannel 0) 0) firstRekey := by
    refine ⟨nofun, trivial, trivial, ?_, trivial, trivial, trivial⟩
    rintro _ ⟨⟩
    decide
  intro s
  have hevent : ∃ result, (s.step 3600 (.proceed none)).2 = some (.encrypted 0 result) := ⟨_, rfl⟩
  obtain ⟨result, hevent⟩ := hevent
  refine ⟨result, hevent, ?_⟩
  exact (epochs_respected 3600 (plainChannel 0) 0 firstRekey hdiffer).2 (.proceed none) _ hevent

end Hako.OpenVPN.Epochs
