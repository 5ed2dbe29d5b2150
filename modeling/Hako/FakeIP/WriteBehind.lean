import Hako.FakeIP.FakeIpStore
import Hako.Lib.Overlay

/-!
# The write-behind store

`cachefileStore` does not write to the database at once. A write enters an overlay and a list
of operations; a flush takes the list, applies it in one transaction without holding the
mutex, and then drops the overlay entries it has written. Here its mutex sections and its
transactions are the atomic steps of a transition system, and next to the database stands the
direct store, to which every write is applied at once in the order of the mutex.
-/

namespace Hako.FakeIP

open GoLib Lib List Option Function FakeIpStore

structure PendingAddr where
  ip : Addr
  deleted : Bool
  seq : Nat

structure PendingHost where
  host : GoString
  deleted : Bool
  seq : Nat

/-- What the thread that holds `flushMu` has done so far. -/
inductive Phase where
  | idle
  /-- `flush` has taken the operations and not yet applied them. -/
  | flushing (ops : List FakeIPOp) (upto : Nat)
  /-- `flush` has applied them and not yet dropped their entries. -/
  | applied (upto : Nat)
  /-- `FlushFakeIP` has cleared the overlay and not yet the database. -/
  | clearing
deriving DecidableEq

namespace WriteBehind

/-- The write-behind store over its database, with the direct store beside them. `seq`, a `uint64`
in the source, does not wrap. -/
structure State where
  seq : Nat
  hosts : GoString → Option PendingAddr
  ips : Addr → Option PendingHost
  ops : List FakeIPOp
  phase : Phase
  db : Bucket
  direct : Bucket

/-- A store opened over a database. -/
def init (db : Bucket) : State :=
  { seq := 0, hosts := fun _ => none, ips := fun _ => none, ops := [], phase := .idle, db,
    direct := db }

namespace State

/-- The mutex section of `GetByHost`: an answer if the overlay has an entry. Without one,
`FakeIpStore.getByHost` reads the database in a transaction of its own. -/
def pendingHost (s : State) (host : GoString) : Option (Option Addr) :=
  (s.hosts host).map fun p => if p.deleted then none else some p.ip

open State

/-- `getByIPLocked`: under the mutex, from the overlay or else from the database. -/
def getByIP (s : State) (ip : Addr) : Option GoString :=
  match s.ips ip with
  | some p => if p.deleted then none else some p.host
  | none => FakeIpStore.getByIP s.db ip

/-- `Exist`. -/
def exist (s : State) (ip : Addr) : Bool := (s.getByIP ip).isSome

/-- The part of a write that is the same for all: its number, its operation, and its effect
on the direct store. -/
def record (s : State) (op : FakeIPOp) (hosts : GoString → Option PendingAddr)
    (ips : Addr → Option PendingHost) : Option State :=
  (applyOp s.direct op).map fun direct =>
    { s with seq := s.seq + 1, hosts, ips, ops := s.ops ++ [op], direct }

def putByHost (s : State) (host : GoString) (ip : Addr) : Option State :=
  if host = [] then some s
  else s.record (.putByHost host ip) (Function.update s.hosts host (some ⟨ip, false, s.seq + 1⟩))
    s.ips

def putByIP (s : State) (ip : Addr) (host : GoString) : Option State :=
  s.record (.putByIP ip host) s.hosts (Function.update s.ips ip (some ⟨host, false, s.seq + 1⟩))

/-- The host entries after `DelByIP` has resolved its address to `host`. -/
def markDeleted (s : State) (host : Option GoString) : GoString → Option PendingAddr :=
  match host with
  | some host =>
    if host = [] then s.hosts
    else Function.update s.hosts host (some ⟨.zero, true, s.seq + 1⟩)
  | none => s.hosts

def delByIP (s : State) (ip : Addr) : Option State :=
  s.record (.delByIP ip) (s.markDeleted (s.getByIP ip))
    (Function.update s.ips ip (some ⟨[], true, s.seq + 1⟩))

theorem markDeleted_apply (s : State) (o : Option GoString) (key : GoString) :
    s.markDeleted o key =
      if o = some key ∧ key ≠ [] then some ⟨.zero, true, s.seq + 1⟩ else s.hosts key := by
  cases o with
  | none => simp [markDeleted]
  | some host =>
    by_cases hnil : host = []
    · subst hnil
      simp +contextual [markDeleted]
    · by_cases hkey : key = host
      · simp [markDeleted, hnil, hkey]
      · simp [markDeleted, hnil, hkey, Ne.symm hkey]

/-- Drop the entries a flush has written. -/
def dropUpto (s : State) (upto : Nat) : State :=
  { s with
    hosts := fun host => (s.hosts host).filter (upto < ·.seq)
    ips := fun ip => (s.ips ip).filter (upto < ·.seq) }

end State

/-- The mutex sections and transactions that change something. -/
inductive Act where
  | putByHost (host : GoString) (ip : Addr)
  | putByIP (ip : Addr) (host : GoString)
  | delByIP (ip : Addr)
  /-- `flush`, by `Sync` or the timer: take the operations. -/
  | flushTake
  /-- `flush`: the transaction of `Apply`. -/
  | flushApply
  /-- `flush`: drop the entries written. -/
  | flushDrop
  /-- `FlushFakeIP`: clear the overlay. -/
  | clearOverlay
  /-- `FlushFakeIP`: the transaction that deletes the bucket. -/
  | clearBucket

/-- A step, where the thread that would make it can and its transaction succeeds. -/
def step (s : State) : Act → Option State
  | .putByHost host ip => s.putByHost host ip
  | .putByIP ip host => s.putByIP ip host
  | .delByIP ip => s.delByIP ip
  | .flushTake =>
    match s.phase with
    | .idle =>
      if s.ops = [] then some s
      else some { s with ops := [], phase := .flushing s.ops s.seq }
    | _ => none
  | .flushApply =>
    match s.phase with
    | .flushing ops upto =>
      (apply s.db ops).map fun db => { s with db, phase := .applied upto }
    | _ => none
  | .flushDrop =>
    match s.phase with
    | .applied upto => some { s.dropUpto upto with phase := .idle }
    | _ => none
  | .clearOverlay =>
    match s.phase with
    | .idle =>
      some { s with ops := [], hosts := fun _ => none, ips := fun _ => none, phase := .clearing,
                    direct := .empty }
    | _ => none
  | .clearBucket =>
    match s.phase with
    | .clearing => some { s with db := .empty, phase := .idle }
    | _ => none

/-! ### The log behind the overlay -/

namespace State

/-- The writes that the database does not have yet. -/
def pending (s : State) : List FakeIPOp :=
  match s.phase with
  | .flushing ops _ => ops ++ s.ops
  | _ => s.ops

/-- The bucket those writes are for; while `FlushFakeIP` runs, the empty one to come. -/
def base (s : State) : Bucket :=
  match s.phase with
  | .clearing => .empty
  | _ => s.db

theorem base_of_clearing (s : State) (h : s.phase = .clearing) : s.base = .empty := by
  simp only [base, h]

theorem base_of_ne (s : State) (h : s.phase ≠ .clearing) : s.base = s.db := by
  unfold base
  split
  · exact absurd ‹_› h
  · rfl

/-- The overlay's log. -/
def log (s : State) : Log FakeIPOp GoString (Option GoString) :=
  ⟨s.seq, s.base, s.pending, s.direct⟩

end State

/-- An overlay entry as a bucket value with its number. -/
def PendingAddr.entry (p : PendingAddr) : Option GoString × Nat :=
  (if p.deleted then none else some p.ip.asSlice, p.seq)

@[inherit_doc PendingAddr.entry]
def PendingHost.entry (p : PendingHost) : Option GoString × Nat :=
  (if p.deleted then none else some p.host, p.seq)

variable {s s' : State}

/-! ### What a step does -/

variable {ip : Addr} {host : GoString}
  {op : FakeIPOp} {hosts : GoString → Option PendingAddr} {ips : Addr → Option PendingHost}
  {act : Act} {db : Bucket} {Q : Bucket → Prop} {l : List State}

theorem record_eq_some (h : s.record op hosts ips = some s') :
    ∃ d, applyOp s.direct op = some d ∧
      s' = { s with seq := s.seq + 1, hosts, ips, ops := s.ops ++ [op], direct := d } := by
  obtain ⟨d, hd, rfl⟩ := map_eq_some_iff.mp h
  exact ⟨d, hd, rfl⟩

theorem step_flushTake (hs : step s .flushTake = some s') :
    s.phase = .idle ∧ (s' = s ∨ s' = { s with ops := [], phase := .flushing s.ops s.seq }) := by
  simp only [step] at hs
  split at hs
  · refine ⟨‹_›, ?_⟩
    split at hs <;> cases hs
    · exact .inl rfl
    · exact .inr rfl
  · cases hs

theorem step_flushApply (hs : step s .flushApply = some s') :
    ∃ ops upto db, s.phase = .flushing ops upto ∧ apply s.db ops = some db ∧
      s' = { s with db, phase := .applied upto } := by
  simp only [step] at hs
  split at hs
  · obtain ⟨db, hdb, rfl⟩ := map_eq_some_iff.mp hs
    exact ⟨_, _, db, ‹_›, hdb, rfl⟩
  · cases hs

theorem step_flushDrop (hs : step s .flushDrop = some s') :
    ∃ upto, s.phase = .applied upto ∧ s' = { s.dropUpto upto with phase := .idle } := by
  simp only [step] at hs
  split at hs
  · cases hs
    exact ⟨_, ‹_›, rfl⟩
  · cases hs

theorem step_clearOverlay (hs : step s .clearOverlay = some s') :
    s.phase = .idle ∧ s' = { s with ops := [], hosts := fun _ => none, ips := fun _ => none,
                                    phase := .clearing, direct := .empty } := by
  simp only [step] at hs
  split at hs
  · cases hs
    exact ⟨‹_›, rfl⟩
  · cases hs

theorem step_clearBucket (hs : step s .clearBucket = some s') :
    s.phase = .clearing ∧ s' = { s with db := .empty, phase := .idle } := by
  simp only [step] at hs
  split at hs
  · cases hs
    exact ⟨‹_›, rfl⟩
  · cases hs

theorem log_record (s : State) (op : FakeIPOp) (hosts : GoString → Option PendingAddr)
    (ips : Addr → Option PendingHost) (d : Bucket) :
    State.log { s with seq := s.seq + 1, hosts, ips, ops := s.ops ++ [op], direct := d } =
      s.log.write op d := by
  simp only [State.log, State.base, State.pending, Log.write]
  cases s.phase <;> simp

/-- How a step changes the log: not at all, by one write, by a part of it written to the
database, or by a new start. -/
theorem log_step (hs : step s act = some s') : s'.log = s.log ∨
      (∃ op d, applyOp s.direct op = some d ∧ s'.log = s.log.write op d) ∨
      (∃ ops b, s.log.pending = ops ++ s'.ops ∧
        Log.replay applyOp s.log.base ops = some b ∧
        s'.log = { s.log with base := b, pending := s'.ops }) ∨
      s'.log = ⟨s.seq, Bucket.empty, [], Bucket.empty⟩ := by
  have hrecord : ∀ {op hosts ips}, s.record op hosts ips = some s' →
      ∃ op d, applyOp s.direct op = some d ∧ s'.log = s.log.write op d := by
    intro op hosts ips h
    obtain ⟨d, hd, rfl⟩ := record_eq_some h
    exact ⟨op, d, hd, log_record ..⟩
  cases act with
  | putByHost host ip =>
    simp only [step, State.putByHost] at hs
    split at hs
    · exact .inl (some.inj hs ▸ rfl)
    · exact .inr (.inl (hrecord hs))
  | putByIP ip host => exact .inr (.inl (hrecord hs))
  | delByIP ip =>
    simp only [step, State.delByIP] at hs
    exact .inr (.inl (hrecord hs))
  | flushTake =>
    obtain ⟨hphase, rfl | rfl⟩ := step_flushTake hs
    · exact .inl rfl
    · exact .inl (by simp [State.log, State.base, State.pending, hphase])
  | flushApply =>
    obtain ⟨ops, upto, db, hphase, hdb, rfl⟩ := step_flushApply hs
    refine .inr (.inr (.inl ⟨ops, db, ?_, ?_, rfl⟩))
    · simp [State.log, State.pending, hphase]
    · change Log.replay applyOp s.base ops = some db
      rw [s.base_of_ne (by simp [hphase])]
      exact hdb
  | flushDrop =>
    obtain ⟨upto, hphase, rfl⟩ := step_flushDrop hs
    exact .inl (by simp [State.log, State.base, State.pending, State.dropUpto, hphase])
  | clearOverlay =>
    obtain ⟨-, rfl⟩ := step_clearOverlay hs
    exact .inr (.inr (.inr rfl))
  | clearBucket =>
    obtain ⟨hphase, rfl⟩ := step_clearBucket hs
    exact .inl (by simp [State.log, State.base, State.pending, hphase])

/-! ### The invariant -/

/-- The hosts and addresses in use. No host is the byte form of an address, and addresses
have no zone, which the byte form would drop. -/
structure Names where
  hosts : Set GoString
  addrs : Set Addr
  zone : ∀ a ∈ addrs, a.zone = []
  ne_asSlice : ∀ h ∈ hosts, ∀ a ∈ addrs, h ≠ a.asSlice

/-- The hosts that a bucket stores for the addresses in use are hosts in use. -/
def Names.StoredIn (N : Names) (b : Bucket) : Prop :=
  ∀ a ∈ N.addrs, ∀ host, b a.asSlice = some host → host ∈ N.hosts

/-- The overlay and the log. -/
structure Inv (N : Names) (s : State) : Prop where
  log : s.log.WF applyOp
  upto : ∀ upto, (∃ ops, s.phase = .flushing ops upto) ∨ s.phase = .applied upto →
    upto + s.ops.length = s.seq
  host : ∀ h ∈ N.hosts, Tracks applyOp s.log h ((s.hosts h).map PendingAddr.entry)
  ip : ∀ a ∈ N.addrs, Tracks applyOp s.log a.asSlice ((s.ips a).map PendingHost.entry)
  valid : ∀ h ∈ N.hosts, ∀ p, s.hosts h = some p → p.deleted = false → p.ip.isValid ∧ p.ip.zone = []
  stored : N.StoredIn s.direct

/-- A write on the names in use; addresses given to hosts are valid ones. -/
def Uses (N : Names) : Act → Prop
  | .putByHost host ip => host ∈ N.hosts ∧ ip.isValid ∧ ip.zone = []
  | .putByIP ip host => ip ∈ N.addrs ∧ host ∈ N.hosts
  | .delByIP ip => ip ∈ N.addrs
  | _ => True

/-- The steps of the store on the names in use. -/
def Step (N : Names) (s s' : State) : Prop := ∃ act, Uses N act ∧ step s act = some s'

/-- The lookup of an address falls through the overlay, between the two steps of
`FlushFakeIP`, to a mapping of the bucket about to be deleted. -/
def StaleIP (s : State) (ip : Addr) : Prop :=
  s.phase = .clearing ∧ s.ips ip = none ∧ s.db ip.asSlice ≠ none

/-- The steps other than deletions that resolve a stale host. -/
def SafeStep (N : Names) (s s' : State) : Prop :=
  ∃ act, Uses N act ∧ (∀ ip, act = .delByIP ip → ¬ StaleIP s ip) ∧ step s act = some s'

variable {N : Names}

theorem Inv.init (hdb : N.StoredIn db) : Inv N (init db) where
  log := ⟨rfl, le_refl _⟩
  upto := by
    rintro upto (⟨ops, h⟩ | h) <;> cases h
  host _ _ := Tracks.start
  ip _ _ := Tracks.start
  valid _ _ _ h := by cases h
  stored := hdb

section

variable (h : Inv N s)
include h

/-- Under the mutex an address resolves as in the direct store, unless an old mapping is
found while `FlushFakeIP` runs. -/
theorem Inv.getByIP_eq (hip : ip ∈ N.addrs) (hwin : ¬ StaleIP s ip) :
    s.getByIP ip = getByIP s.direct ip := by
  have htrack := h.ip ip hip
  unfold State.getByIP FakeIpStore.getByIP
  cases hp : s.ips ip with
  | some p =>
    rw [hp] at htrack
    exact (htrack.sound _ _ rfl).symm
  | none =>
    rw [hp] at htrack
    have hbase : s.base ip.asSlice = s.direct ip.asSlice := htrack.base_eq h.log
    by_cases hc : s.phase = .clearing
    · rw [s.base_of_clearing hc] at hbase
      have hnone : s.db ip.asSlice = none := by
        by_contra hne
        exact hwin ⟨hc, hp, hne⟩
      exact hnone.trans hbase
    · rw [← hbase, s.base_of_ne hc]

/-- What a write may do to the overlay: leave a key it does not change, or note its new
value under the number of the write. -/
def Noted (d d' : Bucket) (seq : Nat) (key : GoString) (e e' : Option (Option GoString × Nat)) :
    Prop :=
  (e' = e ∧ d' key = d key) ∨ e' = some (d' key, seq + 1)

theorem Inv.record {d : Bucket} (hd : applyOp s.direct op = some d)
    (hhosts : ∀ k ∈ N.hosts, Noted s.direct d s.seq k ((s.hosts k).map PendingAddr.entry)
      ((hosts k).map PendingAddr.entry))
    (hips : ∀ a ∈ N.addrs, Noted s.direct d s.seq a.asSlice ((s.ips a).map PendingHost.entry)
      ((ips a).map PendingHost.entry))
    (hvalid : ∀ k ∈ N.hosts, ∀ p, hosts k = some p → p.deleted = false →
      p.ip.isValid ∧ p.ip.zone = []) (hstored : N.StoredIn d) :
    Inv N { s with seq := s.seq + 1, hosts, ips, ops := s.ops ++ [op], direct := d } := by
  have hlog := log_record s op hosts ips d
  refine ⟨?_, ?_, ?_, ?_, hvalid, hstored⟩
  · rw [hlog]
    exact h.log.write hd
  · intro upto hup
    have := h.upto upto hup
    simp only [length_append, length_singleton]
    omega
  · intro k hk
    rw [hlog]
    exact (h.host k hk).write h.log hd (hhosts k hk)
  · intro a ha
    rw [hlog]
    exact (h.ip a ha).write h.log hd (hips a ha)

/-! ### The writes -/

theorem Inv.putByHost (hhost : host ∈ N.hosts) (hip : ip.isValid ∧ ip.zone = [])
    (hs : s.putByHost host ip = some s') : Inv N s' := by
  unfold State.putByHost at hs
  split at hs
  · exact some.inj hs ▸ h
  · obtain ⟨d, hd, rfl⟩ := record_eq_some hs
    obtain ⟨-, rfl⟩ := Bucket.put_eq_some hd
    have hne : ∀ a ∈ N.addrs, a.asSlice ≠ host := fun a ha => (N.ne_asSlice host hhost a ha).symm
    refine h.record hd (fun k _ => ?_) (fun a ha => ?_) (fun k hk p hp => ?_) fun a ha v hv => ?_
    · by_cases hk : k = host
      · subst hk
        exact .inr (by simp [PendingAddr.entry])
      · exact .inl (by simp [hk])
    · exact .inl ⟨rfl, by simp [hne a ha]⟩
    · by_cases hkh : k = host
      · subst hkh
        rw [update_self] at hp
        cases hp
        exact fun _ => hip
      · rw [update_of_ne hkh] at hp
        exact h.valid k hk p hp
    · rw [update_of_ne (hne a ha)] at hv
      exact h.stored a ha v hv

theorem Inv.putByIP (hip : ip ∈ N.addrs) (hhost : host ∈ N.hosts)
    (hs : s.putByIP ip host = some s') : Inv N s' := by
  obtain ⟨d, hd, rfl⟩ := record_eq_some hs
  obtain ⟨-, rfl⟩ := Bucket.put_eq_some hd
  have hinj : ∀ a ∈ N.addrs, a ≠ ip → a.asSlice ≠ ip.asSlice := fun a ha hne heq =>
    hne (Addr.asSlice_inj (N.zone a ha) (N.zone ip hip) heq)
  refine h.record hd (fun k hk => ?_) (fun a ha => ?_) h.valid fun a ha v hv => ?_
  · exact .inl ⟨rfl, by simp [N.ne_asSlice k hk ip hip]⟩
  · by_cases haip : a = ip
    · subst haip
      exact .inr (by simp [PendingHost.entry])
    · exact .inl ⟨by simp [haip], by simp [hinj a ha haip]⟩
  · by_cases haip : a = ip
    · subst haip
      rw [update_self] at hv
      exact some.inj hv ▸ hhost
    · rw [update_of_ne (hinj a ha haip)] at hv
      exact h.stored a ha v hv

/-- A deletion marks in the overlay exactly the keys it removes from the direct store,
because both resolve the address to the same host. -/
theorem Inv.delByIP (hip : ip ∈ N.addrs) (hwin : ¬ StaleIP s ip)
    (hs : s.delByIP ip = some s') : Inv N s' := by
  have hget : s.getByIP ip = s.direct ip.asSlice := h.getByIP_eq hip hwin
  obtain ⟨d, hd, rfl⟩ := record_eq_some hs
  obtain rfl : delByIP s.direct ip = d := some.inj hd
  rw [hget]
  refine h.record hd (fun k hk => ?_) (fun a ha => ?_) (fun k hk p hp => ?_) fun a ha v hv => ?_
  · -- the entry of the host the address maps to, and no other one, is marked
    rw [s.markDeleted_apply]
    by_cases hk' : s.direct ip.asSlice = some k ∧ k ≠ []
    · exact .inr (by simp [hk', PendingAddr.entry, delByIP_apply])
    · exact .inl (by simp [hk', delByIP_apply, N.ne_asSlice k hk ip hip])
  · by_cases haip : a = ip
    · subst haip
      exact .inr (by simp [PendingHost.entry, delByIP_apply])
    · refine .inl ⟨by simp [haip], delByIP_of_ne ?_ fun hhost => ?_⟩
      · exact fun heq => haip (Addr.asSlice_inj (N.zone a ha) (N.zone ip hip) heq)
      · exact absurd rfl (N.ne_asSlice _ (h.stored ip hip _ hhost) a ha)
  · rw [s.markDeleted_apply] at hp
    split at hp
    · cases hp
      exact nofun
    · exact h.valid k hk p hp
  · exact h.stored a ha v (delByIP_eq_some hv)

/-! ### The steps of a flush -/

/-- A step that changes neither log nor overlay. -/
theorem Inv.of_log_eq (hlog : s'.log = s.log) (hhosts : s'.hosts = s.hosts) (hips : s'.ips = s.ips)
    (hupto : ∀ upto, (∃ ops, s'.phase = .flushing ops upto) ∨ s'.phase = .applied upto →
      upto + s'.ops.length = s'.seq) : Inv N s' := by
  have hdirect : s'.direct = s.direct := congrArg Log.direct hlog
  refine ⟨hlog ▸ h.log, hupto, ?_, ?_, hhosts ▸ h.valid, hdirect ▸ h.stored⟩
  · rw [hlog, hhosts]
    exact h.host
  · rw [hlog, hips]
    exact h.ip

theorem Inv.flushTake (hs : WriteBehind.step s .flushTake = some s') : Inv N s' := by
  obtain ⟨hphase, rfl | rfl⟩ := step_flushTake hs
  · exact h
  · refine h.of_log_eq ?_ rfl rfl ?_
    · simp [State.log, State.base, State.pending, hphase]
    · rintro upto (⟨ops, hp⟩ | hp) <;> cases hp
      rfl

theorem Inv.flushApply (hs : WriteBehind.step s .flushApply = some s') :
    Inv N s' := by
  obtain ⟨ops, upto, db, hphase, hdb, rfl⟩ := step_flushApply hs
  have hpending : s.log.pending = ops ++ s.ops := by simp [State.log, State.pending, hphase]
  have hbase : Log.replay applyOp s.log.base ops = some db := by
    change Log.replay applyOp s.base ops = some db
    rw [s.base_of_ne (by simp [hphase])]
    exact hdb
  refine ⟨h.log.absorb hpending hbase, ?_, fun k hk => (h.host k hk).absorb hpending hbase,
    fun a ha => (h.ip a ha).absorb hpending hbase, h.valid, h.stored⟩
  rintro upto' (⟨ops', hp⟩ | hp) <;> cases hp
  exact h.upto upto (.inl ⟨ops, hphase⟩)

omit h in
/-- An entry that `flush` drops stands for a write that is part of the database. -/
theorem Inv.tracks_filter {key : GoString} {upto : Nat} (hphase : s.phase = .applied upto)
    (hlen : upto + s.ops.length = s.seq) {P : Type*} {e : Option P}
    {entry : P → Option GoString × Nat} {seq : P → Nat} (hseq : ∀ p, (entry p).2 = seq p)
    (h : Tracks applyOp s.log key (e.map entry)) :
    Tracks applyOp s.log key ((e.filter (upto < seq ·)).map entry) := by
  cases e with
  | none => exact h
  | some p =>
    by_cases hp : upto < seq p
    · simpa [Option.filter, hp] using h
    · simp only [Option.filter, hp, decide_false, Bool.false_eq_true, if_false]
      refine h.drop ?_
      have hpending : s.log.pending = s.ops := by simp [State.log, State.pending, hphase]
      rw [hpending, hseq]
      change seq p + s.ops.length ≤ s.seq
      omega

theorem Inv.flushDrop (hs : WriteBehind.step s .flushDrop = some s') : Inv N s' := by
  obtain ⟨upto, hphase, rfl⟩ := step_flushDrop hs
  have hlen := h.upto upto (.inr hphase)
  have hlog : State.log { s.dropUpto upto with phase := .idle } = s.log := by
    simp [State.log, State.base, State.pending, State.dropUpto, hphase]
  refine ⟨hlog ▸ h.log, ?_, fun k hk => ?_, fun a ha => ?_, fun k hk p hp => ?_, h.stored⟩
  · rintro upto' (⟨ops', hp⟩ | hp) <;> cases hp
  · rw [hlog]
    exact Inv.tracks_filter hphase hlen (fun _ => rfl) (h.host k hk)
  · rw [hlog]
    exact Inv.tracks_filter hphase hlen (fun _ => rfl) (h.ip a ha)
  · exact h.valid k hk p (filter_eq_some_iff.mp hp).1

omit h in
theorem Inv.clearOverlay (hs : WriteBehind.step s .clearOverlay = some s') : Inv N s' := by
  obtain ⟨-, rfl⟩ := step_clearOverlay hs
  refine ⟨⟨rfl, Nat.zero_le _⟩, ?_, fun _ _ => Tracks.start, fun _ _ => Tracks.start, nofun,
    nofun⟩
  rintro upto (⟨ops, hp⟩ | hp) <;> cases hp

theorem Inv.clearBucket (hs : WriteBehind.step s .clearBucket = some s') :
    Inv N s' := by
  obtain ⟨hphase, rfl⟩ := step_clearBucket hs
  refine h.of_log_eq ?_ rfl rfl ?_
  · simp [State.log, State.base, State.pending, hphase]
  · rintro upto (⟨ops, hp⟩ | hp) <;> cases hp

/-- Every safe step keeps the invariant. -/
theorem Inv.step (hs : SafeStep N s s') : Inv N s' := by
  obtain ⟨act, huses, hsafe, hs⟩ := hs
  cases act with
  | putByHost host ip => exact h.putByHost huses.1 huses.2 hs
  | putByIP ip host => exact h.putByIP huses.1 huses.2 hs
  | delByIP ip => exact h.delByIP huses (hsafe ip rfl) hs
  | flushTake => exact h.flushTake hs
  | flushApply => exact h.flushApply hs
  | flushDrop => exact h.flushDrop hs
  | clearOverlay => exact Inv.clearOverlay hs
  | clearBucket => exact h.clearBucket hs

omit h in
theorem Inv.reachable (hdb : N.StoredIn db)
    (hrun : Relation.ReflTransGen (SafeStep N) (WriteBehind.init db) s) : Inv N s := by
  induction hrun with
  | refl => exact Inv.init hdb
  | tail _ hstep ih => exact ih.step hstep

/-! ### Reads -/

/-- `GetByHost`, from its look at the overlay in state `s` to its read of the database in
state `s'`. -/
def getByHost (s s' : State) (host : GoString) : Option Addr :=
  (s.pendingHost host).getD (FakeIpStore.getByHost s'.db host)

theorem Inv.pendingHost_eq (hhost : host ∈ N.hosts) {r : Option Addr}
    (hr : s.pendingHost host = some r) : FakeIpStore.getByHost s.direct host = r := by
  obtain ⟨p, hp, rfl⟩ := map_eq_some_iff.mp hr
  have htrack := h.host host hhost
  rw [hp] at htrack
  have hdirect : s.direct host = _ := htrack.sound _ _ rfl
  rw [FakeIpStore.getByHost, hdirect]
  cases hdel : p.deleted with
  | true => rfl
  | false =>
    obtain ⟨hv, hz⟩ := h.valid host hhost p hp hdel
    simpa using Addr.addrFromSlice_asSlice hv hz

/-- `Q` stays true of all contents between database and direct store while it is true of the
direct store. -/
theorem held_step (hs : SafeStep N s s')
    (hheld : s.log.Held applyOp Q) (hQ : Q s'.direct) : s'.log.Held applyOp Q := by
  obtain ⟨act, -, -, hs⟩ := hs
  rcases log_step hs with hlog | ⟨op, d, hd, hlog⟩ | ⟨ops, b, hp, hb, hlog⟩ | hlog
  · rw [hlog]
    exact hheld
  · have hdirect : s'.direct = d := congrArg Log.direct hlog
    rw [hlog]
    exact hheld.write h.log hd (hdirect ▸ hQ)
  · rw [hlog]
    exact hheld.absorb hp hb
  · have hdirect : s'.direct = .empty := congrArg Log.direct hlog
    rw [hlog]
    intro l hl b hb
    obtain rfl := prefix_nil.mp hl
    obtain rfl := some.inj hb
    exact hdirect ▸ hQ

omit h in
/-- Between the two steps of `FlushFakeIP` nothing writes to the database. -/
theorem db_of_clearing (hs : step s act = some s') (hc : s'.phase = .clearing) : s'.db = s.db := by
  have hrecord : ∀ {op hosts ips}, s.record op hosts ips = some s' → s'.db = s.db := by
    intro op hosts ips h
    obtain ⟨d, -, rfl⟩ := record_eq_some h
    rfl
  cases act with
  | putByHost host ip =>
    simp only [step, State.putByHost] at hs
    split at hs
    · exact some.inj hs ▸ rfl
    · exact hrecord hs
  | putByIP ip host => exact hrecord hs
  | delByIP ip =>
    simp only [step, State.delByIP] at hs
    exact hrecord hs
  | flushTake =>
    obtain ⟨-, rfl | rfl⟩ := step_flushTake hs <;> rfl
  | flushApply =>
    obtain ⟨ops, upto, db, -, -, rfl⟩ := step_flushApply hs
    cases hc
  | flushDrop =>
    obtain ⟨upto, -, rfl⟩ := step_flushDrop hs
    rfl
  | clearOverlay =>
    obtain ⟨-, rfl⟩ := step_clearOverlay hs
    rfl
  | clearBucket =>
    obtain ⟨-, rfl⟩ := step_clearBucket hs
    cases hc

/-- Along a run, `Q` holds of the database if it held of all contents on the way to the
direct store and holds of every direct store since; unless `FlushFakeIP` was between its two
steps all the time. -/
theorem held_run (hrun : Visits (SafeStep N) s l s') (hheld : s.log.Held applyOp Q)
    (hQ : ∀ t ∈ l, Q t.direct) :
    Inv N s' ∧ s'.log.Held applyOp Q ∧ (Q s'.db ∨ ∀ t ∈ l, t.phase = .clearing) := by
  have hdb : ∀ t : State, t.phase ≠ .clearing → t.log.Held applyOp Q → Q t.db :=
    fun t hne ht => t.base_of_ne hne ▸ ht.base
  induction hrun with
  | refl =>
    refine ⟨h, hheld, ?_⟩
    by_cases hc : s.phase = .clearing
    · exact .inr (by simpa using hc)
    · exact .inl (hdb s hc hheld)
  | tail hrun hstep ih =>
    obtain ⟨hinv, hheld', hor⟩ := ih fun t ht => hQ t (mem_append_left _ ht)
    have hheld'' := held_step hinv hstep hheld' (hQ _ (mem_append_right _ (mem_singleton_self _)))
    refine ⟨hinv.step hstep, hheld'', ?_⟩
    rename_i t u l
    by_cases hc : u.phase = .clearing
    · rcases hor with hq | hall
      · obtain ⟨act, -, -, hs⟩ := hstep
        exact .inl (db_of_clearing hs hc ▸ hq)
      · exact .inr (forall_mem_append.mpr ⟨hall, forall_mem_singleton.mpr hc⟩)
    · exact .inl (hdb u hc hheld'')

/-- A read of a host that starts in `s` and ends in `s'` answers as the direct store does in a
state in between, unless it reads an old mapping while `FlushFakeIP` is between its steps. -/
theorem Inv.getByHost (hhost : host ∈ N.hosts) (hrun : Visits (SafeStep N) s l s')
    (hwin : s.hosts host = none → (∀ t ∈ l, t.phase = .clearing) → s'.db host = none) :
    ∃ t ∈ l, WriteBehind.getByHost s s' host = FakeIpStore.getByHost t.direct host := by
  unfold WriteBehind.getByHost
  cases hp : s.hosts host with
  | some p =>
    have hpend : s.pendingHost host = some (if p.deleted then none else some p.ip) := by
      simp [State.pendingHost, hp]
    refine ⟨s, hrun.first_mem, ?_⟩
    rw [h.pendingHost_eq hhost hpend, hpend]
    rfl
  | none =>
    have hpend : s.pendingHost host = none := by simp [State.pendingHost, hp]
    have htrack := h.host host hhost
    rw [hp] at htrack
    have hheld : s.log.Held applyOp fun b => ∃ t ∈ l, b host = t.direct host :=
      fun ops hops b hb => ⟨s, hrun.first_mem, htrack.held h.log ops hops b hb⟩
    obtain ⟨-, -, hq | hall⟩ := held_run h hrun hheld fun t ht => ⟨t, ht, rfl⟩
    · obtain ⟨t, ht, heq⟩ := hq
      refine ⟨t, ht, ?_⟩
      rw [hpend, getD_none, FakeIpStore.getByHost, FakeIpStore.getByHost, heq]
    · -- no write to the host since the overlay was cleared, and none in the old bucket
      have hdirect : s.base host = s.direct host := htrack.base_eq h.log
      rw [s.base_of_clearing (hall s hrun.first_mem)] at hdirect
      refine ⟨s, hrun.first_mem, ?_⟩
      rw [hpend, getD_none, FakeIpStore.getByHost, FakeIpStore.getByHost, hwin hp hall, ← hdirect]
      rfl

/-- With nothing pending and no flush under way the database is the direct store. -/
theorem Inv.db_eq_direct (hphase : s.phase = .idle) (hops : s.ops = []) :
    s.db = s.direct := by
  have hreplay := h.log.replay
  have hpending : s.log.pending = [] := by simp [State.log, State.pending, hphase, hops]
  rw [hpending] at hreplay
  rw [← s.base_of_ne (by simp [hphase])]
  exact some.inj hreplay

end

/-- In every run without deletions that resolve a stale host: a read of a host answers as the
direct store does in some state between its start and its end, and a read of an address as
the direct store does; in both cases unless the read falls through to an old mapping while
`FlushFakeIP` is between its two steps. Once a flush is through and nothing has been written
since, the database is the direct store. -/
theorem reads_linearizable (N : Names) {db : Bucket} (hdb : N.StoredIn db) {s : State}
    (hrun : Relation.ReflTransGen (SafeStep N) (init db) s) :
    (∀ host ∈ N.hosts, ∀ l s', Visits (SafeStep N) s l s' →
        (s.hosts host = none → (∀ t ∈ l, t.phase = .clearing) → s'.db host = none) →
        ∃ t ∈ l, getByHost s s' host = FakeIpStore.getByHost t.direct host) ∧
      (∀ ip ∈ N.addrs, ¬ StaleIP s ip → s.getByIP ip = getByIP s.direct ip ∧
          s.exist ip = (getByIP s.direct ip).isSome) ∧
      (s.phase = .idle → s.ops = [] → s.db = s.direct) := by
  have h : Inv N s := Inv.reachable hdb hrun
  refine ⟨fun host hhost l s' hl hwin => h.getByHost hhost hl hwin, fun ip hip hstale => ?_,
    h.db_eq_direct⟩
  have hget := h.getByIP_eq hip hstale
  exact ⟨hget, by rw [State.exist, hget]⟩

/-- One host and two addresses. -/
def oneHost : Names where
  hosts := {lit "example.com"}
  addrs := {.v4 198 18 0 4, .v4 198 18 0 5}
  zone := by
    rintro a (rfl | rfl) <;> rfl
  ne_asSlice := by
    rintro h rfl a (rfl | rfl) <;> decide

/-- A write and a flush. -/
theorem reads_linearizable_example :
    ∃ s, Relation.ReflTransGen (SafeStep oneHost) (init .empty) s ∧ s.seq = 1 ∧
      s.db = s.direct := by
  have h₁ : SafeStep oneHost (init .empty) _ :=
    ⟨.putByHost (lit "example.com") (.v4 198 18 0 4), ⟨rfl, rfl, rfl⟩, nofun, rfl⟩
  have h₂ := (Relation.ReflTransGen.single h₁).tail ⟨.flushTake, trivial, nofun, rfl⟩
  have h₃ := h₂.tail ⟨.flushApply, trivial, nofun, rfl⟩
  have h₄ := h₃.tail ⟨.flushDrop, trivial, nofun, rfl⟩
  have hdb : oneHost.StoredIn .empty := fun _ _ _ h => by cases h
  exact ⟨_, h₄, rfl, (reads_linearizable oneHost hdb h₄).2.2 rfl rfl⟩

/-- While `FlushFakeIP` has cleared the overlay and not yet the bucket, `GetByHost` answers
with an address that a later write had replaced even before the flush. -/
theorem stale_read_in_flush_window :
    ∃ db s₁ s₂, oneHost.StoredIn db ∧
      Relation.ReflTransGen (Step oneHost) (init db) s₁ ∧ Step oneHost s₁ s₂ ∧
      getByHost s₂ s₂ (lit "example.com") = some (.v4 198 18 0 4) ∧
      FakeIpStore.getByHost s₁.direct (lit "example.com") = some (.v4 198 18 0 5) ∧
      FakeIpStore.getByHost s₂.direct (lit "example.com") = none := by
  let db : Bucket := update Bucket.empty (lit "example.com") (some (Addr.v4 198 18 0 4).asSlice)
  have h₁ : Step oneHost (init db) _ :=
    ⟨.putByHost (lit "example.com") (.v4 198 18 0 5), ⟨rfl, rfl, rfl⟩, rfl⟩
  refine ⟨db, _, _, ?_, .single h₁, ⟨.clearOverlay, trivial, rfl⟩, ?_, ?_, ?_⟩
  · rintro a (rfl | rfl) host hhost <;> cases hhost
  · decide
  · decide
  · decide

/-! ### A flush that fails -/

/-- `FlushFakeIP` from the moment it has `flushMu` to its return, if the transaction that deletes
the bucket fails. Reads in between change nothing. -/
def State.failFlush (s : State) : Option State :=
  (step s .clearOverlay).map fun t => { t with phase := .idle, direct := t.db }

/-- After a flush that failed, what was readable before is readable and a later flush leaves the
database it would have left, if and only if the database had all of it before: each readable entry
of the overlay, and whatever the pending operations write. -/
theorem failFlush_keeps_iff (h : s.failFlush = some s') :
    ((∀ host ip, getByHost s s host = some ip → getByHost s' s' host = some ip) ∧
      (∀ ip host, s.getByIP ip = some host → s'.getByIP ip = some host) ∧
      apply s'.db s'.ops = apply s.db s.ops) ↔
    (∀ host p, s.hosts host = some p → p.deleted = false →
        FakeIpStore.getByHost s.db host = some p.ip) ∧
      (∀ ip p, s.ips ip = some p → p.deleted = false → FakeIpStore.getByIP s.db ip = some p.host) ∧
      apply s.db s.ops = some s.db := by
  obtain ⟨t, ht, rfl⟩ := map_eq_some_iff.mp h
  obtain ⟨-, rfl⟩ := step_clearOverlay ht
  -- with the overlay gone every read is one of the database
  refine and_congr ⟨fun hread host p hp hlive => ?_, fun hhosts host ip hread => ?_⟩
    (and_congr ⟨fun hread ip p hp hlive => ?_, fun hips ip host hread => ?_⟩ eq_comm)
  · exact hread host p.ip (by simp [getByHost, State.pendingHost, hp, hlive])
  · cases hp : s.hosts host with
    | none => simpa [getByHost, State.pendingHost, hp] using hread
    | some p =>
      simp only [getByHost, State.pendingHost, hp, map_some, getD_some] at hread
      split at hread
      · cases hread
      · cases hread
        exact hhosts host p hp (eq_false_of_ne_true ‹_›)
  · exact hread ip p.host (by simp [State.getByIP, hp, hlive])
  · cases hp : s.ips ip with
    | none => simpa [State.getByIP, hp] using hread
    | some p =>
      simp only [State.getByIP, hp] at hread
      split at hread
      · cases hread
      · cases hread
        exact hips ip p hp (eq_false_of_ne_true ‹_›)

/-- A host is written again to the address that the database has for it. -/
theorem failFlush_keeps_written : ∃ s s' : State, s.ops.length = 1 ∧ s.failFlush = some s' ∧
    getByHost s' s' (lit "example.com") = some (.v4 198 18 0 4) := by
  let db : Bucket := update Bucket.empty (lit "example.com") (some [198, 18, 0, 4])
  let s : State := ((init db).putByHost (lit "example.com") (.v4 198 18 0 4)).get rfl
  have hfail : s.failFlush = some _ := rfl
  refine ⟨s, _, rfl, hfail, ((failFlush_keeps_iff hfail).mpr ⟨fun host p hp _ => ?_, ?_, ?_⟩).1 _ _
    (by decide)⟩
  · obtain rfl | hne := eq_or_ne host (lit "example.com")
    · cases hp
      rfl
    · cases (update_of_ne hne _ _).symm.trans hp
  · exact fun _ _ => nofun
  · exact congrArg some (update_idem ..)

/-- A host written just before is neither readable nor to be written any more. -/
theorem failFlush_loses : ∃ s s', Relation.ReflTransGen (Step oneHost) (init .empty) s ∧
    s.failFlush = some s' ∧ s.ops.length = 1 ∧ s'.ops = [] ∧
    getByHost s s (lit "example.com") = some (.v4 198 18 0 4) ∧
    getByHost s' s' (lit "example.com") = none :=
  ⟨_, _, .single ⟨.putByHost (lit "example.com") (.v4 198 18 0 4), ⟨rfl, rfl, rfl⟩, rfl⟩, rfl, rfl,
    rfl, by decide, by decide⟩

end WriteBehind

end Hako.FakeIP
