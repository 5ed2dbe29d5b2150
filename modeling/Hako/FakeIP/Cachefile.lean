import Hako.FakeIP.Pool
import Hako.FakeIP.WriteBehind

/-!
# The persistent store under a pool

A pool makes its calls one after another, but the timer may flush the write-behind store at
any time, also in the middle of a call. A schedule says how many steps the flushing thread
makes before each access to the store. Under every schedule the store answers a pool as the
direct store would.
-/

namespace Hako.FakeIP

open GoLib Lib WriteBehind FakeIpStore

namespace WriteBehind

/-- The next step of the flushing thread. -/
def State.tick (s : State) : State :=
  match s.phase with
  | .idle => (step s .flushTake).getD s
  | .flushing _ _ => (step s .flushApply).getD s
  | .applied _ => (step s .flushDrop).getD s
  | .clearing => s

/-- Wait for `flushMu`: the flush under way ends. -/
def State.finish (s : State) : State :=
  match s.phase with
  | .flushing _ _ => s.tick.tick
  | .applied _ => s.tick
  | _ => s

/-- `FlushFakeIP`, from a state in which no other call runs. -/
def State.flushFakeIP (s : State) : State :=
  match step s.finish .clearOverlay with
  | some s' => (step s' .clearBucket).getD s'
  | none => s.finish

/-- `Sync`: a whole flush. -/
def State.sync (s : State) : State := s.finish.tick.finish

end WriteBehind

/-- The store a pool sees. `ticks` are the numbers of steps that the flushing thread makes
before the accesses to come. Transactions of the database succeed. -/
structure CachefileStore where
  wb : State
  ticks : List Nat

namespace CachefileStore

/-- The flushing thread's steps before an access. -/
def access (c : CachefileStore) : CachefileStore :=
  ⟨State.tick^[c.ticks.headD 0] c.wb, c.ticks.tail⟩

/-- `GetByHost`: the overlay and, in a second access, the database. -/
def getByHost (c : CachefileStore) (host : GoString) : Option Addr × CachefileStore :=
  match c.access.wb.pendingHost host with
  | some r => (r, c.access)
  | none => (FakeIpStore.getByHost c.access.access.wb.db host, c.access.access)

/-- A write under the mutex. -/
def write (c : CachefileStore) (act : Act) : CachefileStore :=
  { c.access with wb := (step c.access.wb act).getD c.access.wb }

def getByIP (c : CachefileStore) (ip : Addr) : Option GoString × CachefileStore :=
  (c.access.wb.getByIP ip, c.access)

end CachefileStore

instance : Store CachefileStore where
  getByHost := CachefileStore.getByHost
  putByHost c host ip := c.write (.putByHost host ip)
  getByIP := CachefileStore.getByIP
  putByIP c ip host := c.write (.putByIP ip host)
  delByIP c ip := c.write (.delByIP ip)
  exist c ip := ((c.getByIP ip).1.isSome, (c.getByIP ip).2)
  flushFakeIP c := (true, { c.access with wb := c.access.wb.flushFakeIP })
  isCachefile := true
  sync c := { c.access with wb := c.access.wb.sync }

namespace WriteBehind

variable {N : Names} {J : Bucket → Prop} {s s' : State}

/-- The invariant between the calls of a pool: `J` holds of every bucket that the database
may be left with. -/
structure Quiet (N : Names) (J : Bucket → Prop) (s : State) : Prop where
  inv : Inv N s
  held : s.log.Held applyOp J
  phase : s.phase ≠ .clearing

namespace Quiet

variable (h : Quiet N J s)
include h

theorem db : J s.db := s.base_of_ne h.phase ▸ h.held.base

theorem direct : J s.direct := h.held s.log.pending (List.prefix_refl _) s.direct h.inv.log.replay

omit h in
theorem init {db : Bucket} (hdb : N.StoredIn db) (hJ : J db) : Quiet N J (init db) := by
  refine ⟨Inv.init hdb, ?_, nofun⟩
  intro ops hops b hb
  obtain rfl := List.prefix_nil.mp hops
  exact Option.some.inj hb ▸ hJ

/-- Outside `FlushFakeIP` no deletion is stale. -/
theorem step {act : Act} (huses : Uses N act)
    (hs : WriteBehind.step s act = some s') (hJ : J s'.direct) (hphase : s'.phase ≠ .clearing) :
    Quiet N J s' := by
  have hsafe : SafeStep N s s' := ⟨act, huses, fun ip _ hstale => h.phase hstale.1, hs⟩
  exact ⟨h.inv.step hsafe, held_step h.inv hsafe h.held hJ, hphase⟩

theorem tick : Quiet N J s.tick ∧ s.tick.direct = s.direct := by
  have hkeep : ∀ {act : Act}, Uses N act →
      (∀ s', WriteBehind.step s act = some s' → s'.direct = s.direct ∧ s'.phase ≠ .clearing) →
      Quiet N J ((WriteBehind.step s act).getD s) ∧
        ((WriteBehind.step s act).getD s).direct = s.direct := by
    intro act huses hact
    cases hs : WriteBehind.step s act with
    | none => exact ⟨h, rfl⟩
    | some s' =>
      obtain ⟨hd, hp⟩ := hact s' hs
      exact ⟨h.step huses hs (hd ▸ h.direct) hp, hd⟩
  unfold State.tick
  split
  · refine hkeep trivial fun s' hs => ?_
    obtain ⟨hphase, rfl | rfl⟩ := step_flushTake hs
    · exact ⟨rfl, h.phase⟩
    · exact ⟨rfl, nofun⟩
  · refine hkeep trivial fun s' hs => ?_
    obtain ⟨ops, upto, db, -, -, rfl⟩ := step_flushApply hs
    exact ⟨rfl, nofun⟩
  · refine hkeep trivial fun s' hs => ?_
    obtain ⟨upto, -, rfl⟩ := step_flushDrop hs
    exact ⟨rfl, nofun⟩
  · exact ⟨h, rfl⟩

theorem ticks (n : Nat) :
    Quiet N J (State.tick^[n] s) ∧ (State.tick^[n] s).direct = s.direct := by
  induction n generalizing s with
  | zero => exact ⟨h, rfl⟩
  | succ n ih =>
    obtain ⟨ht, hd⟩ := h.tick
    obtain ⟨hn, hdn⟩ := ih ht
    exact ⟨hn, hdn.trans hd⟩

omit h in
/-- The transaction of a flush succeeds: every operation was possible on the direct store. -/
theorem apply_isSome (h : Inv N s) {ops : List FakeIPOp} {upto : Nat}
    (hphase : s.phase = .flushing ops upto) : ∃ db, apply s.db ops = some db := by
  have hreplay : Log.replay applyOp s.base s.pending = some s.direct := h.log.replay
  rw [s.base_of_ne (by simp [hphase]), State.pending, hphase, Log.replay_append] at hreplay
  obtain ⟨db, hdb, -⟩ := Option.bind_eq_some_iff.mp hreplay
  exact ⟨db, hdb⟩

theorem finish :
    Quiet N J s.finish ∧ s.finish.direct = s.direct ∧ s.finish.phase = .idle := by
  have hdrop : ∀ (t : State) (upto : Nat), t.phase = .applied upto → t.tick.phase = .idle := by
    intro t upto hphase
    simp [State.tick, WriteBehind.step, hphase]
  cases hphase : s.phase with
  | idle =>
    rw [State.finish, hphase]
    exact ⟨h, rfl, hphase⟩
  | flushing ops upto =>
    obtain ⟨db, hdb⟩ := apply_isSome h.inv hphase
    have happlied : s.tick.phase = .applied upto := by
      simp [State.tick, WriteBehind.step, hphase, hdb]
    obtain ⟨h₁, hd₁⟩ := h.tick
    obtain ⟨h₂, hd₂⟩ := h₁.tick
    rw [State.finish, hphase]
    exact ⟨h₂, hd₂.trans hd₁, hdrop _ _ happlied⟩
  | applied upto =>
    obtain ⟨h₁, hd₁⟩ := h.tick
    rw [State.finish, hphase]
    exact ⟨h₁, hd₁, hdrop _ _ hphase⟩
  | clearing => exact absurd hphase h.phase

theorem sync : Quiet N J s.sync ∧ s.sync.direct = s.direct := by
  obtain ⟨h₁, hd₁, -⟩ := h.finish
  obtain ⟨h₂, hd₂⟩ := h₁.tick
  obtain ⟨h₃, hd₃, -⟩ := h₂.finish
  exact ⟨h₃, hd₃.trans (hd₂.trans hd₁)⟩

theorem flushFakeIP (hJ : J .empty) :
    Quiet N J s.flushFakeIP ∧ s.flushFakeIP.direct = .empty := by
  obtain ⟨hf, -, hidle⟩ := h.finish
  obtain ⟨t, ht⟩ : ∃ t, WriteBehind.step s.finish .clearOverlay = some t :=
    ⟨_, by simp only [WriteBehind.step, hidle]; exact rfl⟩
  obtain ⟨-, hteq⟩ := step_clearOverlay ht
  obtain ⟨u, hu⟩ : ∃ u, WriteBehind.step t .clearBucket = some u :=
    ⟨_, by simp only [WriteBehind.step, hteq]; exact rfl⟩
  obtain ⟨-, hueq⟩ := step_clearBucket hu
  have htsafe : SafeStep N s.finish t := ⟨.clearOverlay, trivial, by simp, ht⟩
  have husafe : SafeStep N t u := ⟨.clearBucket, trivial, by simp, hu⟩
  have htinv := hf.inv.step htsafe
  have htheld := held_step hf.inv htsafe hf.held (by rw [hteq]; exact hJ)
  have hudirect : u.direct = .empty := by rw [hueq, hteq]
  have hflush : s.flushFakeIP = u := by
    simp only [State.flushFakeIP, ht, hu, Option.getD_some]
  rw [hflush]
  refine ⟨⟨htinv.step husafe, held_step htinv husafe htheld ?_, ?_⟩, hudirect⟩
  · rw [hudirect]
    exact hJ
  · rw [hueq]
    simp

end Quiet

end WriteBehind

/-! ### The store operations on the direct store -/

/-- The invariant of the store under a pool. -/
def Good (N : Names) (J : Bucket → Prop) (c : CachefileStore) : Prop := Quiet N J c.wb

namespace Good

variable {N : Names} {J : Bucket → Prop} {c : CachefileStore} {host : GoString} {ip : Addr}

variable (h : Good N J c)
include h

theorem access : Good N J c.access ∧ c.access.wb.direct = c.wb.direct := h.ticks _

theorem getByHost (hhost : host ∈ N.hosts) :
    Good N J (c.getByHost host).2 ∧ (c.getByHost host).2.wb.direct = c.wb.direct ∧
      (c.getByHost host).1 = getByHost c.wb.direct host := by
  obtain ⟨h₁, hd₁⟩ := h.access
  obtain ⟨h₂, hd₂⟩ := h₁.access
  unfold CachefileStore.getByHost
  split
  · rename_i r hr
    exact ⟨h₁, hd₁, by rw [← hd₁, h₁.inv.pendingHost_eq hhost hr]⟩
  · rename_i hr
    refine ⟨h₂, hd₂.trans hd₁, ?_⟩
    -- without an entry every bucket up to the direct store has the host's value, and the
    -- flushing thread's steps before the second access do not change that
    have hnone : c.access.wb.hosts host = none := by simpa [State.pendingHost] using hr
    have htrack := h₁.inv.host host hhost
    rw [hnone] at htrack
    have hq : Quiet N (fun b => b host = c.access.wb.direct host) c.access.wb :=
      ⟨h₁.inv, htrack.held h₁.inv.log, h₁.phase⟩
    have hdb : c.access.access.wb.db host = c.access.wb.direct host := (hq.ticks _).1.db
    rw [FakeIpStore.getByHost, FakeIpStore.getByHost, hdb, hd₁]

theorem getByIP (ip : Addr) :
    Good N J (c.getByIP ip).2 ∧ (c.getByIP ip).2.wb.direct = c.wb.direct ∧
      (ip ∈ N.addrs → (c.getByIP ip).1 = getByIP c.wb.direct ip) := by
  obtain ⟨h₁, hd₁⟩ := h.access
  refine ⟨h₁, hd₁, fun hip => ?_⟩
  rw [← hd₁]
  exact h₁.inv.getByIP_eq hip fun hstale => h₁.phase hstale.1

/-- A write under the mutex that is possible on the direct store. -/
theorem write {act : Act} {d : Bucket} (huses : Uses N act)
    (hstep : ∀ s : State, s.direct = c.wb.direct → ∃ s', step s act = some s' ∧ s'.direct = d ∧
      s'.phase = s.phase) (hJ : J d) : Good N J (c.write act) ∧ (c.write act).wb.direct = d := by
  obtain ⟨h₁, hd₁⟩ := h.access
  obtain ⟨s', hs, hd, hphase⟩ := hstep c.access.wb hd₁
  have hwrite : (c.write act).wb = s' := by simp [CachefileStore.write, hs]
  have hgood := Quiet.step h₁ huses hs (hd ▸ hJ) (hphase ▸ h₁.phase)
  exact ⟨by rw [Good, hwrite]; exact hgood, by rw [hwrite, hd]⟩

omit h in
theorem record_isSome {s : State} {op : FakeIPOp} {d : Bucket}
    (hd : applyOp s.direct op = some d) (hosts : GoString → Option PendingAddr)
    (ips : Addr → Option PendingHost) :
    ∃ s', s.record op hosts ips = some s' ∧ s'.direct = d ∧ s'.phase = s.phase := by
  rw [State.record, hd]
  exact ⟨_, rfl, rfl, rfl⟩

theorem putByHost (hhost : host ∈ N.hosts) (hne : host ≠ []) (hip : ip.isValid ∧ ip.zone = [])
    (hJ : J (Function.update c.wb.direct host (some ip.asSlice))) :
    Good N J (c.write (.putByHost host ip)) ∧ (c.write (.putByHost host ip)).wb.direct =
        Function.update c.wb.direct host (some ip.asSlice) := by
  refine h.write ⟨hhost, hip⟩ (fun s hs => ?_) hJ
  have hd : applyOp s.direct (.putByHost host ip) =
      some (Function.update c.wb.direct host (some ip.asSlice)) := by
    rw [hs]
    exact if_neg hne
  simp only [step, State.putByHost, if_neg hne]
  exact record_isSome hd _ _

/-- The empty host is not written. -/
theorem putByHost_nil (hhost : [] ∈ N.hosts) (hip : ip.isValid ∧ ip.zone = []) :
    Good N J (c.write (.putByHost [] ip)) ∧ (c.write (.putByHost [] ip)).wb.direct = c.wb.direct :=
  h.write ⟨hhost, hip⟩ (fun s hs => ⟨s, rfl, hs, rfl⟩) (Quiet.direct h)

theorem putByIP (hhost : host ∈ N.hosts) (hip : ip ∈ N.addrs)
    (hne : ip.asSlice ≠ []) (hJ : J (Function.update c.wb.direct ip.asSlice (some host))) :
    Good N J (c.write (.putByIP ip host)) ∧ (c.write (.putByIP ip host)).wb.direct =
        Function.update c.wb.direct ip.asSlice (some host) := by
  refine h.write ⟨hip, hhost⟩ (fun s hs => ?_) hJ
  have hd : applyOp s.direct (.putByIP ip host) =
      some (Function.update c.wb.direct ip.asSlice (some host)) := by
    rw [hs]
    exact if_neg hne
  exact record_isSome hd _ _

theorem delByIP (hip : ip ∈ N.addrs) (hJ : J (delByIP c.wb.direct ip)) :
    Good N J (c.write (.delByIP ip)) ∧
      (c.write (.delByIP ip)).wb.direct = delByIP c.wb.direct ip := by
  refine h.write hip (fun s hs => ?_) hJ
  have hd : applyOp s.direct (.delByIP ip) =
      some (FakeIpStore.delByIP c.wb.direct ip) := by
    rw [hs]
    rfl
  simp only [step, State.delByIP]
  exact record_isSome hd _ _

theorem flushFakeIP (hJ : J .empty) :
    Good N J (Store.flushFakeIP c).2 ∧ (Store.flushFakeIP c).2.wb.direct = .empty :=
  Quiet.flushFakeIP h.access.1 hJ

theorem sync :
    Good N J (Store.sync c) ∧ (Store.sync c).wb.direct = c.wb.direct := by
  obtain ⟨h₁, hd₁⟩ := h.access
  obtain ⟨h₂, hd₂⟩ := Quiet.sync h₁
  exact ⟨h₂, hd₂.trans hd₁⟩

/-- The store opened again, by a new process, over the database that is left. -/
theorem restart (hJ : J c.wb.db → N.StoredIn c.wb.db) :
    Good N J { c with wb := init c.wb.db } ∧ J c.wb.db :=
  ⟨Quiet.init (hJ (Quiet.db h)) (Quiet.db h), Quiet.db h⟩

end Good

end Hako.FakeIP
