import Mathlib

/-!
# Connection events

A tracker turns what is known of the live connections into a stream of events: an initial snapshot,
changes that were queued, and a snapshot at every tick. The changes may come late, twice or never;
what a subscriber sees of each connection is kept in order by the sets of seen and departed ids.
-/

namespace Hako.ConnectionEvents

open List AList

variable {ID : Type} [LinearOrder ID]

/-! ### The tracker -/

/-- `TrackerInfo`, with its counters as they are when it is read. -/
structure Info (ID : Type) where
  id : ID
  start : Int
  upload : Int
  download : Int
deriving DecidableEq

/-- The live connections at one time, with distinct ids; the list may have nil pointers in it. -/
structure Snapshot (ID : Type) where
  infos : List (Option (Info ID))
  nodup : (infos.reduceOption.map Info.id).Nodup

/-- `connectionEvent` -/
inductive Event (ID : Type) where
  | new (connection : Info ID)
  | update (id : ID) (upload download up down : Int)
  | closed (id : ID) (closedAt : Int) (connection : Option (Info ID))
deriving DecidableEq

def Event.id : Event ID → ID
  | .new connection => connection.id
  | .update id .. => id
  | .closed id .. => id

/-- `connectionSnapshot` -/
structure Seen where
  upload : Int
  download : Int
  hadTraffic : Bool
deriving DecidableEq

/-- `connectionChange` -/
structure Change (ID : Type) where
  joined : Bool
  info : Option (Info ID)
  closedAt : Int

structure Tracker (ID : Type) where
  seen : AList fun _ : ID => Seen
  departed : List ID

def newConnectionEventTracker : Tracker ID := ⟨∅, []⟩

/-- `sortedByStart`, which drops nil pointers. -/
def sortedByStart (infos : List (Option (Info ID))) : List (Info ID) :=
  infos.reduceOption.insertionSort fun a b => a.start < b.start ∨ a.start = b.start ∧ a.id ≤ b.id

namespace Tracker

/-- `remember`, where the encoding of the connection succeeds. -/
def remember (t : Tracker ID) (info : Info ID) : Tracker ID × Event ID :=
  ({ t with seen := t.seen.insert info.id ⟨info.upload, info.download, false⟩ }, .new info)

/-- One round of the loop of `open`. -/
def openInfo : Tracker ID × List (Event ID) → Info ID → Tracker ID × List (Event ID)
  | (t, events), info => ((t.remember info).1, events ++ [(t.remember info).2])

def «open» (t : Tracker ID) (snapshot : Snapshot ID) : Tracker ID × List (Event ID) :=
  (sortedByStart snapshot.infos).foldl openInfo ({ t with seen := ∅ }, [])

def apply (t : Tracker ID) (change : Change ID) : Tracker ID × List (Event ID) :=
  match change.info with
  | none => (t, [])
  | some info =>
    let known := (t.seen.lookup info.id).isSome
    if change.joined then
      if known ∨ info.id ∈ t.departed then
        ({ t with departed := t.departed.filter (· ≠ info.id) }, [])
      else ((t.remember info).1, [(t.remember info).2])
    else
      let t := { t with departed := info.id :: t.departed.filter (· ≠ info.id) }
      if ¬ known then (t, [])
      else
        ({ t with seen := t.seen.erase info.id }, [.closed info.id change.closedAt (some info)])

/-- The round of the loop of `step` for a connection that was seen before. -/
def stepKnown (t : Tracker ID) (info : Info ID) (snapshot : Seen) : Tracker ID × List (Event ID) :=
  let up := info.upload - snapshot.upload
  let down := info.download - snapshot.download
  let seeing (hadTraffic : Bool) : Tracker ID :=
    { t with seen := t.seen.insert info.id ⟨info.upload, info.download, hadTraffic⟩ }
  if up < 0 ∨ down < 0 then
    (seeing false,
      if snapshot.hadTraffic then [.update info.id info.upload info.download 0 0] else [])
  else if 0 < up ∨ 0 < down then
    (seeing true, [.update info.id info.upload info.download up down])
  else if snapshot.hadTraffic then
    (seeing false, [.update info.id info.upload info.download 0 0])
  else (t, [])

/-- One round of the loop of `step` over the live connections. -/
def stepInfo : Tracker ID × List (Event ID) → Info ID → Tracker ID × List (Event ID)
  | (t, events), info =>
    match t.seen.lookup info.id with
    | none => ((t.remember info).1, events ++ [(t.remember info).2])
    | some snapshot => ((t.stepKnown info snapshot).1, events ++ (t.stepKnown info snapshot).2)

/-- One round of the loop over the connections that are gone. -/
def stepGone (now : Int) : Tracker ID × List (Event ID) → ID → Tracker ID × List (Event ID)
  | (t, events), id => ({ t with seen := t.seen.erase id }, events ++ [.closed id now none])

def step (t : Tracker ID) (snapshot : Snapshot ID) (now : Int) : Tracker ID × List (Event ID) :=
  let infos := sortedByStart snapshot.infos
  let (t, events) := infos.foldl stepInfo ({ t with departed := [] }, [])
  let gone := t.seen.keys.filter fun id => id ∉ infos.map Info.id
  (gone.insertionSort (· ≤ ·)).foldl (stepGone now) (t, events)

end Tracker

/-- A call after the open. -/
inductive Input (ID : Type) where
  | apply (change : Change ID)
  | step (snapshot : Snapshot ID) (now : Int)

def Tracker.input (t : Tracker ID) : Input ID → Tracker ID × List (Event ID)
  | .apply change => t.apply change
  | .step snapshot now => t.step snapshot now

/-- Some calls, behind what was emitted before. -/
def runInputs : List (Input ID) → Tracker ID × List (Event ID) → Tracker ID × List (Event ID)
  | [], state => state
  | input :: inputs, (t, events) => runInputs inputs ((t.input input).1, events ++ (t.input input).2)

/-- An open and then any calls: the tracker, and all the events that were emitted. -/
def run (first : Snapshot ID) (inputs : List (Input ID)) : Tracker ID × List (Event ID) :=
  runInputs inputs (newConnectionEventTracker.open first)

/-! ### The events of one connection -/

/-- What a subscriber knows of a connection: whether it is there, and the counters as the sum of
what the events have said. -/
inductive Phase where
  | gone
  | live (upload download : Int)
deriving DecidableEq

/-- The next event of a connection, none if it comes out of order. -/
def Phase.next : Phase → Event ID → Option Phase
  | .gone, .new connection => some (.live connection.upload connection.download)
  | .live upload download, .update _ _ _ up down => some (.live (upload + up) (download + down))
  | .live _ _, .closed .. => some .gone
  | _, _ => none

/-- The events of one connection, read in order: new, updates, closed, and so on. -/
def history (id : ID) (events : List (Event ID)) : Option Phase :=
  (events.filter fun e => e.id = id).foldlM Phase.next .gone

/-- The infos that a call reads, in order. -/
def Input.reads : Input ID → List (Info ID)
  | .apply ⟨true, some info, _⟩ => [info]
  | .apply _ => []
  | .step snapshot _ => sortedByStart snapshot.infos

/-- Counters of one connection never decrease from one read to a later one. -/
def NeverDecrease (reads : List (Info ID)) : Prop :=
  reads.Pairwise fun a b => a.id = b.id → a.upload ≤ b.upload ∧ a.download ≤ b.download

/-! ### One event -/

theorem history_concat_self (e : Event ID) (events : List (Event ID)) :
    history e.id (events ++ [e]) = (history e.id events).bind fun p => p.next e := by
  simp only [history, filter_append, foldlM_append]
  have hself : List.filter (fun e' : Event ID => decide (e'.id = e.id)) [e] = [e] := by simp
  rw [hself]
  simp only [foldlM_cons, foldlM_nil, bind_pure]
  rfl

variable {id : ID} {e : Event ID} {before : List (Event ID)} {infos : List (Info ID)}
  {snapshot : Snapshot ID}

/-- The phase of a connection and what the tracker has seen of it: both or none, and with equal
counters where counters never decrease. -/
def Agrees (mono : Prop) : Option Seen → Phase → Prop
  | none, .gone => True
  | some snapshot, .live upload download =>
    mono → upload = snapshot.upload ∧ download = snapshot.download
  | _, _ => False

/-- The stream so far is in order, and tells what the tracker has seen. -/
def Follows (mono : Prop) (t : Tracker ID) (events : List (Event ID)) : Prop :=
  ∀ id, ∃ p, history id events = some p ∧ Agrees mono (t.seen.lookup id) p

variable {mono : Prop} {t t' : Tracker ID} {events : List (Event ID)}

open Tracker

section

variable (h : Follows mono t events)
include h

theorem Follows.event (hother : ∀ id, id ≠ e.id → t'.seen.lookup id = t.seen.lookup id)
    (hself : ∀ p, Agrees mono (t.seen.lookup e.id) p →
      ∃ p', p.next e = some p' ∧ Agrees mono (t'.seen.lookup e.id) p') :
    Follows mono t' (events ++ [e]) := by
  intro id
  obtain ⟨p, hp, hagrees⟩ := h id
  by_cases hid : e.id = id
  · subst hid
    obtain ⟨p', hnext, hagrees'⟩ := hself p hagrees
    exact ⟨p', by rw [history_concat_self, hp]; exact hnext, hagrees'⟩
  · refine ⟨p, by rw [← hp]; simp [history, hid], ?_⟩
    rwa [hother id (Ne.symm hid)]

theorem Follows.silent (hother : ∀ id', id' ≠ id → t'.seen.lookup id' = t.seen.lookup id')
    (hself : ∀ p, Agrees mono (t.seen.lookup id) p → Agrees mono (t'.seen.lookup id) p) :
    Follows mono t' events := by
  intro id'
  obtain ⟨p, hp, hagrees⟩ := h id'
  refine ⟨p, hp, ?_⟩
  by_cases hid : id' = id
  · subst hid
    exact hself p hagrees
  · rwa [hother id' hid]

/-! ### One connection -/

theorem Follows.remember {info : Info ID} (hnew : t.seen.lookup info.id = none) :
    Follows mono (t.remember info).1 (events ++ [(t.remember info).2]) := by
  refine h.event (e := .new info) (fun id hid => lookup_insert_ne hid) fun p hp => ?_
  change Agrees mono (t.seen.lookup info.id) p at hp
  rw [hnew] at hp
  cases p with
  | gone =>
    have hself : (t.remember info).1.seen.lookup info.id =
        some ⟨info.upload, info.download, false⟩ := lookup_insert _
    refine ⟨_, rfl, ?_⟩
    change Agrees mono ((t.remember info).1.seen.lookup info.id) _
    rw [hself]
    exact fun _ => ⟨rfl, rfl⟩
  | live upload download => cases hp

theorem Follows.close (hseen : (t.seen.lookup id).isSome)
    (closedAt : Int) (connection : Option (Info ID)) :
    Follows mono { t with seen := t.seen.erase id } (events ++ [.closed id closedAt connection]) := by
  refine h.event (e := .closed id closedAt connection) (fun id' hid => lookup_erase_ne hid)
    fun p hp => ?_
  change Agrees mono (t.seen.lookup id) p at hp
  obtain ⟨snapshot, hlookup⟩ := Option.isSome_iff_exists.mp hseen
  rw [hlookup] at hp
  cases p with
  | gone => cases hp
  | live upload download =>
    have hself : (t.seen.erase id).lookup id = none := lookup_erase ..
    refine ⟨_, rfl, ?_⟩
    change Agrees mono ((t.seen.erase id).lookup id) _
    rw [hself]
    trivial

end

/-- A connection that was seen before has at least the counters it had then. -/
def NotBelow (t : Tracker ID) (info : Info ID) : Prop :=
  ∀ snapshot, t.seen.lookup info.id = some snapshot →
    snapshot.upload ≤ info.upload ∧ snapshot.download ≤ info.download

section StepInfo

variable {info : Info ID} {snapshot : Seen}

theorem stepKnown_lookup (hseen : t.seen.lookup info.id = some snapshot) :
    ∃ hadTraffic, (t.stepKnown info snapshot).1.seen.lookup info.id =
      some ⟨info.upload, info.download, hadTraffic⟩ := by
  unfold stepKnown
  dsimp only
  split
  · exact ⟨_, lookup_insert _⟩
  · split
    · exact ⟨_, lookup_insert _⟩
    · split
      · exact ⟨_, lookup_insert _⟩
      · next hlt hpos _ =>
        -- nothing has changed since it was seen
        refine ⟨snapshot.hadTraffic, hseen.trans ?_⟩
        obtain ⟨upload, download, hadTraffic⟩ := snapshot
        simp only [Option.some.injEq, Seen.mk.injEq, and_true] at hlt hpos ⊢
        omega

theorem stepKnown_lookup_ne {id : ID} (hid : id ≠ info.id) :
    (t.stepKnown info snapshot).1.seen.lookup id = t.seen.lookup id := by
  unfold stepKnown
  dsimp only
  split
  · exact lookup_insert_ne hid
  · split
    · exact lookup_insert_ne hid
    · split
      · exact lookup_insert_ne hid
      · rfl

theorem Follows.stepKnown (h : Follows mono t events)
    (hseen : t.seen.lookup info.id = some snapshot) (hle : mono → NotBelow t info) :
    Follows mono (t.stepKnown info snapshot).1 (events ++ (t.stepKnown info snapshot).2) := by
  obtain ⟨hadTraffic, hself⟩ := stepKnown_lookup hseen
  have hother : ∀ id, id ≠ info.id → (t.stepKnown info snapshot).1.seen.lookup id =
      t.seen.lookup id := fun id hid => stepKnown_lookup_ne hid
  -- the sum of the deltas stays equal to the counter
  have hupdate : ∀ up down, (mono → up = info.upload - snapshot.upload ∧
      down = info.download - snapshot.download) → Follows mono (t.stepKnown info snapshot).1
        (events ++ [.update info.id info.upload info.download up down]) := by
    intro up down hdelta
    refine h.event (e := .update info.id _ _ up down) hother fun p hp => ?_
    change Agrees mono (t.seen.lookup info.id) p at hp
    rw [hseen] at hp
    cases p with
    | gone => cases hp
    | live upload download =>
      refine ⟨_, rfl, ?_⟩
      change Agrees mono ((t.stepKnown info snapshot).1.seen.lookup info.id) _
      rw [hself]
      intro hmono
      obtain ⟨hup, hdown⟩ := hdelta hmono
      obtain ⟨rfl, rfl⟩ := hp hmono
      dsimp only
      exact ⟨by omega, by omega⟩
  have hquiet : (mono → info.upload = snapshot.upload ∧ info.download = snapshot.download) →
      Follows mono (t.stepKnown info snapshot).1 events := by
    intro heq
    refine h.silent hother fun p hp => ?_
    rw [hseen] at hp
    rw [hself]
    cases p with
    | gone => cases hp
    | live upload download =>
      intro hmono
      obtain ⟨hu, hd⟩ := heq hmono
      obtain ⟨rfl, rfl⟩ := hp hmono
      exact ⟨hu.symm, hd.symm⟩
  have hge : mono → snapshot.upload ≤ info.upload ∧ snapshot.download ≤ info.download :=
    fun hmono => hle hmono snapshot hseen
  revert hupdate hquiet
  generalize hr : t.stepKnown info snapshot = r
  intro hupdate hquiet
  unfold Tracker.stepKnown at hr
  dsimp only at hr
  split at hr
  · next hneg =>
    -- only counters that decrease get here
    have hnot : ¬ mono := fun hmono => by have := hge hmono; omega
    subst hr
    split
    · exact hupdate 0 0 fun hmono => absurd hmono hnot
    · rw [append_nil]
      exact hquiet fun hmono => absurd hmono hnot
  · next hneg =>
    split at hr
    · subst hr
      exact hupdate _ _ fun _ => ⟨rfl, rfl⟩
    · next hpos =>
      split at hr
      · subst hr
        exact hupdate 0 0 fun _ => ⟨by omega, by omega⟩
      · subst hr
        rw [append_nil]
        exact hquiet fun _ => ⟨by omega, by omega⟩

theorem stepInfo_of_none (hnew : t.seen.lookup info.id = none) :
    stepInfo (t, events) info = ((t.remember info).1, events ++ [(t.remember info).2]) := by
  simp only [stepInfo, hnew]

theorem stepInfo_of_some (hseen : t.seen.lookup info.id = some snapshot) :
    stepInfo (t, events) info =
      ((t.stepKnown info snapshot).1, events ++ (t.stepKnown info snapshot).2) := by
  simp only [stepInfo, hseen]

theorem stepInfo_lookup (t : Tracker ID) (events : List (Event ID)) (info : Info ID) :
    ∃ hadTraffic, (stepInfo (t, events) info).1.seen.lookup info.id =
      some ⟨info.upload, info.download, hadTraffic⟩ := by
  cases hseen : t.seen.lookup info.id with
  | none =>
    rw [stepInfo_of_none hseen]
    exact ⟨false, lookup_insert _⟩
  | some snapshot =>
    rw [stepInfo_of_some hseen]
    exact stepKnown_lookup hseen

theorem stepInfo_lookup_ne {id : ID} (hid : id ≠ info.id) :
    (stepInfo (t, events) info).1.seen.lookup id = t.seen.lookup id := by
  cases hseen : t.seen.lookup info.id with
  | none =>
    rw [stepInfo_of_none hseen]
    exact lookup_insert_ne hid
  | some snapshot =>
    rw [stepInfo_of_some hseen]
    exact stepKnown_lookup_ne hid

theorem Follows.stepInfo {before : List (Event ID)} (h : Follows mono t (before ++ events))
    (hle : mono → NotBelow t info) :
    Follows mono (stepInfo (t, events) info).1 (before ++ (stepInfo (t, events) info).2) := by
  cases hseen : t.seen.lookup info.id with
  | none =>
    rw [stepInfo_of_none hseen, ← append_assoc]
    exact h.remember hseen
  | some snapshot =>
    rw [stepInfo_of_some hseen, ← append_assoc]
    exact h.stepKnown hseen hle

end StepInfo

/-! ### Snapshots -/

/-- The loop over the live connections: every one of them has been seen with its counters, and
nothing else has changed. -/
theorem foldl_stepInfo (hnodup : (infos.map Info.id).Nodup) (h : Follows mono t (before ++ events))
    (hle : mono → ∀ info ∈ infos, NotBelow t info) :
    Follows mono (infos.foldl stepInfo (t, events)).1
      (before ++ (infos.foldl stepInfo (t, events)).2) ∧ (∀ info ∈ infos, ∃ hadTraffic,
      (infos.foldl stepInfo (t, events)).1.seen.lookup info.id =
        some ⟨info.upload, info.download, hadTraffic⟩) ∧ ∀ id, id ∉ infos.map Info.id →
      (infos.foldl stepInfo (t, events)).1.seen.lookup id = t.seen.lookup id := by
  induction infos generalizing t events with
  | nil => exact ⟨h, nofun, fun _ _ => rfl⟩
  | cons info infos ih =>
    rw [map_cons, nodup_cons] at hnodup
    have hne : ∀ info' ∈ infos, info'.id ≠ info.id := fun info' hmem heq =>
      hnodup.1 (heq ▸ mem_map_of_mem hmem)
    have hfollows := h.stepInfo fun hmono => hle hmono info mem_cons_self
    have hle' : mono → ∀ info' ∈ infos, NotBelow (stepInfo (t, events) info).1 info' := by
      intro hmono info' hmem snapshot hlookup
      rw [stepInfo_lookup_ne (hne info' hmem)] at hlookup
      exact hle hmono info' (mem_cons_of_mem _ hmem) snapshot hlookup
    obtain ⟨hall, hseen, hother⟩ := ih hnodup.2 hfollows hle'
    refine ⟨hall, fun info' hmem => ?_, fun id hid => ?_⟩
    · obtain rfl | hmem := mem_cons.mp hmem
      · obtain ⟨hadTraffic, hlookup⟩ := stepInfo_lookup t events info'
        exact ⟨hadTraffic, (hother _ hnodup.1).trans hlookup⟩
      · exact hseen info' hmem
    · rw [map_cons, mem_cons, not_or] at hid
      exact (hother id hid.2).trans (stepInfo_lookup_ne hid.1)

/-- The loop over the connections that are gone. -/
theorem foldl_stepGone {gone : List ID} (hnodup : gone.Nodup) (now : Int)
    (h : Follows mono t (before ++ events)) (hseen : ∀ id ∈ gone, (t.seen.lookup id).isSome) :
    Follows mono (gone.foldl (stepGone now) (t, events)).1
      (before ++ (gone.foldl (stepGone now) (t, events)).2) ∧
    (∀ id ∈ gone, (gone.foldl (stepGone now) (t, events)).1.seen.lookup id = none) ∧
    ∀ id, id ∉ gone →
      (gone.foldl (stepGone now) (t, events)).1.seen.lookup id = t.seen.lookup id := by
  induction gone generalizing t events with
  | nil => exact ⟨h, nofun, fun _ _ => rfl⟩
  | cons id gone ih =>
    rw [nodup_cons] at hnodup
    have hfollows := h.close (hseen id mem_cons_self) now none
    rw [append_assoc] at hfollows
    have hseen' : ∀ id' ∈ gone, ((t.seen.erase id).lookup id').isSome := by
      intro id' hmem
      have hne : id' ≠ id := fun heq => hnodup.1 (heq ▸ hmem)
      rw [lookup_erase_ne hne]
      exact hseen id' (mem_cons_of_mem _ hmem)
    obtain ⟨hall, hgone, hother⟩ := ih hnodup.2 hfollows hseen'
    refine ⟨hall, fun id' hmem => ?_, fun id' hid => ?_⟩
    · obtain rfl | hmem := mem_cons.mp hmem
      · exact (hother id' hnodup.1).trans (lookup_erase ..)
      · exact hgone id' hmem
    · rw [mem_cons, not_or] at hid
      exact (hother id' hid.2).trans (lookup_erase_ne hid.1)

theorem perm_sortedByStart (infos : List (Option (Info ID))) :
    (sortedByStart infos).Perm infos.reduceOption := perm_insertionSort _ _

theorem Snapshot.nodup_sorted (snapshot : Snapshot ID) :
    ((sortedByStart snapshot.infos).map Info.id).Nodup :=
  ((perm_sortedByStart snapshot.infos).map _).nodup_iff.mpr snapshot.nodup

/-- The tracker has seen the connections of a snapshot, with their counters, and no others. -/
def Shows (t : Tracker ID) (snapshot : Snapshot ID) : Prop :=
  (∀ info ∈ snapshot.infos.reduceOption, ∃ hadTraffic,
    t.seen.lookup info.id = some ⟨info.upload, info.download, hadTraffic⟩) ∧
  ∀ id, id ∉ snapshot.infos.reduceOption.map Info.id → t.seen.lookup id = none

theorem Follows.step (h : Follows mono t events)
    (hle : mono → ∀ info ∈ sortedByStart snapshot.infos, NotBelow t info) (now : Int) :
    Follows mono (t.step snapshot now).1 (events ++ (t.step snapshot now).2) ∧
      Shows (t.step snapshot now).1 snapshot := by
  have hstart : Follows mono { t with departed := [] } (events ++ []) := by
    rw [append_nil]
    exact h
  obtain ⟨hall, hseen, hother⟩ := foldl_stepInfo snapshot.nodup_sorted hstart hle
  unfold Tracker.step
  dsimp only
  generalize (sortedByStart snapshot.infos).foldl Tracker.stepInfo ({ t with departed := [] }, []) =
    r at hall hseen hother ⊢
  obtain ⟨t', events'⟩ := r
  have hperm := perm_insertionSort (· ≤ ·)
    (t'.seen.keys.filter fun id => id ∉ (sortedByStart snapshot.infos).map Info.id)
  have hnodup := hperm.nodup_iff.mpr (t'.seen.keys_nodup.filter _)
  have hgone : ∀ id, id ∈ List.insertionSort (· ≤ ·)
      (t'.seen.keys.filter fun id => id ∉ (sortedByStart snapshot.infos).map Info.id) ↔
      (t'.seen.lookup id).isSome ∧ id ∉ snapshot.infos.reduceOption.map Info.id := by
    intro id
    rw [hperm.mem_iff, mem_filter, decide_eq_true_eq, AList.lookup_isSome, AList.mem_keys,
      ((perm_sortedByStart snapshot.infos).map Info.id).mem_iff]
  obtain ⟨hfollows, hclosed, hkept⟩ := foldl_stepGone hnodup now hall fun id hid =>
    ((hgone id).mp hid).1
  refine ⟨hfollows, fun info hmem => ?_, fun id hid => ?_⟩
  · have hnot : info.id ∉ List.insertionSort (· ≤ ·)
        (t'.seen.keys.filter fun id => id ∉ (sortedByStart snapshot.infos).map Info.id) := fun h =>
      ((hgone _).mp h).2 (mem_map_of_mem hmem)
    rw [hkept _ hnot]
    exact hseen info ((perm_sortedByStart _).mem_iff.mpr hmem)
  · by_cases hs : (t'.seen.lookup id).isSome
    · exact hclosed id ((hgone id).mpr ⟨hs, hid⟩)
    · rw [hkept id fun h => hs ((hgone id).mp h).1]
      simpa using hs

/-! ### Calls -/

theorem Follows.apply (h : Follows mono t events) (change : Change ID) :
    Follows mono (t.apply change).1 (events ++ (t.apply change).2) := by
  obtain ⟨joined, info, closedAt⟩ := change
  unfold Tracker.apply
  cases info with
  | none => simpa using h
  | some info =>
    dsimp only
    split
    · split
      · rw [append_nil]
        exact h
      · next hnot =>
        refine h.remember ?_
        simpa using (not_or.mp hnot).1
    · split
      · rw [append_nil]
        exact h
      · next hknown =>
        have hfollows : Follows mono
            { t with departed := info.id :: t.departed.filter (· ≠ info.id) } events := h
        exact hfollows.close (not_not.mp hknown) closedAt (some info)

/-- Opening is stepping from nothing. -/
theorem foldl_openInfo (hnodup : (infos.map Info.id).Nodup)
    (hnew : ∀ info ∈ infos, t.seen.lookup info.id = none) :
    infos.foldl openInfo (t, events) = infos.foldl stepInfo (t, events) := by
  induction infos generalizing t events with
  | nil => rfl
  | cons info infos ih =>
    rw [map_cons, nodup_cons] at hnodup
    rw [foldl_cons, foldl_cons, stepInfo_of_none (hnew info mem_cons_self)]
    refine ih hnodup.2 fun info' hmem => ?_
    have hne : info'.id ≠ info.id := fun heq => hnodup.1 (heq ▸ mem_map_of_mem hmem)
    exact (lookup_insert_ne hne).trans (hnew info' (mem_cons_of_mem _ hmem))

theorem follows_open (mono : Prop) (t : Tracker ID) (snapshot : Snapshot ID) :
    Follows mono (t.open snapshot).1 (t.open snapshot).2 ∧ Shows (t.open snapshot).1 snapshot := by
  have hempty : Follows mono { t with seen := ∅ } ([] ++ []) := fun id => ⟨.gone, rfl, trivial⟩
  have hopen : t.open snapshot =
      (sortedByStart snapshot.infos).foldl stepInfo ({ t with seen := ∅ }, []) :=
    foldl_openInfo snapshot.nodup_sorted fun info _ => lookup_empty info.id
  obtain ⟨hall, hseen, hother⟩ := foldl_stepInfo snapshot.nodup_sorted hempty
    fun _ info _ seen hlookup => absurd (hlookup.symm.trans (lookup_empty info.id)) nofun
  rw [hopen]
  refine ⟨hall, fun info hmem => ?_, fun id hid => ?_⟩
  · exact hseen info ((perm_sortedByStart _).mem_iff.mpr hmem)
  · rw [hother id ?_]
    · exact lookup_empty id
    · rwa [((perm_sortedByStart snapshot.infos).map Info.id).mem_iff]

/-- What the tracker has seen after a change was there before, or was read with it. -/
theorem apply_lookup {change : Change ID} {snapshot : Seen}
    (h : (t.apply change).1.seen.lookup id = some snapshot) : t.seen.lookup id = some snapshot ∨
      ∃ info ∈ (Input.apply change).reads, info.id = id ∧ snapshot.upload = info.upload ∧
        snapshot.download = info.download := by
  obtain ⟨joined, info, closedAt⟩ := change
  unfold apply at h
  cases info with
  | none => exact .inl h
  | some info =>
    dsimp only at h
    cases joined with
    | true =>
      rw [if_pos rfl] at h
      split at h
      · exact .inl h
      · by_cases hid : id = info.id
        · subst hid
          have hself : (t.remember info).1.seen.lookup info.id =
            some ⟨info.upload, info.download, false⟩ := lookup_insert _
          cases hself.symm.trans h
          exact .inr ⟨info, mem_singleton_self _, rfl, rfl, rfl⟩
        · exact .inl ((lookup_insert_ne hid).symm.trans h)
    | false =>
      rw [if_neg Bool.false_ne_true] at h
      split at h
      · exact .inl h
      · by_cases hid : id = info.id
        · subst hid
          exact absurd ((lookup_erase ..).symm.trans h) nofun
        · exact .inl ((lookup_erase_ne hid).symm.trans h)

theorem Shows.lookup (h : Shows t snapshot) {seen : Seen}
    (hlookup : t.seen.lookup id = some seen) : ∃ info ∈ snapshot.infos.reduceOption,
      info.id = id ∧ seen.upload = info.upload ∧ seen.download = info.download := by
  by_cases hid : id ∈ snapshot.infos.reduceOption.map Info.id
  · obtain ⟨info, hmem, rfl⟩ := mem_map.mp hid
    obtain ⟨hadTraffic, hself⟩ := h.1 info hmem
    cases hself.symm.trans hlookup
    exact ⟨info, hmem, rfl, rfl, rfl⟩
  · exact absurd ((h.2 id hid).symm.trans hlookup) nofun

/-- If counters never decrease, what was just read is not below what will be read. -/
theorem notBelow_of_reads {now later : List (Info ID)} (hmono : NeverDecrease (now ++ later))
    (hbefore : ∀ info ∈ now ++ later, NotBelow t info)
    (hlookup : ∀ id seen, t'.seen.lookup id = some seen → t.seen.lookup id = some seen ∨
      ∃ info ∈ now, info.id = id ∧ seen.upload = info.upload ∧ seen.download = info.download) :
    NeverDecrease later ∧ ∀ info ∈ later, NotBelow t' info := by
  obtain ⟨-, hlater, hcross⟩ := pairwise_append.mp hmono
  refine ⟨hlater, fun info hmem seen hseen => ?_⟩
  obtain hold | ⟨info', hmem', hid, hu, hd⟩ := hlookup _ _ hseen
  · exact hbefore info (mem_append_right _ hmem) seen hold
  · rw [hu, hd]
    exact hcross info' hmem' info hmem hid

/-- The snapshot of the last call, if that was an open or a step. -/
def lastSnapshot : Option (Snapshot ID) → List (Input ID) → Option (Snapshot ID)
  | last, [] => last
  | _, .apply _ :: inputs => lastSnapshot none inputs
  | _, .step snapshot _ :: inputs => lastSnapshot (some snapshot) inputs

theorem Follows.runInputs {inputs : List (Input ID)} {last : Option (Snapshot ID)}
    (h : Follows mono t events) (hlast : ∀ snapshot, last = some snapshot → Shows t snapshot)
    (hle : mono → NeverDecrease (inputs.flatMap Input.reads) ∧
      ∀ info ∈ inputs.flatMap Input.reads, NotBelow t info) :
    Follows mono (runInputs inputs (t, events)).1 (runInputs inputs (t, events)).2 ∧
      ∀ snapshot, lastSnapshot last inputs = some snapshot →
        Shows (ConnectionEvents.runInputs inputs (t, events)).1 snapshot := by
  induction inputs generalizing t events last with
  | nil => exact ⟨h, hlast⟩
  | cons input inputs ih =>
    cases input with
    | apply change =>
      refine ih (h.apply change) nofun fun hmono => ?_
      exact notBelow_of_reads (hle hmono).1 (hle hmono).2 fun id seen => apply_lookup
    | step snapshot now =>
      have hstep := h.step (fun hmono info hmem => (hle hmono).2 info (mem_append_left _ hmem)) now
      refine ih hstep.1 (fun snapshot' heq => by cases heq; exact hstep.2) fun hmono => ?_
      refine notBelow_of_reads (hle hmono).1 (hle hmono).2 fun id seen hlookup => .inr ?_
      obtain ⟨info, hmem, hinfo⟩ := hstep.2.lookup hlookup
      exact ⟨info, (perm_sortedByStart _).mem_iff.mpr hmem, hinfo⟩

/-- The infos that a run reads, in order. -/
def reads (first : Snapshot ID) (inputs : List (Input ID)) : List (Info ID) :=
  sortedByStart first.infos ++ inputs.flatMap Input.reads

theorem follows_run (first : Snapshot ID) (inputs : List (Input ID)) :
    Follows (NeverDecrease (reads first inputs)) (run first inputs).1 (run first inputs).2 ∧
      ∀ snapshot, lastSnapshot (some first) inputs = some snapshot →
        Shows (run first inputs).1 snapshot := by
  obtain ⟨hopen, hshows⟩ := follows_open (NeverDecrease (reads first inputs))
    newConnectionEventTracker first
  refine Follows.runInputs hopen (fun snapshot heq => by cases heq; exact hshows) fun hmono => ?_
  refine notBelow_of_reads (t := newConnectionEventTracker) hmono ?_ fun id seen hlookup => .inr ?_
  · exact fun info _ seen hlookup => absurd (hlookup.symm.trans (lookup_empty info.id)) nofun
  · obtain ⟨info, hmem, hinfo⟩ := hshows.lookup hlookup
    exact ⟨info, (perm_sortedByStart _).mem_iff.mpr hmem, hinfo⟩

/-- The events of every connection come in order; after an open or a step those that are live by
the stream are those of its snapshot; and if counters never decrease, the counters of each are those
at its new event and the deltas since. -/
theorem events_in_order (first : Snapshot ID) (inputs : List (Input ID)) :
    (∀ id, (history id (run first inputs).2).isSome) ∧
    ∀ snapshot, lastSnapshot (some first) inputs = some snapshot →
      (∀ id, (∃ upload download, history id (run first inputs).2 = some (.live upload download)) ↔
        id ∈ snapshot.infos.reduceOption.map Info.id) ∧
      (NeverDecrease (reads first inputs) → ∀ info ∈ snapshot.infos.reduceOption,
        history info.id (run first inputs).2 = some (.live info.upload info.download)) := by
  obtain ⟨hfollows, hshows⟩ := follows_run first inputs
  refine ⟨fun id => ?_, fun snapshot hlast => ⟨fun id => ⟨?_, fun hid => ?_⟩,
    fun hmono info hmem => ?_⟩⟩
  · obtain ⟨p, hp, -⟩ := hfollows id
    rw [hp]
    rfl
  · rintro ⟨upload, download, hlive⟩
    obtain ⟨p, hp, hagrees⟩ := hfollows id
    cases hp.symm.trans hlive
    by_contra hid
    rw [(hshows snapshot hlast).2 id hid] at hagrees
    exact hagrees
  · obtain ⟨info, hmem, rfl⟩ := mem_map.mp hid
    obtain ⟨hadTraffic, hlookup⟩ := (hshows snapshot hlast).1 info hmem
    obtain ⟨p, hp, hagrees⟩ := hfollows info.id
    rw [hlookup] at hagrees
    cases p with
    | gone => cases hagrees
    | live upload download => exact ⟨upload, download, hp⟩
  · obtain ⟨hadTraffic, hlookup⟩ := (hshows snapshot hlast).1 info hmem
    obtain ⟨p, hp, hagrees⟩ := hfollows info.id
    rw [hlookup] at hagrees
    cases p with
    | gone => cases hagrees
    | live upload download =>
      obtain ⟨rfl, rfl⟩ := hagrees hmono
      exact hp

/-- A connection is closed, and another joins and has traffic. -/
theorem joined_connection_in_order :
    let first : Snapshot Nat := ⟨[some ⟨7, 0, 5, 1⟩], by decide⟩
    let inputs : List (Input Nat) := [.apply ⟨false, some ⟨7, 0, 6, 1⟩, 1⟩,
      .apply ⟨true, some ⟨8, 1, 0, 0⟩, 0⟩, .step ⟨[some ⟨8, 1, 9, 1⟩], by decide⟩ 2]
    history 8 (run first inputs).2 = some (.live 9 1) := by
  intro first inputs
  exact ((events_in_order first inputs).2 _ rfl).2 (by unfold NeverDecrease; decide) _ mem_cons_self

end Hako.ConnectionEvents
