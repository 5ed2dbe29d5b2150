import Hako.GoLib.Strings
import Hako.Lib.Except

/-!
# Putting fragments together

The defragger of Hysteria keeps the fragments of one message, the one whose id came last. It takes
the number of fragments from the first one, and believes later ones without a look.
-/

namespace Hako.Hysteria

open GoLib List Option

structure UdpMessage where
  sessionID : UInt32
  host : GoString
  port : UInt16
  msgID : UInt16
  fragID : UInt8
  fragCount : UInt8
  data : List UInt8

structure Defragger where
  msgID : UInt16
  frags : List (Option UdpMessage)
  count : UInt8

/-- The zero value. -/
def newDefragger : Defragger := ⟨0, [], 0⟩

/-- `Feed`; there is no value if it panics. -/
def Defragger.feed (d : Defragger) (m : UdpMessage) : Option (Defragger × Option UdpMessage) :=
  if m.fragCount ≤ 1 then some (d, some m)
  else if m.fragCount ≤ m.fragID then some (d, none)
  else if m.msgID ≠ d.msgID then
    some (⟨m.msgID, (List.replicate m.fragCount.toNat none).set m.fragID.toNat (some m), 1⟩, none)
  else
    match d.frags[m.fragID.toNat]? with
    -- the index is out of range
    | none => none
    | some (some _) => some (d, none)
    | some none =>
      let d := { d with frags := d.frags.set m.fragID.toNat (some m), count := d.count + 1 }
      if d.count.toNat = d.frags.length then
        -- a fragment that is missing is dereferenced
        (d.frags.mapM id).map fun frags =>
          (d, some { m with data := frags.flatMap (·.data), fragID := 0, fragCount := 1 })
      else some (d, none)

/-- Messages are fed without a panic, and what is put together belongs together. -/
def SafeRun (d : Defragger) : List UdpMessage → Prop
  | [] => True
  | m :: ms => ∃ d' r, d.feed m = some (d', r) ∧
      (1 < m.fragCount → r.isSome → ∀ frag ∈ d'.frags, ∃ f, frag = some f ∧
        f.msgID = m.msgID ∧ f.fragCount = m.fragCount) ∧ SafeRun d' ms

/-- A fragment with the id of the one before announces the same number of fragments. Before the
first one the id is zero, and no fragment may have it. -/
def Steady (last : Option UdpMessage) : List UdpMessage → Prop
  | [] => True
  | m :: ms =>
    if m.fragCount ≤ 1 ∨ m.fragCount ≤ m.fragID then Steady last ms
    else (m.msgID = (last.elim 0 (·.msgID)) → ∃ l, last = some l ∧ m.fragCount = l.fragCount) ∧
      Steady (some m) ms

/-- The state after a fragment. -/
structure Keeps (d : Defragger) (last : UdpMessage) : Prop where
  msgID : d.msgID = last.msgID
  length : d.frags.length = last.fragCount.toNat
  agree : ∀ f, some f ∈ d.frags → f.msgID = last.msgID ∧ f.fragCount = last.fragCount
  count : d.count.toNat = d.frags.countP Option.isSome

def Inv (d : Defragger) : Option UdpMessage → Prop
  | none => d = newDefragger
  | some last => Keeps d last

section Keeps

variable {d : Defragger} {m last : UdpMessage}

/-- The first fragment of another message. -/
theorem keeps_new (hid : m.fragID < m.fragCount) :
    Keeps ⟨m.msgID, (List.replicate m.fragCount.toNat none).set m.fragID.toNat (some m), 1⟩ m := by
  have hlt := UInt8.lt_iff_toNat_lt.mp hid
  refine ⟨rfl, by simp, ?_, ?_⟩
  · intro f hf
    obtain hf | hf := mem_or_eq_of_mem_set hf
    · simp at hf
    · obtain rfl := some.inj hf
      exact ⟨rfl, rfl⟩
  · rw [countP_set (by simpa using hlt)]
    simp

/-- Another fragment of the same message. -/
theorem Keeps.add (h : Keeps d last) (hmsg : m.msgID = d.msgID)
    (hcount : m.fragCount = last.fragCount) (hslot : d.frags[m.fragID.toNat]? = some none) :
    Keeps { d with frags := d.frags.set m.fragID.toNat (some m), count := d.count + 1 } m := by
  obtain ⟨hlt, hnone⟩ := List.getElem?_eq_some_iff.mp hslot
  have hmore : (d.frags.set m.fragID.toNat (some m)).countP isSome =
      d.frags.countP isSome + 1 := by
    rw [countP_set hlt, hnone]
    simp
  have hle := countP_le_length (p := isSome) (l := d.frags.set m.fragID.toNat (some m))
  have hbound := last.fragCount.toNat_lt
  rw [length_set, hmore, h.length] at hle
  refine ⟨hmsg.symm, ?_, ?_, ?_⟩
  · rw [length_set, h.length, hcount]
  · intro f hf
    obtain hf | hf := mem_or_eq_of_mem_set hf
    · rw [hcount, hmsg, h.msgID]
      exact h.agree f hf
    · obtain rfl := some.inj hf
      exact ⟨rfl, rfl⟩
  · rw [hmore, UInt8.toNat_add, h.count, UInt8.toNat_one]
    omega

end Keeps

/-- If there are as many fragments as there are slots, none is missing. -/
theorem exists_mapM_of_full {frags : List (Option UdpMessage)}
    (h : frags.countP Option.isSome = frags.length) : ∃ fs, frags.mapM id = some fs :=
  Lib.exists_mapM fun frag hfrag => isSome_iff_exists.mp (countP_eq_length.mp h frag hfrag)

/-- A fragment that agrees with the one before. -/
theorem Keeps.feed {d : Defragger} {m last : UdpMessage} (h : Keeps d last)
    (hone : ¬ m.fragCount ≤ 1) (hid : ¬ m.fragCount ≤ m.fragID) (hmsg : m.msgID = d.msgID)
    (hcount : m.fragCount = last.fragCount) :
    ∃ d' r, d.feed m = some (d', r) ∧ Keeps d' m ∧
      (r.isSome → ∀ frag ∈ d'.frags, ∃ f, frag = some f ∧
        f.msgID = m.msgID ∧ f.fragCount = m.fragCount) := by
  have hlt : m.fragID.toNat < d.frags.length := by
    rw [h.length, ← hcount]
    exact UInt8.lt_iff_toNat_lt.mp (UInt8.not_le.mp hid)
  have hslot := getElem?_eq_getElem hlt
  rw [Defragger.feed, if_neg hone, if_neg hid, if_neg (not_not.mpr hmsg)]
  cases hfrag : d.frags[m.fragID.toNat] with
  | some f =>
    rw [hfrag] at hslot
    rw [hslot]
    refine ⟨d, none, rfl, ⟨hmsg.symm, hcount ▸ h.length, ?_, h.count⟩, nofun⟩
    rw [hcount, hmsg, h.msgID]
    exact h.agree
  | none =>
    rw [hfrag] at hslot
    have hadd := h.add hmsg hcount hslot
    rw [hslot]
    dsimp only
    split_ifs with hfull
    · obtain ⟨fs, hfs⟩ := exists_mapM_of_full (hadd.count.symm.trans hfull)
      rw [hfs]
      refine ⟨_, _, rfl, hadd, fun _ frag hmem => ?_⟩
      have hsome := countP_eq_length.mp (hadd.count.symm.trans hfull) frag hmem
      obtain ⟨f, rfl⟩ := isSome_iff_exists.mp hsome
      exact ⟨f, rfl, hadd.agree f hmem⟩
    · exact ⟨_, none, rfl, hadd, nofun⟩

/-- Every sequence of messages is safe in which the fragments of a message agree on their number. -/
theorem safeRun_of_steady (messages : List UdpMessage) (hsteady : Steady none messages) :
    SafeRun newDefragger messages := by
  suffices h : ∀ d last, Inv d last → Steady last messages → SafeRun d messages from
    h _ none rfl hsteady
  clear hsteady
  induction messages with
  | nil => exact fun _ _ _ _ => trivial
  | cons m ms ih =>
    intro d last hinv hsteady
    rw [Steady] at hsteady
    by_cases hone : m.fragCount ≤ 1
    · rw [if_pos (.inl hone)] at hsteady
      refine ⟨d, some m, if_pos hone, ?_, ih d last hinv hsteady⟩
      exact fun hmore => absurd hone (UInt8.not_le.mpr hmore)
    by_cases hid : m.fragCount ≤ m.fragID
    · rw [if_pos (.inr hid)] at hsteady
      exact ⟨d, none, by rw [Defragger.feed, if_neg hone, if_pos hid], nofun,
        ih d last hinv hsteady⟩
    rw [if_neg (not_or.mpr ⟨hone, hid⟩)] at hsteady
    obtain ⟨hagree, hrest⟩ := hsteady
    by_cases hmsg : m.msgID = d.msgID
    · cases last with
      | none =>
        -- it would be taken for a fragment of a message that has no slots
        obtain rfl : d = newDefragger := hinv
        obtain ⟨_, hlast, -⟩ := hagree hmsg
        cases hlast
      | some last =>
        obtain ⟨_, ⟨⟩, hcount⟩ := hagree (hmsg.trans hinv.msgID)
        obtain ⟨d', r, hfeed, hkeeps, hbelong⟩ := hinv.feed hone hid hmsg hcount
        exact ⟨d', r, hfeed, fun _ => hbelong, ih d' (some m) hkeeps hrest⟩
    · -- a fragment of another message, which gets the slots it announces
      refine ⟨_, none, by rw [Defragger.feed, if_neg hone, if_neg hid, if_pos hmsg], nofun, ?_⟩
      exact ih _ (some m) (keeps_new (UInt8.not_le.mp hid)) hrest

theorem twoFragments_safe : SafeRun newDefragger
    [⟨1, [], 53, 7, 0, 2, [1]⟩, ⟨1, [], 53, 7, 1, 2, [2]⟩] :=
  safeRun_of_steady _ ⟨nofun, fun _ => ⟨_, rfl, rfl⟩, trivial⟩

/-- A fragment with the id zero, and one that announces more fragments than the one before. -/
theorem trusted_count_panics :
    ¬ SafeRun newDefragger [⟨1, [], 53, 0, 0, 2, [1]⟩] ∧
      ¬ SafeRun newDefragger [⟨1, [], 53, 7, 0, 2, [1]⟩, ⟨1, [], 53, 7, 4, 5, [2]⟩] := by
  constructor
  · rintro ⟨d, r, hfeed, -⟩
    cases hfeed
  · rintro ⟨d, r, ⟨⟩, -, d', r', hfeed, -⟩
    cases hfeed

end Hako.Hysteria
