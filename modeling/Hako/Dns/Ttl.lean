import Mathlib

/-!
# The TTLs of cached DNS answers

An answer is cached until the smallest TTL of its records has passed. A later hit subtracts from the
TTLs of each section what brings the smallest one of the section down to the time that is left.
-/

namespace Hako.Dns

open List

/-- A record: its TTL, and whether it is an OPT record. -/
structure RR where
  ttl : UInt32
  opt : Bool
  deriving DecidableEq

structure Msg where
  rcode : Nat
  answer : List RR
  ns : List RR
  extra : List RR
  deriving DecidableEq

def rcodeServerFailure : Nat := 2

def serverFailureCacheTTL : UInt32 := 5

/-- `lo.MinBy`, by its documentation, over the TTLs, 0 if there is no record. -/
def minimalTTL : List RR → UInt32
  | [] => 0
  | r :: records => records.foldl (fun ttl r => if r.ttl < ttl then r.ttl else ttl) r.ttl

/-- `lo.Clamp`, by its documentation. -/
def clamp (value min max : UInt32) : UInt32 :=
  if value < min then min else if value > max then max else value

def updateTTL (records : List RR) (ttl : UInt32) : List RR :=
  let delta := minimalTTL records - ttl
  records.map fun r => { r with ttl := clamp (r.ttl - delta) 1 r.ttl }

def updateMsgTTL (msg : Msg) (ttl : UInt32) : Msg :=
  { msg with
    answer := updateTTL msg.answer ttl
    ns := updateTTL msg.ns ttl
    extra := updateTTL msg.extra ttl }

def setMsgTTL (msg : Msg) (ttl : UInt32) : Msg :=
  { msg with
    answer := msg.answer.map fun r => { r with ttl }
    ns := msg.ns.map fun r => { r with ttl }
    extra := msg.extra.map fun r => if r.opt then r else { r with ttl } }

/-- What is put into the cache at a time in nanoseconds: the message, and the second in which it
expires. The challenges of ACME are not cached. -/
def putMsgToCache (acmeChallenge : Bool) (msg : Msg) (now : Int) : Option (Msg × Int) :=
  if acmeChallenge then none
  else
    let msg := { msg with extra := msg.extra.filter (!·.opt) }
    let ttl := if msg.rcode = rcodeServerFailure then serverFailureCacheTTL
      else minimalTTL (msg.answer ++ msg.ns ++ msg.extra)
    if ttl = 0 then none else some (msg, (now + ttl.toNat * 10 ^ 9) / 10 ^ 9)

/-- `getMsgFromCache`: the messages in memory with a copy of the cached one, and the place of the
copy. The records of a message are its own. -/
def getMsgFromCache (memory : List Msg) (msg : Nat) : List Msg × Nat :=
  (memory ++ memory[msg]?.toList, memory.length)

/-- A hit, for the place and the expiry of a cached message; `seconds` is the conversion of a
duration to a whole number of seconds through a floating-point number. -/
def cacheHit (seconds : Int → Nat) (memory : List Msg) (cached : Nat × Int) (now : Int) :
    List Msg × Nat :=
  let (memory, msg) := getMsgFromCache memory cached.1
  if cached.2 * 10 ^ 9 < now then (memory.modify msg (setMsgTTL · 1), msg)
  else
    let ttl := UInt32.ofNat (seconds (cached.2 * 10 ^ 9 - now))
    (memory.modify msg (updateMsgTTL · ttl), msg)

/-! ### One section -/

/-- What a section is after `e` seconds: the TTLs are counted down and keep their order. -/
def Aged (e : Nat) (records records' : List RR) : Prop :=
  ∃ f : UInt32 → UInt32, records' = records.map (fun r => { r with ttl := f r.ttl }) ∧
    (∀ r ∈ records, 1 ≤ (f r.ttl).toNat ∧ (f r.ttl).toNat ≤ max 1 (r.ttl.toNat - e)) ∧
    ∀ r ∈ records, ∀ r' ∈ records, r.ttl ≤ r'.ttl → f r.ttl ≤ f r'.ttl

variable {records : List RR}

theorem minimalTTL_spec (h : records ≠ []) :
    (∀ r ∈ records, minimalTTL records ≤ r.ttl) ∧ ∃ r ∈ records, r.ttl = minimalTTL records := by
  have hfold : ∀ (rs : List RR) (ttl : UInt32),
      let least := rs.foldl (fun ttl r => if r.ttl < ttl then r.ttl else ttl) ttl
      least ≤ ttl ∧ (∀ r ∈ rs, least ≤ r.ttl) ∧ (least = ttl ∨ ∃ r ∈ rs, r.ttl = least) := by
    intro rs
    induction rs with
    | nil => simp
    | cons r rs ih =>
      intro ttl
      obtain ⟨hle, hall, hmem⟩ := ih (if r.ttl < ttl then r.ttl else ttl)
      grind
  obtain ⟨r, rs, rfl⟩ := exists_cons_of_ne_nil h
  obtain ⟨hle, hall, hmem⟩ := hfold rs r.ttl
  exact ⟨forall_mem_cons.mpr ⟨hle, hall⟩, by grind [minimalTTL]⟩

theorem aged_updateTTL {least ttl : UInt32} {e : Nat}
    (hleast : ∀ r ∈ records, least ≤ r.ttl) (hpos : 0 < least.toNat)
    (hle : ttl.toNat + e ≤ least.toNat) : Aged e records (updateTTL records ttl) := by
  refine ⟨fun x => clamp (x - (minimalTTL records - ttl)) 1 x, rfl, ?_⟩
  -- no subtraction wraps around: the smallest TTL of the section is at least that of the message
  have hclamp : ∀ r ∈ records, e ≤ (minimalTTL records).toNat - ttl.toNat ∧
      (clamp (r.ttl - (minimalTTL records - ttl)) 1 r.ttl).toNat =
        max 1 (r.ttl.toNat - ((minimalTTL records).toNat - ttl.toNat)) := by
    intro r hr
    obtain ⟨hmin, r₀, hr₀, heq⟩ := minimalTTL_spec (ne_nil_of_mem hr)
    have hle₀ := hleast r₀ hr₀
    have hler := hmin r hr
    rw [heq, UInt32.le_iff_toNat_le] at hle₀
    rw [UInt32.le_iff_toNat_le] at hler
    have hdelta := UInt32.toNat_sub_of_le (minimalTTL records) ttl
      (UInt32.le_iff_toNat_le.mpr (by omega))
    have hsub := UInt32.toNat_sub_of_le r.ttl (minimalTTL records - ttl)
      (UInt32.le_iff_toNat_le.mpr (by omega))
    have hone : (1 : UInt32).toNat = 1 := rfl
    refine ⟨by omega, ?_⟩
    unfold clamp
    split_ifs with hlow hhigh <;> simp only [gt_iff_lt, UInt32.lt_iff_toNat_lt] at * <;> omega
  refine ⟨fun r hr => ?_, fun r hr r' hr' hle' => ?_⟩
  · obtain ⟨he, heq⟩ := hclamp r hr
    dsimp only
    omega
  · rw [UInt32.le_iff_toNat_le] at hle' ⊢
    rw [(hclamp r hr).2, (hclamp r' hr').2]
    omega

theorem aged_setTTL (records : List RR) (e : Nat) :
    Aged e records (records.map fun r => { r with ttl := 1 }) :=
  ⟨fun _ => 1, rfl, fun _ _ => ⟨le_rfl, le_max_left _ _⟩, fun _ _ _ _ _ => UInt32.le_refl _⟩

/-! ### Hits -/

/-- A cached message expires with the smallest of its TTLs, and has no OPT record. -/
theorem putMsgToCache_spec {acmeChallenge : Bool} {msg : Msg} {cached : Msg × Int} {stored : Int}
    (hput : putMsgToCache acmeChallenge msg stored = some cached)
    (hrcode : msg.rcode ≠ rcodeServerFailure) :
    ∃ least : UInt32, 0 < least.toNat ∧ cached.2 = (stored + least.toNat * 10 ^ 9) / 10 ^ 9 ∧
      (∀ section_ ∈ [Msg.answer, Msg.ns, Msg.extra], ∀ r ∈ section_ cached.1, least ≤ r.ttl) ∧
      ∀ r ∈ cached.1.extra, r.opt = false := by
  unfold putMsgToCache at hput
  dsimp only at hput
  rw [if_neg hrcode] at hput
  split_ifs at hput with hacme hzero
  obtain rfl := Option.some.inj hput
  refine ⟨_, ?_, rfl, fun section_ hsection r hr => ?_, by simp⟩
  · exact Nat.pos_of_ne_zero fun h => hzero (UInt32.toNat_inj.mp h)
  · have hmem : r ∈ msg.answer ++ msg.ns ++ msg.extra.filter (!·.opt) := by
      simp only [mem_cons, not_mem_nil, or_false] at hsection
      rcases hsection with rfl | rfl | rfl <;> simp_all
    exact (minimalTTL_spec (ne_nil_of_mem hmem)).1 r hmem

/-- A hit returns a new message, whose TTLs are those of the cached one counted down by the whole
seconds since it was stored. -/
theorem cacheHit_aged {seconds : Int → Nat} (hseconds : ∀ d, 0 ≤ d → seconds d * 10 ^ 9 < d + 10 ^ 9)
    {acmeChallenge : Bool} {msg : Msg} {cached : Msg × Int} {stored now : Int}
    (hput : putMsgToCache acmeChallenge msg stored = some cached)
    (hrcode : msg.rcode ≠ rcodeServerFailure) (hlater : stored ≤ now) {memory : List Msg}
    {place : Nat} (hplace : memory[place]? = some cached.1) :
    ∃ hit, cacheHit seconds memory (place, cached.2) now = (memory ++ [hit], memory.length) ∧
      ∀ section_ ∈ [Msg.answer, Msg.ns, Msg.extra],
        Aged ((now - stored) / 10 ^ 9).toNat (section_ cached.1) (section_ hit) := by
  obtain ⟨least, hpos, hexpires, hleast, hopt⟩ := putMsgToCache_spec hput hrcode
  have hlt := least.toNat_lt
  have hmodify : ∀ f, (memory ++ [cached.1]).modify memory.length f = memory ++ [f cached.1] := by
    simp [modify_eq_set_getElem?]
  simp only [cacheHit, getMsgFromCache, hplace, Option.toList_some, hmodify]
  split_ifs with hexpired
  · refine ⟨_, rfl, ?_⟩
    have hextra : cached.1.extra.map (fun r => if r.opt then r else { r with ttl := 1 }) =
        cached.1.extra.map fun r => { r with ttl := 1 } :=
      map_congr_left fun r hr => by simp [hopt r hr]
    simp only [forall_mem_cons, setMsgTTL, hextra]
    exact ⟨aged_setTTL _ _, aged_setTTL _ _, aged_setTTL _ _, by simp⟩
  · refine ⟨_, rfl, ?_⟩
    have hleft := hseconds (cached.2 * 10 ^ 9 - now) (by omega)
    generalize seconds (cached.2 * 10 ^ 9 - now) = left at hleft
    have htoNat : (UInt32.ofNat left).toNat = left := by
      rw [UInt32.toNat_ofNat_of_lt']
      simp only [UInt32.size]
      omega
    have hle : (UInt32.ofNat left).toNat + ((now - stored) / 10 ^ 9).toNat ≤ least.toNat := by
      rw [htoNat]
      omega
    simp only [forall_mem_cons] at hleast ⊢
    obtain ⟨hanswer, hns, hextra, -⟩ := hleast
    exact ⟨aged_updateTTL hanswer hpos hle, aged_updateTTL hns hpos hle,
      aged_updateTTL hextra hpos hle, by simp⟩

/-- Records with the TTLs 60 and 100, hit after twenty seconds. -/
theorem cacheHit_aged_twenty :
    let msg : Msg := ⟨0, [⟨60, false⟩, ⟨100, false⟩], [], []⟩
    putMsgToCache false msg 0 = some (msg, 60) ∧
      ∃ hit, cacheHit (fun d => (d / 10 ^ 9).toNat) [msg] (0, 60) (20 * 10 ^ 9) = ([msg, hit], 1) ∧
        ∀ section_ ∈ [Msg.answer, Msg.ns, Msg.extra], Aged 20 (section_ msg) (section_ hit) := by
  intro msg
  have hput : putMsgToCache false msg 0 = some (msg, 60) := by decide
  exact ⟨hput, cacheHit_aged (fun d hd => by omega) hput (by decide) (by decide) rfl⟩

end Hako.Dns
