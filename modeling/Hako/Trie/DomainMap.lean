import Hako.Lib.Except
import Hako.Trie.HasSearch

/-!
# The succinct domain map

`DomainMap` is a domain set with a value for every leaf, in the order of the leaves. `match`
follows the labels of a query through the tree with the priorities of the trie: the label
itself, then `*`, then the suffix wildcard. Where the children of a node begin is read from a
table of one byte per node, with the distance from the nearest sampled one of the bitmap, or
from the bitmap when the distance does not fit.

A result `none` stands for an index out of range.
-/

namespace Hako.Trie

open GoLib Lib List Option Nat QElt

/-- `domainMapSelectOverflow` -/
def domainMapSelectOverflow : UInt8 := 255

/-- `domainMapIndex` -/
structure DomainMapIndex where
  set : DomainSet
  selectDeltas : List UInt8

structure DomainMap (T : Type*) where
  index : DomainMapIndex
  values : List T

/-! ### The beginnings of nodes -/

/-- `selects[ordinal>>5]`: every 32nd one is sampled. -/
def sampledOne (ss : DomainSet) (ordinal : Nat) : Option Nat :=
  selectIthOne ss.labelBitmap (32 * (ordinal / 32))

/-- The distance from a sampled one, or that it does not fit. -/
def deltaByte (position sampled : Nat) : UInt8 :=
  let delta : Int := position - sampled
  if delta < 0 ∨ domainMapSelectOverflow.toNat ≤ delta then domainMapSelectOverflow
  else UInt8.ofNat delta.toNat

/-- The entry of the table for a node. -/
def selectDelta (ss : DomainSet) (ordinal : Nat) : Option UInt8 :=
  (selectIthOne ss.labelBitmap ordinal).bind fun position =>
    (sampledOne ss ordinal).map fun sampled => deltaByte position sampled

/-- `initSelectDeltas` -/
def initSelectDeltas (ss : DomainSet) : Option (List UInt8) :=
  (List.range ss.labels.length).mapM (selectDelta ss)

namespace DomainMapIndex

variable (index : DomainMapIndex)

def uncachedChildStart (ordinal : Nat) : Option Nat :=
  (selectIthOne index.set.labelBitmap ordinal).map (· + 1)

def childStart (ordinal : Nat) (delta : UInt8) : Option Nat :=
  if delta = domainMapSelectOverflow then index.uncachedChildStart ordinal
  else (sampledOne index.set ordinal).map (· + delta.toNat + 1)

/-- Where the children of a node that is not the root begin. -/
def nodeStart (nodeID : Nat) : Option Nat :=
  index.selectDeltas[nodeID - 1]?.bind fun delta => index.childStart (nodeID - 1) delta

/-! ### `match` -/

/-- The loop that passes the labels below `label`. It leaves the bitmap at the latest when
`fuel` is used up. -/
def seek (nodeID : Nat) (label : UInt8) : Nat → Nat → Option Nat
  | 0, _ => none
  | fuel + 1, bitmapIndex =>
    match getBit index.set.labelBitmap bitmapIndex with
    | none => none
    | some true => some bitmapIndex
    | some false =>
      match index.set.label bitmapIndex nodeID with
      | none => none
      | some l => if l < label then seek nodeID label fuel (bitmapIndex + 1) else some bitmapIndex

/-- A bound on the places of the bitmap. -/
def places : Nat := 64 * index.set.labelBitmap.length

/-- The child behind the edge `label`, if the node has it. -/
def findEdge (nodeID bitmapIndex : Nat) (label : UInt8) : Option (Option Nat) :=
  match index.seek nodeID label (index.places + 1) bitmapIndex with
  | none => none
  | some bitmapIndex =>
    match getBit index.set.labelBitmap bitmapIndex with
    | none => none
    | some true => some none
    | some false =>
      match index.set.label bitmapIndex nodeID with
      | none => none
      | some l => if l ≠ label then some none else some (some (bitmapIndex - nodeID + 1))

/-- The loop that follows the bytes of a label, read back to front. -/
def staticWalk : Nat → Nat → GoString → Option (Option Nat)
  | staticNode, _, [] => some (some staticNode)
  | staticNode, staticIndex, label :: labels =>
    match index.findEdge staticNode staticIndex label with
    | none => none
    | some none => some none
    | some (some child) =>
      if label = complexWildcardByte then some none
      else if labels = [] then some (some child)
      else
        match index.nodeStart child with
        | none => none
        | some start => staticWalk child start labels

/-- What `match` finds behind the label itself; `below` is what it finds from a node on. -/
def staticMatch (below : Nat → Option (Option Nat)) (nodeID bitmapIndex : Nat)
    (labels : GoString) : Option (Option Nat) :=
  match index.staticWalk nodeID bitmapIndex labels with
  | none => none
  | some none => some none
  | some (some staticNode) => below staticNode

/-- The loop over the wildcards of a node. -/
def wildcardLoop (part : GoString) (below : Nat → Option (Option Nat)) (nodeID : Nat) :
    Nat → Nat → Option (Option Nat)
  | 0, _ => none
  | fuel + 1, bitmapIndex =>
    match getBit index.set.labelBitmap bitmapIndex with
    | none => none
    | some true => some none
    | some false =>
      match index.set.label bitmapIndex nodeID with
      | none => none
      | some l =>
        let childID := bitmapIndex - nodeID + 1
        if l = complexWildcardByte then some (some childID)
        else
          match if l = wildcardByte ∧ part ≠ wildcard then below childID else some none with
          | none => none
          | some (some terminal) => some (some terminal)
          | some none =>
            if complexWildcardByte < l then some none
            else wildcardLoop part below nodeID fuel (bitmapIndex + 1)

/-- A part as it is read: rune by rune in lower case if it is not ASCII. -/
def readPart (part : GoString) : GoString :=
  if part.any (runeSelf ≤ ·.toNat) then (toLower (reverse part)).reverse else part

/-- `domain[separator+1:]` -/
def lastPart (domain : GoString) : GoString :=
  (domain.reverse.takeWhile (· ≠ domainStepByte)).reverse

/-- `domain[:separator]`, empty if there is no separator. -/
def remaining (domain : GoString) : GoString :=
  ((domain.reverse.dropWhile (· ≠ domainStepByte)).drop 1).reverse

/-- The node where the labels of a name begin: behind the edge `.`, except at the root. -/
def enterLabel (nodeID : Nat) : Option (Option (Nat × Nat)) :=
  if nodeID = 0 then some (some (0, 0))
  else
    match index.nodeStart nodeID with
    | none => none
    | some start =>
      match index.findEdge nodeID start domainStepByte with
      | none => none
      | some none => some none
      | some (some child) => (index.nodeStart child).map fun start => some (child, start)

/-- `match`, with the number of labels bounded. The inner result is none for -1. -/
def matchNode : Nat → Nat → GoString → Option (Option Nat)
  | 0, _, _ => none
  | fuel + 1, nodeID, domain =>
    if domain = [] then
      match getBit index.set.leaves nodeID with
      | none => none
      | some true => some (some nodeID)
      | some false => some none
    else
      match index.enterLabel nodeID with
      | none => none
      | some none => some none
      | some (some (nodeID, bitmapIndex)) =>
        let part := readPart (lastPart domain)
        match index.staticMatch (fun staticNode => matchNode fuel staticNode (remaining domain))
            nodeID bitmapIndex (part.reverse.map lowerByte) with
        | none => none
        | some (some terminal) => some (some terminal)
        | some none =>
          index.wildcardLoop part (fun childID => matchNode fuel childID (remaining domain))
            nodeID (index.places + 1) bitmapIndex

end DomainMapIndex

/-! ### Building and looking up -/

structure DomainMapBuilder (T : Type*) where
  set : DomainSetBuilder
  valueKeys : List (GoString × T)

namespace DomainMapBuilder

variable {T : Type*}

def insert (builder : DomainMapBuilder T) (domain : GoString) (value : T) :
    Except InvalidDomain (DomainMapBuilder T) :=
  match builder.set.insert domain with
  | .error e => .error e
  | .ok set =>
    .ok ⟨set, (set.keys.drop builder.set.keys.length).foldl
      (fun valueKeys key => mapSet key value valueKeys) builder.valueKeys⟩

/-- `Build`; the inner result is none for nil. A key without a value would get the zero value. -/
def build [Inhabited T] (builder : DomainMapBuilder T) : Option (Option (DomainMap T)) :=
  if builder.set.keys = [] then some none
  else
    match buildDomainSet builder.set.keys with
    | none => none
    | some (none, _) => some none
    | some (some set, terminals) =>
      match initSelectDeltas set with
      | none => none
      | some selectDeltas =>
        some (some ⟨⟨set, selectDeltas⟩,
          terminals.map fun key => (mapGet key builder.valueKeys).getD default⟩)

/-- One call of `Insert`; a rejected pattern leaves the builder as it was. -/
def insertOrSkip (builder : DomainMapBuilder T) (e : GoString × T) : DomainMapBuilder T :=
  match builder.insert e.1 e.2 with
  | .ok builder' => builder'
  | .error _ => builder

/-- The builder after a sequence of calls of `Insert`. -/
def insertAll (entries : List (GoString × T)) : DomainMapBuilder T :=
  entries.foldl insertOrSkip ⟨⟨[]⟩, []⟩

end DomainMapBuilder

/-- `Lookup` in a map that may be nil; the inner result is none for false. -/
def DomainMap.lookup {T : Type*} (mapping : Option (DomainMap T)) (domain : GoString) :
    Option (Option T) :=
  match mapping with
  | none => some none
  | some mapping =>
    if mapping.values = [] then some none
    else
      match mapping.index.matchNode (domain.length + 1) 0 domain with
      | none => none
      | some none => some none
      | some (some nodeID) =>
        if nodeID / 64 < mapping.index.set.leaves.length then
          mapping.values[rank (bitsOf mapping.index.set.leaves) nodeID]?.map some
        else none

/-! ### The index of a built set -/

/-- The index of an encoded tree. -/
structure Indexed (index : DomainMapIndex) (nodes : List QElt) : Prop where
  encodes : Encodes index.set nodes
  deltas : initSelectDeltas index.set = some index.selectDeltas

namespace Encodes

variable {ss : DomainSet} {nodes : List QElt} {id : Nat} {n : QElt}

/-- A one follows the bytes of a node. -/
theorem one_at (e : Encodes ss nodes) (h : nodes[id]? = some n) :
    getBit ss.labelBitmap (loudsStart edges nodes id + n.bytes.length) = some true :=
  e.levelForm.one_at h

theorem bytes_length_lt (e : Encodes ss nodes) (h : nodes[id]? = some n) :
    n.bytes.length < 64 * ss.labelBitmap.length := by
  have hone := e.one_at h
  rw [getBit_eq] at hone
  have hlt := (List.getElem?_eq_some_iff.mp hone).1
  rw [length_bitsOf] at hlt
  omega

end Encodes

theorem getElem?_of_mapM {α β : Type} {f : α → Option β} {l : List α} {l' : List β}
    (h : l.mapM f = some l') {i : Nat} {a : α} (ha : l[i]? = some a) : l'[i]? = f a := by
  have hmap := congrArg (·[i]?) (map_eq_of_mapM h)
  simp only [getElem?_map, ha, map_some] at hmap
  obtain ⟨b, hb, hfa⟩ := map_eq_some_iff.mp hmap.symm
  rw [hb, hfa]

/-- In a sorted list a byte stands behind those below it. -/
theorem mem_iff_getElem?_takeWhile {l : List UInt8} (h : l.Pairwise (· < ·)) (c : UInt8) :
    c ∈ l ↔ l[(l.takeWhile (· < c)).length]? = some c := by
  induction h with
  | nil => simp
  | @cons a l ha _ ih =>
    rw [takeWhile_cons, mem_cons]
    by_cases hac : a < c
    · have hne : c ≠ a := fun heq => Std.lt_irrefl (heq ▸ hac)
      simp [hac, hne, ih]
    · have hnot : c ∉ l := fun hmem => hac (ha c hmem)
      simp [hac, hnot, eq_comm]

theorem deltaByte_eq {position sampled : Nat}
    (h : deltaByte position sampled ≠ domainMapSelectOverflow) :
    sampled + (deltaByte position sampled).toNat = position := by
  have hmax : domainMapSelectOverflow.toNat = 255 := rfl
  unfold deltaByte at h ⊢
  dsimp only at h ⊢
  split at h
  · exact absurd rfl h
  · rename_i hnear
    rw [if_neg hnear, UInt8.toNat_ofNat_of_lt' (by rw [UInt8.size]; omega)]
    omega

namespace Indexed

variable {index : DomainMapIndex} {nodes : List QElt} {id : Nat} {n : QElt}
  (h : Indexed index nodes)
include h

theorem sampledOne_eq (hn : nodes[id]? = some n) :
    ∃ p, sampledOne index.set id = some p := by
  have hlt := (List.getElem?_eq_some_iff.mp hn).1
  have hle : 32 * (id / 32) < nodes.length := lt_of_le_of_lt (mul_div_le id 32) hlt
  exact ⟨_, h.encodes.levelForm.select_eq (getElem?_eq_getElem hle)⟩

/-- The table gives the beginning of every node. -/
theorem nodeStart_eq (hn : nodes[id]? = some n) (hid : id ≠ 0) :
    index.nodeStart id = some (loudsStart edges nodes id) := by
  obtain ⟨k, rfl⟩ := Nat.exists_eq_succ_of_ne_zero hid
  obtain ⟨m, hm⟩ : ∃ m, nodes[k]? = some m :=
    ⟨_, getElem?_eq_getElem (Nat.lt_of_succ_lt (List.getElem?_eq_some_iff.mp hn).1)⟩
  obtain ⟨sampled, hsampled⟩ := h.sampledOne_eq hm
  have hselect := h.encodes.levelForm.select_eq hm
  have hpos : 0 < loudsStart edges nodes (k + 1) := by
    rw [loudsStart_succ hm]
    omega
  have hdelta : index.selectDeltas[k]? = selectDelta index.set k := by
    obtain ⟨root, horder⟩ := h.encodes.order
    have hlen : k < index.set.labels.length := by
      have hlt := (List.getElem?_eq_some_iff.mp hn).1
      have hlength := horder.length_eq
      rw [h.encodes.labels]
      omega
    exact getElem?_of_mapM h.deltas (getElem?_range hlen)
  rw [DomainMapIndex.nodeStart, Nat.succ_eq_add_one, Nat.add_sub_cancel, hdelta, selectDelta,
    hselect, hsampled]
  simp only [bind_some, map_some, DomainMapIndex.childStart]
  split
  · rw [DomainMapIndex.uncachedChildStart, hselect, map_some, Nat.sub_add_cancel hpos]
  · rename_i hdelta
    rw [hsampled, map_some, deltaByte_eq hdelta, Nat.sub_add_cancel hpos]

omit h in
theorem exists_deltas {ss : DomainSet} (e : Encodes ss nodes) :
    ∃ deltas, initSelectDeltas ss = some deltas := by
  apply exists_mapM
  intro ordinal hordinal
  obtain ⟨root, horder⟩ := e.order
  have hlt : ordinal < nodes.length := by
    have hlength := horder.length_eq
    rw [mem_range, e.labels] at hordinal
    omega
  have hle : 32 * (ordinal / 32) < nodes.length := lt_of_le_of_lt (mul_div_le ordinal 32) hlt
  rw [selectDelta, sampledOne, e.levelForm.select_eq (getElem?_eq_getElem hlt),
    e.levelForm.select_eq (getElem?_eq_getElem hle)]
  exact ⟨_, rfl⟩

/-- The loop stops at the first label that is not below the one it looks for. -/
theorem seek_eq (hn : nodes[id]? = some n) (c : UInt8) {t : Nat}
    (ht : t ≤ n.bytes.length) {fuel : Nat} (hfuel : n.bytes.length - t < fuel) :
    index.seek id c fuel (loudsStart edges nodes id + t) =
      some (loudsStart edges nodes id + t + ((n.bytes.drop t).takeWhile (· < c)).length) := by
  induction fuel generalizing t with
  | zero => exact absurd hfuel (not_lt_zero _)
  | succ fuel ih =>
    rcases lt_or_eq_of_le ht with hlt | heq
    · have hlabel := h.encodes.levelForm.label_at hn (getElem?_eq_getElem hlt)
      rw [DomainMapIndex.seek, h.encodes.levelForm.zero_at hn hlt]
      simp only [hlabel]
      rw [drop_eq_getElem_cons hlt, takeWhile_cons]
      by_cases hc : n.bytes[t] < c
      · have hnext := ih (t := t + 1) hlt (by omega)
        rw [add_assoc, if_pos hc, hnext]
        simp [hc, add_assoc, add_comm, add_left_comm]
      · simp [hc]
    · rw [heq, DomainMapIndex.seek, h.encodes.one_at hn]
      simp

/-- The child behind an edge is found exactly if there is one. -/
theorem findEdge_eq (hn : nodes[id]? = some n) (c : UInt8) :
    ∃ r, index.findEdge id (loudsStart edges nodes id) c = some r ∧ (r = none → c ∉ n.bytes) ∧
      ∀ child, r = some child → c ∈ n.bytes ∧ nodes[child]? = some (n.child c) ∧ child ≠ 0 := by
  have hplaces : n.bytes.length - 0 < index.places + 1 :=
    lt_succ_of_lt (h.encodes.bytes_length_lt hn)
  have hseek := h.seek_eq hn c (zero_le _) hplaces
  simp only [add_zero, List.drop_zero] at hseek
  have hmem := mem_iff_getElem?_takeWhile
    (pairwise_bytes (h.encodes.sorted n (List.mem_of_getElem? hn))) c
  have hle := (List.takeWhile_sublist (· < c) (l := n.bytes)).length_le
  generalize (n.bytes.takeWhile (· < c)).length = k at hseek hmem hle
  rw [DomainMapIndex.findEdge, hseek]
  rcases lt_or_eq_of_le hle with hlt | heq
  · have hlabel := h.encodes.levelForm.label_at hn (List.getElem?_eq_getElem hlt)
    simp only [h.encodes.levelForm.zero_at hn hlt, hlabel]
    rw [List.getElem?_eq_getElem hlt, Option.some.injEq] at hmem
    by_cases hc : n.bytes[k] = c
    · have hchild := h.encodes.child_eq hn (List.getElem?_eq_getElem hlt)
      have hstart := LevelForm.le_loudsStart edges hn
      refine ⟨_, if_neg (not_not.mpr hc), nofun, fun child hsome => ?_⟩
      cases hsome
      refine ⟨hmem.mpr hc, ?_, succ_ne_zero _⟩
      rw [hc] at hchild
      rw [← hchild]
      congr 1
      omega
    · exact ⟨_, if_pos hc, fun _ => mt hmem.mp hc, nofun⟩
  · subst heq
    simp only [h.encodes.one_at hn]
    refine ⟨_, rfl, fun _ => ?_, nofun⟩
    rw [hmem]
    simp

/-- The node that the bytes of a string lead to. -/
def descend (n : QElt) (w : GoString) : QElt := w.foldl child n

omit h in
theorem mem_descend {w : GoString} {rest : GoString} :
    rest ∈ (descend n w).rests ↔ w ++ rest ∈ n.rests := by
  induction w generalizing n with
  | nil => rfl
  | cons c w ih =>
    rw [descend, foldl_cons, ← descend, ih, child, mem_tails]
    rfl

omit h in
theorem path_descend (n : QElt) (w : GoString) : (descend n w).path = n.path ++ w := by
  induction w generalizing n with
  | nil => simp [descend]
  | cons c w ih =>
    rw [descend, foldl_cons, ← descend, ih, child]
    simp

/-- The bytes of a label are followed exactly as far as the tree has them; `+` is no label. -/
theorem staticWalk_eq (hn : nodes[id]? = some n) (w : GoString) (hid : w = [] → id ≠ 0) :
    ∃ r, index.staticWalk id (loudsStart edges nodes id) w = some r ∧
      (r = none → complexWildcardByte ∈ w ∨ ∀ rest, w ++ rest ∉ n.rests) ∧ ∀ node, r = some node →
        complexWildcardByte ∉ w ∧ nodes[node]? = some (descend n w) ∧ node ≠ 0 := by
  induction w generalizing id n with
  | nil =>
    refine ⟨some id, rfl, nofun, fun node hsome => ?_⟩
    cases hsome
    exact ⟨not_mem_nil, hn, hid rfl⟩
  | cons c w ih =>
    obtain ⟨r, hr, hnone, hsome⟩ := h.findEdge_eq hn c
    have hbytes := mem_bytes (h.encodes.sorted n (mem_of_getElem? hn)) (c := c)
    rw [DomainMapIndex.staticWalk, hr]
    cases r with
    | none =>
      refine ⟨none, rfl, fun _ => .inr fun rest hrest => ?_, nofun⟩
      exact hnone rfl (hbytes.mpr ⟨_, hrest⟩)
    | some child =>
      obtain ⟨hc, hchild, hne⟩ := hsome child rfl
      dsimp only
      by_cases hplus : c = complexWildcardByte
      · rw [if_pos hplus]
        exact ⟨none, rfl, fun _ => .inl (by simp [hplus]), nofun⟩
      · rw [if_neg hplus]
        obtain ⟨r, hr, hnone, hsome⟩ := ih hchild fun _ => hne
        have hresult : (if w = [] then some (some child)
            else
              match index.nodeStart child with
              | none => none
              | some start => index.staticWalk child start w) = some r := by
          split
          · rename_i hw
            rw [hw] at hr
            exact hr
          · rw [h.nodeStart_eq hchild hne]
            exact hr
        refine ⟨r, hresult, fun hr => ?_, fun node hr => ?_⟩
        · refine (hnone hr).imp (mem_cons_of_mem _) fun hno rest hrest => ?_
          exact hno rest (mem_tails.mpr hrest)
        · obtain ⟨hno, hnode, hzero⟩ := hsome node hr
          refine ⟨?_, hnode, hzero⟩
          rw [mem_cons, not_or]
          exact ⟨Ne.symm hplus, hno⟩

/-- The loop over the wildcards: what is found behind `*`, or else the suffix wildcard. -/
theorem wildcardLoop_eq (hn : nodes[id]? = some n) {part : GoString}
    {below : Nat → Option (Option Nat)} {Found : Option Nat → Prop}
    (hstar : ∀ child, nodes[child]? = some (n.child wildcardByte) → child ≠ 0 →
      ∃ star, below child = some star ∧ Found star)
    {t : Nat} (ht : t ≤ n.bytes.length) {fuel : Nat} (hfuel : n.bytes.length - t < fuel) :
    ∃ r, index.wildcardLoop part below id fuel (loudsStart edges nodes id + t) = some r ∧
      ((r ≠ none ∧ Found r) ∨ ((wildcardByte ∈ n.bytes.drop t → part = wildcard ∨ Found none) ∧
          ((complexWildcardByte ∈ n.bytes.drop t ∧ ∃ child, r = some child ∧
              nodes[child]? = some (n.child complexWildcardByte)) ∨
            (complexWildcardByte ∉ n.bytes.drop t ∧ r = none)))) := by
  have hsorted := pairwise_bytes (h.encodes.sorted n (mem_of_getElem? hn))
  induction fuel generalizing t with
  | zero => exact absurd hfuel (not_lt_zero _)
  | succ fuel ih =>
    rcases lt_or_eq_of_le ht with hlt | heq
    · have hlabel := h.encodes.levelForm.label_at hn (getElem?_eq_getElem hlt)
      have hchild := h.encodes.child_eq hn (getElem?_eq_getElem hlt)
      have hstart := LevelForm.le_loudsStart edges hn
      have hid : loudsStart edges nodes id - id + 1 + t =
          loudsStart edges nodes id + t - id + 1 := by omega
      obtain ⟨r, hr, hnext⟩ := ih (t := t + 1) hlt (by omega)
      rw [hid] at hchild
      rw [DomainMapIndex.wildcardLoop, h.encodes.levelForm.zero_at hn hlt]
      simp only [hlabel]
      have hdrop := drop_eq_getElem_cons hlt
      have habove : ∀ c ∈ n.bytes.drop (t + 1), n.bytes[t] < c := by
        have := hsorted.sublist (drop_sublist t n.bytes)
        rw [hdrop] at this
        exact (pairwise_cons.mp this).1
      rw [hdrop]
      generalize n.bytes[t] = l at *
      rcases byte_cases l with hl | rfl | rfl | hl
      · -- labels before the wildcards are passed
        have hstar' : l ≠ wildcardByte := Std.ne_of_lt hl
        have hplus' : l ≠ complexWildcardByte := Std.ne_of_lt (Std.lt_trans hl (by decide))
        have hnot : ¬ complexWildcardByte < l := fun hgt => absurd (Std.lt_trans hgt hl) (by decide)
        refine ⟨r, ?_, ?_⟩
        · rw [if_neg hplus', if_neg fun hand => hstar' hand.1]
          simp only [if_neg hnot]
          exact hr
        · simpa [hstar'.symm, hplus'.symm] using hnext
      · have hgone : wildcardByte ∉ n.bytes.drop (t + 1) := fun hmem =>
          Std.lt_irrefl (habove _ hmem)
        have hnot : ¬ complexWildcardByte < wildcardByte := by decide
        have hne : complexWildcardByte ≠ wildcardByte := by decide
        rw [if_neg hne.symm]
        by_cases hpart : part = wildcard
        · refine ⟨r, ?_, ?_⟩
          · simp only [hpart, ne_eq, not_true_eq_false, and_false, if_false, if_neg hnot]
            rw [hpart] at hr
            exact hr
          · simpa [hpart, hne] using hnext
        · obtain ⟨star, hbelow, hfound⟩ := hstar _ hchild (succ_ne_zero _)
          rw [if_pos ⟨rfl, hpart⟩, hbelow]
          cases star with
          | some terminal => exact ⟨some terminal, rfl, .inl ⟨nofun, hfound⟩⟩
          | none =>
            refine ⟨r, ?_, ?_⟩
            · simp only [if_neg hnot]
              exact hr
            · simpa [hne, hgone, hfound] using hnext
      · have hgone : wildcardByte ∉ n.bytes.drop (t + 1) := fun hmem =>
          absurd (habove _ hmem) (by decide)
        rw [if_pos rfl]
        refine ⟨_, rfl, .inr ⟨fun hmem => ?_, .inl ⟨mem_cons_self, _, rfl, hchild⟩⟩⟩
        rcases mem_cons.mp hmem with heq | hmem
        · exact absurd heq (by decide)
        · exact absurd hmem hgone
      · -- behind the wildcards the loop ends
        have hplus' : l ≠ complexWildcardByte := (Std.ne_of_lt hl).symm
        have hstar' : l ≠ wildcardByte := (Std.ne_of_lt (Std.lt_trans (by decide) hl)).symm
        have hgone : ∀ b, b = wildcardByte ∨ b = complexWildcardByte →
            b ∉ l :: n.bytes.drop (t + 1) := by
          intro b hb hmem
          have hle : b < l := by
            rcases hb with rfl | rfl
            · exact Std.lt_trans (by decide) hl
            · exact hl
          rcases mem_cons.mp hmem with rfl | hmem
          · exact Std.lt_irrefl hle
          · exact Std.lt_irrefl (Std.lt_trans hle (habove b hmem))
        refine ⟨none, ?_, .inr ⟨fun hmem => ?_, .inr ⟨hgone _ (.inr rfl), rfl⟩⟩⟩
        · rw [if_neg hplus', if_neg fun hand => hstar' hand.1]
          simp only [if_pos hl]
        · exact absurd hmem (hgone _ (.inl rfl))
    · refine ⟨none, ?_, .inr ⟨?_, .inr ⟨?_, rfl⟩⟩⟩
      · rw [heq, DomainMapIndex.wildcardLoop, h.encodes.one_at hn]
      · simp [heq]
      · simp [heq]

end Indexed

end Hako.Trie
