import Hako.Bind.MrsValidation
import Hako.Trie.Keys
import Hako.Trie.TreeWalk

/-!
# Accepted rule sets

The cursor of the validation and the reader of the sets split a stream in the same way. So a
stream of domains that is accepted is read, and the counting has made sure that the set is a tree,
which nothing that walks it leaves. The level order of a built set is counted off again.
-/

namespace Hako.Bind

open GoLib GoLib.Binary Lib Trie List DomainSetBuilder

/-! ### What a cursor has read -/

namespace Cursor

variable {c c' : Cursor} {bytes r : List UInt8} {label : String} {size unit : Nat}

theorem readFull_eq_some (h : c.readFull size = some (bytes, c')) :
    bytes.length = size ∧ c.data = bytes ++ c'.data := by
  rw [readFull] at h
  split at h
  · rename_i hle
    cases h
    exact ⟨by rw [length_take]; omega, (take_append_drop _ _).symm⟩
  · cases h

theorem take_ok (h : c.take size label = .ok (bytes, c')) :
    bytes.length = size ∧ c.data = bytes ++ c'.data := by
  rw [take] at h
  split at h
  · rename_i hread
    cases h
    exact readFull_eq_some hread
  · cases h

variable {b : UInt8} {length : Int} {allowEmpty : Bool} {n : Nat}

theorem byte_ok (h : c.byte label = .ok (b, c')) : c.data = [b] ++ c'.data := by
  obtain ⟨⟨bytes, c₁⟩, htake, h⟩ := bind_eq_ok.mp h
  cases h
  obtain ⟨hlength, hdata⟩ := take_ok htake
  obtain ⟨b, rfl⟩ := length_eq_one_iff.mp hlength
  exact hdata

theorem int64_ok {value : Int} (h : c.int64 label = .ok (value, c')) :
    ∃ w : UInt64, value = w.toInt64.toInt ∧ c.data = putUint64 w ++ c'.data := by
  obtain ⟨⟨bytes, c₁⟩, htake, h⟩ := bind_eq_ok.mp h
  cases h
  obtain ⟨hlength, hdata⟩ := take_ok htake
  exact ⟨_, rfl, by rw [putUint64_uint64 _ hlength, hdata]⟩

theorem sized_ok (h : c.sized length unit label allowEmpty = .ok (bytes, c')) :
    ∃ n : Nat, length = n ∧ (allowEmpty = false → 0 < n) ∧ bytes.length = n * unit ∧
      c.data = bytes ++ c'.data := by
  obtain ⟨size, hsize, h⟩ := bind_eq_ok.mp h
  rw [Cursor.size] at hsize
  split at hsize
  · cases hsize
  rename_i hlength
  split at hsize
  · cases hsize
  cases hsize
  split at h
  · rename_i hread
    cases h
    obtain ⟨hbytes, hdata⟩ := readFull_eq_some hread
    refine ⟨length.toNat, by omega, fun hempty => ?_, hbytes, hdata⟩
    have hzero : ¬ length = 0 := fun hzero => hlength (.inr ⟨hempty, hzero⟩)
    omega
  · cases h

theorem skip_ok (h : c.skip length unit label allowEmpty = .ok c') :
    ∃ bytes, c.sized length unit label allowEmpty = .ok (bytes, c') := by
  obtain ⟨⟨bytes, c₁⟩, hsized, h⟩ := bind_eq_ok.mp h
  cases h
  exact ⟨bytes, hsized⟩

/-! ### What a cursor will read -/

/-- The limit covers what the cursor holds. -/
structure Holds (c : Cursor) (bytes : List UInt8) : Prop where
  data : c.data = bytes
  fits : bytes.length ≤ c.n

variable (h : c.Holds (bytes ++ r))
include h

theorem Holds.readFull (hsize : bytes.length = size) :
    ∃ c', c.readFull size = some (bytes, c') ∧ c'.Holds r := by
  have hfits := h.fits
  rw [length_append] at hfits
  refine ⟨⟨r, c.n - size⟩, ?_, rfl, by dsimp only; omega⟩
  rw [Cursor.readFull, h.data, if_pos ⟨by omega, by rw [length_append]; omega⟩, ← hsize,
    take_left, drop_left]

theorem Holds.take (hsize : bytes.length = size) (label : String) :
    ∃ c', c.take size label = .ok (bytes, c') ∧ c'.Holds r := by
  obtain ⟨c', hread, hholds⟩ := h.readFull hsize
  exact ⟨c', by rw [Cursor.take, hread], hholds⟩

omit h in
theorem Holds.byte (h : c.Holds ([b] ++ r)) (label : String) :
    ∃ c', c.byte label = .ok (b, c') ∧ c'.Holds r := by
  obtain ⟨c', htake, hholds⟩ := h.take (length_singleton) label
  exact ⟨c', by rw [Cursor.byte, htake]; rfl, hholds⟩

omit h in
theorem Holds.int64 {w : UInt64} (h : c.Holds (putUint64 w ++ r)) (label : String) :
    ∃ c', c.int64 label = .ok (w.toInt64.toInt, c') ∧ c'.Holds r := by
  obtain ⟨c', htake, hholds⟩ := h.take (length_putUint64 w) label
  refine ⟨c', ?_, hholds⟩
  rw [Cursor.int64, htake]
  have hword := uint64_putUint64 w []
  rw [append_nil] at hword
  exact congrArg (fun word : UInt64 => Except.ok (word.toInt64.toInt, c')) hword

variable (hsize : bytes.length = n * unit)
include hsize

theorem Holds.sized
    (hunit : 0 < unit) (label : String) (allowEmpty : Bool) (hempty : allowEmpty = false → 0 < n) :
    ∃ c', c.sized n unit label allowEmpty = .ok (bytes, c') ∧ c'.Holds r := by
  obtain ⟨c', hread, hholds⟩ := h.readFull hsize
  have hfits := h.fits
  rw [length_append, hsize] at hfits
  have hle : n ≤ c.n / unit := (Nat.le_div_iff_mul_le hunit).mpr (by omega)
  have hlength : ¬((n : Int) < 0 ∨ allowEmpty = false ∧ (n : Int) = 0) := by
    rintro (hneg | ⟨hfalse, hzero⟩)
    · omega
    · have := hempty hfalse
      omega
  refine ⟨c', ?_, hholds⟩
  rw [Cursor.sized, Cursor.size, if_neg hlength, if_neg (by omega)]
  rw [ok_bind, Int.toNat_natCast, hread]
  rfl

theorem Holds.skip
    (hunit : 0 < unit) (label : String) (allowEmpty : Bool) (hempty : allowEmpty = false → 0 < n) :
    ∃ c', c.skip n unit label allowEmpty = .ok c' ∧ c'.Holds r := by
  obtain ⟨c', hsized, hholds⟩ := h.sized hsize hunit label allowEmpty hempty
  exact ⟨c', by rw [Cursor.skip, hsized]; rfl, hholds⟩

end Cursor

/-! ### Bodies -/

variable {c : Cursor} {ss : DomainSet}

/-- A word that is read as the number `n` was written for it. -/
theorem ofNat_of_toInt64 {w : UInt64} {n : Nat} (h : w.toInt64.toInt = n) :
    w = UInt64.ofNat n ∧ n < 2 ^ 63 := by
  have hlt := w.toNat_lt
  change w.toBitVec.toInt = n at h
  change (if 2 * w.toNat < 2 ^ 64 then (w.toNat : Int) else w.toNat - (2 ^ 64 : Nat)) = n at h
  split at h
  · obtain rfl : w.toNat = n := by omega
    exact ⟨UInt64.ofNat_toNat.symm, by omega⟩
  · omega

/-- The slices of a set can be written with their lengths. -/
structure Writable (ss : DomainSet) : Prop where
  leaves : 0 < ss.leaves.length ∧ ss.leaves.length < 2 ^ 63
  labelBitmap : 0 < ss.labelBitmap.length ∧ ss.labelBitmap.length < 2 ^ 63
  labels : 0 < ss.labels.length ∧ ss.labels.length < 2 ^ 63

/-- An accepted body is a written set that the counting accepts. -/
theorem validateDomainMRSBody_ok (h : validateDomainMRSBody c = .ok ()) :
    ∃ ss rest, c.data = DomainSet.writeBin ss ++ rest ∧ Writable ss ∧
      validateTree ss.leaves.length (ss.labelBitmap.flatMap putUint64) ss.labels.length =
        .ok () := by
  obtain ⟨⟨version, c₁⟩, hversion, h⟩ := bind_eq_ok.mp h
  dsimp only at h
  by_cases hone : version ≠ 1
  · rw [if_pos hone] at h
    cases h
  obtain rfl : version = 1 := not_not.mp hone
  obtain ⟨⟨leavesLength, c₂⟩, hleavesLength, h⟩ := bind_eq_ok.mp h
  obtain ⟨c₃, hleaves, h⟩ := bind_eq_ok.mp h
  obtain ⟨⟨bitmapLength, c₄⟩, hbitmapLength, h⟩ := bind_eq_ok.mp h
  obtain ⟨⟨bitmap, c₅⟩, hbitmap, h⟩ := bind_eq_ok.mp h
  obtain ⟨⟨labelsLength, c₆⟩, hlabelsLength, h⟩ := bind_eq_ok.mp h
  obtain ⟨c₇, hlabels, h⟩ := bind_eq_ok.mp h
  obtain ⟨leaves, hleaves⟩ := Cursor.skip_ok hleaves
  obtain ⟨labels, hlabels⟩ := Cursor.skip_ok hlabels
  have hdata₁ := Cursor.byte_ok hversion
  obtain ⟨w, hw, hdata₂⟩ := Cursor.int64_ok hleavesLength
  obtain ⟨n, rfl, hn, hleavesSize, hdata₃⟩ := Cursor.sized_ok hleaves
  obtain ⟨w', hw', hdata₄⟩ := Cursor.int64_ok hbitmapLength
  obtain ⟨n', rfl, hn', hbitmapSize, hdata₅⟩ := Cursor.sized_ok hbitmap
  obtain ⟨w'', hw'', hdata₆⟩ := Cursor.int64_ok hlabelsLength
  obtain ⟨n'', rfl, hn'', hlabelsSize, hdata₇⟩ := Cursor.sized_ok hlabels
  obtain ⟨rfl, hlt⟩ := ofNat_of_toInt64 hw.symm
  obtain ⟨rfl, hlt'⟩ := ofNat_of_toInt64 hw'.symm
  obtain ⟨rfl, hlt''⟩ := ofNat_of_toInt64 hw''.symm
  obtain ⟨leafWords, rfl, hleafWords⟩ := exists_words (le_of_eq hleavesSize.symm)
  obtain ⟨bitmapWords, rfl, hbitmapWords⟩ := exists_words (le_of_eq hbitmapSize.symm)
  rw [← hleavesSize, take_length] at hleafWords
  rw [← hbitmapSize, take_length] at hbitmapWords
  rw [mul_one] at hlabelsSize
  subst hleafWords hbitmapWords hlabelsSize
  refine ⟨⟨leafWords, bitmapWords, labels⟩, c₇.data, ?_, ⟨⟨hn rfl, hlt⟩, ⟨hn' rfl, hlt'⟩,
    ⟨hn'' rfl, hlt''⟩⟩, h⟩
  dsimp only at hdata₃ hdata₅ hdata₆ hdata₇
  simp only [hdata₁, hdata₂, hdata₃, hdata₄, hdata₅, hdata₆, hdata₇, DomainSet.writeBin,
    append_assoc]

variable {rest : List UInt8}

/-- On a written set only the counting is left. -/
theorem validateDomainMRSBody_writeBin (h : c.Holds (ss.writeBin ++ rest)) (hss : Writable ss) :
    validateDomainMRSBody c =
      validateTree ss.leaves.length (ss.labelBitmap.flatMap putUint64) ss.labels.length := by
  simp only [DomainSet.writeBin, append_assoc] at h
  obtain ⟨c₁, hversion, h⟩ := h.byte "domain-set version"
  obtain ⟨c₂, hleavesLength, h⟩ := h.int64 "domain leaves length"
  obtain ⟨c₃, hleaves, h⟩ := h.skip (length_putUint64s _) (by decide) "domain leaves" false
    fun _ => hss.leaves.1
  obtain ⟨c₄, hbitmapLength, h⟩ := h.int64 "domain label bitmap length"
  obtain ⟨c₅, hbitmap, h⟩ := h.sized (length_putUint64s _) (by decide) "domain label bitmap" false
    fun _ => hss.labelBitmap.1
  obtain ⟨c₆, hlabelsLength, h⟩ := h.int64 "domain labels length"
  obtain ⟨c₇, hlabels, h⟩ := h.skip (mul_one _).symm (by decide) "domain labels" false
    fun _ => hss.labels.1
  rw [toInt_toInt64 hss.leaves.2] at hleavesLength
  rw [toInt_toInt64 hss.labelBitmap.2] at hbitmapLength
  rw [toInt_toInt64 hss.labels.2] at hlabelsLength
  rw [validateDomainMRSBody, hversion]
  change (c₁.int64 _ >>= _) = _
  rw [hleavesLength]
  change (c₂.skip _ _ _ _ >>= _) = _
  rw [hleaves]
  change (c₃.int64 _ >>= _) = _
  rw [hbitmapLength]
  change (c₄.sized _ _ _ _ >>= _) = _
  rw [hbitmap]
  change (c₅.int64 _ >>= _) = _
  rw [hlabelsLength]
  change (c₆.skip _ _ _ _ >>= _) = _
  rw [hlabels]
  rfl

/-! ### Trees -/

/-- A node by its labels alone: its children are not told apart. -/
def blockEdges (block : List UInt8) : List (UInt8 × List UInt8) := block.map (·, [])

theorem loudsLabels_blockEdges (blocks : List (List UInt8)) :
    loudsLabels blockEdges blocks = blocks.flatten := by
  have hblock : (fun block => (blockEdges block).map Prod.fst) = id := by
    funext block
    simp [blockEdges, Function.comp_def]
  rw [loudsLabels, hblock, flatMap_id]

/-- A set that the counting accepts is a tree. -/
theorem wellformed_of_degrees {degrees : List Nat} {rest : List Bool}
    (hleaves : ss.labels.length < ss.leaves.length * 64) (hdegrees : TreeDegrees degrees)
    (hsum : degrees.sum = ss.labels.length) (hbits : ss.bits = degreeBits degrees ++ rest) :
    Wellformed blockEdges ss (degrees.splitLengths ss.labels) := by
  have hmap : (degrees.splitLengths ss.labels).map (fun block => (blockEdges block).length) =
      degrees := by
    simp only [blockEdges, length_map]
    exact map_splitLengths_length _ _ (le_of_eq hsum)
  have hlength : (degrees.splitLengths ss.labels).length = degrees.length := length_splitLengths _ _
  have hnodes := hdegrees.length
  refine ⟨⟨⟨rest, ?_⟩, ?_⟩, ?_, fun id hid => ?_, fun id hid => ?_⟩
  · rw [loudsBits_eq_degreeBits, hmap, hbits]
  · rw [loudsLabels_blockEdges, flatten_splitLengths _ _ (le_of_eq hsum.symm)]
  · omega
  · rw [getBit_eq]
    exact ⟨_, getElem?_eq_getElem (by rw [length_bitsOf]; omega)⟩
  · have hearlier := hdegrees.earlier id (by omega)
    rw [loudsStart_eq (le_of_lt hid), Nat.add_sub_cancel, ← sum_degrees, map_take, hmap]
    exact hearlier

/-- The counting accepts an encoded tree. -/
theorem validateTree_of_encodes {nodes : List QElt} (e : Encodes ss nodes) :
    validateTree ss.leaves.length (ss.labelBitmap.flatMap putUint64) ss.labels.length = .ok () := by
  obtain ⟨root, horder⟩ := e.order
  obtain ⟨k, hbits⟩ := e.bits
  have hlength := horder.length_eq
  have hlast : nodes.length - 1 < nodes.length := by omega
  have hleaf := e.leaf _ _ (getElem?_eq_getElem hlast)
  rw [getBit_eq] at hleaf
  have hleaves := (List.getElem?_eq_some_iff.mp hleaf).1
  rw [length_bitsOf] at hleaves
  refine (validateTree_ok_iff _ _ _).mpr ⟨?_, _, List.replicate k false,
    horder.treeDegrees QElt.height QElt.height_kids, ?_, ?_⟩
  · rw [e.labels]
    omega
  · rw [sum_degrees, e.labels]
  · rw [← loudsBits_eq_degreeBits]
    exact hbits

/-- A built set has labels, and words for its bits. -/
theorem build_encodes {keys : List GoString} (hne : keys ≠ []) (hkeys : ∀ key ∈ keys, key ≠ []) :
    ∃ ss nodes, (mk keys).build = some (some ss) ∧ Encodes ss nodes ∧
      0 < ss.leaves.length ∧ 0 < ss.labelBitmap.length ∧ 0 < ss.labels.length := by
  obtain ⟨ss, nodes, hbuild, e, hroot⟩ := buildDomainSet_encodes hne
  obtain ⟨key, hkey⟩ := exists_mem_of_ne_nil _ hne
  obtain ⟨c, rest, rfl⟩ := exists_cons_of_ne_nil (hkeys key hkey)
  -- the root has an edge for the first byte of a key
  have hlabels : c ∈ ss.labels := by
    have hmem : (⟨[], sortedKeys keys⟩ : QElt) ∈ nodes := mem_of_getElem? hroot
    have hbyte : c ∈ QElt.bytes ⟨[], sortedKeys keys⟩ :=
      (QElt.mem_bytes (e.sorted _ hmem)).mpr ⟨rest, mem_sortedKeys.mpr hkey⟩
    rw [e.labels]
    exact mem_flatMap.mpr ⟨_, hmem, hbyte⟩
  have hpos := length_pos_of_mem hlabels
  obtain ⟨hleaves, degrees, more, hdegrees, hsum, hbits⟩ :=
    (validateTree_ok_iff _ _ _).mp (validateTree_of_encodes e)
  refine ⟨ss, nodes, by rw [build, hbuild]; rfl, e, by omega, ?_, hpos⟩
  have hcount := congrArg List.length hbits
  rw [length_bitsOf, length_append, length_degreeBits] at hcount
  omega

/-! ### Streams -/

/-- The header of a rule set of domains. -/
def domainHeader (count : UInt64) (extra : List UInt8) : List UInt8 :=
  mrsMagicBytes ++ [RuleBehavior.domain.byte] ++ putUint64 count ++
    putUint64 (.ofNat extra.length) ++ extra

theorem inspectHeader_domainHeader {count : UInt64} {extra : List UInt8}
    (h : c.Holds (domainHeader count extra ++ rest)) (hextra : extra.length < 2 ^ 63) :
    ∃ c', inspectHeader c .domain = .ok (count.toInt64.toInt, c') ∧ c'.Holds rest := by
  simp only [domainHeader, append_assoc] at h
  obtain ⟨c₁, hmagic, h⟩ := h.take rfl "magic"
  obtain ⟨c₂, hbehavior, h⟩ := h.byte "behavior"
  obtain ⟨c₃, hcount, h⟩ := h.int64 "rule count"
  obtain ⟨c₄, hlength, h⟩ := h.int64 "extra length"
  obtain ⟨c₅, hskip, h⟩ := h.skip (mul_one _).symm (by decide) "extra" true nofun
  rw [toInt_toInt64 hextra] at hlength
  refine ⟨c₅, ?_, h⟩
  rw [inspectHeader, hmagic]
  change (c₁.byte _ >>= _) = _
  rw [hbehavior]
  change (c₂.int64 _ >>= _) = _
  rw [hcount]
  change (c₃.int64 _ >>= _) = _
  rw [hlength]
  change (c₄.skip _ _ _ _ >>= _) = _
  rw [hskip]
  rfl

theorem inspect_domain_eq_ok {count : Int} :
    inspectMRSStream c .domain = .ok count ↔
      ∃ c', inspectHeader c .domain = .ok (count, c') ∧ validateDomainMRSBody c' = .ok () := by
  rw [inspectMRSStream, bind_eq_ok]
  constructor
  · rintro ⟨⟨count', c'⟩, hheader, h⟩
    obtain ⟨⟨⟩, hbody, h⟩ := bind_eq_ok.mp h
    cases h
    exact ⟨c', hheader, hbody⟩
  · rintro ⟨c', hheader, hbody⟩
    exact ⟨_, hheader, bind_eq_ok.mpr ⟨(), hbody, rfl⟩⟩

/-- The keys that a builder has made of accepted patterns. -/
theorem keys_of_accepted {patterns : List GoString} {b b' : DomainSetBuilder}
    (h : patterns.foldlM insert b = .ok b') :
    (∀ key ∈ b'.keys, key ∈ b.keys ∨ key ≠ []) ∧ (patterns ≠ [] ∨ b.keys ≠ [] → b'.keys ≠ []) := by
  induction patterns generalizing b with
  | nil =>
    cases h
    exact ⟨fun key hkey => .inl hkey, fun hne => hne.resolve_left fun hnil => hnil rfl⟩
  | cons pattern patterns ih =>
    obtain ⟨b₁, hinsert, h⟩ := bind_eq_ok.mp h
    obtain ⟨hkeys, hne⟩ := ih h
    have hskip : b.insertOrSkip pattern = b₁ := by rw [insertOrSkip, hinsert]
    have hkeys₁ := keys_insertOrSkip b pattern
    rw [hskip] at hkeys₁
    have hstored : storedPaths pattern ≠ [] := by
      rw [DomainSetBuilder.insert] at hinsert
      rw [storedPaths]
      cases hparts : validAndSplitDomain pattern with
      | error e =>
        rw [hparts] at hinsert
        cases hinsert
      | ok parts =>
        dsimp only
        rw [DomainTrie.paths]
        split <;> simp
    refine ⟨fun key hkey => ?_, fun _ => hne (.inr ?_)⟩
    · rcases hkeys key hkey with hkey | hkey
      · rw [hkeys₁, mem_append, mem_map] at hkey
        refine hkey.imp_right ?_
        rintro ⟨path, hpath, rfl⟩
        exact spell_ne_nil_of_mem_storedPaths hpath
      · exact .inr hkey
    · rw [hkeys₁]
      simp [hstored]

/-- A rule set of domains that is accepted is read as a set on which `Has` and `Foreach` return
and stay in range. What the builder makes of accepted patterns is accepted, if it is written behind
a header and within the limit. -/
theorem inspect_domain_sound_complete :
    (∀ c count, inspectMRSStream c .domain = .ok count →
      ∃ c', inspectHeader c .domain = .ok (count, c') ∧
        ∃ ss rest, readDomainSetBin c'.data = .ok (ss, rest) ∧
          (∀ key, ∃ o, HasReturns (some ss) key o ∧ o ≠ .outOfRange) ∧
          ∀ (σ : Type) (f : σ → GoString → σ × Bool) (st : σ),
            ∃ fuel st' more, ss.foreach f fuel st = some (.done st' more)) ∧
    ∀ patterns b, patterns ≠ [] → patterns.foldlM insert ⟨[]⟩ = .ok b →
      ∃ ss, b.build = some (some ss) ∧ ∀ count extra,
        (domainHeader count extra ++ ss.writeBin).length ≤ maximumProviderResourceBytes →
          inspectMRSStream (openCursor (domainHeader count extra ++ ss.writeBin)) .domain =
            .ok count.toInt64.toInt := by
  constructor
  · intro c count h
    obtain ⟨c', hheader, hbody⟩ := inspect_domain_eq_ok.mp h
    obtain ⟨ss, rest, hdata, hss, htree⟩ := validateDomainMRSBody_ok hbody
    obtain ⟨hleaves, degrees, more, hdegrees, hsum, hbits⟩ := (validateTree_ok_iff _ _ _).mp htree
    have e := wellformed_of_degrees hleaves hdegrees hsum hbits
    refine ⟨c', hheader, ss, rest, ?_, e.has_returns, fun σ f st => e.foreach_returns f st⟩
    rw [hdata, readDomainSetBin_writeBin rest hss.leaves hss.labelBitmap hss.labels]
  · intro patterns b hne hinsert
    obtain ⟨hkeys, hkeysne⟩ := keys_of_accepted hinsert
    obtain ⟨ss, nodes, hbuild, e, hleaves, hbitmap, hlabels⟩ := @build_encodes b.keys
      (hkeysne (.inl hne)) fun key hkey => (hkeys key hkey).resolve_left not_mem_nil
    refine ⟨ss, hbuild, fun count extra hlength => ?_⟩
    have hholds : (openCursor (domainHeader count extra ++ ss.writeBin)).Holds
        (domainHeader count extra ++ (ss.writeBin ++ [])) :=
      ⟨by rw [append_nil]; rfl, by rw [append_nil]; exact Nat.le_succ_of_le hlength⟩
    have hparts : extra.length + ss.leaves.length + ss.labelBitmap.length + ss.labels.length ≤
        maximumProviderResourceBytes := by
      refine le_trans ?_ hlength
      simp only [domainHeader, DomainSet.writeBin, length_append, length_putUint64s]
      omega
    rw [maximumProviderResourceBytes] at hparts
    have hss : Writable ss := ⟨⟨hleaves, by omega⟩, ⟨hbitmap, by omega⟩, ⟨hlabels, by omega⟩⟩
    obtain ⟨c', hheader, hbody⟩ := inspectHeader_domainHeader hholds (by omega)
    refine inspect_domain_eq_ok.mpr ⟨c', hheader, ?_⟩
    rw [validateDomainMRSBody_writeBin hbody hss, validateTree_of_encodes e]

/-- The rule set of `a` and `*`, accepted and then read, and built and then accepted. -/
theorem inspect_wildcard_domain :
    (∃ ss, readDomainSetBin readableStream = .ok (ss, []) ∧
      ∃ o, HasReturns (some ss) (lit "b") o ∧ o ≠ .outOfRange) ∧
    ∃ ss, (mk [lit "a", lit "*"]).build = some (some ss) ∧
      inspectMRSStream (openCursor (domainHeader 2 [] ++ ss.writeBin)) .domain = .ok 2 := by
  constructor
  · have haccepted : inspectMRSStream (openCursor (domainHeader 2 [] ++ readableStream)) .domain =
        .ok 2 := by decide +kernel
    obtain ⟨c, hheader, ss, rest, hread, hhas, -⟩ := inspect_domain_sound_complete.1 _ _ haccepted
    have hheader' : inspectHeader (openCursor (domainHeader 2 [] ++ readableStream)) .domain =
        .ok (2, ⟨readableStream, 16777196⟩) := by decide +kernel
    rw [hheader] at hheader'
    cases hheader'
    have hread' : readDomainSetBin readableStream = .ok (⟨[6], [28], lit "*a"⟩, []) := by
      decide +kernel
    rw [hread] at hread'
    cases hread'
    exact ⟨_, hread, hhas (lit "b")⟩
  · obtain ⟨ss, hbuild, h⟩ := inspect_domain_sound_complete.2 [lit "a", lit "*"]
      ⟨[lit "a", lit "*"]⟩ (by simp) rfl
    have hbuild' : (mk [lit "a", lit "*"]).build = some (some ⟨[6], [28], lit "*a"⟩) := by
      decide +kernel
    have hss := Option.some.inj (Option.some.inj (hbuild.symm.trans hbuild'))
    exact ⟨ss, hbuild, h 2 [] (by rw [hss]; decide +kernel)⟩

end Hako.Bind
