import Hako.Trie.Specificity
import Hako.Trie.Build

/-!
# The keys of patterns

A domain set stores the label sequences of its patterns as reversed strings: the labels from the
right, each read backwards, joined with dots, and `+` for the suffix wildcard. A query is read
in the same way. So the key of a sequence tells its labels, and the keys a builder collects are
those of the sequences that a trie would store.
-/

namespace Hako.Trie

open GoLib Lib List

/-! ### Reversed strings -/

variable {s label : GoString} {b : UInt8} {parts path : List GoString}

theorem runes_reverse (s : GoString) : runes (reverse s) = (runes s).reverse :=
  runes_ofRunes fun _ hr => validRune_of_mem_runes (mem_reverse.mp hr)

theorem reverse_reverse (h : ValidUtf8 s) : reverse (reverse s) = s := by
  rw [reverse, runes_reverse, List.reverse_reverse]
  exact h

theorem mem_reverse_iff (hb : b.toNat < runeSelf) (s : GoString) : b ∈ reverse s ↔ b ∈ s := by
  rw [reverse, mem_ofRunes_iff hb, mem_reverse, toNat_mem_runes_iff hb]

theorem reverse_append_step (s t : GoString) :
    reverse (s ++ domainStepByte :: t) = reverse t ++ domainStepByte :: reverse s := by
  have hself : domainStepByte.toNat < runeSelf := by decide
  rw [reverse, runes_append_ascii hself, reverse_append, reverse_cons, ofRunes_append,
    ofRunes_append, ofRunes_cons, encodeRune_ascii hself]
  simp [reverse, ofRunes]

theorem reverse_ne_nil (hutf8 : ValidUtf8 s) (h : s ≠ []) : reverse s ≠ [] := by
  intro hnil
  have := reverse_reverse hutf8
  rw [hnil] at this
  exact h this.symm

section

variable (h : ∀ b ∈ s, b.toNat < runeSelf)
include h

theorem ofRunes_of_ascii : ofRunes (s.map UInt8.toNat) = s := by
  induction s with
  | nil => rfl
  | cons b s ih =>
    obtain ⟨hb, hs⟩ := forall_mem_cons.mp h
    rw [map_cons, ofRunes_cons, encodeRune_ascii hb, ih hs]
    simp

/-- An ASCII string is reversed byte by byte. -/
theorem reverse_of_ascii : reverse s = s.reverse := by
  rw [reverse, runes_of_ascii h, ← map_reverse]
  exact ofRunes_of_ascii fun b hb => h b (mem_reverse.mp hb)

omit h in
theorem lowerByte_toNat (b : UInt8) :
    (lowerByte b).toNat = if 0x41 ≤ b.toNat ∧ b.toNat ≤ 0x5A then b.toNat + 0x20 else b.toNat := by
  unfold lowerByte
  simp only [UInt8.le_iff_toNat_le, UInt8.toNat_ofNat]
  split
  · rw [UInt8.toNat_add]
    simp only [UInt8.toNat_ofNat]
    omega
  · rfl

theorem toLower_of_ascii : toLower s = s.map lowerByte := by
  have hlower : ∀ b ∈ s, toLowerRune b.toNat = (lowerByte b).toNat := by
    intro b hb
    rw [toLowerRune_ascii (h b hb), lowerByte_toNat]
  have hascii : ∀ b ∈ s.map lowerByte, b.toNat < runeSelf := by
    intro b' hb'
    obtain ⟨b, hb, rfl⟩ := mem_map.mp hb'
    have := h b hb
    rw [lowerByte_toNat]
    simp only [runeSelf] at this ⊢
    split <;> omega
  rw [toLower, runes_of_ascii h, map_map, ← ofRunes_of_ascii hascii, map_map]
  congr 1
  exact map_congr_left hlower

end

/-- A lower-cased string has no capitals left. -/
theorem lowerByte_of_mem_toLower (h : b ∈ toLower s) : lowerByte b = b := by
  unfold lowerByte
  rw [if_neg]
  rintro ⟨hlo, hhi⟩
  rw [UInt8.le_iff_toNat_le] at hlo hhi
  have hself : b.toNat < runeSelf := lt_of_le_of_lt hhi (by decide)
  rw [toLower, mem_ofRunes_iff hself] at h
  obtain ⟨r, hr, hrb⟩ := mem_map.mp h
  exact toLowerRune_not_upper (validRune_of_mem_runes hr) (hrb ▸ ⟨hlo, hhi⟩)

theorem toLower_reverse (s : GoString) : toLower (reverse s) = reverse (toLower s) := by
  rw [toLower, runes_reverse, reverse, runes_toLower, map_reverse]

/-- `Has` reads a query backwards in lower case, rune by rune. -/
theorem walkKey_eq (key : GoString) : walkKey key = reverse (toLower key) := by
  rw [walkKey]
  split
  · rw [List.reverse_reverse, ← toLower_reverse]
    exact (map_congr_left fun b hb => lowerByte_of_mem_toLower hb).trans (map_id _)
  · rename_i hany
    have hascii : ∀ b ∈ key, b.toNat < runeSelf := by simpa using hany
    rw [← toLower_reverse, reverse_of_ascii hascii,
      toLower_of_ascii fun b hb => hascii b (mem_reverse.mp hb)]

/-- A joined string is reversed label by label. -/
theorem reverse_join (hne : parts ≠ []) :
    reverse (join domainStepByte parts) = join domainStepByte (parts.reverse.map reverse) := by
  induction parts with
  | nil => exact absurd rfl hne
  | cons p ps ih =>
    cases ps with
    | nil => simp
    | cons q qs =>
      rw [join_cons_cons, reverse_append_step, ih (by simp), reverse_cons (a := p), map_append]
      exact (join_concat (by simp) _).symm

/-! ### Keys -/

/-- The key of a label. -/
def labelKey (label : GoString) : GoString :=
  if label = dotWildcard then complexWildcard else reverse label

/-- The key of a sequence of labels, rightmost label first. -/
def spell (path : List GoString) : GoString := join domainStepByte (path.map labelKey)

/-- What a label of an accepted pattern is like: it has no dot and no `+`, and `*` only alone. -/
structure LabelOk (label : GoString) : Prop where
  no_step : domainStepByte ∉ label
  utf8 : ValidUtf8 label
  star_whole : wildcardByte ∈ label → label = wildcard
  no_plus : complexWildcardByte ∉ label

/-- What a stored sequence is like: only its last label can be the suffix wildcard. -/
structure PathOk (path : List GoString) : Prop where
  labels : ∀ label ∈ path, LabelOk label
  dots : ∀ label ∈ path.dropLast, label ≠ dotWildcard

theorem PathOk.tail (h : PathOk (label :: path)) : PathOk path := by
  refine ⟨fun l hl => h.labels l (mem_cons_of_mem _ hl), fun l hl => ?_⟩
  cases path with
  | nil => cases hl
  | cons p ps => exact h.dots l (mem_cons_of_mem _ hl)

/-- What stands behind the first label of a key. -/
def spellTail : List GoString → GoString
  | [] => []
  | label :: path => domainStepByte :: spell (label :: path)

theorem spell_cons (label : GoString) (path : List GoString) :
    spell (label :: path) = labelKey label ++ spellTail path := by
  cases path with
  | nil => simp [spell, spellTail]
  | cons label' path => simp [spell, spellTail, join_cons_cons]

/-- The wildcard bytes and the dot are in the key of a label where they are in the label. -/
theorem mem_labelKey (hne : label ≠ dotWildcard) (hb : b.toNat < runeSelf) :
    b ∈ labelKey label ↔ b ∈ label := by
  rw [labelKey, if_neg hne, mem_reverse_iff hb]

theorem step_not_mem_labelKey (h : domainStepByte ∉ label) : domainStepByte ∉ labelKey label := by
  by_cases hne : label = dotWildcard
  · rw [labelKey, if_pos hne]
    decide
  · rwa [mem_labelKey hne (by decide)]

theorem labelKey_ne_nil (h : ValidUtf8 label) : labelKey label ≠ [] := by
  rw [labelKey]
  split
  · decide
  · rename_i hne
    exact reverse_ne_nil h hne

/-- A label is told by its key; `+` is the key of the suffix wildcard. -/
theorem labelKey_inj {label' : GoString} (h : LabelOk label) (hutf8 : ValidUtf8 label')
    (hplus : complexWildcardByte ∉ label') (heq : labelKey label = labelKey label') :
    label = label' := by
  have hdot : ∀ {l : GoString}, complexWildcardByte ∉ l →
      labelKey l = complexWildcard → l = dotWildcard := by
    intro l hl hkey
    by_contra hne
    refine hl ((mem_labelKey hne (by decide)).mp ?_)
    rw [hkey]
    exact mem_singleton_self _
  by_cases hd : label = dotWildcard
  · rw [hd, labelKey, if_pos rfl] at heq
    rw [hd, hdot hplus heq.symm]
  · by_cases hd' : label' = dotWildcard
    · rw [hd', labelKey.eq_def dotWildcard, if_pos rfl] at heq
      exact absurd (hdot h.no_plus heq) hd
    · rw [labelKey, labelKey, if_neg hd, if_neg hd'] at heq
      rw [← reverse_reverse h.utf8, heq, reverse_reverse hutf8]

theorem map_labelKey (h : ∀ l ∈ path, l ≠ dotWildcard) : path.map labelKey = path.map reverse :=
  map_congr_left fun l hl => if_neg (h l hl)

/-- The key that a builder makes of a pattern. -/
theorem key_insertParts (hne : parts ≠ []) (htail : ∀ p ∈ parts.tail, p ≠ dotWildcard)
    (b : DomainSetBuilder) : (b.insertParts parts).keys = b.keys ++ [spell parts.reverse] := by
  cases parts with
  | nil => exact absurd rfl hne
  | cons p ps =>
    have hps : ps.reverse.map labelKey = ps.reverse.map reverse :=
      map_labelKey fun l hl => htail l (mem_reverse.mp hl)
    have hlabel : reverse (if p = dotWildcard then complexWildcard else p) = labelKey p := by
      rw [labelKey]
      split
      · decide
      · rfl
    have hparts : (if (p :: ps).head? = some dotWildcard then complexWildcard :: (p :: ps).tail
        else p :: ps) = (if p = dotWildcard then complexWildcard else p) :: ps := by
      simp only [head?_cons, Option.some.injEq, tail_cons]
      split <;> rfl
    rw [DomainSetBuilder.insertParts, hparts, reverse_join (by simp), spell, reverse_cons,
      map_append, map_singleton, hlabel, ← hps, reverse_cons, map_append]
    rfl

theorem spell_plus (path : List GoString) :
    spell (complexWildcard :: path).reverse = spell (dotWildcard :: path).reverse := by
  have hkey : labelKey complexWildcard = labelKey dotWildcard := by decide
  simp [spell, hkey]

/-- One call of `Insert`; a rejected pattern leaves the builder as it was. -/
def DomainSetBuilder.insertOrSkip (b : DomainSetBuilder) (pattern : GoString) :
    DomainSetBuilder :=
  match b.insert pattern with
  | .ok b' => b'
  | .error _ => b

open DomainSetBuilder

/-- The builder after a sequence of calls of `Insert`. -/
def DomainSetBuilder.insertAll (patterns : List GoString) : DomainSetBuilder :=
  patterns.foldl insertOrSkip ⟨[]⟩

theorem keys_insertOrSkip (b : DomainSetBuilder) (pattern : GoString) :
    (b.insertOrSkip pattern).keys = b.keys ++ (storedPaths pattern).map spell := by
  rw [DomainSetBuilder.insertOrSkip, DomainSetBuilder.insert, storedPaths]
  cases hparts : validAndSplitDomain pattern with
  | error e => simp
  | ok parts =>
    have hvalid := (validAndSplitDomain_ok hparts).2
    simp only [DomainTrie.paths]
    by_cases hplus : parts.head? = some complexWildcard
    · -- the bare domain, and then the pattern with its `+`
      obtain ⟨tail, rfl⟩ := head?_eq_some_iff.mp hplus
      have htail : tail ≠ [] := fun h => hvalid.plus_multi (by rw [h])
      simp only [if_pos hplus, tail_cons]
      rw [key_insertParts (by simp) hvalid.tail_ne_nil,
        key_insertParts htail fun p hp => hvalid.tail_ne_nil p (mem_of_mem_tail hp),
        spell_plus]
      simp
    · simp only [if_neg hplus]
      rw [key_insertParts hvalid.ne_nil hvalid.tail_ne_nil]
      rfl

/-- The keys of a builder are those of the label sequences that a trie stores. -/
theorem keys_insertAll (patterns : List GoString) :
    (insertAll patterns).keys =
      patterns.flatMap fun pattern => (storedPaths pattern).map spell := by
  have h : ∀ b : DomainSetBuilder, (patterns.foldl insertOrSkip b).keys =
      b.keys ++ patterns.flatMap fun pattern => (storedPaths pattern).map spell := by
    induction patterns with
    | nil => simp
    | cons pattern patterns ih =>
      intro b
      rw [foldl_cons, ih, keys_insertOrSkip]
      simp
  exact h ⟨[]⟩

/-! ### Stored sequences -/

theorem labelOk_dotWildcard : LabelOk dotWildcard :=
  ⟨by decide, rfl, fun h => by simp [dotWildcard] at h, by decide⟩

theorem labelOk_wildcard : LabelOk wildcard :=
  ⟨by decide, show ofRunes (runes wildcard) = wildcard by decide, fun _ => rfl, by decide⟩

theorem ValidParts.labelOk (h : ValidParts parts) {p : GoString} (hp : p ∈ parts)
    (hplus : p ≠ complexWildcard) : LabelOk p :=
  ⟨h.no_step p hp, h.utf8 p hp, h.star_whole p hp, fun hmem => hplus (h.plus_whole p hp hmem)⟩

variable {pattern rest : GoString}

theorem pathOk_of_mem_storedPaths (h : path ∈ storedPaths pattern) :
    PathOk path ∧ path ≠ [] ∧ path ≠ [dotWildcard] := by
  rw [storedPaths] at h
  cases hparts : validAndSplitDomain pattern with
  | error e => simp [hparts] at h
  | ok parts =>
    have hvalid := (validAndSplitDomain_ok hparts).2
    simp only [hparts, DomainTrie.paths] at h
    cases parts with
    | nil => exact absurd rfl hvalid.ne_nil
    | cons p ps =>
      have hps : ∀ l ∈ ps, LabelOk l := by
        intro l hl
        refine hvalid.labelOk (mem_cons_of_mem _ hl) fun heq => ?_
        exact hvalid.plus_first l hl (by rw [heq]; exact mem_singleton_self _)
      -- a sequence that ends with `l` and has the labels of the pattern before it
      have hok : ∀ l, LabelOk l → PathOk (l :: ps).reverse := by
        intro l hl
        refine ⟨fun l' hl' => ?_, fun l' hl' => ?_⟩
        · rcases mem_cons.mp (mem_reverse.mp hl') with rfl | hl'
          · exact hl
          · exact hps l' hl'
        · rw [dropLast_reverse] at hl'
          exact hvalid.tail_ne_nil l' (mem_reverse.mp hl')
      by_cases hplus : p = complexWildcard
      · have hne : ps ≠ [] := fun hnil => hvalid.plus_multi (by rw [hplus, hnil])
        rw [hplus, head?_cons, if_pos rfl, tail_cons] at h
        rcases mem_pair.mp h with rfl | rfl
        · have htail : ∀ l ∈ ps.reverse, l ≠ [] := fun l hl =>
            hvalid.tail_ne_nil l (mem_reverse.mp hl)
          exact ⟨⟨fun l hl => hps l (mem_reverse.mp hl), fun l hl =>
            htail l ((dropLast_sublist _).subset hl)⟩, by simpa using hne,
            fun heq => htail [] (heq ▸ mem_singleton_self _) rfl⟩
        · exact ⟨hok dotWildcard labelOk_dotWildcard, by simp, by simpa using hne⟩
      · rw [if_neg (by simpa using hplus), mem_singleton] at h
        rw [h]
        exact ⟨hok p (hvalid.labelOk mem_cons_self hplus), by simp,
          fun heq => hvalid.ne_empty (reverse_eq_iff.mp heq)⟩

theorem spell_ne_nil_of_mem_storedPaths (h : path ∈ storedPaths pattern) :
    spell path ≠ [] := by
  obtain ⟨hok, hne, -⟩ := pathOk_of_mem_storedPaths h
  obtain ⟨label, path, rfl⟩ := exists_cons_of_ne_nil hne
  rw [spell_cons]
  exact append_ne_nil_of_left_ne_nil (labelKey_ne_nil (hok.labels label mem_cons_self).utf8) _

theorem ne_nil_of_mem_insertAll {patterns : List GoString} {key : GoString}
    (h : key ∈ (insertAll patterns).keys) : key ≠ [] := by
  rw [keys_insertAll, mem_flatMap] at h
  obtain ⟨pattern, -, h⟩ := h
  obtain ⟨path, hpath, rfl⟩ := mem_map.mp h
  exact spell_ne_nil_of_mem_storedPaths hpath

/-! ### Reading a key -/

theorem takeWhile_spell (h : domainStepByte ∉ label) (path : List GoString) :
    (spell (label :: path)).takeWhile (· ≠ domainStepByte) = labelKey label := by
  have hkey : ∀ b ∈ labelKey label, decide (b ≠ domainStepByte) = true := by
    intro b hb
    rw [decide_eq_true_iff]
    exact fun heq => step_not_mem_labelKey h (heq ▸ hb)
  rw [spell_cons, takeWhile_append_of_pos hkey]
  cases path <;> simp [spellTail]

/-- A key that begins with the key of a label comes from a sequence that begins with it. -/
theorem cons_of_spell (hne : path ≠ []) (hok : PathOk path) (hlabel : LabelOk label)
    (hrest : ∀ b ∈ rest.head?, b = domainStepByte)
    (h : spell path = labelKey label ++ rest) :
    ∃ path', path = label :: path' ∧ spellTail path' = rest := by
  cases path with
  | nil => exact absurd rfl hne
  | cons p ps =>
    have hp := hok.labels p mem_cons_self
    have hpass : ∀ b ∈ labelKey label, decide (b ≠ domainStepByte) = true := by
      intro b hb
      rw [decide_eq_true_iff]
      exact fun heq => step_not_mem_labelKey hlabel.no_step (heq ▸ hb)
    have hkey : labelKey p = labelKey label := by
      rw [← takeWhile_spell hp.no_step ps, h, takeWhile_append_of_pos hpass]
      cases rest with
      | nil => simp
      | cons b rest => simp [hrest b rfl]
    rw [spell_cons, hkey] at h
    refine ⟨ps, ?_, append_cancel_left h⟩
    rw [labelKey_inj hp hlabel.utf8 hlabel.no_plus hkey]

theorem labelKey_of_wildcard_mem (h : LabelOk label)
    (hb : b = wildcardByte ∨ b = complexWildcardByte) (hmem : b ∈ labelKey label) :
    labelKey label = [b] := by
  by_cases hd : label = dotWildcard
  · rw [labelKey, if_pos hd] at hmem ⊢
    rw [mem_singleton.mp hmem]
    rfl
  · rcases hb with rfl | rfl
    · rw [mem_labelKey hd (by decide)] at hmem
      rw [h.star_whole hmem]
      decide
    · rw [mem_labelKey hd (by decide)] at hmem
      exact absurd hmem h.no_plus

/-- Inside a label no wildcard follows. -/
theorem no_wildcard_of_spell (hne : path ≠ []) (hok : PathOk path) {x : GoString}
    (hx : x ≠ []) (hstep : domainStepByte ∉ x) (hb : b = wildcardByte ∨ b = complexWildcardByte)
    (h : spell path = x ++ b :: rest) : False := by
  cases path with
  | nil => exact hne rfl
  | cons p ps =>
    have hp := hok.labels p mem_cons_self
    have hkey := takeWhile_spell hp.no_step ps
    have hpass : ∀ b' ∈ x ++ [b], decide (b' ≠ domainStepByte) = true := by
      intro b' hb'
      rw [decide_eq_true_iff]
      rintro rfl
      rcases mem_append.mp hb' with hb' | hb'
      · exact hstep hb'
      · rw [mem_singleton] at hb'
        rcases hb with rfl | rfl
        · exact absurd hb' (by decide)
        · exact absurd hb' (by decide)
    rw [h, append_cons, takeWhile_append_of_pos hpass] at hkey
    have hsingle := labelKey_of_wildcard_mem hp hb (by rw [← hkey]; simp)
    rw [← hkey] at hsingle
    have hlen := congrArg length hsingle
    have := length_pos_iff.mpr hx
    simp only [length_append, length_singleton] at hlen
    omega

end Hako.Trie
