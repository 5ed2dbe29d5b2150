import Hako.Bind.RuleProviderCompile
import Hako.Trie.HasSearch

/-!
# Classical rules against their compiled set

The rules of a classical source compare their values with a host as they are. The compiled set
reads the same values as patterns. Three things come between them: values that the text format or
the strategy drops, values with wildcards, and suffixes that are shadowed in the set. The set and
the rules agree on a host exactly where none of them makes a difference.
-/

namespace Hako.Bind

open GoLib GoLib.Binary Lib Trie List DomainSetBuilder

/-! ### What the scan gives -/

/-- What holds for the values of scanned rules. -/
structure ValueOk (value : GoString) : Prop where
  trimmed : Trimmed value
  no_newline : newlineByte ∉ value

variable {line : GoString} {rule : ScannedRule} {rules : List ScannedRule} {parts : List GoString}

variable {s : GoString} {n : Nat} {source : List UInt8} {path qs : List GoString}

theorem cut_subset {sep before behind : GoString} (h : cut sep s = some (before, behind)) :
    before ⊆ s ∧ behind ⊆ s := by
  induction s generalizing before with
  | nil => cases h
  | cons b s ih =>
    rw [cut] at h
    split at h
    · cases h
      exact ⟨nil_subset _, fun _ hb => mem_of_mem_drop hb⟩
    · obtain ⟨⟨before', behind'⟩, hcut, heq⟩ := Option.map_eq_some_iff.mp h
      cases heq
      obtain ⟨hbefore, hbehind⟩ := ih hcut
      exact ⟨cons_subset_cons b hbefore, fun _ hb => mem_cons_of_mem b (hbehind hb)⟩

theorem trimQuotes_subset (s : GoString) : trimQuotes s ⊆ s := by
  intro b hb
  have h := (dropWhile_sublist _).subset (mem_reverse.mp hb)
  exact (dropWhile_sublist _).subset (mem_reverse.mp h)

theorem trimStart_subset (s start : GoString) : trimStart s start ⊆ s := by
  rw [trimStart]
  split
  · exact fun _ hb => mem_of_mem_drop hb
  · exact List.Subset.refl _

theorem stripComment_subset {line' : GoString} (h : stripComment line = some line') :
    line' ⊆ line := by
  rw [stripComment] at h
  split at h
  · rename_i before behind hcut
    split at h
    · cases h
    · cases h
      exact List.Subset.trans (trimSpace_subset before) (cut_subset hcut).1
  · cases h
    exact List.Subset.refl _

theorem valueOk_ruleValue (h : newlineByte ∉ line) : ValueOk (ruleValue line) := by
  rw [ruleValue]
  split
  · rename_i value behind hcut
    refine ⟨trimmed_trimSpace value, fun hmem => h ?_⟩
    exact trimSpace_subset line ((cut_subset hcut).1 (trimSpace_subset value hmem))
  · exact ⟨trimmed_trimSpace line, fun hmem => h (trimSpace_subset line hmem)⟩

theorem valueOk_scanRule (hline : newlineByte ∉ line) (h : scanRule n line = .ok rule) :
    ValueOk rule.value := by
  rw [scanRule] at h
  split at h
  · cases h
  · rename_i kind value hcut
    have hvalue := valueOk_ruleValue fun hmem => hline ((cut_subset hcut).2 hmem)
    dsimp only at h
    split at h
    · cases h
      exact hvalue
    · split at h
      · cases h
        exact hvalue
      · cases h

theorem valueOk_scanLine {raw : GoString} (hraw : newlineByte ∉ raw)
    (h : scanLine n raw = .ok (some rule)) : ValueOk rule.value := by
  have hline : newlineByte ∉ trimQuotes (trimSpace (trimStart (trimSpace raw) (lit "- "))) :=
    fun hmem => hraw (trimSpace_subset raw (trimStart_subset _ _
      (trimSpace_subset _ (trimQuotes_subset _ hmem))))
  rw [scanLine] at h
  dsimp only at h
  split at h
  · cases h
  split at h
  · cases h
  split at h
  · cases h
  split at h
  · cases h
  · rename_i line hstrip
    cases hrule : scanRule n line with
    | error e =>
      rw [hrule] at h
      cases h
    | ok rule' =>
      rw [hrule] at h
      cases h
      exact valueOk_scanRule (fun hmem => hline (stripComment_subset hstrip hmem)) hrule

theorem valueOk_scanLines {index : Nat} {raws : List GoString}
    (hraws : ∀ raw ∈ raws, newlineByte ∉ raw) (h : scanLines index raws = .ok rules) :
    ∀ rule ∈ rules, ValueOk rule.value := by
  induction raws generalizing index rules with
  | nil =>
    cases h
    exact fun rule hrule => absurd hrule not_mem_nil
  | cons raw raws ih =>
    obtain ⟨hraw, hrest⟩ := forall_mem_cons.mp hraws
    obtain ⟨first, hfirst, h⟩ := bind_eq_ok.mp h
    obtain ⟨others, hothers, h⟩ := bind_eq_ok.mp h
    cases h
    intro rule hrule
    rcases mem_append.mp hrule with hrule | hrule
    · rw [Option.mem_toList] at hrule
      rw [hrule] at hfirst
      exact valueOk_scanLine hraw hfirst
    · exact ih hrest hothers rule hrule

theorem valueOk_of_scan (h : classicalDomainScan source = .ok rules) :
    ∀ rule ∈ rules, ValueOk rule.value := by
  obtain ⟨rules', hscan, h⟩ := bind_eq_ok.mp h
  split at h
  · cases h
  · cases h
    exact valueOk_scanLines (fun raw hraw => sep_not_mem_of_mem_split hraw) hscan

/-- The emitted text of a rule is a trimmed line as well. -/
theorem ValueOk.text (h : ValueOk rule.value) : ValueOk rule.text := by
  obtain ⟨kind, value⟩ := rule
  cases kind with
  | domain => exact h
  | domainSuffix =>
    refine ⟨h.trimmed.append (a := 0x2B) (c := 0x2E) (by decide) (by decide) (by decide)
      (by decide), fun hmem => ?_⟩
    rcases mem_append.mp hmem with hmem | hmem
    · exact absurd hmem (by decide)
    · exact h.no_newline hmem

/-! ### The text format -/

theorem bufferLines_append (h : newlineByte ∉ line) (buf : List UInt8) :
    bufferLines (line ++ newlineByte :: buf) = (line ++ [newlineByte]) :: bufferLines buf := by
  induction line with
  | nil => rfl
  | cons b line ih =>
    obtain ⟨hb, hline⟩ := not_or.mp (mem_cons.not.mp h)
    rw [cons_append, bufferLines, if_neg (Ne.symm hb), ih hline]
    rfl

theorem bufferLines_classicalPayload (hne : rules ≠ [])
    (h : ∀ rule ∈ rules, newlineByte ∉ rule.text) :
    bufferLines (classicalPayload rules) = rules.map fun rule => rule.text ++ [newlineByte] := by
  induction rules with
  | nil => exact absurd rfl hne
  | cons rule rules ih =>
    obtain ⟨hrule, hrules⟩ := forall_mem_cons.mp h
    cases rules with
    | nil =>
      rw [classicalPayload, map_singleton, join_singleton]
      exact bufferLines_append hrule []
    | cons rule' rules =>
      have := ih (cons_ne_nil _ _) hrules
      rw [classicalPayload, map_cons, map_cons, join_cons_cons, append_assoc,
        cons_append, bufferLines_append hrule]
      exact congrArg _ this

/-- The rule reaches the set: its text is no comment of the text format and has no slash. -/
def ScannedRule.Kept (rule : ScannedRule) : Prop :=
  rule.text.head? ≠ some hashByte ∧ slashByte ∉ rule.text

instance (rule : ScannedRule) : Decidable rule.Kept :=
  inferInstanceAs (Decidable (rule.text.head? ≠ some hashByte ∧ slashByte ∉ rule.text))

theorem builder_insert (d : DomainStrategy) {rule : GoString} (h : slashByte ∉ rule) :
    (d.insert rule).domainSetBuilder = d.domainSetBuilder.insertOrSkip rule := by
  rw [DomainStrategy.insert, if_neg h, insertOrSkip]
  cases d.domainSetBuilder.insert rule <;> rfl

theorem insertOrSkip_nil (b : DomainSetBuilder) : b.insertOrSkip [] = b := rfl

/-- What one line of the text format does to the builder. -/
theorem builder_textRule (d : DomainStrategy) (h : ValueOk rule.text) :
    ((textRule (rule.text ++ [newlineByte])).toList.foldl .insert d).domainSetBuilder =
      if rule.Kept then d.domainSetBuilder.insertOrSkip rule.text else d.domainSetBuilder := by
  have htrim : trimSpace (rule.text ++ [newlineByte]) = rule.text :=
    trimSpace_append_newline h.trimmed
  rw [textRule, htrim]
  by_cases hnil : rule.text = []
  · rw [if_pos hnil, hnil, insertOrSkip_nil, ite_self]
    rfl
  rw [if_neg hnil]
  by_cases hhash : rule.text.head? = some hashByte
  · rw [if_pos hhash, if_neg fun hkept => hkept.1 hhash]
    rfl
  rw [if_neg hhash]
  by_cases hslash : slashByte ∈ rule.text
  · -- with or without two of them in front
    have hinsert : d.insert rule.text = d := if_pos hslash
    rw [if_neg (c := rule.Kept) fun hkept => hkept.2 hslash]
    split
    · rfl
    · exact congrArg _ hinsert
  · have hslashes : ¬ (lit "//").isPrefixOf rule.text := fun hpre =>
      hslash ((List.isPrefixOf_iff_prefix.mp hpre).subset mem_cons_self)
    rw [if_neg hslashes, if_pos ⟨hhash, hslash⟩]
    exact builder_insert d hslash

theorem builder_foldl (rules : List ScannedRule) (h : ∀ rule ∈ rules, ValueOk rule.text)
    (d : DomainStrategy) :
    (((rules.map fun rule => rule.text ++ [newlineByte]).filterMap textRule).foldl .insert
        d).domainSetBuilder =
      ((rules.filter (·.Kept)).map ScannedRule.text).foldl insertOrSkip d.domainSetBuilder := by
  induction rules generalizing d with
  | nil => rfl
  | cons rule rules ih =>
    obtain ⟨hrule, hrules⟩ := forall_mem_cons.mp h
    rw [map_cons, filterMap_eq_flatMap_toList, flatMap_cons, ← filterMap_eq_flatMap_toList,
      foldl_append, ih hrules, builder_textRule d hrule]
    by_cases hkept : rule.Kept
    · rw [if_pos hkept, filter_cons_of_pos (by simpa using hkept)]
      rfl
    · rw [if_neg hkept, filter_cons_of_neg (by simpa using hkept)]

/-- The patterns in the set. -/
def keptTexts (rules : List ScannedRule) : List GoString :=
  (rules.filter (·.Kept)).map ScannedRule.text

/-- The set of a classical source is that of its kept rules. -/
theorem rulesParse_classicalPayload (hne : rules ≠ []) (h : ∀ rule ∈ rules, ValueOk rule.text)
    {strategy : DomainStrategy} (hparse : rulesParse (classicalPayload rules) = some strategy) :
    (insertAll (keptTexts rules)).build = some strategy.domainSet := by
  rw [rulesParse, bufferLines_classicalPayload hne fun rule hrule => (h rule hrule).no_newline,
    DomainStrategy.finishInsert, builder_foldl rules h] at hparse
  obtain ⟨set, hset, rfl⟩ := Option.map_eq_some_iff.mp hparse
  exact hset

/-! ### Accepted values -/

theorem mem_join_of_mem {sep b : UInt8} {part : GoString} (hpart : part ∈ parts) (hb : b ∈ part) :
    b ∈ join sep parts := by
  induction parts with
  | nil => cases hpart
  | cons p parts ih =>
    cases parts with
    | nil =>
      rw [mem_singleton.mp hpart] at hb
      rwa [join_singleton]
    | cons p' parts =>
      rw [join_cons_cons]
      rcases mem_cons.mp hpart with rfl | hpart
      · exact mem_append_left _ hb
      · exact mem_append_right _ (mem_cons_of_mem _ (ih hpart))

theorem toLower_eq_nil (h : toLower s = []) : s = [] := by
  cases s with
  | nil => rfl
  | cons b s =>
    rw [toLower, runes_cons, map_cons, ofRunes_cons] at h
    exact absurd (append_eq_nil_iff.mp h).1 (encodeRune_ne_nil _)

theorem emptyFault_of_ne (h : ∀ p ∈ parts, p ≠ []) : emptyFault parts = none :=
  emptyFault_eq_none.mpr
    ⟨fun heq => h [] (heq ▸ mem_cons_self) rfl, fun p hp => h p (mem_of_mem_tail hp)⟩

/-- The labels of a host without wildcards: they are not empty and have none of the marks. -/
structure PlainLabel (label : GoString) : Prop where
  ne_nil : label ≠ []
  no_step : domainStepByte ∉ label
  no_star : wildcardByte ∉ label
  no_plus : complexWildcardByte ∉ label

theorem wildcardFault_of_plain {labels : List GoString} (h : ∀ l ∈ labels, PlainLabel l)
    (n i : Nat) : wildcardFault n i labels = none := by
  induction labels generalizing i with
  | nil => rfl
  | cons l labels ih =>
    obtain ⟨hl, hlabels⟩ := forall_mem_cons.mp h
    have hfault : labelFault n i l = none := by
      simp [labelFault, hl.no_plus, hl.no_star]
    rw [wildcardFault, hfault]
    exact ih hlabels _

section Values

variable {value : GoString} {labels : List GoString}
  (hlower : toLower value = join domainStepByte labels) (hne : labels ≠ [])
  (h : ∀ l ∈ labels, PlainLabel l)
include hlower hne h

theorem split_value : split domainStepByte (toLower value) = labels := by
  rw [hlower]
  exact split_join (fun l hl => (h l hl).no_step) hne

theorem getLast?_value : value.getLast? ≠ some domainStepByte := by
  intro hlast
  obtain ⟨start, rfl⟩ := getLast?_eq_some_iff.mp hlast
  have hsplit := split_value hlower hne h
  rw [toLower_append_mark isMark_domainStepByte, split_append_sep] at hsplit
  have hempty : ([] : GoString) ∈ labels := by
    rw [← hsplit]
    exact mem_append_right _ mem_cons_self
  exact (h [] hempty).ne_nil rfl

theorem value_ne_nil : value ≠ [] := by
  rintro rfl
  have hsplit := split_value hlower hne h
  exact (h [] (by rw [← hsplit]; exact mem_cons_self)).ne_nil rfl

/-- A trimmed value whose labels are plain is accepted as a domain. -/
theorem accepted_value (htrim : Trimmed value) : validAndSplitDomain value = .ok labels := by
  rw [validAndSplitDomain, if_neg (value_ne_nil hlower hne h),
    if_neg (getLast?_value hlower hne h), if_neg (by simp [htrim.first]),
    if_neg (by simp [htrim.last])]
  simp only [split_value hlower hne h, emptyFault_of_ne fun l hl => (h l hl).ne_nil,
    wildcardFault_of_plain h]

/-- It is accepted as a suffix, too. -/
theorem accepted_suffix (htrim : Trimmed value) :
    validAndSplitDomain (lit "+." ++ value) = .ok (complexWildcard :: labels) := by
  have htrim' : Trimmed (lit "+." ++ value) :=
    htrim.append (a := 0x2B) (c := 0x2E) (by decide) (by decide) (by decide) (by decide)
  have hlast : (lit "+." ++ value).getLast? ≠ some domainStepByte := by
    rw [getLast?_append_of_ne_nil _ (value_ne_nil hlower hne h)]
    exact getLast?_value hlower hne h
  have hsplit : split domainStepByte (toLower (lit "+." ++ value)) = complexWildcard :: labels := by
    rw [show lit "+." ++ value = lit "+" ++ domainStepByte :: value from rfl,
      toLower_append_mark isMark_domainStepByte, split_append_sep, split_value hlower hne h]
    rfl
  have hempty : emptyFault (complexWildcard :: labels) = none :=
    emptyFault_of_ne (forall_mem_cons.mpr ⟨cons_ne_nil _ _, fun p hp => (h p hp).ne_nil⟩)
  have hplus : labelFault (complexWildcard :: labels).length 0 complexWildcard = none := by
    simp [labelFault, hne, complexWildcard, wildcardByte, complexWildcardByte]
  rw [validAndSplitDomain, if_neg (append_ne_nil_of_left_ne_nil (by decide) _), if_neg hlast,
    if_neg (by simp [htrim'.first]), if_neg (by simp [htrim'.last])]
  simp only [hsplit, hempty, wildcardFault, hplus, wildcardFault_of_plain h]

end Values

/-! ### Matching without wildcards -/

theorem matches_self (qs : List GoString) : Matches qs qs := by
  induction qs with
  | nil => trivial
  | cons q qs ih => exact .inr ⟨.inr rfl, ih⟩

theorem matches_append_dot (qs : List GoString) {more : List GoString} (hne : more ≠ []) :
    Matches (qs ++ [dotWildcard]) (qs ++ more) := by
  induction qs with
  | nil =>
    obtain ⟨q, more, rfl⟩ := exists_cons_of_ne_nil hne
    exact .inl ⟨rfl, rfl⟩
  | cons q qs ih => exact .inr ⟨.inr rfl, ih⟩

section

variable (h : ∀ l ∈ path, l ≠ dotWildcard ∧ l ≠ wildcard)
include h

/-- Labels that are no wildcards match themselves only, whatever comes behind them. -/
theorem append_of_matches {rest : List GoString} (hmatch : Matches (path ++ rest) qs) :
    ∃ more, Matches rest more ∧ qs = path ++ more := by
  induction path generalizing qs with
  | nil => exact ⟨qs, hmatch, rfl⟩
  | cons l path ih =>
    obtain ⟨hl, hpath⟩ := forall_mem_cons.mp h
    cases qs with
    | nil => exact hmatch.elim
    | cons q qs =>
      rcases hmatch with ⟨hdot, -⟩ | ⟨hstar | rfl, hrest⟩
      · exact absurd hdot hl.1
      · exact absurd hstar hl.2
      · obtain ⟨more, hmore, rfl⟩ := ih hpath hrest
        exact ⟨more, hmore, rfl⟩

theorem eq_of_matches (hmatch : Matches path qs) : path = qs := by
  obtain ⟨more, hmore, rfl⟩ := append_of_matches h (by rwa [append_nil])
  cases more with
  | nil => rw [append_nil]
  | cons q qs => exact hmore.elim

end

/-! ### Rules and patterns -/

/-- A host in lower case without wildcards, and its labels. -/
structure PlainHost (host : GoString) (labels : List GoString) : Prop where
  accepted : validAndSplitDomain host = .ok labels
  first : labels.head? ≠ some []
  lower : toLower host = host
  no_star : wildcardByte ∉ host
  no_plus : complexWildcardByte ∉ host

/-- The value stands for more than itself when it is read as a pattern. -/
def ScannedRule.HasWildcard (rule : ScannedRule) : Prop :=
  wildcardByte ∈ rule.value ∨ rule.kind = .domain ∧
    (complexWildcardByte ∈ rule.value ∨ rule.value.head? = some domainStepByte)

instance (rule : ScannedRule) : Decidable rule.HasWildcard :=
  inferInstanceAs (Decidable (_ ∨ _ ∧ (_ ∨ _)))

namespace PlainHost

variable {host : GoString} {hs : List GoString} (h : PlainHost host hs)
include h

theorem split_eq : split domainStepByte host = hs := by
  have hparts := (validAndSplitDomain_ok h.accepted).1
  rwa [← split_toLower isMark_domainStepByte, h.lower, eq_comm] at hparts

theorem join_eq : join domainStepByte hs = host := by
  rw [← h.split_eq, join_split]

theorem ne_nil : hs ≠ [] := (validAndSplitDomain_ok h.accepted).2.ne_nil

theorem plain : ∀ l ∈ hs, PlainLabel l := by
  intro l hl
  have hsub : ∀ b ∈ l, b ∈ host := by
    intro b hb
    rw [← h.join_eq]
    exact mem_join_of_mem hl hb
  exact ⟨query_labels_ne h.accepted h.first l (mem_reverse.mpr hl),
    (validAndSplitDomain_ok h.accepted).2.no_step l hl, fun hstar => h.no_star (hsub _ hstar),
    fun hplus => h.no_plus (hsub _ hplus)⟩

end PlainHost

section Rules

variable {host : GoString} {hs : List GoString} {rule : ScannedRule}

theorem paths_of_plain {labels : List GoString} (h : ∀ l ∈ labels, PlainLabel l) :
    DomainTrie.paths labels = [labels.reverse] := by
  refine if_neg fun hplus => ?_
  have hmem : complexWildcard ∈ labels := mem_of_mem_head? (by rw [hplus]; rfl)
  exact (h _ hmem).no_plus (mem_singleton_self _)

theorem paths_plus (labels : List GoString) :
    DomainTrie.paths (complexWildcard :: labels) =
      [labels.reverse, labels.reverse ++ [dotWildcard]] := by
  rw [DomainTrie.paths, head?_cons, if_pos rfl, tail_cons, reverse_cons]

/-- A rule that matches a host is stored so that it matches. -/
theorem exists_path_of_matches (hhost : PlainHost host hs) (hvalue : Trimmed rule.value)
    (h : rule.rule.matchesHost host = true) :
    ∃ path ∈ storedPaths rule.text, Matches path hs.reverse := by
  obtain ⟨kind, value⟩ := rule
  cases kind with
  | domain =>
    have hlower : toLower value = join domainStepByte hs := by
      rw [hhost.join_eq]
      exact (of_decide_eq_true h).symm
    refine ⟨hs.reverse, ?_, matches_self _⟩
    change hs.reverse ∈ storedPaths value
    rw [storedPaths, accepted_value hlower hhost.ne_nil hhost.plain hvalue]
    dsimp only
    rw [paths_of_plain hhost.plain]
    exact mem_singleton_self _
  | domainSuffix =>
    -- the labels of the value are the last ones of the host
    obtain ⟨front, labels, hlower, hne, hlabels, hmatch⟩ : ∃ front labels,
        toLower value = join domainStepByte labels ∧ labels ≠ [] ∧ hs = front ++ labels ∧
          ∃ path ∈ [labels.reverse, labels.reverse ++ [dotWildcard]], Matches path hs.reverse := by
      rcases of_decide_eq_true h with ⟨start, hstart⟩ | heq
      · have hsplit : hs = split domainStepByte start ++ split domainStepByte (toLower value) := by
          rw [← split_append_sep, hstart, hhost.split_eq]
        refine ⟨_, _, (join_split _ _).symm, split_ne_nil _ _, hsplit, _,
          mem_cons_of_mem _ (mem_singleton_self _), ?_⟩
        rw [hsplit, reverse_append]
        exact matches_append_dot _ (by simpa using split_ne_nil domainStepByte start)
      · have heq' : toLower value = host := heq.symm
        exact ⟨[], hs, by rw [hhost.join_eq, heq'], hhost.ne_nil, rfl, hs.reverse,
          mem_cons_self, matches_self _⟩
    obtain ⟨path, hpath, hmatch⟩ := hmatch
    refine ⟨path, ?_, hmatch⟩
    have hplain : ∀ l ∈ labels, PlainLabel l := fun l hl =>
      hhost.plain l (by rw [hlabels]; exact mem_append_right _ hl)
    change path ∈ storedPaths (lit "+." ++ value)
    rw [storedPaths, accepted_suffix hlower hne hplain hvalue]
    dsimp only
    rw [paths_plus]
    exact hpath

variable {path : List GoString} {value : GoString}

theorem mem_storedPaths {pattern : GoString} (h : path ∈ storedPaths pattern) :
    ∃ parts, validAndSplitDomain pattern = .ok parts ∧ path ∈ DomainTrie.paths parts := by
  rw [storedPaths] at h
  split at h
  · rename_i parts hparts
    exact ⟨parts, hparts, h⟩
  · cases h

theorem label_ne_wildcard {l : GoString} (hstar : wildcardByte ∉ value)
    (hl : l ∈ split domainStepByte (toLower value)) : l ≠ wildcard := by
  rintro rfl
  have hmem : wildcardByte ∈ toLower value := by
    rw [← join_split domainStepByte (toLower value)]
    exact mem_join_of_mem hl (mem_singleton_self _)
  exact hstar ((mark_mem_toLower (by simp [IsMark, wildcardByte]) value).mp hmem)

/-- A value whose first label is empty begins with a dot. -/
theorem head?_of_split (h : (split domainStepByte value).map toLower = dotWildcard :: parts)
    (hne : dotWildcard :: parts ≠ [[]]) : value.head? = some domainStepByte := by
  obtain ⟨w, ws, hsplit, hw, hws⟩ := map_eq_cons_iff.mp h
  rw [toLower_eq_nil hw] at hsplit
  have hjoin := join_split domainStepByte value
  rw [hsplit] at hjoin
  cases ws with
  | nil => exact absurd (by rw [← hws]; rfl) hne
  | cons w' ws =>
    rw [join_cons_cons] at hjoin
    rw [← hjoin]
    rfl

/-- Without a wildcard, what is stored matches as the rule does. -/
theorem matches_of_path (hhost : PlainHost host hs) (hwild : ¬ rule.HasWildcard)
    (hpath : path ∈ storedPaths rule.text)
    (hmatch : Matches path hs.reverse) : rule.rule.matchesHost host = true := by
  obtain ⟨parts, hparts, hmem⟩ := mem_storedPaths hpath
  obtain ⟨hlower, hvalid⟩ := validAndSplitDomain_ok hparts
  have hsplit := hlower
  rw [← split_toLower isMark_domainStepByte] at hsplit
  clear hpath
  obtain ⟨kind, value⟩ := rule
  have hstar : wildcardByte ∉ value := fun h => hwild (.inl h)
  cases kind with
  | domain =>
    have hplus : complexWildcardByte ∉ value := fun h => hwild (.inr ⟨rfl, .inl h⟩)
    have hdot : value.head? ≠ some domainStepByte := fun h => hwild (.inr ⟨rfl, .inr h⟩)
    change parts = split domainStepByte (toLower value) at hsplit
    change parts = (split domainStepByte value).map toLower at hlower
    have hne : ∀ l ∈ parts, l ≠ dotWildcard := by
      intro l hl
      cases hcons : parts with
      | nil =>
        rw [hcons] at hl
        cases hl
      | cons p ps =>
        rw [hcons] at hl
        rcases mem_cons.mp hl with rfl | hl
        · rintro rfl
          rw [hcons] at hlower
          exact hdot (head?_of_split hlower.symm (hcons ▸ hvalid.ne_empty))
        · exact hvalid.tail_ne_nil l (by rw [hcons]; exact hl)
    have hpaths : DomainTrie.paths parts = [parts.reverse] := by
      refine if_neg fun hhead => hplus ?_
      have hfirst : complexWildcard ∈ parts := mem_of_mem_head? (by rw [hhead]; rfl)
      rw [← mark_mem_toLower (by simp [IsMark, complexWildcardByte]),
        ← join_split domainStepByte (toLower value), ← hsplit]
      exact mem_join_of_mem hfirst (mem_singleton_self _)
    rw [hpaths, mem_singleton] at hmem
    have heq : parts = hs := by
      refine reverse_inj.mp (eq_of_matches (fun l hl => ?_) (hmem ▸ hmatch))
      have hl := mem_reverse.mp hl
      exact ⟨hne l hl, label_ne_wildcard hstar (hsplit ▸ hl)⟩
    refine decide_eq_true ?_
    change host = toLower value
    rw [← hhost.join_eq, ← heq, hsplit, join_split]
  | domainSuffix =>
    have hlabels : parts = complexWildcard :: split domainStepByte (toLower value) := by
      rw [hsplit]
      change split domainStepByte (toLower (lit "+" ++ domainStepByte :: value)) = _
      rw [toLower_append_mark isMark_domainStepByte, split_append_sep]
      rfl
    have hplain : ∀ l ∈ (split domainStepByte (toLower value)).reverse,
        l ≠ dotWildcard ∧ l ≠ wildcard := by
      intro l hl
      have hl := mem_reverse.mp hl
      exact ⟨hvalid.tail_ne_nil l (by rw [hlabels]; exact hl), label_ne_wildcard hstar hl⟩
    rw [hlabels, paths_plus] at hmem
    refine decide_eq_true ?_
    change (domainStepByte :: toLower value) <:+ host ∨ host = toLower value
    rcases mem_pair.mp hmem with rfl | rfl
    · right
      rw [← hhost.join_eq, ← reverse_inj.mp (eq_of_matches hplain hmatch), join_split]
    · left
      obtain ⟨more, hdot, hmore⟩ := append_of_matches hplain hmatch
      have hne : more ≠ [] := by
        rintro rfl
        exact hdot
      have hhs : hs = more.reverse ++ split domainStepByte (toLower value) := by
        rw [← List.reverse_reverse hs, hmore, List.reverse_append, List.reverse_reverse]
      refine ⟨join domainStepByte more.reverse, ?_⟩
      rw [← hhost.join_eq, hhs, join_append (by simpa using hne) (split_ne_nil _ _), join_split]

end Rules

/-! ### The artifact -/

theorem length_le_domainHeader_writeBin (count : UInt64) (ss : DomainSet) :
    ss.leaves.length + ss.labelBitmap.length + ss.labels.length ≤
      (domainHeader count [] ++ ss.writeBin).length := by
  simp only [domainHeader, DomainSet.writeBin, length_append, length_putUint64s]
  omega

/-- A set behind the header of the converter is loaded again. -/
theorem rulesMrsParse_compress (z : Zstd) (count : UInt64) {ss : DomainSet} (h : Writable ss) :
    rulesMrsParse z (z.compress (domainHeader count [] ++ ss.writeBin)) =
      .ok ⟨count.toInt64.toInt, ⟨[]⟩, some ss⟩ := by
  have hheader : ∀ r, readFull 4 (mrsMagicBytes ++ r) = .ok (mrsMagicBytes, r) :=
    readFull_append rfl
  have hbehavior : ∀ r, readFull 1 ([RuleBehavior.domain.byte] ++ r) =
      .ok ([RuleBehavior.domain.byte], r) := readFull_append rfl
  have hextra : ∀ r, readFull (UInt64.ofNat 0).toNat r = .ok ([], r) :=
    fun r => @readFull_append [] 0 rfl r
  have hset := readDomainSetBin_writeBin [] h.leaves h.labelBitmap h.labels
  rw [append_nil] at hset
  have hzero : ¬ (UInt64.ofNat 0).toInt64.toInt < 0 := by decide
  simp only [rulesMrsParse, z.decompress_compress, domainHeader, append_assoc, hheader,
    ok_bind, hbehavior, readUint64_putUint64, ne_eq, not_true_eq_false, if_false, length_nil,
    if_neg hzero, nil_append, hextra, hset]
  rfl

/-- What a source that is compiled comes to: its rules, the set of those that are kept, and an
artifact that is loaded with this set. -/
theorem compileRuleProviderPayload_ok {z : Zstd} {artifact : List UInt8} {format : GoString}
    (h : compileRuleProviderPayload z source format = .ok artifact) :
    ∃ rules ss count, classicalDomainScan source = .ok rules ∧
      (∀ rule ∈ rules, ValueOk rule.value) ∧
      (insertAll (keptTexts rules)).build = some (some ss) ∧
      rulesMrsParse z artifact = .ok ⟨count, ⟨[]⟩, some ss⟩ := by
  rw [compileRuleProviderPayload] at h
  split at h
  · cases h
  obtain ⟨rules, hscan, h⟩ := bind_eq_ok.mp h
  obtain ⟨artifact', hconvert, h⟩ := bind_eq_ok.mp h
  have hvalues := valueOk_of_scan hscan
  have hne : rules ≠ [] := by
    rintro rfl
    obtain ⟨rules', -, hscan⟩ := bind_eq_ok.mp hscan
    split at hscan
    · cases hscan
    · rename_i hne
      cases hscan
      exact hne rfl
  split at h
  · cases h
  rename_i n hcount
  cases h
  rw [convertToMrs] at hconvert
  split at hconvert
  · cases hconvert
  rename_i strategy hparse
  have hbuild := rulesParse_classicalPayload hne (fun rule hrule => (hvalues rule hrule).text)
    hparse
  split at hconvert
  · cases hconvert
  split at hconvert
  · cases hconvert
  rename_i ss hset
  cases hconvert
  rw [hset] at hbuild
  -- the check of the artifact bounds the lengths of the slices
  rw [providerEntryCountForIOS] at hcount
  split at hcount
  · cases hcount
  split at hcount
  · cases hcount
  rw [inspectMRSForIOS, z.decompress_compress] at hcount
  dsimp only at hcount
  split at hcount
  · cases hcount
  rename_i hlimit
  have hlength := length_le_domainHeader_writeBin (Int64.ofInt strategy.count).toUInt64 ss
  have hmax : (domainHeader (Int64.ofInt strategy.count).toUInt64 [] ++ ss.writeBin).length ≤
      maximumProviderResourceBytes := Nat.le_of_not_lt (not_or.mp hlimit).2
  have hbound : maximumProviderResourceBytes < 2 ^ 63 := by decide
  have hkeys : (insertAll (keptTexts rules)).keys ≠ [] := by
    intro hnil
    rw [build, hnil] at hbuild
    cases hbuild
  obtain ⟨ss', nodes, hbuild', e, hleaves, hbitmap, hlabels⟩ :=
    build_encodes hkeys fun key hkey => ne_nil_of_mem_insertAll hkey
  cases hbuild.symm.trans hbuild'
  exact ⟨rules, ss, _, hscan, hvalues, hbuild, rulesMrsParse_compress z _
    ⟨⟨hleaves, by omega⟩, ⟨hbitmap, by omega⟩, ⟨hlabels, by omega⟩⟩⟩

/-! ### Agreement -/

/-- The kept rules, read as patterns, find a host in the set. -/
def SetFinds (rules : List ScannedRule) (hs : List GoString) : Prop :=
  ∃ path, Stored (keptTexts rules) path ∧ Matches path hs.reverse ∧
    Unshadowed (Stored (keptTexts rules)) path hs.reverse

/-- A rule that is not kept, or that is stored under a sequence that is shadowed for the host. -/
def ScannedRule.Lost (rule : ScannedRule) (rules : List ScannedRule) (hs : List GoString) : Prop :=
  ¬ rule.Kept ∨ ∃ path ∈ storedPaths rule.text, Matches path hs.reverse ∧
    ¬ Unshadowed (Stored (keptTexts rules)) path hs.reverse

/-- A rule that finds the host in the set. -/
def ScannedRule.Finds (rule : ScannedRule) (rules : List ScannedRule) (hs : List GoString) :
    Prop :=
  rule.Kept ∧ ∃ path ∈ storedPaths rule.text, Matches path hs.reverse ∧
    Unshadowed (Stored (keptTexts rules)) path hs.reverse

/-- Where a rule of the provider that matches is lost, or was scanned as another one, the set finds
the host all the same; where a rule finds the host by its wildcards only, or is none of the
provider's, some rule of the provider matches it. -/
structure Agree (classical : List DomainRule) (rules : List ScannedRule) (host : GoString)
    (hs : List GoString) : Prop where
  lost : ∀ rule ∈ classical, rule.matchesHost host = true →
    (∀ scanned ∈ rules, scanned.rule = rule → scanned.Lost rules hs) → SetFinds rules hs
  widened : ∀ scanned ∈ rules, scanned.Finds rules hs →
    scanned.HasWildcard ∨ scanned.rule ∉ classical →
      ∃ rule ∈ classical, rule.matchesHost host = true

theorem mem_keptTexts {text : GoString} :
    text ∈ keptTexts rules ↔ ∃ rule ∈ rules, rule.Kept ∧ rule.text = text := by
  simp [keptTexts, and_assoc]

theorem setFinds_iff_matches_iff {classical : List DomainRule} {host : GoString}
    {hs : List GoString} (hhost : PlainHost host hs)
    (hvalues : ∀ rule ∈ rules, ValueOk rule.value) :
    (SetFinds rules hs ↔ ∃ rule ∈ classical, rule.matchesHost host = true) ↔
      Agree classical rules host hs := by
  constructor
  · intro h
    refine ⟨fun rule hrule hmatch _ => h.mpr ⟨rule, hrule, hmatch⟩, ?_⟩
    rintro rule hrule ⟨hkept, path, hpath, hmatch, hclear⟩ -
    exact h.mp ⟨path, ⟨rule.text, mem_keptTexts.mpr ⟨rule, hrule, hkept, rfl⟩, hpath⟩, hmatch,
      hclear⟩
  · intro h
    constructor
    · rintro ⟨path, ⟨text, htext, hpath⟩, hmatch, hclear⟩
      obtain ⟨rule, hrule, hkept, rfl⟩ := mem_keptTexts.mp htext
      by_cases hread : rule.HasWildcard ∨ rule.rule ∉ classical
      · exact h.widened rule hrule ⟨hkept, path, hpath, hmatch, hclear⟩ hread
      · obtain ⟨hwild, hmem⟩ := not_or.mp hread
        exact ⟨rule.rule, not_not.mp hmem, matches_of_path hhost hwild hpath hmatch⟩
    · rintro ⟨rule, hrule, hmatches⟩
      by_cases hlost : ∀ scanned ∈ rules, scanned.rule = rule → scanned.Lost rules hs
      · exact h.lost rule hrule hmatches hlost
      · push Not at hlost
        obtain ⟨scanned, hscanned, rfl, hfound⟩ := hlost
        obtain ⟨hkept, hclear⟩ := not_or.mp hfound
        obtain ⟨path, hpath, hmatch⟩ :=
          exists_path_of_matches hhost (hvalues scanned hscanned).trimmed hmatches
        refine ⟨path, ⟨scanned.text, mem_keptTexts.mpr ⟨scanned, hscanned, not_not.mp hkept, rfl⟩,
          hpath⟩, hmatch, ?_⟩
        by_contra hshadow
        exact hclear ⟨path, hpath, hmatch, hshadow⟩

/-- The compiled set gives another answer than the rules that the provider reads. -/
def Differs (unmarshal : Unmarshal) (format : RuleFormat) (source : List UInt8) (host : GoString)
    (hs : List GoString) (answer : Bool) : Prop :=
  ∃ artifact strategy, compileRuleProviderPayload storedZstd source [] = .ok artifact ∧
    rulesMrsParse storedZstd artifact = .ok strategy ∧ PlainHost host hs ∧
    strategy.Answers host answer ∧
    (classicalRules unmarshal source format).any (·.matchesHost host) = !answer

/-- What the head of a list with its test line and a quoted rule with a comment are read as. -/
def yamlNote : Unmarshal := fun buf schema =>
  if buf = lit "payload:\n  - ''" then (⟨[[]], []⟩, true)
  else if buf = lit "payload:\n- 'DOMAIN,a.com' # note\n" then (⟨[lit "DOMAIN,a.com"], []⟩, true)
  else (schema, false)

end Hako.Bind
