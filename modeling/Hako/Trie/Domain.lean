import Hako.GoLib.Strings

/-!
# Domain patterns

`ValidAndSplitDomain` decides which strings are domain patterns and cuts the lower-cased
text into labels. A pattern is a sequence of labels in which `*` stands for one label, an
empty first label for one or more labels in front, and a first label `+` for both the
bare domain and everything in front of it. Queries go through the same function.
-/

namespace Hako.Trie

open GoLib List

def wildcardByte : UInt8 := 0x2A

def complexWildcardByte : UInt8 := 0x2B

def domainStepByte : UInt8 := 0x2E

def wildcard : GoString := [wildcardByte]

def dotWildcard : GoString := []

def complexWildcard : GoString := [complexWildcardByte]

/-- `ErrInvalidDomain` wrapped with the text that was rejected and the reason. -/
structure InvalidDomain where
  domain : GoString
  reason : String
  deriving DecidableEq, Repr

/-- The loop over `parts[1:]` that looks for an empty label; `i` is the loop index. -/
def emptyLabelFault : Nat → List GoString → Option String
  | _, [] => none
  | i, part :: rest =>
    if part = [] then some ("label " ++ toString (i + 2) ++ " is empty")
    else emptyLabelFault (i + 1) rest

/-- Why the labels cannot be a domain as far as empty labels go. -/
def emptyFault : List GoString → Option String
  | [part] => if part = [] then some "domain is empty" else none
  | parts => emptyLabelFault 0 parts.tail

/-- Why one label breaks the placement rules for wildcards: label `i` of `n`. -/
def labelFault (n i : Nat) (part : GoString) : Option String :=
  if part.contains complexWildcardByte ∧ part ≠ complexWildcard then
    some ("\"+\" wildcard must occupy the entire label " ++ toString (i + 1))
  else if part.contains complexWildcardByte ∧ i ≠ 0 then
    some "\"+\" wildcard is only allowed in the first label"
  else if part.contains complexWildcardByte ∧ n = 1 then
    some "\"+\" wildcard must be followed by another label"
  else if part.contains wildcardByte ∧ part ≠ wildcard then
    some ("\"*\" wildcard must occupy the entire label " ++ toString (i + 1))
  else none

/-- The loop over all labels that checks the placement of wildcards. -/
def wildcardFault (n : Nat) : Nat → List GoString → Option String
  | _, [] => none
  | i, part :: rest =>
    match labelFault n i part with
    | some reason => some reason
    | none => wildcardFault n (i + 1) rest

/-- Lower-case and split a domain, or say why it is not a well-formed pattern. -/
def validAndSplitDomain (domain : GoString) : Except InvalidDomain (List GoString) :=
  if domain = [] then .error ⟨domain, "domain is empty"⟩
  else if domain.getLast? = some domainStepByte then
    .error ⟨domain, "trailing dot is not allowed"⟩
  else if isSpace (decodeRune domain).1 then
    .error ⟨domain, "leading whitespace is not allowed"⟩
  else if isSpace (decodeLastRune domain) then
    .error ⟨domain, "trailing whitespace is not allowed"⟩
  else
    let parts := split domainStepByte (toLower domain)
    match emptyFault parts with
    | some reason => .error ⟨domain, reason⟩
    | none =>
      match wildcardFault parts.length 0 parts with
      | some reason => .error ⟨domain, reason⟩
      | none => .ok parts

/-- What the validator promises about the labels it returns. -/
structure ValidParts (parts : List GoString) : Prop where
  ne_nil : parts ≠ []
  ne_empty : parts ≠ [[]]
  /-- Only the first label may be empty. -/
  tail_ne_nil : ∀ p ∈ parts.tail, p ≠ []
  no_step : ∀ p ∈ parts, domainStepByte ∉ p
  utf8 : ∀ p ∈ parts, ValidUtf8 p
  star_whole : ∀ p ∈ parts, wildcardByte ∈ p → p = wildcard
  plus_whole : ∀ p ∈ parts, complexWildcardByte ∈ p → p = complexWildcard
  plus_first : ∀ p ∈ parts.tail, complexWildcardByte ∉ p
  plus_multi : parts ≠ [complexWildcard]

variable {parts : List GoString} {i : Nat}

theorem emptyLabelFault_eq_none : emptyLabelFault i parts = none ↔ ∀ p ∈ parts, p ≠ [] := by
  induction parts generalizing i with
  | nil => simp [emptyLabelFault]
  | cons part rest ih =>
    rw [emptyLabelFault, forall_mem_cons, ← ih (i := i + 1)]
    split <;> simp [*]

theorem emptyFault_eq_none :
    emptyFault parts = none ↔ parts ≠ [[]] ∧ ∀ p ∈ parts.tail, p ≠ [] := by
  match parts with
  | [] => simp [emptyFault, emptyLabelFault]
  | [part] => simp [emptyFault]
  | part :: part' :: rest => simp [emptyFault, emptyLabelFault_eq_none]

variable {n : Nat} {domain : GoString}

theorem wildcardFault_eq_none (h : wildcardFault n i parts = none) (k : Nat)
    (p : GoString) (hk : parts[k]? = some p) : labelFault n (i + k) p = none := by
  induction parts generalizing i k with
  | nil => simp at hk
  | cons part rest ih =>
    simp only [wildcardFault] at h
    cases hpart : labelFault n i part with
    | some reason => simp [hpart] at h
    | none =>
      rw [hpart] at h
      cases k with
      | zero =>
        rw [getElem?_cons_zero, Option.some.injEq] at hk
        rwa [← hk]
      | succ k =>
        have := ih h k (by simpa using hk)
        rwa [Nat.add_right_comm, Nat.add_assoc] at this

theorem labelFault_eq_none {p : GoString} (h : labelFault n i p = none) :
    (wildcardByte ∈ p → p = wildcard) ∧
      (complexWildcardByte ∈ p → p = complexWildcard ∧ i = 0 ∧ n ≠ 1) := by
  simp only [labelFault, contains_iff_mem] at h
  split_ifs at h with h₁ h₂ h₃ h₄
  exact ⟨fun hmem => by_contra fun hne => h₄ ⟨hmem, hne⟩,
    fun hmem => ⟨by_contra fun hne => h₁ ⟨hmem, hne⟩, by_contra fun hne => h₂ ⟨hmem, hne⟩,
      fun hn => h₃ ⟨hmem, hn⟩⟩⟩

theorem isMark_domainStepByte : IsMark domainStepByte.toNat := by
  simp [IsMark, domainStepByte]

theorem validParts_split
    (hparts : parts = split domainStepByte (toLower domain)) (hempty : emptyFault parts = none)
    (hwild : wildcardFault parts.length 0 parts = none) : ValidParts parts := by
  have hlabel : ∀ k p, parts[k]? = some p → labelFault parts.length k p = none := by
    intro k p hk
    simpa using wildcardFault_eq_none hwild k p hk
  have htail : ∀ p ∈ parts.tail, ∃ k, parts[k + 1]? = some p := by
    intro p hp
    obtain ⟨k, hk⟩ := mem_iff_getElem?.mp hp
    exact ⟨k, by rwa [getElem?_tail] at hk⟩
  refine
    { ne_nil := hparts ▸ split_ne_nil _ _
      ne_empty := (emptyFault_eq_none.mp hempty).1
      tail_ne_nil := (emptyFault_eq_none.mp hempty).2
      no_step := fun p hp => sep_not_mem_of_mem_split (hparts ▸ hp)
      utf8 := ?_, star_whole := ?_, plus_whole := ?_, plus_first := ?_, plus_multi := ?_ }
  · intro p hp
    rw [hparts, split_toLower isMark_domainStepByte] at hp
    obtain ⟨q, -, rfl⟩ := mem_map.mp hp
    exact validUtf8_toLower q
  · intro p hp
    obtain ⟨k, hk⟩ := mem_iff_getElem?.mp hp
    exact (labelFault_eq_none (hlabel k p hk)).1
  · intro p hp hmem
    obtain ⟨k, hk⟩ := mem_iff_getElem?.mp hp
    exact ((labelFault_eq_none (hlabel k p hk)).2 hmem).1
  · intro p hp hmem
    obtain ⟨k, hk⟩ := htail p hp
    exact absurd ((labelFault_eq_none (hlabel _ p hk)).2 hmem).2.1 (by simp)
  · intro hplus
    have hfault := hlabel 0 complexWildcard (by rw [hplus]; rfl)
    exact ((labelFault_eq_none hfault).2 (by simp [complexWildcard])).2.2 (by rw [hplus]; rfl)

/-- The labels the validator returns: those of the text, lower-cased, and well placed. -/
theorem validAndSplitDomain_ok (h : validAndSplitDomain domain = .ok parts) :
    parts = (split domainStepByte domain).map toLower ∧ ValidParts parts := by
  unfold validAndSplitDomain at h
  split_ifs at h
  cases hempty : emptyFault (split domainStepByte (toLower domain)) with
  | some reason => simp [hempty] at h
  | none =>
    cases hwild : wildcardFault (split domainStepByte (toLower domain)).length 0
        (split domainStepByte (toLower domain)) with
    | some reason => simp [hempty, hwild] at h
    | none =>
      simp only [hempty, hwild, Except.ok.injEq] at h
      subst h
      exact ⟨split_toLower isMark_domainStepByte domain, validParts_split rfl hempty hwild⟩

example : (validAndSplitDomain (lit "GOOGLE.COM")).toOption = some [lit "google", lit "com"] := by
  decide +kernel

/-! ### The explanation of the bindings -/

/-- The loop of `classifyInvalidDomainPattern` over the labels. -/
def classifyLabels (n : Nat) : Nat → List GoString → String
  | _, [] => "other"
  | i, part :: rest =>
    if part.contains complexWildcardByte ∧ part = complexWildcard ∧ n = 1 then "bare-plus"
    else if part.contains complexWildcardByte ∧ (part ≠ complexWildcard ∨ i ≠ 0) then
      "plus-outside-leading-label"
    else if part.contains wildcardByte ∧ part ≠ wildcard then "star-inside-label"
    else classifyLabels n (i + 1) rest

def classifyInvalidDomainPattern (pattern : GoString) : String :=
  if pattern ≠ [] ∧ pattern.getLast? = some domainStepByte then "trailing-dot"
  else if pattern ≠ [] ∧ isSpace (decodeRune pattern).1 then "whitespace"
  else if pattern ≠ [] ∧ isSpace (decodeLastRune pattern) then "whitespace"
  else
    let parts := split domainStepByte (toLower pattern)
    if parts = [[]] then "empty"
    else if [] ∈ parts.tail then "empty-segment"
    else classifyLabels parts.length 0 parts

theorem classifyLabels_eq_other (n : Nat) :
    classifyLabels n i parts = "other" ↔ wildcardFault n i parts = none := by
  induction parts generalizing i with
  | nil => simp [classifyLabels, wildcardFault]
  | cons part rest ih =>
    rw [classifyLabels, wildcardFault, labelFault]
    split_ifs <;> simp_all [complexWildcard]

/-- The two validators agree: the explanation names a fault exactly where there is one. -/
theorem classifyInvalidDomainPattern_ne_other_iff (pattern : GoString) :
    classifyInvalidDomainPattern pattern ≠ "other" ↔
      ∃ err, validAndSplitDomain pattern = .error err := by
  by_cases hnil : pattern = []
  · subst hnil
    exact iff_of_true (by decide +kernel) ⟨_, rfl⟩
  rw [classifyInvalidDomainPattern, validAndSplitDomain, if_neg hnil]
  simp only [ne_eq, hnil, not_false_eq_true, true_and]
  generalize split domainStepByte (toLower pattern) = parts
  have hlabels := @classifyLabels_eq_other parts 0 parts.length
  have hempty := @emptyFault_eq_none parts
  -- the checks come in the same order
  split_ifs with hdot hfirst hlast hone hsegment
  · simp
  · simp
  · simp
  · cases h : emptyFault parts with
    | none => exact absurd hone (hempty.mp h).1
    | some reason => simp
  · cases h : emptyFault parts with
    | none => exact absurd rfl ((hempty.mp h).2 _ hsegment)
    | some reason => simp
  · rw [hempty.mpr ⟨hone, fun p hp heq => hsegment (heq ▸ hp)⟩]
    cases h : wildcardFault parts.length 0 parts <;> simp [hlabels, h]

end Hako.Trie
