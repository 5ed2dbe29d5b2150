import Hako.Lib.Brackets
import Hako.Lib.Except
import Hako.Rules.Logic

/-!
# Parsing rules

A rule is written as its type, its payload and its target, separated by commas. The payload of a
logic rule holds other rules in parentheses. `format` finds the pairs of parentheses,
`findSubRuleRange` keeps the outermost of them inside the payload, and each is cut at its commas
again to parse the rule inside. A tree of AND, OR and NOT rules over leaves, written down and
parsed, gives that tree.

The parsers of the leaf rules are arbitrary.
-/

namespace Hako.Rules

open GoLib Lib List Nat

/-- `,` -/
def commaByte : UInt8 := 0x2C

/-- `(` -/
def openByte : UInt8 := 0x28

/-- `)` -/
def closeByte : UInt8 := 0x29

/-- The blank. -/
def blankByte : UInt8 := 0x20

inductive RuleError where
  /-- missing subsequent parameters -/
  | missingParameters (tp : GoString)
  /-- unsupported rule type on logic rule -/
  | unsupportedOnLogic (tp : GoString)
  /-- format is error -/
  | format (subPayload : GoString)
  /-- payload format error -/
  | payloadFormat
  /-- missing '(' -/
  | missingOpen
  /-- format error is missing ) -/
  | missingClose
  /-- not rule must contain one rule -/
  | notOne
  /-- Sub-Rule rule must contain one rule -/
  | subRuleOne
  /-- unsupported rule type -/
  | unsupported (tp : GoString)
  /-- the error of a leaf parser -/
  | leaf (e : GoString)
  /-- no error of the source: the bound on the nesting is used up -/
  | nesting
deriving DecidableEq

/-! ### Cutting at commas -/

def trimArr (arr : List GoString) : List GoString := arr.map (trim blankByte)

/-- The results of `ParseRulePayload`. -/
structure RulePayload where
  tp : GoString
  payload : GoString
  target : GoString
  params : List GoString
deriving DecidableEq, Repr

/-- The types that have commas in their payload and no parameters. -/
def commaTypes : List GoString :=
  [lit "NOT", lit "OR", lit "AND", lit "SUB-RULE", lit "DOMAIN-REGEX", lit "PROCESS-NAME-REGEX",
    lit "PROCESS-PATH-REGEX"]

def parseRulePayload (ruleRaw : GoString) (needTarget : Bool) : RulePayload :=
  match trimArr (split commaByte ruleRaw) with
  | [] => ⟨[], [], [], []⟩
  | [tp] => ⟨toUpper tp, [], [], []⟩
  | tp :: second :: rest =>
    let tp := toUpper tp
    if tp = lit "MATCH" then ⟨tp, [], second, []⟩
    else if tp ∈ commaTypes then
      if needTarget then
        -- the target is the last item
        ⟨tp, join commaByte (second :: rest).dropLast, (second :: rest).getLastD [], []⟩
      else ⟨tp, join commaByte (second :: rest), [], []⟩
    else if needTarget then ⟨tp, second, rest.headD [], rest.drop 1⟩
    else ⟨tp, second, [], rest⟩

/-! ### The pairs of parentheses -/

/-- The loop of `format`. It reads runes, but the parentheses are ASCII and no part of others. -/
def formatLoop : GoString → Nat → List Nat → List Range → Except RuleError (List Range)
  | [], _, stack, subRanges => if stack = [] then .ok subRanges else .error .missingClose
  | c :: cs, i, stack, subRanges =>
    if c = openByte then formatLoop cs (i + 1) (i :: stack) subRanges
    else if c = closeByte then
      match stack with
      | [] => .error .missingOpen
      | start :: stack => formatLoop cs (i + 1) stack (subRanges ++ [⟨start, i⟩])
    else formatLoop cs (i + 1) stack subRanges

variable {w : GoString} {rs : List Range} {ws : List GoString}

theorem formatLoop_open (cs : GoString) (i : Nat) (stack : List Nat) (subRanges : List Range) :
    formatLoop (openByte :: cs) i stack subRanges =
      formatLoop cs (i + 1) (i :: stack) subRanges := by
  rw [formatLoop.eq_def]
  rfl

theorem formatLoop_close (cs : GoString) (i start : Nat) (stack : List Nat)
    (subRanges : List Range) :
    formatLoop (closeByte :: cs) i (start :: stack) subRanges =
      formatLoop cs (i + 1) stack (subRanges ++ [⟨start, i⟩]) := by
  rw [formatLoop.eq_def]
  rfl

variable {c : UInt8}

theorem formatLoop_other (hop : c ≠ openByte) (hcl : c ≠ closeByte) (cs : GoString)
    (i : Nat) (stack : List Nat) (subRanges : List Range) :
    formatLoop (c :: cs) i stack subRanges = formatLoop cs (i + 1) stack subRanges := by
  rw [formatLoop.eq_def]
  simp only [if_neg hop, if_neg hcl]

def format (payload : GoString) : Except RuleError (List Range) :=
  match formatLoop payload 0 [] [] with
  | .error e => .error e
  | .ok subRanges => .ok (subRanges.insertionSort (·.start ≤ ·.start))

def containRange (r : Range) (preStart preEnd : Nat) : Bool := preStart < r.start && r.stop < preEnd

/-- The body of the loop of `findSubRuleRange`. -/
def addSubRuleRange (payloadLen : Nat) (subRuleRange : List Range) (rr : Range) : List Range :=
  if rr.start = 0 ∧ rr.stop = payloadLen - 1 then subRuleRange
  else if subRuleRange.any fun r => containRange rr r.start r.stop then subRuleRange
  else subRuleRange ++ [rr]

def findSubRuleRange (payload : GoString) (ruleRanges : List Range) : List Range :=
  ruleRanges.foldl (addSubRuleRange payload.length) []

/-! ### Rules -/

/-- The parsers of the leaf rules. -/
structure LeafParser (L : Type*) where
  /-- The constructor that the type selects. -/
  newLeaf : (tp payload target : GoString) → (params : List GoString) → Except GoString L
  newMatch : (target : GoString) → L

/-- The types of leaf rules with a payload. -/
def leafTypes : List GoString :=
  [lit "DOMAIN", lit "DOMAIN-SUFFIX", lit "DOMAIN-KEYWORD", lit "DOMAIN-REGEX",
    lit "DOMAIN-WILDCARD", lit "GEOSITE", lit "GEOIP", lit "SRC-GEOIP", lit "IP-ASN",
    lit "SRC-IP-ASN", lit "IP-CIDR", lit "IP-CIDR6", lit "SRC-IP-CIDR", lit "IP-SUFFIX",
    lit "SRC-IP-SUFFIX", lit "SRC-PORT", lit "DST-PORT", lit "IN-PORT", lit "DSCP",
    lit "PROCESS-NAME", lit "PROCESS-PATH", lit "PROCESS-NAME-REGEX", lit "PROCESS-PATH-REGEX",
    lit "PROCESS-NAME-WILDCARD", lit "PROCESS-PATH-WILDCARD", lit "NETWORK", lit "UID",
    lit "SOURCE-APP-SIGNING-ID", lit "SOURCE-APP-TEAM-ID", lit "IN-TYPE", lit "IN-USER",
    lit "IN-NAME", lit "REMATCH-NAME", lit "RULE-SET"]

variable {L M : Type*} (parser : LeafParser L)

/-- `payloadToRule`; `parseRule` is the recursive call. -/
def payloadToRule (parseRule : RulePayload → Except RuleError (Rule L)) (subPayload : GoString) :
    Except RuleError (Rule L) :=
  let p := parseRulePayload subPayload false
  if p.tp = lit "MATCH" ∨ p.tp = lit "SUB-RULE" then .error (.unsupportedOnLogic p.tp)
  else if p.tp = [] then .error (.format subPayload)
  else parseRule p

/-- `parsePayload`: the rules in a payload. -/
def parsePayload (parseRule : RulePayload → Except RuleError (Rule L)) (payload : GoString) :
    Except RuleError (List (Rule L)) :=
  if payload.head? ≠ some openByte ∨ payload.getLast? ≠ some closeByte then
    .error .payloadFormat
  else
    match format payload with
    | .error e => .error e
    | .ok subAllRanges =>
      (findSubRuleRange payload subAllRanges).mapM fun r =>
        payloadToRule parseRule ((payload.take r.stop).drop (r.start + 1))

/-- `ParseRule` for types other than SUB-RULE. -/
def parsePlainRule : Nat → RulePayload → Except RuleError (Rule L)
  | 0, _ => .error .nesting
  | fuel + 1, p =>
    if p.tp ≠ lit "MATCH" ∧ p.payload = [] then .error (.missingParameters p.tp)
    else if p.tp ∈ leafTypes then
      match parser.newLeaf p.tp p.payload p.target p.params with
      | .error e => .error (.leaf e)
      | .ok rule => .ok (.leaf rule)
    else if p.tp = lit "AND" then
      (parsePayload (parsePlainRule fuel) p.payload).map (.and p.target)
    else if p.tp = lit "OR" then
      (parsePayload (parsePlainRule fuel) p.payload).map (.or p.target)
    else if p.tp = lit "NOT" then
      match parsePayload (parsePlainRule fuel) p.payload with
      | .error e => .error e
      | .ok [rule] => .ok (.not p.target rule)
      | .ok _ => .error .notOne
    else if p.tp = lit "MATCH" then .ok (.leaf (parser.newMatch p.target))
    else .error (.unsupported p.tp)

/-- `ParseRule`. Each level of nesting takes a pair of parentheses of the payload. -/
def parseRule (p : RulePayload) : Except RuleError (ListedRule L) :=
  let fuel := p.payload.length + 1
  if p.tp = lit "SUB-RULE" then
    if p.payload = [] then .error (.missingParameters p.tp)
    else
      match parsePayload (parsePlainRule parser fuel) (openByte :: (p.payload ++ [closeByte])) with
      | .error e => .error e
      | .ok [rule] => .ok (.subRule rule p.target)
      | .ok _ => .error .subRuleOne
  else (parsePlainRule parser fuel p).map .plain

/-- A line of a rule list, as `parseRules` parses it. -/
def parseLine (line : GoString) : Except RuleError (ListedRule L) :=
  parseRule parser (parseRulePayload line true)

/-! ### Trees of rules -/

/-- A tree of AND, OR and NOT rules over leaves with a type and a payload. -/
inductive Tree where
  | leaf (tp payload : GoString)
  | and (trees : List Tree)
  | or (trees : List Tree)
  | not (tree : Tree)

namespace Tree

def tp : Tree → GoString
  | leaf tp _ => tp
  | and _ => lit "AND"
  | or _ => lit "OR"
  | not _ => lit "NOT"

/-- `(TYPE,payload)` -/
def item (tp payload : GoString) : GoString :=
  openByte :: (tp ++ commaByte :: payload ++ [closeByte])

mutual

/-- The payload that a tree is written as. -/
def payload : Tree → GoString
  | leaf _ payload => payload
  | and trees => openByte :: (join commaByte (items trees) ++ [closeByte])
  | or trees => openByte :: (join commaByte (items trees) ++ [closeByte])
  | not tree => openByte :: (item tree.tp (payload tree) ++ [closeByte])

/-- The texts of the rules in a payload. -/
def items : List Tree → List GoString
  | [] => []
  | tree :: trees => item tree.tp (payload tree) :: items trees

end

/-- A line of a rule list: `TYPE,payload,target`. -/
def line (tree : Tree) (target : GoString) : GoString :=
  tree.tp ++ commaByte :: (tree.payload ++ commaByte :: target)

variable (leafRule : (tp payload target : GoString) → L)

mutual

/-- The rule that a tree stands for: the same tree over the rules of its leaves. -/
def toRule (target : GoString) : Tree → Rule L
  | leaf tp payload => .leaf (leafRule tp payload target)
  | and trees => .and target (toRules trees)
  | or trees => .or target (toRules trees)
  | not tree => .not target (toRule [] tree)

def toRules : List Tree → List (Rule L)
  | [] => []
  | tree :: trees => toRule [] tree :: toRules trees

end

mutual

/-- The boolean value of a tree over its leaves. -/
def value (env : LeafRules L M) (m : M) (target : GoString) : Tree → Bool
  | leaf tp payload => (env.ruleMatch (leafRule tp payload target) m).1
  | and trees => allValues env m trees
  | or trees => anyValue env m trees
  | not tree => !value env m [] tree

def allValues (env : LeafRules L M) (m : M) : List Tree → Bool
  | [] => true
  | tree :: trees => value env m [] tree && allValues env m trees

def anyValue (env : LeafRules L M) (m : M) : List Tree → Bool
  | [] => false
  | tree :: trees => value env m [] tree || anyValue env m trees

end

/-- A leaf that is accepted as the rule `leafRule`, with a payload that is trimmed and has no
commas and only balanced parentheses. An empty payload is not accepted. -/
structure LeafOk (target tp payload : GoString) : Prop where
  type : tp ∈ leafTypes
  trimmed : trim blankByte payload = payload
  no_comma : commaByte ∉ payload
  balanced : Balanced openByte closeByte payload
  ne_nil : payload ≠ []
  accepted : parser.newLeaf tp payload target [] = .ok (leafRule tp payload target)

/-- Every leaf of the tree is accepted. Only the root has a target. -/
inductive Ok : GoString → Tree → Prop
  | leaf {target tp payload : GoString} : LeafOk parser leafRule target tp payload →
      Ok target (.leaf tp payload)
  | and {target : GoString} {trees : List Tree} : (∀ tree ∈ trees, Ok [] tree) →
      Ok target (.and trees)
  | or {target : GoString} {trees : List Tree} : (∀ tree ∈ trees, Ok [] tree) →
      Ok target (.or trees)
  | not {target : GoString} {tree : Tree} : Ok [] tree → Ok target (.not tree)

end Tree

/-! ### Texts whose items are trimmed -/

/-- No item of the text begins or ends with a blank. -/
def AllTrimmed (w : GoString) : Prop := ∀ p ∈ split commaByte w, trim blankByte p = p

theorem trim_append {a b : GoString} (ha : trim c a = a) (hb : trim c b = b) :
    trim c (a ++ b) = a ++ b := by
  rw [trim_eq_self_iff] at ha hb ⊢
  rw [head?_append, getLast?_append]
  cases a with
  | nil => simpa using hb
  | cons x a =>
    cases b with
    | nil => simpa using ha
    | cons y b =>
      have hlast : (y :: b).getLast? = some ((y :: b).getLast (by simp)) :=
        getLast?_eq_some_getLast _
      refine ⟨ha.1, ?_⟩
      rw [hlast, Option.some_or, ← hlast]
      exact hb.2

variable {s t tp payload : GoString}

theorem AllTrimmed.append (hs : AllTrimmed s) (ht : AllTrimmed t) : AllTrimmed (s ++ t) := by
  obtain ⟨ps, a, hps⟩ : ∃ ps a, split commaByte s = ps ++ [a] := by
    rcases eq_nil_or_concat' (split commaByte s) with hnil | h
    · exact absurd hnil (split_ne_nil _ _)
    · exact h
  obtain ⟨b, qs, hqs⟩ := exists_cons_of_ne_nil (split_ne_nil commaByte t)
  unfold AllTrimmed at hs ht ⊢
  rw [hps, forall_mem_append, forall_mem_singleton] at hs
  rw [hqs, forall_mem_cons] at ht
  rw [split_append hps hqs]
  exact forall_mem_append.mpr ⟨hs.1, forall_mem_cons.mpr ⟨trim_append hs.2 ht.1, ht.2⟩⟩

theorem allTrimmed_of_not_mem (hcomma : commaByte ∉ w) (htrim : trim blankByte w = w) :
    AllTrimmed w := by
  intro p hp
  rw [split_of_not_mem hcomma, mem_singleton] at hp
  rw [hp, htrim]

theorem AllTrimmed.comma (hs : AllTrimmed s) (ht : AllTrimmed t) :
    AllTrimmed (s ++ commaByte :: t) := by
  rw [AllTrimmed, split_append_sep]
  exact forall_mem_append.mpr ⟨hs, ht⟩

theorem AllTrimmed.trimArr_split (h : AllTrimmed w) :
    trimArr (split commaByte w) = split commaByte w :=
  (map_congr_left h).trans (map_id _)

/-- The type of a rule, as it is written. -/
structure TypeOk (tp : GoString) : Prop where
  upper : toUpper tp = tp
  trimmed : trim blankByte tp = tp
  no_comma : commaByte ∉ tp
  no_paren : ∀ c ∈ tp, c ≠ openByte ∧ c ≠ closeByte
  ne_match : tp ≠ lit "MATCH"
  ne_sub : tp ≠ lit "SUB-RULE"
  ne_nil : tp ≠ []

theorem typeOk_of_mem (h : tp ∈ leafTypes ++ [lit "AND", lit "OR", lit "NOT"]) : TypeOk tp := by
  have hall : ∀ tp ∈ leafTypes ++ [lit "AND", lit "OR", lit "NOT"],
      toUpper tp = tp ∧ trim blankByte tp = tp ∧
        tp.all (fun c => c != commaByte && c != openByte && c != closeByte) = true ∧
          tp ≠ lit "MATCH" ∧ tp ≠ lit "SUB-RULE" ∧ tp ≠ [] := by
    decide +kernel
  obtain ⟨hupper, htrim, hbytes, hmatch, hsub, hnil⟩ := hall tp h
  have hbyte : ∀ c ∈ tp, (c ≠ commaByte ∧ c ≠ openByte) ∧ c ≠ closeByte := fun c hc => by
    simpa using all_eq_true.mp hbytes c hc
  exact
    { upper := hupper
      trimmed := htrim
      no_comma := fun hmem => (hbyte _ hmem).1.1 rfl
      no_paren := fun c hc => ⟨(hbyte c hc).1.2, (hbyte c hc).2⟩
      ne_match := hmatch
      ne_sub := hsub
      ne_nil := hnil }

theorem not_mem_leafTypes (h : tp ∈ [lit "AND", lit "OR", lit "NOT"]) : tp ∉ leafTypes := by
  have hall : ∀ tp ∈ [lit "AND", lit "OR", lit "NOT"], tp ∉ leafTypes := by decide +kernel
  exact hall tp h

/-- A rule without a target is cut into its type and its payload. -/
theorem parseRulePayload_item (htp : TypeOk tp)
    (hpayload : AllTrimmed payload) (hcut : tp ∈ commaTypes ∨ commaByte ∉ payload) :
    parseRulePayload (tp ++ commaByte :: payload) false = ⟨tp, payload, [], []⟩ := by
  have hall := (allTrimmed_of_not_mem htp.no_comma htp.trimmed).comma hpayload
  obtain ⟨second, rest, hsplit⟩ := exists_cons_of_ne_nil (split_ne_nil commaByte payload)
  have hjoin : join commaByte (second :: rest) = payload := by rw [← hsplit, join_split]
  rw [parseRulePayload, hall.trimArr_split, split_append_sep, split_of_not_mem htp.no_comma, hsplit]
  simp only [singleton_append, htp.upper, if_neg htp.ne_match, Bool.false_eq_true, if_false, hjoin]
  split
  · rfl
  · rename_i hnot
    rw [split_of_not_mem (hcut.resolve_left hnot), List.cons.injEq] at hsplit
    rw [hsplit.1, ← hsplit.2]

/-- A line is cut into its type, its payload and its target. -/
theorem parseRulePayload_line {target : GoString} (htp : TypeOk tp)
    (hpayload : AllTrimmed payload) (hcut : tp ∈ commaTypes ∨ commaByte ∉ payload)
    (htrim : trim blankByte target = target) (hcomma : commaByte ∉ target) :
    parseRulePayload (tp ++ commaByte :: (payload ++ commaByte :: target)) true =
      ⟨tp, payload, target, []⟩ := by
  have hall := (allTrimmed_of_not_mem htp.no_comma htp.trimmed).comma
    (hpayload.comma (allTrimmed_of_not_mem hcomma htrim))
  obtain ⟨second, rest, hsplit⟩ := exists_cons_of_ne_nil (split_ne_nil commaByte payload)
  have hjoin : join commaByte (second :: rest) = payload := by rw [← hsplit, join_split]
  have hinit : (second :: (rest ++ [target])).dropLast = second :: rest := by
    rw [← cons_append, dropLast_concat]
  have hlast : (second :: (rest ++ [target])).getLastD [] = target := by
    rw [← cons_append, getLastD_eq_getLast?, getLast?_concat, Option.getD_some]
  rw [parseRulePayload, hall.trimArr_split, split_append_sep, split_append_sep,
    split_of_not_mem htp.no_comma, split_of_not_mem hcomma, hsplit, singleton_append,
    cons_append]
  simp only [htp.upper, if_neg htp.ne_match, if_true, hinit, hlast, hjoin]
  split
  · rfl
  · rename_i hnot
    rw [split_of_not_mem (hcut.resolve_left hnot), List.cons.injEq] at hsplit
    rw [hsplit.1, ← hsplit.2]
    rfl

/-! ### The ranges of a payload -/

/-- The loop of `format` passes a balanced text and collects its pairs. -/
theorem formatLoop_pairs {i : Nat} (h : Pairs openByte closeByte w i rs) :
    ∃ post, post.Perm rs ∧ ∀ rest stack acc, formatLoop (w ++ rest) i stack acc =
        formatLoop rest (i + w.length) stack (acc ++ post) := by
  induction h with
  | nil i => exact ⟨[], .refl _, fun rest stack acc => by simp⟩
  | other hop hcl _ ih =>
    obtain ⟨post, hperm, hloop⟩ := ih
    refine ⟨post, hperm, fun rest stack acc => ?_⟩
    rw [cons_append, formatLoop_other hop hcl, hloop, length_cons]
    congr 1
    omega
  | @group w w' i rs rs' _ _ ih ih' =>
    obtain ⟨post, hperm, hloop⟩ := ih
    obtain ⟨post', hperm', hloop'⟩ := ih'
    refine ⟨post ++ ⟨i, i + w.length + 1⟩ :: post', ?_, fun rest stack acc => ?_⟩
    · exact perm_middle.trans ((hperm.append hperm').cons _)
    · have htext : openByte :: w ++ closeByte :: w' ++ rest =
          openByte :: (w ++ (closeByte :: (w' ++ rest))) := by simp
      have hstop : i + 1 + w.length = i + w.length + 1 := by omega
      rw [htext, formatLoop_open, hloop, formatLoop_close, hstop, hloop', append_assoc,
        append_assoc]
      simp only [length_append, length_cons, singleton_append]
      congr 1
      omega

/-- `format` gives the pairs of a balanced text by their opening parentheses. -/
theorem format_eq (h : Pairs openByte closeByte w 0 rs) : format w = .ok rs := by
  obtain ⟨post, hperm, hloop⟩ := formatLoop_pairs h
  have hend := hloop [] [] []
  rw [append_nil, nil_append, formatLoop, if_pos rfl] at hend
  rw [format, hend]
  exact congrArg Except.ok (insertionSort_eq_of_perm h.pairwise hperm)

/-- A text in parentheses. -/
def enclose (w : GoString) : GoString := openByte :: (w ++ [closeByte])

/-- Texts in parentheses, each after a text without any, and such a text at the end. -/
def segmented : List (GoString × GoString) → GoString → GoString
  | [], last => last
  | (sep, w) :: segs, last => sep ++ (enclose w ++ segmented segs last)

/-- Where the parentheses stand. -/
def segmentRanges : Nat → List (GoString × GoString) → List Range
  | _, [] => []
  | i, (sep, w) :: segs =>
    ⟨i + sep.length, i + sep.length + w.length + 1⟩ ::
      segmentRanges (i + sep.length + w.length + 2) segs

structure Segments (segs : List (GoString × GoString)) (last : GoString) : Prop where
  plain : ∀ s ∈ last :: segs.map Prod.fst, ∀ c ∈ s, c ≠ openByte ∧ c ≠ closeByte
  balanced : ∀ w ∈ segs.map Prod.snd, Balanced openByte closeByte w

variable {segs : List (GoString × GoString)} {last : GoString}

theorem foldl_addSubRuleRange_skip {n : Nat} {sub : List Range}
    (h : ∀ rr ∈ rs, addSubRuleRange n sub rr = sub) : rs.foldl (addSubRuleRange n) sub = sub := by
  induction rs with
  | nil => rfl
  | cons rr rs ih =>
    obtain ⟨hrr, hrs⟩ := forall_mem_cons.mp h
    rw [foldl_cons, hrr, ih hrs]

/-- Of the pairs of such a text, `findSubRuleRange` keeps those around the texts. -/
theorem pairs_segmented (h : Segments segs last) (i : Nat) :
    ∃ rs, Pairs openByte closeByte (segmented segs last) i rs ∧
      ∀ n sub, (∀ r ∈ sub, r.stop < i) → 0 < i →
        rs.foldl (addSubRuleRange n) sub = sub ++ segmentRanges i segs := by
  induction segs generalizing i with
  | nil =>
    refine ⟨[], ?_, fun n sub _ _ => by simp [segmentRanges]⟩
    simpa [segmented] using Pairs.plain_append (h.plain last (by simp)) (.nil _)
  | cons seg segs ih =>
    obtain ⟨sep, w⟩ := seg
    have hsep := h.plain sep (by simp)
    have hsegs : Segments segs last :=
      ⟨fun s hs => h.plain s (by grind), fun g hg => h.balanced g (by grind)⟩
    obtain ⟨j, hj⟩ : ∃ j, i + sep.length = j := ⟨_, rfl⟩
    rw [segmented, segmentRanges, hj]
    obtain ⟨rsw, hrsw⟩ := (h.balanced w (by simp)).pairs (j + 1)
    obtain ⟨rs, hrs, hfold⟩ := ih hsegs (j + w.length + 2)
    have hpairs : Pairs openByte closeByte (enclose w ++ segmented segs last) j
        (⟨j, j + w.length + 1⟩ :: rsw ++ rs) := by
      simpa [enclose] using Pairs.group hrsw hrs
    refine ⟨⟨j, j + w.length + 1⟩ :: rsw ++ rs, Pairs.plain_append hsep (by rwa [hj]),
      fun n sub hsub hi => ?_⟩
    have hadd : addSubRuleRange n sub ⟨j, j + w.length + 1⟩ = sub ++ [⟨j, j + w.length + 1⟩] := by
      have hnot : ¬ (sub.any fun r =>
          containRange ⟨j, j + w.length + 1⟩ r.start r.stop) = true := by
        rw [any_eq_true]
        rintro ⟨r, hr, hcontain⟩
        have := hsub r hr
        simp only [containRange, Bool.and_eq_true, decide_eq_true_eq] at hcontain
        omega
      rw [addSubRuleRange, if_neg fun hwhole => by dsimp only at hwhole; omega, if_neg hnot]
    have hskip : rsw.foldl (addSubRuleRange n) (sub ++ [⟨j, j + w.length + 1⟩]) =
        sub ++ [⟨j, j + w.length + 1⟩] := by
      refine foldl_addSubRuleRange_skip fun rr hrr => ?_
      have hbounds := hrsw.bounds rr hrr
      have hany : ((sub ++ [Range.mk j (j + w.length + 1)]).any fun r =>
          containRange rr r.start r.stop) = true := by
        rw [any_eq_true]
        refine ⟨⟨j, j + w.length + 1⟩, by simp, ?_⟩
        simp only [containRange, Bool.and_eq_true, decide_eq_true_eq]
        omega
      rw [addSubRuleRange, if_neg fun hwhole => by omega, if_pos hany]
    rw [cons_append, foldl_cons, hadd, foldl_append, hskip, hfold, append_assoc]
    · rfl
    · intro r hr
      rcases mem_append.mp hr with hr | hr
      · have := hsub r hr
        omega
      · rw [mem_singleton.mp hr]
        dsimp only
        omega
    · omega

/-- The texts are what the ranges cut out. -/
theorem slice_segmentRanges (segs : List (GoString × GoString)) (last before after : GoString) :
    (segmentRanges before.length segs).map
        (fun r => ((before ++ segmented segs last ++ after).take r.stop).drop (r.start + 1)) =
      segs.map Prod.snd := by
  induction segs generalizing before with
  | nil => rfl
  | cons seg segs ih =>
    obtain ⟨sep, w⟩ := seg
    rw [segmentRanges, map_cons, map_cons, List.cons.injEq]
    constructor
    · have htext : before ++ segmented ((sep, w) :: segs) last ++ after =
          (before ++ sep ++ openByte :: w) ++ (closeByte :: (segmented segs last ++ after)) := by
        simp [segmented, enclose]
      have hstop : before.length + sep.length + w.length + 1 =
          (before ++ sep ++ openByte :: w).length := by
        simp only [length_append, length_cons]
        omega
      have hstart : before.length + sep.length + 1 = (before ++ sep ++ [openByte]).length := by
        simp [add_assoc]
      rw [htext, hstop, take_left, append_cons, hstart, drop_left]
    · have hnext := ih (before ++ sep ++ enclose w)
      simpa [segmented, enclose, add_assoc] using hnext

/-- The payload of a logic rule is cut into the texts of its rules, and what stands between them
is not looked at. -/
theorem parsePayload_segmented (h : Segments segs last)
    (parseRule : RulePayload → Except RuleError (Rule L)) :
    parsePayload parseRule (enclose (segmented segs last)) =
      (segs.map Prod.snd).mapM (payloadToRule parseRule) := by
  obtain ⟨rs, hrs, hfold⟩ := pairs_segmented h 1
  generalize hbody : segmented segs last = body at hrs
  have hpairs : Pairs openByte closeByte (enclose body) 0
      (⟨0, body.length + 1⟩ :: rs) := by
    have := Pairs.group hrs (.nil (0 + body.length + 2))
    simpa [enclose] using this
  have hfind : findSubRuleRange (enclose body) (⟨0, body.length + 1⟩ :: rs) =
      segmentRanges 1 segs := by
    have hwhole : addSubRuleRange (enclose body).length [] ⟨0, body.length + 1⟩ = [] := by
      rw [addSubRuleRange, if_pos ⟨rfl, by simp [enclose]⟩]
    rw [findSubRuleRange, foldl_cons, hwhole, hfold _ _ (by nofun) one_pos, nil_append]
  have hslices := slice_segmentRanges segs last [openByte] [closeByte]
  have hedges : ¬ ((enclose body).head? ≠ some openByte ∨
      (enclose body).getLast? ≠ some closeByte) := by
    simp [enclose, getLast?_cons]
  rw [parsePayload, if_neg hedges, format_eq hpairs]
  dsimp only
  rw [hfind]
  conv_rhs => rw [← hslices, mapM_map]
  rw [hbody]
  rfl

/-- With single commas between the texts. -/
theorem exists_segmented_join (ws : List GoString) : ∃ segs, segs.map Prod.snd = ws ∧
    segmented segs [] = join commaByte (ws.map enclose) ∧
    ∀ s ∈ segs.map Prod.fst, s = [] ∨ s = [commaByte] := by
  cases ws with
  | nil => exact ⟨[], rfl, rfl, nofun⟩
  | cons w ws =>
    refine ⟨([], w) :: ws.map ([commaByte], ·), by simp [Function.comp_def], ?_, by simp⟩
    induction ws generalizing w with
    | nil => simp [segmented]
    | cons w' ws ih =>
      have hjoin : join commaByte ((w :: w' :: ws).map enclose) =
          enclose w ++ commaByte :: join commaByte ((w' :: ws).map enclose) := by
        simp [join_cons_cons]
      rw [hjoin, ← ih w']
      simp [segmented]

theorem parsePayload_groups (h : ∀ w ∈ ws, Balanced openByte closeByte w)
    (parseRule : RulePayload → Except RuleError (Rule L)) :
    parsePayload parseRule (enclose (join commaByte (ws.map enclose))) =
      ws.mapM (payloadToRule parseRule) := by
  obtain ⟨segs, hws, htext, hsep⟩ := exists_segmented_join ws
  have hcomma : commaByte ≠ openByte ∧ commaByte ≠ closeByte := by decide
  rw [← htext, ← hws]
  refine parsePayload_segmented ⟨fun s hs c hc => ?_, hws ▸ h⟩ parseRule
  rcases mem_cons.mp hs with rfl | hs
  · cases hc
  · rcases hsep s hs with rfl | rfl
    · cases hc
    · exact mem_singleton.mp hc ▸ hcomma

/-! ### Accepted payloads -/

/-- Commas and white space. -/
def Blank (s : GoString) : Prop := ∀ r ∈ runes s, r = commaByte.toNat ∨ isSpace r

/-- A pair of parentheses around rules in parentheses, at least one, with only commas and white
space between them. -/
structure Cut (payload : GoString) (segs : List (GoString × GoString)) (last : GoString) : Prop
    extends Segments segs last where
  eq : payload = enclose (segmented segs last)
  ne_nil : segs ≠ []
  blank : ∀ s ∈ last :: segs.map Prod.fst, Blank s

/-- All the text of the payload is rules in parentheses, and what stands between them. -/
def Clean (payload : GoString) : Prop := ∃ segs last, Cut payload segs last

/-- AND and OR rules are accepted with the rules that `parsePayload` returns, and NOT rules if it
returns one. These are rules for all the text of the payload exactly if it is clean. -/
theorem nothing_dropped_iff {parseRule : RulePayload → Except RuleError (Rule L)}
    {payload : GoString} {rules : List (Rule L)} (h : parsePayload parseRule payload = .ok rules) :
    (∃ segs last, Cut payload segs last ∧ rules ≠ [] ∧
      (segs.map Prod.snd).mapM (payloadToRule parseRule) = .ok rules) ↔ Clean payload := by
  constructor
  · rintro ⟨segs, last, hcut, -⟩
    exact ⟨segs, last, hcut⟩
  · rintro ⟨segs, last, hcut⟩
    rw [hcut.eq, parsePayload_segmented hcut.toSegments] at h
    refine ⟨segs, last, hcut, ?_, h⟩
    rintro rfl
    obtain ⟨seg, segs, rfl⟩ := exists_cons_of_ne_nil hcut.ne_nil
    rw [map_cons, mapM_cons] at h
    cases hrule : payloadToRule parseRule seg.2 with
    | error e =>
      rw [hrule] at h
      cases h
    | ok rule =>
      rw [hrule] at h
      cases hrest : (segs.map Prod.snd).mapM (payloadToRule parseRule) <;> rw [hrest] at h <;>
        cases h

theorem nothing_dropped_two :
    ∃ segs last, Cut (lit "((A,), (A,))") segs last ∧ [Rule.leaf (), .leaf ()] ≠ [] ∧
      (segs.map Prod.snd).mapM (payloadToRule fun _ => .ok (.leaf ())) =
        .ok [.leaf (), .leaf ()] := by
  have hbalanced : Balanced openByte closeByte (lit "A,") :=
    .other (by decide) (by decide) (.other (by decide) (by decide) .nil)
  refine (nothing_dropped_iff rfl).mpr ⟨[([], lit "A,"), (lit ", ", lit "A,")], [], ?_⟩
  exact ⟨⟨by decide +kernel, by simpa using hbalanced⟩, by decide, by simp,
    by unfold Blank; decide +kernel⟩

/-- The condition without its own parentheses: the rule has none, and as an AND rule it matches
every connection. -/
theorem condition_dropped :
    parsePayload (fun p => .ok (.leaf p.payload)) (lit "(DOMAIN,a)") = .ok [] ∧
      parsePayload (fun p => .ok (.leaf p.payload)) (lit "(NETWORK,tcp,(DOMAIN,a))") =
        .ok [.leaf (lit "a")] :=
  ⟨rfl, rfl⟩

/-! ### Parsing the text of a tree -/

namespace Tree

variable {parser} {leafRule : (tp payload target : GoString) → L}

/-- The text of a rule inside the parentheses. -/
def inner (tree : Tree) : GoString := tree.tp ++ commaByte :: tree.payload

variable {ws : List GoString} {tree : Tree}

theorem item_eq (tree : Tree) : item tree.tp tree.payload = enclose tree.inner := by
  rw [item, enclose, inner]

section

variable (trees : List Tree)
include trees

theorem items_eq : items trees = (trees.map inner).map enclose := by
  induction trees with
  | nil => rfl
  | cons tree trees ih => rw [items, ih, item_eq, map_cons, map_cons]

theorem toRules_eq :
    toRules leafRule trees = trees.map (toRule leafRule []) := by
  induction trees with
  | nil => rfl
  | cons tree trees ih => rw [toRules, ih, map_cons]

theorem payload_and :
    (and trees).payload = enclose (join commaByte ((trees.map inner).map enclose)) := by
  rw [payload, items_eq, enclose]

theorem payload_or :
    (or trees).payload = enclose (join commaByte ((trees.map inner).map enclose)) := by
  rw [payload, items_eq, enclose]

end

theorem payload_not (tree : Tree) :
    (not tree).payload = enclose (join commaByte (([tree].map inner).map enclose)) := by
  rw [payload, item_eq, map_singleton, map_singleton, join_singleton]
  rfl

/-- What the text of a tree is like. -/
structure TextOk (tree : Tree) : Prop where
  type : TypeOk tree.tp
  trimmed : AllTrimmed tree.payload
  balanced : Balanced openByte closeByte tree.payload
  cut : tree.tp ∈ commaTypes ∨ commaByte ∉ tree.payload
  ne_nil : tree.payload ≠ []

theorem allTrimmed_enclose (h : AllTrimmed w) : AllTrimmed (enclose w) := by
  have hopen : AllTrimmed [openByte] := allTrimmed_of_not_mem (by decide) (by decide)
  have hclose : AllTrimmed [closeByte] := allTrimmed_of_not_mem (by decide) (by decide)
  exact hopen.append (h.append hclose)

theorem allTrimmed_join (h : ∀ w ∈ ws, AllTrimmed w) : AllTrimmed (join commaByte ws) := by
  induction ws with
  | nil => exact allTrimmed_of_not_mem (by decide) (by decide)
  | cons w ws ih =>
    obtain ⟨hw, hws⟩ := forall_mem_cons.mp h
    cases ws with
    | nil => simpa using hw
    | cons w' ws =>
      rw [join_cons_cons]
      exact hw.comma (ih hws)

theorem balanced_join (h : ∀ w ∈ ws, Balanced openByte closeByte w) :
    Balanced openByte closeByte (join commaByte ws) := by
  induction ws with
  | nil => exact .nil
  | cons w ws ih =>
    obtain ⟨hw, hws⟩ := forall_mem_cons.mp h
    cases ws with
    | nil => simpa using hw
    | cons w' ws =>
      rw [join_cons_cons]
      exact hw.append (.other (by decide) (by decide) (ih hws))

namespace TextOk

variable {tree : Tree}

theorem balanced_inner (h : tree.TextOk) : Balanced openByte closeByte tree.inner :=
  (Balanced.of_forall_ne h.type.no_paren).append (.other (by decide) (by decide) h.balanced)

theorem trimmed_inner (h : tree.TextOk) : AllTrimmed tree.inner :=
  (allTrimmed_of_not_mem h.type.no_comma h.type.trimmed).comma h.trimmed

/-- The text of a logic rule is fine if the texts of its rules are. -/
theorem of_groups {trees : List Tree} (hpayload : tree.payload =
      enclose (join commaByte ((trees.map inner).map enclose)))
    (htp : tree.tp ∈ [lit "AND", lit "OR", lit "NOT"]) (h : ∀ t ∈ trees, t.TextOk) :
    tree.TextOk := by
  have hcomma : ∀ tp ∈ [lit "AND", lit "OR", lit "NOT"], tp ∈ commaTypes := by decide
  have hgroup : ∀ w ∈ (trees.map inner).map enclose, ∃ t ∈ trees, w = enclose t.inner := by
    intro w hw
    obtain ⟨v, hv, rfl⟩ := mem_map.mp hw
    obtain ⟨t, ht, rfl⟩ := mem_map.mp hv
    exact ⟨t, ht, rfl⟩
  refine ⟨typeOk_of_mem (mem_append_right _ htp), ?_, ?_, .inl (hcomma _ htp), ?_⟩
  · rw [hpayload]
    refine allTrimmed_enclose (allTrimmed_join fun w hw => ?_)
    obtain ⟨t, ht, rfl⟩ := hgroup w hw
    exact allTrimmed_enclose (h t ht).trimmed_inner
  · rw [hpayload]
    refine (balanced_join fun w hw => ?_).enclose
    obtain ⟨t, ht, rfl⟩ := hgroup w hw
    exact (h t ht).balanced_inner.enclose
  · rw [hpayload]
    exact cons_ne_nil _ _

end TextOk

variable {target : GoString} {trees : List Tree}

theorem Ok.textOk (h : tree.Ok parser leafRule target) : tree.TextOk := by
  induction h with
  | leaf h =>
    exact ⟨typeOk_of_mem (mem_append_left _ h.type),
      allTrimmed_of_not_mem h.no_comma h.trimmed, h.balanced, .inr h.no_comma, h.ne_nil⟩
  | and _ ih => exact TextOk.of_groups (payload_and _) (by simp [tp]) ih
  | or _ ih => exact TextOk.of_groups (payload_or _) (by simp [tp]) ih
  | not _ ih => exact TextOk.of_groups (payload_not _) (by simp [tp]) (by simpa using ih)

/-- The payload of a rule is longer than those of the rules in it. -/
theorem length_payload_lt (h : tree ∈ trees) :
    tree.payload.length < (enclose (join commaByte ((trees.map inner).map enclose))).length := by
  have hle : (enclose tree.inner).length ≤
      (join commaByte ((trees.map inner).map enclose)).length := by
    induction trees with
    | nil => cases h
    | cons t trees ih =>
      have htail : ∀ ws : List GoString,
          (enclose t.inner).length ≤ (join commaByte (enclose t.inner :: ws)).length ∧
            (join commaByte ws).length ≤ (join commaByte (enclose t.inner :: ws)).length := by
        intro ws
        cases ws with
        | nil => simp [join]
        | cons w ws =>
          rw [join_cons_cons]
          simp only [length_append, length_cons]
          omega
      rw [map_cons, map_cons]
      rcases mem_cons.mp h with rfl | h
      · exact (htail _).1
      · exact (ih h).trans (htail _).2
  simp only [enclose, inner, length_append, length_cons] at hle ⊢
  omega

/-- The rules of a logic rule are parsed in their order. -/
theorem parsePayload_trees (hok : ∀ t ∈ trees, t.TextOk)
    {parseRule : RulePayload → Except RuleError (Rule L)}
    (h : ∀ t ∈ trees, parseRule ⟨t.tp, t.payload, [], []⟩ = .ok (t.toRule leafRule [])) :
    parsePayload parseRule (enclose (join commaByte ((trees.map inner).map enclose))) =
      .ok (toRules leafRule trees) := by
  rw [parsePayload_groups, mapM_map, toRules_eq]
  · refine mapM_eq_pure fun t ht => ?_
    have htp := (hok t ht).type
    have hitem := parseRulePayload_item htp (hok t ht).trimmed (hok t ht).cut
    simp only [Function.comp_apply, payloadToRule, inner, hitem]
    rw [if_neg (not_or.mpr ⟨htp.ne_match, htp.ne_sub⟩), if_neg htp.ne_nil, h t ht]
    rfl
  · intro w hw
    obtain ⟨t, ht, rfl⟩ := mem_map.mp hw
    exact (hok t ht).balanced_inner

section Types

variable {payload : GoString} (hne : payload ≠ []) {fuel : Nat} (target : GoString)

include hne

variable {rules : List (Rule L)}

section

variable (h : parsePayload (parsePlainRule parser fuel) payload = .ok rules)
include h

theorem parsePlainRule_and :
    parsePlainRule parser (fuel + 1) ⟨lit "AND", payload, target, []⟩ =
      .ok (.and target rules) := by
  rw [parsePlainRule, if_neg fun h => hne h.2, if_neg (not_mem_leafTypes (by simp)), if_pos rfl, h]
  rfl

theorem parsePlainRule_or :
    parsePlainRule parser (fuel + 1) ⟨lit "OR", payload, target, []⟩ = .ok (.or target rules) := by
  rw [parsePlainRule, if_neg fun h => hne h.2, if_neg (not_mem_leafTypes (by simp)),
    if_neg (by decide : lit "OR" ≠ lit "AND"), if_pos rfl, h]
  rfl

end

theorem parsePlainRule_not {rule : Rule L}
    (h : parsePayload (parsePlainRule parser fuel) payload = .ok [rule]) :
    parsePlainRule parser (fuel + 1) ⟨lit "NOT", payload, target, []⟩ = .ok (.not target rule) := by
  rw [parsePlainRule, if_neg fun h => hne h.2, if_neg (not_mem_leafTypes (by simp)),
    if_neg (by decide : lit "NOT" ≠ lit "AND"), if_neg (by decide : lit "NOT" ≠ lit "OR"),
    if_pos rfl, h]

end Types

/-- The type and payload of a tree are parsed to its rule. -/
theorem parsePlainRule_tree (h : tree.Ok parser leafRule target) {fuel : Nat}
    (hfuel : tree.payload.length < fuel) :
    parsePlainRule parser fuel ⟨tree.tp, tree.payload, target, []⟩ =
      .ok (tree.toRule leafRule target) := by
  induction h generalizing fuel with
  | @leaf target tp payload h =>
    obtain ⟨fuel, rfl⟩ := exists_eq_add_one_of_ne_zero (ne_zero_of_lt hfuel)
    have htp : (Tree.leaf tp payload).tp ∈ leafTypes := h.type
    have hleaf : parser.newLeaf (Tree.leaf tp payload).tp (Tree.leaf tp payload).payload target [] =
        .ok (leafRule tp payload target) := h.accepted
    rw [parsePlainRule, if_neg fun hnil => h.ne_nil hnil.2]
    rw [if_pos htp, hleaf]
    rfl
  | @and target trees hall ih =>
    obtain ⟨fuel, rfl⟩ := exists_eq_add_one_of_ne_zero (ne_zero_of_lt hfuel)
    rw [payload_and] at hfuel ⊢
    have hrules := parsePayload_trees (fun t ht => (hall t ht).textOk) fun t ht =>
      @ih t ht fuel ((length_payload_lt ht).trans_le (le_of_lt_succ hfuel))
    exact parsePlainRule_and (cons_ne_nil _ _) target hrules
  | @or target trees hall ih =>
    obtain ⟨fuel, rfl⟩ := exists_eq_add_one_of_ne_zero (ne_zero_of_lt hfuel)
    rw [payload_or] at hfuel ⊢
    have hrules := parsePayload_trees (fun t ht => (hall t ht).textOk) fun t ht =>
      @ih t ht fuel ((length_payload_lt ht).trans_le (le_of_lt_succ hfuel))
    exact parsePlainRule_or (cons_ne_nil _ _) target hrules
  | @not target tree hok ih =>
    obtain ⟨fuel, rfl⟩ := exists_eq_add_one_of_ne_zero (ne_zero_of_lt hfuel)
    rw [payload_not] at hfuel ⊢
    have hlt := length_payload_lt (mem_singleton_self tree)
    have hrules := @parsePayload_trees L leafRule [tree] (by simpa using hok.textOk)
      (parsePlainRule parser fuel) (by simpa using ih (hlt.trans_le (le_of_lt_succ hfuel)))
    exact parsePlainRule_not (cons_ne_nil _ _) target hrules

/-! ### The value of a tree -/

variable (leafRule) (env : LeafRules L M) (m : M)

mutual

theorem ruleMatch_toRule (target : GoString) :
    ∀ tree : Tree, ((tree.toRule leafRule target).ruleMatch env m).1 =
      tree.value leafRule env m target
  | leaf tp payload => by rw [toRule, Rule.ruleMatch, value]
  | and trees => by
    rw [toRule, Rule.ruleMatch, value, ← allMatch_toRules trees]
    cases Rule.allMatch env m (toRules leafRule trees) <;> rfl
  | or trees => by
    rw [toRule, Rule.ruleMatch, value, ← anyMatch_toRules trees]
    cases Rule.anyMatch env m (toRules leafRule trees) <;> rfl
  | not tree => by
    rw [toRule, Rule.ruleMatch, value, ← ruleMatch_toRule [] tree]
    cases ((tree.toRule leafRule []).ruleMatch env m).1 <;> rfl

theorem allMatch_toRules :
    ∀ trees : List Tree, Rule.allMatch env m (toRules leafRule trees) =
      allValues leafRule env m trees
  | [] => rfl
  | tree :: trees => by
    rw [toRules, Rule.allMatch, allValues, ruleMatch_toRule [] tree, allMatch_toRules trees]
    cases tree.value leafRule env m [] <;> rfl

theorem anyMatch_toRules :
    ∀ trees : List Tree, Rule.anyMatch env m (toRules leafRule trees) =
      anyValue leafRule env m trees
  | [] => rfl
  | tree :: trees => by
    rw [toRules, Rule.anyMatch, anyValue, ruleMatch_toRule [] tree, anyMatch_toRules trees]
    cases tree.value leafRule env m [] <;> rfl

end

/-- The line of a tree is parsed to a rule with the same rules at every level, and it matches
exactly if the tree has the value true over its leaves. -/
theorem parseLine_tree {target : GoString} {tree : Tree} (h : tree.Ok parser leafRule target)
    (htrim : trim blankByte target = target) (hcomma : commaByte ∉ target) :
    parseLine parser (tree.line target) = .ok (.plain (tree.toRule leafRule target)) ∧
      ∀ (env : LeafRules L M) (m : M),
        ((tree.toRule leafRule target).ruleMatch env m).1 = tree.value leafRule env m target := by
  have htext := h.textOk
  refine ⟨?_, fun env m => ruleMatch_toRule leafRule env m target tree⟩
  rw [parseLine, line, parseRulePayload_line htext.type htext.trimmed htext.cut htrim hcomma,
    parseRule]
  rw [if_neg htext.type.ne_sub, parsePlainRule_tree h (lt_succ_self _)]
  rfl

/-- The leaf parser that accepts every payload and keeps it. -/
def keepPayload : LeafParser GoString where
  newLeaf _ payload _ _ := .ok payload
  newMatch target := target

theorem parseLine_tree_example :
    let tree := Tree.and [.not (.leaf (lit "DOMAIN-REGEX") (lit "^(a|b)$")), .or []]
    tree.line (lit "DIRECT") = lit "AND,((NOT,((DOMAIN-REGEX,^(a|b)$))),(OR,())),DIRECT" ∧
    parseLine keepPayload (tree.line (lit "DIRECT")) =
        .ok (.plain (tree.toRule (fun _ payload _ => payload) (lit "DIRECT"))) ∧
      ∀ (env : LeafRules GoString Unit) (m : Unit),
        ((tree.toRule (fun _ payload _ => payload) (lit "DIRECT")).ruleMatch env m).1 =
          tree.value (fun _ payload _ => payload) env m (lit "DIRECT") := by
  have hgroup : Balanced openByte closeByte (lit "(a|b)$") :=
    @Balanced.group _ _ _ (lit "a|b") (lit "$") (.of_forall_ne (by decide +kernel))
      (.of_forall_ne (by decide +kernel))
  have hleaf : LeafOk keepPayload (fun _ payload _ => payload) [] (lit "DOMAIN-REGEX")
      (lit "^(a|b)$") :=
    ⟨by decide, by decide, by decide, .other (by decide) (by decide) hgroup, by decide, rfl⟩
  have hok : ∀ tree ∈ [Tree.not (.leaf (lit "DOMAIN-REGEX") (lit "^(a|b)$")), .or []],
      tree.Ok keepPayload (fun _ payload _ => payload) [] := by
    intro tree htree
    rcases mem_pair.mp htree with rfl | rfl
    · exact .not (.leaf hleaf)
    · exact .or nofun
  exact ⟨by decide, parseLine_tree (fun _ payload _ => payload) (.and hok) (by decide) (by decide)⟩

end Tree

end Hako.Rules
