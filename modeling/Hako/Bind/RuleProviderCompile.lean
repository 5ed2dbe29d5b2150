import Hako.Bind.MrsStream
import Hako.GoLib.TrimSpace
import Hako.GoLib.Codec
import Hako.Rules.Parse

/-!
# Compiling classical rule providers

A classical rule provider with domain rules only is turned into a list of domain patterns, one on a
line, which the domain strategy reads as the text format and stores as a set. The artifact is
checked before it is kept, and loaded again by the tunnel. Each stage has its own idea of which
texts it passes on, and none of them reads a source as the provider does that is not compiled.
-/

namespace Hako.Bind

open GoLib Lib Trie

/-! ### The scan -/

/-- The kinds of rules that the domain strategy can store. -/
inductive DomainKind where
  | domain
  | domainSuffix
deriving DecidableEq

/-- The kind and the value of a line. -/
structure ScannedRule where
  kind : DomainKind
  value : GoString
deriving DecidableEq

/-- The domain that `emit` is called with. -/
def ScannedRule.text (rule : ScannedRule) : GoString :=
  match rule.kind with
  | .domain => rule.value
  | .domainSuffix => lit "+." ++ rule.value

/-- Why a source is not compiled. -/
inductive Refusal where
  | alreadyCompiled
  | notClassical (lineNumber bytes : Nat)
  | holds (kind : GoString)
  | noDomainRules
  | emptyRule
  | nilDomainSet
  | unreadable (text : String)
  /-- A panic of the construction of the set. -/
  | outOfRange
deriving DecidableEq

def slashByte : UInt8 := 0x2F
def hashByte : UInt8 := 0x23

/-- ``strings.Trim(s, `'"`)`` -/
def trimQuotes (s : GoString) : GoString :=
  let quote (b : UInt8) : Bool := b = 0x27 || b = 0x22
  ((s.dropWhile quote).reverse.dropWhile quote).reverse

/-- A line behind its comment and quotes: the part in front of a comment, none if nothing is
left. -/
def stripComment (line : GoString) : Option GoString :=
  match cut (lit " #") line with
  | some (line, _) => if trimSpace line = [] then none else some (trimSpace line)
  | none => some line

/-- The value of a rule, without the parameters behind it. -/
def ruleValue (value : GoString) : GoString :=
  match cut (lit ",") (trimSpace value) with
  | some (value, _) => trimSpace value
  | none => trimSpace value

/-- A line that is not empty: its kind and value. -/
def scanRule (lineNumber : Nat) (line : GoString) : Except Refusal ScannedRule :=
  match cut (lit ",") line with
  | none => .error (.notClassical lineNumber line.length)
  | some (kind, value) =>
    let kind := toUpper (trimSpace kind)
    if kind = lit "DOMAIN" then .ok ⟨.domain, ruleValue value⟩
    else if kind = lit "DOMAIN-SUFFIX" then .ok ⟨.domainSuffix, ruleValue value⟩
    else .error (.holds kind)

/-- One round of `classicalDomainScan`; none if the line is skipped. -/
def scanLine (lineNumber : Nat) (raw : GoString) : Except Refusal (Option ScannedRule) :=
  let line := trimSpace raw
  if line = [] ∨ (lit "#").isPrefixOf line ∨ (lit "//").isPrefixOf line then .ok none
  else
    let line := trimQuotes (trimSpace (trimStart line (lit "- ")))
    if line = [] then .ok none
    else if line = lit "payload:" ∨ line = lit "---" then .ok none
    else
      match stripComment line with
      | none => .ok none
      | some line => (scanRule lineNumber line).map some

def scanLines : Nat → List GoString → Except Refusal (List ScannedRule)
  | _, [] => .ok []
  | index, raw :: raws => do
    let rule ← scanLine (index + 1) raw
    let rules ← scanLines (index + 1) raws
    return rule.toList ++ rules

/-- `classicalDomainScan`, and `domainsFromClassical` before the values are written out. -/
def classicalDomainScan (source : List UInt8) : Except Refusal (List ScannedRule) := do
  let rules ← scanLines 0 (split newlineByte source)
  if rules = [] then throw .noDomainRules else return rules

/-! ### The domain strategy -/

structure DomainStrategy where
  count : Int
  domainSetBuilder : DomainSetBuilder
  domainSet : Option DomainSet

namespace DomainStrategy

def reset : DomainStrategy := ⟨0, ⟨[]⟩, none⟩

def insert (d : DomainStrategy) (rule : GoString) : DomainStrategy :=
  if slashByte ∈ rule then d
  else
    match d.domainSetBuilder.insert rule with
    | .error _ => d
    | .ok builder => { d with domainSetBuilder := builder, count := d.count + 1 }

/-- `FinishInsert`; none if an index is out of range. -/
def finishInsert (d : DomainStrategy) : Option DomainStrategy :=
  d.domainSetBuilder.build.map fun set => ⟨d.count, ⟨[]⟩, set⟩

/-- `Match` returns an answer. -/
def Answers (d : DomainStrategy) (host : GoString) (answer : Bool) : Prop :=
  HasReturns d.domainSet host (if answer then .found else .notFound)

end DomainStrategy

/-! ### The formats -/

/-- The lines of a buffer, each with its newline. -/
def bufferLines : List UInt8 → List GoString
  | [] => []
  | b :: buf =>
    if b = newlineByte then [b] :: bufferLines buf
    else
      match bufferLines buf with
      | [] => [[b]]
      | line :: lines => (b :: line) :: lines

/-- One round of `rulesParse` for the text format: the rule that is inserted. -/
def textRule (line : GoString) : Option GoString :=
  let str := trimSpace line
  if str = [] then none
  else if str.head? = some hashByte then none
  else if (lit "//").isPrefixOf str then none
  else some str

/-- `RulePayload` -/
structure RulePayload where
  payload : List GoString
  rules : List GoString

/-- `yaml.Unmarshal` into a payload that has been used before, and whether it succeeds. -/
abbrev Unmarshal := List UInt8 → RulePayload → RulePayload × Bool

section Yaml

variable (unmarshal : Unmarshal)

/-- One round of `rulesParse` for the YAML format: `firstLineBuffer` with the head of the list, or
empty before it is found, the payload, and the rule that is inserted. -/
def yamlRule (firstLine : List UInt8) (schema : RulePayload) (line : GoString) :
    List UInt8 × RulePayload × Option GoString :=
  let trimLine := trimSpace line
  if trimLine = [] ∨ trimLine.head? = some hashByte then (firstLine, schema, none)
  else if firstLine = [] then
    -- a head is a line that can have a test line below it
    let (schema, ok) := unmarshal (line ++ lit "  - ''") schema
    (if ok ∧ (schema.rules ≠ [] ∨ schema.payload ≠ []) then line else [], schema, none)
  else
    let (schema, ok) := unmarshal (firstLine ++ line) schema
    (firstLine, schema, if ok then (schema.payload ++ schema.rules).head?.filter (· ≠ []) else none)

/-- The rules that `rulesParse` inserts for the YAML format; none for `ErrNoPayload`. -/
def yamlRules : List UInt8 → RulePayload → List GoString → Option (List GoString)
  | _, _, [] => some []
  | firstLine, schema, line :: lines =>
    -- only the last line may have no newline
    if line.getLast? ≠ some newlineByte ∧ firstLine = [] then none
    else
      let (firstLine, schema, rule) := yamlRule unmarshal firstLine schema line
      (yamlRules firstLine schema lines).map (rule.toList ++ ·)

/-- The formats that are not compiled. -/
inductive RuleFormat where
  | yaml
  | text

/-- The rules that `rulesParse` inserts. -/
def insertedRules (buf : List UInt8) : RuleFormat → Option (List GoString)
  | .yaml => yamlRules unmarshal [] ⟨[], []⟩ (bufferLines buf)
  | .text => some ((bufferLines buf).filterMap textRule)

end Yaml

/-- `rulesParse` with the domain strategy for the text format; none if an index is out of range. -/
def rulesParse (buf : List UInt8) : Option DomainStrategy :=
  (((bufferLines buf).filterMap textRule).foldl DomainStrategy.insert .reset).finishInsert

/-! ### The artifact -/

section Artifact

variable (z : Zstd)

/-- `ConvertToMrs` for domains in the text format. -/
def convertToMrs (buf : List UInt8) : Except Refusal (List UInt8) :=
  match rulesParse buf with
  | none => .error .outOfRange
  | some strategy =>
    if strategy.count = 0 then .error .emptyRule
    else
      match strategy.domainSet with
      | none => .error .nilDomainSet
      | some ss => .ok (z.compress
        (domainHeader (Int64.ofInt strategy.count).toUInt64 [] ++ ss.writeBin))

/-- `age.FileHeader` -/
def ageFileHeader : GoString := lit "-----BEGIN AGE ENCRYPTED FILE-----"

/-- `inspectMRSForIOS` -/
def inspectMRSForIOS (payload : List UInt8) (expectedBehavior : RuleBehavior) :
    Except String Int :=
  match z.decompress payload with
  | none => .error "decode MRS payload"
  | some decoded =>
    if decoded = [] ∨ maximumProviderResourceBytes < decoded.length then
      .error "decoded MRS payload exceeds the iOS provider limit"
    else inspectMRSStream (openCursor decoded) expectedBehavior

/-- `ProviderEntryCountForIOS` for rules in the MRS format. -/
def providerEntryCountForIOS (behavior : RuleBehavior) (payload : List UInt8) :
    Except String Int :=
  if payload = [] ∨ maximumProviderResourceBytes < payload.length then
    .error "hako: provider payload size is invalid"
  else if ageFileHeader.isPrefixOf payload then
    .error "hako: encrypted provider was not decrypted"
  else inspectMRSForIOS z payload behavior

/-- The text that the domain strategy is given. -/
def classicalPayload (rules : List ScannedRule) : List UInt8 :=
  join newlineByte (rules.map ScannedRule.text) ++ [newlineByte]

/-- `compileRuleProviderPayload` for the behavior `classical`. -/
def compileRuleProviderPayload (source : List UInt8) (format : GoString) :
    Except Refusal (List UInt8) :=
  if toLower (trimSpace format) = lit "mrs" then .error .alreadyCompiled
  else do
    let rules ← classicalDomainScan source
    let artifact ← convertToMrs z (classicalPayload rules)
    match providerEntryCountForIOS z .domain artifact with
    | .error text => throw (.unreadable text)
    | .ok _ => return artifact

/-- `rulesMrsParse` with the domain strategy. -/
def rulesMrsParse (buf : List UInt8) : Except ReadError DomainStrategy :=
  match z.decompress buf with
  | none => .error (.invalid "zstd")
  | some r => do
    let (header, r) ← readFull 4 r
    if header ≠ mrsMagicBytes then throw (.invalid "invalid MrsMagic bytes")
    else
      let (behavior, r) ← readFull 1 r
      if behavior ≠ [RuleBehavior.domain.byte] then throw (.invalid "invalid behavior")
      else
        let (count, r) ← readUint64 r
        let (length, r) ← readUint64 r
        if length.toInt64.toInt < 0 then throw (.invalid "length is invalid")
        else
          let (_, r) ← readFull length.toNat r
          let (set, _) ← readDomainSetBin r
          return ⟨count.toInt64.toInt, ⟨[]⟩, some set⟩

end Artifact

/-! ### The rules without compilation -/

/-- `Domain` and `DomainSuffix`. -/
inductive DomainRule where
  | domain (domain : GoString)
  | domainSuffix (suffix : GoString)
deriving DecidableEq

def newDomain (domain : GoString) : DomainRule := .domain (toLower domain)

def newDomainSuffix (suffix : GoString) : DomainRule := .domainSuffix (toLower suffix)

/-- `Match` -/
def DomainRule.matchesHost : DomainRule → GoString → Bool
  | .domain d, host => host = d
  | .domainSuffix suffix, host => (domainStepByte :: suffix) <:+ host ∨ host = suffix

/-- The rule that the scan takes a line for. -/
def ScannedRule.rule (rule : ScannedRule) : DomainRule :=
  match rule.kind with
  | .domain => newDomain rule.value
  | .domainSuffix => newDomainSuffix rule.value

/-- `payloadToRule` of the classical strategy; none for a rule that is refused, or no domain
rule. -/
def payloadToRule (rule : GoString) : Option DomainRule :=
  let p := Rules.parseRulePayload rule false
  if p.payload = [] then none
  else if p.tp = lit "DOMAIN" then some (newDomain p.payload)
  else if p.tp = lit "DOMAIN-SUFFIX" then some (newDomainSuffix p.payload)
  else none

/-- The domain rules of a provider with the classical strategy; it has none before `rulesParse` has
succeeded. -/
def classicalRules (unmarshal : Unmarshal) (buf : List UInt8) (format : RuleFormat) :
    List DomainRule :=
  ((insertedRules unmarshal buf format).getD []).filterMap payloadToRule

end Hako.Bind
