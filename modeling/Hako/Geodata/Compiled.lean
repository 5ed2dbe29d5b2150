import Hako.Bind.MrsStream
import Hako.Geodata.Matcher
import Hako.GoLib.Strconv
import Hako.GoLib.Codec

/-!
# Compiled geosite lists

`Write` stores the set of a list and a text block with the residual entries, one on a line behind
its type and a tab. It leaves out the values with a tab or a newline, and it writes blocks of any
size, while `Read` refuses those above its limit. So a list is answered from its file as the list
without those entries, if its block is not too large.
-/

namespace Hako.Geodata

open GoLib GoLib.Binary Lib Trie Hako.Bind

/-! ### The text block -/

/-- `compiled.Residual` -/
structure Residual where
  type : Int32
  value : GoString
deriving DecidableEq

def tabByte : UInt8 := 0x09

def maximumResidualBytes : Nat := 2 ^ 20

/-- The check of `encodeResidual`: the value has neither of its separators. -/
def OneLine (value : GoString) : Prop := tabByte ∉ value ∧ newlineByte ∉ value

instance (value : GoString) : Decidable (OneLine value) :=
  inferInstanceAs (Decidable (tabByte ∉ value ∧ newlineByte ∉ value))

/-- A line, without its newline. -/
def residualLine (entry : Residual) : GoString :=
  formatInt entry.type.toInt ++ tabByte :: entry.value

def encodeResidual (residual : List Residual) : List UInt8 :=
  residual.flatMap fun entry =>
    if OneLine entry.value then residualLine entry ++ [newlineByte] else []

/-- Why a file is not read. -/
inductive CompiledError where
  | nilDomainSet
  /-- An error of the decompression. -/
  | zstd
  /-- An error of the stream, or of the set in it. -/
  | reader (e : ReadError)
  | notCompiled
  | behavior (b : UInt8)
  | extraLength
  | malformedEntry (line : GoString)
deriving DecidableEq

/-- One line of `decodeResidual`. -/
def decodeLine (line : GoString) : Except CompiledError Residual :=
  match line.idxOf? tabByte with
  | none => .error (.malformedEntry line)
  | some separator =>
    if separator = 0 then .error (.malformedEntry line)
    else
      match parseInt32 (line.take separator) with
      | none => .error (.malformedEntry line)
      | some kind => .ok ⟨Int32.ofInt kind, line.drop (separator + 1)⟩

def decodeResidual (extra : List UInt8) : Except CompiledError (List Residual) :=
  ((split newlineByte extra).filter (· ≠ [])).mapM decodeLine

/-! ### The file -/

/-- An error of the stream. -/
def ofReader {α : Type} : Except ReadError α → Except CompiledError α := Except.mapError .reader

/-- What the decoder gives. -/
def ofDecoder {α : Type} : Option α → Except CompiledError α
  | some a => .ok a
  | none => .error .zstd

section File

variable (z : Zstd)

/-- `Write` to a writer that does not fail. -/
def write (set : Option DomainSet) (count : Int) (residual : List Residual) :
    Except CompiledError (List UInt8) :=
  match set with
  | none => .error .nilDomainSet
  | some ss =>
    let extra := encodeResidual residual
    .ok (z.compress (mrsMagicBytes ++ ([RuleBehavior.domain.byte] ++
      (putUint64 (Int64.ofInt count).toUInt64 ++ (putUint64 (.ofNat extra.length) ++
        (extra ++ ss.writeBin))))))

/-- The text block of a file, which is missing if it is empty. -/
def readResidual (extraLength : Nat) (r : List UInt8) :
    Except CompiledError (List Residual × List UInt8) :=
  if 0 < extraLength then do
    let (extra, r) ← ofReader (readFull extraLength r)
    let residual ← decodeResidual extra
    return (residual, r)
  else .ok ([], r)

/-- `Read` -/
def read (content : List UInt8) : Except CompiledError (DomainSet × Int × List Residual) := do
  let r ← ofDecoder (z.decompress content)
  let (magic, r) ← ofReader (readFull 4 r)
  if magic ≠ mrsMagicBytes then throw .notCompiled
  else
    let (behavior, r) ← ofReader (readFull 1 r)
    if behavior ≠ [RuleBehavior.domain.byte] then throw (.behavior (behavior.headD 0))
    else
      let (count, r) ← ofReader (readUint64 r)
      let (extraLength, r) ← ofReader (readUint64 r)
      if extraLength.toInt64.toInt < 0 ∨ maximumResidualBytes < extraLength.toInt64.toInt then
        throw .extraLength
      else
        let (residual, r) ← readResidual extraLength.toNat r
        let (set, _) ← ofReader (readDomainSetBin r)
        return (set, count.toInt64.toInt, residual)

end File

def fromRouterResidual (residual : List ResidualDomain) : List Residual :=
  residual.map fun entry => ⟨entry.type, entry.value⟩

def toRouterResidual (residual : List Residual) : List ResidualDomain :=
  residual.map fun entry => ⟨entry.type, entry.value⟩

/-! ### Reading what was written -/

/-- A type that `encodeResidual` writes as `decodeResidual` reads it. -/
structure TypeOk (type : Int32) : Prop where
  parse : parseInt32 (formatInt type.toInt) = some type.toInt
  one_line : OneLine (formatInt type.toInt)
  ne_nil : formatInt type.toInt ≠ []

theorem typeOk_plain : TypeOk domainPlain := ⟨by decide, by decide, by decide⟩

theorem typeOk_regex : TypeOk domainRegex := ⟨by decide, by decide, by decide⟩

theorem idxOf?_append_cons {b : UInt8} {s : GoString} (h : b ∉ s) (t : GoString) :
    (s ++ b :: t).idxOf? b = some s.length := by
  induction s with
  | nil => simp [List.idxOf?_cons]
  | cons c s ih =>
    obtain ⟨hc, hs⟩ := not_or.mp (List.mem_cons.not.mp h)
    have hne : (c == b) = false := by simpa using Ne.symm hc
    rw [List.cons_append, List.idxOf?_cons, hne, ih hs]
    rfl

variable {entry : Residual} {residual : List Residual} {n : Nat} {ss : DomainSet}

theorem decodeLine_residualLine (h : TypeOk entry.type) :
    decodeLine (residualLine entry) = .ok entry := by
  have hlength : (formatInt entry.type.toInt).length ≠ 0 :=
    fun hzero => h.ne_nil (List.length_eq_zero_iff.mp hzero)
  unfold decodeLine residualLine
  rw [idxOf?_append_cons h.one_line.1]
  dsimp only
  rw [if_neg hlength, List.take_left, h.parse]
  simp

theorem newline_not_mem_residualLine (h : TypeOk entry.type)
    (hvalue : OneLine entry.value) : newlineByte ∉ residualLine entry := by
  rw [residualLine, List.mem_append, List.mem_cons]
  rintro (hmem | hmem | hmem)
  · exact h.one_line.2 hmem
  · exact absurd hmem (by decide)
  · exact hvalue.2 hmem

section

variable (h : ∀ entry ∈ residual, TypeOk entry.type)
include h

theorem split_encodeResidual :
    split newlineByte (encodeResidual residual) =
      (residual.filter (OneLine ·.value)).map residualLine ++ [[]] := by
  induction residual with
  | nil => exact split_of_not_mem List.not_mem_nil
  | cons entry residual ih =>
    obtain ⟨hentry, hrest⟩ := List.forall_mem_cons.mp h
    rw [encodeResidual, List.flatMap_cons, ← encodeResidual]
    by_cases hvalue : OneLine entry.value
    · rw [if_pos hvalue, List.append_assoc, List.singleton_append, split_append_sep,
        split_of_not_mem (newline_not_mem_residualLine hentry hvalue), ih hrest,
        List.filter_cons_of_pos (by simpa using hvalue)]
      rfl
    · rw [if_neg hvalue, List.nil_append, ih hrest, List.filter_cons_of_neg (by simpa using hvalue)]

/-- The block gives back the entries that are not left out. -/
theorem decodeResidual_encodeResidual :
    decodeResidual (encodeResidual residual) = .ok (residual.filter (OneLine ·.value)) := by
  have hlines : ((residual.filter (OneLine ·.value)).map residualLine).filter (· ≠ []) =
      (residual.filter (OneLine ·.value)).map residualLine := by
    refine List.filter_eq_self.mpr fun line hline => ?_
    obtain ⟨entry, -, rfl⟩ := List.mem_map.mp hline
    simp [residualLine]
  rw [decodeResidual, split_encodeResidual h, List.filter_append, hlines]
  simp only [ne_eq, not_true_eq_false, decide_false, Bool.false_eq_true, not_false_eq_true,
    List.filter_cons_of_neg, List.filter_nil, List.append_nil]
  rw [List.mapM_map]
  refine (mapM_eq_pure (g := id) fun entry hentry => ?_).trans (congrArg _ (List.map_id _))
  exact decodeLine_residualLine (h entry (List.mem_of_mem_filter hentry))

end

theorem readResidual_encodeResidual (r : List UInt8) (h : ∀ entry ∈ residual, TypeOk entry.type) :
    readResidual (encodeResidual residual).length (encodeResidual residual ++ r) =
      .ok (residual.filter (OneLine ·.value), r) := by
  rw [readResidual]
  split
  · rw [readFull_append rfl]
    change (decodeResidual _ >>= _) = _
    rw [decodeResidual_encodeResidual h]
    rfl
  · -- an empty block has no entry that is not left out
    rename_i hzero
    have hnil : encodeResidual residual = [] :=
      List.length_eq_zero_iff.mp (Nat.eq_zero_of_not_pos hzero)
    have hdecode := decodeResidual_encodeResidual h
    rw [hnil] at hdecode ⊢
    exact congrArg (fun entries => Except.ok (entries, r)) (Except.ok.inj hdecode)

theorem ofReader_ok {α : Type} (a : α) : ofReader (.ok a) = .ok a := rfl

/-- What `Read` makes of a header: the limit is checked, then the block and the set are read. -/
theorem read_header (z : Zstd) (count : UInt64) (hn : n < 2 ^ 63) (r : List UInt8) :
    read z (z.compress (mrsMagicBytes ++ ([RuleBehavior.domain.byte] ++ (putUint64 count ++
      (putUint64 (.ofNat n) ++ r))))) =
    if maximumResidualBytes < n then .error .extraLength
    else do
      let (residual, r) ← readResidual n r
      let (set, _) ← ofReader (readDomainSetBin r)
      return (set, count.toInt64.toInt, residual) := by
  have hmagic : ∀ r, readFull 4 (mrsMagicBytes ++ r) = .ok (mrsMagicBytes, r) := readFull_append rfl
  have hbehavior : ∀ r, readFull 1 ([RuleBehavior.domain.byte] ++ r) =
      .ok ([RuleBehavior.domain.byte], r) := readFull_append rfl
  simp only [read, z.decompress_compress, ofDecoder, ofReader_ok, ok_bind, hmagic, hbehavior,
    readUint64_putUint64, ne_eq, not_true_eq_false, if_false]
  rw [toInt_toInt64 hn, UInt64.toNat_ofNat_of_lt' (lt_trans hn (by decide))]
  by_cases hmax : maximumResidualBytes < n
  · rw [if_pos (.inr (Int.ofNat_lt.mpr hmax)), if_pos hmax]
    rfl
  · rw [if_neg hmax, if_neg]
    rintro (hneg | hlarge)
    · omega
    · exact hmax (Int.ofNat_lt.mp hlarge)

/-! ### Answers from a file -/

/-- The entries that a file keeps. -/
def Domain.Storable (d : Domain) : Prop := d.IsResidual → OneLine d.value

instance (d : Domain) : Decidable d.Storable :=
  inferInstanceAs (Decidable (d.IsResidual → OneLine d.value))

/-- The lengths of a set's slices are Go integers. -/
structure Addressable (ss : DomainSet) : Prop where
  leaves : ss.leaves.length < 2 ^ 63
  labelBitmap : ss.labelBitmap.length < 2 ^ 63
  labels : ss.labels.length < 2 ^ 63

variable {compile : GoString → Option (GoString → Bool)} {domains : List Domain}

theorem patternsOf_storable (domains : List Domain) :
    patternsOf (domains.filter (·.Storable)) = patternsOf domains := by
  induction domains with
  | nil => rfl
  | cons d domains ih =>
    by_cases hd : d.Storable
    · rw [List.filter_cons_of_pos (by simpa using hd)]
      simp only [patternsOf, List.filterMap_cons] at ih ⊢
      rw [ih]
    · -- what is left out is residual, so that the set does not have it
      have hres : d.IsResidual := not_not.mp fun hres => hd fun h => absurd h hres
      rw [List.filter_cons_of_neg (by simpa using hd), ih]
      exact (List.filterMap_cons_none (pattern_of_isResidual hres)).symm

theorem residualOf_storable (domains : List Domain) :
    residualOf (domains.filter (·.Storable)) = (residualOf domains).filter (OneLine ·.value) := by
  rw [residualOf, residualOf, List.filter_map, List.filter_filter, List.filter_filter]
  congr 1
  refine List.filter_congr fun d _ => ?_
  rw [Bool.eq_iff_iff]
  simp only [Function.comp_def, Bool.and_eq_true, decide_eq_true_iff]
  constructor
  · rintro ⟨hres, hline⟩
    exact ⟨hline hres, hres⟩
  · rintro ⟨hline, hres⟩
    exact ⟨hres, fun _ => hline⟩

theorem mem_residualOf {entry : ResidualDomain} (h : entry ∈ residualOf domains) :
    entry.type = domainPlain ∨ entry.type = domainRegex := by
  obtain ⟨d, hd, rfl⟩ := List.mem_map.mp h
  have hres := (List.mem_filter.mp hd).2
  exact of_decide_eq_true hres

theorem typeOk_of_mem {residual : List ResidualDomain}
    (h : ∀ entry ∈ residual, entry.type = domainPlain ∨ entry.type = domainRegex) :
    ∀ entry ∈ fromRouterResidual residual, TypeOk entry.type := by
  intro entry hentry
  obtain ⟨entry, hmem, rfl⟩ := List.mem_map.mp hentry
  rcases h entry hmem with hplain | hregex
  · exact hplain ▸ typeOk_plain
  · exact hregex ▸ typeOk_regex

theorem toRouterResidual_filter (residual : List ResidualDomain) :
    toRouterResidual ((fromRouterResidual residual).filter (OneLine ·.value)) =
      residual.filter (OneLine ·.value) := by
  rw [toRouterResidual, fromRouterResidual, List.filter_map, List.map_map]
  exact List.map_id _

theorem mapM_filter {ε α β : Type} {f : α → Except ε β} (p : α → Bool) {l : List α} {bs : List β}
    (h : l.mapM f = .ok bs) : ∃ bs', (l.filter p).mapM f = .ok bs' := by
  induction l generalizing bs with
  | nil => exact ⟨[], rfl⟩
  | cons a l ih =>
    rw [List.mapM_cons] at h
    obtain ⟨b, hb, h⟩ := bind_eq_ok.mp h
    obtain ⟨rest, hrest, -⟩ := bind_eq_ok.mp h
    obtain ⟨bs', hbs'⟩ := ih hrest
    by_cases ha : p a
    · exact ⟨b :: bs', by rw [List.filter_cons_of_pos ha, List.mapM_cons, hb, hbs']; rfl⟩
    · exact ⟨bs', by rw [List.filter_cons_of_neg ha, hbs']⟩

/-- A residual entry has a matcher in the map. -/
theorem newSuccinctMatcherFromParts_ok {residual : List ResidualDomain} {ms : List Matcher}
    (h : ∀ entry ∈ residual, entry.type = domainPlain ∨ entry.type = domainRegex)
    (hms : residual.mapM (residualMatcher compile) = .ok ms) (set : Option DomainSet)
    (count : Int) :
    newSuccinctMatcherFromParts compile set count residual = .ok ⟨set, ms, count⟩ := by
  have hloop : residual.mapM (partMatcher compile) = .ok ms := by
    rw [← hms]
    refine mapM_congr fun entry hentry => ?_
    rcases h entry hentry with htype | htype
    · rw [partMatcher, residualMatcher, htype]
      rfl
    · rw [partMatcher, residualMatcher, htype]
      rfl
  rw [newSuccinctMatcherFromParts, hloop]
  rfl

/-- The set of a list, if it has patterns, is read again and answers every domain. -/
theorem built_set {patterns : List GoString}
    (h : (DomainSetBuilder.insertAll patterns).build = some (some ss)) (haddr : Addressable ss) :
    (∀ r, readDomainSetBin (ss.writeBin ++ r) = .ok (ss, r)) ∧
      ∀ key, ∃ o, HasReturns (some ss) key o ∧ o ≠ .outOfRange := by
  have hkeys : (DomainSetBuilder.insertAll patterns).keys ≠ [] := by
    intro hnil
    rw [DomainSetBuilder.build, hnil] at h
    cases h
  obtain ⟨ss', nodes, hbuild, e, hleaves, hbitmap, hlabels⟩ :=
    build_encodes hkeys fun key hkey => ne_nil_of_mem_insertAll hkey
  cases h.symm.trans hbuild
  obtain ⟨hlength, degrees, more, hdegrees, hsum, hbits⟩ :=
    (validateTree_ok_iff _ _ _).mp (validateTree_of_encodes e)
  exact ⟨fun r => readDomainSetBin_writeBin r ⟨hleaves, haddr.leaves⟩ ⟨hbitmap, haddr.labelBitmap⟩
    ⟨hlabels, haddr.labels⟩, (wellformed_of_degrees hlength hdegrees hsum hbits).has_returns⟩

/-- What was written is read again, without the entries that are left out; a block above the
limit is refused. -/
theorem read_write (z : Zstd) (count : Int)
    (hss : ∀ r, readDomainSetBin (ss.writeBin ++ r) = .ok (ss, r))
    (htypes : ∀ entry ∈ residual, TypeOk entry.type)
    (hlength : (encodeResidual residual).length < 2 ^ 63) {content : List UInt8}
    (h : write z (some ss) count residual = .ok content) :
    read z content =
      if maximumResidualBytes < (encodeResidual residual).length then .error .extraLength
      else .ok (ss, (Int64.ofInt count).toUInt64.toInt64.toInt,
        residual.filter (OneLine ·.value)) := by
  cases h
  rw [read_header z _ hlength]
  congr 1
  rw [readResidual_encodeResidual _ htypes, ok_bind]
  have hset := hss []
  rw [List.append_nil] at hset
  dsimp only
  rw [hset]
  rfl

/-- For a list that is built, compiled and written, and whose text block is within the limit, the
file is read, and the matcher of what was read answers every domain as the matcher of the list
without the substrings and expressions that have a tab or a newline. -/
theorem answers_of_compiled (compile : GoString → Option (GoString → Bool)) (z : Zstd)
    {domains : List Domain} {m : SuccinctMatcher} {set : Option DomainSet} {count : Int}
    {residual : List ResidualDomain} {content : List UInt8}
    (hgroup : newSuccinctMatcherGroup compile domains = .ok m)
    (hcompile : compileDomains domains = .ok (set, count, residual))
    (hwrite : write z set count (fromRouterResidual residual) = .ok content)
    (haddr : ∀ ss ∈ set, Addressable ss)
    (hblock : (encodeResidual (fromRouterResidual residual)).length ≤ maximumResidualBytes) :
    ∃ ss n kept m' direct, read z content = .ok (ss, n, kept) ∧
      newSuccinctMatcherFromParts compile (some ss) n (toRouterResidual kept) = .ok m' ∧
      newSuccinctMatcherGroup compile (domains.filter (·.Storable)) = .ok direct ∧
      ∀ domain, ∃ answer, m'.Answers domain answer ∧ direct.Answers domain answer := by
  obtain ⟨⟨builder, hinsert, hset⟩, hothers, -⟩ := newSuccinctMatcherGroup_eq_ok.mp hgroup
  obtain ⟨hbuild, rfl⟩ := compileDomains_ok hcompile
  cases set with
  | none => cases hwrite
  | some ss =>
    obtain ⟨hss, hreturns⟩ := built_set hbuild (haddr ss rfl)
    have htypes := typeOk_of_mem fun entry hentry => @mem_residualOf domains entry hentry
    have hlength : (encodeResidual (fromRouterResidual (residualOf domains))).length < 2 ^ 63 :=
      Nat.lt_of_le_of_lt hblock (by decide)
    have hread := read_write z count hss htypes hlength hwrite
    rw [if_neg (Nat.not_lt.mpr hblock)] at hread
    -- both matchers have the matchers of the entries that are kept
    obtain ⟨ms, hms⟩ := mapM_filter (OneLine ·.value) hothers
    have hparts := newSuccinctMatcherFromParts_ok (fun entry hentry =>
      mem_residualOf (List.mem_of_mem_filter hentry)) hms (some ss)
    rw [build_of_foldlM hinsert] at hbuild
    refine ⟨ss, _, _, _, ⟨some ss, ms, (domains.filter (·.Storable)).length⟩, hread,
      (congrArg _ (toRouterResidual_filter _)).trans (hparts _), ?_, fun domain => ?_⟩
    · refine newSuccinctMatcherGroup_eq_ok.mpr ⟨⟨builder, ?_, hbuild⟩, ?_, rfl⟩
      · rw [patternsOf_storable]
        exact hinsert
      · rw [residualOf_storable]
        exact hms
    · obtain ⟨o, ho, hrange⟩ := hreturns domain
      obtain ⟨answer, hanswer⟩ := SuccinctMatcher.answers_of_hasReturns
        (m := ⟨some ss, ms, (domains.filter (·.Storable)).length⟩) ho hrange
      exact ⟨answer, hanswer.congr rfl rfl, hanswer⟩

/-! ### Lists with a substring -/

/-- The full domain `a` and a substring. -/
def listWith (value : GoString) : List Domain := [⟨domainFull, lit "a"⟩, ⟨domainPlain, value⟩]

/-- The set of `a`. -/
def singleSet : DomainSet := ⟨[2], [6], lit "a"⟩

theorem group_listWith (compile : GoString → Option (GoString → Bool)) (value : GoString) :
    newSuccinctMatcherGroup compile (listWith value) =
      .ok ⟨some singleSet, [.substr value], 2⟩ := rfl

theorem compileDomains_listWith (value : GoString) :
    compileDomains (listWith value) = .ok (some singleSet, 2, [⟨domainPlain, value⟩]) := rfl

theorem length_encodeResidual_single {value : GoString} (h : OneLine value) :
    (encodeResidual [⟨domainPlain, value⟩]).length = value.length + 3 := by
  have hformat : (formatInt domainPlain.toInt).length = 1 := by decide
  simp only [encodeResidual, List.flatMap_cons, List.flatMap_nil, List.append_nil, if_pos h,
    residualLine, List.length_append, List.length_cons, List.length_nil, hformat]
  omega

/-- A block above the limit is written and not read. -/
theorem read_listWith_replicate (hlarge : maximumResidualBytes < n + 3)
    (hn : n + 3 < 2 ^ 63) : ∃ content,
      write storedZstd (some singleSet) 2 [⟨domainPlain, List.replicate n 0x61⟩] = .ok content ∧
      read storedZstd content = .error .extraLength := by
  have hvalue : OneLine (List.replicate n 0x61) :=
    ⟨fun h => absurd (List.eq_of_mem_replicate h) (by decide),
      fun h => absurd (List.eq_of_mem_replicate h) (by decide)⟩
  have hlength := length_encodeResidual_single hvalue
  rw [List.length_replicate] at hlength
  refine ⟨_, rfl, (read_header storedZstd _ (hlength ▸ hn) _).trans (if_pos ?_)⟩
  rwa [hlength]

/-- Two lists that are built, compiled and written: the first one, with a tab for a substring, is
read without it, and the second one, with a substring of 2²⁰ bytes, is not read. -/
theorem listWith_not_restored :
    (∃ m set count residual content ss n kept m',
      newSuccinctMatcherGroup (fun _ => none) (listWith [tabByte]) = .ok m ∧
      compileDomains (listWith [tabByte]) = .ok (set, count, residual) ∧
      write storedZstd set count (fromRouterResidual residual) = .ok content ∧
      read storedZstd content = .ok (ss, n, kept) ∧
      newSuccinctMatcherFromParts (fun _ => none) (some ss) n (toRouterResidual kept) = .ok m' ∧
      m.Answers [tabByte] true ∧ m'.Answers [tabByte] false) ∧
    ∃ m set count residual content,
      newSuccinctMatcherGroup (fun _ => none)
        (listWith (List.replicate maximumResidualBytes 0x61)) = .ok m ∧
      compileDomains (listWith (List.replicate maximumResidualBytes 0x61)) =
        .ok (set, count, residual) ∧
      write storedZstd set count (fromRouterResidual residual) = .ok content ∧
      read storedZstd content = .error .extraLength := by
  constructor
  · exact ⟨_, _, _, _, _, singleSet, 2, [], ⟨some singleSet, [], 2⟩, group_listWith _ _,
      compileDomains_listWith _, rfl, by decide, rfl, ⟨10, by decide⟩, ⟨10, by decide⟩⟩
  · obtain ⟨content, hwrite, hread⟩ := @read_listWith_replicate maximumResidualBytes
      (by omega) (by decide)
    exact ⟨_, _, _, _, content, group_listWith _ _, compileDomains_listWith _, hwrite, hread⟩

/-- The list of the full domain `a` and the substring `b`: read, and answered in the same way. -/
theorem answers_of_compiled_listWith :
    ∃ content, write storedZstd (some singleSet) 2 [⟨domainPlain, lit "b"⟩] = .ok content ∧
      ∃ ss n kept m' direct, read storedZstd content = .ok (ss, n, kept) ∧
        newSuccinctMatcherFromParts (fun _ => none) (some ss) n (toRouterResidual kept) = .ok m' ∧
        newSuccinctMatcherGroup (fun _ => none)
          ((listWith (lit "b")).filter (·.Storable)) = .ok direct ∧
        ∀ domain, ∃ answer, m'.Answers domain answer ∧ direct.Answers domain answer := by
  refine ⟨_, rfl, answers_of_compiled (fun _ => none) storedZstd (group_listWith _ (lit "b"))
    (compileDomains_listWith (lit "b")) rfl ?_ (by decide)⟩
  rintro ss ⟨⟩
  exact ⟨by decide, by decide, by decide⟩

end Hako.Geodata
