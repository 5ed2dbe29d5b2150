import Hako.GoLib.Strconv

/-!
# The names of imported proxies

The importer of share links and the converter of subscriptions give a repeated name a number at
its end.
-/

namespace Hako.ProxyImport

open GoLib List Function

/-- The format `%02d`. -/
def formatTwo (k : Nat) : GoString := if k < 10 then 0x30 :: itoa k else itoa k

/-- The format `%s-%02d`. -/
def numbered (name : GoString) (k : Nat) : GoString := name ++ 0x2D :: formatTwo k

/-- A parsed proxy: a name that is missing is empty, and the port is its text. -/
structure Proxy where
  name : GoString
  server : GoString
  port : Option GoString

/-- The name before it is numbered, empty if there is neither a name nor a server. -/
def Proxy.base (proxy : Proxy) : GoString :=
  if proxy.name ≠ [] then proxy.name
  else if proxy.server = [] then []
  else
    match proxy.port with
    | none => proxy.server
    | some port => proxy.server ++ 0x3A :: port

def makeProxyImportNameUnique (proxy : Proxy) (seen : GoString → Nat) :
    Proxy × (GoString → Nat) :=
  let name := proxy.base
  if name = [] then (proxy, seen)
  else
    let count := seen name
    ({ proxy with name := if count > 0 then numbered name count else name },
      update seen name (count + 1))

/-- The loop of `convertProxyShareLinks` over the parsed proxies. -/
def importNames : (GoString → Nat) → List Proxy → List Proxy
  | _, [] => []
  | seen, proxy :: proxies =>
    let (proxy, seen) := makeProxyImportNameUnique proxy seen
    proxy :: importNames seen proxies

def uniqueName (names : GoString → Option Nat) (name : GoString) :
    GoString × (GoString → Option Nat) :=
  match names name with
  | some index => (numbered name (index + 1), update names name (some (index + 1)))
  | none => (name, update names name (some 0))

/-- The names of the links that `ConvertsV2Ray` converts. -/
def uniqueNames : (GoString → Option Nat) → List GoString → List GoString
  | _, [] => []
  | names, name :: rest =>
    let (name, names) := uniqueName names name
    name :: uniqueNames names rest

/-! ### Numbers at the end of a name -/

theorem digitsVal_map {cs : List Char} (h : ∀ c ∈ cs, c.isDigit) (n : Nat) :
    digitsVal n (cs.map fun c => c.toNat.toUInt8) = some (Nat.ofDigitChars 10 cs n) := by
  induction cs generalizing n with
  | nil => rfl
  | cons c cs ih =>
    obtain ⟨hc, hcs⟩ := forall_mem_cons.mp h
    have hdigit : 48 ≤ c.toNat ∧ c.toNat ≤ 57 := by
      simpa [Char.isDigit, UInt32.le_iff_toNat_le] using hc
    have hbyte : c.toNat.toUInt8.toNat = c.toNat := by
      simp
      omega
    have hval : digitVal c.toNat.toUInt8 = some (c.toNat - 48) := by
      rw [digitVal, hbyte, if_pos hdigit]
    rw [map_cons, digitsVal, hval, Option.bind_some, ih hcs]
    rfl

variable (k : Nat) (seen : GoString → Nat) (ns : List GoString)

theorem digitsVal_formatTwo : digitsVal 0 (formatTwo k) = some k := by
  have hitoa : digitsVal 0 (itoa k) = some k := by
    rw [itoa, digitsVal_map fun c => Nat.isDigit_of_mem_toDigits (by decide) (by decide),
      Nat.ofDigitChars_toDigits (by decide) (by decide)]
  rw [formatTwo]
  split_ifs
  · exact hitoa
  · exact hitoa

/-- No digit is a dash. -/
theorem dash_notMem_formatTwo : 0x2D ∉ formatTwo k := by
  have hdigits : ∀ (s : GoString) n, (digitsVal n s).isSome → 0x2D ∉ s := by
    intro s
    induction s with
    | nil => simp
    | cons b s ih =>
      intro n hsome hmem
      obtain ⟨v, hv⟩ := Option.isSome_iff_exists.mp hsome
      obtain ⟨d, hd, hrest⟩ := Option.bind_eq_some_iff.mp hv
      rcases mem_cons.mp hmem with rfl | hmem
      · cases hd
      · exact ih _ (by rw [hrest]; rfl) hmem
  exact hdigits _ 0 (by rw [digitsVal_formatTwo]; rfl)

theorem numbered_inj {n m : GoString} {k j : Nat} (h : numbered n k = numbered m j) :
    n = m ∧ k = j := by
  have hk := dash_notMem_formatTwo k
  have hj := dash_notMem_formatTwo j
  have hdigits : n = m ∧ formatTwo k = formatTwo j := by
    rcases append_eq_append_iff.mp h with ⟨_ | ⟨b, t⟩, hm, ht⟩ | ⟨_ | ⟨b, t⟩, hn, ht⟩ <;> grind
  refine ⟨hdigits.1, ?_⟩
  have hval := digitsVal_formatTwo k
  rw [hdigits.2, digitsVal_formatTwo] at hval
  exact (Option.some.inj hval).symm

/-! ### Occurrences -/

/-- Each name with the number of those like it before. -/
def occurrences (seen : GoString → Nat) : List GoString → List (GoString × Nat)
  | [] => []
  | n :: ns => (n, seen n) :: occurrences (update seen n (seen n + 1)) ns

def label (o : GoString × Nat) : GoString := if o.2 > 0 then numbered o.1 o.2 else o.1

theorem mem_occurrences {seen : GoString → Nat} {ns : List GoString} {n : GoString} {k : Nat} :
    (n, k) ∈ occurrences seen ns ↔ seen n ≤ k ∧ k < seen n + ns.count n := by
  induction ns generalizing seen with
  | nil => simp [occurrences]
  | cons m ns ih =>
    rw [occurrences, mem_cons, ih, count_cons]
    grind

theorem occurrences_nodup : (occurrences seen ns).Nodup := by
  induction ns generalizing seen with
  | nil => exact nodup_nil
  | cons m ns ih =>
    refine nodup_cons.mpr ⟨?_, ih _⟩
    rw [mem_occurrences, update_self]
    omega

/-- No repeated name, with one of its numbers, is itself in the list. -/
def Unnumbered (ns : List GoString) : Prop := ∀ n k, 0 < k → k < ns.count n → numbered n k ∉ ns

theorem labels_nodup_iff : ((occurrences (fun _ => 0) ns).map label).Nodup ↔ Unnumbered ns := by
  rw [nodup_map_iff_inj_on (occurrences_nodup _ _)]
  constructor
  · intro hinj n k hk hcount hmem
    have heq := hinj (n, k) (mem_occurrences.mpr ⟨k.zero_le, by omega⟩) (numbered n k, 0)
      (mem_occurrences.mpr ⟨le_rfl, by simpa using hmem⟩) (by simp [label, hk])
    simp only [Prod.mk.injEq] at heq
    omega
  · rintro hun ⟨n, k⟩ hn ⟨m, j⟩ hm heq
    rw [mem_occurrences] at hn hm
    have hn' : n ∈ ns := count_pos_iff.mp (by omega)
    have hm' : m ∈ ns := count_pos_iff.mp (by omega)
    simp only [label] at heq
    -- two generated names differ, and so do two given ones: only a mixed pair can meet
    split_ifs at heq with hk hj hj
    · obtain ⟨rfl, rfl⟩ := numbered_inj heq
      rfl
    · exact absurd (heq ▸ hm') (hun n k hk (by omega))
    · exact absurd (heq ▸ hn') (hun m j hj (by omega))
    · rw [heq, show k = j by omega]

def bases (proxies : List Proxy) : List GoString := (proxies.map Proxy.base).filter (· ≠ [])

theorem importNames_eq (proxies : List Proxy) :
    ((importNames seen proxies).map Proxy.name).filter (· ≠ []) =
      (occurrences seen (bases proxies)).map label := by
  induction proxies generalizing seen with
  | nil => rfl
  | cons proxy proxies ih =>
    by_cases hbase : proxy.base = []
    · -- neither a name nor a server: the proxy is not counted
      have hname : proxy.name = [] := by
        by_contra hname
        simp [Proxy.base, hname] at hbase
      simpa [importNames, makeProxyImportNameUnique, bases, hbase, hname] using ih seen
    · have hlabel : label (proxy.base, seen proxy.base) ≠ [] := by
        rw [label]
        split_ifs <;> simp [numbered, hbase]
      have hcons : bases (proxy :: proxies) = proxy.base :: bases proxies := by
        simp [bases, hbase]
      rw [hcons, occurrences, map_cons, ← ih, importNames, makeProxyImportNameUnique, if_neg hbase,
        map_cons, filter_cons_of_pos (by simpa [label] using hlabel)]
      rfl

theorem uniqueNames_eq (names : GoString → Option Nat) (ns : List GoString) :
    uniqueNames names ns = (occurrences (fun n => (names n).elim 0 (· + 1)) ns).map label := by
  induction ns generalizing names with
  | nil => rfl
  | cons n ns ih =>
    have hseen (k : Nat) : (fun m => (update names n (some k) m).elim 0 (· + 1)) =
        update (fun m => (names m).elim 0 (· + 1)) n (k + 1) := by
      grind
    cases hn : names n with
    | none | some index => simp [uniqueNames, uniqueName, hn, occurrences, ih, label, hseen]

/-- The names that are not empty are distinct exactly if no generated name is also given. -/
theorem names_nodup_iff (proxies : List Proxy) (names : List GoString) :
    ((((importNames (fun _ => 0) proxies).map Proxy.name).filter (· ≠ [])).Nodup ↔
      Unnumbered (bases proxies)) ∧
    ((uniqueNames (fun _ => none) names).Nodup ↔ Unnumbered names) := by
  rw [importNames_eq, uniqueNames_eq]
  exact ⟨labels_nodup_iff _, labels_nodup_iff _⟩

/-- Two proxies `a` before one that is called `a-01`. -/
theorem names_collide :
    (importNames (fun _ => 0) ([lit "a", lit "a", lit "a-01"].map fun n => ⟨n, [], none⟩)).map
        Proxy.name = [lit "a", lit "a-01", lit "a-01"] ∧
      uniqueNames (fun _ => none) [lit "a", lit "a", lit "a-01"] =
        [lit "a", lit "a-01", lit "a-01"] := by
  decide

end Hako.ProxyImport
