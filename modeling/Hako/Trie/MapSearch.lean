import Hako.Trie.DomainMap

/-!
# `Lookup` against `Search`

The tree of a domain map holds its entries under keys, the trie under label sequences. `match`
reads the labels of a query one after the other, and each node it visits holds the entries behind
the labels read so far. So it finds what the backtracking search over the label sequences finds,
and the rank of the leaf gives the value that was inserted last.
-/

namespace Hako.Trie

open GoLib Lib List Option DomainMapBuilder DomainMapIndex Nat Indexed

variable {T : Type*} {kv : GoString → Option T} {V : List GoString → Option T}

/-- The values `V` by label sequence and `kv` by key are the same entries, where the key of a
sequence stands behind `x`. -/
structure Labelled (kv : GoString → Option T) (V : List GoString → Option T) (x : GoString) :
    Prop where
  ok : ∀ path, (V path).isSome → PathOk path
  value : ∀ path, path ≠ [] → PathOk path → V path = kv (x ++ spell path)
  key : ∀ v, (kv (x ++ v)).isSome → KeySet (fun path => (V path).isSome) v

namespace Labelled

variable {x : GoString} {l : GoString} (h : Labelled kv V x)
include h

theorem value_eq_none {path : List GoString} (hne : path ≠ [])
    (hnone : kv (x ++ spell path) = none) : V path = none := by
  by_contra hsome
  have hok := h.ok path (isSome_iff_ne_none.mpr hsome)
  exact hsome ((h.value path hne hok).trans hnone)

/-- The entries behind a label. -/
theorem behind_label (hl : LabelOk l) (hne : l ≠ dotWildcard) :
    Labelled kv (below V l) (x ++ labelKey l ++ [domainStepByte]) := by
  refine ⟨fun path hpath => (h.ok _ hpath).tail, fun path hpath hok => ?_, fun v hv => ?_⟩
  · obtain ⟨p, ps, rfl⟩ := exists_cons_of_ne_nil hpath
    have hcons : PathOk (l :: p :: ps) := by
      refine ⟨forall_mem_cons.mpr ⟨hl, hok.labels⟩, ?_⟩
      exact forall_mem_cons.mpr ⟨hne, hok.dots⟩
    rw [below, h.value _ (cons_ne_nil _ _) hcons, spell_cons, spellTail]
    simp
  · have hkey := h.key (labelKey l ++ domainStepByte :: v) (by simpa using hv)
    have hbehind := congrFun (keySet_behind h.ok hl) v
    exact hbehind ▸ hkey

/-- Nothing is found behind a label that no key goes on with. -/
theorem bestValue_eq_none
    (hnone : complexWildcardByte ∈ l ∨ ∀ rest, kv (x ++ (labelKey l ++ rest)) = none)
    (ls : List GoString) : bestValue (below V l) ls = none := by
  have hbelow : below V l = fun _ => none := by
    funext path
    rcases hnone with hplus | hnone
    · by_contra hsome
      have hok := h.ok (l :: path) (isSome_iff_ne_none.mpr hsome)
      exact (hok.labels l mem_cons_self).no_plus hplus
    · exact h.value_eq_none (cons_ne_nil _ _) (by rw [spell_cons, hnone])
  rw [hbelow, bestValue_none]

theorem value_label (hl : LabelOk l) : V [l] = kv (x ++ labelKey l) := by
  rw [h.value [l] (cons_ne_nil _ _) ⟨by simpa using hl, by simp⟩]
  simp [spell_cons, spellTail]

end Labelled

/-! ### Nodes -/

/-- The keys below a node are the keys that go on from its path. -/
def Holds (kv : GoString → Option T) (n : QElt) : Prop :=
  ∀ rest, rest ∈ n.rests ↔ (kv (n.path ++ rest)).isSome

variable {v : Option T} {p : GoString} {ps path qs : List GoString}

theorem Holds.descend {n : QElt} (h : Holds kv n) (w : GoString) :
    Holds kv (descend n w) := by
  intro rest
  rw [mem_descend, path_descend, h, append_assoc]

/-- A result of `match` is the leaf of the value, or tells that there is none. -/
structure Answers (kv : GoString → Option T) (nodes : List QElt) (r : Option Nat)
    (v : Option T) : Prop where
  leaf : ∀ id, r = some id → ∃ n, nodes[id]? = some n ∧ n.isLeaf = true ∧ kv n.path = v
  found : r.isSome = v.isSome

variable {nodes : List QElt} {l q : GoString} {ss : DomainSet}

theorem answers_none : Answers kv nodes none (none : Option T) := ⟨nofun, rfl⟩

theorem Answers.eq_none (h : Answers kv nodes none v) : v = none :=
  isNone_iff_eq_none.mp (by simpa using h.found.symm)

/-- What is found first answers for the alternatives as well. -/
theorem Answers.or_left {id : Nat} {w : Option T}
    (h : Answers kv nodes (some id) v) : Answers kv nodes (some id) (v <|> w) := by
  obtain ⟨x, rfl⟩ := isSome_iff_exists.mp h.found.symm
  exact h

variable {index : DomainMapIndex} {nodes : List QElt} {id : Nat} {n : QElt} {ls : List GoString}
  {found : Nat → Option (Option Nat)}

section

variable (h : Indexed index nodes)
include h

section

variable (hn : nodes[id]? = some n) (hkeys : Holds kv n)
include hn hkeys

/-- A leaf that holds the keys of its path answers for its value. -/
theorem answers_leaf (hleaf : n.isLeaf = true) : Answers kv nodes (some id) (kv n.path) := by
  refine ⟨fun id' hid => ?_, ?_⟩
  · cases hid
    exact ⟨n, hn, hleaf, rfl⟩
  · have hmem := (QElt.isLeaf_iff (h.encodes.sorted n (mem_of_getElem? hn))).mp hleaf
    rw [hkeys, append_nil] at hmem
    exact hmem.symm

/-- The label itself is followed to the entries behind it. -/
theorem static_answers (hlabels : Labelled kv V n.path) (hl : QueryLabel l)
    (hfound : LabelOk l → ∀ child, nodes[child]? = some (descend n (labelKey l)) →
      child ≠ 0 → ∃ r, found child = some r ∧ Answers kv nodes r (bestValue (below V l) ls)) :
    ∃ r, index.staticMatch found id (loudsStart QElt.edges nodes id) (labelKey l) = some r ∧
      Answers kv nodes r (bestValue (below V l) ls) := by
  have hplus : complexWildcardByte ∈ labelKey l ↔ complexWildcardByte ∈ l :=
    mem_labelKey hl.ne_nil (by decide)
  obtain ⟨r, hr, hnone, hsome⟩ := h.staticWalk_eq hn (labelKey l)
    fun hnil => absurd hnil (labelKey_ne_nil hl.utf8)
  rw [staticMatch, hr]
  cases r with
  | none =>
    refine ⟨none, rfl, ?_⟩
    rw [hlabels.bestValue_eq_none]
    · exact answers_none
    · refine (hnone rfl).imp hplus.mp fun hno rest => ?_
      rw [← not_isSome_iff_eq_none, ← hkeys]
      exact hno rest
  | some child =>
    obtain ⟨hno, hchild, hne⟩ := hsome child rfl
    exact hfound { hl with no_plus := mt hplus.mpr hno } child hchild hne

/-- Then the wildcards are: `*` to the entries behind it, `+` to its leaf. -/
theorem wildcard_answers (hlabels : Labelled kv V n.path) {part : GoString}
    (hpart : part = wildcard → bestValue (below V wildcard) ls = none)
    (hfound : ∀ child, nodes[child]? = some (descend n (labelKey wildcard)) → child ≠ 0 →
      ∃ r, found child = some r ∧ Answers kv nodes r (bestValue (below V wildcard) ls)) :
    ∃ r, index.wildcardLoop part found id (index.places + 1)
        (loudsStart QElt.edges nodes id) = some r ∧
      Answers kv nodes r (bestValue (below V wildcard) ls <|> V [dotWildcard]) := by
  have hstar : labelKey wildcard = [wildcardByte] := by decide
  have hdot : labelKey dotWildcard = [complexWildcardByte] := by decide
  have hsorted := h.encodes.sorted n (mem_of_getElem? hn)
  obtain ⟨r, hr, hcases⟩ := @wildcardLoop_eq _ _ _ _ h hn part _ _
    (hstar ▸ hfound) _ (zero_le _) _ (lt_succ_of_lt (h.encodes.bytes_length_lt hn))
  refine ⟨r, hr, ?_⟩
  rcases hcases with ⟨hsome, hanswer⟩ | ⟨hno, hplus⟩
  · obtain ⟨node, rfl⟩ := ne_none_iff_exists'.mp hsome
    exact hanswer.or_left
  · -- nothing is found behind `*`
    have hnone : bestValue (below V wildcard) ls = none := by
      by_cases hmem : wildcardByte ∈ n.bytes
      · exact (hno hmem).elim hpart Answers.eq_none
      · refine hlabels.bestValue_eq_none (.inr fun rest => ?_) ls
        rw [← not_isSome_iff_eq_none, ← hkeys, hstar]
        exact fun hrest => hmem ((QElt.mem_bytes hsorted).mpr ⟨rest, hrest⟩)
    have hvalue := hlabels.value_label labelOk_dotWildcard
    rw [hnone, hvalue, hdot]
    rcases hplus with ⟨hmem, child, rfl, hchild⟩ | ⟨hmem, rfl⟩
    · obtain ⟨rest, hrest⟩ := (QElt.mem_bytes hsorted).mp hmem
      have hedge : HasEdge (KeySet fun path => (V path).isSome) complexWildcardByte :=
        ⟨rest, hlabels.key _ ((hkeys _).mp hrest)⟩
      have hstored := (hasEdge_plus hlabels.ok).mp hedge
      rw [hvalue, hdot] at hstored
      have hchildKeys := hkeys.descend [complexWildcardByte]
      have hleaf : (n.child complexWildcardByte).isLeaf = true := by
        rw [QElt.isLeaf_iff (h.encodes.sorted _ (mem_of_getElem? hchild))]
        refine (hchildKeys []).mpr ?_
        rw [append_nil, path_descend]
        exact hstored
      exact answers_leaf h hchild hchildKeys hleaf
    · have hnot : kv (n.path ++ [complexWildcardByte]) = none := by
        rw [← not_isSome_iff_eq_none, ← hkeys]
        exact fun hrest => hmem ((QElt.mem_bytes hsorted).mpr ⟨[], hrest⟩)
      rw [hnot]
      exact answers_none

end

/-! ### Queries -/

omit h

section

variable (hp : domainStepByte ∉ p)
include hp

theorem ne_step_of_not_mem : ∀ b ∈ p.reverse, decide (b ≠ domainStepByte) = true := by
  intro b hb
  rw [decide_eq_true_iff]
  exact fun heq => hp (heq ▸ mem_reverse.mp hb)

theorem lastPart_join : lastPart (join domainStepByte (p :: ps).reverse) = p := by
  have hall := ne_step_of_not_mem hp
  rw [lastPart, reverse_cons]
  cases ps with
  | nil =>
    rw [reverse_nil, nil_append, join_singleton, takeWhile_eq_self_iff.mpr hall,
      List.reverse_reverse]
  | cons p' ps =>
    rw [join_concat (by simp), reverse_append, reverse_cons, append_assoc,
      takeWhile_append_of_pos hall]
    simp

theorem remaining_join :
    remaining (join domainStepByte (p :: ps).reverse) = join domainStepByte ps.reverse := by
  have hall := ne_step_of_not_mem hp
  rw [remaining, reverse_cons]
  cases ps with
  | nil =>
    rw [reverse_nil, nil_append, join_singleton,
      dropWhile_eq_nil_iff.mpr fun b hb => by simpa using hall b hb]
    rfl
  | cons p' ps =>
    rw [join_concat (by simp), reverse_append, reverse_cons, append_assoc,
      dropWhile_append_of_pos hall]
    simp

end

/-- A part of a query is read as the key of its label. -/
theorem readPart_eq (hp : toLower p ≠ dotWildcard) :
    (readPart p).reverse.map lowerByte = labelKey (toLower p) := by
  rw [labelKey, if_neg hp, ← walkKey_eq]
  rfl

theorem toLower_of_readPart (hp : QueryLabel (toLower p))
    (h : readPart p = wildcard) : toLower p = wildcard := by
  have hkey := readPart_eq hp.ne_nil
  rw [h, labelKey, if_neg hp.ne_nil] at hkey
  rw [← reverse_reverse hp.utf8, ← hkey]
  decide

/-- The entries that `match` looks among at a node: those behind the path of the node. -/
structure AtNode (kv : GoString → Option T) (V : List GoString → Option T) (id : Nat)
    (n : QElt) : Prop where
  keys : Holds kv n
  root : id = 0 → n.path = [] ∧ Labelled kv V []
  inner : id ≠ 0 → V [] = kv n.path ∧ Labelled kv V (n.path ++ [domainStepByte])

/-- Behind a label the entries are those behind it. -/
theorem AtNode.behind_label (hkeys : Holds kv n) (hlabels : Labelled kv V n.path)
    (hl : LabelOk l) (hne : l ≠ dotWildcard) (hid : id ≠ 0) :
    AtNode kv (below V l) id (descend n (labelKey l)) := by
  refine ⟨hkeys.descend _, fun h => absurd h hid, fun _ => ?_⟩
  rw [path_descend]
  exact ⟨hlabels.value_label hl, hlabels.behind_label hl hne⟩

include h

/-- At the end of a query the node itself answers. -/
theorem matchNode_end (hn : nodes[id]? = some n)
    (hat : AtNode kv V id n) (hid : id ≠ 0) (fuel : Nat) :
    ∃ r, index.matchNode (fuel + 1) id [] = some r ∧ Answers kv nodes r (V []) := by
  rw [matchNode, if_pos rfl, h.encodes.leaf id n hn, (hat.inner hid).1]
  cases hleaf : n.isLeaf with
  | true => exact ⟨_, rfl, answers_leaf h hn hat.keys hleaf⟩
  | false =>
    have hnone : kv n.path = none := by
      have hmem := hat.keys []
      rw [append_nil, ← QElt.isLeaf_iff (h.encodes.sorted n (mem_of_getElem? hn)), hleaf] at hmem
      simpa using hmem
    rw [hnone]
    exact ⟨_, rfl, answers_none⟩

/-- The labels begin behind the edge `.`, and where there is none nothing is stored. -/
theorem enterLabel_eq (hn : nodes[id]? = some n) (hat : AtNode kv V id n) :
    (index.enterLabel id = some none ∧ ∀ l ls, bestValue V (l :: ls) = none) ∨
      ∃ id' n', index.enterLabel id = some (some (id', loudsStart QElt.edges nodes id')) ∧
        nodes[id']? = some n' ∧ Holds kv n' ∧ Labelled kv V n'.path := by
  rw [enterLabel]
  by_cases hid : id = 0
  · obtain ⟨hpath, hlabels⟩ := hat.root hid
    refine .inr ⟨0, n, by rw [if_pos hid]; rfl, hid ▸ hn, hat.keys, hpath ▸ hlabels⟩
  · obtain ⟨-, hlabels⟩ := hat.inner hid
    rw [if_neg hid, h.nodeStart_eq hn hid]
    obtain ⟨r, hr, hnone, hsome⟩ := h.findEdge_eq hn domainStepByte
    dsimp only
    rw [hr]
    cases r with
    | none =>
      have hno : ∀ rest, kv (n.path ++ [domainStepByte] ++ rest) = none := by
        intro rest
        rw [append_assoc, ← not_isSome_iff_eq_none, ← hat.keys]
        intro hrest
        exact hnone rfl ((QElt.mem_bytes (h.encodes.sorted n (mem_of_getElem? hn))).mpr
          ⟨rest, hrest⟩)
      refine .inl ⟨rfl, fun l ls => ?_⟩
      rw [bestValue, hlabels.bestValue_eq_none (.inr fun rest => hno _),
        hlabels.bestValue_eq_none (.inr fun rest => hno _),
        hlabels.value_eq_none (cons_ne_nil _ _) (hno _)]
      rfl
    | some child =>
      obtain ⟨-, hchild, hne⟩ := hsome child rfl
      dsimp only
      refine .inr ⟨child, _, ?_, hchild, hat.keys.descend [domainStepByte], hlabels⟩
      rw [h.nodeStart_eq hchild hne]
      rfl

/-- `match` is the backtracking search over the label sequences. -/
theorem matchNode_eq (hps : ∀ p ∈ ps, QueryLabel (toLower p) ∧ domainStepByte ∉ p) {fuel : Nat}
    (hfuel : ps.length < fuel) (hn : nodes[id]? = some n) (hat : AtNode kv V id n)
    (hid : ps = [] → id ≠ 0) :
    ∃ r, index.matchNode fuel id (join domainStepByte ps.reverse) = some r ∧
      Answers kv nodes r (bestValue V (ps.map toLower)) := by
  induction ps generalizing fuel id n V with
  | nil =>
    obtain ⟨fuel, rfl⟩ := exists_eq_add_one_of_ne_zero (ne_zero_of_lt hfuel)
    exact matchNode_end h hn hat (hid rfl) fuel
  | cons p ps ih =>
    obtain ⟨fuel, rfl⟩ := exists_eq_add_one_of_ne_zero (ne_zero_of_lt hfuel)
    obtain ⟨⟨hl, hstep⟩, hps⟩ := forall_mem_cons.mp hps
    have hdomain : join domainStepByte (p :: ps).reverse ≠ [] := by
      intro hnil
      have hlast := @lastPart_join p ps hstep
      rw [hnil] at hlast
      exact hl.ne_nil (by rw [← hlast]; rfl)
    rw [matchNode, if_neg hdomain, lastPart_join hstep, remaining_join hstep, map_cons]
    rcases enterLabel_eq h hn hat with ⟨henter, hnone⟩ | ⟨id', n', henter, hn', hkeys, hlabels⟩
    · rw [henter, hnone]
      exact ⟨none, rfl, answers_none⟩
    · rw [henter]
      dsimp only
      have hbelow : ∀ l, LabelOk l → l ≠ dotWildcard →
          ∀ child, nodes[child]? = some (descend n' (labelKey l)) → child ≠ 0 →
            ∃ r, index.matchNode fuel child (join domainStepByte ps.reverse) = some r ∧
              Answers kv nodes r (bestValue (below V l) (ps.map toLower)) := by
        intro l hok hne child hchild hzero
        exact ih hps (lt_of_succ_lt_succ hfuel) hchild
          (AtNode.behind_label hkeys hlabels hok hne hzero) fun _ => hzero
      obtain ⟨r, hr, hanswer⟩ := static_answers h hn' hkeys hlabels hl
        fun hok => hbelow _ hok hl.ne_nil
      rw [readPart_eq hl.ne_nil, hr, bestValue]
      cases r with
      | some node => exact ⟨some node, rfl, hanswer.or_left⟩
      | none =>
        rw [hanswer.eq_none]
        -- a part `*` has been followed as the label itself
        exact wildcard_answers h hn' hkeys hlabels
          (fun hpart => by
            have hnone := hanswer.eq_none
            rwa [toLower_of_readPart hl hpart] at hnone)
          (hbelow _ labelOk_wildcard (by decide))

end

/-! ### Built maps -/

namespace DomainMapBuilder

theorem mapGet_foldl (keys : List GoString) (value : T) (m : List (GoString × T)) (key : GoString) :
    mapGet key (keys.foldl (fun m key => mapSet key value m) m) =
      if key ∈ keys then some value else mapGet key m := by
  induction keys generalizing m with
  | nil => simp
  | cons k keys ih =>
    rw [foldl_cons, ih, mapGet_mapSet]
    by_cases hmem : key ∈ keys <;> by_cases hk : key = k <;> simp [hmem, hk, eq_comm]

theorem insertOrSkip_eq (b : DomainMapBuilder T) (e : GoString × T) :
    (b.insertOrSkip e).set = b.set.insertOrSkip e.1 ∧
      ∀ key, mapGet key (b.insertOrSkip e).valueKeys =
        if key ∈ (storedPaths e.1).map spell then some e.2 else mapGet key b.valueKeys := by
  have hkeys := keys_insertOrSkip b.set e.1
  rw [insertOrSkip, insert, DomainSetBuilder.insertOrSkip] at *
  cases hset : b.set.insert e.1 with
  | error err =>
    rw [hset] at hkeys
    have hnil : (storedPaths e.1).map spell = [] := self_eq_append_right.mp hkeys
    simp [hnil]
  | ok set =>
    rw [hset] at hkeys
    refine ⟨rfl, fun key => ?_⟩
    dsimp only at hkeys ⊢
    rw [hkeys, drop_left, mapGet_foldl]

end DomainMapBuilder

/-- A sequence of labels is told by its key. -/
theorem spell_inj {path' : List GoString} (hne : path ≠ []) (hne' : path' ≠ [])
    (hok : PathOk path) (hok' : PathOk path') (h : spell path = spell path') : path = path' := by
  induction path' generalizing path with
  | nil => exact absurd rfl hne'
  | cons l ls ih =>
    rw [spell_cons] at h
    obtain ⟨rest, rfl, hrest⟩ := cons_of_spell hne hok (hok'.labels l mem_cons_self)
      (fun b hb => by cases ls <;> simp_all [spellTail]) h
    cases rest with
    | nil =>
      cases ls with
      | nil => rfl
      | cons l' ls => cases hrest
    | cons p ps =>
      cases ls with
      | nil => cases hrest
      | cons l' ls =>
        rw [ih (by simp) (by simp) hok.tail hok'.tail (cons.inj hrest).2]

section

variable (entries : List (GoString × T))
include entries

theorem set_insertAll :
    (insertAll entries).set = DomainSetBuilder.insertAll (entries.map Prod.fst) := by
  induction entries using reverseRecOn with
  | nil => rfl
  | append_singleton entries e ih =>
    rw [insertAll, foldl_concat, ← insertAll,
      (insertOrSkip_eq _ e).1, ih, map_append, map_singleton,
      DomainSetBuilder.insertAll, DomainSetBuilder.insertAll, foldl_concat]

/-- The value of a key is the value last inserted for its labels. -/
theorem mapGet_insertAll (hne : path ≠ []) (hok : PathOk path) :
    mapGet (spell path) (insertAll entries).valueKeys = lastValue entries path := by
  induction entries using reverseRecOn with
  | nil => rfl
  | append_singleton entries e ih =>
    have hmem : spell path ∈ (storedPaths e.1).map spell ↔ path ∈ storedPaths e.1 := by
      rw [List.mem_map]
      constructor
      · rintro ⟨path', hpath', heq⟩
        obtain ⟨hok', hne', -⟩ := pathOk_of_mem_storedPaths hpath'
        rwa [← spell_inj hne' hne hok' hok heq]
      · intro h
        exact ⟨path, h, rfl⟩
    rw [insertAll, foldl_concat, ← insertAll, (insertOrSkip_eq _ e).2, lastValue_concat, ih]
    simp only [hmem]

theorem isSome_mapGet_insertAll (key : GoString) :
    (mapGet key (insertAll entries).valueKeys).isSome ↔ key ∈ (insertAll entries).set.keys := by
  induction entries using reverseRecOn with
  | nil => simp [insertAll, mapGet]
  | append_singleton entries e ih =>
    rw [insertAll, foldl_concat, ← insertAll,
      (insertOrSkip_eq _ e).2, (insertOrSkip_eq _ e).1,
      keys_insertOrSkip, mem_append, ← ih]
    split <;> simp [*]

/-- The entries of a builder by key and by label sequence. -/
theorem labelled_insertAll :
    Labelled (fun key => mapGet key (insertAll entries).valueKeys) (lastValue entries) [] := by
  have hok : ∀ path, (lastValue entries path).isSome → PathOk path ∧ path ≠ [] := by
    intro path hpath
    obtain ⟨e, -, hmem⟩ := lastValue_isSome_iff.mp hpath
    exact (pathOk_of_mem_storedPaths hmem).imp_right And.left
  refine ⟨fun path hpath => (hok path hpath).1, fun path hne hpath => ?_, fun v hv => ?_⟩
  · rw [nil_append, mapGet_insertAll entries hne hpath]
  · rw [nil_append, isSome_mapGet_insertAll, set_insertAll] at hv
    have hkeys := congrFun (keySet_stored (entries.map Prod.fst)) v
    obtain ⟨path, hne, ⟨pattern, hpattern, hpath⟩, rfl⟩ := hkeys ▸ hv
    obtain ⟨e, he, rfl⟩ := mem_map.mp hpattern
    exact ⟨path, hne, lastValue_isSome_iff.mpr ⟨e, he, hpath⟩, rfl⟩

end

/-- There is a byte for each label of a query, and so enough fuel. -/
theorem length_le_join {parts : List GoString} (h : ∀ p ∈ parts, p ≠ []) :
    parts.length ≤ (join domainStepByte parts).length := by
  induction parts with
  | nil => simp
  | cons p ps ih =>
    obtain ⟨hp, hps⟩ := forall_mem_cons.mp h
    have hpos := length_pos_iff.mpr hp
    cases ps with
    | nil => simpa using succ_le_of_lt hpos
    | cons q qs =>
      have := ih hps
      rw [join_cons_cons]
      simp only [length_cons, length_append] at this ⊢
      omega

theorem rank_leaves (e : Encodes ss nodes) (hid : id ≤ nodes.length) :
    rank (bitsOf ss.leaves) id = rank (nodes.map QElt.isLeaf) id := by
  have htake : (bitsOf ss.leaves).take id = (nodes.map QElt.isLeaf).take id := by
    apply ext_getElem?
    intro i
    rw [getElem?_take, getElem?_take]
    split
    · rename_i hi
      have hnode := getElem?_eq_getElem (lt_of_lt_of_le hi hid)
      rw [← getBit_eq, e.leaf i _ hnode, getElem?_map, hnode]
      rfl
    · rfl
  rw [rank, rank, htake]

/-- The parts of an accepted query. -/
theorem query_parts (hq : validAndSplitDomain q = .ok qs) (hfirst : qs.head? ≠ some []) :
    let ps := (split domainStepByte q).reverse
    ps.map toLower = qs.reverse ∧ ps ≠ [] ∧ ps.length ≤ q.length ∧
      ∀ p ∈ ps, QueryLabel (toLower p) ∧ domainStepByte ∉ p := by
  intro ps
  have hqs : ps.map toLower = qs.reverse := by
    rw [(validAndSplitDomain_ok hq).1, map_reverse]
  have hlabel : ∀ p ∈ ps, QueryLabel (toLower p) := fun p hp =>
    queryLabel_of_mem hq hfirst _ (hqs ▸ mem_map_of_mem hp)
  have hne : ∀ p ∈ split domainStepByte q, p ≠ [] := by
    intro p hp hnil
    refine (hlabel p (mem_reverse.mpr hp)).ne_nil ?_
    rw [hnil]
    rfl
  have hlength := length_le_join hne
  rw [join_split, ← length_reverse] at hlength
  refine ⟨hqs, mt reverse_eq_nil_iff.mp (split_ne_nil _ q), hlength, fun p hp => ⟨hlabel p hp, ?_⟩⟩
  exact sep_not_mem_of_mem_split (mem_reverse.mp hp)

/-- The value of a leaf is found by its rank among the leaves. -/
theorem lookup_of_answers [Inhabited T] (e : Encodes ss nodes) (h : Answers kv nodes (some id) v) :
    id / 64 < ss.leaves.length ∧
      (((nodes.filter QElt.isLeaf).map QElt.path).map fun key => (kv key).getD default)[
        rank (bitsOf ss.leaves) id]?.map some = some v := by
  obtain ⟨n, hn, hleaf, rfl⟩ := h.leaf id rfl
  obtain ⟨x, hx⟩ := isSome_iff_exists.mp h.found.symm
  have hbit := e.leaf id n hn
  rw [getBit_eq] at hbit
  have hlt := (List.getElem?_eq_some_iff.mp hbit).1
  rw [length_bitsOf] at hlt
  refine ⟨by omega, ?_⟩
  rw [rank_leaves e (le_of_lt (List.getElem?_eq_some_iff.mp hn).1), getElem?_map,
    getElem?_map, getElem?_filter_rank hn hleaf]
  simp [hx]

/-- The map of a list of entries, looked up for an accepted query, gives what the backtracking
search over the label sequences finds. -/
theorem lookup_insertAll [Inhabited T] (entries : List (GoString × T))
    (hq : validAndSplitDomain q = .ok qs) (hfirst : qs.head? ≠ some []) :
    ∃ mapping, (insertAll entries).build = some mapping ∧
      DomainMap.lookup mapping q = some (bestValue (lastValue entries) qs.reverse) := by
  have hlabels := labelled_insertAll entries
  have hsome := isSome_mapGet_insertAll entries
  generalize insertAll entries = b at hlabels hsome
  rw [build]
  by_cases hkeys : b.set.keys = []
  · -- the map is nil, and nothing is stored
    have hnone : ∀ key, mapGet key b.valueKeys = none := by
      intro key
      rw [← Option.not_isSome_iff_eq_none, hsome, hkeys]
      exact List.not_mem_nil
    refine ⟨none, if_pos hkeys, ?_⟩
    cases hrev : qs.reverse with
    | nil => exact absurd (reverse_eq_nil_iff.mp hrev) (validAndSplitDomain_ok hq).2.ne_nil
    | cons l ls =>
      rw [bestValue, hlabels.bestValue_eq_none (.inr fun _ => hnone _),
        hlabels.bestValue_eq_none (.inr fun _ => hnone _),
        hlabels.value_eq_none (cons_ne_nil _ _) (hnone _)]
      rfl
  · obtain ⟨ss, nodes, hbuild, hencodes, hroot⟩ := buildDomainSet_encodes hkeys
    obtain ⟨deltas, hdeltas⟩ := exists_deltas hencodes
    obtain ⟨hlower, hne, hlength, hparts⟩ := query_parts hq hfirst
    have hholds : Holds (fun key => mapGet key b.valueKeys) ⟨[], sortedKeys b.set.keys⟩ := by
      intro rest
      rw [mem_sortedKeys, ← hsome]
      rfl
    have hindexed : Indexed ⟨ss, deltas⟩ nodes := ⟨hencodes, hdeltas⟩
    obtain ⟨r, hr, hanswer⟩ := matchNode_eq hindexed hparts
      (lt_succ_of_le hlength) hroot ⟨hholds, fun _ => ⟨rfl, hlabels⟩, by simp⟩
      fun hnil => absurd hnil hne
    rw [List.reverse_reverse, join_split] at hr
    rw [hlower] at hanswer
    rw [if_neg hkeys, hbuild]
    dsimp only
    rw [hdeltas]
    refine ⟨_, rfl, ?_⟩
    simp only [DomainMap.lookup, hr]
    cases r with
    | none =>
      rw [hanswer.eq_none]
      split <;> rfl
    | some id =>
      obtain ⟨hword, hvalue⟩ := lookup_of_answers hencodes hanswer
      rw [if_neg]
      · exact (if_pos hword).trans hvalue
      · intro hnil
        rw [hnil] at hvalue
        cases hvalue

/-- `Lookup` in the map of a list of entries returns a value for an accepted query exactly if
`Search` in the trie of the same entries returns a node with it, and false exactly if `Search`
returns nil. -/
theorem lookup_search_agree [Inhabited T] (entries : List (GoString × T)) {q : GoString}
    {qs : List GoString} (hq : validAndSplitDomain q = .ok qs) (hfirst : qs.head? ≠ some []) :
    ∃ mapping, (insertAll entries).build = some mapping ∧
      (∀ v, DomainMap.lookup mapping q = some (some v) ↔
        ∃ n, (DomainTrie.insertAll entries).search q = some n ∧ n.data = some v) ∧
      (DomainMap.lookup mapping q = some none ↔
        (DomainTrie.insertAll entries).search q = none) := by
  obtain ⟨mapping, hbuild, hlookup⟩ := lookup_insertAll entries hq hfirst
  have hvalue : (DomainTrie.insertAll entries).value = lastValue entries :=
    funext (DomainTrie.value_insertAll entries)
  rw [← hvalue, ← DomainTrie.search_eq hq hfirst] at hlookup
  refine ⟨mapping, hbuild, fun v => ?_, ?_⟩
  · rw [hlookup, some.injEq, bind_eq_some_iff]
  · rw [hlookup, some.injEq]
    cases hsearch : (DomainTrie.insertAll entries).search q with
    | none => simp
    | some n =>
      obtain ⟨v, hv⟩ := isSome_iff_exists.mp (DomainTrie.isSome_search hsearch)
      simp [hv]

/-- The second pattern wins over the first, and the last insertion over the earlier ones. -/
theorem lookup_search_agree_example :
    ∃ mapping, (insertAll
        [(lit "+.com", 1), (lit "*.Com", 2), (lit "*.com", 3)]).build = some mapping ∧
      (∀ v, DomainMap.lookup mapping (lit "A.com") = some (some v) ↔
        ∃ n, (DomainTrie.insertAll [(lit "+.com", 1), (lit "*.Com", 2), (lit "*.com", 3)]).search
          (lit "A.com") = some n ∧ n.data = some v) ∧
      (DomainMap.lookup mapping (lit "A.com") = some none ↔
        (DomainTrie.insertAll [(lit "+.com", 1), (lit "*.Com", 2), (lit "*.com", 3)]).search
          (lit "A.com") = none) :=
  have hq : validAndSplitDomain (lit "A.com") = .ok [lit "a", lit "com"] := by decide +kernel
  lookup_search_agree [(lit "+.com", 1), (lit "*.Com", 2), (lit "*.com", 3)] hq (by decide)

end Hako.Trie
