import Mathlib

/-!
# The LRU cache

`LruCache` keeps its entries in a doubly linked list, least recently used first, and a map
from keys to list elements. Both are modelled: list elements have an identity, the map
points at it. Over this stands the view of a cache as its sequence of key-value pairs in
order of use, on which every operation is a short list function.
-/

namespace Hako.Common

open List Option

variable {K V : Type*}

/-- A list element with the entry it holds; `id` is its identity as a pointer. -/
structure Elem (K V : Type*) where
  id : Nat
  key : K
  value : V
  expires : Int

/-- The cache. Times are Unix seconds. `evicted` records the calls of `onEvict`. -/
structure LruCache (K V : Type*) where
  maxAge : Int
  maxSize : Int
  updateAgeOnGet : Bool
  staleReturn : Bool
  cache : K → Option Nat
  lru : List (Elem K V)
  nextId : Nat
  evicted : List (K × V)

namespace LruCache

/-- `New`, with the options as arguments. -/
def new (maxAge maxSize : Int) (updateAgeOnGet staleReturn : Bool) : LruCache K V :=
  { maxAge, maxSize, updateAgeOnGet, staleReturn, cache := fun _ => none, lru := [],
    nextId := 0, evicted := [] }

def clear (c : LruCache K V) : LruCache K V :=
  { c with lru := [], cache := fun _ => none }

/-- The element a pointer points at. -/
def elem? (c : LruCache K V) (id : Nat) : Option (Elem K V) := c.lru.find? (·.id == id)

section Operations

variable [DecidableEq K]

/-- `deleteElement`: unlink, forget the key, tell the callback. -/
def deleteElement (c : LruCache K V) (e : Elem K V) : LruCache K V :=
  { c with
    lru := c.lru.filter (·.id != e.id)
    cache := fun k => if k = e.key then none else c.cache k
    evicted := c.evicted ++ [(e.key, e.value)] }

/-- The loop of `maybeDeleteOldest`, bounded by the length of the list. -/
def deleteExpired (now : Int) : Nat → LruCache K V → LruCache K V
  | 0, c => c
  | n + 1, c =>
    match c.lru with
    | [] => c
    | e :: _ => if e.expires ≤ now then deleteExpired now n (c.deleteElement e) else c

def maybeDeleteOldest (c : LruCache K V) (now : Int) : LruCache K V :=
  if ¬ c.staleReturn ∧ 0 < c.maxAge then deleteExpired now c.lru.length c else c

/-- `MoveToBack`, with the element replaced by `e'`. -/
def moveToBack (c : LruCache K V) (e' : Elem K V) : LruCache K V :=
  { c with lru := c.lru.filter (·.id != e'.id) ++ [e'] }

/-- `get`: the entry found, if it has not expired, moved to the back. -/
def getEntry (c : LruCache K V) (now : Int) (key : K) : Option (Elem K V) × LruCache K V :=
  match (c.cache key).bind c.elem? with
  | none => (none, c)
  | some e =>
    if ¬ c.staleReturn ∧ 0 < c.maxAge ∧ e.expires ≤ now then
      (none, (c.deleteElement e).maybeDeleteOldest now)
    else
      let e' := if 0 < c.maxAge ∧ c.updateAgeOnGet then { e with expires := now + c.maxAge } else e
      (some e', c.moveToBack e')

def get (c : LruCache K V) (now : Int) (key : K) : Option V × LruCache K V :=
  let r := c.getEntry now key
  (r.1.map (·.value), r.2)

def exist (c : LruCache K V) (key : K) : Bool := (c.cache key).isSome

/-- Remove the front element when a positive maximum size is exceeded. -/
def evictFront (c : LruCache K V) : LruCache K V :=
  if 0 < c.maxSize ∧ c.maxSize < c.lru.length then
    match c.lru with
    | [] => c
    | e :: _ => c.deleteElement e
  else c

def pushBack (c : LruCache K V) (key : K) (value : V) (expires : Int) : LruCache K V :=
  { c with
    lru := c.lru ++ [⟨c.nextId, key, value, expires⟩]
    cache := fun k => if k = key then some c.nextId else c.cache k
    nextId := c.nextId + 1 }

def setWithExpire (c : LruCache K V) (now : Int) (key : K) (value : V) (expires : Int) :
    LruCache K V :=
  match (c.cache key).bind c.elem? with
  | some e => (c.moveToBack { e with value, expires }).maybeDeleteOldest now
  | none => (c.pushBack key value expires).evictFront.maybeDeleteOldest now

def set (c : LruCache K V) (now : Int) (key : K) (value : V) : LruCache K V :=
  c.setWithExpire now key value (if 0 < c.maxAge then now + c.maxAge else 0)

def delete (c : LruCache K V) (key : K) : LruCache K V :=
  match (c.cache key).bind c.elem? with
  | some e => c.deleteElement e
  | none => c

end Operations

/-! ### The map and the list stay together -/

/-- The map points exactly at the list elements, under their keys. -/
structure WF (c : LruCache K V) : Prop where
  ids : (c.lru.map (·.id)).Nodup
  keys : (c.lru.map (·.key)).Nodup
  cache : ∀ k id, c.cache k = some id ↔ ∃ e ∈ c.lru, e.id = id ∧ e.key = k
  fresh : ∀ e ∈ c.lru, e.id < c.nextId

/-- The element under a key, through the map. -/
def lookup? (c : LruCache K V) (key : K) : Option (Elem K V) := (c.cache key).bind c.elem?

variable {e e' : Elem K V} {key : K} {value : V}

theorem WF.new (maxAge maxSize : Int) (b b' : Bool) :
    (LruCache.new maxAge maxSize b b' : LruCache K V).WF :=
  ⟨by simp [LruCache.new], by simp [LruCache.new], by simp [LruCache.new], by simp [LruCache.new]⟩

variable {c : LruCache K V} {l : List (K × V)}

theorem WF.clear : c.clear.WF :=
  ⟨by simp [LruCache.clear], by simp [LruCache.clear], by simp [LruCache.clear],
    by simp [LruCache.clear]⟩

theorem WF.eq_of_id (h : c.WF) (he : e ∈ c.lru) (he' : e' ∈ c.lru) (hid : e.id = e'.id) : e = e' :=
  inj_on_of_nodup_map h.ids he he' hid

theorem WF.eq_of_key (h : c.WF) (he : e ∈ c.lru) (he' : e' ∈ c.lru)
    (hkey : e.key = e'.key) : e = e' :=
  inj_on_of_nodup_map h.keys he he' hkey

/-- Looking a key up finds the element of that key. -/
theorem WF.lookup?_eq_some (h : c.WF) : c.lookup? key = some e ↔ e ∈ c.lru ∧ e.key = key := by
  constructor
  · intro hl
    obtain ⟨id, hid, he⟩ := bind_eq_some_iff.mp hl
    obtain ⟨e', he', rfl, hkey⟩ := (h.cache key id).mp hid
    have hmem := mem_of_find?_eq_some he
    have heq : e = e' := h.eq_of_id hmem he' (by simpa using find?_some he)
    exact ⟨hmem, heq ▸ hkey⟩
  · rintro ⟨he, rfl⟩
    rw [lookup?, (h.cache e.key e.id).mpr ⟨e, he, rfl, rfl⟩, bind_some, elem?]
    obtain ⟨e', he'⟩ := isSome_iff_exists.mp
      (find?_isSome.mpr ⟨e, he, by simp⟩ : (c.lru.find? (·.id == e.id)).isSome)
    rw [he', h.eq_of_id (mem_of_find?_eq_some he') he (by simpa using find?_some he')]

theorem WF.lookup?_eq_none (h : c.WF) : c.lookup? key = none ↔ key ∉ c.lru.map (·.key) := by
  rw [eq_none_iff_forall_not_mem]
  simp [h.lookup?_eq_some]

/-- Refreshing an entry under its own key and identity keeps the cache well-formed. -/
theorem WF.moveToBack (h : c.WF) (he : e ∈ c.lru) (hid : e'.id = e.id)
    (hkey : e'.key = e.key) : (c.moveToBack e').WF := by
  have hsub : (c.lru.filter (·.id != e'.id)).Sublist c.lru := List.filter_sublist
  have hmem : ∀ x, x ∈ (c.moveToBack e').lru ↔ (x ∈ c.lru ∧ x.id ≠ e'.id) ∨ x = e' := by
    intro x
    simp [LruCache.moveToBack]
  refine ⟨?_, ?_, fun k id => ?_, fun x hx => ?_⟩
  · simp only [LruCache.moveToBack, List.map_append, List.map_cons, List.map_nil]
    refine List.Nodup.append (h.ids.sublist (hsub.map _)) (List.nodup_singleton _) ?_
    simp
  · simp only [LruCache.moveToBack, List.map_append, List.map_cons, List.map_nil]
    refine List.Nodup.append (h.keys.sublist (hsub.map _)) (List.nodup_singleton _) ?_
    simp only [List.disjoint_singleton, List.mem_map, List.mem_filter, bne_iff_ne, not_exists,
      not_and, and_imp]
    intro x hx hne hxkey
    exact hne (hid ▸ congrArg Elem.id (h.eq_of_key hx he (hxkey.trans hkey)))
  · change c.cache k = some id ↔ _
    rw [h.cache]
    constructor
    · rintro ⟨x, hx, rfl, rfl⟩
      by_cases hxe : x.id = e'.id
      · obtain rfl := h.eq_of_id hx he (hxe.trans hid)
        exact ⟨e', (hmem e').mpr (Or.inr rfl), hid, hkey⟩
      · exact ⟨x, (hmem x).mpr (Or.inl ⟨hx, hxe⟩), rfl, rfl⟩
    · rintro ⟨x, hx, rfl, rfl⟩
      rcases (hmem x).mp hx with ⟨hx, -⟩ | rfl
      · exact ⟨x, hx, rfl, rfl⟩
      · exact ⟨e, he, hid.symm, hkey.symm⟩
  · rcases (hmem x).mp hx with ⟨hx, -⟩ | rfl
    · exact h.fresh x hx
    · exact hid ▸ h.fresh e he

variable [DecidableEq K]

theorem WF.deleteElement (h : c.WF) (he : e ∈ c.lru) : (c.deleteElement e).WF := by
  have hsub : (c.lru.filter (·.id != e.id)).Sublist c.lru := filter_sublist
  refine ⟨h.ids.sublist (hsub.map _), h.keys.sublist (hsub.map _), fun k id => ?_,
    fun e' he' => h.fresh e' (hsub.subset he')⟩
  simp only [LruCache.deleteElement, mem_filter, bne_iff_ne]
  split
  · rename_i hk
    simp only [reduceCtorEq, false_iff, not_exists, not_and]
    rintro e' ⟨he', hne⟩ - hk'
    exact hne (congrArg Elem.id (h.eq_of_key he' he (hk'.trans hk)))
  · rename_i hk
    rw [h.cache]
    constructor
    · rintro ⟨e', he', rfl, rfl⟩
      exact ⟨e', ⟨he', fun hid => hk (congrArg Elem.key (h.eq_of_id he' he hid))⟩, rfl, rfl⟩
    · rintro ⟨e', ⟨he', -⟩, hid, hkey⟩
      exact ⟨e', he', hid, hkey⟩

theorem WF.pushBack (h : c.WF) (hkey : key ∉ c.lru.map (·.key)) (value : V)
    (expires : Int) : (c.pushBack key value expires).WF := by
  have hfresh : ∀ e ∈ c.lru, e.id ≠ c.nextId := fun e he =>
    ne_of_lt (h.fresh e he)
  refine ⟨?_, ?_, fun k id => ?_, fun e he => ?_⟩
  · simp only [LruCache.pushBack, map_append, map_cons, map_nil]
    refine List.Nodup.append h.ids (nodup_singleton _) ?_
    simpa using hfresh
  · simp only [LruCache.pushBack, map_append, map_cons, map_nil]
    refine List.Nodup.append h.keys (nodup_singleton _) ?_
    simpa using hkey
  · simp only [LruCache.pushBack, mem_append, mem_singleton]
    split
    · rename_i hk
      subst hk
      constructor
      · rintro ⟨⟩
        exact ⟨_, Or.inr rfl, rfl, rfl⟩
      · rintro ⟨e, he | rfl, hid, hek⟩
        · exact absurd (mem_map.mpr ⟨e, he, hek⟩) hkey
        · exact congrArg some hid
    · rename_i hk
      rw [h.cache]
      constructor
      · rintro ⟨e, he, hid, hek⟩
        exact ⟨e, Or.inl he, hid, hek⟩
      · rintro ⟨e, he | rfl, hid, hek⟩
        · exact ⟨e, he, hid, hek⟩
        · exact absurd hek.symm hk
  · simp only [LruCache.pushBack, mem_append, mem_singleton] at he ⊢
    rcases he with he | rfl
    · exact Nat.lt_succ_of_lt (h.fresh e he)
    · exact Nat.lt_succ_self _

variable (c)

@[simp]
theorem evictFront_maxAge : c.evictFront.maxAge = c.maxAge := by
  unfold evictFront
  split
  · split <;> rfl
  · rfl

@[simp]
theorem evictFront_maxSize : c.evictFront.maxSize = c.maxSize := by
  unfold evictFront
  split
  · split <;> rfl
  · rfl

@[simp]
theorem pushBack_maxAge (key : K) (value : V) (expires : Int) :
    (c.pushBack key value expires).maxAge = c.maxAge := rfl

@[simp]
theorem pushBack_maxSize (key : K) (value : V) (expires : Int) :
    (c.pushBack key value expires).maxSize = c.maxSize := rfl

variable {c}

theorem WF.evictFront (h : c.WF) : c.evictFront.WF := by
  unfold LruCache.evictFront
  split
  · split
    · exact h
    · rename_i e es he
      exact h.deleteElement (he ▸ mem_cons_self)
  · exact h

/-! ### Caches as sequences of pairs -/

/-- The key-value pairs, least recently used first. -/
def pairs (c : LruCache K V) : List (K × V) := c.lru.map fun e => (e.key, e.value)

/-- The pairs not under `key`. -/
def without (key : K) (l : List (K × V)) : List (K × V) := l.filter (·.1 ≠ key)

/-- Drop the oldest pair when a positive size is exceeded. -/
def trim (size : Int) (l : List (K × V)) : List (K × V) :=
  if 0 < size ∧ size < l.length then l.tail else l

theorem without_of_not_mem (hk : key ∉ l.map Prod.fst) : without key l = l := by
  refine filter_eq_self.mpr fun p hp => ?_
  simp only [ne_eq, decide_eq_true_eq]
  exact fun hkey => hk (mem_map.mpr ⟨p, hp, hkey⟩)

/-- Removing a key undoes making its pair the most recent one. -/
theorem without_touch (key : K) (value : V) (l : List (K × V)) :
    without key (without key l ++ [(key, value)]) = without key l := by
  simp [without, List.filter_append, List.filter_filter]

/-- In a one-to-one list of pairs, a pair can be removed by either component. -/
theorem without_swap [DecidableEq V] (hk : (l.map Prod.fst).Nodup)
    (hv : (l.map Prod.snd).Nodup) (hkv : (key, value) ∈ l) :
    without value (l.map Prod.swap) = (without key l).map Prod.swap := by
  rw [without, without, List.filter_map]
  refine congrArg _ (List.filter_congr fun p hp => ?_)
  have hiff : p.2 = value ↔ p.1 = key :=
    ⟨fun h => congrArg Prod.fst (List.inj_on_of_nodup_map hv hp hkv h),
      fun h => congrArg Prod.snd (List.inj_on_of_nodup_map hk hp hkv h)⟩
  simp [hiff]

omit [DecidableEq K]

theorem trim_swap (size : Int) (l : List (K × V)) :
    trim size (l.map Prod.swap) = (trim size l).map Prod.swap := by
  unfold trim
  rw [length_map]
  split
  · exact map_tail.symm
  · rfl

/-- The pair added last is never the one that is dropped. -/
theorem mem_trim_append (size : Int) (l : List (K × V)) (p : K × V) : p ∈ trim size (l ++ [p]) := by
  unfold trim
  split
  · rename_i h
    cases l with
    | nil => simp at h; omega
    | cons x l => simp
  · simp

theorem trim_subset (size : Int) (l : List (K × V)) : trim size l ⊆ l := by
  unfold trim
  split
  · exact fun _ => mem_of_mem_tail
  · exact List.Subset.refl l

/-- A well-formed cache of a given size without a maximum age. -/
structure Sized (size : Int) (c : LruCache K V) : Prop extends c.WF where
  maxAge : c.maxAge ≤ 0
  maxSize : c.maxSize = size

theorem Sized.new (size : Int) (b b' : Bool) :
    (LruCache.new 0 size b b' : LruCache K V).Sized size :=
  { WF.new 0 size b b' with maxAge := Int.le_refl _, maxSize := rfl }

variable {size : Int} {c : LruCache K V}

theorem Sized.clear (h : c.Sized size) : c.clear.Sized size :=
  { WF.clear with maxAge := h.maxAge, maxSize := h.maxSize }

theorem map_fst_pairs : c.pairs.map Prod.fst = c.lru.map (·.key) := by simp [pairs]

theorem WF.nodup_pairs (h : c.WF) : (c.pairs.map Prod.fst).Nodup := map_fst_pairs ▸ h.keys

/-- Every pair of the cache is found through the map. -/
theorem WF.lookup?_of_mem_pairs (h : c.WF) (hkv : (key, value) ∈ c.pairs) :
    ∃ e ∈ c.lru, c.lookup? key = some e ∧ e.key = key ∧ e.value = value := by
  obtain ⟨e, he, heq⟩ := mem_map.mp hkv
  obtain ⟨rfl, rfl⟩ := Prod.mk.inj heq
  exact ⟨e, he, h.lookup?_eq_some.mpr ⟨he, rfl⟩, rfl, rfl⟩

theorem WF.exist_iff (h : c.WF) : c.exist key ↔ key ∈ c.pairs.map Prod.fst := by
  rw [exist, Option.isSome_iff_exists, map_fst_pairs, List.mem_map]
  constructor
  · rintro ⟨id, hid⟩
    obtain ⟨e, he, -, hkey⟩ := (h.cache key id).mp hid
    exact ⟨e, he, hkey⟩
  · rintro ⟨e, he, hkey⟩
    exact ⟨e.id, (h.cache key e.id).mpr ⟨e, he, rfl, hkey⟩⟩

variable [DecidableEq K]

/-- Unlinking an element removes the pairs under its key. -/
theorem WF.map_filter_id (h : c.WF) (he : e ∈ c.lru) :
    (c.lru.filter (·.id != e.id)).map (fun e => (e.key, e.value)) = without e.key c.pairs := by
  rw [without, pairs, List.filter_map]
  refine congrArg _ (List.filter_congr fun x hx => ?_)
  have hiff : x.id = e.id ↔ x.key = e.key :=
    ⟨fun hid => congrArg Elem.key (h.eq_of_id hx he hid),
      fun hkey => congrArg Elem.id (h.eq_of_key hx he hkey)⟩
  by_cases hid : x.id = e.id <;> simp [hid, hiff.symm]

theorem Sized.maybeDeleteOldest_eq (h : c.Sized size) (now : Int) :
    c.maybeDeleteOldest now = c := by
  have := h.maxAge
  rw [maybeDeleteOldest, if_neg (by omega)]

theorem get_of_not_mem (h : c.WF) (now : Int) (hk : key ∉ c.pairs.map Prod.fst) :
    c.get now key = (none, c) := by
  have hnone : (c.cache key).bind c.elem? = none := h.lookup?_eq_none.mpr (map_fst_pairs ▸ hk)
  simp [get, getEntry, hnone]

/-- A hit returns the value and makes its pair the most recent one. -/
theorem Sized.get_of_mem (h : c.Sized size) (now : Int) (hkv : (key, value) ∈ c.pairs) :
    (c.get now key).1 = some value ∧ (c.get now key).2.Sized size ∧
      (c.get now key).2.pairs = without key c.pairs ++ [(key, value)] := by
  obtain ⟨e, he, hl, rfl, rfl⟩ := h.toWF.lookup?_of_mem_pairs hkv
  have hage : ¬ 0 < c.maxAge := by
    have := h.maxAge
    omega
  have hget : c.get now e.key = (some e.value, c.moveToBack e) := by
    rw [lookup?] at hl
    simp [get, getEntry, hl, hage]
  rw [hget]
  refine ⟨rfl, { h.toWF.moveToBack he rfl rfl with maxAge := h.maxAge, maxSize := h.maxSize }, ?_⟩
  simp only [pairs, moveToBack, map_append, h.toWF.map_filter_id he]
  rfl

theorem pairs_evictFront (h : c.WF) : c.evictFront.pairs = trim c.maxSize c.pairs := by
  have hlen : c.pairs.length = c.lru.length := length_map _
  unfold evictFront trim
  rw [hlen]
  split
  · split
    · rename_i hnil
      simp [pairs, hnil]
    · rename_i e es he
      have hids := h.ids
      rw [he, map_cons, nodup_cons] at hids
      have hes : es.filter (·.id != e.id) = es := by
        refine filter_eq_self.mpr fun x hx => ?_
        simp only [bne_iff_ne]
        exact fun hid => hids.1 (mem_map.mpr ⟨x, hx, hid⟩)
      simp [pairs, deleteElement, he, hes]
  · rfl

/-- Setting a new key appends its pair and drops the oldest one when the size is exceeded. -/
theorem Sized.set_of_not_mem (h : c.Sized size) (now : Int) (hk : key ∉ c.pairs.map Prod.fst)
    (value : V) :
    (c.set now key value).Sized size ∧
      (c.set now key value).pairs = trim size (c.pairs ++ [(key, value)]) := by
  have hk' : key ∉ c.lru.map (·.key) := map_fst_pairs ▸ hk
  have hnone : (c.cache key).bind c.elem? = none := h.toWF.lookup?_eq_none.mpr hk'
  have hage : ¬ 0 < c.maxAge := by
    have := h.maxAge
    omega
  have hpush := h.toWF.pushBack hk' value 0
  have hevict : (c.pushBack key value 0).evictFront.Sized size := by
    refine { hpush.evictFront with maxAge := ?_, maxSize := ?_ }
    · simpa using h.maxAge
    · simpa using h.maxSize
  have hset : c.set now key value = (c.pushBack key value 0).evictFront := by
    rw [← hevict.maybeDeleteOldest_eq now]
    simp [set, setWithExpire, hnone, hage]
  rw [hset]
  refine ⟨hevict, ?_⟩
  rw [pairs_evictFront hpush]
  simp [pairs, pushBack, ← h.maxSize]

theorem Sized.delete (h : c.Sized size) (key : K) :
    (c.delete key).Sized size ∧ (c.delete key).pairs = without key c.pairs := by
  unfold LruCache.delete
  split
  · rename_i e he
    obtain ⟨hmem, rfl⟩ := h.toWF.lookup?_eq_some.mp he
    refine ⟨{ h.toWF.deleteElement hmem with maxAge := h.maxAge, maxSize := h.maxSize }, ?_⟩
    exact h.toWF.map_filter_id hmem
  · rename_i he
    exact ⟨h, (without_of_not_mem (map_fst_pairs ▸ h.toWF.lookup?_eq_none.mp he)).symm⟩

end LruCache

end Hako.Common
