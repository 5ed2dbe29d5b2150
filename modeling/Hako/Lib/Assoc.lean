import Mathlib

/-!
# Mappings as sorted lists

A mapping with ordered keys is the list of its entries in the order of their keys, so equal
mappings are equal lists. A loop that replaces the value of each key once gives the same result
in every order of the keys.
-/

namespace Hako.Lib.Assoc

open List Option

variable {K V : Type*} {key : K} {keys : List K} {entries : List (K × V)} {f : V → Option V}

/-- The values of all entries replaced. -/
def mapValues (f : V → Option V) : List (K × V) → Option (List (K × V))
  | [] => some []
  | (k, v) :: entries => (f v).bind fun value => (mapValues f entries).map ((k, value) :: ·)

theorem mapValues_eq_none : mapValues f entries = none ↔ ∃ e ∈ entries, f e.2 = none := by
  induction entries with
  | nil => simp [mapValues]
  | cons e entries ih =>
    obtain ⟨k, v⟩ := e
    rw [mapValues, bind_eq_none_iff]
    simp only [map_eq_none_iff, ih, exists_mem_cons_iff]
    cases f v <;> simp

theorem mapValues_eq_iff {g : V → Option V} {es es' : List (K × V)}
    (hf : mapValues f entries = some es) (hg : mapValues g entries = some es') :
    es = es' ↔ ∀ e ∈ entries, f e.2 = g e.2 := by
  induction entries generalizing es es' with
  | nil =>
    cases hf
    cases hg
    simp
  | cons e entries ih =>
    obtain ⟨k, v⟩ := e
    obtain ⟨w, hw, hf⟩ := bind_eq_some_iff.mp hf
    obtain ⟨w', hw', hg⟩ := bind_eq_some_iff.mp hg
    obtain ⟨rest, hrest, rfl⟩ := map_eq_some_iff.mp hf
    obtain ⟨rest', hrest', rfl⟩ := map_eq_some_iff.mp hg
    rw [forall_mem_cons, ← ih hrest hrest']
    simp [hw, hw']

variable [DecidableEq K]

/-- The values of the entries with some keys replaced. -/
def replace (f : V → Option V) (keys : List K) : List (K × V) → Option (List (K × V))
  | [] => some []
  | (k, v) :: entries =>
    (if k ∈ keys then f v else some v).bind fun value =>
      (replace f keys entries).map ((k, value) :: ·)

theorem replace_congr {keys' : List K} (h : ∀ k ∈ entries.map Prod.fst, k ∈ keys ↔ k ∈ keys') :
    replace f keys entries = replace f keys' entries := by
  induction entries with
  | nil => rfl
  | cons e entries ih =>
    obtain ⟨k, v⟩ := e
    obtain ⟨hk, hrest⟩ := forall_mem_cons.mp h
    rw [replace, replace, ih hrest, if_congr hk rfl rfl]

theorem replace_nil (f : V → Option V) : replace f [] entries = some entries := by
  induction entries with
  | nil => rfl
  | cons e entries ih =>
    obtain ⟨k, v⟩ := e
    simp [replace, ih]

theorem replace_all (h : ∀ k ∈ entries.map Prod.fst, k ∈ keys) :
    replace f keys entries = mapValues f entries := by
  induction entries with
  | nil => rfl
  | cons e entries ih =>
    obtain ⟨k, v⟩ := e
    obtain ⟨hk, hrest⟩ := forall_mem_cons.mp h
    rw [replace, mapValues, ih hrest, if_pos hk]

def find? (key : K) : List (K × V) → Option V
  | [] => none
  | (k, value) :: entries => if k = key then some value else find? key entries

theorem find?_eq_none : find? key entries = none ↔ key ∉ entries.map Prod.fst := by
  induction entries with
  | nil => simp [find?]
  | cons e entries ih =>
    obtain ⟨k, v⟩ := e
    by_cases hk : k = key
    · simp [find?, hk]
    · simpa [find?, hk, Ne.symm hk] using ih

theorem mem_of_find? {value : V} (h : find? key entries = some value) : (key, value) ∈ entries := by
  induction entries with
  | nil => cases h
  | cons e entries ih =>
    obtain ⟨k, v⟩ := e
    rw [find?] at h
    split at h
    · rename_i hk
      cases h
      exact hk ▸ mem_cons_self
    · exact mem_cons_of_mem _ (ih h)

variable [LT K] [DecidableLT K]

def set (key : K) (value : V) : List (K × V) → List (K × V)
  | [] => [(key, value)]
  | (k, v) :: entries =>
    if k = key then (k, value) :: entries
    else if key < k then (key, value) :: (k, v) :: entries
    else (k, v) :: set key value entries

def Sorted (entries : List (K × V)) : Prop := (entries.map Prod.fst).Pairwise (· < ·)

theorem find?_set_self (key : K) (value : V) (entries : List (K × V)) :
    find? key (set key value entries) = some value := by
  induction entries with
  | nil => simp [set, find?]
  | cons e entries ih =>
    obtain ⟨k, v⟩ := e
    rw [set]
    split
    · rename_i hk
      simp [find?, hk]
    split
    · simp [find?]
    · rename_i hk _
      simpa [find?, hk] using ih

theorem find?_set_of_ne {other : K} (h : key ≠ other) (value : V) (entries : List (K × V)) :
    find? other (set key value entries) = find? other entries := by
  induction entries with
  | nil => simp [set, find?, h]
  | cons e entries ih =>
    obtain ⟨k, v⟩ := e
    rw [set]
    split
    · rename_i hk
      simp [find?, hk, h]
    split
    · simp [find?, h]
    · simp [find?, ih]

theorem set_set (key : K) (value value' : V) (entries : List (K × V)) :
    set key value' (set key value entries) = set key value' entries := by
  induction entries with
  | nil => simp [set]
  | cons e entries ih =>
    obtain ⟨k, v⟩ := e
    by_cases hk : k = key
    · simp [set, hk]
    by_cases hlt : key < k
    · simp [set, hk, hlt]
    · simp [set, hk, hlt, ih]

theorem set_inj {value value' : V} :
    set key value entries = set key value' entries ↔ value = value' := by
  constructor
  · intro h
    have hfind := congrArg (find? key) h
    rwa [find?_set_self, find?_set_self, Option.some.injEq] at hfind
  · rintro rfl
    rfl

section Sorted

variable [Std.Asymm (fun a b : K => a < b)]

omit [DecidableEq K] [DecidableLT K] [Std.Asymm (fun a b : K => a < b)] in
theorem Sorted.tail {e : K × V} (h : Sorted (e :: entries)) : Sorted entries :=
  (pairwise_cons.mp h).2

omit [DecidableEq K] [DecidableLT K] in
theorem Sorted.nodup (h : Sorted entries) : (entries.map Prod.fst).Nodup := by
  refine List.Pairwise.imp (fun {a b} hab => ?_) h
  rintro rfl
  exact Std.Asymm.asymm _ _ hab hab

/-- A key that is there gets its value in place. -/
theorem Sorted.set_cons_of_ne {k : K} {v : V} (h : Sorted ((k, v) :: entries)) (hk : k ≠ key)
    (hkey : key ∈ entries.map Prod.fst) (value : V) :
    set key value ((k, v) :: entries) = (k, v) :: set key value entries := by
  have hlt : k < key := (pairwise_cons.mp h).1 key hkey
  rw [set, if_neg hk, if_neg (Std.Asymm.asymm _ _ hlt)]

variable (h : Sorted entries)
include h

/-- Giving a key that is there a value changes no keys. -/
theorem keys_set (hkey : key ∈ entries.map Prod.fst) (value : V) :
    (set key value entries).map Prod.fst = entries.map Prod.fst := by
  induction entries with
  | nil => cases hkey
  | cons e entries ih =>
    obtain ⟨k, v⟩ := e
    by_cases hk : k = key
    · rw [set, if_pos hk]
      rfl
    · have hmem : key ∈ entries.map Prod.fst := (mem_cons.mp hkey).resolve_left (Ne.symm hk)
      rw [h.set_cons_of_ne hk hmem, map_cons, ih h.tail hmem]
      rfl

theorem Sorted.set (hkey : key ∈ entries.map Prod.fst) (value : V) :
    Sorted (Assoc.set key value entries) := by
  rw [Sorted, keys_set h hkey]
  exact h

theorem set_eq_self_iff {value : V} :
    set key value entries = entries ↔ find? key entries = some value := by
  constructor
  · intro heq
    rw [← heq, find?_set_self]
  · intro hfind
    induction entries with
    | nil => cases hfind
    | cons e entries ih =>
      obtain ⟨k, v⟩ := e
      by_cases hk : k = key
      · rw [find?, if_pos hk] at hfind
        cases hfind
        rw [set, if_pos hk]
      · rw [find?, if_neg hk] at hfind
        have hmem : key ∈ entries.map Prod.fst := mem_map.mpr ⟨_, mem_of_find? hfind, rfl⟩
        rw [h.set_cons_of_ne hk hmem, ih h.tail hfind]

/-! ### Visiting keys -/

/-- The loop over some keys: each gets a new value, unless one of them fails. -/
def visit (f : Option V → Option V) : List K → List (K × V) → Option (List (K × V))
  | [], entries => some entries
  | key :: keys, entries =>
    (f (find? key entries)).bind fun value => visit f keys (set key value entries)

/-- The first key can be replaced before the others. -/
theorem replace_cons (hkeys : key ∉ keys) {v : V}
    (hfind : find? key entries = some v) :
    replace f (key :: keys) entries =
      (f v).bind fun value => replace f keys (set key value entries) := by
  induction entries with
  | nil => cases hfind
  | cons e entries ih =>
    obtain ⟨k, v'⟩ := e
    by_cases hk : k = key
    · -- the other entries have other keys
      subst hk
      rw [find?, if_pos rfl] at hfind
      cases hfind
      have hnodup : k ∉ entries.map Prod.fst := (nodup_cons.mp h.nodup).1
      have hrest : replace f (k :: keys) entries = replace f keys entries := by
        refine replace_congr fun other hother => ?_
        have hne : other ≠ k := fun heq => hnodup (heq ▸ hother)
        simp [hne]
      simp [replace, set, hkeys, hrest]
    · rw [find?, if_neg hk] at hfind
      have hmem : key ∈ entries.map Prod.fst := mem_map.mpr ⟨_, mem_of_find? hfind, rfl⟩
      have hset := fun value => h.set_cons_of_ne hk hmem value
      rw [replace, ih h.tail hfind]
      simp only [hset, replace, mem_cons, hk, false_or]
      cases f v <;> cases (if k ∈ keys then f v' else some v') <;> rfl

theorem visit_eq_replace {f : Option V → Option V} (hnodup : keys.Nodup)
    (hkeys : ∀ key ∈ keys, key ∈ entries.map Prod.fst) :
    visit f keys entries = replace (fun v => f (some v)) keys entries := by
  induction keys generalizing entries with
  | nil => rw [visit, replace_nil]
  | cons key keys ih =>
    obtain ⟨hkey, hkeys⟩ := forall_mem_cons.mp hkeys
    obtain ⟨hnot, hnodup⟩ := nodup_cons.mp hnodup
    obtain ⟨v, hfind⟩ := ne_none_iff_exists'.mp (mt find?_eq_none.mp (not_not.mpr hkey))
    rw [visit, hfind, replace_cons h hnot hfind]
    refine congrArg (Option.bind _) (funext fun value => ?_)
    rw [ih (h.set hkey value) hnodup fun k hk => by rw [keys_set h hkey]; exact hkeys k hk]

/-- In every order of the keys the loop replaces all values. -/
theorem visit_of_perm {f : Option V → Option V}
    (hperm : keys.Perm (entries.map Prod.fst)) :
    visit f keys entries = mapValues (fun v => f (some v)) entries := by
  rw [visit_eq_replace h (hperm.nodup_iff.mpr h.nodup) fun key hkey => hperm.mem_iff.mp hkey,
    replace_all fun key hkey => hperm.mem_iff.mpr hkey]

end Sorted

end Hako.Lib.Assoc
