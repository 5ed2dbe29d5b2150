import Hako.Lib.Except
import Hako.Override.Document

/-!
# The two forms of an assignment

`.p op e` and `(.p) op e` visit the same places, but treat those they do not reach differently. A
negative index before the start of an array is an error for the first form, and selects nothing
for the second. Where a wildcard meets nothing, the first form has already put nulls on the way
to it, and the second leaves the document alone. Besides that they agree, whatever the order in
which the keys of a mapping are visited, as long as the value of `e` is not changed by the update
itself.
-/

namespace Hako.Override

open GoLib Lib List Option Assoc AssignStatement

variable {F : Type}

/-! ### Documents -/

/-- The entries of every mapping stand in the order of their keys. -/
inductive Wf : Value F → Prop
  | null : Wf .null
  | bool (b : Bool) : Wf (.bool b)
  | str (s : GoString) : Wf (.str s)
  | int (i : Int) : Wf (.int i)
  | float (f : F) : Wf (.float f)
  | array {items : List (Value F)} (h : ∀ item ∈ items, Wf item) : Wf (.array items)
  | mapping {entries : Entries F} (hsorted : Sorted entries) (h : ∀ e ∈ entries, Wf e.2) :
      Wf (.mapping entries)

variable {node value : Value F} {entries : Entries F} {items : List (Value F)} {index : Nat}
  {path : Path} {u : Value F → Option (Value F)}

theorem Wf.of_asMapping (h : Wf node) (hentries : asMapping node = some entries) :
    Sorted entries ∧ ∀ e ∈ entries, Wf e.2 := by
  cases h with
  | null =>
    cases hentries
    exact ⟨.nil, nofun⟩
  | mapping hsorted h =>
    cases hentries
    exact ⟨hsorted, h⟩
  | _ => cases hentries

theorem Wf.of_asArray (h : Wf node) (hitems : asArray node = some items) :
    ∀ item ∈ items, Wf item := by
  cases h with
  | null =>
    cases hitems
    exact nofun
  | array h =>
    cases hitems
    exact h
  | _ => cases hitems

theorem wf_getD {o : Option (Value F)} (h : ∀ v ∈ o, Wf v) : Wf (o.getD .null) := by
  cases o with
  | none => exact .null
  | some v => exact h v rfl

theorem Wf.entry (h : Wf node) (hentries : asMapping node = some entries) (key : GoString) :
    Wf (entry entries key) :=
  wf_getD fun _ hv => (h.of_asMapping hentries).2 _ (mem_of_find? hv)

theorem Wf.item (h : Wf node) (hitems : asArray node = some items) (index : Nat) :
    Wf (items[index]?.getD .null) :=
  wf_getD fun _ hv => h.of_asArray hitems _ (mem_of_getElem? hv)

theorem getElem?_setItem_self (index : Nat) (value : Value F) (items : List (Value F)) :
    (setItem index value items)[index]? = some value := by
  rw [setItem, getElem?_set_self]
  simp
  omega

theorem setItem_setItem (index : Nat) (value value' : Value F) (items : List (Value F)) :
    setItem index value' (setItem index value items) = setItem index value' items := by
  have hlength : index + 1 - (setItem index value items).length = 0 := by
    simp [setItem]
    omega
  rw [setItem, hlength, replicate_zero, append_nil, setItem, set_set, setItem]

theorem setItem_of_lt (h : index < items.length) (value : Value F) :
    setItem index value items = items.set index value := by
  rw [setItem, Nat.sub_eq_zero_of_le h, replicate_zero, append_nil]

theorem setItem_inj {value' : Value F} :
    setItem index value items = setItem index value' items ↔ value = value' := by
  constructor
  · intro h
    have hget := congrArg (·[index]?) h
    rwa [getElem?_setItem_self, getElem?_setItem_self, some.injEq] at hget
  · rintro rfl
    rfl

theorem setItem_eq_self_iff : setItem index value items = items ↔ items[index]? = some value := by
  constructor
  · intro h
    rw [← h, getElem?_setItem_self]
  · intro h
    obtain ⟨hlt, rfl⟩ := List.getElem?_eq_some_iff.mp h
    rw [setItem_of_lt hlt, set_getElem_self]

/-! ### Updating without logs -/

variable (u : Value F → Option (Value F))

/-- Updating along a path, with an updater that does not depend on the writes. -/
@[simp]
def modify : Path → Value F → Option (Value F)
  | [], node => u node
  | .field key :: path, node =>
    match asMapping node with
    | none => some node
    | some entries =>
      (modify path (entry entries key)).map fun value => .mapping (set key value entries)
  | .index i :: path, node =>
    match asArray node with
    | none => some node
    | some items =>
      match resolveIndex i items.length with
      | none => none
      | some index =>
        (modify path (items[index]?.getD .null)).map fun value =>
          .array (setItem index value items)
  | .wildcard :: path, node =>
    match node with
    | .array items => (items.mapM (modify path)).map .array
    | .mapping entries => (mapValues (modify path) entries).map .mapping
    | node => some node

variable {u}

theorem modify_field (hentries : asMapping node = some entries) (key : GoString) (path : Path) :
    modify u (.field key :: path) node = (modify u path (entry entries key)).map fun value =>
      .mapping (set key value entries) := by
  rw [modify, hentries]

variable {i : Int} {paths : List Path}

theorem modify_index (hitems : asArray node = some items)
    (hindex : resolveIndex i items.length = some index) (path : Path) :
    modify u (.index i :: path) node = (modify u path (items[index]?.getD .null)).map fun value =>
        .array (setItem index value items) := by
  rw [modify, hitems]
  dsimp only
  rw [hindex]

section Logs

variable {updater : Updater F}
  {update : Path → Value F → Log F → Except GoString (Value F × Log F)}
  {f : Value F → Option (Value F)}

theorem itemsLoop_eq
    (h : ∀ item ∈ items, ∀ here log, ((update here item log).toOption.map Prod.fst) = f item)
    (here : Path) (idx : Nat) (log : Log F) :
    (itemsLoop update here idx items log).toOption.map Prod.fst = items.mapM f := by
  induction items generalizing idx log with
  | nil => rfl
  | cons item items ih =>
    obtain ⟨hitem, hitems⟩ := forall_mem_cons.mp h
    rw [itemsLoop, toOption_bind, mapM_cons, ← hitem (here ++ [.index idx]) log]
    cases (update (here ++ [.index idx]) item log).toOption with
    | none => rfl
    | some r =>
      rw [map_some, bind_some, toOption_bind]
      rw [← ih hitems (idx + 1) r.2]
      cases (itemsLoop update here (idx + 1) items r.2).toOption with
      | none => rfl
      | some rs => rfl

theorem keysLoop_eq {keys : List GoString} (hnodup : keys.Nodup)
    (h : ∀ key ∈ keys, ∀ here log, ((update here (entry entries key) log).toOption.map Prod.fst) =
      f (entry entries key))
    (here : Path) (log : Log F) :
    (keysLoop update here keys entries log).toOption.map Prod.fst =
      visit (fun o => f (o.getD .null)) keys entries := by
  induction keys generalizing entries log with
  | nil => rfl
  | cons key keys ih =>
    obtain ⟨hkey, hkeys⟩ := forall_mem_cons.mp h
    obtain ⟨hnot, hnodup⟩ := nodup_cons.mp hnodup
    rw [keysLoop, toOption_bind, visit]
    change _ = (f (entry entries key)).bind _
    rw [← hkey (here ++ [.field key]) log]
    cases (update (here ++ [.field key]) (entry entries key) log).toOption with
    | none => rfl
    | some r =>
      rw [map_some, bind_some, bind_some]
      refine ih hnodup (fun other hother => ?_) r.2
      -- the keys that are left still have their values
      have hne : key ≠ other := fun heq => hnot (heq ▸ hother)
      have hentry : entry (set key r.1 entries) other = entry entries other := by
        rw [entry, find?_set_of_ne hne, entry]
      rw [hentry]
      exact hkeys other hother

/-- Without a look at the log, neither the log nor the order of the keys matters. -/
theorem updateOverridePath_eq (order : Order) (hu : ∀ log old, (updater log old).toOption = u old)
    (path here : Path) (hnode : .wildcard ∈ path → Wf node) (log : Log F) :
    (updateOverridePath order updater path here node log).toOption.map Prod.fst =
      modify u path node := by
  induction path generalizing here node log with
  | nil =>
    rw [updateOverridePath, toOption_bind, modify, ← hu log]
    cases (updater log node).toOption <;> rfl
  | cons segment path ih =>
    cases segment with
    | field key =>
      rw [updateOverridePath, modify]
      cases hentries : asMapping node with
      | none => rfl
      | some entries =>
        have hchild : .wildcard ∈ path → Wf (entry entries key) := fun hmem =>
          (hnode (mem_cons_of_mem _ hmem)).entry hentries key
        dsimp only
        rw [toOption_bind, ← ih (here ++ [.field key]) hchild log]
        cases (updateOverridePath order updater path (here ++ [.field key]) (entry entries key)
          log).toOption <;> rfl
    | index i =>
      rw [updateOverridePath, modify]
      cases hitems : asArray node with
      | none => rfl
      | some items =>
        dsimp only
        cases resolveIndex i items.length with
        | none => rfl
        | some index =>
          have hchild : .wildcard ∈ path → Wf (items[index]?.getD .null) := fun hmem =>
            (hnode (mem_cons_of_mem _ hmem)).item hitems index
          dsimp only
          rw [toOption_bind, ← ih (here ++ [.index index]) hchild log]
          cases (updateOverridePath order updater path (here ++ [.index index])
            (items[index]?.getD .null) log).toOption <;> rfl
    | wildcard =>
      replace hnode := hnode mem_cons_self
      cases node with
      | array items =>
        rw [updateOverridePath, modify, toOption_bind, ← itemsLoop_eq (fun item hitem here log =>
          ih here (fun _ => hnode.of_asArray rfl item hitem) log) here 0 log]
        cases (itemsLoop (updateOverridePath order updater path) here 0 items log).toOption <;> rfl
      | mapping entries =>
        have hsorted := (hnode.of_asMapping rfl).1
        have hperm := order.perm here (entries.map Prod.fst)
        have hvisit : visit (fun o => modify u path (o.getD .null))
            (order.visit here (entries.map Prod.fst)) entries =
            mapValues (modify u path) entries := visit_of_perm hsorted hperm
        rw [updateOverridePath, modify, toOption_bind, ← hvisit,
          ← keysLoop_eq (hperm.nodup_iff.mpr hsorted.nodup)
            (fun key _ here log => ih here (fun _ => hnode.entry rfl key) log) here log]
        cases (keysLoop (updateOverridePath order updater path) here
          (order.visit here (entries.map Prod.fst)) entries log).toOption <;> rfl
      | _ => rfl

/-- An update that ignores the log gives one document, in whatever order Go visits the keys. -/
theorem update_order_irrelevant (order order' : Order)
    (hu : ∀ log old, updater log old = updater [] old) (path here : Path) (hnode : Wf node)
    (log : Log F) : (updateOverridePath order updater path here node log).toOption.map Prod.fst =
      (updateOverridePath order' updater path here node log).toOption.map Prod.fst := by
  have hu' := fun log old => congrArg Except.toOption (hu log old)
  rw [updateOverridePath_eq order hu' path here fun _ => hnode,
    updateOverridePath_eq order' hu' path here fun _ => hnode]

end Logs

/-! ### Selected places -/

/-- The places that a path selects below a value. -/
@[simp]
def selected : Path → Value F → List Path
  | [], _ => [[]]
  | .field key :: path, node =>
    match asMapping node with
    | none => []
    | some entries => (selected path (entry entries key)).map (.field key :: ·)
  | .index i :: path, node =>
    match node with
    | .null => (selected path .null).map (.index i :: ·)
    | .array items =>
      match resolveIndex i items.length with
      | none => []
      | some index => (selected path (items[index]?.getD .null)).map (.index index :: ·)
    | _ => []
  | .wildcard :: path, node =>
    match node with
    | .array items => items.zipIdx.flatMap fun (item, idx) =>
        (selected path item).map (.index idx :: ·)
    | .mapping entries => (sortStrings (entries.map Prod.fst)).flatMap fun key =>
        (selected path (entry entries key)).map (.field key :: ·)
    | _ => []

theorem paths_expand (path : Path) (selection : Selection F) :
    (expandOverrideTargetPath path selection).map Selection.path =
      (selected path selection.value).map (selection.path ++ ·) := by
  induction path generalizing selection with
  | nil => simp [expandOverrideTargetPath, selected]
  | cons segment path ih =>
    obtain ⟨node, here⟩ := selection
    cases segment with
    | field key =>
      rw [expandOverrideTargetPath, selected]
      cases asMapping node with
      | none => rfl
      | some entries => simp [ih]
    | index i =>
      cases node with
      | null => simp [expandOverrideTargetPath, selected, ih]
      | array items =>
        rw [expandOverrideTargetPath, selected]
        dsimp only
        cases resolveIndex i items.length with
        | none => rfl
        | some index => simp [ih]
      | _ => rfl
    | wildcard =>
      cases node with
      | array items | mapping entries =>
        simp [expandOverrideTargetPath, selected, ih, map_flatMap, Function.comp_def]
      | _ => rfl

/-- The updates of the selected places, one after another. -/
def writeAll (u : Value F → Option (Value F)) (paths : List Path) (node : Value F) :
    Option (Value F) :=
  paths.foldlM (fun node path => modify u path node) node

theorem writeAll_cons (path : Path) (paths : List Path) (node : Value F) :
    writeAll u (path :: paths) node = (modify u path node).bind (writeAll u paths) :=
  foldlM_cons

theorem writeAll_append (paths paths' : List Path) (node : Value F) :
    writeAll u (paths ++ paths') node = (writeAll u paths node).bind (writeAll u paths') :=
  foldlM_append

/-- Writes below a field that is there. -/
theorem writeAll_field (key : GoString) (paths : List Path) (value : Value F)
    (entries : Entries F) :
    writeAll u (paths.map (.field key :: ·)) (.mapping (set key value entries)) =
      (writeAll u paths value).map fun value => .mapping (set key value entries) := by
  induction paths generalizing value with
  | nil => rfl
  | cons path paths ih =>
    rw [map_cons, writeAll_cons, writeAll_cons, modify_field rfl, entry, find?_set_self, getD_some]
    cases modify u path value with
    | none => rfl
    | some value' =>
      rw [map_some, bind_some, bind_some, Assoc.set_set, ih]

theorem resolveIndex_ofNat (index length : Nat) : resolveIndex index length = some index := by
  rw [resolveIndex, if_neg (by omega), if_neg (by omega), Int.toNat_natCast]

theorem eq_of_resolveIndex_zero (h : resolveIndex i 0 = some index) : i = index := by
  by_cases hi : i < 0
  · have hneg : i + ((0 : Nat) : Int) < 0 := by omega
    rw [resolveIndex, if_pos hi, if_pos hneg] at h
    cases h
  · rw [resolveIndex, if_neg hi, if_neg hi] at h
    cases h
    omega

/-- Writes below an index that is there. -/
theorem writeAll_index (index : Nat) (paths : List Path) (value : Value F)
    (items : List (Value F)) :
    writeAll u (paths.map (.index index :: ·)) (.array (setItem index value items)) =
      (writeAll u paths value).map fun value => .array (setItem index value items) := by
  induction paths generalizing value with
  | nil => rfl
  | cons path paths ih =>
    rw [map_cons, writeAll_cons, writeAll_cons, modify_index rfl (resolveIndex_ofNat _ _),
      getElem?_setItem_self, getD_some]
    cases modify u path value with
    | none => rfl
    | some value' =>
      rw [map_some, bind_some, bind_some, setItem_setItem, ih]

/-- Writes below a field that may have to be created: there has to be one. -/
theorem writeAll_field_new (hentries : asMapping node = some entries) (key : GoString) (hne : paths ≠ []) :
    writeAll u (paths.map (.field key :: ·)) node =
      (writeAll u paths (entry entries key)).map fun value =>
        .mapping (set key value entries) := by
  obtain ⟨path, paths, rfl⟩ := exists_cons_of_ne_nil hne
  rw [map_cons, writeAll_cons, writeAll_cons, modify_field hentries]
  cases modify u path (entry entries key) with
  | none => rfl
  | some value => rw [map_some, bind_some, bind_some, writeAll_field]

theorem writeAll_index_new (hitems : asArray node = some items) (index : Nat) (hne : paths ≠ []) :
    writeAll u (paths.map (.index index :: ·)) node =
      (writeAll u paths (items[index]?.getD .null)).map fun value =>
        .array (setItem index value items) := by
  obtain ⟨path, paths, rfl⟩ := exists_cons_of_ne_nil hne
  rw [map_cons, writeAll_cons, writeAll_cons, modify_index hitems (resolveIndex_ofNat _ _)]
  cases modify u path (items[index]?.getD .null) with
  | none => rfl
  | some value => rw [map_some, bind_some, bind_some, writeAll_index]

/-- The second form of an assignment, below a value. -/
def select (u : Value F → Option (Value F)) (path : Path) (node : Value F) : Option (Value F) :=
  writeAll u (selected path node) node

/-- The items of an array are updated one by one. -/
theorem select_items (path : Path) (done items : List (Value F)) :
    writeAll u ((items.zipIdx done.length).flatMap fun (item, idx) =>
        (selected path item).map (.index idx :: ·)) (.array (done ++ items)) =
      (items.mapM (select u path)).map fun items => .array (done ++ items) := by
  induction items generalizing done with
  | nil => rfl
  | cons item items ih =>
    have hitem : (done ++ item :: items)[done.length]? = some item := by simp
    have hset : ∀ value, setItem done.length value (done ++ item :: items) =
        done ++ [value] ++ items := by
      intro value
      rw [setItem_of_lt (by simp)]
      simp
    rw [zipIdx_cons, flatMap_cons, writeAll_append, mapM_cons]
    rw [← setItem_eq_self_iff.mpr hitem, writeAll_index]
    change Option.bind ((select u path item).map _) _ = Option.map _ ((select u path item).bind _)
    cases select u path item with
    | none => rfl
    | some value =>
      rw [map_some, bind_some, bind_some, hset]
      have hlength : done.length + 1 = (done ++ [value]).length := by simp
      rw [hlength, ih]
      cases items.mapM (select u path) <;> simp

/-- The entries of a mapping are updated one by one. -/
theorem select_entries (path : Path) {keys : List GoString} {current : Entries F}
    (hsorted : Sorted current) (hnodup : keys.Nodup)
    (hkeys : ∀ key ∈ keys, key ∈ current.map Prod.fst)
    (hsame : ∀ key ∈ keys, entry entries key = entry current key) :
    writeAll u (keys.flatMap fun key => (selected path (entry entries key)).map (.field key :: ·))
        (.mapping current) =
      (visit (fun o => select u path (o.getD .null)) keys current).map .mapping := by
  induction keys generalizing current with
  | nil => rfl
  | cons key keys ih =>
    obtain ⟨hkey, hkeys⟩ := forall_mem_cons.mp hkeys
    obtain ⟨hfirst, hsame⟩ := forall_mem_cons.mp hsame
    obtain ⟨hnot, hnodup⟩ := nodup_cons.mp hnodup
    obtain ⟨value, hfind⟩ := ne_none_iff_exists'.mp (mt Assoc.find?_eq_none.mp (not_not.mpr hkey))
    have hentry : entry current key = value := by rw [entry, hfind, getD_some]
    have hset := (set_eq_self_iff hsorted).mpr hfind
    rw [flatMap_cons, writeAll_append, visit, hfirst, hfind, getD_some, hentry]
    conv_lhs => rw [← hset]
    rw [writeAll_field]
    change Option.bind ((select u path value).map _) _ = Option.map _ ((select u path value).bind _)
    cases select u path value with
    | none => rfl
    | some value' =>
      rw [map_some, bind_some, bind_some]
      refine ih (hsorted.set hkey value') hnodup (fun k hk => ?_) fun k hk => ?_
      · rw [keys_set hsorted hkey]
        exact hkeys k hk
      · have hne : key ≠ k := fun heq => hnot (heq ▸ hk)
        rw [hsame k hk, entry, entry, find?_set_of_ne hne]

/-! ### Where the forms part -/

/-- The path meets a negative index that lies before the start of its array. -/
@[simp]
def Dangling : Path → Value F → Prop
  | [], _ => False
  | .field key :: path, node =>
    match asMapping node with
    | none => False
    | some entries => Dangling path (entry entries key)
  | .index i :: path, node =>
    match asArray node with
    | none => False
    | some items =>
      match resolveIndex i items.length with
      | none => True
      | some index => Dangling path (items[index]?.getD .null)
  | .wildcard :: path, node =>
    match node with
    | .array items => ∃ item ∈ items, Dangling path item
    | .mapping entries => ∃ e ∈ entries, Dangling path e.2
    | _ => False

/-- The path meets a wildcard at a place that does not exist; none is such a place. -/
@[simp]
def Stub : Path → Option (Value F) → Prop
  | [], _ => False
  | .field _ :: path, none => Stub path none
  | .field key :: path, some node =>
    match asMapping node with
    | none => False
    | some entries => Stub path (find? key entries)
  | .index _ :: path, none => Stub path none
  | .index i :: path, some node =>
    match asArray node with
    | none => False
    | some items =>
      match resolveIndex i items.length with
      | none => False
      | some index => Stub path items[index]?
  | .wildcard :: _, none => True
  | .wildcard :: path, some node =>
    match node with
    | .array items => ∃ item ∈ items, Stub path (some item)
    | .mapping entries => ∃ e ∈ entries, Stub path (some e.2)
    | _ => False

variable {node : Value F} {β α : Type} {path : Path} {l : List α} {f : α → Option β}

/-- The second form, below a field. -/
theorem select_field (hentries : asMapping node = some entries) (key : GoString) (path : Path) :
    select u (.field key :: path) node =
      if selected path (entry entries key) = [] then some node
      else (select u path (entry entries key)).map fun value =>
        .mapping (set key value entries) := by
  rw [select, selected, hentries]
  dsimp only
  split
  · rename_i hnil
    rw [hnil]
    rfl
  · rename_i hne
    rw [writeAll_field_new hentries key hne, select]

/-- The second form, below an index. Below null the index is kept as it is. -/
theorem select_index (hitems : asArray node = some items)
    (hindex : resolveIndex i items.length = some index) (path : Path) :
    select u (.index i :: path) node =
      if selected path (items[index]?.getD .null) = [] then some node
      else (select u path (items[index]?.getD .null)).map fun value =>
        .array (setItem index value items) := by
  have hselected : selected (.index i :: path) node =
      (selected path (items[index]?.getD .null)).map (.index index :: ·) := by
    cases node with
    | null =>
      cases hitems
      rw [selected, eq_of_resolveIndex_zero hindex]
      rfl
    | array items' =>
      cases hitems
      rw [selected, hindex]
    | _ => cases hitems
  rw [select, hselected]
  split
  · rename_i hnil
    rw [hnil]
    rfl
  · rename_i hne
    rw [writeAll_index_new hitems index hne, select]

theorem select_array (path : Path) (items : List (Value F)) :
    select u (.wildcard :: path) (.array items) = (items.mapM (select u path)).map .array := by
  rw [select, selected]
  exact select_items path [] items

theorem select_mapping (path : Path) (h : Sorted entries) :
    select u (.wildcard :: path) (.mapping entries) =
      (mapValues (select u path) entries).map .mapping := by
  have hperm : (sortStrings (entries.map Prod.fst)).Perm (entries.map Prod.fst) :=
    perm_insertionSort _ _
  rw [select, selected, select_entries path h (hperm.nodup_iff.mpr h.nodup)
    (fun key hkey => hperm.mem_iff.mp hkey) (fun _ _ => rfl), visit_of_perm h hperm]
  rfl

theorem mapM_eq_none : l.mapM f = none ↔ ∃ a ∈ l, f a = none := by
  constructor
  · intro h
    by_contra hne
    obtain ⟨bs, hbs⟩ := exists_mapM fun a ha =>
      ne_none_iff_exists'.mp fun hnone => hne ⟨a, ha, hnone⟩
    rw [h] at hbs
    cases hbs
  · rintro ⟨a, ha, hnone⟩
    by_contra hne
    obtain ⟨bs, hbs⟩ := ne_none_iff_exists'.mp hne
    have hmem := map_eq_of_mapM hbs ▸ mem_map.mpr ⟨a, ha, hnone⟩
    simp at hmem

theorem mapM_ne_none {bs : List β} (h : l.mapM f = some bs) {a : α} (ha : a ∈ l) : f a ≠ none := by
  intro hnone
  rw [mapM_eq_none.mpr ⟨a, ha, hnone⟩] at h
  cases h

theorem mapM_eq_iff {g : α → Option β} {bs cs : List β} (hf : l.mapM f = some bs)
    (hg : l.mapM g = some cs) : bs = cs ↔ ∀ a ∈ l, f a = g a := by
  rw [← map_inj_left, map_eq_of_mapM hf, map_eq_of_mapM hg]
  exact (map_injective_iff.mpr (some_injective β)).eq_iff.symm

theorem select_nil (node : Value F) : select u [] node = u node := by
  rw [select, selected, writeAll_cons, modify]
  cases u node <;> rfl

theorem select_of_selected_nil (h : selected path node = []) : select u path node = some node := by
  rw [select, h]
  rfl

theorem selected_index_of_asArray (h : asArray node = none) (i : Int) (path : Path) :
    selected (.index i :: path) node = [] := by
  cases node <;> first | rfl | cases h

theorem selected_field_of_asMapping (h : asMapping node = none) (key : GoString) (path : Path) :
    selected (.field key :: path) node = [] := by
  rw [selected, h]

/-- The first form fails at a dangling index, and else only with the second. -/
theorem modify_eq_none_iff (hnode : Wf node) :
    modify u path node = none ↔ Dangling path node ∨ select u path node = none := by
  induction path generalizing node with
  | nil =>
    rw [modify, select_nil]
    exact (or_iff_right not_false).symm
  | cons segment path ih =>
    -- a place below which the second form fails has been selected
    have hbelow : ∀ {child : Value F} {put : Value F → Value F}, Wf child →
        (modify u path child = none ↔ Dangling path child ∨
          (if selected path child = [] then some node else (select u path child).map put) = none) := by
      intro child put hchild
      rw [ih hchild]
      split
      · rename_i hnil
        simp [select_of_selected_nil hnil]
      · simp
    cases segment with
    | field key =>
      cases hentries : asMapping node with
      | none =>
        rw [select_of_selected_nil (selected_field_of_asMapping hentries key path),
          modify, Dangling, hentries]
        simp
      | some entries =>
        rw [select_field hentries, modify_field hentries, map_eq_none_iff, Dangling, hentries]
        exact hbelow (hnode.entry hentries key)
    | index i =>
      cases hitems : asArray node with
      | none =>
        rw [select_of_selected_nil (selected_index_of_asArray hitems i path), modify,
          Dangling, hitems]
        simp
      | some items =>
        cases hindex : resolveIndex i items.length with
        | none =>
          rw [modify, Dangling, hitems]
          dsimp only
          rw [hindex]
          simp
        | some index =>
          rw [select_index hitems hindex, modify_index hitems hindex, map_eq_none_iff,
            Dangling, hitems]
          dsimp only
          rw [hindex]
          exact hbelow (hnode.item hitems index)
    | wildcard =>
      cases node with
      | array items =>
        have hitems := hnode.of_asArray rfl
        rw [select_array, modify, map_eq_none_iff, map_eq_none_iff,
          mapM_eq_none, mapM_eq_none, Dangling, ← exists_or]
        refine exists_congr fun item => ?_
        rw [← and_or_left]
        exact and_congr_right fun hitem => ih (hitems item hitem)
      | mapping entries =>
        obtain ⟨hsorted, hentries⟩ := hnode.of_asMapping rfl
        rw [select_mapping path hsorted, modify, map_eq_none_iff,
          map_eq_none_iff, mapValues_eq_none, mapValues_eq_none,
          Dangling, ← exists_or]
        refine exists_congr fun e => ?_
        rw [← and_or_left]
        exact and_congr_right fun he => ih (hentries e he)
      | _ => exact iff_of_false nofun (not_or.mpr ⟨not_false, nofun⟩)

/-- Below a place that does not exist nothing is selected exactly if there is a wildcard. -/
theorem stub_none_iff :
    Stub path (none : Option (Value F)) ↔ selected path (.null : Value F) = [] := by
  induction path with
  | nil => exact iff_of_false not_false nofun
  | cons segment path ih =>
    cases segment with
    | field key =>
      rw [selected, asMapping]
      exact ih.trans map_eq_nil_iff.symm
    | index i => exact ih.trans map_eq_nil_iff.symm
    | wildcard => exact iff_of_true trivial rfl

theorem stub_none_of_null (h : Stub path (some (.null : Value F))) :
    Stub path (none : Option (Value F)) := by
  cases path with
  | nil => exact h
  | cons segment path =>
    cases segment with
    | field key => exact h
    | index i =>
      rw [Stub, asArray] at h
      dsimp only at h
      split at h
      · exact h.elim
      · exact h
    | wildcard => exact h.elim

/-- One segment of a path: `put` sets the place that holds `o`, if there is one. -/
theorem put_eq_iff (put : Value F → Value F) {o : Option (Value F)} {d t : Value F}
    (hinj : ∀ a b, put a = put b ↔ a = b) (hself : ∀ a, put a = node ↔ o = some a)
    (ht : (if selected path (o.getD .null) = [] then some node
      else (select u path (o.getD .null)).map put) = some t)
    (ih : ∀ t, select u path (o.getD .null) = some t → (d = t ↔ ¬ Stub path (some (o.getD .null)))) :
    put d = t ↔ ¬ Stub path o := by
  split at ht
  · -- nothing is selected, so the second form keeps the value
    rename_i hnil
    cases ht
    rw [hself]
    cases o with
    | none => simpa using stub_none_iff.mpr hnil
    | some v =>
      rw [some.injEq, eq_comm]
      exact ih v (select_of_selected_nil hnil)
  · rename_i hne
    obtain ⟨t', ht', rfl⟩ := map_eq_some_iff.mp ht
    rw [hinj, ih t' ht']
    cases o with
    | none =>
      have hnone : ¬ Stub path (none : Option (Value F)) := mt stub_none_iff.mp hne
      exact iff_of_true (mt stub_none_of_null hnone) hnone
    | some v => exact Iff.rfl

/-- Where both forms succeed, they agree exactly if no wildcard is met where nothing is. -/
theorem modify_eq_select_iff {d t : Value F} (hnode : Wf node) (hd : modify u path node = some d)
    (ht : select u path node = some t) : d = t ↔ ¬ Stub path (some node) := by
  induction path generalizing node d t with
  | nil =>
    rw [select_nil] at ht
    rw [modify, ht, some.injEq] at hd
    exact iff_of_true hd.symm not_false
  | cons segment path ih =>
    have hitem' : ∀ {item : Value F}, Wf item → modify u path item ≠ none →
        select u path item ≠ none →
        (modify u path item = select u path item ↔ ¬ Stub path (some item)) := by
      intro item hitem hd ht
      obtain ⟨d, hd⟩ := ne_none_iff_exists'.mp hd
      obtain ⟨t, ht⟩ := ne_none_iff_exists'.mp ht
      rw [hd, ht, some.injEq]
      exact ih hitem hd ht
    cases segment with
    | field key =>
      rw [Stub]
      cases hentries : asMapping node with
      | none =>
        rw [modify, hentries, some.injEq] at hd
        rw [select_of_selected_nil (selected_field_of_asMapping hentries key path),
          some.injEq] at ht
        exact iff_of_true (hd.symm.trans ht) not_false
      | some entries =>
        rw [modify_field hentries] at hd
        obtain ⟨d, hbelow, rfl⟩ := map_eq_some_iff.mp hd
        rw [select_field hentries] at ht
        refine put_eq_iff (fun v => .mapping (Assoc.set key v entries))
          (fun a b => ?_) (fun a => ?_) ht fun t ht => ih (hnode.entry hentries key) hbelow ht
        · rw [Value.mapping.injEq, Assoc.set_inj]
        · cases node with
          | null =>
            cases hentries
            simp [Assoc.find?]
          | mapping entries' =>
            cases hentries
            rw [Value.mapping.injEq, Assoc.set_eq_self_iff (hnode.of_asMapping rfl).1]
          | _ => cases hentries
    | index i =>
      rw [Stub]
      cases hitems : asArray node with
      | none =>
        rw [modify, hitems, some.injEq] at hd
        rw [select_of_selected_nil (selected_index_of_asArray hitems i path), some.injEq] at ht
        exact iff_of_true (hd.symm.trans ht) not_false
      | some items =>
        dsimp only
        cases hindex : resolveIndex i items.length with
        | none =>
          rw [modify, hitems] at hd
          dsimp only at hd
          rw [hindex] at hd
          cases hd
        | some index =>
          rw [modify_index hitems hindex] at hd
          obtain ⟨d, hbelow, rfl⟩ := map_eq_some_iff.mp hd
          rw [select_index hitems hindex] at ht
          refine put_eq_iff (fun v => .array (setItem index v items))
            (fun a b => ?_) (fun a => ?_) ht fun t ht => ih (hnode.item hitems index) hbelow ht
          · rw [Value.array.injEq, setItem_inj]
          · cases node with
            | null =>
              cases hitems
              simp
            | array items' =>
              cases hitems
              rw [Value.array.injEq, setItem_eq_self_iff]
            | _ => cases hitems
    | wildcard =>
      cases node with
      | array items =>
        rw [modify] at hd
        rw [select_array] at ht
        obtain ⟨ds, hds, rfl⟩ := map_eq_some_iff.mp hd
        obtain ⟨ts, hts, rfl⟩ := map_eq_some_iff.mp ht
        rw [Value.array.injEq, mapM_eq_iff hds hts, Stub, not_exists]
        refine forall_congr' fun item => ?_
        rw [not_and]
        exact imp_congr_right fun hitem =>
          hitem' (hnode.of_asArray rfl item hitem) (mapM_ne_none hds hitem) (mapM_ne_none hts hitem)
      | mapping entries =>
        obtain ⟨hsorted, hentries⟩ := hnode.of_asMapping rfl
        rw [modify] at hd
        rw [select_mapping path hsorted] at ht
        obtain ⟨ds, hds, rfl⟩ := map_eq_some_iff.mp hd
        obtain ⟨ts, hts, rfl⟩ := map_eq_some_iff.mp ht
        rw [Value.mapping.injEq, Assoc.mapValues_eq_iff hds hts, Stub, not_exists]
        refine forall_congr' fun e => ?_
        rw [not_and]
        exact imp_congr_right fun he => hitem' (hentries e he)
          (fun hnone => by rw [Assoc.mapValues_eq_none.mpr ⟨e, he, hnone⟩] at hds; cases hds)
          (fun hnone => by rw [Assoc.mapValues_eq_none.mpr ⟨e, he, hnone⟩] at hts; cases hts)
      | _ =>
        cases hd
        cases ht
        exact iff_of_true rfl not_false

/-- The two ways agree exactly if the second fails, or no index dangles and no wildcard is met
where nothing is. -/
theorem modify_eq_writeAll_iff (hnode : Wf node) :
    modify u path node = select u path node ↔
      select u path node = none ∨ (¬ Dangling path node ∧ ¬ Stub path (some node)) := by
  have hnone : modify u path node = none ↔ _ := modify_eq_none_iff hnode
  cases ht : select u path node with
  | none => simpa [ht] using hnone
  | some t =>
    rw [ht] at hnone
    simp only [reduceCtorEq, or_false] at hnone
    simp only [reduceCtorEq, false_or]
    constructor
    · intro hd
      refine ⟨fun hdangling => ?_, (modify_eq_select_iff hnode hd ht).mp rfl⟩
      rw [hnone.mpr hdangling] at hd
      cases hd
    · rintro ⟨hdangling, hstub⟩
      obtain ⟨d, hd⟩ := ne_none_iff_exists'.mp (mt hnone.mp hdangling)
      rw [hd, (modify_eq_select_iff hnode hd ht).mpr hstub]

/-! ### Statements -/

/-- A selected place is as deep as the path, and has no wildcards. -/
theorem of_mem_selected {place : Path} (h : place ∈ selected path node) :
    place.length = path.length ∧ .wildcard ∉ place := by
  induction path generalizing place node with
  | nil =>
    rw [selected, mem_singleton] at h
    rw [h]
    exact ⟨rfl, not_mem_nil⟩
  | cons segment path ih =>
    have hcons : ∀ {first : Segment} {child : Value F},
        place ∈ (selected path child).map (first :: ·) → first ≠ .wildcard →
        place.length = (segment :: path).length ∧ .wildcard ∉ place := by
      intro first child hmem hfirst
      obtain ⟨rest, hrest, rfl⟩ := mem_map.mp hmem
      obtain ⟨hlength, hwildcard⟩ := ih hrest
      rw [length_cons, length_cons, hlength, mem_cons, not_or]
      exact ⟨rfl, hfirst.symm, hwildcard⟩
    cases segment with
    | field key =>
      rw [selected] at h
      cases hentries : asMapping node with
      | none =>
        rw [hentries] at h
        cases h
      | some entries =>
        rw [hentries] at h
        exact hcons h nofun
    | index i =>
      cases node with
      | null => exact hcons h nofun
      | array items =>
        rw [selected] at h
        cases hindex : resolveIndex i items.length with
        | none =>
          rw [hindex] at h
          cases h
        | some index =>
          rw [hindex] at h
          exact hcons h nofun
      | _ => cases h
    | wildcard =>
      cases node with
      | array items =>
        obtain ⟨⟨item, idx⟩, -, h⟩ := mem_flatMap.mp h
        exact hcons h nofun
      | mapping entries =>
        obtain ⟨key, -, h⟩ := mem_flatMap.mp h
        exact hcons h nofun
      | _ => cases h

/-- The document at the root, if it is a mapping. -/
def rootOf : Value F → Option (Entries F)
  | .mapping entries => some entries
  | _ => none

theorem toOption_rootMapping (node : Value F) : (rootMapping node).toOption = rootOf node := by
  cases node <;> rfl

/-- Below the root, an update keeps the mapping. -/
theorem modify_mapping (hne : path ≠ []) (h : modify u path (.mapping entries) = some value) :
    ∃ entries', value = .mapping entries' := by
  obtain ⟨segment, path, rfl⟩ := exists_cons_of_ne_nil hne
  cases segment with
  | field key =>
    obtain ⟨v, -, rfl⟩ := map_eq_some_iff.mp h
    exact ⟨_, rfl⟩
  | index i =>
    cases h
    exact ⟨_, rfl⟩
  | wildcard =>
    obtain ⟨v, -, rfl⟩ := map_eq_some_iff.mp h
    exact ⟨_, rfl⟩

theorem writeAll_mapping (hpaths : ∀ path ∈ paths, path ≠ [])
    (h : writeAll u paths (.mapping entries) = some value) :
    ∃ entries', value = .mapping entries' := by
  induction paths generalizing entries with
  | nil =>
    cases h
    exact ⟨_, rfl⟩
  | cons path paths ih =>
    obtain ⟨hne, hpaths⟩ := forall_mem_cons.mp hpaths
    obtain ⟨next, hnext, h⟩ := bind_eq_some_iff.mp h
    obtain ⟨entries', rfl⟩ := modify_mapping hne hnext
    exact ih hpaths h

theorem select_mapping_root (hne : path ≠ []) (h : select u path (.mapping entries) = some value) :
    ∃ entries', value = .mapping entries' := by
  refine writeAll_mapping (fun place hplace hnil => hne ?_) h
  have hlength := (of_mem_selected hplace).1
  rw [hnil] at hlength
  exact length_eq_zero_iff.mp hlength.symm

section Root

variable {a b : Option (Value F)} (ha : ∀ v, a = some v → ∃ entries, v = .mapping entries)
  (hb : ∀ v, b = some v → ∃ entries, v = .mapping entries)

include ha in
theorem bind_rootOf_eq_none : a.bind rootOf = none ↔ a = none := by
  cases a with
  | none => simp
  | some v =>
    obtain ⟨entries, rfl⟩ := ha v rfl
    simp [rootOf]

include ha hb in
theorem bind_rootOf_inj : a.bind rootOf = b.bind rootOf ↔ a = b := by
  cases a with
  | none => rw [bind_none, eq_comm, bind_rootOf_eq_none hb, eq_comm]
  | some v =>
    obtain ⟨entries, rfl⟩ := ha v rfl
    cases b with
    | none => simp [rootOf]
    | some w =>
      obtain ⟨entries', rfl⟩ := hb w rfl
      simp [rootOf]

end Root

section Statements

variable {updater : Updater F} (order : Order)
  (hu : ∀ log old, (updater log old).toOption = u old) (text : GoString)

include hu in
theorem updateRoot_eq {path : Path} {root : Entries F × Log F}
    (hroot : .wildcard ∈ path → Wf (.mapping root.1)) :
    (updateRoot order updater text path root).toOption.map Prod.fst =
      (modify u path (.mapping root.1)).bind rootOf := by
  rw [updateRoot, ← updateOverridePath_eq order hu path [] hroot root.2]
  cases updateOverridePath order updater path [] (.mapping root.1) root.2 with
  | error err => rfl
  | ok r =>
    rw [toOption_bind, toOption_rootMapping]
    change _ = rootOf r.1
    cases rootOf r.1 <;> rfl

include hu in
/-- The updates of places below the root. -/
theorem foldlM_updateRoot_eq {paths : List Path}
    (hpaths : ∀ path ∈ paths, path ≠ [] ∧ .wildcard ∉ path) (root : Entries F × Log F) :
    (paths.foldlM (fun root path => updateRoot order updater text path root) root).toOption.map
        Prod.fst = (writeAll u paths (.mapping root.1)).bind rootOf := by
  induction paths generalizing root with
  | nil => rfl
  | cons path paths ih =>
    obtain ⟨⟨hne, hwildcard⟩, hpaths⟩ := forall_mem_cons.mp hpaths
    have hfirst := @updateRoot_eq _ _ _ order hu text path root fun hmem => absurd hmem hwildcard
    rw [foldlM_cons, toOption_bind, writeAll_cons]
    cases hmodify : modify u path (.mapping root.1) with
    | none =>
      rw [hmodify, bind_none, map_eq_none_iff] at hfirst
      rw [hfirst]
      rfl
    | some value =>
      obtain ⟨entries, rfl⟩ := modify_mapping hne hmodify
      rw [hmodify, bind_some] at hfirst
      obtain ⟨next, hnext, hentries⟩ := map_eq_some_iff.mp hfirst
      rw [hnext, bind_some, bind_some, ih hpaths next, hentries]

include hu in
theorem foldlM_selected_eq (path : Path) (mapping : Entries F) :
    ((selected path (.mapping mapping)).foldlM
        (fun root path => updateRoot order updater text path root) (mapping, [])).toOption.map
        Prod.fst = (select u path (.mapping mapping)).bind rootOf := by
  cases path with
  | nil =>
    -- the root itself is the only place
    rw [select_nil, selected, foldlM_cons, toOption_bind]
    change _ = (modify u [] (.mapping mapping)).bind rootOf
    have hroot := @updateRoot_eq _ _ _ order hu text [] (mapping, []) nofun
    rw [← hroot]
    cases (updateRoot order updater text [] (mapping, [])).toOption <;> rfl
  | cons segment path =>
    refine foldlM_updateRoot_eq order hu text (fun place hplace => ?_) (mapping, [])
    obtain ⟨hlength, hwildcard⟩ := of_mem_selected hplace
    exact ⟨ne_nil_of_length_eq_add_one hlength, hwildcard⟩

/-- The value of the expression is not changed by writes to the document. -/
def Unshared (value : Eval F) (root : Value F) : Prop :=
  ∀ live, evalOverrideSingle value root = .ok (some live) → ∀ log, live log = live []

variable {binary : Arith → Value F → Value F → Except GoString (Value F)} {operator : AssignOp}
  {value : Eval F} {mapping : Entries F}
  (hupdater : updaterOf binary operator value (.mapping mapping) = .ok (some updater))

theorem updaterOf_log {root : Value F}
    (h : updaterOf binary operator value root = .ok (some updater))
    (hshare : operator ≠ .updateAssign → Unshared value root) (log : Log F) (old : Value F) :
    updater log old = updater [] old := by
  have hlive : ∀ {f : Live F → Updater F}, operator ≠ .updateAssign →
      (do let v ← evalOverrideSingle value root; return v.map f) = .ok (some updater) →
      ∃ live, updater = f live ∧ live log = live [] := by
    intro f hop h
    cases hv : evalOverrideSingle value root with
    | error err =>
      rw [hv] at h
      cases h
    | ok v =>
      rw [hv] at h
      cases v with
      | none => cases h
      | some live =>
        cases h
        exact ⟨live, rfl, hshare hop live hv log⟩
  cases operator with
  | updateAssign =>
    cases h
    rfl
  | _ =>
    obtain ⟨live, rfl, hlog⟩ := hlive nofun h
    dsimp only
    rw [hlog]

theorem updaterOf_none_iff {root : Value F} :
    updaterOf binary operator value root = .ok none ↔
      operator ≠ .updateAssign ∧ evalOverrideSingle value root = .ok none := by
  have hlive : ∀ {f : Live F → Updater F},
      (do let v ← evalOverrideSingle value root; return v.map f) = .ok none ↔
        evalOverrideSingle value root = .ok none := by
    intro f
    rcases evalOverrideSingle value root with err | v
    · exact iff_of_false nofun nofun
    · rcases v with _ | live <;> simp [pure, Except.pure, bind, Except.bind]
  cases operator with
  | updateAssign => simp [updaterOf]
  | _ => exact hlive.trans (and_iff_right nofun).symm

include hu hupdater in
theorem apply_path (hroot : Wf (.mapping mapping)) (path : Path) :
    ((mk path none operator value).apply binary order mapping).toOption =
      (modify u path (.mapping mapping)).bind rootOf := by
  rw [apply, hupdater]
  change (updateRoot order updater (pathString path) path (mapping, []) >>= _).toOption = _
  have hupdate := @updateRoot_eq _ _ _ order hu (pathString path) path (mapping, []) fun _ => hroot
  rw [← hupdate, toOption_bind]
  cases (updateRoot order updater (pathString path) path (mapping, [])).toOption <;> rfl

include hupdater in
theorem apply_stages (stages : List (TargetStage F)) {selections : List (Selection F)}
    (hresolve : resolve stages (.mapping mapping) = .ok selections) :
    (mk [] (some stages) operator value).apply binary order mapping =
      (selections.foldlM (fun root selection =>
        updateRoot order updater (lit "selected path") selection.path root)
        (mapping, [])).map Prod.fst := by
  rw [apply, hupdater]
  change Except.bind (resolve stages (.mapping mapping)) _ = _
  rw [hresolve]
  exact bind_pure_comp Prod.fst (selections.foldlM _ (mapping, []))

include hu hupdater in
theorem apply_target (path : Path) :
    ((mk [] (some [.path path]) operator value).apply binary order
        mapping).toOption = (select u path (.mapping mapping)).bind rootOf := by
  have hpaths := paths_expand path ⟨.mapping mapping, []⟩
  have hresolve : resolve [.path path] (.mapping mapping) =
      .ok (expandOverrideTargetPath path ⟨Value.mapping mapping, []⟩) := by
    change Except.ok (flatMap _ _) = _
    rw [List.flatMap_singleton]
  simp only [List.nil_append, List.map_id'] at hpaths
  rw [← foldlM_selected_eq order hu (lit "selected path") path mapping, ← hpaths,
    List.foldlM_map, apply_stages order hupdater _ hresolve]
  cases (expandOverrideTargetPath path ⟨Value.mapping mapping, []⟩).foldlM
    (fun root selection => updateRoot order updater (lit "selected path") selection.path root)
    (mapping, []) <;> rfl

end Statements

/-- Two statements give the same document, or both fail. -/
def Agree (a b : Except GoString (Entries F)) : Prop :=
  (∃ document, a = .ok document ∧ b = .ok document) ∨ ∃ err err', a = .error err ∧ b = .error err'

theorem agree_iff {a b : Except GoString (Entries F)} : Agree a b ↔ a.toOption = b.toOption := by
  rcases a with err | document <;> rcases b with err' | document' <;>
    simp [Agree, Except.toOption, eq_comm]

/-- The expression `1`. -/
def one : Eval Unit := fun _ => .ok [fun _ => .int 1]

/-- The expression `.a`: its value is the one at this place after all writes. -/
def sharedField : Eval Unit := fun root => .ok [fun log =>
  match log.foldl (fun doc write => (modify (fun _ => some write.2) write.1 doc).getD doc) root with
  | .mapping entries => entry entries (lit "a")
  | _ => .null]

def keepOrder : Order := ⟨fun _ keys => keys, fun _ _ => .refl _⟩

def reverseOrder : Order := ⟨fun _ keys => keys.reverse, fun _ keys => keys.reverse_perm⟩

theorem update_order_irrelevant_reverse :
    let update (order : Order) := updateOverridePath order (fun _ _ => .ok (.int 1)) [.wildcard] []
      (.mapping [(lit "x", .null), (lit "y", .null)] : Value Unit) []
    (update keepOrder).toOption.map Prod.fst = (update reverseOrder).toOption.map Prod.fst :=
  update_order_irrelevant _ _ (fun _ _ => rfl) _ _
    (.mapping (by unfold Sorted; decide) (by simp [Wf.null])) _

/-- The statements `.p = e` and `(.p) = e`. -/
def bothForms (order : Order) (path : Path) (value : Eval Unit) (mapping : Entries Unit) :
    Except GoString (Entries Unit) × Except GoString (Entries Unit) :=
  let binary : Arith → Value Unit → Value Unit → Except GoString (Value Unit) :=
    fun _ _ right => .ok right
  ((mk path none .assign value).apply binary order mapping,
    (mk [] (some [.path path]) .assign value).apply binary order mapping)

/-- The two forms on a document give different documents, or only one of them fails. -/
def Differ (forms : Except GoString (Entries Unit) × Except GoString (Entries Unit)) : Prop :=
  ¬ Agree forms.1 forms.2

end Hako.Override
