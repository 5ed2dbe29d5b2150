import Hako.GoLib.Strconv
import Hako.Lib.Assoc

/-!
# Updating documents

An override statement assigns to a path of a document. The form `.p op e` updates the document
along the path. The form `(.p) op e` first resolves the path to the places it selects and then
updates these one after another.

Values are shared in memory: the value of a right-hand side can be a part of the document, and
then what it holds depends on the writes that have been made. So a value is a function of these
writes, and the updates carry a log of them.
-/

namespace Hako.Override

open GoLib Lib

/-! ### Documents -/

/-- A value of a document; `F` are the floating-point numbers. The entries of a mapping stand in
the order of their keys. -/
inductive Value (F : Type) where
  | null
  | bool (b : Bool)
  | str (s : GoString)
  | int (i : Int)
  | float (f : F)
  | array (items : List (Value F))
  | mapping (entries : List (GoString × Value F))

variable {F : Type}

/-- The entries of a mapping. -/
abbrev Entries (F : Type) := List (GoString × Value F)

/-- `overrideType` -/
def overrideType : Value F → GoString
  | .null => lit "!!null"
  | .bool _ => lit "!!bool"
  | .str _ => lit "!!str"
  | .int _ => lit "!!int"
  | .float _ => lit "!!float"
  | .array _ => lit "!!seq"
  | .mapping _ => lit "!!map"

def overrideTruthy : Value F → Bool
  | .null => false
  | .bool b => b
  | _ => true

/-- `mapping[key]`, which is nil if there is no such key. -/
def entry (entries : Entries F) (key : GoString) : Value F := (Assoc.find? key entries).getD .null

/-- `array[index] = value`, behind the loop that makes the array long enough. -/
def setItem (index : Nat) (value : Value F) (items : List (Value F)) : List (Value F) :=
  (items ++ List.replicate (index + 1 - items.length) Value.null).set index value

/-- `sort.Strings` -/
def sortStrings (keys : List GoString) : List GoString := keys.insertionSort (· ≤ ·)

/-- The value as a mapping, an empty one for nil. -/
def asMapping : Value F → Option (Entries F)
  | .null => some []
  | .mapping entries => some entries
  | _ => none

/-- The value as an array, an empty one for nil. -/
def asArray : Value F → Option (List (Value F))
  | .null => some []
  | .array items => some items
  | _ => none

/-! ### Paths -/

/-- `overridePathSegment` -/
inductive Segment where
  | field (key : GoString)
  | index (index : Int)
  | wildcard
deriving DecidableEq

abbrev Path := List Segment

/-- The text of a segment; `first` if it is the first one. -/
def segmentString (first : Bool) : Segment → GoString
  | .field key => if first then key else lit "." ++ key
  | .index i => lit "[" ++ formatInt i ++ lit "]"
  | .wildcard => lit "[]"

/-- `overridePath.String` -/
def pathString : Path → GoString
  | [] => lit "."
  | segment :: path =>
    lit "." ++ segmentString true segment ++ path.flatMap (segmentString false)

/-- Where an index points to in an array: negative ones count from its end. -/
def resolveIndex (i : Int) (length : Nat) : Option Nat :=
  let index := if i < 0 then i + length else i
  if index < 0 then none else some index.toNat

/-! ### Writes -/

/-- The writes of a statement so far: the place, and the value that was put there. -/
abbrev Log (F : Type) := List (Path × Value F)

/-- A value that may be shared with the document: what it holds after some writes. -/
abbrev Live (F : Type) := Log F → Value F

/-- What a statement makes of the old value at a place. -/
abbrev Updater (F : Type) := Log F → Value F → Except GoString (Value F)

/-- In what order the loop over a mapping visits the keys. -/
structure Order where
  visit : Path → List GoString → List GoString
  perm : ∀ path keys, (visit path keys).Perm keys

/-! ### Updating along a path -/

section Update

/-- The loop over the indexes of an array. -/
def itemsLoop (update : Path → Value F → Log F → Except GoString (Value F × Log F)) (here : Path) :
    Nat → List (Value F) → Log F → Except GoString (List (Value F) × Log F)
  | _, [], log => .ok ([], log)
  | idx, item :: items, log => do
    let (updated, log) ← update (here ++ [.index idx]) item log
    let (items, log) ← itemsLoop update here (idx + 1) items log
    return (updated :: items, log)

/-- The loop over the keys of a mapping. -/
def keysLoop (update : Path → Value F → Log F → Except GoString (Value F × Log F)) (here : Path) :
    List GoString → Entries F → Log F → Except GoString (Entries F × Log F)
  | [], entries, log => .ok (entries, log)
  | key :: keys, entries, log => do
    let (updated, log) ← update (here ++ [.field key]) (entry entries key) log
    keysLoop update here keys (Assoc.set key updated entries) log

/-- `updateOverridePath`, at a place of the document. -/
def updateOverridePath (order : Order) (updater : Updater F) :
    Path → Path → Value F → Log F → Except GoString (Value F × Log F)
  | [], here, node, log => do
    let value ← updater log node
    return (value, log ++ [(here, value)])
  | .field key :: path, here, node, log =>
    match asMapping node with
    | none => .ok (node, log)
    | some entries => do
      let (value, log) ← updateOverridePath order updater path (here ++ [.field key])
        (entry entries key) log
      return (.mapping (Assoc.set key value entries), log)
  | .index i :: path, here, node, log =>
    match asArray node with
    | none => .ok (node, log)
    | some items =>
      match resolveIndex i items.length with
      | none => .error (lit "array index " ++ formatInt i ++ lit " is out of range")
      | some index => do
        let (value, log) ← updateOverridePath order updater path (here ++ [.index index])
          (items[index]?.getD .null) log
        return (.array (setItem index value items), log)
  | .wildcard :: path, here, node, log =>
    match node with
    | .array items => do
      let (items, log) ← itemsLoop (updateOverridePath order updater path) here 0 items log
      return (.array items, log)
    | .mapping entries => do
      let (entries, log) ← keysLoop (updateOverridePath order updater path) here
        (order.visit here (entries.map Prod.fst)) entries log
      return (.mapping entries, log)
    | node => .ok (node, log)

end Update

/-! ### Selecting places -/

/-- `overrideTargetSelection` -/
structure Selection (F : Type) where
  value : Value F
  path : Path

def expandOverrideTargetPath : Path → Selection F → List (Selection F)
  | [], selection => [selection]
  | .field key :: path, selection =>
    match asMapping selection.value with
    | none => []
    | some entries =>
      expandOverrideTargetPath path ⟨entry entries key, selection.path ++ [.field key]⟩
  | .index i :: path, selection =>
    match selection.value with
    | .null => expandOverrideTargetPath path ⟨.null, selection.path ++ [.index i]⟩
    | .array items =>
      match resolveIndex i items.length with
      | none => []
      | some index => expandOverrideTargetPath path
          ⟨items[index]?.getD .null, selection.path ++ [.index index]⟩
    | _ => []
  | .wildcard :: path, selection =>
    match selection.value with
    | .array items => items.zipIdx.flatMap fun (item, idx) =>
        expandOverrideTargetPath path ⟨item, selection.path ++ [.index idx]⟩
    | .mapping entries => (sortStrings (entries.map Prod.fst)).flatMap fun key =>
        expandOverrideTargetPath path ⟨entry entries key, selection.path ++ [.field key]⟩
    | _ => []

/-- `overrideTargetStage` -/
inductive TargetStage (F : Type) where
  | path (path : Path)
  | condition (condition : Value F → Except GoString (List (Value F)))

/-- One round of the loop of `resolve`. -/
def resolveStage (selections : List (Selection F)) :
    TargetStage F → Except GoString (List (Selection F))
  | .path path => .ok (selections.flatMap (expandOverrideTargetPath path))
  | .condition condition => selections.filterM fun selection => do
      let results ← condition selection.value
      return results.any overrideTruthy

/-- `overrideAssignmentTarget.resolve` -/
def resolve (stages : List (TargetStage F)) (root : Value F) :
    Except GoString (List (Selection F)) :=
  stages.foldlM resolveStage [⟨root, []⟩]

/-! ### Assignments -/

/-- The operators of an assignment. -/
inductive AssignOp where
  | assign
  | updateAssign
  | addAssign
  | subtractAssign
  | multiplyAssign
deriving DecidableEq

/-- The operators of the values. -/
inductive Arith where
  | plus
  | minus
  | times
deriving DecidableEq

/-- An expression, by what it gives for an input. -/
abbrev Eval (F : Type) := Value F → Except GoString (List (Live F))

/-- `overrideAssignStatement` -/
structure AssignStatement (F : Type) where
  path : Path
  target : Option (List (TargetStage F))
  operator : AssignOp
  value : Eval F

/-- `evalOverrideSingle`: none if there is no match. -/
def evalOverrideSingle (expression : Eval F) (input : Value F) :
    Except GoString (Option (Live F)) := do
  match ← expression input with
  | [] => return none
  | [value] => return some value
  | values => throw (lit "expression produced " ++ itoa values.length ++
      lit " results; collect them with [...]")

section Apply

variable (binary : Arith → Value F → Value F → Except GoString (Value F))

/-- The updater of a statement; none if its value has no match. -/
def updaterOf (operator : AssignOp) (value : Eval F) (root : Value F) :
    Except GoString (Option (Updater F)) :=
  let compound (arith : Arith) : Except GoString (Option (Updater F)) := do
    let value ← evalOverrideSingle value root
    return value.map fun value log old => binary arith old (value log)
  match operator with
  | .assign => do
    let value ← evalOverrideSingle value root
    return value.map fun value log _ => .ok (value log)
  | .updateAssign => .ok <| some fun _ old => do
    match ← evalOverrideSingle value old with
    | none => return old
    | some value => return value []
  | .addAssign => compound .plus
  | .subtractAssign => compound .minus
  | .multiplyAssign => compound .times

/-- The root has to stay a mapping. -/
def rootMapping : Value F → Except GoString (Entries F)
  | .mapping entries => .ok entries
  | value => .error (lit "root expression must produce a mapping, got " ++ overrideType value)

/-- One update of the root, with the text in front of an error. -/
def updateRoot (order : Order) (updater : Updater F) (text : GoString) (path : Path)
    (root : Entries F × Log F) : Except GoString (Entries F × Log F) :=
  match updateOverridePath order updater path [] (.mapping root.1) root.2 with
  | .error err => .error (lit "update " ++ text ++ lit ": " ++ err)
  | .ok (updated, log) => do
    let updatedMap ← rootMapping updated
    return (updatedMap, log)

/-- `overrideAssignStatement.apply`: the document behind a statement that does not fail. -/
def AssignStatement.apply (order : Order) (s : AssignStatement F) (mapping : Entries F) :
    Except GoString (Entries F) := do
  match ← updaterOf binary s.operator s.value (.mapping mapping) with
  | none => return mapping
  | some updater =>
    match s.target with
    | some stages =>
      let selections ← resolve stages (.mapping mapping)
      let (mapping, _) ← selections.foldlM
        (fun root selection => updateRoot order updater (lit "selected path") selection.path root)
        (mapping, [])
      return mapping
    | none =>
      let (mapping, _) ← updateRoot order updater (pathString s.path) s.path (mapping, [])
      return mapping

end Apply

end Hako.Override
