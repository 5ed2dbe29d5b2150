import Hako.GoLib.Netip

/-!
# The fake-IP bucket of the cache file

`FakeIpStore` keeps both directions of the mapping in one bucket of the database: a host
maps to the bytes of its address, and the bytes of an address to its host. A failed
transaction leaves the bucket as it was; a put under the empty key fails.
-/

namespace Hako.FakeIP

open GoLib

/-- A bucket of the database, from keys to values; its operations are those that the documentation
of `bbolt` promises. -/
abbrev Bucket := GoString → Option GoString

namespace Bucket

/-- The bucket without any key. -/
def empty : Bucket := fun _ => none

/-- `bucket.Put`; a key is required. -/
def put (b : Bucket) (key value : GoString) : Option Bucket :=
  if key = [] then none else some (Function.update b key (some value))

/-- `bucket.Delete`. -/
def delete (b : Bucket) (key : GoString) : Bucket := Function.update b key none

theorem put_eq_some {b b' : Bucket} {key value : GoString} (h : b.put key value = some b') :
    key ≠ [] ∧ b' = Function.update b key (some value) := by
  unfold put at h
  split at h
  · cases h
  · exact ⟨‹_›, (Option.some.inj h).symm⟩

end Bucket

/-- The kinds of write that are batched. -/
inductive FakeIPOp where
  | putByHost (host : GoString) (ip : Addr)
  | putByIP (ip : Addr) (host : GoString)
  | delByIP (ip : Addr)
deriving DecidableEq

namespace FakeIpStore

def getByHost (b : Bucket) (host : GoString) : Option Addr := (b host).bind addrFromSlice

def putByHost (b : Bucket) (host : GoString) (ip : Addr) : Option Bucket := b.put host ip.asSlice

def getByIP (b : Bucket) (ip : Addr) : Option GoString := b ip.asSlice

def putByIP (b : Bucket) (ip : Addr) (host : GoString) : Option Bucket := b.put ip.asSlice host

/-- `DelByIP`: delete the address, and the host it maps to. -/
def delByIP (b : Bucket) (ip : Addr) : Bucket :=
  match b ip.asSlice with
  | none => b.delete ip.asSlice
  | some host =>
    if host = [] then b.delete ip.asSlice else (b.delete ip.asSlice).delete host

/-- One write of a batch. -/
def applyOp (b : Bucket) : FakeIPOp → Option Bucket
  | .putByHost host ip => putByHost b host ip
  | .putByIP ip host => putByIP b ip host
  | .delByIP ip => some (delByIP b ip)

/-- `Apply`: the batch in one transaction. -/
def apply (b : Bucket) (ops : List FakeIPOp) : Option Bucket := ops.foldlM applyOp b

/-- A deletion removes the key of the address and the key of the host it maps to. -/
theorem delByIP_apply (b : Bucket) (ip : Addr) (key : GoString) :
    delByIP b ip key =
      if key = ip.asSlice ∨ b ip.asSlice = some key ∧ key ≠ [] then none else b key := by
  unfold delByIP
  cases hb : b ip.asSlice with
  | none => simp [Bucket.delete, Function.update_apply]
  | some host =>
    by_cases hne : host = []
    · subst hne
      by_cases hkey : key = ip.asSlice
      · simp [Bucket.delete, hkey]
      · simp [Bucket.delete, hkey]
    · by_cases hkey : key = host
      · simp [hne, hkey, Bucket.delete]
      · simp [hne, hkey, Ne.symm hkey, Bucket.delete, Function.update_apply]

variable {b : Bucket} {ip : Addr} {key : GoString}

theorem delByIP_of_ne (hip : key ≠ ip.asSlice)
    (hhost : b ip.asSlice = some key → key = []) : delByIP b ip key = b key := by
  rw [delByIP_apply, if_neg]
  rintro (h | ⟨h, hne⟩)
  · exact hip h
  · exact hne (hhost h)

/-- A deletion only removes keys. -/
theorem delByIP_eq_some {value : GoString}
    (h : delByIP b ip key = some value) : b key = some value := by
  rw [delByIP_apply] at h
  split at h
  · cases h
  · exact h

end FakeIpStore

end Hako.FakeIP
