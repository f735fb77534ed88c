import Mathlib.Data.Int.Basic
import DistributedCache.Lib.GoList
import DistributedCache.Lib.GoMap
import DistributedCache.Lib.Transition

/-!
The store of `internal/cache`: a map from keys to the elements of a list in order
of use, with a limit on the bytes of all keys and values and an expiry for each
entry.

A key has one character for each of its bytes.

Times are numbers of nanoseconds since the zero time. Every operation holds the
mutex throughout and reads the clock at most once, so the reading is an argument.
Byte counts are integers without bound: no store holds `2^63` bytes.
-/
namespace DistributedCache.Cache

structure Entry where
  key : String
  value : List UInt8
  expiresAt : Int
  deriving DecidableEq, Repr

inductive StoreError
  | entryTooLarge
  | memoryLimit
  deriving DecidableEq, Repr

abbrev Element := GoList.Element Entry

structure Store where
  maxBytes : Int
  entries : GoMap String Element
  lru : GoList Entry
  memoryBytes : Int

def newStore (maxBytes : Int) : Store where
  maxBytes := maxBytes
  entries := ∅
  lru := GoList.new
  memoryBytes := 0

def entrySize (key : String) (value : List UInt8) : Int :=
  key.length + value.length

def Entry.size (item : Entry) : Int :=
  entrySize item.key item.value

/-- The zero time stands for no expiry. -/
def Entry.isExpired (item : Entry) (now : Int) : Bool :=
  if item.expiresAt = 0 then false else ¬ now < item.expiresAt

namespace Store

def removeElement (s : Store) (elem : Element) : Store :=
  { s with
    memoryBytes := s.memoryBytes - elem.value.size
    lru := s.lru.remove elem
    entries := s.entries.erase elem.value.key }

/-- The loop of `ensureCapacity`, over the elements of the list from the back. -/
def evict (needed : Int) : List Element → Store → Store
  | [], s => s
  | oldest :: rest, s =>
      if s.maxBytes > 0 ∧ s.memoryBytes + needed > s.maxBytes
      then evict needed rest (s.removeElement oldest)
      else s

def ensureCapacity (s : Store) (needed : Int) : Store :=
  evict needed s.lru.elements.reverse s

/-- The first statement of `Set`: an old entry for the key goes at once. -/
def dropKey (s : Store) (key : String) : Store :=
  match s.entries.lookup key with
  | some elem => s.removeElement elem
  | none => s

/-- The last statements of `Set`. -/
def push (s : Store) (item : Entry) : Store :=
  { s with
    lru := s.lru.pushFront item
    entries := s.entries.insert item.key (s.lru.pushed item)
    memoryBytes := s.memoryBytes + item.size }

def set (s : Store) (now : Int) (key : String) (value : List UInt8) (ttl : Int) :
    Store × Option StoreError :=
  let s := s.dropKey key
  let size := entrySize key value
  if s.maxBytes > 0 ∧ size > s.maxBytes then (s, some .entryTooLarge)
  else
    let s := s.ensureCapacity size
    if s.maxBytes > 0 ∧ s.memoryBytes + size > s.maxBytes then (s, some .memoryLimit)
    else (s.push ⟨key, value, if ttl > 0 then now + ttl else 0⟩, none)

def get (s : Store) (now : Int) (key : String) : Store × Option (List UInt8) :=
  match s.entries.lookup key with
  | none => (s, none)
  | some elem =>
      if elem.value.isExpired now then (s.removeElement elem, none)
      else ({ s with lru := s.lru.moveToFront elem }, some elem.value.value)

def delete (s : Store) (now : Int) (key : String) : Store × Bool :=
  match s.entries.lookup key with
  | none => (s, false)
  | some elem =>
      if elem.value.isExpired now then (s.removeElement elem, false)
      else (s.removeElement elem, true)

/-- The entries that `cleanupExpired` collects, in some order. It keeps an entry
without expiry and one whose expiry is ahead. -/
def expired (s : Store) (now : Int) : List Element :=
  (s.entries.entries.map Sigma.snd).filter fun elem =>
    ¬ (elem.value.expiresAt = 0 ∨ now < elem.value.expiresAt)

def cleanupExpired (s : Store) (now : Int) : Store :=
  (s.expired now).foldl removeElement s

end Store

inductive Op
  | set (key : String) (value : List UInt8) (ttl : Int)
  | get (key : String)
  | delete (key : String)
  | cleanupExpired
  deriving DecidableEq, Repr

inductive Result
  | set (err : Option StoreError)
  | get (value : Option (List UInt8))
  | delete (deleted : Bool)
  | cleaned
  deriving DecidableEq, Repr

def Store.apply (s : Store) (now : Int) : Op → Store × Result
  | .set key value ttl => ((s.set now key value ttl).1, .set (s.set now key value ttl).2)
  | .get key => ((s.get now key).1, .get (s.get now key).2)
  | .delete key => ((s.delete now key).1, .delete (s.delete now key).2)
  | .cleanupExpired => (s.cleanupExpired now, .cleaned)

/-- A store under operations, each with the clock reading it is given. -/
def exec (s : Store) (a : Int × Op) : Except Empty Store :=
  .ok (s.apply a.1 a.2).1

def system (maxBytes : Int) : Transition.System Store (Int × Op) :=
  Transition.ofExec (fun s => s = newStore maxBytes) exec

abbrev Run (maxBytes : Int) (past : List (Store × Int × Op)) (s : Store) : Prop :=
  Transition.Run (system maxBytes) past s

/-- Runs given by their operations are checked by evaluation. -/
theorem Run.of_ops (maxBytes : Int) (ops : List (Int × Op))
    (check : List (Store × Int × Op) → Store → Bool)
    (h : (Transition.trace exec [] (newStore maxBytes) ops).any (fun r => check r.1 r.2) = true) :
    ∃ past s, Run maxBytes past s ∧ check past s = true :=
  Transition.Run.of_trace (fun s => s = newStore maxBytes) rfl ops check h

end DistributedCache.Cache
