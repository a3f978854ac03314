import Mathlib.Data.Prod.Lex
import NmpStore.Lib.Except
import NmpStore.Lib.Grouping
import NmpStore.Lib.KWayMerge
import NmpStore.Lib.BinarySearch
import NmpStore.Base

/-! # The packed postings format

An immutable run stores every event id once, in a dictionary ordered by event key, and addresses it by its ordinal from
each index membership.
-/

namespace NmpStore.Postings

inductive Family
  | global
  | author
  | kind
  | tag
  deriving DecidableEq

def Family.all : List Family := [.global, .author, .kind, .tag]

def Family.toU8 : Family → Nat
  | .global => 0
  | .author => 1
  | .kind => 2
  | .tag => 3

theorem Family.mem_all (f : Family) : f ∈ Family.all := by
  cases f <;> simp [Family.all]

theorem Family.toU8_injective : Function.Injective Family.toU8 := by
  intro a b h
  cases a <;> cases b <;> first | rfl | cases h

@[ext]
structure RunEvent where
  createdAt : Nat
  id : Nat
  eventKey : EventKey
  deriving DecidableEq

def RunEvent.rank (event : RunEvent) : ℕᵒᵈ ×ₗ ℕ ×ₗ ℕ :=
  toLex (OrderDual.toDual event.createdAt, toLex (event.id, event.eventKey))

theorem RunEvent.rank_injective : Function.Injective RunEvent.rank := by
  rintro ⟨t, i, k⟩ ⟨t', i', k'⟩ h
  simpa [RunEvent.rank] using h

theorem RunEvent.rank_lt_iff {a b : RunEvent} : a.rank < b.rank ↔
    b.createdAt < a.createdAt ∨ (a.createdAt = b.createdAt ∧ (a.id < b.id ∨ (a.id = b.id ∧ a.eventKey < b.eventKey))) := by
  simp [RunEvent.rank, Prod.Lex.toLex_lt_toLex]

def canonicalOrder (left right : RunEvent) : Ordering :=
  ((compare right.createdAt left.createdAt).then (compare left.id right.id)).then
    (compare left.eventKey right.eventKey)

instance : TransCmp canonicalOrder :=
  inferInstanceAs (TransCmp (compareLex
    (compareLex (fun a b => compareOn RunEvent.createdAt b a) (compareOn RunEvent.id)) (compareOn RunEvent.eventKey)))

theorem canonicalOrder_eq_lt_iff {a b : RunEvent} : canonicalOrder a b = .lt ↔ a.rank < b.rank := by
  rw [RunEvent.rank_lt_iff]
  simp only [canonicalOrder, Ordering.then_eq_lt, Ordering.then_eq_eq, compare_lt_iff_lt, compare_eq_iff_eq]
  grind

structure Membership where
  family : Family
  shard : Nat
  pfx : Bytes
  event : RunEvent
  deriving DecidableEq

class ShardHash where
  hash : Family → Bytes → Fin 64

section

variable [ShardHash]

def shardMask : Nat := 63

def shardFor (family : Family) (pfx : Bytes) : Nat :=
  if family = .global then 0 else ShardHash.hash family pfx

theorem shardFor_le (f : Family) (p : Bytes) : shardFor f p ≤ shardMask := by
  unfold shardFor shardMask
  split
  · omega
  · have := (ShardHash.hash f p).isLt
    omega

end

abbrev Dictionary := List (EventKey × Nat)

variable (dictionary : Dictionary)

def validateOrder : Except String Dictionary :=
  if dictionary.IsChain (fun a b => a.1 < b.1) then pure dictionary
  else throw "dictionary keys are not strictly ordered"

def validateDictionary : Except String Dictionary := do
  let _ ← validateOrder dictionary
  if (dictionary.map Prod.snd).Nodup then pure dictionary
  else throw "dictionary ids are not unique"

def dictionaryEvent (ordinal createdAt : Nat) : Except String RunEvent :=
  match dictionary[ordinal]? with
  | none => throw "posting dictionary ordinal out of bounds"
  | some (eventKey, id) => pure ⟨createdAt, id, eventKey⟩

def encodeDictionary (entries : Dictionary) : Except String Dictionary :=
  if entries.length > u32Max then throw "dictionary exceeds u32" else pure entries

structure Posting where
  createdAt : Nat
  ordinal : Nat
  deriving DecidableEq

structure PrefixRecord where
  pfx : Bytes
  postings : List Posting
  deriving DecidableEq

structure Segment where
  family : Family
  shard : Nat
  records : List PrefixRecord
  deriving DecidableEq

def segmentHeaderLen : Nat := 14
def postingEntryLen : Nat := 12

def recordLen (pfx : Bytes) (postingCount : Nat) : Nat :=
  4 + pfx.length + 4 + postingEntryLen * postingCount

def encodePrefixRecord (ordinals : EventKey → Option Nat) (pfx : Bytes) (postings : List Membership) :
    Except String PrefixRecord := do
  refuseIf (pfx.length > u32Max) "prefix exceeds u32"
  refuseIf (postings.length > u32Max) "posting count exceeds u32"
  let postings ← postings.mapM fun membership =>
    match ordinals membership.event.eventKey with
    | none => throw "posting event is absent from run dictionary"
    | some ordinal => pure (Posting.mk membership.event.createdAt ordinal)
  pure ⟨pfx, postings⟩

def encodeRecords (ordinals : EventKey → Option Nat) : Nat → List (List Membership) → Except String (List PrefixRecord)
  | _, [] => pure []
  | len, group :: groups => do
    refuseIf (len > u32Max) "segment offset exceeds u32"
    let pfx := (group.head?.map Membership.pfx).getD []
    let record ← encodePrefixRecord ordinals pfx group
    let records ← encodeRecords ordinals (len + recordLen pfx group.length) groups
    pure (record :: records)

def encodeSegment (family : Family) (shard : Nat) (memberships : List Membership)
    (ordinals : EventKey → Option Nat) : Except String Segment := do
  let groups := Grouping.groups Membership.pfx memberships
  refuseIf (groups.length > u32Max) "segment prefix count exceeds u32"
  let records ← encodeRecords ordinals (segmentHeaderLen + 4 * groups.length) groups
  pure ⟨family, shard, records⟩

end NmpStore.Postings

namespace NmpStore

export Postings (ShardHash)

end NmpStore
