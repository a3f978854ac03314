import NmpStore.Base
import Mathlib.Tactic.Common

/-! # Events and their addresses

An event is kept as its accessors show it: the tag list by the ids, coordinates, identifier, expiration and
single-letter values that the store reads from it.
-/

namespace NmpStore

abbrev EventId := Nat
abbrev PublicKey := Nat
abbrev Signature := Nat
abbrev RelayUrl := String

structure Coordinate where
  kind : Nat
  publicKey : PublicKey
  identifier : String
  deriving DecidableEq

theorem no_values_le : ∀ tag ∈ ([] : List (UInt8 × Bytes)), tag.2.length ≤ u32Max := by
  simp

structure Tags where
  eventIds : List EventId := []
  coordinates : List Coordinate := []
  identifier : Option String := none
  expiration : Option Nat := none
  single : List (UInt8 × Bytes) := []
  /-- The index of an event with a longer value panics. -/
  single_le : ∀ tag ∈ single, tag.2.length ≤ u32Max := by
    first | exact no_values_le | decide
  deriving DecidableEq

structure Event where
  id : Nat
  pubkey : PublicKey
  createdAt : Nat
  kind : Nat
  tags : Tags := {}
  content : Bytes := []
  sig : Signature
  /-- Times are 64-bit. -/
  createdAt_le : createdAt ≤ u64Max := by decide
  deriving DecidableEq

abbrev Bodies := EventId → Event

namespace Event

/-- No tags and no content, at the last time that fits. -/
def bare (id : EventId) (pubkey : PublicKey) (createdAt kind : Nat) : Event where
  id := id
  pubkey := pubkey
  createdAt := min createdAt u64Max
  kind := kind
  sig := 0
  createdAt_le := Nat.min_le_right createdAt u64Max

def SameBody (a b : Event) : Prop := a = { b with sig := a.sig }

instance (a b : Event) : Decidable (SameBody a b) := inferInstanceAs (Decidable (a = _))

theorem SameBody.refl (a : Event) : SameBody a a := rfl

theorem SameBody.symm (h : SameBody a b) : SameBody b a := by
  unfold SameBody at h ⊢
  rw [h]

theorem SameBody.trans (ha : SameBody a b) (hb : SameBody b c) : SameBody a c := by
  unfold SameBody at ha hb ⊢
  rw [ha, hb]

def isExpiredAt (event : Event) (now : Nat) : Bool := event.tags.expiration.any (· < now)

def isDeletion (event : Event) : Bool := event.kind = 5

end Event

inductive AddressKey where
  | replaceable (pubkey : PublicKey) (kind : Nat)
  | addressable (pubkey : PublicKey) (kind : Nat) (identifier : String)
  deriving DecidableEq

def isReplaceableKind (kind : Nat) : Bool := kind = 0 ∨ kind = 3 ∨ (10000 ≤ kind ∧ kind ≤ 19999)

def isAddressableKind (kind : Nat) : Bool := 30000 ≤ kind ∧ kind ≤ 39999

def addressKeyFor (event : Event) : Option AddressKey :=
  if isReplaceableKind event.kind then some (.replaceable event.pubkey event.kind)
  else if isAddressableKind event.kind then
    some (.addressable event.pubkey event.kind (event.tags.identifier.getD ""))
  else none

def addressKeyForCoordinate (coord : Coordinate) : Option AddressKey :=
  if isReplaceableKind coord.kind then some (.replaceable coord.publicKey coord.kind)
  else if isAddressableKind coord.kind then some (.addressable coord.publicKey coord.kind coord.identifier)
  else none

abbrev RedbKey := Nat × PublicKey × Nat × String

def AddressKey.toRedbKey : AddressKey → RedbKey
  | .replaceable pubkey kind => (0, pubkey, kind, "")
  | .addressable pubkey kind identifier => (1, pubkey, kind, identifier)

def addressOf (event : Event) : Option RedbKey := (addressKeyFor event).map AddressKey.toRedbKey

def addressOfCoordinate (coord : Coordinate) : Option RedbKey :=
  (addressKeyForCoordinate coord).map AddressKey.toRedbKey

def candidateWins (candidate current : Event) : Bool :=
  match compare candidate.createdAt current.createdAt with
  | .gt => true
  | .lt => false
  | .eq => candidate.id < current.id

theorem candidateWins_iff : candidateWins a b = true ↔
    b.createdAt < a.createdAt ∨ (a.createdAt = b.createdAt ∧ a.id < b.id) := by
  unfold candidateWins
  split <;> rename_i h
  · simp [compare_gt_iff_gt.mp h]
  · have := compare_lt_iff_lt.mp h
    simp only [false_eq_true, false_iff]
    omega
  · simp [compare_eq_iff_eq.mp h]

theorem addressOf_isDeletion (h : ev.isDeletion = true) : addressOf ev = none := by
  have hK : ev.kind = 5 := by simpa [Event.isDeletion] using h
  simp [addressOf, addressKeyFor, isReplaceableKind, isAddressableKind, hK]

section SameBody

variable {a b : Event}

theorem Event.SameBody.fields (h : a.SameBody b) :
    a.id = b.id ∧ a.pubkey = b.pubkey ∧ a.createdAt = b.createdAt ∧ a.kind = b.kind ∧ a.tags = b.tags := by
  unfold Event.SameBody at h
  rw [h]
  simp

theorem Event.SameBody.addressOf_eq (h : a.SameBody b) : addressOf a = addressOf b := by
  unfold Event.SameBody at h
  rw [h]
  rfl

end SameBody

end NmpStore
