import NmpStore.Event
import NmpStore.Lib.Except

/-! # Coverage intervals

A coverage row says that one relay session has been read completely over a closed interval of time.
-/

namespace NmpStore

abbrev CoverageKey := Nat

abbrev RelaySessionKey := RelayUrl × Option PublicKey

structure CoverageInterval where
  first : Nat
  through : Nat
  deriving DecidableEq

namespace CoverageInterval

def WellFormed (interval : CoverageInterval) : Prop := interval.first ≤ interval.through

instance (interval : CoverageInterval) : Decidable interval.WellFormed :=
  inferInstanceAs (Decidable (_ ≤ _))

def touches (current incoming : CoverageInterval) : Bool :=
  incoming.first ≤ min (current.through + 1) u64Max && current.first - 1 ≤ incoming.through

def mergeInterval (existing : Option CoverageInterval) (incoming : CoverageInterval) : CoverageInterval :=
  match existing with
  | none => incoming
  | some current =>
    if touches current incoming then
      ⟨min current.first incoming.first, max current.through incoming.through⟩
    else if current.through < incoming.through then incoming
    else current

def shrinkAfterEviction (interval : CoverageInterval) (evictedAt : Nat) : Option CoverageInterval :=
  if evictedAt + 1 ≤ u64Max then
    if interval.through < evictedAt + 1 then none else some ⟨evictedAt + 1, interval.through⟩
  else none

theorem WellFormed.mergeInterval (hO : ∀ c ∈ o, c.WellFormed) (hN : incoming.WellFormed) :
    (mergeInterval o incoming).WellFormed := by
  cases o with
  | none => exact hN
  | some c =>
    have hC := hO c rfl
    unfold CoverageInterval.mergeInterval WellFormed at *
    dsimp only
    split_ifs
    · exact (min_le_left _ _).trans (hC.trans (le_max_left _ _))
    · exact hN
    · exact hC

theorem shrinkAfterEviction_wellFormed {interval next : CoverageInterval}
    (h : interval.shrinkAfterEviction evictedAt = some next) : next.WellFormed := by
  unfold shrinkAfterEviction at h
  split_ifs at h with _ hA
  cases h
  exact not_lt.mp hA

end CoverageInterval

structure SlicePanic where
  start : Nat
  stop : Nat
  deriving DecidableEq

structure GcVictimIndex where
  createdAt : List Nat
  sorted : createdAt.Pairwise (· ≤ ·)

namespace GcVictimIndex

def new (victims : List Event) : GcVictimIndex where
  createdAt := (victims.map (·.createdAt)).mergeSort (· ≤ ·)
  sorted := by
    have h : ((victims.map (·.createdAt)).mergeSort (· ≤ ·)).Pairwise (fun a b => decide (a ≤ b) = true) :=
      List.pairwise_mergeSort (fun a b c => by simpa using le_trans) (fun a b => by simpa using Nat.le_total a b) _
    simpa using h

variable (index : GcVictimIndex)

/-- How many of the leading times satisfy the test, which sorted times satisfy up to a point. -/
def partitionPoint (test : Nat → Bool) : Nat :=
  (index.createdAt.takeWhile test).length

def maxWithin (interval : CoverageInterval) : Except SlicePanic (Option Nat) :=
  let start := index.partitionPoint (· < interval.first)
  let stop := index.partitionPoint (· ≤ interval.through)
  if start ≤ stop then .ok ((index.createdAt.drop start).take (stop - start)).getLast?
  else .error ⟨start, stop⟩

theorem takeWhile_length_mono {p q : Nat → Bool} (h : ∀ a, p a → q a) (l : List Nat) :
    (l.takeWhile p).length ≤ (l.takeWhile q).length := by
  induction l with
  | nil => simp
  | cons a l ih =>
    by_cases hp : p a
    · simpa [hp, h a hp] using ih
    · simp [hp]

theorem maxWithin_ok (h : interval.WellFormed) :
    ∃ nw, index.maxWithin interval = .ok nw := by
  have hL : index.partitionPoint (· < interval.first) ≤ index.partitionPoint (· ≤ interval.through) := by
    refine takeWhile_length_mono (fun a ha => ?_) _
    simp only [decide_eq_true_eq] at ha ⊢
    exact ha.le.trans h
  exact ⟨_, if_pos hL⟩

end GcVictimIndex

abbrev CoverageTable := Table (CoverageKey × RelaySessionKey) CoverageInterval

namespace CoverageTable

variable (coverage : CoverageTable)

def WellFormed : Prop :=
  ∀ (row : CoverageKey × RelaySessionKey) (interval : CoverageInterval),
    coverage[row]? = some interval → interval.WellFormed

def recordOne (claim : CoverageKey × RelaySessionKey × CoverageInterval) :
    CoverageTable :=
  coverage.insert (claim.1, claim.2.1)
    (CoverageInterval.mergeInterval coverage[(claim.1, claim.2.1)]? claim.2.2)

def record (claims : List (CoverageKey × RelaySessionKey × CoverageInterval)) :
    CoverageTable :=
  claims.foldl recordOne coverage

def rowUpdate (index : GcVictimIndex) (interval : CoverageInterval) :
    Except SlicePanic (Option (Option CoverageInterval)) := do
  let newest ← index.maxWithin interval
  pure (newest.map interval.shrinkAfterEviction)

def collectUpdates (index : GcVictimIndex) :
    Except SlicePanic (List ((CoverageKey × RelaySessionKey) × Option CoverageInterval)) :=
  coverage.toList.foldlM (fun updates row => do
    let update ← rowUpdate index row.2
    pure (updates ++ (update.map fun next => (row.1, next)).toList)) []

def applyUpdate
    (update : (CoverageKey × RelaySessionKey) × Option CoverageInterval) : CoverageTable :=
  match update.2 with
  | none => coverage.erase update.1
  | some next => coverage.insert update.1 next

def applyUpdates
    (updates : List ((CoverageKey × RelaySessionKey) × Option CoverageInterval)) : CoverageTable :=
  updates.foldl applyUpdate coverage

theorem WellFormed.empty : WellFormed ∅ := by
  intro r interval h
  simp at h

variable {coverage : CoverageTable} {interval : CoverageInterval} {index : GcVictimIndex}

theorem WellFormed.insert (ho : coverage.WellFormed) (r : CoverageKey × RelaySessionKey) (h : interval.WellFormed) :
    WellFormed (coverage.insert r interval) := by
  intro o fd hF
  rcases insert_some.mp hF with ⟨-, rfl⟩ | ⟨-, hF⟩
  · exact h
  · exact ho o fd hF

theorem WellFormed.recordOne (ho : coverage.WellFormed)
    (h : claim.2.2.WellFormed) :
    (recordOne coverage claim).WellFormed :=
  ho.insert _ (.mergeInterval (fun c hC => ho _ c hC) h)

theorem WellFormed.record (ho : coverage.WellFormed)
    (h : ∀ cla ∈ cl, cla.2.2.WellFormed) : (record coverage cl).WellFormed := by
  induction cl generalizing coverage with
  | nil => exact ho
  | cons cla cl ih =>
    exact ih (ho.recordOne (h cla (.head _))) fun c hc => h c (.tail _ hc)

theorem WellFormed.applyUpdate (ho : coverage.WellFormed)
    {u : (CoverageKey × RelaySessionKey) × Option CoverageInterval}
    (h : ∀ next ∈ u.2, next.WellFormed) : (applyUpdate coverage u).WellFormed := by
  unfold CoverageTable.applyUpdate
  split
  · intro o fd hF
    exact ho o fd (of_erase hF)
  · next hN => exact ho.insert _ (h _ hN)

theorem rowUpdate_wellFormed {u : Option (Option CoverageInterval)} (h : rowUpdate index interval = .ok u) :
    ∀ next ∈ u, ∀ kp ∈ next, kp.WellFormed := by
  obtain ⟨nw, -, hU⟩ := bind_ok.mp h
  rw [pure_ok] at hU
  subst hU
  intro next hN kp hK
  obtain ⟨ev, -, rfl⟩ := Option.mem_map.mp hN
  exact CoverageInterval.shrinkAfterEviction_wellFormed hK

theorem collectUpdates_wellFormed (h : coverage.collectUpdates index = .ok up) :
    ∀ u ∈ up, ∀ kp ∈ u.2, kp.WellFormed := by
  refine foldlM_induction (fun _ up => ∀ u ∈ up, ∀ kp ∈ u.2, kp.WellFormed)
    ?_ ?_ h
  · simp
  intro done r b af _ hB hS u hU kp hK
  obtain ⟨wr, hW, hA⟩ := bind_ok.mp hS
  rw [pure_ok] at hA
  subst hA
  rcases mem_append.mp hU with hO | hN
  · exact hB u hO kp hK
  · obtain ⟨next, hn, rfl⟩ := Option.mem_map.mp (Option.mem_toList.mp hN)
    exact rowUpdate_wellFormed hW next hn kp hK

theorem WellFormed.collectUpdates (ho : coverage.WellFormed) (index : GcVictimIndex) :
    ∃ up, coverage.collectUpdates index = .ok up := by
  refine (foldlM_progress (fun _ _ => True) trivial ?_).imp fun _ h => h.1
  intro done r b hL _
  have hW : r ∈ coverage.toList := hL.subset (by simp)
  obtain ⟨nw, hN⟩ := index.maxWithin_ok (ho r.1 r.2 (mem_toList.mp hW))
  exact ⟨_, by simp only [rowUpdate, hN]; rfl, trivial⟩

theorem WellFormed.applyUpdates (ho : coverage.WellFormed)
    (h : ∀ ud ∈ up, ∀ kp ∈ ud.2, kp.WellFormed) : (applyUpdates coverage up).WellFormed := by
  induction up generalizing coverage with
  | nil => exact ho
  | cons ud up ih =>
    exact ih (ho.applyUpdate (h ud (.head _))) fun u hu => h u (.tail _ hu)

end CoverageTable

end NmpStore
