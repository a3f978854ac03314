import NmpStore.Coverage.Interval

/-! # What recording claims

A coverage row is one interval, which every recorded interval widens or replaces.
-/

namespace NmpStore

namespace CoverageInterval

variable {interval : CoverageInterval}

def Holds (interval : CoverageInterval) (t : Nat) : Prop := interval.first ≤ t ∧ t ≤ interval.through

instance : DecidablePred interval.Holds := fun _ => inferInstanceAs (Decidable (_ ∧ _))

/-- Two intervals join exactly if they overlap or are a second apart, and otherwise the later one stays. -/
theorem mergeInterval_spec (c : CoverageInterval) (hN : incoming.WellFormed) (hM : incoming.through ≤ u64Max) :
    (mergeInterval (some c) incoming).through = max c.through incoming.through ∧
      if incoming.first ≤ c.through + 1 ∧ c.first ≤ incoming.through + 1 then
        ∀ t, (mergeInterval (some c) incoming).Holds t ↔ c.Holds t ∨ incoming.Holds t
      else mergeInterval (some c) incoming = c ∨ mergeInterval (some c) incoming = incoming := by
  have hT : touches c incoming = true ↔
      incoming.first ≤ c.through + 1 ∧ c.first ≤ incoming.through + 1 := by
    simp only [WellFormed] at hN
    simp only [touches, and_eq_true, decide_eq_true_eq]
    omega
  simp only [← hT]
  simp only [WellFormed, mergeInterval, Holds] at *
  split_ifs with ht hL
  · rw [hT] at ht
    refine ⟨rfl, fun t => ?_⟩
    dsimp only
    omega
  · exact ⟨(max_eq_right hL.le).symm, .inr rfl⟩
  · exact ⟨(max_eq_left (not_lt.mp hL)).symm, .inl rfl⟩

end CoverageInterval

namespace CoverageTable

variable {coverage : CoverageTable} {interval : CoverageInterval}

/-- The intervals that calls have recorded in the row since it was last empty. -/
inductive Recorded (row : CoverageKey × RelaySessionKey) : CoverageTable → List CoverageInterval → Prop
  | empty {coverage : CoverageTable} (hNone : coverage[row]? = none) : Recorded row coverage []
  | record {coverage : CoverageTable} {recorded : List CoverageInterval} (before : Recorded row coverage recorded)
      (claims : List (CoverageKey × RelaySessionKey × CoverageInterval))
      (hClaims : ∀ claim ∈ claims, claim.2.2.WellFormed ∧ claim.2.2.through ≤ u64Max) :
      Recorded row (coverage.record claims)
        (recorded ++ (claims.filter fun claim => (claim.1, claim.2.1) = row).map (·.2.2))

/-- The row claims nothing that was not recorded, and ends where the last of the recorded intervals ends. -/
structure Claims (stored : Option CoverageInterval) (recorded : List CoverageInterval) : Prop where
  fresh : stored = none → recorded = []
  within : ∀ interval ∈ stored, ∀ t, interval.Holds t → ∃ r ∈ recorded, r.Holds t
  latest : ∀ interval ∈ stored,
    (∃ r ∈ recorded, r.through = interval.through) ∧ ∀ r ∈ recorded, r.through ≤ interval.through

theorem Claims.merge (h : Claims stored recorded) (hN : interval.WellFormed)
    (hM : interval.through ≤ u64Max) : Claims (some (.mergeInterval stored interval)) (recorded ++ [interval]) := by
  cases stored with
  | none => simpa [h.fresh rfl, CoverageInterval.mergeInterval] using ⟨nofun, by simp, by simp⟩
  | some c =>
    obtain ⟨hT, hJ⟩ := CoverageInterval.mergeInterval_spec c hN hM
    refine ⟨nofun, ?_, ?_⟩ <;> rintro m ⟨⟩
    · intro t ht
      have he : c.Holds t ∨ interval.Holds t := by
        split_ifs at hJ
        · exact (hJ t).mp ht
        rcases hJ with hE | hE
        · exact .inl (hE ▸ ht)
        · exact .inr (hE ▸ ht)
      rcases he with hO | hH
      · obtain ⟨r, hr, hI⟩ := h.within c rfl t hO
        exact ⟨r, mem_append_left _ hr, hI⟩
      · exact ⟨interval, by simp, hH⟩
    · obtain ⟨⟨r, hr, hE⟩, hA⟩ := h.latest c rfl
      rw [hT]
      refine ⟨?_, fun r hr => ?_⟩
      · rcases le_total c.through interval.through with hL | hL
        · exact ⟨interval, by simp, (max_eq_right hL).symm⟩
        · exact ⟨r, mem_append_left _ hr, hE.trans (max_eq_left hL).symm⟩
      · rcases mem_append.mp hr with hO | hH
        · exact (hA r hO).trans (le_max_left _ _)
        · exact mem_singleton.mp hH ▸ le_max_right _ _

theorem Claims.record
    (h : Claims coverage[r]? recorded) (hClaims : ∀ cl ∈ cla, cl.2.2.WellFormed ∧ cl.2.2.through ≤ u64Max) :
    Claims (coverage.record cla)[r]?
      (recorded ++ (cla.filter fun cl => (cl.1, cl.2.1) = r).map (·.2.2)) := by
  induction cla generalizing coverage recorded with
  | nil => simpa [CoverageTable.record] using h
  | cons cl cla ih =>
    obtain ⟨hF, hR⟩ := List.forall_mem_cons.mp hClaims
    have hG : (coverage.recordOne cl)[r]? = _ := get_insert ..
    by_cases hW : (cl.1, cl.2.1) = r
    · have hH : Claims (coverage.recordOne cl)[r]? (recorded ++ [cl.2.2]) := by
        rw [hG, if_pos hW, hW]
        exact h.merge hF.1 hF.2
      simpa [CoverageTable.record, hW] using ih hH hR
    · have hH : Claims (coverage.recordOne cl)[r]? recorded := by
        rw [hG, if_neg hW]
        exact h
      simpa [CoverageTable.record, hW] using ih hH hR

theorem Recorded.claims (h : Recorded r coverage recorded) : Claims coverage[r]? recorded := by
  induction h with
  | empty hNone => exact ⟨fun _ => rfl, by simp [hNone], by simp [hNone]⟩
  | record _ cl hClaims ih => exact ih.record hClaims

/-- A row claims only seconds that were recorded since it was last empty, up to the last of them; and two intervals join
only over no gap. -/
theorem recorded_never_invents (h : Recorded row coverage recorded) :
    (∀ interval, coverage[row]? = some interval → (∀ t, interval.Holds t → ∃ r ∈ recorded, r.Holds t) ∧
      (∃ r ∈ recorded, r.through = interval.through) ∧ ∀ r ∈ recorded, r.through ≤ interval.through) ∧
    ∀ current incoming : CoverageInterval, incoming.WellFormed → incoming.through ≤ u64Max →
      if incoming.first ≤ current.through + 1 ∧ current.first ≤ incoming.through + 1 then
        ∀ t, (CoverageInterval.mergeInterval (some current) incoming).Holds t ↔ current.Holds t ∨ incoming.Holds t
      else CoverageInterval.mergeInterval (some current) incoming = current ∨
        CoverageInterval.mergeInterval (some current) incoming = incoming :=
  ⟨fun interval hAt => ⟨h.claims.within interval hAt, h.claims.latest interval hAt⟩,
    fun current _ hNew hMax => (CoverageInterval.mergeInterval_spec current hNew hMax).2⟩

theorem recorded_never_invents_adjacent :
    let row : CoverageKey × RelaySessionKey := (7, ("wss://relay", none))
    ∃ coverage : CoverageTable, coverage[row]? = some ⟨5, 20⟩ ∧ Recorded row coverage [⟨5, 9⟩, ⟨10, 20⟩] ∧
      ∃ r ∈ [(⟨5, 9⟩ : CoverageInterval), ⟨10, 20⟩], r.Holds 10 := by
  intro row
  have hR : Recorded row (CoverageTable.record ∅ [(7, row.2, ⟨5, 9⟩), (7, row.2, ⟨10, 20⟩)]) [⟨5, 9⟩, ⟨10, 20⟩] :=
    .record (.empty (by simp)) _ (by decide)
  have hG : (CoverageTable.record ∅ [(7, row.2, ⟨5, 9⟩), (7, row.2, ⟨10, 20⟩)])[row]? = some ⟨5, 20⟩ := by decide +kernel
  exact ⟨_, hG, hR, ((recorded_never_invents hR).1 _ hG).1 10 (by decide)⟩

end CoverageTable

end NmpStore
