import NmpStore.Coverage.Recorded
import NmpStore.Store.Run

/-! # What a collection leaves of a coverage row

The rows of the store that the collection evicts are no longer there to be read, so a coverage row keeps only the times
after the last of them.
-/

namespace NmpStore

namespace GcVictimIndex

variable {index : GcVictimIndex} {interval : CoverageInterval}

/-- A test that sorted times satisfy up to a point splits them there. -/
theorem takeWhile_split {p : Nat → Bool} {l : List Nat} (h : l.Pairwise fun a b => p b → p a) :
    (∀ t ∈ l.take (l.takeWhile p).length, p t) ∧ ∀ t ∈ l.drop (l.takeWhile p).length, ¬p t := by
  induction l with
  | nil => simp
  | cons a l ih =>
    obtain ⟨ha, h⟩ := pairwise_cons.mp h
    by_cases hn : p a
    · simpa [hn] using ih h
    · rw [List.takeWhile_cons_of_neg hn]
      refine ⟨fun t ht => absurd ht not_mem_nil, fun t ht hp => hn ?_⟩
      rcases mem_cons.mp ht with rfl | ht
      · exact hp
      · exact ha t ht hp

theorem maxWithin_spec (h : index.maxWithin interval = .ok newest) :
    (∀ t ∈ index.createdAt, interval.Holds t → ∃ m ∈ newest, t ≤ m) ∧
      ∀ m ∈ newest, m ∈ index.createdAt ∧ interval.Holds m := by
  have hlo := takeWhile_split (p := (· < interval.first)) (index.sorted.imp fun h => by simpa using h.trans_lt)
  have hhi := takeWhile_split (p := (· ≤ interval.through)) (index.sorted.imp fun h => by simpa using h.trans)
  unfold maxWithin partitionPoint at h
  generalize (index.createdAt.takeWhile (· < interval.first)).length = start at h hlo
  generalize (index.createdAt.takeWhile (· ≤ interval.through)).length = stop at h hhi
  simp only [decide_eq_true_eq] at hlo hhi
  dsimp only at h
  split at h
  · next hS =>
    rw [← List.drop_take] at h
    obtain rfl := Except.ok.inj h
    have hT := index.sorted.sublist ((List.drop_sublist start _).trans (List.take_sublist stop _))
    refine ⟨fun t ht hi => ?_, fun m hm => ?_⟩
    · have hm : t ∈ (index.createdAt.take stop).drop start := by
        rw [← List.take_append_drop stop index.createdAt, mem_append] at ht
        have ht := ht.resolve_right fun ht => hhi.2 t ht hi.2
        rw [← List.take_append_drop start (List.take stop _), mem_append, List.take_take, min_eq_left hS] at ht
        exact ht.resolve_left fun ht => (hlo.1 t ht).not_ge hi.1
      exact ⟨_, List.getLast?_eq_some_getLast (List.ne_nil_of_mem hm), hT.rel_getLast hm⟩
    · have hm := List.mem_of_getLast? hm
      have ht := List.mem_of_mem_drop hm
      refine ⟨List.mem_of_mem_take ht, not_lt.mp (hlo.2 m ?_), hhi.1 m ht⟩
      rw [List.drop_take] at hm
      exact List.mem_of_mem_take hm
  · cases h

end GcVictimIndex

namespace CoverageTable

variable {coverage : CoverageTable} {index : GcVictimIndex}

/-- What is left of a row. -/
def Left (index : GcVictimIndex) (old new : Option CoverageInterval) : Prop :=
  ∀ t ≤ u64Max, (∃ interval ∈ new, interval.Holds t) ↔
    ∃ interval ∈ old, interval.Holds t ∧ ∀ v ∈ index.createdAt, interval.Holds v → v < t

theorem rowUpdate_left {interval : CoverageInterval} (h : rowUpdate index interval = .ok u) :
    Left index (some interval) (u.getD (some interval)) := by
  intro t ht
  obtain ⟨newest, hN, hU⟩ := bind_ok.mp h
  obtain rfl := pure_ok.mp hU
  obtain ⟨hM, hI⟩ := GcVictimIndex.maxWithin_spec hN
  cases newest with
  | none =>
    simpa using fun _ v hv hi => absurd (hM v hv hi) (by simp)
  | some m =>
    simp only [Option.mem_def, Option.some.injEq, forall_eq', exists_eq_left', map_some, getD_some] at hM hI ⊢
    unfold CoverageInterval.shrinkAfterEviction
    have hl : (∀ v ∈ index.createdAt, interval.Holds v → v < t) ↔ m < t :=
      ⟨fun h => h m hI.1 hI.2, fun h v hv hi => (hM v hv hi).trans_lt h⟩
    rw [hl]
    simp only [CoverageInterval.Holds] at hI ⊢
    split_ifs <;> simp <;> omega

theorem collectUpdates_left (h : coverage.collectUpdates index = .ok updates) (r : CoverageKey × RelaySessionKey) :
    Left index coverage[r]? (coverage.applyUpdates updates)[r]? := by
  have hn : (coverage.toList.map Prod.fst).Nodup := by
    rw [map_fst_toList_eq_keys]
    exact nodup_keys
  have hG := foldlM_induction (fun done updates => ∀ r, if r ∈ done.map Prod.fst then
      Left index coverage[r]? (coverage.applyUpdates updates)[r]? else (coverage.applyUpdates updates)[r]? = coverage[r]?)
    (by simp [applyUpdates]) ?_ h r
  · split at hG
    · exact hG
    · next hN =>
      cases hr : coverage[r]? with
      | none => simp [hG, hr, Left]
      | some i => exact absurd (mem_map_of_mem (mem_toList.mpr hr)) hN
  · intro done a ac next hP hA hS r
    obtain ⟨u, hU, hE⟩ := bind_ok.mp hS
    obtain rfl := pure_ok.mp hE
    have hG : (coverage.applyUpdates (ac ++ (u.map fun next => (a.1, next)).toList))[r]? =
        if a.1 = r then u.getD (coverage.applyUpdates ac)[r]? else (coverage.applyUpdates ac)[r]? := by
      cases u with
      | none => simp
      | some next => cases next <;> simp [applyUpdates, applyUpdate, get_insert, get_erase]
    obtain ⟨rest, hP⟩ := hP
    have hm : coverage[a.1]? = some a.2 := mem_toList.mp (hP ▸ by simp)
    have hY : a.1 ∉ done.map Prod.fst := by
      rw [← hP, map_append, map_append, append_assoc] at hn
      exact fun hm => (nodup_append.mp hn).2.2 _ hm _ (by simp) rfl
    have hB := hA r
    rw [hG, map_append, map_cons, map_nil]
    by_cases hr : a.1 = r
    · subst hr
      rw [if_neg hY] at hB
      rw [if_pos (by simp), if_pos rfl, hB, hm]
      exact rowUpdate_left hU
    · simpa only [mem_append, mem_singleton, Ne.symm hr, or_false, if_neg hr] using hB

end CoverageTable

namespace Store

variable [ShardHash]

/-- After a collection a row covers exactly the times it did that are later than every evicted event it covered. -/
theorem gc_coverage_exact {s s' : Store} {claimed : Event → Bool} (hGc : s.gc claimed = .ok (report, s'))
    (row : CoverageKey × RelaySessionKey) {t : Nat} (hT : t ≤ u64Max) :
    (∃ interval ∈ s'.coverage[row]?, interval.Holds t) ↔ ∃ interval ∈ s.coverage[row]?, interval.Holds t ∧
      ∀ (key : EventKey) event, s.events.rows[key]? = some event → s.isVictim claimed (key, event) = true →
        interval.Holds event.createdAt → event.createdAt < t := by
  simp only [gc, commit, run_ok, mapError_ok] at hGc
  obtain ⟨evs, -, updates, hU, -, ⟨fls, -, rfl⟩, -, rfl⟩ := hGc
  refine (CoverageTable.collectUpdates_left hU row t hT).trans ?_
  refine exists_congr fun interval => and_congr_right fun _ => and_congr_right fun _ => ?_
  simp only [GcVictimIndex.new, List.mem_mergeSort, mem_map, mem_filter]
  constructor
  · exact fun h key event hA hV => h _ ⟨event, ⟨(key, event), ⟨mem_toList.mpr hA, hV⟩, rfl⟩, rfl⟩
  · rintro h _ ⟨_, ⟨entry, ⟨hA, hV⟩, rfl⟩, rfl⟩
    exact h entry.1 entry.2 (mem_toList.mp hA) hV

def relayRow : CoverageKey × RelaySessionKey := (7, "wss://relay", none)

omit [ShardHash] in
/-- A note of time 10 is evicted from under a row that starts at time 0. -/
theorem gc_coverage_exact_one_note : ∃ (s s' : Store) (report : GcReport),
    @gc oneShard s (fun _ => false) = .ok (report, s') ∧ s.coverage[relayRow]? = some ⟨0, 50⟩ ∧
      ∀ interval ∈ s'.coverage[relayRow]?, ¬interval.Holds 10 := by
  let _ := oneShard
  have hR : ((insert {} expiringNote ⟨"wss://relay", 11⟩).toOption.any fun result =>
      let s := result.2.recordCoverage [(relayRow.1, relayRow.2, ⟨0, 50⟩)]
      (s.gc fun _ => false).toOption.isSome && s.isVictim (fun _ => false) (1, expiringNote) &&
        decide (s.events.rows[1]? = some expiringNote ∧ s.coverage[relayRow]? = some ⟨0, 50⟩)) = true := by
    decide +kernel
  simp only [any_eq_true, and_eq_true, isSome_iff_exists, decide_eq_true_eq, toOption_some] at hR
  obtain ⟨result, -, ⟨⟨⟨report, s'⟩, hGc⟩, hV⟩, hA, hC⟩ := hR
  refine ⟨_, s', report, hGc, hC, fun interval hI hT => ?_⟩
  obtain ⟨_, hO, -, hL⟩ := (gc_coverage_exact hGc relayRow (by decide)).mp ⟨interval, hI, hT⟩
  cases hC.symm.trans hO
  exact absurd (hL 1 _ hA hV (by decide)) (by decide)

end Store

end NmpStore
