import NmpStore.Postings.Catalog
import NmpStore.Postings.Compaction

/-! # Runs as the catalog holds them

The columns of the catalog are read together: a run is its metadata, its dictionary, its death blocks and its segments.
-/

namespace NmpStore.Postings

variable [ShardHash]

section Deaths

omit [ShardHash]

theorem sortedKeys_sorted (keys : List EventKey) : (sortedKeys keys).IsChain (· < ·) := by
  have hS : (sortedKeys keys).Pairwise (· ≤ ·) :=
    (List.pairwise_insertionSort (· ≤ ·) keys).sublist (List.destutter_sublist _ _)
  have hC : (sortedKeys keys).IsChain (· ≠ ·) := List.isChain_destutter _ _
  rw [List.isChain_iff_getElem] at hC ⊢
  intro i hi
  exact lt_of_le_of_ne (List.pairwise_iff_getElem.mp hS i (i + 1) (by omega) hi (by omega)) (hC i hi)

variable {keys : List EventKey} {key : EventKey}

theorem mem_sortedKeys : key ∈ sortedKeys keys ↔ key ∈ keys := by
  constructor
  · intro h
    exact (perm_insertionSort _ keys).mem_iff.mp ((List.destutter_sublist _ _).subset h)
  · intro h
    obtain ⟨c, hc, hE⟩ := Grouping.exists_of_mem_destutter (R := (· ≠ ·))
      ((perm_insertionSort (· ≤ ·) keys).mem_iff.mpr h)
    rcases hE with rfl | hS
    · exact hc
    · obtain rfl := not_not.mp hS
      exact hc

theorem nodup_of_isChain_lt (h : keys.IsChain (· < ·)) : keys.Nodup :=
  (List.isChain_iff_pairwise.mp h).imp ne_of_lt

theorem sortedKeys_perm (h : keys.Nodup) : (sortedKeys keys).Perm keys :=
  (List.perm_ext_iff_of_nodup (nodup_of_isChain_lt (sortedKeys_sorted keys)) h).mpr fun _ => mem_sortedKeys

theorem DeadKeys.contains_iff (de : DeadKeys) (key : EventKey) : de.contains key = true ↔ key ∈ de.keys := by
  have hs := List.pairwise_iff_getElem.mp (List.isChain_iff_pairwise.mp de.sorted)
  have hA : ∀ i (hi : i < de.keys.length), de.keys[i]?.getD 0 = de.keys[i] := fun i hi => by simp [hi]
  have hL : ∀ i j, i ≤ j → (hj : j < de.keys.length) → de.keys[i]?.getD 0 ≤ de.keys[j]?.getD 0 := by
    intro i j hij hj
    rw [hA i (by omega), hA j hj]
    rcases Nat.eq_or_lt_of_le hij with rfl | hlt
    · exact le_rfl
    · exact (hs i j (by omega) hj hlt).le
  have ha : BinarySearch.Ascending de.keys.length (fun i => compare (de.keys[i]?.getD 0) key) := by
    refine ⟨fun i j hij hj hl => ?_, fun i j hij hj hG => ?_⟩
    · exact compare_lt_iff_lt.mpr ((hL i j hij hj).trans_lt (compare_lt_iff_lt.mp hl))
    · exact compare_gt_iff_gt.mpr ((compare_gt_iff_gt.mp hG).trans_le (hL i j hij hj))
  have hn := BinarySearch.binarySearchIndex_answers ha
  constructor
  · intro h
    unfold DeadKeys.contains at h
    cases hS : BinarySearch.binarySearchIndex de.keys.length (fun i => compare (de.keys[i]?.getD 0) key) with
    | error i => simp [hS, Except.isOk, Except.toBool] at h
    | ok i =>
      rw [hS] at hn
      obtain ⟨hi, hE⟩ := hn
      simp only [hA i hi] at hE
      exact compare_eq_iff_eq.mp hE ▸ List.getElem_mem hi
  · intro h
    obtain ⟨i, hi, rfl⟩ := List.mem_iff_getElem.mp h
    obtain ⟨j, hj, -⟩ := BinarySearch.exists_ok_of_eq ha hi (by simp [hi])
    simp [DeadKeys.contains, hj, Except.isOk, Except.toBool]

def deadList (dead : Option DeadKeys) : List EventKey := dead.elim [] DeadKeys.keys

theorem isDead_iff : isDead de key = true ↔ key ∈ deadList de := by
  cases de with
  | none => simp [isDead, deadList]
  | some de => simp [isDead, deadList, DeadKeys.contains_iff]

theorem DeadKeys.new_ok (hN : keys ≠ []) (hS : keys.IsChain (· < ·)) :
    DeadKeys.new keys = .ok ⟨keys, hN, hS⟩ := by
  simp [DeadKeys.new, hN, hS, pure, Except.pure]

theorem mergeDeadBlocks_eq (bl : List DeadKeys) (h : bl.length ≤ maxDeathBlocks) :
    ∃ de, mergeDeadBlocks bl = .ok de ∧ deadList de = sortedKeys (bl.flatMap DeadKeys.keys) := by
  unfold mergeDeadBlocks
  cases hK : (bl.flatMap DeadKeys.keys) with
  | nil =>
    refine ⟨none, ?_, rfl⟩
    simp only [bind_ok, refuseIf_ok]
    exact ⟨(), by omega, rfl⟩
  | cons key keys =>
    have hN : sortedKeys (key :: keys) ≠ [] := fun hZ => by
      have hM : key ∈ sortedKeys (key :: keys) := mem_sortedKeys.mpr (.head _)
      rw [hZ] at hM
      cases hM
    refine ⟨some ⟨_, hN, sortedKeys_sorted _⟩, ?_, rfl⟩
    simp only [bind_ok, refuseIf_ok]
    exact ⟨(), by omega, by simp [DeadKeys.new_ok hN (sortedKeys_sorted _), pure, Except.pure]⟩

end Deaths

structure Run where
  runMeta : RunMeta
  dictionary : Dictionary
  blocks : Nat → Option DeadKeys
  segment : Nat → Nat → Option Segment

def Packed.run? (p : Packed) (runId : Nat) : Option Run :=
  match p.runMeta[runId]?, p.dictionary[runId]? with
  | some runMeta, some dictionary =>
    some ⟨runMeta, dictionary, fun level => p.deaths[(runId, level)]?, fun family shard => p.segments[(family, shard, runId)]?⟩
  | _, _ => none

def Run.deadKeys (run : Run) : List EventKey :=
  (List.range maxDeathBlocks).flatMap fun level => deadList (run.blocks level)

def Run.Posts (run : Run) (family : Family) (pfx : Bytes) (event : RunEvent) : Prop :=
  ∃ segment, run.segment family.toU8 (shardFor family pfx) = some segment ∧ segment.Posts run.dictionary pfx event

def Run.PostsLive (run : Run) (family : Family) (pfx : Bytes) (event : RunEvent) : Prop :=
  run.Posts family pfx event ∧ event.eventKey ∉ run.deadKeys

structure RunMeta.Ok (runMeta : RunMeta) : Prop where
  min_pos : 0 < runMeta.minEventKey
  min_le_max : runMeta.minEventKey ≤ runMeta.maxEventKey
  live_pos : 0 < runMeta.liveEvents
  live_le : runMeta.liveEvents ≤ runMeta.maxEventKey - runMeta.minEventKey + 1

section
omit [ShardHash]

theorem RunMeta.encode_ok {runMeta en : RunMeta} :
    runMeta.encode = .ok en ↔ runMeta.Ok ∧ en = runMeta := by
  unfold RunMeta.encode
  split
  · simp only [Except.throw_ok, false_iff]
    rintro ⟨⟨_, _, _, _⟩, -⟩
    omega
  · simp only [pure_ok]
    exact ⟨fun h => ⟨⟨by omega, by omega, by omega, by omega⟩, h.symm⟩, fun h => h.2.symm⟩

structure RunOk (run : Run) : Prop where
  keysSorted : run.dictionary.Pairwise (fun a b => a.1 < b.1)
  idsNodup : (run.dictionary.map Prod.snd).Nodup
  min_pos : 0 < run.runMeta.minEventKey
  within : ∀ entry ∈ run.dictionary, run.runMeta.minEventKey ≤ entry.1 ∧ entry.1 ≤ run.runMeta.maxEventKey
  deadNodup : run.deadKeys.Nodup
  dead_mem : ∀ key ∈ run.deadKeys, key ∈ run.dictionary.map Prod.fst
  live_eq : run.runMeta.liveEvents + run.deadKeys.length = run.dictionary.length
  live_pos : 0 < run.runMeta.liveEvents
  segmentOk : ∀ (family : Family) (shard : Nat) (segment : Segment), run.segment family.toU8 shard = some segment →
    SegmentOk run.dictionary family shard segment
  posted : ∀ entry ∈ run.dictionary, ∃ createdAt, run.Posts .global [] ⟨createdAt, entry.2, entry.1⟩

theorem length_le_of_pairwise_lt {keys : List Nat} (hS : keys.Pairwise (· < ·))
    (hW : ∀ key ∈ keys, low ≤ key ∧ key ≤ high) : keys.length ≤ high + 1 - low := by
  have hB : keys.Subperm (List.range' low (high + 1 - low)) :=
    subperm_of_subset (hS.imp ne_of_lt) fun key hK => by
      have := hW key hK
      rw [List.mem_range'_1]
      omega
  simpa using hB.length_le

end

theorem RunOk.metaOk {r : Run} (h : RunOk r) : r.runMeta.Ok := by
  have hL := length_le_of_pairwise_lt (pairwise_map.mpr h.keysSorted) (by
    intro key hK
    obtain ⟨e, hE, rfl⟩ := mem_map.mp hK
    exact h.within e hE)
  rw [length_map] at hL
  have hl := h.live_eq
  have hP := h.live_pos
  obtain ⟨e, hE⟩ := List.exists_mem_of_length_pos (l := r.dictionary) (by omega)
  have hW : r.runMeta.minEventKey ≤ r.runMeta.maxEventKey :=
    (h.within e hE).1.trans (h.within e hE).2
  exact ⟨h.min_pos, by omega, by omega, by omega⟩

section
omit [ShardHash]

theorem flatMap_deathBlocks (p : Packed) (r : Nat) : (deathBlocks p r).flatMap DeadKeys.keys =
    (List.range maxDeathBlocks).flatMap fun l => deadList p.deaths[(r, l)]? := by
  unfold deathBlocks deathKeys
  rw [List.filterMap_map]
  induction List.range maxDeathBlocks with
  | nil => rfl
  | cons l lv ih =>
    simp only [List.filterMap_cons, Function.comp_apply, flatMap_cons, ← ih]
    cases p.deaths[(r, l)]? <;> simp [deadList]

theorem deathBlocks_length_le (p : Packed) (r : Nat) : (deathBlocks p r).length ≤ maxDeathBlocks := by
  refine (List.length_filterMap_le _ _).trans ?_
  simp [deathKeys]

end

end NmpStore.Postings
