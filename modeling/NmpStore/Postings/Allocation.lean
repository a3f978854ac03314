import NmpStore.Postings.View

/-! # The catalog columns agree

Every run is listed once by id, once by its smallest key and once in the dictionary column, and the ranges of the runs
do not meet.
-/

namespace NmpStore.Postings

def RunMeta.Older (a b : RunMeta) : Prop := a.maxEventKey < b.minEventKey ∧ b.level ≤ a.level

structure MetasOk (metas : Table Nat RunMeta) : Prop where
  runId_eq : ∀ {runId : Nat} {m : RunMeta}, metas[runId]? = some m → m.runId = runId
  metaOk : ∀ {runId : Nat} {m : RunMeta}, metas[runId]? = some m → m.Ok
  ordered : ∀ {runId runId' : Nat} {m m' : RunMeta}, metas[runId]? = some m → metas[runId']? = some m' →
    runId ≠ runId' → m.Older m' ∨ m'.Older m

def Packed.nextId (p : Packed) : Nat := p.nextRunId.getD 1

/-- The columns of the catalog describe the same runs, and no row uses an id that is still free. -/
structure Indexed (p : Packed) : Prop where
  dictionary : ∀ runId : Nat, (p.dictionary[runId]?).isSome = (p.runMeta[runId]?).isSome
  byMin : ∀ key runId : Nat, p.byMin[key]? = some runId ↔ ∃ m, p.runMeta[runId]? = some m ∧ m.minEventKey = key
  next_pos : 0 < p.nextId
  ids : ∀ {runId : Nat} {m : RunMeta}, p.runMeta[runId]? = some m → 0 < runId ∧ runId < p.nextId
  segments : ∀ {family shard runId : Nat} {segment : Segment}, p.segments[(family, shard, runId)]? = some segment →
    runId < p.nextId
  deaths : ∀ {runId level : Nat} {dead : DeadKeys}, p.deaths[(runId, level)]? = some dead →
    runId < p.nextId ∧ level < maxDeathBlocks

def Packed.metas (p : Packed) : List RunMeta := p.runMeta.toList.map Prod.snd

variable {p : Packed}

theorem mem_metas (h : MetasOk p.runMeta) : m ∈ p.metas ↔ p.runMeta[m.runId]? = some m := by
  constructor
  · intro hm
    obtain ⟨⟨r, m⟩, hW, rfl⟩ := mem_map.mp hm
    have hA := mem_toList.mp hW
    rwa [h.runId_eq hA]
  · intro hm
    exact mem_map.mpr ⟨(m.runId, m), mem_toList.mpr hm, rfl⟩

theorem metas_pairwise (h : MetasOk p.runMeta) :
    p.metas.Pairwise (fun a b => a.runId ≠ b.runId ∧ (a.Older b ∨ b.Older a)) := by
  refine pairwise_map.mpr ((Table.toList_pairwise p.runMeta).imp_of_mem fun {a b} ha hb hL => ?_)
  have hA := mem_toList.mp ha
  have hB := mem_toList.mp hb
  have hN : a.1 ≠ b.1 := fun hE => by simp [hE] at hL
  exact ⟨by rwa [h.runId_eq hA, h.runId_eq hB], h.ordered hA hB hN⟩

theorem metas_nodup (h : MetasOk p.runMeta) : p.metas.Nodup :=
  (metas_pairwise h).imp fun hN hE => hN.1 (by rw [hE])

theorem catalogRunMetas_eq (h : MetasOk p.runMeta) : catalogRunMetas p = .ok p.metas := by
  refine mapM_ok.mpr ?_
  rw [Packed.metas, List.forall₂_map_right_iff]
  refine forall₂_same.mpr ?_
  rintro ⟨r, m⟩ hW
  have hA := mem_toList.mp hW
  simp only [packed, bind_ok, mapError_ok, refuseIf_ok, RunMeta.decode,
    RunMeta.encode_ok, pure_ok]
  exact ⟨m, ⟨h.metaOk hA, rfl⟩, (), not_not.mpr (h.runId_eq hA), rfl⟩

variable {metas : List RunMeta}

theorem foldlM_checkRunMeta (ho : ∀ m ∈ metas, m.Ok)
    (hP : metas.Pairwise (fun a b => a.runId ≠ b.runId ∧ a.maxEventKey < b.minEventKey)) (st : Option Nat × List Nat)
    (hB : ∀ m ∈ metas, m.runId ∉ st.2 ∧ ∀ mx, st.1 = some mx → mx < m.minEventKey) :
    ∃ last, metas.foldlM checkRunMeta st = .ok last := by
  induction metas generalizing st with
  | nil => exact ⟨st, rfl⟩
  | cons m metas ih =>
    obtain ⟨hF, hR⟩ := pairwise_cons.mp hP
    obtain ⟨hf, hM⟩ := hB m (.head _)
    have hS : checkRunMeta st m = .ok (some m.maxEventKey, m.runId :: st.2) := by
      simp only [checkRunMeta, bind_ok, refuseIf_ok, RunMeta.encode_ok,
        pure_ok]
      refine ⟨m, ⟨ho m (.head _), rfl⟩, (), hf, (), ?_, trivial⟩
      rw [any_eq_true]
      rintro ⟨mx, hs, hL⟩
      have := hM mx hs
      simp only [decide_eq_true_eq] at hL
      omega
    obtain ⟨last, hl⟩ := ih (fun m' hm' => ho m' (.tail _ hm')) hR
      (some m.maxEventKey, m.runId :: st.2) (by
        intro m' hm'
        obtain ⟨hN, ht⟩ := hF m' hm'
        refine ⟨?_, fun mx hs => ?_⟩
        · simp only [mem_cons, not_or]
          exact ⟨hN.symm, (hB m' (.tail _ hm')).1⟩
        · cases hs
          exact ht)
    exact ⟨last, by rw [foldlM_cons, hS]; exact hl⟩

theorem min_le_of_metaKey (h : (compare (metaKey a) (metaKey b)).isLE) :
    a.minEventKey ≤ b.minEventKey := by
  by_contra hY
  have hG : compare a.minEventKey b.minEventKey = .gt := compare_gt_iff_gt.mpr (by omega)
  have hF : compare (metaKey a) (metaKey b) = (compare a.minEventKey b.minEventKey).then
    (compare (a.maxEventKey, a.runId) (b.maxEventKey, b.runId)) := rfl
  rw [hF, hG] at h
  cases h

theorem validateRunMetas_ok (ho : ∀ m ∈ metas, m.Ok)
    (hp : metas.Pairwise (fun a b => a.runId ≠ b.runId ∧ (a.Older b ∨ b.Older a))) :
    validateRunMetas metas = .ok () := by
  let od := metas.insertionSort (fun a b => (compare (metaKey a) (metaKey b)).isLE)
  have hP : od.Perm metas := perm_insertionSort _ _
  have hS : od.Pairwise (fun a b => (compare (metaKey a) (metaKey b)).isLE) := by
    have hC : TransCmp (fun a b : RunMeta => compare (metaKey a) (metaKey b)) :=
      inferInstanceAs (TransCmp (compareOn metaKey))
    exact Grouping.insertionSort_pairwise (fun a b => compare (metaKey a) (metaKey b)) metas
  have hR : od.Pairwise (fun a b => a.runId ≠ b.runId ∧ a.maxEventKey < b.minEventKey) := by
    refine (hS.and (hP.symm.pairwise hp fun h => ⟨h.1.symm, h.2.symm⟩)).imp_of_mem fun {a b} ha hb h => ?_
    obtain ⟨hL, hN, hO⟩ := h
    have hM := min_le_of_metaKey hL
    have hB := (ho b (hP.mem_iff.mp hb)).min_le_max
    refine ⟨hN, hO.elim And.left fun hA => ?_⟩
    have := hA.1
    omega
  obtain ⟨last, hl⟩ := foldlM_checkRunMeta (fun m hm => ho m (hP.mem_iff.mp hm)) hR (none, []) (by simp)
  simp only [validateRunMetas, bind_ok]
  exact ⟨last, hl, rfl⟩

theorem byMin_size (hm : MetasOk p.runMeta) (hi : Indexed p) : p.byMin.size = p.metas.length := by
  have hP : p.byMin.toList.Perm (p.metas.map fun m => (m.minEventKey, m.runId)) := by
    refine (List.perm_ext_iff_of_nodup (Table.toList_nodup _) ?_).mpr fun ⟨k, r⟩ => ?_
    · exact pairwise_map.mpr ((metas_pairwise hm).imp fun hN hE => hN.1 (congrArg Prod.snd hE))
    rw [mem_toList, hi.byMin, mem_map]
    constructor
    · rintro ⟨m, hAt, rfl⟩
      obtain rfl := hm.runId_eq hAt
      exact ⟨m, (mem_metas hm).mpr hAt, rfl⟩
    · rintro ⟨m, hM, hE⟩
      cases hE
      exact ⟨m, (mem_metas hm).mp hM, rfl⟩
  rw [← length_toList, hP.length_eq, length_map]

theorem dictionary_size (hm : MetasOk p.runMeta) (hi : Indexed p) : p.dictionary.size = p.metas.length := by
  have hP : (p.dictionary.toList.map Prod.fst).Perm (p.metas.map RunMeta.runId) := by
    refine (List.perm_ext_iff_of_nodup ?_ ?_).mpr fun r => ?_
    · exact pairwise_map.mpr ((Table.toList_pairwise _).imp fun hL hE => by simp [hE] at hL)
    · exact pairwise_map.mpr ((metas_pairwise hm).imp And.left)
    have hS : (∃ d, p.dictionary[r]? = some d) ↔ ∃ m, p.runMeta[r]? = some m := by
      simp only [← isSome_iff_exists, hi.dictionary r]
    constructor
    · intro h
      obtain ⟨⟨_, d⟩, hW, rfl⟩ := mem_map.mp h
      obtain ⟨m, hA⟩ := hS.mp ⟨d, mem_toList.mp hW⟩
      obtain rfl := hm.runId_eq hA
      exact mem_map.mpr ⟨m, (mem_metas hm).mpr hA, rfl⟩
    · intro h
      obtain ⟨m, hM, rfl⟩ := mem_map.mp h
      obtain ⟨d, hA⟩ := hS.mpr ⟨m, (mem_metas hm).mp hM⟩
      exact mem_map.mpr ⟨(m.runId, d), mem_toList.mpr hA, rfl⟩
  rw [← length_toList, ← length_map Prod.fst, hP.length_eq, length_map]

theorem loadRunCatalog_eq (hm : MetasOk p.runMeta) (hi : Indexed p) : loadRunCatalog p = .ok p.metas := by
  have ho : ∀ m ∈ p.metas, m.Ok := fun m h => hm.metaOk ((mem_metas hm).mp h)
  have hR : forM p.metas (checkRunRange p) = .ok () := by
    refine forM_ok.mpr fun m hM => ?_
    have hAt := (hi.byMin m.minEventKey m.runId).mpr ⟨m, (mem_metas hm).mp hM, rfl⟩
    simp [checkRunRange, hAt, pure, Except.pure]
  simp only [loadRunCatalog, packed, bind_ok, mapError_ok, refuseIf_ok,
    pure_ok]
  exact ⟨p.metas, catalogRunMetas_eq hm, (), validateRunMetas_ok ho (metas_pairwise hm), (),
    not_not.mpr (byMin_size hm hi), (), hR, rfl⟩

theorem freeRunId_eq (hP : 0 < p.nextId) (hH : ∀ r, highest = some r → 0 < r ∧ r < p.nextId) :
    freeRunId p.nextRunId highest = .ok p.nextId := by
  unfold Packed.nextId at *
  cases hN : p.nextRunId with
  | none =>
    cases highest with
    | none => rfl
    | some r =>
      have := hH r rfl
      simp only [hN, Option.getD_none] at this
      omega
  | some next =>
    simp only [hN, getD_some] at hP hH
    obtain ⟨n, rfl⟩ : ∃ n, next = n + 1 := ⟨next - 1, by omega⟩
    cases highest with
    | none => rfl
    | some r =>
      have := hH r rfl
      simp [freeRunId, this, pure, Except.pure]

theorem allocateRunId_ok (hm : MetasOk p.runMeta) (hi : Indexed p) {rs : Nat × Packed} :
    allocateRunId p = .ok rs ↔
      p.nextId + 1 ≤ u64Max ∧ rs = (p.nextId, { p with nextRunId := some (p.nextId + 1) }) := by
  have hD : forM p.metas (checkDictionary p) = .ok () := by
    refine forM_ok.mpr fun m hM => ?_
    have hS := hi.dictionary m.runId
    rw [(mem_metas hm).mp hM, isSome_some, isSome_iff_exists] at hS
    obtain ⟨d, hAt⟩ := hS
    simp [checkDictionary, hAt, pure, Except.pure]
  have hH : ∀ hg, (p.metas.map RunMeta.runId).max? = some hg → 0 < hg ∧ hg < p.nextId := by
    intro hg hx
    obtain ⟨m, hM, rfl⟩ := mem_map.mp (List.max?_mem hx)
    exact hi.ids ((mem_metas hm).mp hM)
  have hFree := freeRunId_eq hi.next_pos hH
  simp only [allocateRunId, bind_ok, refuseIf_ok, pure_ok]
  constructor
  · rintro ⟨rn, hr, -, -, -, -, runId, hR, -, hs, rfl⟩
    obtain rfl := Except.ok.inj ((loadRunCatalog_eq hm hi).symm.trans hr)
    obtain rfl := Except.ok.inj (hFree.symm.trans hR)
    exact ⟨by omega, rfl⟩
  · rintro ⟨hs, rfl⟩
    exact ⟨p.metas, loadRunCatalog_eq hm hi, (), not_not.mpr (dictionary_size hm hi), (), hD, p.nextId, hFree,
      (), by omega, rfl⟩

end NmpStore.Postings
