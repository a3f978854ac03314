import NmpStore.Postings.Deaths

/-! # Levels

A level that is full is merged into one run of the next level, and so on upwards. The loop ends with no level full and
with the same live postings.
-/

namespace NmpStore.Postings

variable [ShardHash]

def Packed.levels (p : Packed) : List Nat := p.metas.map RunMeta.level

def Below (p : Packed) (last : Nat) : Prop :=
  ∀ runId run, p.run? runId = some run → run.runMeta.maxEventKey ≤ last

def weight : Nat → Nat
  | 0 => 1
  | level + 1 => fanIn level * weight level

def Packed.weight (p : Packed) : Nat := (p.levels.map Postings.weight).sum

section
omit [ShardHash]

theorem two_le_fanIn (l : Nat) : 2 ≤ fanIn l := by
  unfold fanIn baseRunFanIn largeRunFanIn
  split <;> omega

theorem two_pow_le_weight (l : Nat) : 2 ^ l ≤ weight l := by
  induction l with
  | zero => exact le_rfl
  | succ l ih =>
    rw [Nat.pow_succ, Nat.mul_comm]
    exact Nat.mul_le_mul (two_le_fanIn l) ih

end

variable {p p' : Packed}

section
omit [ShardHash]

theorem level_lt_of_weight (hW : p.weight ≤ u64Max) (hL : l ∈ p.levels) : l < 64 := by
  by_contra hG
  have ho : weight l ≤ p.weight := List.single_le_sum (by simp) _ (mem_map_of_mem hL)
  have hP : 2 ^ 64 ≤ 2 ^ l := Nat.pow_le_pow_right (by omega) (by omega)
  have := two_pow_le_weight l
  unfold u64Max at hW
  omega

theorem metas_split (hm : MetasOk p.runMeta) (ch : List RunMeta)
    (hS : ∀ m ∈ ch, p.runMeta[m.runId]? = some m) (hN : ch.Nodup) :
    p.metas.Perm (ch ++ p.metas.filter fun m => m.runId ∉ ch.map RunMeta.runId) := by
  refine (List.perm_ext_iff_of_nodup (metas_nodup hm) ?_).mpr fun m => ?_
  · refine nodup_append.mpr ⟨hN, (metas_nodup hm).filter _, fun a ha b hb hE => ?_⟩
    have hY := (mem_filter.mp hb).2
    simp only [decide_eq_true_eq] at hY
    exact hY (mem_map.mpr ⟨a, ha, by rw [hE]⟩)
  rw [mem_append, mem_filter, mem_metas hm]
  constructor
  · intro hA
    by_cases hM : m.runId ∈ ch.map RunMeta.runId
    · obtain ⟨c, hc, hE⟩ := mem_map.mp hM
      have hs := hS c hc
      rw [hE, hA] at hs
      exact .inl (Option.some.inj hs ▸ hc)
    · exact .inr ⟨hA, by simpa using hM⟩
  · rintro (hc | ⟨hA, -⟩)
    · exact hS m hc
    · exact hA

end

theorem Replaces.levels_subperm (hp : CatalogOk p) (h : Replaces p gone n p') (hp' : CatalogOk p') :
    p'.levels.Subperm ((n.map fun r => r.runMeta.level).toList ++
      (p.metas.filter fun m => m.runId ∉ gone).map RunMeta.level) := by
  have hP := (h.metas_perm hp hp').map RunMeta.level
  rw [map_append] at hP
  refine hP.subperm.trans ?_
  have hN : ((n.map Run.runMeta).toList).map RunMeta.level = (n.map fun r => r.runMeta.level).toList := by
    cases n <;> rfl
  rw [hN, List.subperm_append_left]
  refine (List.Sublist.map _ ?_).subperm
  refine List.monotone_filter_right _ fun m hm => ?_
  simp only [decide_eq_true_eq] at hm ⊢
  exact hm.1

theorem Loses.levels_subperm (hp : CatalogOk p) (hR : p.run? rid = some run)
    (h : Loses p rid run keys n p') : p'.levels.Subperm p.levels := by
  have hM := (run?_some.mp hR).1
  have hId := hp.runId_eq hR
  have hS := (metas_split hp.metas [run.runMeta] (by simpa [hId] using hM) (by simp)).map RunMeta.level
  refine (h.replaces.levels_subperm hp h.catalogOk).trans ?_
  simp only [map_cons, map_nil, hId, List.singleton_append] at hS
  refine List.Subperm.trans ?_ hS.symm.subperm
  cases n with
  | none => exact (List.sublist_cons_self _ _).subperm
  | some r =>
    rw [map_some, h.level_eq r rfl]
    exact .refl _

theorem OldestOf.nodup (hp : CatalogOk p) (h : OldestOf p l cohort) : cohort.Nodup := by
  refine h.sorted.imp_of_mem fun {a b} ha _ hL hE => ?_
  have := (hp.metas.metaOk (h.stored a ha)).min_le_max
  subst hE
  omega

theorem Compacts.levels (hp : CatalogOk p) (hO : OldestOf p lvl cohort) (h : Compacts p lvl cohort n p') :
    ∃ rs, p.levels.Perm (List.replicate cohort.length lvl ++ rs) ∧ p'.levels.Subperm ((lvl + 1) :: rs) := by
  refine ⟨(p.metas.filter fun m => m.runId ∉ cohort.map RunMeta.runId).map RunMeta.level, ?_,
    (h.replaces.levels_subperm hp h.catalogOk).trans ?_⟩
  · have hS := (metas_split hp.metas cohort hO.stored (hO.nodup hp)).map RunMeta.level
    rw [map_append] at hS
    have hL : cohort.map RunMeta.level = List.replicate cohort.length lvl :=
      List.eq_replicate_iff.mpr ⟨length_map .., fun l hl => by
        obtain ⟨m, hm, rfl⟩ := mem_map.mp hl
        exact hO.level_eq m hm⟩
    rwa [hL] at hS
  · cases n with
    | none => exact (List.sublist_cons_self _ _).subperm
    | some r =>
      rw [map_some, h.level_eq r rfl]
      exact .refl _

theorem overfullCohort_some (hp : CatalogOk p)
    (h : overfullCohort l p.metas = some cohort) : OldestOf p l cohort ∧ cohort.length = fanIn l := by
  simp only [overfullCohort] at h
  split at h
  · cases h
  rename_i hF
  cases h
  let level_runs := p.metas.filter fun m => m.level = l
  let sr := level_runs.insertionSort fun a b => a.minEventKey ≤ b.minEventKey
  have hP : sr.Perm level_runs := perm_insertionSort _ _
  have hM : ∀ m, m ∈ sr ↔ p.runMeta[m.runId]? = some m ∧ m.level = l := by
    intro m
    rw [hP.mem_iff, mem_filter, mem_metas hp.metas]
    simp
  have hT : IsTrans RunMeta (fun a b => a.minEventKey ≤ b.minEventKey) := ⟨fun _ _ _ => le_trans⟩
  have h2 : Std.Total (fun a b : RunMeta => a.minEventKey ≤ b.minEventKey) := ⟨fun _ _ => Nat.le_total _ _⟩
  have h1 : sr.Pairwise (fun a b => a.runId ≠ b.runId ∧ (a.Older b ∨ b.Older a)) :=
    (hP.symm.pairwise ((metas_pairwise hp.metas).filter _)) fun h => ⟨h.1.symm, h.2.symm⟩
  have hA : sr.Pairwise (fun a b => a.maxEventKey < b.minEventKey) := by
    refine ((List.pairwise_insertionSort _ level_runs).and h1).imp_of_mem fun {a b} ha hb hab => ?_
    have ho := (hp.metas.metaOk ((hM b).mp hb).1).min_le_max
    rcases hab.2.2 with hO | hO
    · exact hO.1
    have := hO.1
    have := hab.1
    omega
  have hL : fanIn l ≤ sr.length := by
    rw [hP.length_eq]
    exact not_lt.mp hF
  refine ⟨⟨fun m hm => ?_, fun m hm => ?_, ?_, fun m ht hE hY c hc => ?_⟩, ?_⟩
  · exact ((hM m).mp (List.mem_of_mem_take hm)).1
  · exact ((hM m).mp (List.mem_of_mem_take hm)).2
  · exact hA.sublist (List.take_sublist _ _)
  · have hS := List.take_append_drop (fanIn l) sr
    rw [← hS] at hA
    have hI : m ∈ sr := (hM m).mpr ⟨ht, hE⟩
    rw [← hS] at hI
    exact (pairwise_append.mp hA).2.2 c hc m ((mem_append.mp hI).resolve_left hY)
  · exact List.length_take_of_le hL

section
omit [ShardHash]

theorem count_levels (p : Packed) (l : Nat) : p.levels.count l = (p.metas.filter fun m => m.level = l).length := by
  rw [Packed.levels, List.count_eq_countP, List.countP_map, List.countP_eq_length_filter]
  congr 1

theorem overfullCohort_none (h : overfullCohort l p.metas = none) : p.levels.count l < fanIn l := by
  simp only [overfullCohort] at h
  split at h
  · rename_i hF
    rw [count_levels]
    exact hF
  · cases h

theorem le_count_of_overfullCohort
    (h : overfullCohort l p.metas = some cohort) : fanIn l ≤ p.levels.count l := by
  simp only [overfullCohort] at h
  split at h
  · cases h
  rename_i hM
  rw [count_levels]
  exact not_lt.mp hM

end

/-- The runs may differ but list the same live postings, and their number and weight have not grown. -/
structure Quiet (p p' : Packed) : Prop where
  catalogOk : CatalogOk p'
  posts_iff : ∀ family pfx event, p'.PostsLive family pfx event ↔ p.PostsLive family pfx event
  below : ∀ last, Below p last → Below p' last
  weight_le : p'.weight ≤ p.weight
  next_le : p'.nextId + p'.levels.length ≤ p.nextId + p.levels.length

theorem Quiet.refl (h : CatalogOk p) : Quiet p p :=
  ⟨h, fun _ _ _ => .rfl, fun _ h => h, le_rfl, le_rfl⟩

theorem Quiet.trans (h : Quiet p q) (h' : Quiet q r) : Quiet p r where
  catalogOk := h'.catalogOk
  posts_iff f pfx ev := (h'.posts_iff f pfx ev).trans (h.posts_iff f pfx ev)
  below last hL := h'.below last (h.below last hL)
  weight_le := h'.weight_le.trans h.weight_le
  next_le := h'.next_le.trans h.next_le

theorem Quiet.liveIds (h : Quiet p p') (hI : LiveIds p) : LiveIds p' := by
  intro ev ev' hP hP' hE
  exact hI ev ev' ((h.posts_iff _ _ _).mp hP) ((h.posts_iff _ _ _).mp hP') hE

theorem Quiet.room (h : Quiet p p') (hR : Room p) : Room p' := by
  intro segment ms hN hM
  exact hR segment ms hN fun m hm => ⟨(hM m hm).1, (hM m hm).2.1, (h.posts_iff _ _ _).mp (hM m hm).2.2⟩

theorem Compacts.quiet (hp : CatalogOk p) (hO : OldestOf p lvl cohort) (hL : cohort.length = fanIn lvl)
    (h : Compacts p lvl cohort n p') : Quiet p p' := by
  obtain ⟨rs, hm, hB⟩ := h.levels hp hO
  refine ⟨h.catalogOk, h.posts_iff, fun last hl r rn hR => ?_, ?_, ?_⟩
  · rw [h.replaces.run_eq, runsAfter_some] at hR
    rcases hR with ⟨hN, -⟩ | hK
    · obtain ⟨c, hc, he⟩ := h.max_le rn hN
      obtain ⟨o, ho, hM⟩ := hp.indexed.exists_run (hO.stored c hc)
      exact he.trans (hM ▸ hl _ o ho)
    · exact hl r rn hK.1
  · have hb : p.weight = fanIn lvl * weight lvl + (rs.map weight).sum := by
      rw [Packed.weight, (hm.map _).sum_nat, map_append, List.map_replicate, List.sum_append_nat,
        List.sum_replicate_nat, hL]
    have hA : p'.weight ≤ (((lvl + 1) :: rs).map weight).sum := by
      obtain ⟨l, hS, hP⟩ := hB
      rw [Packed.weight, ← (hS.map _).sum_nat]
      exact (hP.map _).sum_le_sum fun _ _ => Nat.zero_le _
    rw [map_cons, List.sum_cons, weight] at hA
    omega
  · have hb := hm.length_eq
    have hA := hB.length_le
    have hT := two_le_fanIn lvl
    have hn := h.next_le
    simp only [length_append, List.length_replicate, length_cons] at hb hA
    omega

def Settled (p : Packed) : Prop := ∀ level, p.levels.count level < fanIn level

structure Settling (p : Packed) (level : Nat) : Prop where
  others : ∀ l, l ≠ level → p.levels.count l < fanIn l
  here : p.levels.count level ≤ fanIn level

section
omit [ShardHash]

theorem Settled.settling (h : Settled p) (lv : Nat) : Settling p lv :=
  ⟨fun l _ => h l, (h lv).le⟩

theorem Settling.settled (h : Settling p lvl) (hH : p.levels.count lvl < fanIn lvl) :
    Settled p := fun l => by
  by_cases hl : l = lvl
  · exact hl ▸ hH
  · exact h.others l hl

end

theorem Compacts.settling (hp : CatalogOk p) (hO : OldestOf p lvl cohort) (hL : cohort.length = fanIn lvl)
    (h : Compacts p lvl cohort n p') (hs : Settling p lvl) : Settling p' (lvl + 1) := by
  obtain ⟨rs, hP, h1⟩ := h.levels hp hO
  have hb : ∀ l, p.levels.count l = (if lvl = l then fanIn lvl else 0) + rs.count l := by
    intro l
    rw [hP.count_eq, count_append, List.count_replicate, hL]
    simp
  have ha : ∀ l, p'.levels.count l ≤ rs.count l + if lvl + 1 = l then 1 else 0 := by
    intro l
    have := h1.count_le l
    rw [List.count_cons] at this
    simpa using this
  have hT := two_le_fanIn lvl
  refine ⟨fun l hl => ?_, ?_⟩
  · have hB := hb l
    have hA := ha l
    rw [if_neg hl.symm] at hA
    by_cases hS : lvl = l
    · subst hS
      rw [if_pos rfl] at hB
      have := hs.here
      omega
    · have := hs.others l (Ne.symm hS)
      omega
  · have hB := hb (lvl + 1)
    have hA := ha (lvl + 1)
    have := hs.others (lvl + 1) (by omega)
    rw [if_pos rfl] at hA
    omega

section
omit [ShardHash]

theorem count_eq_zero_of_not_above (h : ¬ p.metas.any (fun m => m.level > lvl) = true)
    (hl : lvl < l) : p.levels.count l = 0 := by
  refine List.count_eq_zero.mpr fun hM => h ?_
  obtain ⟨m, hm, rfl⟩ := mem_map.mp hM
  exact List.any_eq_true.mpr ⟨m, hm, by simpa using hl⟩

/-- Either the level the loop stands at is the full one, or the one above, which it will reach. -/
def AtOrAbove (p : Packed) (level : Nat) : Prop := Settling p level ∨ Settling p (level + 1)

theorem AtOrAbove.settled (h : AtOrAbove p l)
    (hH : p.levels.count l < fanIn l) (hT : ¬ p.metas.any (fun m => m.level > l) = true) : Settled p := by
  rcases h with h | h
  · exact h.settled hH
  refine h.settled ?_
  rw [count_eq_zero_of_not_above hT (by omega)]
  have := two_le_fanIn (l + 1)
  omega

theorem AtOrAbove.up (h : AtOrAbove p l) (hH : p.levels.count l < fanIn l) :
    AtOrAbove p (l + 1) :=
  h.elim (fun h => .inl ((h.settled hH).settling _)) .inl

theorem AtOrAbove.settling (h : AtOrAbove p l)
    (hF : overfullCohort l p.metas = some cohort) : Settling p l := by
  refine h.elim id fun h => ?_
  have hL := h.others l (by omega)
  have := le_count_of_overfullCohort hF
  omega

end

theorem compactLevels_ok (hp : CatalogOk p) (hI : LiveIds p)
    (hi : AtOrAbove p l) (hf : p.levels.length + (maxLevel + 1 - l) ≤ fuel) (hl : l ≤ maxLevel)
    (ho : compactLevels fuel l p = .ok p') : Quiet p p' ∧ Settled p' := by
  induction fuel generalizing l p with
  | zero => omega
  | succ fuel ih =>
    simp only [compactLevels, catalogRunMetas_eq hp.metas, bind_ok, Except.ok.injEq, exists_eq_left'] at ho
    split at ho
    · rename_i ch hF
      obtain ⟨q, hC, ho⟩ := bind_ok.mp ho
      obtain ⟨hO, hL⟩ := overfullCohort_some hp hF
      obtain ⟨n, hc⟩ := compactCohort_ok hp hI hO hC
      have hQ := hc.quiet hp hO hL
      have hs : q.levels.length < p.levels.length := by
        obtain ⟨rs, hP, hB⟩ := hc.levels hp hO
        have hb := hP.length_eq
        have hA := hB.length_le
        have hw := two_le_fanIn l
        simp only [length_append, List.length_replicate, length_cons] at hb hA
        omega
      obtain ⟨hR, hT⟩ := ih hc.catalogOk (hQ.liveIds hI)
        (.inr (hc.settling hp hO hL (hi.settling hF))) (by omega) hl ho
      exact ⟨hQ.trans hR, hT⟩
    · rename_i hN
      have hH := overfullCohort_none hN
      split at ho
      · simp only [bind_ok, refuseIf_ok] at ho
        obtain ⟨-, hM, ho⟩ := ho
        exact ih hp hI (hi.up hH) (by omega) (by omega) ho
      · rename_i ht
        cases ho
        exact ⟨Quiet.refl hp, hi.settled hH ht⟩

theorem compactLevels_progress (fuel lv : Nat) (hp : CatalogOk p) (hI : LiveIds p) (hR : Room p)
    (hW : p.weight ≤ u64Max) (hS : p.nextId + p.levels.length ≤ u64Max) :
    ∃ p', compactLevels fuel lv p = .ok p' := by
  induction fuel generalizing lv p with
  | zero => exact ⟨p, rfl⟩
  | succ fuel ih =>
    simp only [compactLevels, catalogRunMetas_eq hp.metas, bind_ok, Except.ok.injEq, exists_eq_left']
    split
    · rename_i ch hF
      obtain ⟨hO, hL⟩ := overfullCohort_some hp hF
      have hT := two_le_fanIn lv
      obtain ⟨c, hc⟩ := List.exists_mem_of_length_pos (l := ch) (by omega)
      have hi : lv ∈ p.levels :=
        mem_map.mpr ⟨c, (mem_metas hp.metas).mpr (hO.stored c hc), hO.level_eq c hc⟩
      have hl := level_lt_of_weight hW hi
      have ho := List.length_pos_of_mem hi
      obtain ⟨q, hC⟩ := compactCohort_progress hp hI hR (by omega) (by unfold maxLevel; omega) hO
      obtain ⟨n, hs⟩ := compactCohort_ok hp hI hO hC
      have hQ := hs.quiet hp hO hL
      obtain ⟨p', hr⟩ := ih lv hs.catalogOk (hQ.liveIds hI) (hQ.room hR)
        (hQ.weight_le.trans hW) (hQ.next_le.trans hS)
      exact ⟨p', bind_ok.mpr ⟨q, hC, hr⟩⟩
    · split
      · rename_i hM
        obtain ⟨m, hm, hA⟩ := List.any_eq_true.mp hM
        have hl := level_lt_of_weight hW (mem_map_of_mem hm)
        have hA := of_decide_eq_true hA
        obtain ⟨p', hr⟩ := ih (lv + 1) hp hI hR hW hS
        refine ⟨p', bind_ok.mpr ⟨(), refuseIf_ok.mpr ?_, hr⟩⟩
        unfold maxLevel
        omega
      · exact ⟨p, rfl⟩

end NmpStore.Postings
