import NmpStore.Postings.Encoding

/-! # Walking prefix directories in step

The walk of a compaction visits every prefix of the directories once and in order, and hands over
exactly the posting lists that stand under it.
-/

namespace NmpStore.Postings

def Ordered (directory : List PrefixRecord) : Prop := directory.Pairwise (fun a b => compare a.pfx b.pfx = .lt)

structure Walked (directories : List (List PrefixRecord)) (walk : List MergedPrefix) : Prop where
  sorted : walk.Pairwise (fun a b => compare a.1 b.1 = .lt)
  lists : ∀ entry ∈ walk, ∀ source postings, (source, postings) ∈ entry.2 ↔
    ∃ directory, directories[source]? = some directory ∧ ⟨entry.1, postings⟩ ∈ directory
  sources : ∀ entry ∈ walk, (entry.2.map Prod.fst).Nodup
  present : ∀ entry ∈ walk, ∃ directory ∈ directories, ∃ record ∈ directory, record.pfx = entry.1
  complete : ∀ directory ∈ directories, ∀ record ∈ directory, ∃ entry ∈ walk, entry.1 = record.pfx

theorem lesserPrefix_spec (mn : Option Bytes) (r : PrefixRecord) : ∃ p,
    lesserPrefix mn r = some p ∧ (mn = some p ∨ r.pfx = p) ∧
      (∀ cr, mn = some cr → (compare p cr).isLE) ∧ (compare p r.pfx).isLE := by
  cases mn with
  | none => exact ⟨r.pfx, rfl, .inr rfl, by simp, by simp⟩
  | some cr =>
    by_cases hL : compare r.pfx cr = .lt
    · refine ⟨r.pfx, by simp [lesserPrefix, hL], .inr rfl, fun c hc => ?_, by simp⟩
      cases hc
      simp [hL]
    refine ⟨cr, by simp [lesserPrefix, hL], .inl rfl, fun c hc => ?_, ?_⟩
    · cases hc
      simp
    have hS : compare cr r.pfx = (compare r.pfx cr).swap := Std.OrientedOrd.eq_swap
    rw [hS]
    cases hC : compare r.pfx cr with
    | lt => exact absurd hC hL
    | eq => rfl
    | gt => rfl

variable {recs : List PrefixRecord} {directories : List (List PrefixRecord)}

theorem foldl_lesserPrefix_spec (h : recs.foldl lesserPrefix start = some p) :
    (start = some p ∨ ∃ rc ∈ recs, rc.pfx = p) ∧
      (∀ cr, start = some cr → (compare p cr).isLE) ∧
      ∀ rc ∈ recs, (compare p rc.pfx).isLE := by
  induction recs generalizing start with
  | nil =>
    obtain rfl : start = some p := h
    refine ⟨.inl rfl, fun c hc => ?_, by simp⟩
    cases hc
    simp
  | cons rc recs ih =>
    obtain ⟨next, hN, hF, hS, hR⟩ := lesserPrefix_spec start rc
    rw [foldl_cons, hN] at h
    obtain ⟨hM, hl, hA⟩ := ih h
    have hL := hl next rfl
    refine ⟨?_, fun c hc => Std.TransCmp.isLE_trans hL (hS c hc), ?_⟩
    · rcases hM with hE | ⟨r, hr, hp⟩
      · cases hE
        rcases hF with hF | hF
        · exact .inl hF
        · exact .inr ⟨rc, mem_cons_self, hF⟩
      · exact .inr ⟨r, .tail _ hr, hp⟩
    · intro r hr
      rcases mem_cons.mp hr with rfl | hr
      · exact Std.TransCmp.isLE_trans hL hR
      · exact hA r hr

theorem foldl_lesserPrefix_none (h : recs.foldl lesserPrefix none = none) : recs = [] := by
  suffices hS : ∀ (recs : List PrefixRecord) (p : Bytes), recs.foldl lesserPrefix (some p) ≠ none by
    cases recs with
    | nil => rfl
    | cons r recs => exact absurd h (hS recs r.pfx)
  intro recs
  induction recs with
  | nil => simp
  | cons r recs ih =>
    intro p
    obtain ⟨next, hN, -⟩ := lesserPrefix_spec (some p) r
    rw [foldl_cons, hN]
    exact ih next

theorem minimumCompactionPrefix_spec (h : minimumCompactionPrefix directories = some p) :
    (∃ dr ∈ directories, ∃ record, dr.head? = some record ∧ record.pfx = p) ∧
      ∀ dr ∈ directories, ∀ record, dr.head? = some record → (compare p record.pfx).isLE := by
  obtain ⟨hM, -, hA⟩ := foldl_lesserPrefix_spec h
  constructor
  · rcases hM with hN | ⟨record, hR, hp⟩
    · cases hN
    · obtain ⟨dr, hD, hH⟩ := mem_filterMap.mp hR
      exact ⟨dr, hD, record, hH, hp⟩
  · intro dr hD record hH
    exact hA record (mem_filterMap.mpr ⟨dr, hD, hH⟩)

theorem minimumCompactionPrefix_none
    (h : minimumCompactionPrefix directories = none) : ∀ dr ∈ directories, dr = [] := by
  intro dr hD
  have hZ := foldl_lesserPrefix_none h
  cases dr with
  | nil => rfl
  | cons r rs =>
    have : r ∈ directories.filterMap List.head? := mem_filterMap.mpr ⟨_, hD, rfl⟩
    rw [hZ] at this
    cases this

theorem mem_matchingLists : (source, pts) ∈ matchingLists p directories ↔
      ∃ rs, directories[source]? = some (⟨p, pts⟩ :: rs) := by
  simp only [matchingLists, mem_filterMap, Prod.exists]
  constructor
  · rintro ⟨dr, i, hD, hM⟩
    rw [List.mem_zipIdx_iff_getElem?] at hD
    cases dr with
    | nil => cases hM
    | cons r rs =>
      by_cases hp : r.pfx = p
      · simp only [hp, ↓reduceIte, Option.some.injEq, Prod.mk.injEq] at hM
        obtain ⟨rfl, rfl⟩ := hM
        exact ⟨rs, by rw [← hp]; simpa using hD⟩
      · simp [hp] at hM
  · rintro ⟨rs, hD⟩
    exact ⟨_, source, by rw [List.mem_zipIdx_iff_getElem?]; simpa using hD, by simp⟩

theorem matchingLists_sources_nodup (p : Bytes) (directories : List (List PrefixRecord)) :
    ((matchingLists p directories).map Prod.fst).Nodup := by
  have hB : ((matchingLists p directories).map Prod.fst).Sublist (directories.zipIdx.map Prod.snd) := by
    rw [matchingLists, List.map_filterMap]
    generalize directories.zipIdx = l
    induction l with
    | nil => simp
    | cons d l ih =>
      obtain ⟨dr, i⟩ := d
      rw [List.filterMap_cons, map_cons]
      cases dr with
      | nil => exact ih.cons _
      | cons r rs =>
        by_cases hp : r.pfx = p
        · simpa [hp] using ih
        · simpa [hp] using ih.cons _
  refine hB.nodup ?_
  rw [List.zipIdx_map_snd]
  exact List.nodup_range'

theorem Ordered.cases (h : Ordered dir)
    (hl : ∀ rc, dir.head? = some rc → (compare p rc.pfx).isLE) :
    (∃ rc rest, dir = rc :: rest ∧ rc.pfx = p ∧ ∀ r ∈ rest, compare p r.pfx = .lt) ∨
      ∀ r ∈ dir, compare p r.pfx = .lt := by
  cases dir with
  | nil => exact .inr (by simp)
  | cons rc rest =>
    obtain ⟨hR, -⟩ := pairwise_cons.mp h
    have hH := hl rc rfl
    by_cases hp : rc.pfx = p
    · exact .inl ⟨rc, rest, rfl, hp, fun r hr => hp ▸ hR r hr⟩
    have hL : compare p rc.pfx = .lt := by
      cases hC : compare p rc.pfx with
      | lt => rfl
      | eq => exact absurd (Std.LawfulEqOrd.eq_of_compare hC).symm hp
      | gt => simp [hC] at hH
    refine .inr fun r hr => ?_
    rcases mem_cons.mp hr with rfl | hr
    · exact hL
    · exact Std.TransCmp.lt_trans hL (hR r hr)

theorem ne_of_compare_lt {a b : Bytes} (h : compare a b = .lt) : b ≠ a := by
  rintro rfl
  simp at h

theorem mem_advance (h : Ordered dir)
    (hL : ∀ rc, dir.head? = some rc → (compare p rc.pfx).isLE) {r : PrefixRecord} :
    r ∈ advance p dir ↔ r ∈ dir ∧ compare p r.pfx = .lt := by
  rcases h.cases hL with ⟨rc, rest, rfl, rfl, hR⟩ | hA
  · simp only [advance, ↓reduceIte, mem_cons]
    constructor
    · exact fun hr => ⟨.inr hr, hR r hr⟩
    · rintro ⟨rfl | hr, hl⟩
      · simp at hl
      · exact hr
  · have hS : advance p dir = dir := by
      cases dir with
      | nil => rfl
      | cons rc rest => simp [advance, ne_of_compare_lt (hA rc (.head _))]
    rw [hS]
    exact ⟨fun hr => ⟨hr, hA r hr⟩, fun hr => hr.1⟩

theorem advance_sublist (p : Bytes) (dr : List PrefixRecord) : (advance p dr).Sublist dr := by
  cases dr with
  | nil => exact .refl _
  | cons r rs =>
    by_cases hp : r.pfx = p
    · simp [advance, hp]
    · simp [advance, hp]

theorem flatten_map_advance_le (p : Bytes) (directories : List (List PrefixRecord)) :
    (directories.map (advance p)).flatten.length ≤ directories.flatten.length := by
  induction directories with
  | nil => simp
  | cons d ds ih =>
    have := (advance_sublist p d).length_le
    simp only [map_cons, List.flatten_cons, length_append]
    omega

theorem flatten_map_advance_lt (hD : dir ∈ directories) (hH : dir.head? = some rec)
    (hp : rec.pfx = p) : (directories.map (advance p)).flatten.length < directories.flatten.length := by
  induction directories with
  | nil => cases hD
  | cons d ds ih =>
    have hd := (advance_sublist p d).length_le
    have hds := flatten_map_advance_le p ds
    simp only [map_cons, List.flatten_cons, length_append] at *
    rcases mem_cons.mp hD with rfl | hD
    · cases dir with
      | nil => cases hH
      | cons r rs =>
        cases hH
        simp only [advance, hp, ↓reduceIte, length_cons] at *
        omega
    · have := ih hD
      omega

theorem walkDirectories_walked (fuel : Nat)
    (ho : ∀ dr ∈ directories, Ordered dr) (hF : directories.flatten.length ≤ fuel) :
    Walked directories (walkDirectories fuel directories) := by
  induction fuel generalizing directories with
  | zero =>
    have hZ : directories.flatten = [] := List.eq_nil_of_length_eq_zero (by omega)
    refine ⟨.nil, by simp [walkDirectories], by simp [walkDirectories], by simp [walkDirectories], ?_⟩
    intro dr hD record hr
    have := mem_flatten.mpr ⟨dr, hD, hr⟩
    rw [hZ] at this
    cases this
  | succ fuel ih =>
    rw [walkDirectories]
    cases hM : minimumCompactionPrefix directories with
    | none =>
      refine ⟨.nil, by simp, by simp, by simp, ?_⟩
      intro dr hD record hr
      rw [minimumCompactionPrefix_none hM dr hD] at hr
      cases hr
    | some p =>
      obtain ⟨⟨d, hd, head, hh, hH⟩, hL⟩ := minimumCompactionPrefix_spec hM
      have hs := flatten_map_advance_lt hd hh hH
      have hW : Walked (directories.map (advance p)) (walkDirectories fuel (directories.map (advance p))) := ih (by
        intro d' hd'
        obtain ⟨d₀, hd₀, rfl⟩ := mem_map.mp hd'
        exact (ho d₀ hd₀).sublist (advance_sublist p d₀)) (by omega)
      -- every prefix met later is greater than this one
      have hl : ∀ e ∈ walkDirectories fuel (directories.map (advance p)), compare p e.1 = .lt := by
        intro e hE
        obtain ⟨d', hd', record, hr, hp⟩ := hW.present e hE
        obtain ⟨d₀, hd₀, rfl⟩ := mem_map.mp hd'
        exact hp ▸ ((mem_advance (ho d₀ hd₀) (hL d₀ hd₀)).mp hr).2
      refine ⟨pairwise_cons.mpr ⟨hl, hW.sorted⟩, ?_, ?_, ?_, ?_⟩
      · intro e hE s pt
        rcases mem_cons.mp hE with rfl | hE
        · rw [mem_matchingLists]
          constructor
          · rintro ⟨rest, hAt⟩
            exact ⟨_, hAt, mem_cons_self⟩
          · rintro ⟨dr, hAt, hr⟩
            have hD := mem_of_getElem? hAt
            rcases (ho _ hD).cases (hL _ hD) with ⟨record, rest, rfl, hp, hR⟩ | hA
            · rcases mem_cons.mp hr with rfl | hr
              · exact ⟨rest, hAt⟩
              · exact absurd rfl (ne_of_compare_lt (hR _ hr))
            · exact absurd rfl (ne_of_compare_lt (hA _ hr))
        · rw [hW.lists e hE]
          simp only [List.getElem?_map, map_eq_some_iff]
          constructor
          · rintro ⟨d', ⟨d₀, hAt, rfl⟩, hr⟩
            exact ⟨d₀, hAt, (advance_sublist p d₀).subset hr⟩
          · rintro ⟨d₀, hAt, hr⟩
            have hD := mem_of_getElem? hAt
            exact ⟨_, ⟨d₀, hAt, rfl⟩, (mem_advance (ho _ hD) (hL _ hD)).mpr ⟨hr, hl e hE⟩⟩
      · intro e hE
        rcases mem_cons.mp hE with rfl | hE
        · exact matchingLists_sources_nodup p directories
        · exact hW.sources e hE
      · intro e hE
        rcases mem_cons.mp hE with rfl | hE
        · exact ⟨d, hd, head, List.mem_of_mem_head? hh, hH⟩
        obtain ⟨d', hd', record, hr, hp⟩ := hW.present e hE
        obtain ⟨d₀, hd₀, rfl⟩ := mem_map.mp hd'
        exact ⟨d₀, hd₀, record, (advance_sublist p d₀).subset hr, hp⟩
      · intro dr hD record hr
        by_cases hp : record.pfx = p
        · exact ⟨_, mem_cons_self, hp.symm⟩
        have ht : compare p record.pfx = .lt := by
          rcases (ho _ hD).cases (hL _ hD) with ⟨r, rest, rfl, hrp, hR⟩ | hA
          · rcases mem_cons.mp hr with rfl | hr
            · exact absurd hrp hp
            · exact hR _ hr
          · exact hA _ hr
        obtain ⟨e, hE, he⟩ := hW.complete _ (mem_map.mpr ⟨dr, hD, rfl⟩) record
          ((mem_advance (ho _ hD) (hL _ hD)).mpr ⟨hr, ht⟩)
        exact ⟨e, .tail _ hE, he⟩

end NmpStore.Postings
