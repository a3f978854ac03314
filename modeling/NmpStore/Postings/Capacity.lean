import Mathlib.Algebra.Order.BigOperators.Group.List
import Mathlib.Algebra.Order.Group.Nat
import NmpStore.Postings.Encoding

/-! # Room in a run

The encoder refuses only what its 32-bit counts and offsets cannot hold.
-/

namespace NmpStore.Postings

variable [ShardHash]

/-- The bytes one membership can add to its segment: a posting, an offset and a prefix record. -/
def membershipBytes (m : Membership) : Nat := 24 + m.pfx.length

def runBytes (memberships : List Membership) : Nat := segmentHeaderLen + (memberships.map membershipBytes).sum

omit [ShardHash] in
theorem length_le_sum_membershipBytes (l : List Membership) : 24 * l.length ≤ (l.map membershipBytes).sum := by
  induction l with
  | nil => simp
  | cons m l ih =>
    simp only [length_cons, map_cons, List.sum_cons, membershipBytes] at ih ⊢
    omega

variable {m : Membership}

section
omit [ShardHash]

theorem pfx_le_sum_membershipBytes {l : List Membership} (hm : m ∈ l) :
    20 + m.pfx.length + 4 * l.length ≤ (l.map membershipBytes).sum := by
  induction l with
  | nil => cases hm
  | cons a l ih =>
    have hR := length_le_sum_membershipBytes l
    simp only [length_cons, map_cons, List.sum_cons, membershipBytes] at *
    rcases mem_cons.mp hm with rfl | hm
    · omega
    · have := ih hm
      omega

theorem encodePrefixRecord_progress {od : EventKey → Option Nat} (p : Bytes) (hP : p.length ≤ u32Max)
    (hL : group.length ≤ u32Max) (ho : ∀ m ∈ group, (od m.event.eventKey).isSome) :
    ∃ r, encodePrefixRecord od p group = .ok r ∧ r.postings.length = group.length := by
  have hM : ∃ postings, group.mapM (fun mm => (od mm.event.eventKey).elim
      (throw "posting event is absent from run dictionary" : Except String Posting)
      fun ord => pure ⟨mm.event.createdAt, ord⟩) = .ok postings := by
    refine Except.mapM_progress fun m hm => ?_
    obtain ⟨ord, hd⟩ := isSome_iff_exists.mp (ho m hm)
    exact ⟨⟨m.event.createdAt, ord⟩, by simp [hd]⟩
  obtain ⟨postings, hp⟩ := hM
  refine ⟨⟨p, postings⟩, ?_, ?_⟩
  · simp only [encodePrefixRecord, run_ok]
    refine ⟨(), by simpa using hP, (), by simpa using hL, postings, hp ▸ congrArg (group.mapM ·) (funext fun m => ?_), rfl⟩
    cases od m.event.eventKey <;> rfl
  · exact (mapM_ok.mp hp).length_eq.symm

theorem encodeRecords_progress (od : EventKey → Option Nat) (ln : Nat) {gr : List (List Membership)}
    (hN : ∀ g ∈ gr, g ≠ []) (hP : ∀ g ∈ gr, ∀ a ∈ g, ∀ b ∈ g, a.pfx = b.pfx)
    (ho : ∀ g ∈ gr, ∀ m ∈ g, (od m.event.eventKey).isSome)
    (hL : ln + (gr.flatten.map membershipBytes).sum ≤ u32Max + 4 * gr.flatten.length) :
    ∃ records, encodeRecords od ln gr = .ok records := by
  induction gr generalizing ln with
  | nil => exact ⟨[], by simp [encodeRecords]⟩
  | cons g gr ih =>
    obtain ⟨fr, rest, rfl⟩ := List.exists_cons_of_ne_nil (hN g (.head _))
    simp only [List.flatten_cons, map_append, List.sum_append, length_append] at hL
    have hT := length_le_sum_membershipBytes gr.flatten
    have hF := pfx_le_sum_membershipBytes (mem_cons_self : fr ∈ fr :: rest)
    have hC := length_le_sum_membershipBytes (fr :: rest)
    obtain ⟨record, hE, -⟩ := encodePrefixRecord_progress fr.pfx
      (by omega) (by omega) (ho _ (.head _))
    -- a record is no longer than what its postings are counted with
    have hR : recordLen fr.pfx (fr :: rest).length + 4 * (fr :: rest).length ≤
        ((fr :: rest).map membershipBytes).sum := by
      simp only [recordLen, postingEntryLen, map_cons, List.sum_cons, membershipBytes, length_cons]
      have := length_le_sum_membershipBytes rest
      omega
    obtain ⟨records, hr⟩ := ih (ln + recordLen fr.pfx (fr :: rest).length)
      (fun g' hg' => hN g' (.tail _ hg')) (fun g' hg' => hP g' (.tail _ hg'))
      (fun g' hg' => ho g' (.tail _ hg')) (by omega)
    refine ⟨record :: records, ?_⟩
    simp only [encodeRecords, run_ok]
    exact ⟨(), by simp; omega, record, by simpa using hE, records, hr, rfl⟩

theorem encodeSegment_progress (ho : ∀ m ∈ group, (ordinalOf dict m.event.eventKey).isSome)
    (hL : runBytes group ≤ u32Max) :
    ∃ sg, encodeSegment f shard group (ordinalOf dict) = .ok sg := by
  have hF := Grouping.flatten_groups Membership.pfx group
  have hM : ∀ g ∈ Grouping.groups Membership.pfx group, ∀ m ∈ g, m ∈ group := fun g hg m hm =>
    hF ▸ mem_flatten.mpr ⟨g, hg, hm⟩
  have hC := Grouping.length_groups_le Membership.pfx group
  have hB := length_le_sum_membershipBytes group
  unfold runBytes at hL
  obtain ⟨records, hR⟩ := encodeRecords_progress (ordinalOf dict)
    (segmentHeaderLen + 4 * (Grouping.groups Membership.pfx group).length)
    (fun g hg => Grouping.ne_nil_of_mem_groups _ hg)
    (fun g hg a ha b hb => Grouping.key_eq_of_mem_groups _ hg ha hb)
    (fun g hg m hm => ho m (hM g hg m hm)) (by rw [hF]; omega)
  refine ⟨⟨f, shard, records⟩, ?_⟩
  simp only [encodeSegment, run_ok]
  exact ⟨(), by simp; omega, records, hR, rfl⟩

/-- The memberships that one segment of a run holds. -/
def ofSegment (segment : Nat × Nat) (memberships : List Membership) : List Membership :=
  memberships.filter fun m => segmentOf m = segment

theorem runBytes_mono (h : mems.Subperm mems') : runBytes mems ≤ runBytes mems' := by
  obtain ⟨middle, hPerm, hSub⟩ := h
  have hLe := (hSub.map membershipBytes).sum_le_sum fun _ _ => Nat.zero_le _
  rw [(hPerm.map membershipBytes).sum_nat] at hLe
  unfold runBytes
  omega

theorem sortMemberships_subperm (mems : List Membership) : (sortMemberships mems).Subperm mems :=
  (List.destutter_sublist _ _).subperm.trans (perm_insertionSort _ mems).subperm

theorem ofSegment_subperm (h : mems.Subperm mems') (segment : Nat × Nat) :
    (ofSegment segment mems).Subperm (ofSegment segment mems') := by
  obtain ⟨middle, hPerm, hSub⟩ := h
  exact ⟨middle.filter _, hPerm.filter _, hSub.filter _⟩

/-- The memberships fit, segment by segment, and the events are at most as many as the segment of all events can hold. -/
structure Fit (mems : List Membership) : Prop where
  segments : ∀ m ∈ mems, runBytes (ofSegment (segmentOf m) mems) ≤ u32Max
  events : ∀ m ∈ mems, ∃ own ∈ ofSegment (Family.global.toU8, 0) mems, own.event.eventKey = m.event.eventKey

theorem Fit.keys_length_le (h : Fit mems) {keys : List EventKey} (hNodup : keys.Nodup)
    (hKeys : ∀ key ∈ keys, ∃ m ∈ mems, m.event.eventKey = key) : keys.length ≤ u32Max := by
  have hSub : keys ⊆ (ofSegment (Family.global.toU8, 0) mems).map fun m => m.event.eventKey := by
    intro key hKey
    obtain ⟨m, hm, rfl⟩ := hKeys key hKey
    obtain ⟨own, hOwn, hSame⟩ := h.events m hm
    exact mem_map.mpr ⟨own, hOwn, hSame⟩
  have hLength := (subperm_of_subset hNodup hSub).length_le
  rw [length_map] at hLength
  cases keys with
  | nil => exact Nat.zero_le _
  | cons key keys =>
    obtain ⟨m, hm, -⟩ := hKeys key (.head _)
    obtain ⟨own, hOwn, -⟩ := h.events m hm
    obtain ⟨hMem, hSegment⟩ := mem_filter.mp hOwn
    have hBytes := h.segments own hMem
    rw [of_decide_eq_true hSegment] at hBytes
    have hCount := length_le_sum_membershipBytes (ofSegment (Family.global.toU8, 0) mems)
    unfold runBytes at hBytes
    omega

end

theorem encodeRun_progress (hc : Consistent mems) (hN : mems ≠ [])
    (hR : Fit mems) : ∃ en, encodeRun mems = .ok en := by
  obtain ⟨checked, hH⟩ := checkMemberships_progress hc
  have hC := checkMemberships_ok hH
  have h1 : checked.idsByKey.toList.length ≤ u32Max := by
    have hn : (checked.idsByKey.toList.map Prod.fst).Nodup :=
      List.Pairwise.map _ (fun a b (h : compare a.1 b.1 = .lt) he => by simp [he] at h)
        checked.idsByKey.toList_pairwise
    have hKeys := hR.keys_length_le hn fun k hk => by
      obtain ⟨e, hE, rfl⟩ := mem_map.mp hk
      obtain ⟨m, hm, hmk, -⟩ := (hC.dictionary_iff e).mp hE
      exact ⟨m, hm, hmk⟩
    simpa using hKeys
  have hG : ∃ segments, (Grouping.groups segmentOf (sortMemberships mems)).mapM (fun gr =>
      let x := (gr.head?.map fun fr => (fr.family, fr.shard)).getD (.global, 0)
      encodeSegment x.1 x.2 gr (ordinalOf checked.idsByKey.toList)) = .ok segments := by
    refine Except.mapM_progress fun g hg => ?_
    have hB : g.Sublist (sortMemberships mems) := by
      have := List.sublist_flatten_of_mem hg
      rwa [Grouping.flatten_groups] at this
    refine encodeSegment_progress (fun m hm => ?_) ?_
    · have hE := (hC.dictionary_iff (m.event.eventKey, m.event.id)).mpr
        ⟨m, (mem_sortMemberships hc).mp (hB.subset hm), rfl, rfl⟩
      rw [ordinalOf, List.findIdx?_isSome, List.any_eq_true]
      exact ⟨_, hE, by simp⟩
    · obtain ⟨first, rest, rfl⟩ := List.exists_cons_of_ne_nil (Grouping.ne_nil_of_mem_groups _ hg)
      have hOwn : first ∈ mems := (mem_sortMemberships hc).mp (hB.subset (.head _))
      -- a group is a part of the segment that its first membership is in
      have hAll : ofSegment (segmentOf first) (first :: rest) = first :: rest :=
        List.filter_eq_self.mpr fun m hm => decide_eq_true (Grouping.key_eq_of_mem_groups segmentOf hg hm (.head _))
      have hSub := ofSegment_subperm (hB.subperm.trans (sortMemberships_subperm mems)) (segmentOf first)
      rw [hAll] at hSub
      exact (runBytes_mono hSub).trans (hR.segments first hOwn)
  obtain ⟨segments, hG⟩ := hG
  have hD : encodeDictionary checked.idsByKey.toList = .ok checked.idsByKey.toList := by
    unfold encodeDictionary
    rw [if_neg (by omega)]
    rfl
  refine ⟨⟨checked.idsByKey.toList, segments, checked.idsByKey.toList.length⟩, ?_⟩
  simp only [encodeRun, run_ok]
  exact ⟨(), by simpa using hN, checked, hH, (), by simp only [refuseIf_ok]; omega,
    segments, hG, _, hD, rfl⟩

section
omit [ShardHash]

theorem encodeRecords_offsets {ordinals : EventKey → Option Nat} {groups : List (List Membership)} {len : Nat}
    (h : encodeRecords ordinals len groups = .ok records) (hNonempty : groups ≠ []) :
    len + (groups.dropLast.map fun group => recordLen ((group.head?.map Membership.pfx).getD []) group.length).sum ≤ u32Max := by
  induction groups generalizing len records with
  | nil => exact absurd rfl hNonempty
  | cons group groups ih =>
    simp only [encodeRecords, run_ok, refuseIf_ok] at h
    obtain ⟨-, hOffset, record, -, rest, hRest, -⟩ := h
    cases groups with
    | nil => simpa using hOffset
    | cons next groups =>
      have hLater := ih hRest (List.cons_ne_nil _ _)
      rw [List.dropLast_cons_cons, map_cons, List.sum_cons]
      omega

theorem length_le_groups {prefixes : List Bytes} (hNodup : prefixes.Nodup)
    (hPrefixes : ∀ pfx ∈ prefixes, ∃ m ∈ group, m.pfx = pfx) :
    prefixes.length ≤ (Grouping.groups Membership.pfx group).length := by
  have hSub : prefixes ⊆ (Grouping.groups Membership.pfx group).map fun g => (g.head?.map Membership.pfx).getD [] := by
    intro pfx hPfx
    obtain ⟨m, hm, rfl⟩ := hPrefixes pfx hPfx
    rw [← Grouping.flatten_groups Membership.pfx group] at hm
    obtain ⟨g, hg, hOwn⟩ := mem_flatten.mp hm
    obtain ⟨first, rest, rfl⟩ := List.exists_cons_of_ne_nil (Grouping.ne_nil_of_mem_groups _ hg)
    exact mem_map.mpr ⟨_, hg, Grouping.key_eq_of_mem_groups _ hg (.head _) hOwn⟩
  simpa using (subperm_of_subset hNodup hSub).length_le

/-- All prefixes of a segment but the last fit below the greatest offset. -/
theorem encodeSegment_prefixes_le {bound : Nat} {prefixes : List Bytes}
    (h : encodeSegment f shard group (ordinalOf dict) = .ok encoded) (hNodup : prefixes.Nodup)
    (hPrefixes : ∀ pfx ∈ prefixes, ∃ m ∈ group, m.pfx = pfx) (hLong : ∀ m ∈ group, bound ≤ m.pfx.length) :
    (prefixes.length - 1) * bound ≤ u32Max := by
  simp only [encodeSegment, run_ok] at h
  obtain ⟨-, -, records, hRecords, -⟩ := h
  have hCount := length_le_groups hNodup hPrefixes
  by_cases hNone : Grouping.groups Membership.pfx group = []
  · rw [hNone, List.length_nil, Nat.le_zero] at hCount
    simp [hCount]
  have hOffsets := encodeRecords_offsets hRecords hNone
  have hEach : ∀ len ∈ (Grouping.groups Membership.pfx group).dropLast.map fun group =>
      recordLen ((group.head?.map Membership.pfx).getD []) group.length, bound ≤ len := by
    intro len hLen
    obtain ⟨g, hg, rfl⟩ := mem_map.mp hLen
    have hg := List.dropLast_subset _ hg
    obtain ⟨first, rest, rfl⟩ := List.exists_cons_of_ne_nil (Grouping.ne_nil_of_mem_groups _ hg)
    have hFirst := hLong first (Grouping.flatten_groups Membership.pfx group ▸ mem_flatten.mpr ⟨_, hg, .head _⟩)
    simp only [List.head?_cons, map_some, getD_some, recordLen]
    omega
  have hSum := List.card_nsmul_le_sum _ bound hEach
  rw [length_map, List.length_dropLast, Nat.nsmul_eq_mul] at hSum
  have hFewer := Nat.mul_le_mul_right bound (Nat.sub_le_sub_right hCount 1)
  omega

end

theorem encodeRun_prefixes_le (segment : Nat × Nat) (bound : Nat) (prefixes : List Bytes) (h : encodeRun mems = .ok enc)
    (hNodup : prefixes.Nodup) (hPrefixes : ∀ pfx ∈ prefixes, ∃ m ∈ mems, segmentOf m = segment ∧ m.pfx = pfx)
    (hLong : ∀ m ∈ mems, segmentOf m = segment → bound ≤ m.pfx.length) : (prefixes.length - 1) * bound ≤ u32Max := by
  cases prefixes with
  | nil => simp
  | cons pfx prefixes =>
    simp only [encodeRun, bind_ok, mapM_ok] at h
    obtain ⟨-, -, checked, hChecked, -, -, segments, hEncoded, -⟩ := h
    have hConsistent := (checkMemberships_ok hChecked).consistent
    obtain ⟨first, hFirst, rfl, -⟩ := hPrefixes pfx (.head _)
    -- the sorted memberships of the segment are one group
    have hSorted : (sortMemberships mems).Pairwise fun a b => (compare (segmentOf a) (segmentOf b)).isLE :=
      (sortMemberships_pairwise mems).imp fun hLt => (membershipOrder_eq_lt hLt).1
    have hGroups := Grouping.groups_pairwise segmentOf hSorted
    have hGroup : ∀ m ∈ mems, ∃ g ∈ Grouping.groups segmentOf (sortMemberships mems), m ∈ g := fun m hm => by
      have hSort := (mem_sortMemberships hConsistent).mpr hm
      rwa [← Grouping.flatten_groups segmentOf (sortMemberships mems), mem_flatten] at hSort
    obtain ⟨g, hg, hOwn⟩ := hGroup first hFirst
    obtain ⟨encoded, -, hSegment⟩ := Grouping.exists_of_mem_left hEncoded hg
    refine encodeSegment_prefixes_le hSegment hNodup (fun pfx hPfx => ?_) fun m hm => ?_
    · obtain ⟨m, hm, hSame, rfl⟩ := hPrefixes pfx hPfx
      obtain ⟨g', hg', hOwn'⟩ := hGroup m hm
      refine ⟨m, ?_, rfl⟩
      by_cases hEq : g' = g
      · exact hEq ▸ hOwn'
      · have hSymm : Std.Symm fun g g' : List Membership => ∀ a ∈ g, ∀ b ∈ g', segmentOf a ≠ segmentOf b :=
          ⟨fun _ _ hNe a ha b hb hSame => hNe b hb a ha hSame.symm⟩
        have hDistinct : (Grouping.groups segmentOf (sortMemberships mems)).Pairwise
            fun g g' => ∀ a ∈ g, ∀ b ∈ g', segmentOf a ≠ segmentOf b :=
          hGroups.imp fun hLt a ha b hb hSame => absurd (hLt a ha b hb) (by simp [hSame])
        exact absurd hSame (hDistinct.forall hg' hg hEq m hOwn' first hOwn)
    · have hAll := (mem_sortMemberships hConsistent).mp
        (Grouping.flatten_groups segmentOf (sortMemberships mems) ▸ mem_flatten.mpr ⟨g, hg, hm⟩)
      exact hLong m hAll (Grouping.key_eq_of_mem_groups segmentOf hg hm hOwn)

end NmpStore.Postings
