import NmpStore.Canonical.Relays

/-! # What the observation tables record

Under the bookkeeping invariant the tables stand for one map from event and relay to the latest time, and
every count is the number of observations that name its relay.
-/

namespace NmpStore.Observations

def seenAt (o : Observations) (key : EventKey) (relay : RelayUrl) : Option Nat :=
  o.relayIds[relay]?.bind fun relayKey => o.observed[(key, relayKey)]?

def naming (o : Observations) (relayKey : RelayKey) : Nat :=
  o.observed.total fun row => if row.1.2 = relayKey then 1 else 0

def count (o : Observations) (relayKey : RelayKey) : Option Nat :=
  (o.relayRefCounts[relayKey]?).or (o.relays[relayKey]?.map Prod.fst)

structure Ok (o : Observations) : Prop where
  ids : ∀ (relay : RelayUrl) relayKey, o.relayIds[relay]? = some relayKey ↔
    ∃ refs, o.relays[relayKey]? = some (refs, relay)
  fresh : ∀ (relayKey : RelayKey) (row : Nat × RelayUrl), o.relays[relayKey]? = some row → relayKey < o.nextRelayKey
  named : ∀ (key : EventKey) (relayKey : RelayKey) (time : Nat), o.observed[(key, relayKey)]? = some time →
    (o.relays[relayKey]?).isSome
  touched : ∀ (relayKey : RelayKey) refs, o.relayRefCounts[relayKey]? = some refs → (o.relays[relayKey]?).isSome
  counts : ∀ (relayKey : RelayKey) (refs : Nat), o.count relayKey = some refs → refs = o.naming relayKey

def Positive (o : Observations) : Prop :=
  ∀ (relayKey : RelayKey) (row : Nat × RelayUrl), o.relays[relayKey]? = some row → o.relayRefCounts[relayKey]? = none →
    0 < row.1

theorem ok_empty : Ok {} where
  ids := by simp
  fresh := by simp
  named := by simp
  touched := by simp
  counts := by simp [count]

theorem positive_empty : Positive {} := by simp [Positive]

section Reading

variable {o : Observations} {relay : RelayUrl} {relayKey : RelayKey} {key : EventKey}

theorem Ok.relayIds_inj (h : o.Ok)
    (hA : o.relayIds[relay]? = some relayKey) (hA' : o.relayIds[relay']? = some relayKey) : relay = relay' := by
  obtain ⟨rf, hW⟩ := (h.ids _ _).mp hA
  obtain ⟨rf', hW'⟩ := (h.ids _ _).mp hA'
  rw [hW] at hW'
  exact (Prod.mk.inj (Option.some.inj hW')).2

theorem Ok.seenAt_eq (h : o.Ok)
    (hW : o.relays[relayKey]? = some (refs, relay)) : o.seenAt key relay = o.observed[(key, relayKey)]? := by
  rw [seenAt, (h.ids relay relayKey).mpr ⟨refs, hW⟩]
  rfl

theorem mem_relayKeys : relayKey ∈ o.relayKeys key ↔ (o.observed[(key, relayKey)]?).isSome := by
  simp only [relayKeys, mem_map, mem_filter, decide_eq_true_eq, isSome_iff_exists]
  constructor
  · rintro ⟨⟨⟨k, r⟩, tm⟩, ⟨hW, rfl⟩, rfl⟩
    exact ⟨tm, mem_toList.mp hW⟩
  · rintro ⟨tm, hA⟩
    exact ⟨((key, relayKey), tm), ⟨mem_toList.mpr hA, rfl⟩, rfl⟩

theorem relayKeys_nodup (o : Observations) (key : EventKey) : (o.relayKeys key).Nodup := o.observed.toList_snd_nodup key

theorem Ok.loadSeen_eq (h : o.Ok) (key : EventKey) :
    ∃ se, o.loadSeen key = .ok se ∧ ∀ relay : RelayUrl, se[relay]? = o.seenAt key relay := by
  have hL := foldlM_progress (f := loadSeenStep o key) (l := o.relayKeys key) (b := ∅)
    (fun done se => ∀ relay : RelayUrl, se[relay]? =
      o.relayIds[relay]?.bind fun relayKey => if relayKey ∈ done then o.observed[(key, relayKey)]? else none)
    (by intro relay; cases o.relayIds[relay]? <;> simp)
    (fun done relayKey se hP hS => by
      have hN : relayKey ∉ done := fun hM => by
        have hn := (relayKeys_nodup o key).sublist hP.sublist
        rw [nodup_append] at hn
        exact hn.2.2 relayKey hM relayKey (by simp) rfl
      have hM : relayKey ∈ o.relayKeys key := hP.subset (by simp)
      obtain ⟨tm, hT⟩ := isSome_iff_exists.mp (mem_relayKeys.mp hM)
      obtain ⟨⟨rf, ur⟩, hW⟩ := isSome_iff_exists.mp (h.named _ _ _ hT)
      have hI := (h.ids ur relayKey).mpr ⟨rf, hW⟩
      have ho : se[ur]? = none := by rw [hS, hI]; simp [hN]
      refine ⟨se.insert ur tm, by simp [loadSeenStep, hT, hW, foldSeenAt, ho], fun relay => ?_⟩
      rw [get_insert]
      split
      · rename_i hE
        subst hE
        simp [hI, hT]
      rename_i he
      rw [hS]
      cases hA : o.relayIds[relay]? with
      | none => rfl
      | some ot =>
        have hX : ot ≠ relayKey := fun hE => he (h.relayIds_inj hI (hE ▸ hA))
        simp [hX])
  obtain ⟨se, hl, hS⟩ := hL
  refine ⟨se, hl, fun relay => ?_⟩
  rw [hS, seenAt]
  congr 1
  funext relayKey
  split
  · rfl
  rename_i hY
  rw [mem_relayKeys, Option.not_isSome_iff_eq_none] at hY
  exact hY.symm

end Reading

section Writing

variable {o o' : Observations} {key : EventKey} {relayKey : RelayKey} {relay : RelayUrl}

def PositiveBut (o : Observations) (relayKey : RelayKey) : Prop :=
  ∀ (other : RelayKey) (row : Nat × RelayUrl), o.relays[other]? = some row → o.relayRefCounts[other]? = none →
    other ≠ relayKey → 0 < row.1

theorem effectiveRelayRef_ok : o.effectiveRelayRef relayKey = .ok refs ↔ o.count relayKey = some refs := by
  unfold effectiveRelayRef count relayRow
  cases o.relayRefCounts[relayKey]? with
  | some c => simp
  | none => cases o.relays[relayKey]? <;> simp

theorem incrementRelayRef_cases (ho : o.incrementRelayRef relayKey = .ok o') : ∃ rf, o.count relayKey = some rf ∧
    o' = { o with relayRefCounts := o.relayRefCounts.insert relayKey (rf + 1) } := by
  simp only [incrementRelayRef, bind_ok, effectiveRelayRef_ok, pure_ok] at ho
  obtain ⟨rf, hR, -, -, rfl⟩ := ho
  exact ⟨rf, hR, rfl⟩

theorem decrementRelayRef_cases (ho : o.decrementRelayRef relayKey = .ok o') : ∃ rf, o.count relayKey = some rf ∧
    0 < rf ∧ o' = { o with relayRefCounts := o.relayRefCounts.insert relayKey (rf - 1) } := by
  simp only [decrementRelayRef, bind_ok, effectiveRelayRef_ok, pure_ok,
    refuseIf_ok] at ho
  obtain ⟨rf, hR, -, hP, rfl⟩ := ho
  exact ⟨rf, hR, Nat.pos_of_ne_zero hP, rfl⟩

theorem naming_insert (hN : o.observed[(key, relayKey)]? = none) (tm : Nat) (ot : RelayKey) :
    naming { o with observed := o.observed.insert (key, relayKey) tm } ot =
      (if relayKey = ot then 1 else 0) + o.naming ot :=
  Table.total_insert tm _ hN

theorem naming_replace (hS : o.observed[(key, relayKey)]? = some old) (ot : RelayKey) :
    naming { o with observed := o.observed.insert (key, relayKey) time } ot = o.naming ot := by
  have hs := Table.total_replace time (fun r => if r.1.2 = ot then 1 else 0) hS
  exact Nat.add_right_cancel hs

theorem naming_erase (hS : o.observed[(key, relayKey)]? = some old) (ot : RelayKey) :
    o.naming ot = (if relayKey = ot then 1 else 0) +
      naming { o with observed := o.observed.erase (key, relayKey) } ot :=
  Table.total_erase _ hS

theorem naming_eq_zero (hN : ∀ key : EventKey, o.observed[(key, relayKey)]? = none) : o.naming relayKey = 0 := by
  refine List.sum_eq_zero_iff_forall_eq_nat.mpr fun n hn => ?_
  obtain ⟨⟨⟨k, r⟩, tm⟩, hW, rfl⟩ := mem_map.mp hn
  refine if_neg fun hE : r = relayKey => ?_
  have hA := mem_toList.mp hW
  rw [hE, hN k] at hA
  cases hA

theorem naming_pos (hS : o.observed[(key, relayKey)]? = some time) : 0 < o.naming relayKey := by
  have hE := naming_erase hS relayKey
  simp only [↓reduceIte] at hE
  omega

theorem Ok.positive_of_observed (h : o.Ok) (hB : o.PositiveBut relayKey)
    (hS : o.observed[(key, relayKey)]? = some time) : o.Positive := by
  intro ot r hW hN
  by_cases hE : ot = relayKey
  · subst hE
    have hC : o.count ot = some r.1 := by simp [count, hN, hW]
    rw [h.counts ot r.1 hC]
    exact naming_pos hS
  · exact hB ot r hW hN hE

theorem internRelay_ok (h : o.Ok) (hP : o.Positive) (ho : o.internRelay relay = .ok (relayKey, o')) :
    o'.Ok ∧ o'.PositiveBut relayKey ∧ (∃ rf, o'.relays[relayKey]? = some (rf, relay)) ∧
      ∀ key ur, o'.seenAt key ur = o.seenAt key ur := by
  unfold internRelay at ho
  cases hA : o.relayIds[relay]? with
  | some ol =>
    simp only [hA, pure_ok, Prod.mk.injEq] at ho
    obtain ⟨rfl, rfl⟩ := ho
    exact ⟨h, fun ot r hW hN _ => hP ot r hW hN, (h.ids _ _).mp hA, fun _ _ => rfl⟩
  | none =>
    simp only [hA, run_ok] at ho
    obtain ⟨-, -, rfl, rfl⟩ := ho
    have hr : o.relays[o.nextRelayKey]? = none := eq_none_iff_forall_ne_some.mpr fun r hW =>
      lt_irrefl _ (h.fresh _ _ hW)
    have hu : ∀ key, o.observed[(key, o.nextRelayKey)]? = none := fun key =>
      eq_none_iff_forall_ne_some.mpr fun tm hT => by simpa [hr] using h.named _ _ _ hT
    have hC : o.relayRefCounts[o.nextRelayKey]? = none := eq_none_iff_forall_ne_some.mpr fun rf hR => by
      simpa [hr] using h.touched _ _ hR
    refine ⟨⟨fun ur key => ?_, fun ot r hW => ?_, fun key ot tm hT => ?_, fun ot rf hR => ?_,
      fun ot rf hR => ?_⟩, fun ot r hW hN hn => ?_, ⟨0, by simp⟩, fun key ur => ?_⟩
    · have hI := h.ids ur key
      by_cases hU : relay = ur
      · subst hU
        by_cases hK : o.nextRelayKey = key
        · simp [hK]
        · rw [hA] at hI
          simpa [hK] using hI
      · by_cases hK : o.nextRelayKey = key
        · subst hK
          rw [hr] at hI
          simpa [hU] using hI
        · simpa [hU, hK] using hI
    · rcases insert_some.mp hW with ⟨hE, -⟩ | ⟨-, hW⟩
      · exact hE ▸ Nat.lt_add_one _
      · exact Nat.lt_succ_of_lt (h.fresh ot r hW)
    · rw [get_insert]
      split
      · rfl
      · exact h.named _ _ _ hT
    · rw [get_insert]
      split
      · rfl
      · exact h.touched _ _ hR
    · simp only [count, get_insert] at hR
      split at hR
      · rename_i hE
        subst hE
        rw [hC] at hR
        obtain rfl : 0 = rf := by simpa using hR
        exact (naming_eq_zero hu).symm
      · exact h.counts ot rf hR
    · rw [get_insert, if_neg hn.symm] at hW
      exact hP ot r hW hN
    · simp only [seenAt, get_insert]
      split
      · rename_i hE
        subst hE
        simp [hA, hu]
      · rfl

theorem seenAt_put (h : o.Ok) (hW : o.relays[relayKey]? = some (refs, relay)) (ot : EventKey)
    (ur : RelayUrl) : seenAt { o with observed := o.observed.insert (key, relayKey) time } ot ur =
      if ot = key ∧ ur = relay then some time else o.seenAt ot ur := by
  have hI := (h.ids relay relayKey).mpr ⟨refs, hW⟩
  simp only [seenAt]
  cases hA : o.relayIds[ur]? with
  | none =>
    have hN : ur ≠ relay := fun hE => by simp [← hE, hA] at hI
    simp [hN]
  | some at_ =>
    by_cases hU : ur = relay
    · subst hU
      cases hA.symm.trans hI
      simp [eq_comm]
    · have hN : relayKey ≠ at_ := fun hE => hU (h.relayIds_inj hA (hE ▸ hI))
      simp [hU, hN]

theorem putObservation_ok (h : o.Ok) (hB : o.PositiveBut relayKey)
    (hW : o.relays[relayKey]? = some (rf, relay)) (ho : o.putObservation key relayKey time = .ok o') :
    o'.Ok ∧ o'.Positive ∧ ∀ ot ur, o'.seenAt ot ur =
      if ot = key ∧ ur = relay then some time else o.seenAt ot ur := by
  unfold putObservation at ho
  cases hA : o.observed[(key, relayKey)]? with
  | some ol =>
    obtain rfl : { o with observed := o.observed.insert (key, relayKey) time } = o' := by simpa [hA] using ho
    have hN : Ok { o with observed := o.observed.insert (key, relayKey) time } := by
      refine ⟨h.ids, h.fresh, fun ot r t hT => ?_, h.touched, fun ot rf hR => ?_⟩
      · rcases insert_some.mp hT with ⟨hE, -⟩ | ⟨-, hT⟩
        · rw [← (Prod.mk.inj hE).2, hW]
          rfl
        · exact h.named _ _ _ hT
      · rw [naming_replace hA]
        exact h.counts ot rf hR
    exact ⟨hN, h.positive_of_observed hB hA, seenAt_put h hW⟩
  | none =>
    simp only [hA, Option.isNone_none, ↓reduceIte] at ho
    obtain ⟨c, hC, rfl⟩ := incrementRelayRef_cases ho
    refine ⟨⟨h.ids, h.fresh, fun ot r t hT => ?_, fun ot rf hR => ?_, fun ot rf hR => ?_⟩,
      fun ot ro hX hn => ?_, seenAt_put h hW⟩
    · rcases insert_some.mp hT with ⟨hE, -⟩ | ⟨-, hT⟩
      · rw [← (Prod.mk.inj hE).2, hW]
        rfl
      · exact h.named _ _ _ hT
    · rcases insert_some.mp hR with ⟨hE, -⟩ | ⟨-, hR⟩
      · rw [← hE, hW]
        rfl
      · exact h.touched _ _ hR
    · have hm := naming_insert hA time ot
      change rf = naming { o with observed := o.observed.insert (key, relayKey) time } ot
      rw [hm]
      simp only [count, get_insert] at hR
      split at hR
      · rename_i hE
        subst hE
        obtain rfl : c + 1 = rf := by simpa using hR
        rw [if_pos rfl, h.counts relayKey c hC]
        omega
      · rename_i he
        rw [if_neg he, Nat.zero_add]
        exact h.counts ot rf hR
    · rw [get_insert] at hn
      split at hn
      · cases hn
      · rename_i he
        exact hB ot ro hX hn (Ne.symm he)

def latest (known : Option Nat) (time : Nat) : Nat := max (known.getD 0) time

theorem mergeObservation_ok (h : o.Ok) (hP : o.Positive)
    (ho : o.mergeObservation key relay time = .ok (grew, o')) : o'.Ok ∧ o'.Positive ∧ ∀ ot ur, o'.seenAt ot ur =
      if ot = key ∧ ur = relay then some (latest (o.seenAt key relay) time) else o.seenAt ot ur := by
  simp only [mergeObservation, bind_ok] at ho
  obtain ⟨⟨relayKey, m⟩, hI, ho⟩ := ho
  obtain ⟨hD, hB, ⟨rf, hW⟩, hS⟩ := internRelay_ok h hP hI
  have hs : o.seenAt key relay = m.observed[(key, relayKey)]? := (hS key relay).symm.trans (hD.seenAt_eq hW)
  cases hAt : m.observed[(key, relayKey)]? with
  | none =>
    simp only [hAt, Option.any_none, false_eq_true, ↓reduceIte, run_ok] at ho
    obtain ⟨_, hU, -, rfl⟩ := ho
    obtain ⟨hN, hp, hA⟩ := putObservation_ok hD hB hW hU
    refine ⟨hN, hp, fun ot ur => ?_⟩
    rw [hA, hs, hAt, hS]
    simp [latest]
  | some ol =>
    by_cases hO : ol ≥ time
    · simp only [hAt, any_some, hO, decide_true, ↓reduceIte, pure_ok, Prod.mk.injEq] at ho
      obtain ⟨-, rfl⟩ := ho
      refine ⟨hD, hD.positive_of_observed hB hAt, fun ot ur => ?_⟩
      rw [hS, hs, hAt]
      split
      · rename_i hH
        rw [hH.1, hH.2, hs, hAt, latest, getD_some, max_eq_left hO]
      · rfl
    · simp only [hAt, any_some, hO, decide_false, false_eq_true, ↓reduceIte, bind_ok,
        pure_ok, Prod.mk.injEq] at ho
      obtain ⟨_, hU, -, rfl⟩ := ho
      obtain ⟨hN, hp, hA⟩ := putObservation_ok hD hB hW hU
      refine ⟨hN, hp, fun ot ur => ?_⟩
      rw [hA, hs, hAt, hS, latest, getD_some, max_eq_right (Nat.le_of_not_ge hO)]

theorem removeObservation_ok (h : o.Ok) (hP : o.Positive) (hW : o.relays[relayKey]? = some (rf, relay))
    (ho : o.removeObservation key relayKey = .ok o') : o'.Ok ∧ o'.Positive ∧ (∀ ot ur, o'.seenAt ot ur =
      if ot = key ∧ ur = relay then none else o.seenAt ot ur) ∧ o'.relays = o.relays ∧ o'.relayIds = o.relayIds ∧
      o'.observed = o.observed.erase (key, relayKey) := by
  have he : ∀ ot ur, seenAt { o with observed := o.observed.erase (key, relayKey) } ot ur =
      if ot = key ∧ ur = relay then none else o.seenAt ot ur := fun ot ur => by
    have hI := (h.ids relay relayKey).mpr ⟨rf, hW⟩
    simp only [seenAt]
    cases hA : o.relayIds[ur]? with
    | none => simp
    | some at_ =>
      by_cases hU : ur = relay
      · subst hU
        cases hA.symm.trans hI
        simp [eq_comm]
      · have hn : relayKey ≠ at_ := fun hE => hU (h.relayIds_inj hA (hE ▸ hI))
        simp [hU, hn]
  unfold removeObservation at ho
  cases hA : o.observed[(key, relayKey)]? with
  | none =>
    obtain rfl : o = o' := by simpa [hA] using ho
    have hS : o.observed = o.observed.erase (key, relayKey) := Table.ext fun k => by
      rw [get_erase]
      split
      · rename_i hE
        rw [← hE, hA]
      · rfl
    refine ⟨h, hP, fun ot ur => ?_, rfl, rfl, hS⟩
    rw [← he ot ur, ← hS]
  | some ol =>
    simp only [hA] at ho
    obtain ⟨c, hc, hC, rfl⟩ := decrementRelayRef_cases ho
    have hm := fun ot => naming_erase hA ot
    refine ⟨⟨h.ids, h.fresh, fun ot r t hT => ?_, fun ot rf hR => ?_, fun ot rf hR => ?_⟩,
      fun ot ro hX hN => ?_, he, rfl, rfl, rfl⟩
    · rw [get_erase] at hT
      split at hT
      · cases hT
      · exact h.named _ _ _ hT
    · rcases insert_some.mp hR with ⟨hE, -⟩ | ⟨-, hR⟩
      · rw [← hE, hW]
        rfl
      · exact h.touched _ _ hR
    · change rf = naming { o with observed := o.observed.erase (key, relayKey) } ot
      have hX := hm ot
      simp only [count, get_insert] at hR
      split at hR
      · rename_i hE
        subst hE
        obtain rfl : c - 1 = rf := by simpa using hR
        rw [if_pos rfl, ← h.counts relayKey c hc] at hX
        omega
      · rename_i hn
        rw [if_neg hn, Nat.zero_add, ← h.counts ot rf hR] at hX
        exact hX
    · rw [get_insert] at hN
      split at hN
      · cases hN
      · exact hP ot ro hX hN

theorem removeAllObservations_ok (h : o.Ok) (hP : o.Positive) (hk : o.removeAllObservations key = .ok o') :
    o'.Ok ∧ o'.Positive ∧ ∀ ot ur, o'.seenAt ot ur = if ot = key then none else o.seenAt ot ur := by
  -- the relay rows stay as they are; the observations of the event go one by one
  have hL := foldlM_induction (f := fun o relayKey => removeObservation o key relayKey)
    (fun done m => m.Ok ∧ m.Positive ∧ m.relays = o.relays ∧ m.relayIds = o.relayIds ∧
      ∀ (ot : EventKey) (r : RelayKey), m.observed[(ot, r)]? =
        if ot = key ∧ r ∈ done then none else o.observed[(ot, r)]?)
    ⟨h, hP, rfl, rfl, fun ot r => by simp⟩
    (fun done relayKey m next hp hD hN => by
      obtain ⟨hm, hI, hRelays, hIds, ho⟩ := hD
      have hM : relayKey ∈ o.relayKeys key := hp.subset (by simp)
      obtain ⟨tm, hT⟩ := isSome_iff_exists.mp (mem_relayKeys.mp hM)
      obtain ⟨⟨rf, ur⟩, hW⟩ := isSome_iff_exists.mp (h.named _ _ _ hT)
      obtain ⟨hn, hE, -, hRelays', hIds', ho'⟩ :=
        removeObservation_ok hm hI (hRelays ▸ hW) hN
      refine ⟨hn, hE, hRelays'.trans hRelays, hIds'.trans hIds, fun ot r => ?_⟩
      rw [ho', get_erase, ho]
      grind) hk
  obtain ⟨hk', hP', -, hIds, ho⟩ := hL
  refine ⟨hk', hP', fun ot ur => ?_⟩
  rw [seenAt, hIds, seenAt]
  cases o.relayIds[ur]? with
  | none => simp
  | some r =>
    simp only [bind_some, ho]
    by_cases hK : ot = key
    · subst hK
      cases hA : o.observed[(ot, r)]? with
      | none => simp
      | some tm => simp [mem_relayKeys.mpr (isSome_iff_exists.mpr ⟨tm, hA⟩)]
    · simp [hK]

theorem replaceSeen_ok (h : o.Ok) (hP : o.Positive) (ho : o.replaceSeen key seen = .ok o') :
    o'.Ok ∧ o'.Positive ∧ ∀ ot ur, o'.seenAt ot ur = if ot = key then seen[ur]? else o.seenAt ot ur := by
  obtain ⟨ol, hO, he⟩ := h.loadSeen_eq key
  simp only [replaceSeen, hO, bind_ok, Except.ok.injEq, exists_eq_left'] at ho
  obtain ⟨m, hDp, hp⟩ := ho
  have hd := foldlM_induction (f := dropObservation seen key)
    (fun done m => m.Ok ∧ m.Positive ∧ ∀ ot ur, m.seenAt ot ur =
      if ot = key ∧ ur ∈ done ∧ seen[ur]? = none then none else o.seenAt ot ur)
    ⟨h, hP, fun ot ur => by simp⟩
    (fun done relay m next _ hD hN => by
      obtain ⟨hm, hi, hS⟩ := hD
      unfold dropObservation at hN
      cases hw : seen[relay]? with
      | some tm =>
        obtain rfl : m = next := by simpa [hw] using hN
        refine ⟨hm, hi, fun ot ur => ?_⟩
        rw [hS]
        grind
      | none =>
        cases hAt : m.relayIds[relay]? with
        | none => simp [hw, hAt] at hN
        | some relayKey =>
          simp only [hw, hAt, isSome_none, false_eq_true, ↓reduceIte] at hN
          obtain ⟨rf, hW⟩ := (hm.ids relay relayKey).mp hAt
          obtain ⟨hn, hx, hX, -⟩ := removeObservation_ok hm hi hW hN
          refine ⟨hn, hx, fun ot ur => ?_⟩
          rw [hX, hS]
          grind) hDp
  obtain ⟨hm, hi, hs⟩ := hd
  have hL := foldlM_induction (f := replaceObservation ol key)
    (fun done last => last.Ok ∧ last.Positive ∧ ∀ ot ur, last.seenAt ot ur =
      if ot = key ∧ ur ∈ done.map Prod.fst then seen[ur]? else m.seenAt ot ur)
    ⟨hm, hi, fun ot ur => by simp⟩
    (fun done e last next ht hL hN => by
      obtain ⟨hl, hA, hS⟩ := hL
      have hE : seen[e.1]? = some e.2 := mem_toList.mp (ht.subset (by simp))
      unfold replaceObservation at hN
      split at hN
      · rename_i hSm
        obtain rfl : last = next := by simpa using hN
        refine ⟨hl, hA, fun ot ur => ?_⟩
        have h3 := hs key e.1
        rw [hS]
        grind
      · obtain ⟨⟨relayKey, it⟩, hT, h1⟩ := bind_ok.mp hN
        obtain ⟨hI, hb, ⟨rf, hW⟩, hSm⟩ := internRelay_ok hl hA hT
        obtain ⟨hn, hx, hX⟩ := putObservation_ok hI hb hW h1
        refine ⟨hn, hx, fun ot ur => ?_⟩
        rw [hX, hSm, hS]
        grind) hp
  obtain ⟨ho', hP', hS⟩ := hL
  refine ⟨ho', hP', fun ot ur => ?_⟩
  rw [hS, hs]
  by_cases hK : ot = key
  · subst hK
    cases hAt : seen[ur]? with
    | some tm =>
      have hM : ur ∈ seen.toList.map Prod.fst := mem_map.mpr ⟨(ur, tm), mem_toList.mpr hAt, rfl⟩
      rw [if_pos ⟨rfl, hM⟩, if_pos rfl]
    | none =>
      have hM : ur ∉ seen.toList.map Prod.fst := fun hM => by
        obtain ⟨r, hW, rfl⟩ := mem_map.mp hM
        rw [mem_toList.mp hW] at hAt
        cases hAt
      have hk : ur ∈ ol.keys ∨ o.seenAt ot ur = none := by
        rw [← he]
        by_cases hIn : ur ∈ ol
        · exact .inl (mem_keys.mpr hIn)
        · exact .inr (Std.ExtTreeMap.getElem?_eq_none hIn)
      rw [if_neg fun hB => hM hB.2, if_pos rfl]
      rcases hk with hIn | h2
      · rw [if_pos ⟨rfl, hIn, rfl⟩]
      · rw [h2, ite_self]
  · simp [hK]

def flushedRow (o : Observations) (relayKey : RelayKey) : Option (Nat × RelayUrl) :=
  match o.relayRefCounts[relayKey]? with
  | none => o.relays[relayKey]?
  | some 0 => none
  | some refs => o.relays[relayKey]?.map fun row => (refs, row.2)

structure Flushing (o : Observations) (done : List (RelayKey × Nat)) (mid : Observations) : Prop where
  observed : mid.observed = o.observed
  next : mid.nextRelayKey = o.nextRelayKey
  counts : mid.relayRefCounts = ∅
  ids : ∀ (relay : RelayUrl) relayKey, mid.relayIds[relay]? = some relayKey ↔
    ∃ refs, mid.relays[relayKey]? = some (refs, relay)
  row : ∀ relayKey : RelayKey, mid.relays[relayKey]? =
    if relayKey ∈ done.map Prod.fst then o.flushedRow relayKey else o.relays[relayKey]?

theorem Flushing.step {m next : Observations}
    (h : o.Flushing done m) (hE : o.relayRefCounts[e.1]? = some e.2) (hN : e.1 ∉ done.map Prod.fst)
    (ho : flushRelay m e = .ok next) : o.Flushing (done ++ [e]) next := by
  obtain ⟨⟨pr, ur⟩, hW, ho⟩ := bind_ok.mp ho
  dsimp only at ho
  have hD : m.relays[e.1]? = some (pr, ur) := by
    unfold relayRow at hW
    cases hA : m.relays[e.1]? with
    | none => simp [hA] at hW
    | some r => simpa [hA] using hW
  have hO : o.relays[e.1]? = some (pr, ur) := by rw [← hD, h.row, if_neg hN]
  have hi : m.relayIds[ur]? = some e.1 := (h.ids _ _).mpr ⟨_, hD⟩
  have hX : ∀ relayKey : RelayKey, relayKey ≠ e.1 →
      (relayKey ∈ (done ++ [e]).map Prod.fst ↔ relayKey ∈ done.map Prod.fst) := fun relayKey h1 => by
    simp [h1]
  split at ho
  · rename_i hP
    have hF : o.flushedRow e.1 = some (e.2, ur) := by
      unfold flushedRow
      rw [hE]
      obtain ⟨n, hn⟩ := Nat.exists_eq_succ_of_ne_zero (ne_of_gt hP)
      simp [hn, hO]
    split at ho
    · rename_i hS
      obtain rfl : m = next := by simpa using ho
      refine ⟨h.observed, h.next, h.counts, h.ids, fun relayKey => ?_⟩
      by_cases he : relayKey = e.1
      · subst he
        rw [if_pos (by simp), hF, hD, hS]
      · simp only [h.row, hX relayKey he]
    cases ho
    refine ⟨h.observed, h.next, h.counts, fun relay relayKey => ?_, fun relayKey => ?_⟩
    · rw [h.ids]
      by_cases he : e.1 = relayKey
      · subst he
        simp [hD]
      · simp [he]
    · simp only [get_insert]
      by_cases he : relayKey = e.1
      · subst he
        rw [if_pos rfl, if_pos (by simp), hF]
      · simp only [if_neg (Ne.symm he), h.row, hX relayKey he]
  · rename_i hZ
    cases ho
    have hF : o.flushedRow e.1 = none := by
      unfold flushedRow
      rw [hE, Nat.eq_zero_of_not_pos hZ]
      rfl
    refine ⟨h.observed, h.next, h.counts, fun relay relayKey => ?_, fun relayKey => ?_⟩
    · have hI := h.ids relay relayKey
      simp only [get_erase]
      by_cases hU : ur = relay
      · subst hU
        by_cases he : e.1 = relayKey
        · simp [he]
        · rw [hi] at hI
          simpa [he] using hI
      · by_cases he : e.1 = relayKey
        · subst he
          rw [hD] at hI
          simpa [hU] using hI
        · simpa [hU, he] using hI
    · simp only [get_erase]
      by_cases he : relayKey = e.1
      · subst he
        rw [if_pos rfl, if_pos (by simp), hF]
      · simp only [if_neg (Ne.symm he), h.row, hX relayKey he]

structure Rested (o : Observations) : Prop where
  ok : o.Ok
  counts : o.relayRefCounts = ∅
  refs : ∀ (relayKey : RelayKey) (row : Nat × RelayUrl), o.relays[relayKey]? = some row →
    row.1 = o.naming relayKey ∧ 0 < row.1

theorem Rested.positive (h : o.Rested) : o.Positive := fun relayKey r hW _ => (h.refs relayKey r hW).2

theorem flushRelays_ok (h : o.Ok) (hP : o.Positive) (ho : o.flushRelays = .ok o') :
    o'.Rested ∧ ∀ key ur, o'.seenAt key ur = o.seenAt key ur := by
  have hk : (o.relayRefCounts.toList.map Prod.fst).Nodup :=
    List.Pairwise.map _ (fun a b (hL : compare a.1 b.1 = .lt) hE => by simp [hE] at hL) o.relayRefCounts.toList_pairwise
  have hS : o.Flushing [] { o with relayRefCounts := ∅ } := ⟨rfl, rfl, rfl, h.ids, fun relayKey => by simp⟩
  have hl := foldlM_induction (o.Flushing ·) hS
    (fun done e m next hp hD hX => by
      have hM : e ∈ o.relayRefCounts.toList := hp.subset (by simp)
      refine hD.step (mem_toList.mp hM) (fun hI => ?_) hX
      have hn := hk.sublist (hp.sublist.map Prod.fst)
      rw [map_append, nodup_append] at hn
      exact hn.2.2 e.1 hI e.1 (by simp) rfl) ho
  obtain ⟨hB, hX, hc, hi, hW⟩ := hl
  replace hW : ∀ relayKey : RelayKey, o'.relays[relayKey]? = o.flushedRow relayKey := fun relayKey => by
    rw [hW]
    split
    · rfl
    rename_i hY
    have hNo : o.relayRefCounts[relayKey]? = none := eq_none_iff_forall_ne_some.mpr fun refs hR =>
      hY (mem_map.mpr ⟨(relayKey, refs), mem_toList.mpr hR, rfl⟩)
    simp [flushedRow, hNo]
  have hm : ∀ relayKey, o'.naming relayKey = o.naming relayKey := fun relayKey => by rw [naming, hB, naming]
  have hR : ∀ (relayKey : RelayKey) (r : Nat × RelayUrl), o'.relays[relayKey]? = some r →
      (r.1 = o'.naming relayKey ∧ 0 < r.1) ∧ ∃ refs, o.relays[relayKey]? = some (refs, r.2) := by
    intro relayKey r hAt
    rw [hW, flushedRow] at hAt
    rw [hm]
    split at hAt
    · rename_i hNo
      exact ⟨⟨h.counts relayKey r.1 (by simp [count, hNo, hAt]), hP relayKey r hAt hNo⟩, r.1, hAt⟩
    · cases hAt
    · rename_i refs he hC
      obtain ⟨ol, hO, rfl⟩ := map_eq_some_iff.mp hAt
      exact ⟨⟨h.counts relayKey refs (by simp [count, hC]), Nat.pos_of_ne_zero fun hZ => he hZ⟩, ol.1, hO⟩
  -- a relay that some observation names keeps its row
  have hK : ∀ (key : EventKey) (relayKey : RelayKey) (tm : Nat), o.observed[(key, relayKey)]? = some tm →
      ∀ refs ur, o.relays[relayKey]? = some (refs, ur) → ∃ refs', o'.relays[relayKey]? = some (refs', ur) := by
    intro key relayKey tm hT refs ur hAt
    have hs := naming_pos hT
    rw [hW, flushedRow]
    cases hC : o.relayRefCounts[relayKey]? with
    | none => exact ⟨refs, hAt⟩
    | some n =>
      have hE := h.counts relayKey n (by simp [count, hC])
      cases n with
      | zero => omega
      | succ n => exact ⟨n + 1, by simp [hAt]⟩
  refine ⟨⟨⟨hi, fun relayKey r hAt => ?_, fun key relayKey tm hT => ?_, by simp [hc], fun relayKey refs hC => ?_⟩,
    hc, fun relayKey r hAt => (hR relayKey r hAt).1⟩, fun key ur => ?_⟩
  · obtain ⟨-, refs, hO⟩ := hR relayKey r hAt
    rw [hX]
    exact h.fresh _ _ hO
  · rw [hB] at hT
    obtain ⟨⟨refs, ur⟩, hO⟩ := isSome_iff_exists.mp (h.named _ _ _ hT)
    obtain ⟨refs', hN⟩ := hK key relayKey tm hT refs ur hO
    rw [hN]
    rfl
  · rw [count, hc] at hC
    obtain ⟨r, hAt, rfl⟩ : ∃ r, o'.relays[relayKey]? = some r ∧ r.1 = refs := by simpa using hC
    exact (hR relayKey r hAt).1.1
  rw [seenAt, seenAt, hB]
  cases hAt : o'.relayIds[ur]? with
  | some relayKey =>
    obtain ⟨refs, hN⟩ := (hi _ _).mp hAt
    obtain ⟨-, refs', hO⟩ := hR relayKey _ hN
    rw [(h.ids ur relayKey).mpr ⟨refs', hO⟩]
  | none =>
    cases hO : o.relayIds[ur]? with
    | none => rfl
    | some relayKey =>
      obtain ⟨refs, h1⟩ := (h.ids _ _).mp hO
      simp only [Option.bind_none, bind_some]
      symm
      refine eq_none_iff_forall_ne_some.mpr fun tm hT => ?_
      obtain ⟨refs', hN⟩ := hK key relayKey tm hT refs ur h1
      rw [(hi ur relayKey).mpr ⟨refs', hN⟩] at hAt
      cases hAt

end Writing

end NmpStore.Observations
