import NmpStore.Store.LaneEffects

/-! # Attempts in order

The attempts of a lane are those up to its last ordinal.
-/

namespace NmpStore

namespace Queue

variable {q q' : Queue} {old : Lane}

def Recorded (q : Queue) : Prop :=
  ∀ (owner : IntentId) (relay : QueueRelayId) (lane : Lane), q.lanes[(owner, relay)]? = some lane →
    ∀ ordinal : Nat, (q.attempts[(owner, relay, ordinal)]?).isSome ↔ 1 ≤ ordinal ∧ ordinal ≤ lane.lastOrdinal

structure Orderly (q : Queue) : Prop where
  mirrors : q.Mirrors
  recorded : q.Recorded

def KeepsAttempts (q q' : Queue) : Prop :=
  ∀ (key : IntentId × QueueRelayId × Nat) (attempt : EventId × AttemptOutcome), q.attempts[key]? = some attempt →
    q'.attempts[key]? = some attempt ∨ q'.attempts[key]? = none

def Unused (q : Queue) (owner : IntentId) (relay : QueueRelayId) : Prop :=
  q.lanes[(owner, relay)]? = none ∧ ∀ ordinal : Nat, q.attempts[(owner, relay, ordinal)]? = none

theorem KeepsAttempts.of_same (h : q'.attempts = q.attempts) : q.KeepsAttempts q' := fun _ _ hA => .inl (h ▸ hA)

theorem orderly_empty : Orderly {} := ⟨mirrors_empty, fun o r ln hL => by simp at hL⟩

theorem Lapses.keepsAttempts (h : q.Lapses q') : q.KeepsAttempts q' := by
  rintro ⟨o, relay, od⟩ att hA
  rcases h.attempts o relay od with hS | ⟨hG, -⟩
  · exact .inl (hS.trans hA)
  · exact .inr hG

theorem Lapses.orderly (h : q.Lapses q') (ho : q.Orderly) : q'.Orderly := by
  refine ⟨h.mirrors ho.mirrors, fun o relay ln hL od => ?_⟩
  have hO : q.lanes[(o, relay)]? = some ln := by
    rcases h.lanes o relay with hS | hG
    · exact hS.symm.trans hL
    · cases hG.symm.trans hL
  have hA : q'.attempts[(o, relay, od)]? = q.attempts[(o, relay, od)]? := by
    rcases h.attempts o relay od with hS | ⟨-, hG⟩
    · exact hS
    · cases hG.symm.trans hL
  rw [hA]
  exact ho.recorded o relay ln hO od

theorem Moves.cases (h : q.Moves own r old n q') (hL : q'.lanes[(o, orelay)]? = some ln) :
    (own, r) = (o, orelay) ∧ ln = n ∨
      (own, r) ≠ (o, orelay) ∧ q.lanes[(o, orelay)]? = some ln := by
  rw [h.lanes, get_insert] at hL
  split_ifs at hL with hS
  · exact .inl ⟨hS, (Option.some.inj hL).symm⟩
  · exact .inr ⟨hS, hL⟩

theorem Moves.orderly (h : q.Moves own r old n q')
    (hA : q'.attempts = q.attempts) (hd : n.lastOrdinal = old.lastOrdinal) (ho : q.Orderly) :
    q'.Orderly := by
  refine ⟨h.mirrors ho.mirrors, fun o ol ln hL od => ?_⟩
  rw [hA]
  rcases h.cases hL with ⟨hS, rfl⟩ | ⟨-, hO⟩
  · cases hS
    rw [hd]
    exact ho.recorded own r old h.old od
  · exact ho.recorded o ol ln hO od

theorem Moves.starts
    (h : q.Moves own relay old n q') (ha : q'.attempts = q.attempts.insert (own, relay, old.lastOrdinal + 1) attempt)
    (hd : n.lastOrdinal = old.lastOrdinal + 1) (ho : q.Orderly) : q'.Orderly ∧ q.KeepsAttempts q' := by
  have hI : ∀ k : IntentId × QueueRelayId × Nat, q'.attempts[k]? =
      if (own, relay, old.lastOrdinal + 1) = k then some attempt else q.attempts[k]? := fun k => by
    rw [ha]
    exact get_insert ..
  refine ⟨⟨h.mirrors ho.mirrors, fun o ol ln hl od => ?_⟩, fun k st hA => .inl ?_⟩
  · rw [hI]
    rcases h.cases hl with ⟨hS, rfl⟩ | ⟨hX, hO⟩
    · cases hS
      have hB := ho.recorded own relay old h.old od
      by_cases hL : old.lastOrdinal + 1 = od
      · simp [← hL, hd]
      · rw [if_neg (by simpa using hL), hB, hd]
        omega
    · rw [if_neg fun hK => hX (by simp_all)]
      exact ho.recorded o ol ln hO od
  · -- the ordinal after the last one has not been recorded
    rw [hI, if_neg fun hK => ?_]
    · exact hA
    subst hK
    have hB := (ho.recorded own relay old h.old (old.lastOrdinal + 1)).mp (by simp [hA])
    omega

theorem Opens.mirrors (h : q.Opens i relays q') (hM : q.Mirrors) : q'.Mirrors := by
  intro nw o r
  rw [h.deadlines, hM nw o r]
  rcases h.lanes o r with hS | ⟨-, -, hN, eventId, ho⟩
  · rw [hS]
  · rw [hN, ho]
    rfl

theorem Opens.orderly (h : q.Opens i relays q')
    (hU : ∀ r ∈ relays, q.lanes[(i, r)]? = none → q.Unused i r) (ho : q.Orderly) :
    q'.Orderly := by
  refine ⟨h.mirrors ho.mirrors, fun o r ln hL od => ?_⟩
  rw [h.attempts]
  rcases h.lanes o r with hS | ⟨rfl, hR, hN, eventId, hp⟩
  · exact ho.recorded o r ln (hS.symm.trans hL) od
  cases hp.symm.trans hL
  rw [(hU r hR hN).2 od]
  simp only [isSome_none, false_eq_true, false_iff]
  omega

theorem Mirrors.checkDeadline (h : q.Mirrors)
    (hW : row ∈ q.deadlines.toList) : ∃ dd, q.checkDeadline row = .ok dd := by
  obtain ⟨⟨nw, owner, r⟩, revision, kn⟩ := row
  have hA := (h nw owner r).symm.trans (mem_toList.mp hW)
  obtain ⟨ln, hL, hD⟩ := bind_eq_some_iff.mp hA
  obtain ⟨hS, hR⟩ := Lane.deadlineAt_some.mp hD
  refine ⟨⟨nw, ⟨owner, ln.eventId, r⟩, revision, kn⟩, ?_⟩
  simp [Queue.checkDeadline, hL, hS, hR, Except.refuseIf]

theorem Mirrors.dueDeadlines (h : q.Mirrors) (nw lm : Nat) (hL : lm ≤ 1024) :
    ∃ du, q.dueDeadlines nw lm = .ok du := by
  have hR : ∀ r ∈ (q.deadlines.toList.filter (·.1.1 ≤ nw)).take lm, ∃ dd, q.checkDeadline r = .ok dd :=
    fun r hW => h.checkDeadline (List.mem_of_mem_filter (List.mem_of_mem_take hW))
  obtain ⟨du, hD⟩ := Except.mapM_progress hR
  exact ⟨du, by simp [Queue.dueDeadlines, hL, hD]⟩

theorem Mirrors.nextDeadline (h : q.Mirrors) : ∃ next, q.nextDeadline = .ok next := by
  unfold Queue.nextDeadline
  split
  · exact ⟨none, rfl⟩
  next r hW =>
  obtain ⟨dd, hD⟩ := h.checkDeadline (List.mem_of_mem_head? hW)
  exact ⟨some dd.instant, by rw [hD]; rfl⟩

end Queue

end NmpStore
