import NmpStore.Store.WriteOps

/-! # The deadline table mirrors the lanes

A lane that waits for an instant has one row among the deadlines.
-/

namespace NmpStore

def Lane.deadlineAt (lane : Lane) (instant : Nat) : Option (Nat × DeadlineKind) :=
  (laneStateDeadline lane.state).bind fun deadline => if deadline.1 = instant then some (lane.revision, deadline.2) else none

theorem Lane.deadlineAt_some {ln : Lane} {nw r : Nat} :
    ln.deadlineAt nw = some (r, kind) ↔
      laneStateDeadline ln.state = some (nw, kind) ∧ ln.revision = r := by
  unfold Lane.deadlineAt
  cases hD : laneStateDeadline ln.state with
  | none => simp
  | some dd =>
    obtain ⟨tm, o⟩ := dd
    by_cases hT : tm = nw <;> simp [hT, and_comm]

theorem Lane.deadlineAt_eq_none {ln : Lane} (h : ∀ kn, laneStateDeadline ln.state ≠ some (now, kn)) :
    ln.deadlineAt now = none := by
  refine eq_none_iff_forall_ne_some.mpr fun r hW => ?_
  exact h r.2 (Lane.deadlineAt_some.mp hW).1

namespace Queue

def Mirrors (q : Queue) : Prop :=
  ∀ (instant : Nat) (intentId : IntentId) (relay : QueueRelayId),
    q.deadlines[(instant, intentId, relay)]? = (q.lanes[(intentId, relay)]?).bind (·.deadlineAt instant)

theorem mirrors_empty : Mirrors {} := fun nw i r => by simp

variable {q q' : Queue}

theorem Mirrors.of_same (h : q.Mirrors) (hL : q'.lanes = q.lanes) (hD : q'.deadlines = q.deadlines) : q'.Mirrors := by
  intro nw o r
  rw [hD, hL]
  exact h nw o r

theorem mem_intentDeadlineKeys :
    (now, owner, relay) ∈ q.intentDeadlineKeys i ↔ owner = i ∧
      ∃ lane kind, q.lanes[(i, relay)]? = some lane ∧ laneStateDeadline lane.state = some (now, kind) := by
  simp only [intentDeadlineKeys, mem_filterMap, mem_toList, Prod.exists]
  constructor
  · rintro ⟨o, otherRelay, lane, hL, hK⟩
    split_ifs at hK with ho
    obtain ⟨⟨tm, kind⟩, hD, hK⟩ := map_eq_some_iff.mp hK
    obtain ⟨rfl, rfl, rfl⟩ := hK
    exact ⟨rfl, lane, kind, ho ▸ hL, hD⟩
  · rintro ⟨rfl, lane, kind, hL, hD⟩
    exact ⟨owner, relay, lane, hL, by simp [hD]⟩

theorem Mirrors.clears (h : q.Mirrors) (i : IntentId) (nw : Nat) (owner : IntentId) (r : QueueRelayId) :
    (q.clearIntentDeadlines i).deadlines[(nw, owner, r)]? =
      if owner = i then none else q.deadlines[(nw, owner, r)]? := by
  have hE := Table.get_eraseAll q.deadlines (q.intentDeadlineKeys i) (nw, owner, r)
  by_cases hK : (nw, owner, r) ∈ q.intentDeadlineKeys i
  · rw [if_pos (mem_intentDeadlineKeys.mp hK).1]
    exact hE.1 hK
  refine (hE.2 hK).trans ?_
  split_ifs with ho
  · subst ho
    rw [h]
    cases hL : q.lanes[(owner, r)]? with
    | none => rfl
    | some lane =>
      exact Lane.deadlineAt_eq_none fun kind hD => hK (mem_intentDeadlineKeys.mpr ⟨rfl, lane, kind, hL, hD⟩)
  · rfl

theorem Mirrors.forget (h : q.Mirrors) (hD : q'.deadlines = (q.clearIntentDeadlines i).deadlines)
    (hL : ∀ (o : IntentId) (r : QueueRelayId), q'.lanes[(o, r)]? =
      if o = i then none else q.lanes[(o, r)]?) : q'.Mirrors := by
  intro nw o r
  rw [hD, hL, h.clears]
  split_ifs
  · rfl
  · exact h nw o r

theorem clearIntentDeadlines_of_idle (h : ∀ (r : QueueRelayId) (lane : Lane), q.lanes[(i, r)]? = some lane →
    laneStateDeadline lane.state = none) : q.clearIntentDeadlines i = q := by
  have hN : q.intentDeadlineKeys i = [] := by
    refine List.eq_nil_iff_forall_not_mem.mpr fun k hK => ?_
    obtain ⟨-, lane, kind, hL, hD⟩ := mem_intentDeadlineKeys.mp hK
    cases (h _ lane hL).symm.trans hD
  simp [clearIntentDeadlines, hN, Table.eraseAll]

structure Lapses (q q' : Queue) : Prop where
  lanes : ∀ (owner : IntentId) (relay : QueueRelayId),
    q'.lanes[(owner, relay)]? = q.lanes[(owner, relay)]? ∨ q'.lanes[(owner, relay)]? = none
  attempts : ∀ (owner : IntentId) (relay : QueueRelayId) (ordinal : Nat),
    q'.attempts[(owner, relay, ordinal)]? = q.attempts[(owner, relay, ordinal)]? ∨
      q'.attempts[(owner, relay, ordinal)]? = none ∧ q'.lanes[(owner, relay)]? = none
  mirrors : q.Mirrors → q'.Mirrors

theorem Lapses.of_same (hL : q'.lanes = q.lanes) (hA : q'.attempts = q.attempts)
    (hD : q'.deadlines = q.deadlines) : q.Lapses q' where
  lanes _ _ := .inl (by rw [hL])
  attempts _ _ _ := .inl (by rw [hA])
  mirrors h := h.of_same hL hD

theorem Lapses.refl (q : Queue) : q.Lapses q := .of_same rfl rfl rfl

theorem Lapses.trans (fr : q.Lapses m) (last : m.Lapses q') : q.Lapses q' where
  lanes o r := by
    rcases last.lanes o r with hS | hN
    · rw [hS]
      exact fr.lanes o r
    · exact .inr hN
  attempts o r ord := by
    rcases last.attempts o r ord with hS | hN
    · rw [hS]
      refine (fr.attempts o r ord).imp_right fun ⟨hG, hl⟩ => ⟨hG, ?_⟩
      rcases last.lanes o r with hL | hL
      · exact hL.trans hl
      · exact hL
    · exact .inr hN
  mirrors h := last.mirrors (fr.mirrors h)

theorem get_without {K V : Type} [Ord K] [TransOrd K] [LawfulEqOrd K] (t : Table (IntentId × K) V)
    (i o : IntentId) (k : K) : (t.filter fun e _ => e.1 ≠ i)[(o, k)]? =
      if o = i then none else t[(o, k)]? := by
  rw [get_filter]
  cases t[(o, k)]? <;> by_cases ho : o = i <;> simp [ho]

theorem lapses_of_forgotten (hD : q'.deadlines = (q.clearIntentDeadlines i).deadlines)
    (hL : q'.lanes = q.lanes.filter fun k _ => k.1 ≠ i)
    (hA : q'.attempts = q.attempts.filter fun k _ => k.1 ≠ i) : q.Lapses q' := by
  have hG : ∀ (o : IntentId) (r : QueueRelayId), q'.lanes[(o, r)]? =
      if o = i then none else q.lanes[(o, r)]? := fun o r => by
    rw [hL]
    exact get_without q.lanes i o r
  refine ⟨fun o r => ?_, fun o r od => ?_, fun h => h.forget hD hG⟩
  · rw [hG]
    split_ifs
    · exact .inr rfl
    · exact .inl rfl
  · rw [hG, hA, get_without q.attempts i o (r, od)]
    split_ifs
    · exact .inr ⟨rfl, rfl⟩
    · exact .inl rfl

theorem forgetIntent_lapses (q : Queue) (o : IntentId) : q.Lapses (q.forgetIntent o) :=
  lapses_of_forgotten rfl rfl rfl

end Queue

end NmpStore
