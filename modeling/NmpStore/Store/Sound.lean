import NmpStore.Store.SettleEffects

/-! # The invariant of all doors

Ids are hashes, so an id stands for one body: `bodies` names it.
-/

namespace NmpStore

def Authentic (bodies : Bodies) (event : Event) : Prop := event.SameBody (bodies event.id)

variable {a b : Event}

theorem Authentic.sameBody (ha : Authentic bs a) (hb : Authentic bs b) (hI : a.id = b.id) : a.SameBody b := by
  exact ha.trans (hI ▸ hb.symm)

theorem Authentic.of_sameBody (hb : Authentic bs b) (hS : a.SameBody b) : Authentic bs a := by
  unfold Authentic at hb ⊢
  rw [hS.fields.1]
  exact hS.trans hb

structure Queue.Authentic (bodies : Bodies) (q : Queue) : Prop where
  displaced : ∀ (key : IntentId) st, q.displaced[key]? = some st → NmpStore.Authentic bodies st.event
  frozen : ∀ (key : IntentId) (record : IntentRecord) (event : Event) (sigState : IntentSigState),
    q.intents[key]? = some record → record.event = some (event, sigState) → NmpStore.Authentic bodies event

namespace Store

variable [ShardHash] {s s' : Store}

structure Sound (bodies : Bodies) (s : Store) : Prop where
  events : s.events.Ok
  authentic : ∀ (id : EventId) (st : StoredEvent), s.events.rowOf id = some st → Authentic bodies st.event
  allowed : ∀ (id : EventId) (st : StoredEvent), s.events.rowOf id = some st → s.tombstones.refuses st.event = false
  queue : s.queue.Authentic bodies

theorem sound_empty : Sound bs {} where
  events := EventTables.ok_empty
  authentic := by simp [EventTables.rowOf]
  allowed := by simp [EventTables.rowOf]
  queue := ⟨by simp, by simp⟩

def Remembers (s s' : Store) : Prop := ∀ event, s.tombstones.refuses event = true → s'.tombstones.refuses event = true

section
omit [ShardHash]

theorem Remembers.refl (s : Store) : s.Remembers s := fun _ h => h

theorem Remembers.trans (h : s.Remembers s') (h' : s'.Remembers s'') : s.Remembers s'' :=
  fun ev hR => h' ev (h ev hR)

end

variable {q q' : Queue} {events : EventTables} {st : StoredEvent}

theorem Sound.sameBody (h : s.Sound bs) (hE : Authentic bs ev) (st : StoredEvent)
    (hA : s.events.rowOf ev.id = some st) : ev.SameBody st.event :=
  hE.sameBody (h.authentic _ st hA) (h.events.rowOf_id hA).symm

theorem Sound.with_queue (h : s.Sound bs) (hQ : q.Authentic bs) : Sound bs { s with queue := q } :=
  ⟨h.events, h.authentic, h.allowed, hQ⟩

theorem Sound.with_events (h : s.Sound bs) (ho : events.Ok)
    (hR : ∀ id st, events.rowOf id = some st → s.events.rowOf id = some st ∨
      (Authentic bs st.event ∧ s.tombstones.refuses st.event = false)) : Sound bs { s with events } where
  events := ho
  authentic id st hA := (hR id st hA).elim (h.authentic id st) And.left
  allowed id st hA := (hR id st hA).elim (h.allowed id st) And.right
  queue := h.queue

theorem Sound.with_rewrite (h : s.Sound bs) {id : EventId} (ho : events.Ok)
    (hA : s.events.rowOf id = some st) (hS : row.event.SameBody st.event)
    (hR : events.rowOf = update s.events.rowOf id (some row)) : Sound bs { s with events } := by
  refine h.with_events ho fun o fd hF => ?_
  rw [hR, update_apply] at hF
  split at hF
  · cases hF
    exact .inr ⟨(h.authentic id st hA).of_sameBody hS, (Tombstones.refuses_congr hS).trans (h.allowed id st hA)⟩
  · exact .inl hF

theorem Sound.with_placed (h : s.Sound bs)
    (hE : Authentic bs ev) (hA : s.tombstones.refuses ev = false)
    (hP : s.events.Places ev prov placement events) : Sound bs { s with events } := by
  refine h.with_events (hP.ok h.events) fun id st ha => ?_
  rcases hP.row_cases ha with ⟨-, rfl⟩ | hO
  · exact .inr ⟨hE, hA⟩
  · exact .inl hO

theorem Sound.with_deletes (h : s.Sound bs) {nm : Event → Prop} (hD : s.Deletes nm s') :
    s'.Sound bs ∧ s.Remembers s' := by
  refine ⟨⟨hD.ok, fun id st hA => ?_, fun id st hA => ?_, hD.queue ▸ h.queue⟩, fun ev hR => ?_⟩
  · exact h.authentic id st ((hD.rows id st).mp hA).1
  · obtain ⟨hO, hK⟩ := (hD.rows id st).mp hA
    refine Bool.eq_false_iff.mpr fun hR => ?_
    rcases (hD.refuses st.event).mp hR with hW | hN
    · simp [h.allowed id st hO] at hW
    · exact hK hN
  · exact (hD.refuses ev).mpr (.inl hR)

theorem Sound.with_commit (h : s.Sound bs) (hC : s.Commits s') : s'.Sound bs ∧ s.Remembers s' := by
  refine ⟨⟨hC.rested.ok, fun id st hA => ?_, fun id st hA => ?_, hC.queue ▸ h.queue⟩, fun ev hR => ?_⟩
  · exact h.authentic id st (hC.rows ▸ hA)
  · rw [hC.tombstones]
    exact h.allowed id st (hC.rows ▸ hA)
  · rw [hC.tombstones]
    exact hR

section
omit [ShardHash]

theorem queueAuthentic_of_frame (h : q.Authentic bs) (hF : q.ClaimsOnly q') : q'.Authentic bs := by
  obtain ⟨cl, ids, addrs, rfl⟩ := hF
  exact ⟨h.displaced, h.frozen⟩

theorem IntentRecord_signWith_event {rc : IntentRecord}
    (h : (rc.signWith canon).event = some (ev, sig)) :
    ev = canon ∨ ∃ bf, rc.event = some (ev, bf) := by
  unfold IntentRecord.signWith at h
  cases hW : rc.work with
  | replaceableOperation cr mt =>
    simp [hW, IntentRecord.event] at h
  | event fr rt bf =>
    simp only [hW] at h
    split_ifs at h with hS
    · exact .inr ⟨sig, h⟩
    · simp only [IntentRecord.event, Option.some.injEq, Prod.mk.injEq] at h
      exact .inl h.1.symm

theorem queueAuthentic_of_fansOut (h : q.Authentic bs) {ow : List IntentId}
    (hC : Authentic bs canon) (hF : q.FansOut canon ow q') : q'.Authentic bs := by
  refine ⟨fun k st hA => ?_, fun k rc ev sg hA hE => ?_⟩
  · rw [hF.displaced] at hA
    split_ifs at hA
    exact h.displaced k st hA
  rw [hF.intents] at hA
  split_ifs at hA
  · obtain ⟨bf, hB, rfl⟩ := map_eq_some_iff.mp hA
    rcases IntentRecord_signWith_event hE with rfl | ⟨er, he⟩
    · exact hC
    · exact h.frozen k bf ev er hB he
  · exact h.frozen k rc ev sg hA hE

theorem queueAuthentic_of_retires (h : q.Authentic bs)
    (hR : q.Retires ret q') : q'.Authentic bs := by
  refine ⟨fun k st hA => ?_, fun k rc ev sg hA hE => ?_⟩
  · rw [hR.displaced] at hA
    split_ifs at hA
    exact h.displaced k st hA
  · rw [hR.intents] at hA
    split_ifs at hA
    exact h.frozen k rc ev sg hA hE

theorem queueAuthentic_journal (h : q.Authentic bs)
    (hF : Authentic bs frz) (hD : ∀ st ∈ disp, Authentic bs st.event) :
    (journal q acc iid rcId frz sig state disp).Authentic bs := by
  refine ⟨fun k st hA => ?_, fun k rc ev fd hA hE => ?_⟩
  · cases disp with
    | none => exact h.displaced k st hA
    | some ss =>
      rcases insert_some.mp hA with ⟨-, rfl⟩ | ⟨-, hI⟩
      · exact hD ss rfl
      · exact h.displaced k st hI
  · rcases insert_some.mp hA with ⟨-, rfl⟩ | ⟨-, hI⟩
    · simp only [IntentRecord.event, Option.some.injEq, Prod.mk.injEq] at hE
      exact hE.1 ▸ hF
    · exact h.frozen k rc ev fd hI hE

theorem queueAuthentic_stash (h : q.Authentic bs)
    (hS : Authentic bs st.event) : ({ q with displaced := q.displaced.insert k st } : Queue).Authentic bs := by
  refine ⟨fun o fd hA => ?_, h.frozen⟩
  rcases insert_some.mp hA with ⟨-, rfl⟩ | ⟨-, hI⟩
  · exact hS
  · exact h.displaced o fd hI

theorem queueAuthentic_unstash (h : q.Authentic bs) (k : IntentId) :
    ({ q with displaced := q.displaced.erase k } : Queue).Authentic bs := by
  refine ⟨fun o fd hA => ?_, h.frozen⟩
  exact h.displaced o fd (of_erase hA)

theorem queueAuthentic_joined (h : q.Authentic bs) (hA : Authentic bs acc.frozen)
    (hE : Authentic bs old.event) : (joinedQueue q acc old iid rcId).Authentic bs := by
  unfold joinedQueue
  split_ifs
  · exact queueAuthentic_journal h hE (by simp)
  · exact queueAuthentic_journal (queueAuthentic_of_frame h (q.staked_frame iid acc.frozen)) hA (by simp)
  · exact queueAuthentic_journal h hA (by simp)

end

theorem Sound.ingests (h : s.Sound bs)
    (hE : Authentic bs ev) (hI : s.Ingests ev src out s') :
    s'.Sound bs ∧ s.Remembers s' := by
  cases hI with
  | expired => exact ⟨h, .refl s⟩
  | refused => exact ⟨h, .refl s⟩
  | merged hF hA hT ho hR => exact ⟨h.with_rewrite ho hA (by exact .refl _) hR, .refl s⟩
  | adopted hF hA hp ho hR hf hD =>
    have hW := h.with_rewrite ho hA (h.sameBody hE _ hA) hR
    exact (hW.with_queue (queueAuthentic_of_fansOut h.queue hE hf)).with_deletes hD
  | placed hF hN ha hP hr => exact ⟨h.with_placed hE ha hP, .refl s⟩
  | deleting hF hN ha hd ho hR hD =>
    refine (h.with_events ho fun id st hA => ?_).with_deletes hD
    rw [hR, update_apply] at hA
    split_ifs at hA
    · exact .inr (Option.some.inj hA ▸ ⟨hE, ha⟩)
    · exact .inl hA

theorem Sound.accepts (h : s.Sound bs)
    (hE : Authentic bs acc.frozen) (hc : s.Accepts acc out s') :
    s'.Sound bs ∧ s.Remembers s' := by
  have hA : s.queue.allocated.Authentic bs := ⟨h.queue.displaced, h.queue.frozen⟩
  cases hc with
  | joinedRow ha =>
    rename_i k st ro
    obtain ⟨ho, -, hR⟩ := EventTables.replaceLocal_ok h.events ha (some (joinedOrigin st s.queue.nextIntentId))
    have hW := h.with_rewrite ho ha.rowOf (by exact .refl _) hR
    exact ⟨hW.with_queue (queueAuthentic_joined hA hE (h.authentic _ _ ha.rowOf)), .refl s⟩
  | joinedStash hN ha hI =>
    rename_i k st ro
    have hs := h.queue.displaced _ _ ha
    have hJ : Authentic bs (joinedRow st s.queue.nextIntentId).event := hs
    exact ⟨h.with_queue (queueAuthentic_joined (queueAuthentic_stash hA hJ) hE hs), .refl s⟩
  | refused => exact ⟨h, .refl s⟩
  | stale hN hU hw hP =>
    exact ⟨(h.with_placed hE hw hP).with_queue (queueAuthentic_journal hA hE (by simp)), .refl s⟩
  | stored hN hU hw hP =>
    refine ⟨(h.with_placed hE hw hP).with_queue (queueAuthentic_journal ?_ hE (by simp)), .refl s⟩
    split_ifs
    · exact queueAuthentic_of_frame hA (Queue.staked_frame _ _ _)
    · exact hA
  | superseded hN hU hw hP he hr hD =>
    rename_i events rp ro ds rt q
    refine ⟨(h.with_placed hE hw hP).with_queue
      (queueAuthentic_journal (queueAuthentic_of_retires hA hr) hE ?_), .refl s⟩
    intro st hS
    rw [hD] at hS
    split_ifs at hS
    · simp at hS
    cases hS
    cases hP with
    | wins hd hC hn ho hR =>
      obtain ⟨hW, -⟩ := h.events.rowAt_some.mp hC
      show Authentic bs rp.event
      exact h.authentic _ _ hW

theorem Sound.signs (h : s.Sound bs)
    (hS : Authentic bs signed) (hs : s.Signs iid signed row s') :
    s'.Sound bs ∧ s.Remembers s' ∧ Authentic bs row.event := by
  cases hs with
  | row hA hP ho hk hR =>
    exact ⟨h.with_rewrite hk hA (h.sameBody hS _ hA) hR, .refl s, hS⟩
  | signedRow hA hr ho => exact ⟨h, .refl s, h.authentic _ _ hA⟩
  | stash hN hA hI ho =>
    rename_i o st
    have hW : Authentic bs (st.signWith signed).event := by
      unfold StoredEvent.signWith
      split
      · exact hS
      · exact h.queue.displaced _ _ hA
    exact ⟨h.with_queue (queueAuthentic_stash h.queue hW), .refl s, hW⟩
  | gone => exact ⟨h, .refl s, hS⟩

theorem Sound.promotes (h : s.Sound bs) (hP : s.Promotes iid ver out s') :
    s'.Sound bs ∧ s.Remembers s' := by
  cases hP with
  | notFound => exact ⟨h, .refl s⟩
  | promoted hI hE hU hi hS hF hd hC =>
    have hf := h.queue.frozen _ _ _ _ hI hE
    obtain ⟨hD, hRem, hW⟩ := h.signs (by exact hf.of_sameBody rfl) hS
    obtain ⟨hA, hRem'⟩ :=
      (hD.with_queue (queueAuthentic_of_fansOut hD.queue hW hF)).with_deletes hd
    obtain ⟨hL, hRem''⟩ := hA.with_commit hC
    exact ⟨hL, (hRem.trans hRem').trans hRem''⟩

theorem Sound.disowns (h : s.Sound bs)
    (hD : s.Disowns iid frozenId s') : s'.Sound bs ∧ s.Remembers s' := by
  cases hD with
  | retracted hA ho hr hk hR =>
    refine ⟨h.with_events hk fun id st hF => ?_, .refl s⟩
    rw [hR, update_apply] at hF
    split_ifs at hF
    exact .inl hF
  | kept hA ho hK hk hR => exact ⟨h.with_rewrite hk hA (by exact .refl _) hR, .refl s⟩
  | dropped hN hA hI ho hr => exact ⟨h.with_queue (queueAuthentic_unstash h.queue _), .refl s⟩
  | stashed hN hA hI ho hK =>
    rename_i o st
    have hL : Authentic bs (leftRow st iid).event := h.queue.displaced o st hA
    exact ⟨h.with_queue (queueAuthentic_stash h.queue hL), .refl s⟩
  | nowhere => exact ⟨h, .refl s⟩

theorem Sound.reinserts (h : s.Sound bs)
    (hS : Authentic bs se.event) (hr : s.Reinserts se res s') : s'.Sound bs ∧ s.Remembers s' := by
  cases hr with
  | joined hA hp ho hR => exact ⟨h.with_rewrite ho hA (rejoined_sameBody _ _) hR, .refl s⟩
  | joinedSigned hA hs ho hR hw hF hD =>
    have hW := h.with_rewrite ho hA (rejoined_sameBody _ _) hR
    have hB := (h.authentic _ _ hA).of_sameBody (rejoined_sameBody _ se)
    exact (hW.with_queue (queueAuthentic_of_fansOut h.queue hB hF)).with_deletes hD
  | refused => exact ⟨h, .refl s⟩
  | placed hN ha hP => exact ⟨h.with_placed hS ha hP, .refl s⟩
  | stale hN ha hP => exact ⟨h.with_placed hS ha hP, .refl s⟩

theorem Sound.closed (h : s.Sound bs) (ii : IntentId) : (s.closed ii).Sound bs := by
  refine h.with_queue ⟨(queueAuthentic_unstash h.queue ii).displaced, ?_⟩
  intro k rc ev sg hA hE
  exact h.queue.frozen k rc ev sg (of_erase hA) hE

theorem Sound.compensates (h : s.Sound bs)
    (hC : s.Compensates iid out s') : s'.Sound bs ∧ s.Remembers s' := by
  cases hC with
  | notFound => exact ⟨h, .refl s⟩
  | alreadySigned => exact ⟨h, .refl s⟩
  | compensated hI hE hU hs hr hc h1 =>
    rename_i rc fr sg md af rs rv receipts sq tm
    obtain ⟨hD, hR⟩ := h.disowns hs
    have hA : af.Sound bs ∧ md.Remembers af := by
      cases hr with
      | nothing => exact ⟨hD.closed iid, .refl _⟩
      | offered ha hn =>
        exact (hD.closed iid).reinserts (hD.queue.displaced _ _ ha) hn
    have hd := queueAuthentic_of_frame hA.1.queue (af.queue.dropClaims_frame iid)
    have hQ : Queue.Authentic bs { af.queue.dropClaims iid with
        receipts, nextTerminalSequence := sq, lastTerminalAt := tm } := ⟨hd.displaced, hd.frozen⟩
    obtain ⟨hL, hR'⟩ := (hA.1.with_queue hQ).with_commit hc
    exact ⟨hL, (hR.trans hA.2).trans hR'⟩

end Store

end NmpStore
