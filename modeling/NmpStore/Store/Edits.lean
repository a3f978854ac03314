import NmpStore.Store.Deletions
import NmpStore.Store.Journal

/-! # Drafts over a row that a relay has delivered

A draft that takes an address stashes the row it found there, if a relay had delivered it, and gives it back when it is
cancelled.
-/

namespace NmpStore

namespace Queue

variable {q q' q'' : Queue}

def Drawn (q : Queue) : Prop := ∀ (key : IntentId) st, q.displaced[key]? = some st → key < q.nextIntentId

structure StashesWithin (q q' : Queue) : Prop where
  counter : q.nextIntentId ≤ q'.nextIntentId
  stashes : ∀ (key : IntentId) st, q'.displaced[key]? = some st →
    (∃ before, q.displaced[key]? = some before) ∨ key < q'.nextIntentId

theorem StashesWithin.of_same (hC : q'.nextIntentId = q.nextIntentId) (hD : q'.displaced = q.displaced) :
    q.StashesWithin q' :=
  ⟨hC.ge, fun _ st hA => .inl ⟨st, hD ▸ hA⟩⟩

theorem StashesWithin.refl (q : Queue) : q.StashesWithin q := .of_same rfl rfl

theorem StashesWithin.trans (h : q.StashesWithin q') (h' : q'.StashesWithin q'') : q.StashesWithin q'' := by
  refine ⟨h.counter.trans h'.counter, fun k st hA => ?_⟩
  rcases h'.stashes k st hA with ⟨b, hB⟩ | hD
  · exact (h.stashes k b hB).imp id fun hK => hK.trans_le h'.counter
  · exact .inr hD

theorem Drawn.within (h : q.Drawn) (hW : q.StashesWithin q') : q'.Drawn := fun k st hA =>
  (hW.stashes k st hA).elim (fun ⟨b, hB⟩ => (h k b hB).trans_le hW.counter) id

theorem stashesWithin_insert (hA : q.displaced[k]? = some b)
    (st : StoredEvent) : q.StashesWithin { q with displaced := q.displaced.insert k st } := by
  refine ⟨le_rfl, fun o fd hF => .inl ?_⟩
  rcases insert_some.mp hF with ⟨hS, -⟩ | ⟨-, hI⟩
  · exact ⟨b, hS ▸ hA⟩
  · exact ⟨fd, hI⟩

theorem stashesWithin_erase (q : Queue) (k : IntentId) :
    q.StashesWithin { q with displaced := q.displaced.erase k } := by
  refine ⟨le_rfl, fun o fd hF => .inl ?_⟩
  exact ⟨fd, of_erase hF⟩

theorem ClaimsOnly.stashesWithin (h : q.ClaimsOnly q') : q.StashesWithin q' := by
  obtain ⟨_, _, _, rfl⟩ := h
  exact .of_same rfl rfl

theorem FansOut.stashesWithin (h : q.FansOut canon owns q') :
    q.StashesWithin q' := by
  refine ⟨h.delivery.1.1.ge, fun k st hA => .inl ?_⟩
  rw [h.displaced] at hA
  split_ifs at hA
  exact ⟨st, hA⟩

theorem Retires.stashesWithin (h : q.Retires ret q') : q.StashesWithin q' := by
  refine ⟨h.counters.1.ge, fun k st hA => .inl ?_⟩
  rw [h.displaced] at hA
  split_ifs at hA
  exact ⟨st, hA⟩

theorem stashesWithin_journal
    {st : ReceiptState} {ds : Option StoredEvent} (hD : i < q.nextIntentId) :
    q.StashesWithin (Store.journal q a i rcId frz sig st ds) := by
  refine ⟨le_rfl, fun o fd hF => ?_⟩
  cases ds with
  | none => exact .inl ⟨fd, hF⟩
  | some ds =>
    rcases insert_some.mp hF with ⟨hS, -⟩ | ⟨-, hI⟩
    · exact .inr (hS ▸ hD)
    · exact .inl ⟨fd, hI⟩

end Queue

namespace Store

variable [ShardHash] {s s' : Store}

theorem Ingests.stashesWithin (hI : s.Ingests ev src o s') : s.queue.StashesWithin s'.queue :=
  hI.queue_relates .refl (·.stashesWithin)

theorem Accepts.stashesWithin (ha : s.Accepts a o s') :
    s.queue.StashesWithin s'.queue := by
  have hd : s.queue.StashesWithin s.queue.allocated :=
    ⟨Nat.le_succ _, fun _ st hA => .inl ⟨st, hA⟩⟩
  have hF : ∀ (q : Queue) (ds : Option StoredEvent), s.queue.allocated.StashesWithin q →
      s.queue.StashesWithin (fileDraft q s a ds) := fun q ds hD =>
    (hd.trans hD).trans (Queue.stashesWithin_journal ((Nat.lt_add_one _).trans_le hD.counter))
  have hJ : ∀ (q : Queue) (ol : StoredEvent), s.queue.allocated.StashesWithin q →
      s.queue.StashesWithin (joinedQueue q a ol s.queue.nextIntentId s.queue.nextReceiptId) :=
    fun q ol hD => (hd.trans hD).trans (.of_same (joinedQueue_counters ..).1 (joinedQueue_displaced ..))
  cases ha with
  | joinedRow => exact hJ _ _ (.refl _)
  | joinedStash hN hA hI =>
    have hStash : s.queue.allocated.displaced[_]? = some _ := hA
    exact hJ _ _ (Queue.stashesWithin_insert hStash _)
  | refused => exact .refl _
  | stale => exact hF _ none (.refl _)
  | stored =>
    refine hF _ none ?_
    split_ifs
    · exact (Queue.staked_frame _ _ _).stashesWithin
    · exact .refl _
  | superseded _ _ _ _ _ hR _ => exact hF _ _ hR.stashesWithin

theorem Promotes.stashesWithin (hP : s.Promotes i ver o s') : s.queue.StashesWithin s'.queue :=
  hP.queue_relates .refl .trans (·.stashesWithin) Queue.stashesWithin_insert

theorem Compensates.stashesWithin
    (hC : s.Compensates i o s') : s.queue.StashesWithin s'.queue := by
  cases hC with
  | notFound => exact .refl _
  | alreadySigned => exact .refl _
  | compensated hI hEvent hUnsigned hd hR hc h1 =>
    rename_i r fr sg m af rt rv rs sq tm
    have hD : s.queue.StashesWithin m.queue := by
      cases hd with
      | retracted | kept | nowhere => exact .refl _
      | dropped => exact Queue.stashesWithin_erase _ _
      | stashed _ hA => exact Queue.stashesWithin_insert hA _
    have hClosed : m.queue.StashesWithin (m.closed i).queue :=
      ⟨le_rfl, (Queue.stashesWithin_erase m.queue i).stashes⟩
    have ha : m.queue.StashesWithin af.queue := by
      cases hR with
      | nothing => exact hClosed
      | offered hA hr =>
        refine hClosed.trans ?_
        cases hr with
        | joinedSigned _ _ _ _ _ hF hl => exact hl.queue ▸ hF.stashesWithin
        | joined | refused | placed | stale => exact .refl _
    rw [hc.queue]
    refine (hD.trans ha).trans ?_
    obtain ⟨_, _, _, hE⟩ := af.queue.dropClaims_frame i
    exact .of_same (by rw [hE]) (by rw [hE])

theorem Step.stashesWithin (h : s.Sound bs) (hS : Step bs s s') : s.queue.StashesWithin s'.queue :=
  hS.relates .refl .trans (·.stashesWithin) (·.stashesWithin) (·.stashesWithin) (·.stashesWithin) h

def Shows (s : Store) (address : RedbKey) (winner : StoredEvent) : Prop :=
  ∃ row, s.events.rowAt address = some row ∧ row.event = winner.event ∧ row.provenance.seen = winner.provenance.seen

/-- Unsigned drafts take the address one after the other, and some of them are cancelled. The list holds their intents;
the flag says whether a relay had delivered each row that they superseded. -/
inductive Edits (bodies : Bodies) (address : RedbKey) (s : Store) : List IntentId → Bool → Store → Prop
  | nothing : Edits bodies address s [] true s
  | draft {accepted : List IntentId} {kept : Bool} {mid s' : Store} {write : AcceptWrite} {now : Nat} {intentId : IntentId}
      {receiptId : Nat} {row replaced : StoredEvent} {retired : List RetiredIntent}
      (before : Edits bodies address s accepted kept mid) (hEvent : Authentic bodies write.frozen)
      (hAddress : addressOf write.frozen = some address) (hUnsigned : write.sigState ≠ .signed)
      (hOk : mid.acceptWrite write now = .ok (.superseded intentId receiptId row replaced retired, s')) :
      Edits bodies address s (intentId :: accepted) (kept && !replaced.provenance.seen.isEmpty) s'
  | cancel {accepted : List IntentId} {kept : Bool} {mid s' : Store} {intentId : IntentId} {reason : CompensationReason}
      {now : Nat} {outcome : CompensateOutcome} (before : Edits bodies address s accepted kept mid)
      (hMine : intentId ∈ accepted) (hOk : mid.compensateWrite intentId reason now = .ok (outcome, s')) :
      Edits bodies address s accepted kept s'

structure Drafted (s : Store) (address : RedbKey) (accepted : List IntentId) (intentId : IntentId) (draft : Event) : Prop where
  row : s.events.rowAt address = some ⟨draft, draftProvenance intentId⟩
  intent : ∃ record sigState, s.queue.intents[intentId]? = some record ∧ record.event = some (draft, sigState)
  mine : intentId ∈ accepted
  others : ∀ other ∈ accepted, other ≠ intentId → s.queue.intents[other]? = none

/-- Where the winner is: shown, or stashed under the draft that holds the address; else it is lost for good. -/
inductive Whereabouts (s : Store) (address : RedbKey) (winner : StoredEvent) (accepted : List IntentId) : Bool → Prop
  | shown (hShows : s.Shows address winner) (hClosed : ∀ id ∈ accepted, s.queue.intents[id]? = none) :
      Whereabouts s address winner accepted true
  | stashed {intentId : IntentId} {draft : Event} {stash : StoredEvent} (hDraft : s.Drafted address accepted intentId draft)
      (hStash : s.queue.displaced[intentId]? = some stash) (hEvent : stash.event = winner.event)
      (hSeen : stash.provenance.seen = winner.provenance.seen) (hOut : s.events.rowOf winner.event.id = none) :
      Whereabouts s address winner accepted true
  | covered {intentId : IntentId} {draft : Event} (hDraft : s.Drafted address accepted intentId draft)
      (hStash : s.queue.displaced[intentId]? = none) : Whereabouts s address winner accepted false
  | gone (hNone : s.events.rowAt address = none) (hClosed : ∀ id ∈ accepted, s.queue.intents[id]? = none) :
      Whereabouts s address winner accepted false

structure Editing (bodies : Bodies) (s : Store) (address : RedbKey) (winner : StoredEvent) (accepted : List IntentId)
    (kept : Bool) : Prop where
  sound : s.Sound bodies
  rested : s.events.Rested
  drawn : s.queue.Drawn
  fresh : ∀ id ∈ accepted, id < s.queue.nextIntentId
  allowed : s.tombstones.refuses winner.event = false
  whereabouts : s.Whereabouts address winner accepted kept

structure Supersedes (s : Store) (write : AcceptWrite) (address : RedbKey) (replaced : StoredEvent) (s' : Store) : Prop where
  current : s.events.rowAt address = some replaced
  fresh : s.events.rowOf write.frozen.id = none
  rows : s'.events.rowOf = update (update s.events.rowOf replaced.event.id none) write.frozen.id
    (some ⟨write.frozen, draftProvenance s.queue.nextIntentId⟩)
  intent : ∃ record, s'.queue.intents[s.queue.nextIntentId]? = some record ∧
    record.event = some (write.frozen, write.sigState)
  retired : ∀ owner ∈ ownersOf replaced.provenance.localOrigin, owner < s.queue.nextIntentId →
    s'.queue.intents[owner]? = none
  closed : ∀ owner : IntentId, owner < s.queue.nextIntentId → s.queue.intents[owner]? = none → s'.queue.intents[owner]? = none
  stash : s.queue.Drawn → if replaced.provenance.seen.isEmpty then s'.queue.displaced[s.queue.nextIntentId]? = none
    else ∃ stash, s'.queue.displaced[s.queue.nextIntentId]? = some stash ∧ stash.event = replaced.event ∧
      stash.provenance.seen = replaced.provenance.seen
  counter : s'.queue.nextIntentId = s.queue.nextIntentId + 1
  tombstones : s'.tombstones = s.tombstones

theorem acceptWrite_supersedes (h : s.Sound bs) (hEvent : Authentic bs write.frozen)
    (hAddress : addressOf write.frozen = some addr)
    (hOk : s.acceptWrite write now = .ok (.superseded i rcId r replaced ret, s')) :
    i = s.queue.nextIntentId ∧ s.Supersedes write addr replaced s' := by
  obtain ⟨m, hc, hl⟩ := (h.acceptWrite_ok hEvent hOk).resolve_left nofun
  have hC := hl.commits
  cases hc with
  | stored _ _ _ _ hOut => cases hOut
  | superseded hN hU ha hP hr hR hD =>
    rename_i ev ds q
    cases hP with
    | wins ho hu hW hE hs =>
      cases hAddress.symm.trans ho
      have hI : ∀ o : IntentId, o < s.queue.nextIntentId →
          (fileDraft q s write ds).intents[o]? = q.intents[o]? := fun o hL => by
        simp only [fileDraft, journal, get_insert, if_neg hL.ne']
      refine ⟨rfl, hu, hN, hC.rows.trans hs, ?_, fun o hw hL => ?_, fun o hL hNone => ?_,
        fun hd => ?_, ?_, hC.tombstones⟩
      · rw [hC.queue]
        simp only [fileDraft, journal, get_insert, if_true, Option.some.injEq, exists_eq_left']
        rfl
      · rw [hC.queue]
        refine (hI o hL).trans ?_
        rw [hR.intents]
        split_ifs with hG
        · rfl
        cases hA : s.queue.allocated.intents[o]? with
        | none => rfl
        | some rc =>
          refine absurd (mem_map.mpr ⟨(⟨o, rc.receiptId, s.queue.allocated.retainSafetyReceipt o⟩ : RetiredIntent),
            ?_, rfl⟩) hG
          rw [hr, Queue.eligible, mem_filterMap]
          exact ⟨o, Std.ExtTreeSet.mem_toList.mpr hw, by rw [hA]; rfl⟩
      · rw [hC.queue]
        refine (hI o hL).trans ?_
        rw [hR.intents]
        split_ifs
        · rfl
        · exact hNone
      · rw [hC.queue]
        split_ifs with hSeen
        · rw [if_pos hSeen] at hD
          subst hD
          show q.displaced[s.queue.nextIntentId]? = none
          rw [hR.displaced]
          split_ifs
          · rfl
          cases hA : s.queue.allocated.displaced[s.queue.nextIntentId]? with
          | none => rfl
          | some st => exact absurd (hd _ st hA) (lt_irrefl _)
        · rw [if_neg hSeen] at hD
          subst hD
          refine ⟨Queue.withoutOwners replaced ret, ?_, rfl, rfl⟩
          simp only [fileDraft, journal, get_insert, if_true]
      · rw [hC.queue]
        exact hR.counters.1

theorem rowAt_of_removed {t t' : EventTables} (h : t.Ok) (h' : t'.Ok)
    (hA : t.rowAt addr = some st) (hR : t'.rowOf = update t.rowOf st.event.id none) :
    t'.rowAt addr = none := by
  refine eq_none_iff_forall_ne_some.mpr fun fd hF => ?_
  obtain ⟨hW, hAddress⟩ := h'.rowAt_some.mp hF
  rw [hR, update_apply] at hW
  split_ifs at hW with hI
  have hB := h.rowAt_some.mpr ⟨hW, hAddress⟩
  cases hA.symm.trans hB
  exact hI rfl

theorem Drafted.disowns (h : s.Sound bs) (hDraft : s.Drafted addr accepted i draft)
    (hD : s.Disowns i draft.id m) :
    (m.events.Ok ∧ m.events.rowOf = update s.events.rowOf draft.id none) ∧ m.queue = s.queue ∧
      m.tombstones = s.tombstones := by
  obtain ⟨hW, -⟩ := h.events.rowAt_some.mp hDraft.row
  have ho : ownedBy ⟨draft, draftProvenance i⟩ i = true := by
    simp [ownedBy, draftProvenance]
  cases hD with
  | retracted _ _ _ hOk hR => exact ⟨⟨hOk, hR⟩, rfl, rfl⟩
  | kept hA _ hK =>
    cases hA.symm.trans hW
    have hZ : ((∅ : ExtTreeSet IntentId).insert i).erase i = ∅ := by
      ext id
      simp
    simp [shouldRetract, leftOrigin, draftProvenance, ownersOf, hZ] at hK
  | dropped hN => cases (hN _ hW).symm.trans ho
  | stashed hN => cases (hN _ hW).symm.trans ho
  | nowhere hN => cases (hN _ hW).symm.trans ho

theorem Compensates.drafted (h : s.Sound bs)
    (hDraft : s.Drafted addr accepted i draft) (hc : s.Compensates i o s') :
    s' = s ∨ ∃ (m after : Store) (restored : Option StoredEvent), (m.events.Ok ∧ m.events.rowOf = update s.events.rowOf draft.id none) ∧
      (m.queue = s.queue ∧ m.tombstones = s.tombstones) ∧ m.Restores i restored after ∧
      (s'.events.Ok ∧ s'.events.rowOf = after.events.rowOf) ∧ s'.queue.intents = after.queue.intents ∧
      s'.queue.nextIntentId = after.queue.nextIntentId ∧ s'.tombstones = after.tombstones := by
  cases hc with
  | notFound => exact .inl rfl
  | alreadySigned => exact .inl rfl
  | compensated hI hEvent hUnsigned hD hr hC hR =>
    rename_i r fr sg m after restored rv rs sq tm
    obtain ⟨_, _, hO, hW⟩ := hDraft.intent
    cases hO.symm.trans hI
    cases hW.symm.trans hEvent
    obtain ⟨hS, hQueue, hT⟩ := hDraft.disowns h hD
    obtain ⟨_, _, _, hE⟩ := after.queue.dropClaims_frame i
    refine .inr ⟨m, after, restored, hS, ⟨hQueue, hT⟩, hr, ⟨hC.rested.ok, hC.rows⟩, ?_, ?_,
      hC.tombstones⟩
    · rw [hC.queue, hE]
    · rw [hC.queue, hE]

omit [ShardHash] in
theorem closed_intents (s : Store) (i o : IntentId)
    (hX : o = i ∨ s.queue.intents[o]? = none) : (s.closed i).queue.intents[o]? = none := by
  show (s.queue.intents.erase i)[o]? = none
  rw [get_erase]
  rcases hX with rfl | hNone
  · rw [if_pos rfl]
  · rw [hNone, ite_self]

theorem Drafted.cancelled (h : s.Sound bs)
    (hDraft : s.Drafted addr accepted i draft) (hW : addressOf winner.event = some addr)
    (hA : s.tombstones.refuses winner.event = false)
    (hStash : if kept then ∃ st, s.queue.displaced[i]? = some st ∧ st.event = winner.event ∧
      st.provenance.seen = winner.provenance.seen ∧ s.events.rowOf winner.event.id = none
      else s.queue.displaced[i]? = none) (hc : s.Compensates i out s') :
    s' = s ∨ (s'.queue.nextIntentId = s.queue.nextIntentId ∧ s'.tombstones = s.tombstones ∧
      s'.Whereabouts addr winner accepted kept) := by
  rcases hc.drafted h hDraft with rfl | ⟨m, after, restored, ⟨hD, hM⟩, ⟨hQ, hT⟩, hs,
    ⟨hOk, hr⟩, hi, hCtr, ht⟩
  · exact .inl rfl
  refine .inr ?_
  have hF : m.events.rowAt addr = none := rowAt_of_removed h.events hD hDraft.row hM
  have hClosed : ∀ o ∈ accepted, (m.closed i).queue.intents[o]? = none := fun o hX => by
    refine closed_intents m i o ?_
    by_cases hS : o = i
    · exact .inl hS
    · exact .inr (by rw [hQ]; exact hDraft.others o hX hS)
  cases kept with
  | false =>
    cases hs with
    | offered hAt => cases (hQ ▸ hStash : m.queue.displaced[i]? = none).symm.trans hAt
    | nothing =>
      refine ⟨hCtr.trans (by rw [← hQ]; rfl), ht.trans hT, .gone ?_ fun id hI => ?_⟩
      · refine eq_none_iff_forall_ne_some.mpr fun fd hf => ?_
        rw [hOk.rowAt_some, hr] at hf
        cases hF.symm.trans (hD.rowAt_some.mpr hf)
      · rw [hi]
        exact hClosed id hI
  | true =>
    obtain ⟨st, hAt, hEvent, hSeen, hOut⟩ := hStash
    have hG : m.events.rowOf st.event.id = none := by
      rw [hM, hEvent, update_apply, hOut, ite_self]
    cases hs with
    | nothing hNone =>
      rw [hQ, hAt] at hNone
      cases hNone
    | offered hH hn =>
      rw [hQ, hAt] at hH
      cases hH
      cases hn with
      | joined hL => cases hG.symm.trans hL
      | joinedSigned hL => cases hG.symm.trans hL
      | refused _ hR =>
        have hR : m.tombstones.refuses st.event = true := hR
        rw [hT, hEvent, hA] at hR
        cases hR
      | stale _ _ hP =>
        cases hP with
        | stale ho hC =>
          cases (hEvent ▸ ho).symm.trans hW
          cases hF.symm.trans hC
      | placed _ _ hP =>
        refine ⟨hCtr.trans (by rw [← hQ]; rfl), ht.trans hT, .shown ⟨st, ?_, hEvent, hSeen⟩ fun id hI => ?_⟩
        · rw [hOk.rowAt_some, hr]
          refine ⟨?_, by rw [hEvent]; exact hW⟩
          cases hP with
          | free _ _ hp => exact (congrFun hp st.event.id).trans (update_self st.event.id _ _)
          | wins ho hC =>
            cases (hEvent ▸ ho).symm.trans hW
            cases hF.symm.trans hC
        · rw [hi]
          exact hClosed id hI

theorem Editing.drafts (h : s.Editing bs addr winner accepted kept) (hw : winner.provenance.seen.isEmpty = false)
    (hEvent : Authentic bs write.frozen) (hAddress : addressOf write.frozen = some addr)
    (hOk : s.acceptWrite write now = .ok (.superseded i rcId r replaced ret, s')) :
    s'.Editing bs addr winner (i :: accepted) (kept && !replaced.provenance.seen.isEmpty) := by
  have hK := h.sound.step h.rested (.acceptWrite hEvent hOk)
  have hs := hK.sound
  obtain ⟨rfl, hS⟩ := acceptWrite_supersedes h.sound hEvent hAddress hOk
  obtain ⟨rc, hP, hk⟩ := hS.intent
  -- the draft holds the address now
  have hW : s'.events.rowAt addr = some ⟨write.frozen, draftProvenance s.queue.nextIntentId⟩ := by
    rw [hs.events.rowAt_some, hS.rows]
    exact ⟨update_self .., hAddress⟩
  have hD : (∀ o ∈ accepted, s'.queue.intents[o]? = none) →
      s'.Drafted addr (s.queue.nextIntentId :: accepted) s.queue.nextIntentId write.frozen := fun ht =>
    ⟨hW, ⟨rc, write.sigState, hP, hk⟩, mem_cons_self, fun o hX hN =>
      ht o ((mem_cons.mp hX).resolve_left hN)⟩
  have hStash := hS.stash h.drawn
  refine ⟨hs, hK.rested, h.drawn.within (Step.stashesWithin h.sound (.acceptWrite hEvent hOk)), ?_,
    by rw [hS.tombstones]; exact h.allowed, ?_⟩
  · intro id hI
    rw [hS.counter]
    rcases mem_cons.mp hI with rfl | hO
    · exact Nat.lt_add_one _
    · exact (h.fresh id hO).trans (Nat.lt_add_one _)
  -- a draft that is replaced was never seen by a relay
  have hC : ∀ {o : IntentId} {draft : Event}, s.Drafted addr accepted o draft →
      s'.Whereabouts addr winner (s.queue.nextIntentId :: accepted) (kept && !replaced.provenance.seen.isEmpty) := by
    intro o draft hDraft
    cases hDraft.row.symm.trans hS.current
    have hZ : (draftProvenance o).seen.isEmpty = true := by simp [draftProvenance]
    rw [hZ, Bool.not_true, Bool.and_false]
    refine .covered (hD fun id hI => ?_) hStash
    by_cases hM : id = o
    · subst hM
      exact hS.retired id (by simp [draftProvenance, ownersOf]) (h.fresh id hI)
    · exact hS.closed id (h.fresh id hI) (hDraft.others id hI hM)
  cases h.whereabouts with
  | stashed hDraft => exact hC hDraft
  | covered hDraft => exact hC hDraft
  | gone hNone => cases hNone.symm.trans hS.current
  | shown hShows hClosed =>
    obtain ⟨fd, hF, hM, hSeen⟩ := hShows
    cases hF.symm.trans hS.current
    have ho : replaced.provenance.seen.isEmpty = false := hSeen ▸ hw
    rw [ho, Bool.not_false, Bool.and_true]
    rw [if_neg (by simp [ho])] at hStash
    obtain ⟨st, hAt, hE, hn⟩ := hStash
    refine .stashed (hD fun id hI => hS.closed id (h.fresh id hI) (hClosed id hI)) hAt (hE.trans hM)
      (hn.trans hSeen) ?_
    rw [hS.rows, ← hM, update_of_ne, update_self]
    intro hI
    obtain ⟨hL, -⟩ := h.sound.events.rowAt_some.mp hF
    rw [hI, hS.fresh] at hL
    cases hL

theorem Editing.cancels
    (h : s.Editing bs addr winner accepted kept) (hW : addressOf winner.event = some addr)
    (hMine : i ∈ accepted) (hOk : s.compensateWrite i reason now = .ok (o, s')) :
    s'.Editing bs addr winner accepted kept := by
  have hC := compensateWrite_ok h.sound.events hOk
  have hK := h.sound.compensateWrite h.rested hOk
  have hR := h.drawn.within hC.stashesWithin
  -- an intent that is closed changes nothing
  have hI : s.queue.intents[i]? = none → s' = s := fun hNone => by
    cases hC with
    | notFound => rfl
    | alreadySigned => rfl
    | compensated hi => cases hNone.symm.trans hi
  have hS : s' = s → s'.Editing bs addr winner accepted kept := by
    rintro rfl
    exact h
  have hD : (s'.queue.nextIntentId = s.queue.nextIntentId ∧ s'.tombstones = s.tombstones ∧
      s'.Whereabouts addr winner accepted kept) → s'.Editing bs addr winner accepted kept :=
    fun ⟨hc, hT, hw⟩ =>
      ⟨hK.sound, hK.rested, hR, fun id hd => hc ▸ h.fresh id hd, by rw [hT]; exact h.allowed, hw⟩
  cases h.whereabouts with
  | shown _ hClosed => exact hS (hI (hClosed i hMine))
  | gone _ hClosed => exact hS (hI (hClosed i hMine))
  | stashed hDraft hStash hEvent hSeen hOut =>
    rename_i hl dr st
    by_cases hs : i = hl
    · subst hs
      exact (hDraft.cancelled h.sound hW h.allowed (by rw [if_pos rfl]; exact ⟨st, hStash, hEvent, hSeen, hOut⟩)
        hC).elim hS hD
    · exact hS (hI (hDraft.others i hMine hs))
  | covered hDraft hStash =>
    rename_i hl dr
    by_cases hs : i = hl
    · subst hs
      exact (hDraft.cancelled h.sound hW h.allowed (by rw [if_neg (by simp)]; exact hStash) hC).elim hS hD
    · exact hS (hI (hDraft.others i hMine hs))

theorem Edits.restores (h : s.Sound bs) (hR : s.events.Rested) (hD : s.queue.Drawn)
    (hAt : s.events.rowAt addr = some winner) (hSeen : winner.provenance.seen.isEmpty = false)
    (hE : Edits bs addr s accepted kept s') (hClosed : ∀ id ∈ accepted, s'.queue.intents[id]? = none) :
    s'.Shows addr winner ↔ kept = true := by
  obtain ⟨hW, hw⟩ := h.events.rowAt_some.mp hAt
  have he : s'.Editing bs addr winner accepted kept := by
    clear hClosed
    induction hE with
    | nothing => exact ⟨h, hR, hD, by simp, h.allowed _ _ hW, .shown ⟨winner, hAt, rfl, rfl⟩ (by simp)⟩
    | draft _ hEvent hAddress _ hOk ih => exact ih.drafts hSeen hEvent hAddress hOk
    | cancel _ hMine hOk ih => exact ih.cancels hw hMine hOk
  cases he.whereabouts with
  | shown hShows => simp [hShows]
  | gone hNone =>
    refine ⟨fun ⟨r, hS, _⟩ => ?_, by simp⟩
    cases hNone.symm.trans hS
  | stashed hDraft =>
    obtain ⟨_, _, hO, -⟩ := hDraft.intent
    cases (hClosed _ hDraft.mine).symm.trans hO
  | covered hDraft =>
    obtain ⟨_, _, hO, -⟩ := hDraft.intent
    cases (hClosed _ hDraft.mine).symm.trans hO

end Store

end NmpStore
