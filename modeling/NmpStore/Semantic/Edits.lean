import NmpStore.Semantic.Members
import NmpStore.Store.Edits

/-! # Cancelled drafts along a run

In every state of a run the stashes are filed under intents that have been drawn, so a draft that stashes nothing has
no stash.
-/

namespace NmpStore.Semantic

theorem RewritesEach.counter
    (h : RewritesEach co q ents q') : q'.nextIntentId = q.nextIntentId := by
  induction h with
  | nil => rfl
  | cons hF _ ih => exact ih.trans hF.counters.1

theorem writeQueue_counter (co : Coordinate) (pl : SemanticTransitionPlan) (ni : Option NewIntent) (q : Queue)
    (mm : List (SemanticReceiptUpdate × MemberRecord)) :
    (writeQueue co pl ni q mm).nextIntentId = q.nextIntentId := by
  have hM : (mm.foldl (updateMember co (materializationRecord pl)) q).nextIntentId = q.nextIntentId :=
    (updateMembers_rewrites (materializationRecord pl) mm q).counter
  cases ni with
  | none => exact hM
  | some n => exact (journalOperation_counters ..).1.trans hM

variable [ShardHash] {w w' : SemanticStore}

theorem Applies.stashesWithin (ap : Applies base co ni pl w') :
    base.store.queue.StashesWithin w'.store.queue := by
  obtain ⟨ln, routeRevisions, deadlines, hL⟩ := ap.hLanes
  rw [commit_queue ap.hCommit]
  rw [hL]
  exact .of_same (writeQueue_counter ..) (writeQueue_journals ..).displaced

variable [ProgramDigest]

theorem Transition.stashesWithin (h : w.store.Sound bs) (hS : Transition bs w door w') :
    w.store.queue.StashesWithin w'.store.queue := by
  cases hS with
  | store hS => exact hS.stashesWithin h
  | idle => exact .refl _
  | accepted ac =>
    have hD : w.store.queue.StashesWithin w.allocated.store.queue := ⟨Nat.le_succ _, fun _ st hA => .inl ⟨st, hA⟩⟩
    exact hD.trans ac.applies.stashesWithin
  | installed is => exact is.applies.stashesWithin
  | promoted pr =>
    rw [commit_queue (commit_store pr.hCommit)]
    exact .of_same (signMembers_rewrites ..).counter
      (journalsOperations_foldl (signMember_journals _) pr.members w.store.queue).displaced
  | closed sh =>
    rw [commit_queue (commit_store sh.hCommit)]
    exact .of_same (settleMembers_rewrites sh.hQueue).counter sh.journals.displaced

theorem Reaches.drawn {al : SemanticStore → Door → Prop}
    (hA : ∀ stt cl, al stt cl → cl.Authentic bs) (hR : Reaches al {} w) :
    w.store.queue.Drawn := by
  induction hR with
  | refl => exact fun k st ha => by simp at ha
  | step b hC hr ih =>
    have hT := (b.settled hA settled_empty).1
    exact ih.within ((hr.transition hT.sound.events (hA _ _ hC)).stashesWithin hT.sound)

/-- The winner that a relay delivered returns to its address when the drafts over it are all closed, exactly if none of
them superseded a row that no relay had delivered. -/
theorem cancelled_drafts_restore_winner (hRun : AuthenticRun bodies {} w) {address : RedbKey} {winner : StoredEvent}
    (hAt : w.store.events.rowAt address = some winner) (hSeen : winner.provenance.seen.isEmpty = false)
    {accepted : List IntentId} {kept : Bool} {s' : Store} (hEdits : Store.Edits bodies address w.store accepted kept s')
    (hClosed : ∀ id ∈ accepted, s'.queue.intents[id]? = none) : s'.Shows address winner ↔ kept = true := by
  have hS := (hRun.settled (fun _ _ hC => hC) settled_empty).1
  exact hEdits.restores hS.sound hS.rested (hRun.drawn fun _ _ hC => hC) hAt hSeen hClosed

section
omit [ShardHash] [ProgramDigest]

/-- A relay has delivered a list; two drafts follow, and the second is cancelled. The first has been retired, and the
address is empty. -/
theorem second_draft_loses_winner :
    let _ := oneShard
    ∃ (s first second last : Store) (winner : StoredEvent) (outcome : CompensateOutcome),
      (∃ placed, Store.insert {} (listEvent 5 100) ⟨"wss://relay", 100⟩ = .ok (placed, s)) ∧
      (s.events.rowAt relayListAddress = some winner ∧ winner.provenance.seen.isEmpty = false) ∧
      (∃ accepted, s.acceptWrite (listDraft (listEvent 6 200)) 200 = .ok (accepted, first) ∧
        accepted.replaced.map (·.event.id) = some 5) ∧
      (∃ accepted, first.acceptWrite (listDraft (listEvent 7 300)) 300 = .ok (accepted, second) ∧
        accepted.replaced.map (·.event.id) = some 6) ∧
      second.compensateWrite 2 .explicitCancellation 400 = .ok (outcome, last) ∧
      (last.queue.intents[1]? = none ∧ last.queue.intents[2]? = none) ∧ last.events.rowAt relayListAddress = none := by
  intro _
  have hR : ((Store.insert {} (listEvent 5 100) ⟨"wss://relay", 100⟩).toOption.any fun placed =>
      (placed.2.events.rowAt relayListAddress).any (fun winner => !winner.provenance.seen.isEmpty) &&
      (placed.2.acceptWrite (listDraft (listEvent 6 200)) 200).toOption.any fun first =>
        first.1.replaced.map (·.event.id) = some 5 &&
        (first.2.acceptWrite (listDraft (listEvent 7 300)) 300).toOption.any fun second =>
          second.1.replaced.map (·.event.id) = some 6 &&
          (second.2.compensateWrite 2 .explicitCancellation 400).toOption.any fun last =>
            last.2.queue.intents[1]?.isNone && last.2.queue.intents[2]?.isNone &&
              (last.2.events.rowAt relayListAddress).isNone) = true := by
    decide +kernel
  simp only [any_eq_true, and_eq_true, decide_eq_true_eq, toOption_some, not_eq_true',
    isNone_iff_eq_none] at hR
  obtain ⟨placed, hI, ⟨winner, hW, hs⟩, first, hF, ho, second, hS, hD, last, hL, ⟨hn, hT⟩,
    hN⟩ := hR
  exact ⟨placed.2, first.2, second.2, last.2, winner, last.1, ⟨placed.1, hI⟩, ⟨hW, hs⟩, ⟨first.1, hF, ho⟩,
    ⟨second.1, hS, hD⟩, hL, ⟨hn, hT⟩, hN⟩

def supersedes : AcceptOutcome → Option (IntentId × StoredEvent)
  | .superseded intentId _ _ replaced _ => some (intentId, replaced)
  | _ => none

/-- One draft over a delivered list, cancelled. -/
theorem cancelled_drafts_restore_winner_one_draft :
    ∃ (s last : Store) (winner : StoredEvent), s.events.rowAt relayListAddress = some winner ∧
      winner.event.id = 5 ∧ last.Shows relayListAddress winner := by
  let _ := lengthDigest
  let _ := oneShard
  have hR : ((Store.insert {} (listEvent 5 100) ⟨"wss://relay", 100⟩).toOption.any fun placed =>
      (placed.2.events.rowAt relayListAddress).any (fun winner => !winner.provenance.seen.isEmpty && winner.event.id = 5) &&
      (placed.2.acceptWrite (listDraft (listEvent 6 200)) 200).toOption.any fun first =>
        (supersedes first.1).any (fun rpl => rpl.1 = 1 && !rpl.2.provenance.seen.isEmpty) &&
        (first.2.compensateWrite 1 .explicitCancellation 400).toOption.any fun last => last.2.queue.intents[1]?.isNone) = true := by
    decide +kernel
  simp only [any_eq_true, and_eq_true, decide_eq_true_eq, toOption_some, not_eq_true',
    isNone_iff_eq_none] at hR
  obtain ⟨placed, hI, ⟨winner, hW, he, hi⟩, first, hF, hl, last, hL, hC⟩ := hR
  obtain ⟨outcome, drf⟩ := first
  cases outcome with
  | superseded int rcp row rpl rtr =>
    obtain ⟨rfl, ho⟩ : int = 1 ∧ rpl.provenance.seen.isEmpty = false := by simpa [supersedes] using hl
    have hS : AuthenticRun (fun id => if id = 6 then listEvent 6 200 else listEvent 5 100) {}
        { store := placed.2 } := .step .refl (by exact .refl _) (.insert hI)
    have hD : Store.Edits (fun id => if id = 6 then listEvent 6 200 else listEvent 5 100) relayListAddress placed.2 [1]
        (true && !rpl.provenance.seen.isEmpty) drf := .draft .nothing (by exact .refl _) rfl (by decide) hF
    have hE := hD.cancel (List.mem_singleton_self 1) hL
    have hs := (cancelled_drafts_restore_winner hS hW he hE (by simpa using hC)).mpr
      (by simp [ho])
    exact ⟨placed.2, last.2, winner, hW, hi, hs⟩
  | _ => simp [supersedes] at hl

end

end NmpStore.Semantic
