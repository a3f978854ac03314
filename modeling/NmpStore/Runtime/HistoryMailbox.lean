import NmpStore.Runtime.RowChannel

/-! # The history mailbox

The slot keeps the newest frame; its deltas are made anew against the frame that was received last.
-/

namespace NmpStore.Runtime.History

open Engine (Row)

/-- A complete frame has one row for each event. -/
structure Frame where
  rows : List Row
  apart : rows.Pairwise fun a b => a.event.id ≠ b.event.id

def current (rows : List Row) : Table EventId Row := .ofList (rows.map fun row => (row.event.id, row)) compare

def rowDelta (delivered : Table EventId Row) (row : Row) : Option RowDelta :=
  match delivered[row.event.id]? with
  | none => some (.added row)
  | some previous => if previous.sources ≠ row.sources then some (.sourcesGrew row.event.id row.sources) else none

def reconcile (delivered : Table EventId Row) (rows : List Row) : List RowDelta × Table EventId Row :=
  (rows.filterMap (rowDelta delivered) ++
    ((delivered.toList.map Prod.fst).filter fun id => (current rows)[id]?.isNone).map .removed, current rows)

/-- The slot, the frame that was received last and the receiver's index of its rows. -/
inductive Receives : Option Frame → Frame → Table EventId Row → Prop
  | start : Receives none ⟨[], .nil⟩ ∅
  | send {slot : Option Frame} {last : Frame} {delivered : Table EventId Row} (frame : Frame)
      (before : Receives slot last delivered) : Receives (some frame) last delivered
  | recv {frame last : Frame} {delivered : Table EventId Row} (before : Receives (some frame) last delivered) :
      Receives none frame (reconcile delivered frame.rows).2

def Frame.byId (frame : Frame) : Rows := fun id => (current frame.rows)[id]?

theorem Receives.delivered_eq (h : Receives slot last delivered) : delivered = current last.rows := by
  induction h with
  | start | recv => rfl
  | send _ _ ih => exact ih

theorem Frame.byId_some (frame : Frame) {id : EventId} :
    frame.byId id = some r ↔ r ∈ frame.rows ∧ r.event.id = id := by
  have hG : ∀ r ∈ frame.rows, frame.byId r.event.id = some r := fun r hW =>
    Std.ExtTreeMap.getElem?_ofList_of_mem Std.ReflCmp.compare_self
      (List.pairwise_map.mpr (frame.apart.imp fun hN hE => hN (Std.LawfulEqOrd.eq_of_compare hE)))
      (List.mem_map.mpr ⟨r, hW, rfl⟩)
  constructor
  · intro hA
    have hI : id ∈ current frame.rows := Std.ExtTreeMap.mem_iff_isSome_getElem?.mpr (Option.isSome_of_eq_some hA)
    obtain ⟨o, hO, rfl⟩ : ∃ o ∈ frame.rows, o.event.id = id := by
      simpa [current, Std.ExtTreeMap.mem_ofList] using hI
    cases (hG o hO).symm.trans hA
    exact ⟨hO, rfl⟩
  · rintro ⟨hW, rfl⟩
    exact hG r hW

theorem apply_apart {de : List RowDelta} (rs rs' : Rows) (hA : de.Pairwise fun a b => a.id ≠ b.id)
    (h : ∀ dl ∈ de, dl.Legal (rs dl.id) ∧ dl.step (rs dl.id) = rs' dl.id)
    (hR : ∀ id, (∀ dl ∈ de, dl.id ≠ id) → rs' id = rs id) :
    rs.Legal de ∧ de.foldl Rows.apply rs = rs' := by
  induction de generalizing rs with
  | nil => exact ⟨trivial, funext fun id => (hR id (by simp)).symm⟩
  | cons dl de ih =>
    obtain ⟨hF, hA⟩ := List.pairwise_cons.mp hA
    obtain ⟨hL, hS⟩ := h dl mem_cons_self
    have hT := ih (rs.apply dl) hA (fun o hX => ?_) fun id hI => ?_
    · exact ⟨⟨hL, hT.1⟩, hT.2⟩
    · rw [Rows.apply, update_of_ne (hF o hX).symm]
      exact h o (mem_cons_of_mem _ hX)
    rw [Rows.apply, update_apply, hS]
    split_ifs with hE
    · rw [hE]
    · exact hR id (by simpa [Ne.symm hE] using hI)

/-- A row that was there before keeps its event and its signature. -/
def kept (old : Option Row) (row : Row) : Row := (old.map fun old => { old with sources := row.sources }).getD row

theorem rowDelta_some (hD : rowDelta delivered r = some delta) : delta.id = r.event.id ∧
    delta.Legal delivered[r.event.id]? ∧ delta.step delivered[r.event.id]? = some (kept delivered[r.event.id]? r) := by
  unfold rowDelta at hD
  split at hD
  · next hN =>
    cases hD
    exact ⟨rfl, hN, by simp [hN, kept, RowDelta.step]⟩
  · next o hO =>
    split_ifs at hD
    cases hD
    rw [hO]
    exact ⟨rfl, rfl, rfl⟩

theorem rowDelta_none (hD : rowDelta delivered r = none) :
    some (kept delivered[r.event.id]? r) = delivered[r.event.id]? := by
  unfold rowDelta at hD
  split at hD
  · cases hD
  · next o hO =>
    split_ifs at hD with hS
    simp [hO, kept, ← not_not.mp hS]

theorem reconcile_apply (last fr : Frame) : last.byId.Legal (reconcile (current last.rows) fr.rows).1 ∧
    (reconcile (current last.rows) fr.rows).1.foldl Rows.apply last.byId =
      fun id => (fr.byId id).map (kept (last.byId id)) := by
  have hG : ∀ id, id ∈ ((current last.rows).toList.map Prod.fst).filter (fun id => (current fr.rows)[id]?.isNone) ↔
      (last.byId id).isSome ∧ fr.byId id = none := fun id => by
    simp [Frame.byId]
  have hW : ∀ r ∈ fr.rows, fr.byId r.event.id = some r := fun r hW => fr.byId_some.mpr ⟨hW, rfl⟩
  refine apply_apart _ _ (List.pairwise_append.mpr ⟨?_, ?_, ?_⟩) (fun dl hD => ?_) fun id hId => ?_
  · refine List.Pairwise.filterMap _ (fun a b hn c hc d hd => ?_) fr.apart
    rwa [(rowDelta_some hc).1, (rowDelta_some hd).1]
  · refine List.pairwise_map.mpr (List.Pairwise.filter _ (List.pairwise_map.mpr ?_))
    exact (Table.toList_pairwise _).imp fun hL hE => by simp [RowDelta.id] at hE; simp [hE] at hL
  · intro a ha b hb
    obtain ⟨r, hM, hD⟩ := List.mem_filterMap.mp ha
    obtain ⟨id, hId, rfl⟩ := List.mem_map.mp hb
    rw [(rowDelta_some hD).1]
    rintro rfl
    cases (hW r hM).symm.trans ((hG _).mp hId).2
  · rcases List.mem_append.mp hD with hM | hM
    · obtain ⟨r, hM, hD⟩ := List.mem_filterMap.mp hM
      obtain ⟨hId, hl, hS⟩ := rowDelta_some hD
      rw [hId, hW r hM]
      exact ⟨hl, hS⟩
    · obtain ⟨id, hId, rfl⟩ := List.mem_map.mp hM
      obtain ⟨hO, hN⟩ := (hG id).mp hId
      exact ⟨hO, by simp [RowDelta.step, RowDelta.id, hN]⟩
  · cases hA : fr.byId id with
    | none =>
      cases hO : last.byId id with
      | none => rfl
      | some o =>
        have hM := (hG id).mpr ⟨by simp [hO], hA⟩
        exact absurd rfl (hId (.removed id) (List.mem_append_right _ (List.mem_map_of_mem hM)))
    | some r =>
      obtain ⟨hM, rfl⟩ := fr.byId_some.mp hA
      cases hD : rowDelta (current last.rows) r with
      | none => exact rowDelta_none hD
      | some dl =>
        exact absurd (rowDelta_some hD).1
          (hId dl (List.mem_append_left _ (List.mem_filterMap.mpr ⟨r, hM, hD⟩)))

/-- The deltas are legal, and they lead to the received rows exactly if no event or signature of a row has changed. -/
theorem history_deltas_exact_iff (h : Receives (some frame) last delivered) :
    last.byId.Legal (reconcile delivered frame.rows).1 ∧
    ((reconcile delivered frame.rows).1.foldl Rows.apply last.byId = frame.byId ↔
      ∀ old ∈ last.rows, ∀ row ∈ frame.rows, old.event.id = row.event.id →
        old.event = row.event ∧ old.signature = row.signature) := by
  rw [h.delivered_eq, (reconcile_apply last frame).2]
  refine ⟨(reconcile_apply last frame).1, fun he old ho row hR hI => ?_, fun hS => funext fun id => ?_⟩
  · have hA := congrFun he row.event.id
    rw [frame.byId_some.mpr ⟨hR, rfl⟩, last.byId_some.mpr ⟨ho, hI⟩] at hA
    have hK : { old with sources := row.sources } = row := Option.some.inj hA
    rw [← hK]
    exact ⟨rfl, rfl⟩
  · cases hA : frame.byId id with
    | none => rfl
    | some row =>
      cases ho : last.byId id with
      | none => rfl
      | some old =>
        obtain ⟨hR, rfl⟩ := frame.byId_some.mp hA
        obtain ⟨ho, hI⟩ := last.byId_some.mp ho
        obtain ⟨hE, hs⟩ := hS old ho row hR hI
        simp [kept, hE, hs]

def drafted : Frame := ⟨[draftRow], List.pairwise_singleton _ _⟩

def signed : Frame := ⟨[{ draftRow with signature := .signed 5 }], List.pairwise_singleton _ _⟩

theorem history_deltas_miss_signature : Receives (some signed) drafted (reconcile ∅ drafted.rows).2 ∧
    (reconcile (reconcile ∅ drafted.rows).2 signed.rows).1 = [] ∧ drafted.byId 7 ≠ signed.byId 7 :=
  ⟨.send _ (.recv (.send _ .start)), by decide, by decide⟩

def echoed : Frame := ⟨[{ draftRow with sources := .ofList ["wss://a"] }], List.pairwise_singleton _ _⟩

theorem history_deltas_exact_iff_echo :
    (reconcile (reconcile ∅ drafted.rows).2 echoed.rows).1.foldl Rows.apply drafted.byId = echoed.byId :=
  (history_deltas_exact_iff (.send echoed (.recv (.send drafted .start)))).2.mpr (by simp [drafted, echoed])

end NmpStore.Runtime.History
