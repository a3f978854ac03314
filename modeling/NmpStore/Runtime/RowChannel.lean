import NmpStore.Engine.LimitedRows

/-! # The rows mailbox

One transition for each event is pending; deltas that the receiver has not taken yet are composed onto it.
-/

namespace NmpStore.Runtime

open Engine (Row)

inductive RowDelta where
  | added (row : Row)
  | updated (row : Row)
  | sourcesGrew (id : EventId) (sources : ExtTreeSet RelayUrl)
  | removed (id : EventId)

def RowDelta.id : RowDelta → EventId
  | added row | updated row => row.event.id
  | sourcesGrew id _ | removed id => id

inductive PendingTransition where
  | added (row : Row)
  | updated (row : Row)
  | sourcesGrew (sources : ExtTreeSet RelayUrl)
  | removed
  | replaced (row : Row)

def compose : Option PendingTransition → RowDelta → Option PendingTransition
  | none, .added row => some (.added row)
  | none, .updated row => some (.updated row)
  | none, .sourcesGrew _ sources => some (.sourcesGrew sources)
  | none, .removed _ => some .removed
  | some (.added _), .added row | some (.added _), .updated row => some (.added row)
  | some (.added row), .sourcesGrew _ sources => some (.added { row with sources })
  | some (.added _), .removed _ => none
  | some (.sourcesGrew _), .added row => some (.sourcesGrew row.sources)
  | some (.sourcesGrew _), .updated row => some (.updated row)
  | some (.sourcesGrew _), .sourcesGrew _ sources => some (.sourcesGrew sources)
  | some (.sourcesGrew _), .removed _ => some .removed
  | some .removed, .added row => some (.replaced row)
  | some .removed, .updated _ | some .removed, .sourcesGrew _ _ | some .removed, .removed _ => some .removed
  | some (.replaced _), .added row | some (.replaced _), .updated row => some (.replaced row)
  | some (.replaced row), .sourcesGrew _ sources => some (.replaced { row with sources })
  | some (.replaced _), .removed _ => some .removed
  | some (.updated _), .added row | some (.updated _), .updated row => some (.updated row)
  | some (.updated row), .sourcesGrew _ sources => some (.updated { row with sources })
  | some (.updated _), .removed _ => some .removed

def PendingTransition.deltas (id : EventId) : PendingTransition → List RowDelta
  | added row => [.added row]
  | updated row => [.updated row]
  | sourcesGrew sources => [.sourcesGrew id sources]
  | removed => [.removed id]
  | replaced row => [.removed id, .added row]

variable {Evidence : Type}

structure PendingRows (Evidence : Type) where
  byId : Table EventId PendingTransition := ∅
  evidence : List Evidence

def PendingRows.push (pending : PendingRows Evidence) (delta : RowDelta) : PendingRows Evidence :=
  let byId := pending.byId.erase delta.id
  match compose pending.byId[delta.id]? delta with
  | some next => { pending with byId := byId.insert delta.id next }
  | none => { pending with byId }

def deltasOf (entries : List (EventId × PendingTransition)) : List RowDelta :=
  entries.flatMap fun entry => entry.2.deltas entry.1

def PendingRows.intoMessage (pending : PendingRows Evidence) : List RowDelta × List Evidence :=
  (deltasOf pending.byId.toList, pending.evidence)

def send (slot : Option (PendingRows Evidence)) (message : List RowDelta × List Evidence) : PendingRows Evidence :=
  { message.1.foldl PendingRows.push (slot.getD { evidence := message.2 }) with evidence := message.2 }

/-- The rows that one end knows. -/
abbrev Rows := EventId → Option Row

def RowDelta.step : RowDelta → Option Row → Option Row
  | added row, _ | updated row, _ => some row
  | sourcesGrew _ sources, row => row.map fun row => { row with sources }
  | removed _, _ => none

def RowDelta.Legal : RowDelta → Option Row → Prop
  | added _, row => row = none
  | updated _, row | sourcesGrew _ _, row | removed _, row => row.isSome

def Rows.apply (rows : Rows) (delta : RowDelta) : Rows := update rows delta.id (delta.step (rows delta.id))

def Rows.Legal (rows : Rows) : List RowDelta → Prop
  | [] => True
  | delta :: deltas => delta.Legal (rows delta.id) ∧ Rows.Legal (rows.apply delta) deltas

/-- The transition leads the row of the receiver to that of the sender. -/
def Leads (id : EventId) (row : Option Row) (next : Option PendingTransition) (row' : Option Row) : Prop :=
  match next with
  | none => row' = row
  | some (.added new) => row = none ∧ row' = some new ∧ new.event.id = id
  | some (.updated new) | some (.replaced new) => row.isSome ∧ row' = some new ∧ new.event.id = id
  | some (.sourcesGrew sources) => row.isSome ∧ row' = row.map fun row => { row with sources }
  | some .removed => row.isSome ∧ row' = none

theorem Leads.compose (h : Leads delta.id r next r') (hLegal : delta.Legal r') :
    Leads delta.id r (compose next delta) (delta.step r') := by
  -- one case for each pending transition and each kind of delta
  rcases next with _ | (_ | _ | _ | _ | _) <;> cases delta <;> cases r <;>
    simp_all [Leads, Runtime.compose, RowDelta.Legal, RowDelta.step, RowDelta.id]

theorem get_push (pn : PendingRows Evidence) (dl : RowDelta) (id : EventId) : (pn.push dl).byId[id]? =
    if dl.id = id then compose pn.byId[dl.id]? dl else pn.byId[id]? := by
  unfold PendingRows.push
  split <;> rename_i hN <;> rw [hN] <;> by_cases hI : dl.id = id <;> simp [hI]

theorem push_leads {pn : PendingRows Evidence} {rs rs' : Rows}
    (h : ∀ id, Leads id (rs id) pn.byId[id]? (rs' id)) (hLegal : rs'.Legal dl) (id : EventId) :
    Leads id (rs id) (dl.foldl PendingRows.push pn).byId[id]? (dl.foldl Rows.apply rs' id) := by
  induction dl generalizing pn rs' with
  | nil => exact h id
  | cons de dl ih =>
    refine ih (fun o => ?_) hLegal.2
    rw [get_push, Rows.apply, update_apply]
    by_cases hI : o = de.id
    · subst hI
      simpa using (h de.id).compose hLegal.1
    · simpa [hI, Ne.symm hI] using h o

theorem legal_append {rs : Rows} {b af : List RowDelta} :
    rs.Legal (b ++ af) ↔ rs.Legal b ∧ (b.foldl Rows.apply rs).Legal af := by
  induction b generalizing rs with
  | nil => simp [Rows.Legal]
  | cons dl b ih => simp [Rows.Legal, ih, and_assoc]

theorem Leads.deltas {id : EventId} {rows : Rows} {tr : PendingTransition}
    (h : Leads id (rows id) (some tr) r') :
    rows.Legal (tr.deltas id) ∧ (tr.deltas id).foldl Rows.apply rows = update rows id r' := by
  cases tr <;>
    simp_all [Leads, PendingTransition.deltas, Rows.Legal, Rows.apply, RowDelta.Legal, RowDelta.step, RowDelta.id]

theorem entries_lead {en : List (EventId × PendingTransition)} (rows rows' : Rows)
    (hn : en.Pairwise fun a b => a.1 ≠ b.1)
    (h : ∀ e ∈ en, Leads e.1 (rows e.1) (some e.2) (rows' e.1))
    (hR : ∀ id, (∀ e ∈ en, e.1 ≠ id) → rows' id = rows id) :
    rows.Legal (deltasOf en) ∧ (deltasOf en).foldl Rows.apply rows = rows' := by
  induction en generalizing rows with
  | nil => exact ⟨trivial, funext fun id => (hR id (by simp)).symm⟩
  | cons e en ih =>
    obtain ⟨hN, hn⟩ := List.pairwise_cons.mp hn
    obtain ⟨hLegal, hA⟩ := (h e mem_cons_self).deltas
    rw [deltasOf, flatMap_cons, legal_append, List.foldl_append, hA, and_assoc]
    refine ⟨hLegal, ih _ hn (fun o hX => ?_) fun id hI => ?_⟩
    · rw [update_of_ne (hN o hX).symm]
      exact h o (mem_cons_of_mem _ hX)
    rw [update_apply]
    split_ifs with hE
    · rw [hE]
    · exact hR id (by simpa [Ne.symm hE] using hI)

/-- The rows and the evidence of the two ends, and what is pending between them. -/
structure Mailbox (Evidence : Type) where
  sender : Rows × List Evidence
  slot : Option (PendingRows Evidence)
  receiver : Rows × List Evidence

inductive Delivers (base : Rows × List Evidence) : Mailbox Evidence → Prop
  | start : Delivers base ⟨base, none, base⟩
  | send {m : Mailbox Evidence} {message : List RowDelta × List Evidence} (before : Delivers base m)
      (hLegal : m.sender.1.Legal message.1) : Delivers base
        ⟨(message.1.foldl Rows.apply m.sender.1, message.2), some (send m.slot message), m.receiver⟩
  | recv {m : Mailbox Evidence} {pending : PendingRows Evidence} (before : Delivers base m)
      (hSlot : m.slot = some pending) : Delivers base
        ⟨m.sender, none, (pending.intoMessage.1.foldl Rows.apply m.receiver.1, pending.intoMessage.2)⟩

/-- What is pending leads the receiver to the sender. -/
def Mailbox.Pends (m : Mailbox Evidence) : Prop :=
  match m.slot with
  | none => m.receiver = m.sender
  | some pending =>
    (∀ id, Leads id (m.receiver.1 id) pending.byId[id]? (m.sender.1 id)) ∧ pending.evidence = m.sender.2

theorem Mailbox.Pends.message {m : Mailbox Evidence} (h : m.Pends) (hSlot : m.slot = some pend) :
    m.receiver.1.Legal pend.intoMessage.1 ∧
      (pend.intoMessage.1.foldl Rows.apply m.receiver.1, pend.intoMessage.2) = m.sender := by
  rw [Pends, hSlot] at h
  have hK : pend.byId.toList.Pairwise fun a b => a.1 ≠ b.1 :=
    pend.byId.toList_pairwise.imp fun hL he => by simp [he] at hL
  have hR : ∀ id, (∀ e ∈ pend.byId.toList, e.1 ≠ id) → m.sender.1 id = m.receiver.1 id := fun id hI => by
    have hN : pend.byId[id]? = none :=
      Option.eq_none_iff_forall_ne_some.mpr fun tr hA => hI _ (mem_toList.mpr hA) rfl
    have hl := h.1 id
    rwa [hN] at hl
  obtain ⟨hLegal, ha⟩ := entries_lead m.receiver.1 m.sender.1 hK
    (fun e hE => mem_toList.mp hE ▸ h.1 e.1) hR
  exact ⟨hLegal, Prod.ext ha h.2⟩

theorem Delivers.pends {m : Mailbox Evidence} (h : Delivers base m) : m.Pends := by
  induction h with
  | start => rfl
  | @send m ms b hLegal ih =>
    refine ⟨push_leads (fun id => ?_) hLegal, rfl⟩
    rw [Mailbox.Pends] at ih
    split at ih
    · next hSlot => simp [hSlot, Leads, ih]
    · next pn hSlot => simpa [hSlot] using ih.1 id
  | recv b hSlot ih => exact (ih.message hSlot).2

/-- Whatever is sent and received in between, the batch that the receiver takes is legal for its rows and leads to the
sender's newest rows and evidence; with nothing pending it has them already. -/
theorem mailbox_converges {m : Mailbox Evidence} (h : Delivers base m) : (m.slot = none → m.receiver = m.sender) ∧
    ∀ pending, m.slot = some pending → m.receiver.1.Legal pending.intoMessage.1 ∧
      (pending.intoMessage.1.foldl Rows.apply m.receiver.1, pending.intoMessage.2) = m.sender := by
  have hP := h.pends
  refine ⟨fun hSlot => ?_, fun pending => hP.message⟩
  rwa [Mailbox.Pends, hSlot] at hP

def draftRow : Row := ⟨.bare 7 3 10 1, .pending, ∅⟩

/-- A draft is taken back and comes again signed before the receiver looks. -/
theorem mailbox_converges_replaced :
    let base : Rows × List Nat := (update (fun _ => none) 7 (some draftRow), [])
    ∃ m pending, Delivers base m ∧ m.slot = some pending ∧ base.1.Legal pending.intoMessage.1 := by
  intro base
  let message : List RowDelta × List Nat := ([.removed 7, .added { draftRow with signature := .signed 5 }], [1])
  have hS : Delivers base ⟨base, none, base⟩ := .start
  have hLegal : base.1.Legal message.1 := by
    simp [message, base, Rows.Legal, Rows.apply, RowDelta.Legal, RowDelta.id, RowDelta.step, draftRow]
  have h := hS.send hLegal
  exact ⟨_, _, h, rfl, ((mailbox_converges h).2 _ rfl).1⟩

end NmpStore.Runtime
