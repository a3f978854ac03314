import NmpStore.Postings.Scan
import NmpStore.Postings.View

/-! # Posting cursors

A cursor is placed by binary search and then gives, one by one, the events of its list that
lie in the window, after the scan's position and alive.
-/

namespace NmpStore.Postings

open BinarySearch (SplitsAt Answers Ascending binarySearchIndex binarySearchIndex_answers)

def RunEvent.Precedes (a b : RunEvent) : Prop := b.createdAt < a.createdAt ∨ (a.createdAt = b.createdAt ∧ a.id < b.id)

def Wanted (before : Option (Nat × Nat)) (since untilTime : Nat) (event : RunEvent) : Prop :=
  since ≤ event.createdAt ∧ event.createdAt ≤ untilTime ∧ ∀ target, before = some target → compareTarget target event = .gt

instance (before : Option (Nat × Nat)) (since untilTime : Nat) : DecidablePred (Wanted before since untilTime) := fun _ =>
  inferInstanceAs (Decidable (_ ∧ _ ∧ _))

def Reads (dictionary : Dictionary) (list : List Posting) (events : List RunEvent) : Prop :=
  List.Forall₂ (fun posting event => dictionaryEvent dictionary posting.ordinal posting.createdAt = .ok event) list events

variable {list : List Posting} {events : List RunEvent} {c : PostingCursor}

theorem reads_resolve
    (hB : ∀ ps ∈ list, ps.ordinal < dict.length) : Reads dict list (resolve dict list) := by
  induction list with
  | nil => exact .nil
  | cons ps list ih =>
    have hH := getElem?_eq_getElem (hB ps (.head _))
    have hR := ih fun o hX => hB o (.tail _ hX)
    unfold resolve at hR ⊢
    rw [List.filterMap_cons, hH]
    exact .cons (by simp [dictionaryEvent, hH, pure, Except.pure]) hR

theorem Reads.postingEvent_eq (h : Reads dict list events) (hA : events[i]? = some ev) :
    postingEvent dict list i = .ok ev := by
  obtain ⟨hi, rfl⟩ := getElem?_eq_some_iff.mp hA
  have hi' : i < list.length := h.length_eq ▸ hi
  unfold postingEvent
  rw [getElem?_eq_getElem hi']
  exact h.get hi' hi

section Search

variable {list : List Posting} {events : List RunEvent} {i : Nat}

theorem compareTarget_eq_lt : compareTarget t ev = .lt ↔
    t.1 < ev.createdAt ∨ (t.1 = ev.createdAt ∧ ev.id < t.2) := by
  simp [compareTarget, Ordering.then_eq_lt, compare_lt_iff_lt]

theorem compareTarget_eq_gt : compareTarget t ev = .gt ↔
    ev.createdAt < t.1 ∨ (t.1 = ev.createdAt ∧ t.2 < ev.id) := by
  simp [compareTarget, Ordering.then_eq_gt, compare_gt_iff_gt]

theorem compareTarget_eq_eq : compareTarget t ev = .eq ↔ t.1 = ev.createdAt ∧ ev.id = t.2 := by
  simp [compareTarget, Ordering.then_eq_eq]

def side (events : List RunEvent) (target : Nat × Nat) (i : Nat) : Ordering :=
  (events[i]?).elim .eq (compareTarget target)

theorem side_eq (hA : events[i]? = some ev) : side events t i = compareTarget t ev := by
  simp [side, hA]

theorem precedes_of_lt (hS : events.Pairwise RunEvent.Precedes) (hij : i < j)
    (ha : events[i]? = some a) (hb : events[j]? = some b) : a.Precedes b := by
  obtain ⟨hi, rfl⟩ := getElem?_eq_some_iff.mp ha
  obtain ⟨hj, rfl⟩ := getElem?_eq_some_iff.mp hb
  exact List.pairwise_iff_getElem.mp hS i j hi hj hij

theorem side_ascending (hS : events.Pairwise RunEvent.Precedes) (t : Nat × Nat) :
    Ascending events.length (side events t) where
  lt_of_lt i j hij hj hL := by
    rcases hij.lt_or_eq with hij | rfl
    · have hi := getElem?_eq_getElem (hij.trans hj)
      have hj' := getElem?_eq_getElem hj
      have hB := precedes_of_lt hS hij hi hj'
      rw [side_eq hj', compareTarget_eq_lt] at hL
      rw [side_eq hi, compareTarget_eq_lt]
      unfold RunEvent.Precedes at hB
      omega
    · exact hL
  gt_of_gt i j hij hj hG := by
    rcases hij.lt_or_eq with hij | rfl
    · have hi := getElem?_eq_getElem (hij.trans hj)
      have hj' := getElem?_eq_getElem hj
      have hB := precedes_of_lt hS hij hi hj'
      rw [side_eq hi, compareTarget_eq_gt] at hG
      rw [side_eq hj', compareTarget_eq_gt]
      unfold RunEvent.Precedes at hB
      omega
    · exact hG

theorem searchPostings_ok (hR : Reads dict list events) (hS : events.Pairwise RunEvent.Precedes)
    (t : Nat × Nat) : ∃ an, searchPostings dict list t = .ok an ∧
      Answers events.length (side events t) an := by
  have hL := hR.length_eq
  have hA := binarySearchIndex_answers (side_ascending hS t)
  have hs : binarySearchIndex list.length (comparePosting dict list t) =
      binarySearchIndex events.length (side events t) := by
    rw [← hL]
    refine BinarySearch.binarySearchIndex_congr fun i hi => ?_
    have ha := getElem?_eq_getElem (hL ▸ hi)
    rw [comparePosting, hR.postingEvent_eq ha, side_eq ha]
  rw [searchPostings, hs]
  cases hr : binarySearchIndex events.length (side events t) with
  | error i => exact ⟨.error i, rfl, hr ▸ hA⟩
  | ok i =>
    rw [hr] at hA
    have he := hR.postingEvent_eq (getElem?_eq_getElem hA.1)
    exact ⟨.ok i, by simp [he, pure, Except.pure, bind, Except.bind], hA⟩

theorem splitsAt_until (hS : events.Pairwise RunEvent.Precedes)
    (h : Answers events.length (side events (untilTime, 0)) answer) :
    SplitsAt (fun ev => ev.createdAt ≤ untilTime) events (match answer with | .ok i => i | .error i => i) := by
  cases answer with
  | ok i =>
    obtain ⟨hi, hE⟩ := h
    have hA := getElem?_eq_getElem hi
    rw [side_eq hA, compareTarget_eq_eq] at hE
    refine ⟨fun j ev hj hji hL => ?_, fun j ev hj hij => ?_⟩
    · have hB := precedes_of_lt hS hji hj hA
      unfold RunEvent.Precedes at hB
      omega
    rcases hij.lt_or_eq with hij | rfl
    · have ha := precedes_of_lt hS hij hA hj
      unfold RunEvent.Precedes at ha
      omega
    · rw [hA] at hj
      cases hj
      omega
  | error i =>
    obtain ⟨-, hO, hb⟩ := h
    refine ⟨fun j ev hj hji hL => ?_, fun j ev hj hij => ?_⟩
    · have hl := hO j hji
      rw [side_eq hj, compareTarget_eq_lt] at hl
      omega
    · have hG := hb j hij (getElem?_eq_some_iff.mp hj).1
      rw [side_eq hj, compareTarget_eq_gt] at hG
      omega

theorem splitsAt_before (hS : events.Pairwise RunEvent.Precedes)
    (h : Answers events.length (side events t) answer) :
    SplitsAt (fun ev => compareTarget t ev = .gt) events (match answer with | .ok i => i + 1 | .error i => i) := by
  cases answer with
  | ok i =>
    obtain ⟨hi, hE⟩ := h
    have hA := getElem?_eq_getElem hi
    rw [side_eq hA, compareTarget_eq_eq] at hE
    refine ⟨fun j ev hj hji hG => ?_, fun j ev hj hij => ?_⟩
    · rw [compareTarget_eq_gt] at hG
      rcases (Nat.le_of_lt_succ hji).lt_or_eq with hji | rfl
      · have hB := precedes_of_lt hS hji hj hA
        unfold RunEvent.Precedes at hB
        omega
      · rw [hA] at hj
        cases hj
        omega
    · have ha := precedes_of_lt hS hij hA hj
      rw [compareTarget_eq_gt]
      unfold RunEvent.Precedes at ha
      omega
  | error i =>
    obtain ⟨-, hl, hb⟩ := h
    refine ⟨fun j ev hj hji hG => ?_, fun j ev hj hij => ?_⟩
    · have hL := hl j hji
      rw [side_eq hj, hG] at hL
      cases hL
    · have hG := hb j hij (getElem?_eq_some_iff.mp hj).1
      rwa [side_eq hj] at hG

theorem untilStart_ok (hR : Reads dict list events) (hS : events.Pairwise RunEvent.Precedes)
    (un : Nat) : ∃ st, untilStart dict list un = .ok st ∧
      SplitsAt (fun ev => un = u64Max ∨ ev.createdAt ≤ un) events st := by
  unfold untilStart
  split
  · rename_i hM
    exact ⟨0, rfl, by simp, fun _ _ _ _ => .inl hM⟩
  rename_i hM
  obtain ⟨an, hs, hA⟩ := searchPostings_ok hR hS (un, 0)
  refine ⟨_, ?_, by simpa [hM] using splitsAt_until hS hA⟩
  rw [hs]
  cases an <;> rfl

theorem beforeStart_ok (hR : Reads dict list events) (hS : events.Pairwise RunEvent.Precedes)
    {P : RunEvent → Prop} (hs : SplitsAt P events start) (b : Option (Nat × Nat)) :
    ∃ next, beforeStart dict list start b = .ok next ∧
      SplitsAt (fun ev => P ev ∧ ∀ t, b = some t → compareTarget t ev = .gt) events next := by
  cases b with
  | none => exact ⟨start, rfl, by simpa using hs⟩
  | some t =>
    obtain ⟨an, hE, hA⟩ := searchPostings_ok hR hS t
    refine ⟨_, ?_, by simpa using hs.and (splitsAt_before hS hA)⟩
    rw [beforeStart, hE]
    cases an <;> rfl

theorem cursor_ok (hR : Reads dictionary list events) (hS : events.Pairwise RunEvent.Precedes)
    (b : Option (Nat × Nat)) (since un : Nat) :
    ∃ start, cursor dictionary list b since un = .ok ⟨list, dictionary, start, since, false⟩ ∧
      SplitsAt (fun ev => (un = u64Max ∨ ev.createdAt ≤ un) ∧
        ∀ t, b = some t → compareTarget t ev = .gt) events start := by
  obtain ⟨start, hT, hs⟩ := untilStart_ok hR hS un
  obtain ⟨next, hN, hB⟩ := beforeStart_ok hR hS hs b
  exact ⟨next, by simp [cursor, hT, hN], hB⟩

end Search

def PostingCursor.Gives (c : PostingCursor) (left : List RunEvent) : Prop :=
  ∃ events, Reads c.dictionary c.list events ∧
    left = if c.exhausted then [] else (events.drop c.nextOrdinal).takeWhile fun event => c.since ≤ event.createdAt

theorem PostingCursor.Gives.length_le (h : c.Gives left) : left.length ≤ c.list.length := by
  obtain ⟨events, hR, rfl⟩ := h
  split
  · simp
  have hB := (List.takeWhile_sublist fun ev : RunEvent => decide (c.since ≤ ev.createdAt)).trans
    (List.drop_sublist c.nextOrdinal events)
  exact hB.length_le.trans hR.length_eq.ge

theorem PostingCursor.next_eq (h : c.Gives left) :
    ∃ c', c.next = .ok (left.head?, c') ∧ c'.Gives left.tail ∧ c'.list = c.list := by
  obtain ⟨events, hr, rfl⟩ := h
  by_cases hD : c.exhausted ∨ c.nextOrdinal ≥ c.list.length
  · have hZ : (if c.exhausted then [] else (events.drop c.nextOrdinal).takeWhile
        fun ev => decide (c.since ≤ ev.createdAt)) = [] := by
      split
      · rfl
      · rw [List.drop_eq_nil_of_le (hr.length_eq ▸ hD.resolve_left ‹_›), List.takeWhile_nil]
    refine ⟨c, ?_, ⟨events, hr, by rw [hZ]; rfl⟩, rfl⟩
    rw [hZ, PostingCursor.next, if_pos hD]
    rfl
  obtain ⟨hG, hA⟩ := not_or.mp hD
  rw [ge_iff_le, Nat.not_le, hr.length_eq] at hA
  have hR := hr.postingEvent_eq (getElem?_eq_getElem hA)
  rw [if_neg hG, List.drop_eq_getElem_cons hA, PostingCursor.next, if_neg hD, hR]
  by_cases hO : events[c.nextOrdinal].createdAt < c.since
  · refine ⟨{ c with nextOrdinal := c.nextOrdinal + 1, exhausted := true }, ?_, ⟨events, hr, ?_⟩, rfl⟩
    · rw [List.takeWhile_cons_of_neg (by simpa using hO)]
      simp [bind, Except.bind, hO, pure, Except.pure]
    · rw [List.takeWhile_cons_of_neg (by simpa using hO)]
      rfl
  · refine ⟨{ c with nextOrdinal := c.nextOrdinal + 1 }, ?_, ⟨events, hr, ?_⟩, rfl⟩
    · rw [List.takeWhile_cons_of_pos (by simpa using hO)]
      simp [bind, Except.bind, hO, pure, Except.pure]
    · rw [List.takeWhile_cons_of_pos (by simpa using hO), List.tail_cons, if_neg hG]

theorem nextLiveFuel_eq (de : Option DeadKeys) (fuel : Nat) (h : c.Gives left) (hF : left.length < fuel) :
    ∃ c' left', nextLiveFuel de fuel c = .ok ((left.filter fun ev => !isDead de ev.eventKey).head?, c') ∧
      c'.Gives left' ∧ (left'.filter fun ev => !isDead de ev.eventKey) =
        (left.filter fun ev => !isDead de ev.eventKey).tail ∧ c'.list = c.list := by
  induction left generalizing c fuel with
  | nil =>
    obtain ⟨fuel, rfl⟩ := Nat.exists_eq_add_one_of_ne_zero (ne_of_gt hF)
    obtain ⟨c', hN, hGives, hL⟩ := PostingCursor.next_eq h
    exact ⟨c', [], by simp [nextLiveFuel, hN], hGives, rfl, hL⟩
  | cons ev left ih =>
    obtain ⟨fuel, rfl⟩ := Nat.exists_eq_add_one_of_ne_zero (ne_of_gt (Nat.zero_lt_of_lt hF))
    obtain ⟨c', hN, hGives, hL⟩ := PostingCursor.next_eq h
    rw [length_cons, Nat.add_lt_add_iff_right] at hF
    cases hD : isDead de ev.eventKey with
    | true =>
      obtain ⟨c'', left', hR, hGives', hT, hL'⟩ := ih fuel hGives hF
      refine ⟨c'', left', ?_, hGives', ?_, hL'.trans hL⟩
      · simpa [nextLiveFuel, hN, hD] using hR
      · simpa [hD] using hT
    | false => exact ⟨c', left, by simp [nextLiveFuel, hN, hD, pure, Except.pure], hGives, by simp [hD], hL⟩

def ScanSource.Gives (source : ScanSource) (live : List RunEvent) : Prop :=
  ∃ left, source.cursor.Gives left ∧ live = left.filter fun event => !isDead source.dead event.eventKey

theorem ScanSource.Gives.length_le {s : ScanSource} (h : s.Gives live) :
    live.length ≤ s.cursor.list.length := by
  obtain ⟨left, hL, rfl⟩ := h
  exact (List.length_filter_le _ _).trans hL.length_le

theorem nextScanEvent_streams (τ : Type) : KWayMerge.Streams (m := StateT τ (Result)) nextScanEvent ScanSource.Gives := by
  rintro s _ ⟨left, hL, rfl⟩
  obtain ⟨c, left', hN, hG, hT, -⟩ := nextLiveFuel_eq s.dead (s.cursor.list.length + 1) hL
    (Nat.lt_succ_of_le hL.length_le)
  refine ⟨⟨c, s.dead⟩, ?_, left', hG, hT.symm⟩
  have hl : packed (s.cursor.nextLive s.dead) =
      .ok ((left.filter fun ev => !isDead s.dead ev.eventKey).head?, c) := by
    rw [packed, mapError_ok]
    exact hN
  unfold nextScanEvent
  rw [hl]
  rfl

theorem exists_source (hR : Reads dict list events) (hS : events.Pairwise RunEvent.Precedes)
    (de : Option DeadKeys) (hT : ∀ ev ∈ events, ¬ isDead de ev.eventKey → ev.createdAt ≤ u64Max)
    (bf : Option (Nat × Nat)) (sn un : Nat) :
    ∃ c, cursor dict list bf sn un = .ok c ∧ ScanSource.Gives ⟨c, de⟩
      (events.filter fun ev => Wanted bf sn un ev ∧ ¬ isDead de ev.eventKey) := by
  obtain ⟨st, hC, hs⟩ := cursor_ok hR hS bf sn un
  refine ⟨_, hC, _, ⟨events, hR, rfl⟩, ?_⟩
  have hW : (events.drop st).Pairwise fun a b => decide (sn ≤ b.createdAt) → decide (sn ≤ a.createdAt) :=
    (hS.sublist (List.drop_sublist st events)).imp fun {a b} hB => by
      simp only [decide_eq_true_eq]
      unfold RunEvent.Precedes at hB
      omega
  rw [if_neg Bool.false_ne_true, BinarySearch.takeWhile_eq_filter hW, hs.drop_eq, List.filter_filter,
    List.filter_filter]
  refine List.filter_congr fun ev hE => Bool.eq_iff_iff.mpr ?_
  have hL : ¬ isDead de ev.eventKey → un = u64Max → ev.createdAt ≤ un := fun hl hM =>
    hM ▸ hT ev hE hl
  simp only [Wanted, and_eq_true, decide_eq_true_eq, not_eq_true', not_eq_true] at hL ⊢
  tauto

end NmpStore.Postings
