import Mathlib.Data.List.Induction
import Mathlib.Tactic.Common

/-! # Edits of a list by key

A row has a key or none. An edit adds a row of a key when the list has no such row, or takes away every row of
the key. The rows of one key change on their own, so that a run of edits is known from what it does to each key.
-/

namespace KeyedEdits

variable {Row Key : Type} [DecidableEq Key]

inductive Edit (Row Key : Type)
  | add (key : Key) (row : Row)
  | remove (key : Key)

namespace Edit

def key : Edit Row Key → Key
  | add key _ => key
  | remove key => key

def adds : Edit Row Key → Bool
  | add .. => true
  | remove _ => false

/-- The row that is added has the key that it is added for. -/
def Sound (keyOf : Row → Option Key) : Edit Row Key → Prop
  | add key row => keyOf row = some key
  | remove _ => True

end Edit

variable (keyOf : Row → Option Key)

def step (rows : List Row) : Edit Row Key → List Row
  | .add key row => if rows.any (keyOf · = some key) then rows else rows ++ [row]
  | .remove key => rows.filter (keyOf · ≠ some key)

def run (rows : List Row) (edits : List (Edit Row Key)) : List Row := edits.foldl (step keyOf) rows

/-- The rows of one key, or those without a key. -/
def slot (o : Option Key) (rows : List Row) : List Row := rows.filter (keyOf · = o)

/-- What an edit does to the rows of `o`. -/
def slotStep (o : Option Key) (rows : List Row) : Edit Row Key → List Row
  | .add key row => if some key = o ∧ rows.isEmpty then [row] else rows
  | .remove key => if some key = o then [] else rows

variable {keyOf} {edits : List (Edit Row Key)} {rows : List Row} {o : Option Key}

theorem slot_step {e : Edit Row Key} (h : e.Sound keyOf) :
    slot keyOf o (step keyOf rows e) = slotStep o (slot keyOf o rows) e := by
  cases e with
  | add ky ro =>
    have hw : keyOf ro = some ky := h
    by_cases ho : some ky = o
    · subst ho
      by_cases hn : slot keyOf (some ky) rows = []
      · have ha : ¬∃ r ∈ rows, keyOf r = some ky := by simpa [slot] using hn
        rw [slotStep, hn]
        simpa [step, slot, hw, ha] using hn
      · have ha : ∃ r ∈ rows, keyOf r = some ky := by simpa [slot] using hn
        simp [step, slotStep, ha, hn]
    · simp only [slotStep, ho, false_and, if_false, step]
      split <;> simp [slot, hw, ho]
  | remove ky =>
    by_cases ho : some ky = o
    · subst ho
      simp [step, slot, slotStep]
    · simp only [step, slot, slotStep, List.filter_filter, if_neg ho]
      exact List.filter_congr fun r _ => by grind

theorem slot_run (h : ∀ e ∈ edits, e.Sound keyOf) :
    slot keyOf o (run keyOf rows edits) = edits.foldl (slotStep o) (slot keyOf o rows) := by
  induction edits generalizing rows with
  | nil => rfl
  | cons e edits ih =>
    rw [List.foldl_cons, ← slot_step (h e List.mem_cons_self)]
    exact ih fun e he => h e (.tail _ he)

/-- The last edit of a key decides whether it has rows. -/
theorem slots_ne_nil {ky : Key} : edits.foldl (slotStep (some ky)) rows ≠ [] ↔
    (∃ e, (edits.filter (·.key = ky)).getLast? = some e ∧ e.adds) ∨
      (edits.filter (·.key = ky)).getLast? = none ∧ rows ≠ [] := by
  induction edits using List.reverseRecOn with
  | nil => simp
  | append_singleton edits e ih =>
    rw [List.foldl_append, List.filter_append]
    by_cases hk : e.key = ky
    · cases e with
      | add k ro =>
        obtain rfl : k = ky := hk
        by_cases hn : edits.foldl (slotStep (some k)) rows = [] <;> simp [slotStep, Edit.key, Edit.adds, hn]
      | remove k =>
        obtain rfl : k = ky := hk
        simp [slotStep, Edit.key, Edit.adds]
    · have ho : slotStep (some ky) (edits.foldl (slotStep (some ky)) rows) e = edits.foldl (slotStep (some ky)) rows := by
        cases e with
        | add k ro => exact if_neg fun h => hk (Option.some.inj h.1)
        | remove k => exact if_neg fun h => hk (Option.some.inj h)
      simpa [hk, ho] using ih

theorem slots_length_le_one (h : rows.length ≤ 1) : (edits.foldl (slotStep o) rows).length ≤ 1 := by
  induction edits generalizing rows with
  | nil => exact h
  | cons e edits ih =>
    refine ih ?_
    cases e with
    | add ky ro =>
      rw [slotStep]
      split
      · exact Nat.le_refl 1
      · exact h
    | remove ky =>
      rw [slotStep]
      split
      · exact Nat.zero_le 1
      · exact h

/-- Edits of one key either forget what was there or keep what is there. -/
theorem slots_cases (o : Option Key) (edits : List (Edit Row Key)) :
    (∃ c, ∀ rows, edits.foldl (slotStep o) rows = c) ∨ ∀ rows, rows ≠ [] → edits.foldl (slotStep o) rows = rows := by
  induction edits with
  | nil => exact .inr fun _ _ => rfl
  | cons e edits ih =>
    rcases ih with ⟨c, hc⟩ | hk
    · exact .inl ⟨c, fun rows => hc _⟩
    cases e with
    | add ky ro =>
      refine .inr fun rows h => ?_
      rw [List.foldl_cons, slotStep, if_neg fun hn => h (List.isEmpty_iff.mp hn.2), hk rows h]
    | remove ky =>
      by_cases ho : some ky = o
      · exact .inl ⟨edits.foldl (slotStep o) [], fun rows => by rw [List.foldl_cons, slotStep, if_pos ho]⟩
      · exact .inr fun rows h => by rw [List.foldl_cons, slotStep, if_neg ho, hk rows h]

theorem slots_replay : edits.foldl (slotStep o) (edits.foldl (slotStep o) rows) = edits.foldl (slotStep o) rows := by
  rcases slots_cases o edits with ⟨c, hc⟩ | hk
  · rw [hc, hc]
  · by_cases hn : edits.foldl (slotStep o) rows = []
    · have he : rows = [] := by
        by_contra h
        exact h (hk rows h ▸ hn)
      rw [hn, ← he, hn, he]
    · exact hk _ hn

theorem run_replay_perm [DecidableEq Row] (h : ∀ e ∈ edits, e.Sound keyOf) :
    (run keyOf (run keyOf rows edits) edits).Perm (run keyOf rows edits) := by
  rw [List.perm_iff_count]
  intro ro
  have hs : ∀ l, List.count ro l = List.count ro (slot keyOf (keyOf ro) l) :=
    fun l => (List.count_filter (by simp)).symm
  rw [hs, slot_run h, slot_run h, slots_replay, ← slot_run h, ← hs]

/-- Rows that no edit names stay as they are. -/
theorem run_filter (p : Row → Bool) (h : ∀ e ∈ edits, e.Sound keyOf)
    (hp : ∀ e ∈ edits, ∀ ro, keyOf ro = some e.key → p ro = false) :
    (run keyOf rows edits).filter p = rows.filter p := by
  induction edits generalizing rows with
  | nil => rfl
  | cons e edits ih =>
    have hk := hp e List.mem_cons_self
    have hs : (step keyOf rows e).filter p = rows.filter p := by
      cases e with
      | add ky ro =>
        have hw : p ro = false := hk ro (h _ List.mem_cons_self)
        rw [step]
        split
        · rfl
        · simp [hw]
      | remove ky =>
        rw [step, List.filter_filter]
        refine List.filter_congr fun r _ => ?_
        by_cases hr : keyOf r = some ky
        · simp [hk r hr]
        · simp [hr]
    rw [← hs]
    exact ih (fun e he => h e (.tail _ he)) fun e he => hp e (.tail _ he)

end KeyedEdits
