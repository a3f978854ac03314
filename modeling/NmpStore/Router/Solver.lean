import Mathlib.Data.Finset.Card
import NmpStore.Router.Recompile

/-! # The coverage solver

Relays are selected one by one, the one that most authors still need first, until every author is covered by as many of
its candidates as it may have or the cap is reached.
-/

namespace NmpStore.Routing

/-- The candidates of an author, in the order of their lanes. -/
structure CoverageInput where
  candidates : Table PublicKey (List RelayUrl)
  k : Nat
  cap : Nat

inductive ShortfallReason where
  | noCandidates
  | fewerCandidatesThanK
  | capExhausted
  deriving DecidableEq

structure Shortfall where
  requestedK : Nat
  achieved : Nat
  reason : ShortfallReason

/-- An author's entries of the maps that the loop works on. -/
structure Cover where
  author : PublicKey
  candidates : List RelayUrl
  assigned : Finset RelayUrl
  need : Nat

structure Solving where
  selected : Finset RelayUrl
  covers : List Cover

/-- The relays, and the assignment and the shortfall of each author. -/
structure Coverage where
  selected : Finset RelayUrl
  authors : List (Cover × Option Shortfall)

namespace Solving

/-- The slots that each relay would fill, one entry for each. -/
def scores (c : Solving) : List RelayUrl :=
  c.covers.flatMap fun a =>
    if a.need = 0 then [] else (a.candidates.filter fun url => url ∉ a.assigned ∧ url ∉ c.selected).dedup

def best (c : Solving) : Option RelayUrl :=
  pickBest (fun a b => c.scores.count b < c.scores.count a ∨ c.scores.count b = c.scores.count a ∧ a < b) c.scores

def select (c : Solving) (url : RelayUrl) : Solving where
  selected := insert url c.selected
  covers := c.covers.map fun a =>
    if a.need = 0 then a
    else if url ∈ a.candidates then { a with assigned := insert url a.assigned, need := a.need - 1 }
    else a

theorem best_fills {c : Solving} (h : c.best = some url) : url ∉ c.selected := by
  obtain ⟨a, -, hI⟩ := List.mem_flatMap.mp (pickBest_mem h)
  split_ifs at hI
  · cases hI
  · simp at hI
    exact hI.2.2

def solveLoop (cap : Nat) (c : Solving) : Solving :=
  if cap ≤ c.selected.card then c
  else if c.covers.all (·.need == 0) then c
  else
    match _hBest : c.best with
    | none => c
    | some url => solveLoop cap (c.select url)
termination_by cap - c.selected.card
decreasing_by
  have hCard : (c.select url).selected.card = c.selected.card + 1 := Finset.card_insert_of_notMem (best_fills ‹_›)
  omega

def start (input : CoverageInput) : Solving where
  selected := ∅
  covers := input.candidates.toList.map fun (author, list) => ⟨author, list, ∅, min list.toFinset.card input.k⟩

def shortfall (k : Nat) (a : Cover) : Option Shortfall :=
  if k ≤ a.assigned.card then none
  else some
    { requestedK := k
      achieved := a.assigned.card
      reason :=
        if a.candidates.toFinset.card = 0 then .noCandidates
        else if a.candidates.toFinset.card < k then .fewerCandidatesThanK
        else .capExhausted }

def solve (input : CoverageInput) : Coverage :=
  let c := solveLoop input.cap (start input)
  ⟨c.selected, c.covers.map fun a => (a, shortfall input.k a)⟩

/-- An author that still needs relays has been given each selected one that it lists. -/
structure Fair (k : Nat) (selected : Finset RelayUrl) (entry : PublicKey × List RelayUrl) (a : Cover) : Prop where
  of : (a.author, a.candidates) = entry
  within : a.assigned ⊆ selected
  listed : a.assigned ⊆ a.candidates.toFinset
  slots : a.assigned.card + a.need = min a.candidates.toFinset.card k
  given : a.need ≠ 0 → ∀ url ∈ a.candidates, url ∈ selected → url ∈ a.assigned

theorem Fair.select {sl : Finset RelayUrl} (h : Fair k sl e a) (hN : url ∉ sl) :
    Fair k (insert url sl) e (if a.need = 0 then a
      else if url ∈ a.candidates then { a with assigned := insert url a.assigned, need := a.need - 1 } else a) := by
  have hG := h.within.trans (Finset.subset_insert url sl)
  split_ifs with hD hL
  · exact ⟨h.of, hG, h.listed, h.slots, fun hn => absurd hD hn⟩
  · have hC := Finset.card_insert_of_notMem fun hI => hN (h.within hI)
    refine ⟨h.of, Finset.insert_subset_insert _ h.within, Finset.insert_subset (by simpa) h.listed, ?_, fun _ o hI hA => ?_⟩
    · have hS := h.slots
      dsimp only
      omega
    · rcases Finset.mem_insert.mp hA with rfl | hA
      · exact Finset.mem_insert_self ..
      · exact Finset.mem_insert_of_mem (h.given hD o hI hA)
  · refine ⟨h.of, hG, h.listed, h.slots, fun hn o hI hA => ?_⟩
    rcases Finset.mem_insert.mp hA with rfl | hA
    · exact absurd hI hL
    · exact h.given hn o hI hA

/-- An author that needs a relay and has none left to take has all its candidates. -/
theorem Fair.filled {c : Solving} (h : Fair k c.selected e a) (hI : a ∈ c.covers) (hn : c.best = none) :
    a.need = 0 := by
  by_contra hN
  have hS : c.scores = [] := by
    by_contra hs
    have hB : c.best.isSome := pickBest_isSome _ hs
    simp [hn] at hB
  have hA : a.candidates.toFinset ⊆ a.assigned := by
    intro ur hU
    by_contra hY
    have hL := List.mem_toFinset.mp hU
    have hF : ur ∉ c.selected := fun ha => hY (h.given hN ur hL ha)
    have hr : ur ∈ c.scores := by
      refine List.mem_flatMap.mpr ⟨a, hI, ?_⟩
      simp [hN, hL, hY, hF]
    simp [hS] at hr
  have hC := Finset.card_le_card hA
  have hl := h.slots
  omega

theorem solveLoop_fair {c : Solving} (hC : c.selected.card ≤ cap)
    (h : List.Forall₂ (Fair k c.selected) ents c.covers) : (solveLoop cap c).selected.card ≤ cap ∧
      List.Forall₂ (Fair k (solveLoop cap c).selected) ents (solveLoop cap c).covers ∧
      ((solveLoop cap c).selected.card < cap → ∀ a ∈ (solveLoop cap c).covers, a.need = 0) := by
  fun_induction solveLoop cap c with
  | case1 c hf => exact ⟨hC, h, fun hL => absurd hf hL.not_ge⟩
  | case2 c hR hD => exact ⟨hC, h, fun _ a hI => by simpa using List.all_eq_true.mp hD a hI⟩
  | case3 c hR ho hn =>
    refine ⟨hC, h, fun _ a hI => ?_⟩
    obtain ⟨e, -, hF⟩ := Grouping.exists_of_mem_right h hI
    exact hF.filled hI hn
  | case4 c hR ho ur hB ih =>
    have hN := best_fills hB
    have hc : (c.select ur).selected.card = c.selected.card + 1 := Finset.card_insert_of_notMem hN
    refine ih (by omega) (List.forall₂_map_right_iff.mpr (h.imp fun e a hF => hF.select hN))

/-- The solver keeps to the cap, gives each author at most `k` of its own candidates among the selected relays, and
leaves a slot that a candidate could fill only when the cap is reached. -/
theorem solve_covers (input : CoverageInput) : (solve input).selected.card ≤ input.cap ∧
    List.Forall₂ (fun entry (row : Cover × Option Shortfall) => row.1.author = entry.1 ∧
        row.1.assigned ⊆ (solve input).selected ∧ row.1.assigned ⊆ entry.2.toFinset ∧ row.1.assigned.card ≤ input.k ∧
        (row.2.isSome ↔ row.1.assigned.card < input.k) ∧
        ((solve input).selected.card < input.cap → row.1.assigned.card = min input.k entry.2.toFinset.card) ∧
        ∀ s ∈ row.2, s.reason = .capExhausted → (solve input).selected.card = input.cap)
      input.candidates.toList (solve input).authors := by
  have hs : List.Forall₂ (Fair input.k (start input).selected) input.candidates.toList (start input).covers := by
    refine List.forall₂_map_right_iff.mpr (List.forall₂_same.mpr fun entry _ => ?_)
    exact ⟨rfl, Finset.Subset.refl _, Finset.empty_subset _, by simp, fun _ _ _ ha => absurd ha (Finset.notMem_empty _)⟩
  obtain ⟨hC, hF, hf⟩ := solveLoop_fair (Nat.zero_le input.cap) hs
  rw [solve]
  generalize solveLoop input.cap (start input) = c at hC hF hf ⊢
  refine ⟨hC, List.forall₂_map_right_iff.mpr ?_⟩
  rw [List.forall₂_iff_get] at hF ⊢
  refine ⟨hF.1, fun i hl hR => ?_⟩
  have hA := hF.2 i hl hR
  have hN := fun ht => hf ht _ (c.covers.get_mem ⟨i, hR⟩)
  generalize c.covers.get ⟨i, hR⟩ = a at hA hN
  generalize input.candidates.toList.get ⟨i, hl⟩ = entry at hA
  obtain ⟨rfl, hW, hL, ho, -⟩ := hA
  dsimp only
  refine ⟨rfl, hW, hL, by omega, ?_, fun ht => ?_, fun s hS hr => ?_⟩
  · simp [shortfall]
  · have hD := hN ht
    omega
  by_contra hm
  have hD := hN (by omega)
  simp only [shortfall, Option.mem_def, Option.ite_none_left_eq_some, Option.some.injEq] at hS
  obtain ⟨hh, rfl⟩ := hS
  split_ifs at hr
  omega

end Solving

end NmpStore.Routing
