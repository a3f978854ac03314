import Mathlib.Data.List.SplitBy
import Mathlib.Data.List.Destutter
import Mathlib.Data.List.Sort

/-! # Sorting, dropping repetitions and cutting into groups

The three passes that turn a bag of keyed items into consecutive groups: insertion sort by a
comparison, removal of neighbours that are the same, and cutting where the key changes.
-/

namespace Grouping

section Sorting

variable {α : Type}

theorem insertionSort_pairwise (cm : α → α → Ordering) [Std.TransCmp cm] (l : List α) :
    (l.insertionSort (fun a b => (cm a b).isLE)).Pairwise (fun a b => (cm a b).isLE) := by
  have hT : Std.Total (fun a b => ((cm a b).isLE : Prop)) := ⟨fun a b => by
    have hS : cm b a = (cm a b).swap := Std.OrientedCmp.eq_swap
    rw [hS]
    cases cm a b <;> simp⟩
  have ht : IsTrans α (fun a b => ((cm a b).isLE : Prop)) := ⟨fun _ _ _ => Std.TransCmp.isLE_trans⟩
  exact List.pairwise_insertionSort _ l

end Sorting

section Destutter

variable {α : Type} {R : α → α → Prop} [DecidableRel R]

theorem exists_of_mem_destutter' (hb : b ∈ a :: l) : ∃ c ∈ l.destutter' R a, c = b ∨ ¬ R c b := by
  induction l generalizing a with
  | nil =>
    obtain rfl : b = a := by simpa using hb
    exact ⟨b, by simp, .inl rfl⟩
  | cons d l ih =>
    rcases List.mem_cons.mp hb with rfl | hb
    · exact ⟨b, List.mem_destutter' .., .inl rfl⟩
    by_cases hR : R a d
    · rw [List.destutter'_cons_pos _ hR]
      obtain ⟨c, hc, h⟩ := ih hb
      exact ⟨c, .tail _ hc, h⟩
    rw [List.destutter'_cons_neg _ hR]
    rcases List.mem_cons.mp hb with rfl | hb
    · exact ⟨a, List.mem_destutter' .., .inr hR⟩
    · exact ih (.tail _ hb)

theorem exists_of_mem_destutter {l : List α} (hb : b ∈ l) : ∃ c ∈ l.destutter R, c = b ∨ ¬ R c b := by
  cases l with
  | nil => cases hb
  | cons a l => exact exists_of_mem_destutter' hb

end Destutter

section SplitBy

variable {α K : Type} [Ord K] [Std.TransOrd K] [Std.LawfulEqOrd K] [DecidableEq K] (key : α → K)

def groups (l : List α) : List (List α) := l.splitBy (fun a b => key a == key b)

omit [Std.TransOrd K] [Std.LawfulEqOrd K] [Ord K] in
theorem key_eq_of_mem_groups (hg : g ∈ groups key l) (ha : a ∈ g) (hb : b ∈ g) :
    key a = key b := by
  have hC : g.IsChain (fun a b => key a = key b) := by
    simpa [groups] using List.isChain_of_mem_splitBy hg
  have hT : IsTrans α (fun a b => key a = key b) := ⟨fun _ _ _ => Eq.trans⟩
  have hP := List.isChain_iff_pairwise.mp hC
  have hS : Std.Symm (fun a b => key a = key b) := ⟨fun _ _ => Eq.symm⟩
  exact List.Pairwise.forall_of_forall (R := fun a b => key a = key b) (fun _ _ => rfl) hP ha hb

omit [Std.TransOrd K] [Std.LawfulEqOrd K] [Ord K] in
theorem flatten_groups (l : List α) : (groups key l).flatten = l := List.flatten_splitBy _ l

omit [Std.TransOrd K] [Std.LawfulEqOrd K] [Ord K] in
theorem ne_nil_of_mem_groups (hg : g ∈ groups key l) : g ≠ [] := List.ne_nil_of_mem_splitBy hg

omit [Std.TransOrd K] [Std.LawfulEqOrd K] [Ord K] in
theorem length_groups_le (l : List α) : (groups key l).length ≤ l.length := by
  have hL : ∀ gs : List (List α), (∀ g ∈ gs, g ≠ []) → gs.length ≤ gs.flatten.length := by
    intro gs
    induction gs with
    | nil => simp
    | cons g gs ih =>
      intro h
      have hg := List.length_pos_iff.mpr (h g (.head _))
      have hR := ih fun g' hg' => h g' (.tail _ hg')
      simp only [List.length_cons, List.flatten_cons, List.length_append]
      omega
  have h := hL (groups key l) fun g hg => ne_nil_of_mem_groups key hg
  rwa [flatten_groups] at h

theorem groups_pairwise (hl : l.Pairwise (fun a b => (compare (key a) (key b)).isLE)) :
    (groups key l).Pairwise (fun g g' => ∀ a ∈ g, ∀ b ∈ g', compare (key a) (key b) = .lt) := by
  rw [← flatten_groups key l, List.pairwise_flatten] at hl
  -- neighbouring groups differ where they meet, and the list is sorted there
  have hC : (groups key l).IsChain (fun g g' => g ≠ [] ∧ g' ≠ [] ∧ ∀ a ∈ g, ∀ b ∈ g', compare (key a) (key b) = .lt) := by
    have hM := List.isChain_getLast_head_splitBy (fun a b => key a == key b) l
    have hB := List.isChain_iff_getElem.mp hM
    refine List.isChain_iff_getElem.mpr fun i hi => ?_
    obtain ⟨ha, hb, hN⟩ := hB i hi
    refine ⟨ha, hb, fun a hma b hm => ?_⟩
    have hL := List.pairwise_iff_getElem.mp hl.2 i (i + 1) (by omega) hi (by omega)
    have hka := key_eq_of_mem_groups key (List.getElem_mem _) hma (List.getLast_mem ha)
    have hkb := key_eq_of_mem_groups key (List.getElem_mem _) hm (List.head_mem hb)
    have hL' := hL _ (List.getLast_mem ha) _ (List.head_mem hb)
    have hN' : compare (key a) (key b) ≠ .eq := by
      rw [hka, hkb]
      simpa using hN
    rw [← hka, ← hkb] at hL'
    revert hL' hN'
    cases compare (key a) (key b) <;> simp
  have hT : IsTrans (List α) (fun g g' => g ≠ [] ∧ g' ≠ [] ∧ ∀ a ∈ g, ∀ b ∈ g', compare (key a) (key b) = .lt) :=
    ⟨fun g₁ g₂ g₃ ⟨h₁, h₂, h₁₂⟩ ⟨_, h₃, h₂₃⟩ => ⟨h₁, h₃, fun a ha c hc =>
      Std.TransCmp.lt_trans (h₁₂ a ha _ (List.head_mem h₂)) (h₂₃ _ (List.head_mem h₂) c hc)⟩⟩
  exact (List.isChain_iff_pairwise.mp hC).imp fun h => h.2.2

end SplitBy

section Related

variable {α β : Type} {R : α → β → Prop} {S : α → α → Prop} {T : β → β → Prop} {l' : List β}

theorem pairwise_of_forall₂ (h : List.Forall₂ R l l')
    (hS : ∀ a b a' b', R a a' → R b b' → S a b → T a' b') (hl : l.Pairwise S) : l'.Pairwise T := by
  obtain ⟨hL, hG⟩ := List.forall₂_iff_get.mp h
  refine List.pairwise_iff_getElem.mpr fun i j hi hj hij => ?_
  exact hS _ _ _ _ (hG i (hL ▸ hi) hi) (hG j (hL ▸ hj) hj)
    (List.pairwise_iff_getElem.mp hl i j (hL ▸ hi) (hL ▸ hj) hij)

theorem exists_of_mem_right (h : List.Forall₂ R l l') (hb : b ∈ l') :
    ∃ a ∈ l, R a b := by
  induction h with
  | nil => cases hb
  | cons hR _ ih =>
    rcases List.mem_cons.mp hb with rfl | hb
    · exact ⟨_, List.mem_cons_self, hR⟩
    · obtain ⟨a, ha, hr⟩ := ih hb
      exact ⟨a, .tail _ ha, hr⟩

theorem exists_of_mem_left (h : List.Forall₂ R l l') (ha : a ∈ l) :
    ∃ b ∈ l', R a b :=
  exists_of_mem_right h.flip ha

end Related

end Grouping
