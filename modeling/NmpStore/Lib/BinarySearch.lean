import Mathlib.Order.MinMax

/-! # Binary search over an index comparison

`binarySearchIndex` halves the interval between two indices with a comparison that says on which side of the target an
index lies.
-/

namespace BinarySearch

def loop (compare : Nat → Ordering) : Nat → Nat → Nat → Except Nat Nat
  | 0, left, _ => .error left
  | fuel + 1, left, right =>
    if left < right then
      let middle := left + (right - left) / 2
      match compare middle with
      | .lt => loop compare fuel (middle + 1) right
      | .gt => loop compare fuel left middle
      | .eq => .ok middle
    else .error left

def binarySearchIndex (len : Nat) (compare : Nat → Ordering) : Except Nat Nat :=
  loop compare len 0 len

structure Ascending (len : Nat) (compare : Nat → Ordering) : Prop where
  lt_of_lt : ∀ i j, i ≤ j → j < len → compare j = .lt → compare i = .lt
  gt_of_gt : ∀ i j, i ≤ j → j < len → compare i = .gt → compare j = .gt

def Answers (len : Nat) (compare : Nat → Ordering) : Except Nat Nat → Prop
  | .ok i => i < len ∧ compare i = .eq
  | .error i => i ≤ len ∧ (∀ j < i, compare j = .lt) ∧ ∀ j, i ≤ j → j < len → compare j = .gt

variable {compare compare' : Nat → Ordering}

theorem loop_answers (h : Ascending len compare) (fuel left right : Nat)
    (hF : right - left ≤ fuel) (hL : left ≤ right) (hR : right ≤ len)
    (hO : ∀ j < left, compare j = .lt) (hA : ∀ j, right ≤ j → j < len → compare j = .gt) :
    Answers len compare (loop compare fuel left right) := by
  induction fuel generalizing left right with
  | zero => exact ⟨by omega, hO, fun j hj => hA j (by omega)⟩
  | succ fuel ih =>
    rw [loop]
    split
    · have hD : left + (right - left) / 2 < right := by omega
      dsimp only
      split
      · rename_i hC
        refine ih _ _ (by omega) (by omega) hR (fun j hj => ?_) hA
        exact h.lt_of_lt j _ (by omega) (by omega) hC
      · rename_i hC
        refine ih _ _ (by omega) (by omega) (by omega) hO (fun j hj hl => ?_)
        exact h.gt_of_gt _ j hj hl hC
      · rename_i hC
        exact ⟨by omega, hC⟩
    · exact ⟨by omega, hO, fun j hj => hA j (by omega)⟩

theorem binarySearchIndex_answers (h : Ascending len compare) :
    Answers len compare (binarySearchIndex len compare) :=
  loop_answers h len 0 len (by omega) (by omega) (le_rfl) (by omega) (by omega)

theorem loop_congr (h : ∀ i < ln, compare i = compare' i)
    (fuel left right : Nat) (hR : right ≤ ln) : loop compare fuel left right = loop compare' fuel left right := by
  induction fuel generalizing left right with
  | zero => rfl
  | succ fuel ih =>
    rw [loop, loop]
    split
    · dsimp only
      rw [h (left + (right - left) / 2) (by omega), ih _ _ hR, ih _ _ (by omega)]
    · rfl

theorem binarySearchIndex_congr (h : ∀ i < ln, compare i = compare' i) :
    binarySearchIndex ln compare = binarySearchIndex ln compare' :=
  loop_congr h ln 0 ln (le_rfl)

theorem exists_ok_of_eq (h : Ascending len compare) {i : Nat} (hi : i < len) (hE : compare i = .eq) :
    ∃ j, binarySearchIndex len compare = .ok j ∧ j < len ∧ compare j = .eq := by
  have hA := binarySearchIndex_answers h
  cases hR : binarySearchIndex len compare with
  | ok j =>
    rw [hR] at hA
    exact ⟨j, rfl, hA⟩
  | error j =>
    rw [hR] at hA
    obtain ⟨-, hL, ha⟩ := hA
    rcases Nat.lt_or_ge i j with hij | hij
    · rw [hL i hij] at hE
      cases hE
    · rw [ha i hij hi] at hE
      cases hE

section Parts

variable {α : Type}

/-- The index splits the list: no item before it has the property, every item from it on has it. -/
structure SplitsAt (P : α → Prop) (l : List α) (start : Nat) : Prop where
  below : ∀ i a, l[i]? = some a → i < start → ¬ P a
  above : ∀ i a, l[i]? = some a → start ≤ i → P a

variable {l : List α}

theorem SplitsAt.and {P Q : α → Prop} {start' : Nat} (h : SplitsAt P l start)
    (h' : SplitsAt Q l start') : SplitsAt (fun a => P a ∧ Q a) l (max start start') where
  below i a hA hi hB := by
    rcases lt_max_iff.mp hi with hi | hi
    · exact h.below i a hA hi hB.1
    · exact h'.below i a hA hi hB.2
  above i a hA hi := ⟨h.above i a hA (max_le_iff.mp hi).1, h'.above i a hA (max_le_iff.mp hi).2⟩

theorem SplitsAt.drop_eq {P : α → Prop} [DecidablePred P] (h : SplitsAt P l st) :
    l.drop st = l.filter P := by
  induction l generalizing st with
  | nil => simp
  | cons a l ih =>
    cases st with
    | zero =>
      have hA : ∀ b ∈ a :: l, P b := fun b hb => by
        obtain ⟨i, hi⟩ := List.mem_iff_getElem?.mp hb
        exact h.above i b hi (Nat.zero_le _)
      exact (List.filter_eq_self.mpr fun b hb => by simpa using hA b hb).symm
    | succ st =>
      have hR : SplitsAt P l st :=
        ⟨fun i b hb hi => h.below (i + 1) b (by simpa using hb) (Nat.succ_lt_succ hi),
          fun i b hb hi => h.above (i + 1) b (by simpa using hb) (Nat.succ_le_succ hi)⟩
      rw [List.drop_succ_cons, ih hR, List.filter_cons_of_neg (by simpa using h.below 0 a rfl (Nat.succ_pos _))]

theorem takeWhile_eq_filter {p : α → Bool} (h : l.Pairwise (fun a b => p b → p a)) :
    l.takeWhile p = l.filter p := by
  induction l with
  | nil => rfl
  | cons a l ih =>
    obtain ⟨hF, hR⟩ := List.pairwise_cons.mp h
    cases hp : p a with
    | true => rw [List.takeWhile_cons_of_pos hp, List.filter_cons_of_pos hp, ih hR]
    | false =>
      have hN : l.filter p = [] := List.filter_eq_nil_iff.mpr fun b hb hpb => by simp [hF b hb hpb] at hp
      rw [List.takeWhile_cons_of_neg (by simp [hp]), List.filter_cons_of_neg (by simp [hp]), hN]

end Parts

end BinarySearch
