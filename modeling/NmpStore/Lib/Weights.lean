import NmpStore.Lib.Table
import Mathlib.Algebra.BigOperators.Group.Finset.Basic

/-! # Weights and views of a table

What a table weighs, and at how many keys a partial view of its rows is defined, changes only at the keys that change.
-/

namespace Table

variable {K V : Type} [Ord K] [Std.TransOrd K] [Std.LawfulEqOrd K] {t u : Table K V} {k : K} {f : V → Nat}

def weight (t : Table K V) (f : V → Nat) (k : K) : Nat := (t[k]?.map f).getD 0

theorem total_eq_sum [DecidableEq K] (f : V → Nat) {S : Finset K} (hS : ∀ k ∈ t, k ∈ S) :
    t.total (fun r => f r.2) = ∑ k ∈ S, t.weight f k := by
  have hk : ∑ k ∈ t.keys.toFinset, t.weight f k = ∑ k ∈ S, t.weight f k := by
    refine Finset.sum_subset (fun k hk => hS k (by simpa using hk)) fun k _ hk => ?_
    have hn : t[k]? = none := by simpa using hk
    simp [weight, hn]
  rw [← hk, List.sum_toFinset _ Std.ExtTreeMap.nodup_keys, ← Std.ExtTreeMap.map_fst_toList_eq_keys, List.map_map, total]
  refine congrArg List.sum (List.map_congr_left fun r hr => ?_)
  simp [weight, mem_toList.mp hr]

theorem total_change (h : ∀ a ≠ k, u.weight f a = t.weight f a) :
    u.total (fun r => f r.2) + t.weight f k = t.total (fun r => f r.2) + u.weight f k := by
  classical
  let S := insert k (t.keys.toFinset ∪ u.keys.toFinset)
  have ht : t.total (fun r => f r.2) = ∑ a ∈ S, t.weight f a := total_eq_sum f fun a ha => by simp [S, ha]
  have hu : u.total (fun r => f r.2) = ∑ a ∈ S, u.weight f a := total_eq_sum f fun a ha => by simp [S, ha]
  have hs : ∑ a ∈ S.erase k, u.weight f a = ∑ a ∈ S.erase k, t.weight f a :=
    Finset.sum_congr rfl fun a ha => h a (Finset.ne_of_mem_erase ha)
  rw [← Finset.add_sum_erase S _ (Finset.mem_insert_self k _)] at ht hu
  omega

theorem total_set [DecidableEq K] (t : Table K V) (k : K) (v : V) (f : V → Nat) :
    total (t.insert k v) (fun r => f r.2) + t.weight f k = t.total (fun r => f r.2) + f v := by
  have ht := total_change (t := t) (u := t.insert k v) (k := k) (f := f) fun a ha => by simp [weight, Ne.symm ha]
  simpa [weight] using ht

theorem total_eq_zero (h : ∀ (k : K) (v : V), t[k]? = some v → f v = 0) : t.total (fun r => f r.2) = 0 := by
  refine List.sum_eq_zero fun n hn => ?_
  obtain ⟨r, hr, rfl⟩ := List.mem_map.mp hn
  exact h r.1 r.2 (mem_toList.mp hr)

variable {α : Type} {g : V → Option α}

/-- The number of keys at which the view is defined. -/
def filled (t : Table K V) (g : V → Option α) : Nat := t.total fun r => (g r.2).isSome.toNat

theorem filled_change (h : ∀ a ≠ k, u[a]?.bind g = t[a]?.bind g) :
    u.filled g + (t[k]?.bind g).isSome.toNat = t.filled g + (u[k]?.bind g).isSome.toNat := by
  have hw : ∀ (t : Table K V) a, t.weight (fun v => (g v).isSome.toNat) a = (t[a]?.bind g).isSome.toNat := by
    intro t a
    cases ha : t[a]? <;> simp [weight, ha]
  have ht := total_change (t := t) (u := u) (k := k) (f := fun v => (g v).isSome.toNat) fun a ha => by rw [hw, hw, h a ha]
  rwa [hw, hw] at ht

theorem filled_congr (k : K) (h : ∀ a : K, u[a]?.bind g = t[a]?.bind g) : u.filled g = t.filled g := by
  have ht := filled_change (k := k) fun a _ => h a
  rw [h k] at ht
  exact Nat.add_right_cancel ht

theorem bind_insert [DecidableEq K] (h : g v = t[k]?.bind g) (a : K) : (t.insert k v)[a]?.bind g = t[a]?.bind g := by
  by_cases ha : k = a
  · subst ha
    simpa using h
  · simp [ha]

theorem bind_erase [DecidableEq K] (h : t[k]?.bind g = none) (a : K) : (t.erase k)[a]?.bind g = t[a]?.bind g := by
  by_cases ha : k = a
  · subst ha
    simpa using h.symm
  · simp [ha]

theorem bind_filter {p : K → V → Bool} (h : ∀ k v, (g v).isSome → p k v) (a : K) :
    (t.filter p)[a]?.bind g = t[a]?.bind g := by
  rw [get_filter]
  cases t[a]? with
  | none => rfl
  | some v =>
    cases hp : p a v with
    | true => simp [Option.filter, hp]
    | false =>
      have hn : g v = none := by
        by_contra hn
        simp [h a v (Option.isSome_iff_ne_none.mpr hn)] at hp
      simp [Option.filter, hp, hn]

end Table
