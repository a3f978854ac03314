import Mathlib.Data.List.Sort
import Mathlib.Algebra.GroupWithZero.Nat

/-! # Ordered tables

A table is a finite map ordered by its key, equal to another as soon as it answers every lookup alike.
-/

attribute [instance] lexOrd

abbrev Table (K V : Type) [Ord K] := Std.ExtTreeMap K V compare

namespace Table

variable {K V : Type} [Ord K] [Std.TransOrd K] [Std.LawfulEqOrd K]

@[simp, grind =]
theorem get_insert [DecidableEq K] (t : Table K V) (k a : K) (v : V) :
    (t.insert k v)[a]? = if k = a then some v else t[a]? := by
  simp [Std.ExtTreeMap.getElem?_insert]

@[simp, grind =]
theorem get_erase [DecidableEq K] (t : Table K V) (k a : K) : (t.erase k)[a]? = if k = a then none else t[a]? := by
  simp [Std.ExtTreeMap.getElem?_erase]

variable {t : Table K V} {k a : K} {v w : V}

theorem insert_some [DecidableEq K] : (t.insert k v)[a]? = some w ↔ k = a ∧ v = w ∨ k ≠ a ∧ t[a]? = some w := by
  rw [get_insert]
  split <;> simp [*]

theorem of_erase (h : (t.erase k)[a]? = some v) : t[a]? = some v := by
  classical
  rw [get_erase] at h
  split_ifs at h
  exact h

theorem mem_toList : (k, v) ∈ t.toList ↔ t[k]? = some v :=
  Std.ExtTreeMap.mem_toList_iff_getElem?_eq_some

theorem get_filter (t : Table K V) (p : K → V → Bool) (k : K) : (t.filter p)[k]? = t[k]?.filter (p k) := by
  simp [Std.ExtTreeMap.getElem?_filter]

theorem ext {s : Table K V} (h : ∀ k : K, s[k]? = t[k]?) : s = t :=
  Std.ExtTreeMap.ext_getElem? h

omit [Std.LawfulEqOrd K] in
theorem toList_pairwise (t : Table K V) : t.toList.Pairwise (fun a b => compare a.1 b.1 = .lt) :=
  Std.ExtTreeMap.ordered_keys_toList

theorem toList_nodup (t : Table K V) : t.toList.Nodup := by
  refine t.toList_pairwise.imp ?_
  rintro a b h rfl
  simp at h

/-- The rows under one first half of the key differ in the second. -/
theorem toList_snd_nodup {A B : Type} [DecidableEq A] [Ord (A × B)] [Std.TransOrd (A × B)] [Std.LawfulEqOrd (A × B)]
    (t : Table (A × B) V) (a : A) : ((t.toList.filter fun r => r.1.1 = a).map fun r => r.1.2).Nodup := by
  refine (t.toList_nodup.filter _).map_on fun r hW r' hW' hE => ?_
  simp only [List.mem_filter, decide_eq_true_eq] at hW hW'
  have hK : r.1 = r'.1 := Prod.ext (hW.2.trans hW'.2.symm) hE
  have hA : t[r.1]? = some r'.2 := hK ▸ mem_toList.mp hW'.1
  exact Prod.ext hK (Option.some.inj ((mem_toList.mp hW.1).symm.trans hA))

theorem toList_insert_perm [DecidableEq K] (v : V) (h : t[k]? = none) :
    (t.insert k v).toList.Perm ((k, v) :: t.toList) := by
  refine (List.perm_ext_iff_of_nodup (toList_nodup _) (List.nodup_cons.mpr ⟨?_, toList_nodup t⟩)).mpr ?_
  · rw [mem_toList, h]
    simp
  rintro ⟨a, w⟩
  rw [mem_toList, get_insert, List.mem_cons, mem_toList, Prod.mk.injEq]
  by_cases hk : k = a
  · subst hk
    simp [h, eq_comm]
  · simp [hk, Ne.symm hk]

theorem toList_erase_perm [DecidableEq K] (h : t[k]? = some v) : t.toList.Perm ((k, v) :: (t.erase k).toList) := by
  refine (List.perm_ext_iff_of_nodup (toList_nodup _) (List.nodup_cons.mpr ⟨?_, toList_nodup _⟩)).mpr ?_
  · rw [mem_toList, get_erase]
    simp
  rintro ⟨a, w⟩
  rw [mem_toList, List.mem_cons, mem_toList, get_erase, Prod.mk.injEq]
  by_cases hk : k = a
  · subst hk
    simp [h, eq_comm]
  · simp [hk, Ne.symm hk]

def eraseAll (t : Table K V) (keys : List K) : Table K V := keys.foldl (fun t k => t.erase k) t

theorem get_eraseAll (t : Table K V) (ky : List K) (a : K) :
    (a ∈ ky → (eraseAll t ky)[a]? = none) ∧ (a ∉ ky → (eraseAll t ky)[a]? = t[a]?) := by
  classical
  induction ky generalizing t with
  | nil => simp [eraseAll]
  | cons k ky ih =>
    have hR := ih (t.erase k)
    rw [get_erase] at hR
    by_cases hM : a ∈ ky
    · exact ⟨fun _ => hR.1 hM, fun hY => absurd (.tail _ hM) hY⟩
    refine ⟨fun hC => (hR.2 hM).trans (if_pos ?_), fun hY => (hR.2 hM).trans (if_neg ?_)⟩
    · exact ((List.mem_cons.mp hC).resolve_right hM).symm
    · rintro rfl
      exact hY (.head _)

theorem get_of_get_eraseAll {ky : List K} (h : (eraseAll t ky)[a]? = some v) : t[a]? = some v := by
  by_cases hM : a ∈ ky
  · cases ((get_eraseAll t ky a).1 hM).symm.trans h
  · exact ((get_eraseAll t ky a).2 hM).symm.trans h

def total (t : Table K V) (f : K × V → Nat) : Nat := (t.toList.map f).sum

omit [Std.LawfulEqOrd K] in
@[simp]
theorem total_empty (f : K × V → Nat) : total (∅ : Table K V) f = 0 := by
  have hZ : (∅ : Table K V).toList = [] := List.eq_nil_of_length_eq_zero (by simp)
  simp [total, hZ]

theorem total_insert [DecidableEq K] (v : V) (f : K × V → Nat) (h : t[k]? = none) :
    total (t.insert k v) f = f (k, v) + total t f := by
  rw [total, ((toList_insert_perm v h).map f).sum_nat]
  simp [total]

theorem total_erase [DecidableEq K] (f : K × V → Nat) (h : t[k]? = some v) :
    total t f = f (k, v) + total (t.erase k) f := by
  rw [total, ((toList_erase_perm h).map f).sum_nat]
  simp [total]

theorem total_replace [DecidableEq K] (w : V) (f : K × V → Nat) (h : t[k]? = some v) :
    total (t.insert k w) f + f (k, v) = total t f + f (k, w) := by
  have hS : t.insert k w = (t.erase k).insert k w := by
    refine ext fun a => ?_
    rw [get_insert, get_insert, get_erase]
    split <;> simp_all
  rw [hS, total_insert w f (by simp), total_erase f h]
  omega

theorem total_row [DecidableEq K] (t : Table K V) (k : K) (f : V → Nat) :
    total t (fun r => if r.1 = k then f r.2 else 0) = (t[k]?.map f).getD 0 := by
  have hZ : ∀ s : Table K V, s[k]? = none → total s (fun r => if r.1 = k then f r.2 else 0) = 0 := by
    intro s hN
    refine List.sum_eq_zero_iff_forall_eq_nat.mpr fun n hn => ?_
    obtain ⟨r, hW, rfl⟩ := List.mem_map.mp hn
    refine if_neg ?_
    rintro rfl
    rw [mem_toList.mp hW] at hN
    cases hN
  cases hG : t[k]? with
  | none => exact hZ t hG
  | some v =>
    rw [total_erase _ hG, hZ _ (by simp)]
    simp

theorem get_foldl_toList [DecidableEq K] {W : Type} (t : Table K V) {st : Table K W → K × V → Table K W}
    (g : K → V → Option W → Option W)
    (hs : ∀ (w : Table K W) (r : K × V) (k : K), (st w r)[k]? = if r.1 = k then g k r.2 w[k]? else w[k]?)
    (w : Table K W) (k : K) : (t.toList.foldl st w)[k]? = (t[k]?.map fun v => g k v w[k]?).getD w[k]? := by
  have hU : ∀ (rs : List (K × V)) (w : Table K W), k ∉ rs.map Prod.fst → (rs.foldl st w)[k]? = w[k]? := by
    intro rs
    induction rs with
    | nil => exact fun _ _ => rfl
    | cons r rs ih =>
      intro w hY
      obtain ⟨hW, hR⟩ := not_or.mp (mt List.mem_cons.mpr hY)
      rw [List.foldl_cons, ih _ hR, hs, if_neg (Ne.symm hW)]
  have hI : ∀ (rs : List (K × V)) (v : V) (w : Table K W), rs.Pairwise (fun a b => compare a.1 b.1 = .lt) →
      (k, v) ∈ rs → (rs.foldl st w)[k]? = g k v w[k]? := by
    intro rs v
    induction rs with
    | nil => exact fun _ _ h => absurd h List.not_mem_nil
    | cons r rs ih =>
      intro w hS hM
      obtain ⟨hB, hS⟩ := List.pairwise_cons.mp hS
      rw [List.foldl_cons]
      rcases List.mem_cons.mp hM with rfl | hM
      · rw [hU rs _ fun hl => ?_, hs, if_pos rfl]
        obtain ⟨o, hX, hE⟩ := List.mem_map.mp hl
        have hL := hB o hX
        simp [hE] at hL
      have hN : r.1 ≠ k := by
        rintro rfl
        have hL := hB _ hM
        simp at hL
      rw [ih _ hS hM, hs, if_neg hN]
  cases hG : t[k]? with
  | none =>
    refine hU _ _ fun hM => ?_
    obtain ⟨r, hW, rfl⟩ := List.mem_map.mp hM
    rw [mem_toList.mp hW] at hG
    cases hG
  | some v => exact hI _ v w t.toList_pairwise (mem_toList.mpr hG)

def floor (t : Table K V) (k : K) : Option (K × V) :=
  (t.toList.filter (fun row => (compare row.1 k).isLE)).getLast?

theorem floor_eq_none (h : t.floor k = none) (ha : t[a]? = some v) : compare k a = .lt := by
  rw [floor, List.getLast?_eq_none_iff, List.filter_eq_nil_iff] at h
  have := h (a, v) (mem_toList.mpr ha)
  rw [Std.OrientedOrd.eq_swap]
  cases hc : compare a k <;> simp_all

theorem floor_eq_some (h : t.floor k = some (a, v)) : t[a]? = some v ∧ (compare a k).isLE ∧
      ∀ b w, t[b]? = some w → (compare b k).isLE → (compare b a).isLE := by
  rw [floor, List.getLast?_eq_some_iff] at h
  obtain ⟨it, hI⟩ := h
  have hM : (a, v) ∈ t.toList.filter (fun r => (compare r.1 k).isLE) := by simp [hI]
  refine ⟨mem_toList.mp (List.mem_filter.mp hM).1, (List.mem_filter.mp hM).2, fun b w hb hk => ?_⟩
  have hS := t.toList_pairwise.filter (fun r => (compare r.1 k).isLE)
  have hbMem : (b, w) ∈ t.toList.filter (fun r => (compare r.1 k).isLE) :=
    List.mem_filter.mpr ⟨mem_toList.mpr hb, hk⟩
  rw [hI] at hS hbMem
  rcases List.mem_append.mp hbMem with hn | hbLast
  · have := (List.pairwise_append.mp hS).2.2 _ hn (a, v) (by simp)
    simp [this]
  · cases List.mem_singleton.mp hbLast
    simp

theorem set_all_eq {α : Type} {cm : α → α → Ordering} [Std.TransCmp cm] (s : Std.ExtTreeSet α cm) (p : α → Bool) :
    s.all p = s.toList.all p := by
  obtain ⟨⟨⟨t⟩⟩⟩ := s
  induction t using Quotient.inductionOn with
  | h t =>
    have ht : Std.DTreeMap.toList t = t.inner.toList := rfl
    change Std.DTreeMap.all t (fun a _ => p a) = (Std.DTreeMap.keys t).all p
    rw [Std.DTreeMap.all, Std.DTreeMap.Internal.Impl.all_eq_all_toListModel, ← Std.DTreeMap.map_fst_toList_eq_keys,
      List.all_map, ht, Std.DTreeMap.Internal.Impl.toList_eq_toListModel]
    rfl

end Table

export Table (get_insert insert_some get_erase of_erase mem_toList get_filter)
