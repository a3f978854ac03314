import NmpStore.Lib.Table

/-! # Shared vocabulary of the store -/

namespace NmpStore

export List (mem_map mem_append mem_filter mem_cons mem_singleton map_map mem_map_of_mem pairwise_map foldl_cons
  map_cons map_append mem_flatMap mem_append_left nodup_append length_append mem_filterMap not_mem_nil
  getElem?_eq_getElem perm_insertionSort length_map mem_cons_self getElem?_eq_some_iff mem_append_right
  pairwise_cons foldlM_cons inj_on_of_nodup_map nodup_nil pairwise_append mem_of_getElem? subperm_of_subset
  nodup_cons length_cons contains_iff_mem append_assoc mem_flatten nil_append append_nil map_nil
  filter_eq_nil_iff flatMap_cons mem_cons_of_mem all_eq_true count_pos_iff count_nil sublist_append_right forall₂_same
  count_append getElem_of_mem countP_eq_zero exists_mem_of_ne_nil find?_some)
export Option (map_eq_some_iff isSome_iff_exists bind_eq_some_iff eq_none_iff_forall_ne_some map_some getD_some
  filter_eq_some_iff any_some isSome_iff_ne_none isSome_some isNone_iff_eq_none bind_some isSome_none
  any_eq_true elim_some)
export Bool (and_eq_true false_eq_true not_eq_true' not_eq_true or_eq_true)
export Std (ExtTreeSet TransOrd TransCmp LawfulEqOrd)
export Std.ExtTreeMap (mem_keys mem_iff_isSome_getElem? getElem?_map map_fst_toList_eq_keys length_toList keys_eq_nil_iff
  nodup_keys length_keys contains_eq_isSome_getElem?)
export Std.ExtTreeSet (mem_ofList mem_union_iff mem_insert mem_erase mem_diff_iff ordered_toList ext_mem)
export Function (update update_apply update_of_ne update_self update_idem)

instance transNat3 : TransOrd (Nat × Nat × Nat) := inferInstance
instance transNatsString : TransOrd (Nat × Nat × String) := inferInstance
instance transNat3String : TransOrd (Nat × Nat × Nat × String) := inferInstance
instance transOptions : TransOrd (String × Option Nat) := inferInstance
instance lawfulOptions : LawfulBEq (String × Option Nat) := inferInstance
instance transNatOptions : TransOrd (String × Nat × Option Nat) := inferInstance
instance transOptionsNat : TransOrd ((String × Option Nat) × Nat) := inferInstance
instance transOptionPairs : TransOrd ((String × Option Nat) × String × Nat × Option Nat) := inferInstance

structure PersistenceError where
  message : String
  deriving DecidableEq

abbrev Result := Except PersistenceError

abbrev EventKey := Nat
abbrev Bytes := List UInt8

def u32Max : Nat := 2 ^ 32 - 1
def u64Max : Nat := 2 ^ 64 - 1

end NmpStore
