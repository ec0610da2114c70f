/-
  Dictionaries whose values are replaced, and dictionaries of many entries.

  A value that is replaced leaves the order of a dictionary alone, so it does not
  matter when that is done. Entries that are put in one after the other come to the
  same as their last values in the order of their first ones
  (`Dictionary.insertAll_ofEntries`).
-/
import DataMarks.Dictionary
import Mathlib.Data.List.Induction

namespace DataMarks.Dictionary

open List

variable {α : Type}
variable {β : Type} {d : Dictionary α} {k : String} {v : α}

/-! ## Replaced values -/

/-- Puts a value in place of what is under a key. -/
def replace (k : String) (v : α) (d : Dictionary α) : Dictionary α :=
  d.map fun e => if e.1 = k then (k, v) else e

theorem replace_cons (k : String) (v : α) (e : String × α) (d : Dictionary α) :
    replace k v (e :: d) = (if e.1 = k then (k, v) else e) :: replace k v d := rfl

@[simp] theorem keys_replace (k : String) (v : α) (d : Dictionary α) :
    keys (replace k v d) = keys d := by
  induction d with
  | nil => rfl
  | cons e d ih =>
    simp only [keys, replace, map_cons] at ih ⊢
    rw [ih]
    split
    · rename_i h
      rw [h]
    · rfl

theorem contains_eq_of_keys {d' : Dictionary β} (h : keys d' = keys d) (k : String) :
    d'.contains k = d.contains k := by
  have hiff : d'.contains k = true ↔ d.contains k = true := by
    rw [contains, contains, ← mem_keys_iff, ← mem_keys_iff, h]
  exact Bool.eq_iff_iff.mpr hiff

theorem replace_of_not_mem_keys (h : k ∉ keys d) : replace k v d = d := by
  induction d with
  | nil => rfl
  | cons e d ih =>
    simp only [keys, map_cons, mem_cons, not_or] at h ih
    rw [replace_cons, if_neg (Ne.symm h.1), ih h.2]

theorem replace_eq_self (h : ∀ e ∈ d, e.1 = k → e.2 = v) : replace k v d = d := by
  induction d with
  | nil => rfl
  | cons e d ih =>
    rw [replace_cons, ih fun e' he' => h e' (mem_cons_of_mem _ he')]
    split
    · rename_i hk
      rw [← hk, ← h e mem_cons_self hk]
    · rfl

theorem get?_replace (k k' : String) (v : α) (d : Dictionary α) :
    get? (replace k v d) k' = if k' = k then (get? d k).map fun _ => v else get? d k' := by
  induction d with
  | nil => simp [replace]
  | cons e d ih =>
    rw [replace_cons, get?_cons, get?_cons, get?_cons, ih]
    by_cases he : e.1 = k
    · by_cases hk : k' = k <;> simp [he, hk]
    · by_cases hk : k' = k
      · simp [he, hk, Ne.symm he]
      · simp [he, hk]

theorem replace_insert_of_ne {k' : String} (h : k' ≠ k) (v v' : α) (d : Dictionary α) :
    replace k v (insert k' v' d) = insert k' v' (replace k v d) := by
  induction d with
  | nil =>
    rw [insert, replace_cons, if_neg h]
    rfl
  | cons e d ih =>
    rw [insert, replace_cons]
    by_cases he : e.1 = k'
    · have hk : e.1 ≠ k := fun hk => h (he.symm.trans hk)
      rw [if_pos he, if_neg hk, replace_cons, if_neg h, insert, if_pos he]
    · have hhead : (if e.1 = k then (k, v) else e).1 ≠ k' := by
        split
        · exact h.symm
        · exact he
      rw [if_neg he, replace_cons, ih, insert, if_neg hhead]

theorem replace_erase (k k' : String) (v : α) (d : Dictionary α) :
    replace k v (erase k' d) = erase k' (replace k v d) := by
  rw [erase, erase, replace, replace, filter_map]
  congr 1
  refine filter_congr fun e _ => ?_
  show (e.1 != k') = ((if e.1 = k then (k, v) else e).1 != k')
  split
  · rename_i h
    rw [h]
  · rfl

theorem erase_of_not_mem_keys (h : k ∉ keys d) : erase k d = d := by
  rw [erase, filter_eq_self]
  intro e he
  rw [bne_iff_ne]
  rintro rfl
  exact h (mem_map_of_mem he)

/-- The entry that is found stands behind entries of other keys. -/
theorem exists_split_of_get? (h : get? d k = some v) :
    ∃ later, d = d.takeWhile (fun e => e.1 != k) ++ (k, v) :: later := by
  induction d with
  | nil => cases h
  | cons e d ih =>
    rw [get?_cons] at h
    by_cases he : k = e.1
    · rw [if_pos he] at h
      cases h
      exact ⟨d, by simp [he]⟩
    · rw [if_neg he] at h
      obtain ⟨later, hlater⟩ := ih h
      refine ⟨later, ?_⟩
      rw [takeWhile_cons_of_pos (by simpa using Ne.symm he), cons_append, ← hlater]

theorem nodup_keys_erase (h : d.keys.Nodup) : (erase k d).keys.Nodup := by
  rw [keys_erase]
  exact h.filter _

/-! ## Many entries -/

/-- Puts in entries one after the other. -/
def insertAll (es : List (String × α)) (d : Dictionary α) : Dictionary α :=
  es.foldl (fun d e => insert e.1 e.2 d) d

theorem insertAll_cons (e : String × α) (es : List (String × α)) (d : Dictionary α) :
    insertAll (e :: es) d = insertAll es (insert e.1 e.2 d) := rfl

theorem insertAll_append (es fs : List (String × α)) (d : Dictionary α) :
    insertAll (es ++ fs) d = insertAll fs (insertAll es d) := foldl_append

theorem ofEntries_concat (es : List (String × α)) (e : String × α) :
    ofEntries (es ++ [e]) = insert e.1 e.2 (ofEntries es) := insertAll_append es [e] []

theorem mem_keys_ofEntries {es : List (String × α)} : k ∈ keys (ofEntries es) ↔ k ∈ keys es := by
  induction es using List.reverseRecOn with
  | nil => rfl
  | append_singleton es e ih =>
    rw [ofEntries_concat, mem_keys_insert_iff, ih]
    simp only [keys, map_append, mem_append, map_cons, map_nil, mem_singleton]
    exact or_comm

theorem mem_of_mem_ofEntries {es : List (String × α)} {e : String × α} (h : e ∈ ofEntries es) :
    e ∈ es := by
  induction es using List.reverseRecOn with
  | nil => cases h
  | append_singleton es e' ih =>
    rw [ofEntries_concat] at h
    obtain rfl | h := eq_or_mem_of_mem_insert h
    · exact mem_append_right _ mem_cons_self
    · exact mem_append_left _ (ih h)

theorem nodup_keys_ofEntries (es : List (String × α)) : (ofEntries es).keys.Nodup := by
  induction es using List.reverseRecOn with
  | nil => exact nodup_nil
  | append_singleton es e ih =>
    rw [ofEntries_concat]
    exact nodup_keys_insert ih

theorem insert_insert_self (k : String) (v w : α) (d : Dictionary α) :
    insert k v (insert k w d) = insert k v d := by
  induction d with
  | nil => simp [insert]
  | cons e d ih =>
    rw [insert, insert]
    split
    · rw [insert, if_pos rfl]
    · rename_i h
      rw [insert, if_neg h, ih]

/-- A new value for a key that is there can come before or after another key. -/
theorem insert_comm_of_mem {k' : String} {v' : α} (hk : k ∈ keys d) (hne : k' ≠ k) :
    insert k v (insert k' v' d) = insert k' v' (insert k v d) := by
  induction d with
  | nil => cases hk
  | cons e d ih =>
    simp only [keys, map_cons, mem_cons] at hk ih
    by_cases he : e.1 = k
    · have he' : e.1 ≠ k' := fun h => hne (h.symm.trans he)
      rw [insert, if_neg he', insert, if_pos he, insert, if_pos he, insert, if_neg (Ne.symm hne)]
    · by_cases he' : e.1 = k'
      · rw [insert, if_pos he', insert, if_neg hne, insert, if_neg he, insert, if_pos he']
      · rw [insert, if_neg he', insert, if_neg he, insert, if_neg he, insert, if_neg he',
          ih (hk.resolve_left (Ne.symm he))]

theorem insertAll_insert_of_mem {es : Dictionary α} (hk : k ∈ keys d) (hes : k ∉ keys es) :
    insertAll es (insert k v d) = insert k v (insertAll es d) := by
  induction es generalizing d with
  | nil => rfl
  | cons e es ih =>
    simp only [keys, map_cons, mem_cons, not_or] at hes ih
    rw [insertAll_cons, insertAll_cons, ← insert_comm_of_mem hk (Ne.symm hes.1)]
    exact ih (keys_subset_insert _ _ _ hk) hes.2

theorem insertAll_insert {es : Dictionary α} (hes : es.keys.Nodup) :
    insertAll (insert k v es) d = insert k v (insertAll es d) := by
  induction es generalizing d with
  | nil => rfl
  | cons e es ih =>
    simp only [keys, map_cons, nodup_cons] at hes ih
    rw [insert]
    by_cases he : e.1 = k
    · rw [if_pos he, insertAll_cons, insertAll_cons, he, ← insertAll_insert_of_mem
        (mem_keys_insert_self _ _ _) (he ▸ hes.1), insert_insert_self]
    · rw [if_neg he, insertAll_cons, insertAll_cons, ih hes.2]

/-- Only the last value of each key counts, at the place of its first one. -/
theorem insertAll_ofEntries (es : List (String × α)) (d : Dictionary α) :
    insertAll (ofEntries es) d = insertAll es d := by
  induction es using List.reverseRecOn with
  | nil => rfl
  | append_singleton es e ih =>
    rw [ofEntries_concat, insertAll_insert (nodup_keys_ofEntries es), ih, insertAll_append]
    rfl

/-- The last entry for a key counts, and what was there before if there is none. -/
theorem get?_insertAll (es : List (String × α)) (d : Dictionary α) (k : String) :
    get? (insertAll es d) k = (get? (ofEntries es) k).or (get? d k) := by
  induction es using List.reverseRecOn with
  | nil => rfl
  | append_singleton es e ih =>
    have hlast : insertAll (es ++ [e]) d = insert e.1 e.2 (insertAll es d) := insertAll_append es [e] d
    rw [hlast, ofEntries_concat, get?_insert, get?_insert, ih]
    split <;> rfl

/-- Takes out the keys of entries. -/
def eraseAll {β : Type} (es : List (String × β)) (d : Dictionary α) : Dictionary α :=
  es.foldl (fun d e => erase e.1 d) d

theorem eraseAll_eq_filter (es : Dictionary β) (d : Dictionary α) :
    eraseAll es d = d.filter fun e => decide (e.1 ∉ keys es) := by
  induction es generalizing d with
  | nil => simp [eraseAll, keys, filter_eq_self.mpr]
  | cons e es ih =>
    rw [eraseAll, foldl_cons]
    refine (ih _).trans ?_
    rw [erase, filter_filter]
    refine filter_congr fun x _ => ?_
    simp only [keys, map_cons, mem_cons, not_or, bne, Bool.decide_and]
    rw [Bool.and_comm]
    congr 1
    by_cases h : x.1 = e.1 <;> simp [h]

theorem eraseAll_ofEntries (es : List (String × β)) (d : Dictionary α) :
    eraseAll (ofEntries es) d = eraseAll es d := by
  rw [eraseAll_eq_filter, eraseAll_eq_filter]
  exact filter_congr fun x _ => by simp only [mem_keys_ofEntries]

end DataMarks.Dictionary
