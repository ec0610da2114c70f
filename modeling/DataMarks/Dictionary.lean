/-
  Dictionaries that keep their entries in the order in which the keys were first
  put in. Putting in a key again changes its value and leaves its place.
-/

namespace DataMarks

/-- Values by name, in order of first insertion. -/
abbrev Dictionary (α : Type) := List (String × α)

namespace Dictionary

variable {α : Type}

def get? (d : Dictionary α) (k : String) : Option α := List.lookup k d

def keys (d : Dictionary α) : List String := d.map Prod.fst

def contains (d : Dictionary α) (k : String) : Bool := (d.get? k).isSome

def insert (k : String) (v : α) : Dictionary α → Dictionary α
  | [] => [(k, v)]
  | e :: d => if e.1 = k then (k, v) :: d else e :: insert k v d

def erase (k : String) (d : Dictionary α) : Dictionary α := d.filter (·.1 != k)

/-- Puts in the entries one after the other. -/
def ofEntries (es : List (String × α)) : Dictionary α :=
  es.foldl (fun d e => insert e.1 e.2 d) []

@[simp] theorem get?_nil (k : String) : get? ([] : Dictionary α) k = none := rfl

theorem get?_cons (e : String × α) (d : Dictionary α) (k : String) :
    get? (e :: d) k = if k = e.1 then some e.2 else get? d k := by
  obtain ⟨k', v⟩ := e
  by_cases h : k = k'
  · simp [get?, h]
  · have hb : (k == k') = false := by simp [h]
    simp [get?, List.lookup_cons, h, hb]

@[simp] theorem get?_insert_self (k : String) (v : α) (d : Dictionary α) :
    get? (insert k v d) k = some v := by
  induction d with
  | nil => simp [insert, get?_cons]
  | cons e d ih =>
    by_cases h : e.1 = k
    · simp [insert, h, get?_cons]
    · have h' : ¬ k = e.1 := fun he => h he.symm
      simp [insert, h, get?_cons, h', ih]

theorem get?_insert_of_ne {k k' : String} (h : k' ≠ k) (v : α) (d : Dictionary α) :
    get? (insert k v d) k' = get? d k' := by
  induction d with
  | nil => simp [insert, get?_cons, h]
  | cons e d ih =>
    by_cases he : e.1 = k
    · subst he; simp [insert, get?_cons, h]
    · simp [insert, he, get?_cons, ih]

theorem get?_insert (k k' : String) (v : α) (d : Dictionary α) :
    get? (insert k v d) k' = if k' = k then some v else get? d k' := by
  by_cases h : k' = k
  · subst h; simp
  · simp [h, get?_insert_of_ne h]

/-- A new key goes to the end, and a key that is there keeps its place. -/
theorem keys_insert (k : String) (v : α) (d : Dictionary α) :
    keys (insert k v d) = if k ∈ keys d then keys d else keys d ++ [k] := by
  induction d with
  | nil => simp [insert, keys]
  | cons e d ih =>
    simp only [keys] at ih ⊢
    by_cases h : e.1 = k
    · simp [insert, h]
    · have h' : ¬ k = e.1 := fun he => h he.symm
      by_cases hm : k ∈ List.map Prod.fst d <;> simp_all [insert]

theorem get?_erase (k k' : String) (d : Dictionary α) :
    get? (erase k d) k' = if k' = k then none else get? d k' := by
  induction d with
  | nil => simp [erase]
  | cons e d ih =>
    simp only [erase] at ih ⊢
    by_cases h : e.1 = k
    · by_cases h' : k' = k <;> simp_all [get?_cons]
    · by_cases h' : k' = e.1 <;> simp_all [get?_cons]

/-- The keys that are left keep their order. -/
theorem keys_erase (k : String) (d : Dictionary α) :
    keys (erase k d) = (keys d).filter (· != k) := by
  simp [keys, erase, List.filter_map, Function.comp_def]

theorem mem_keys_iff (k : String) (d : Dictionary α) : k ∈ keys d ↔ (get? d k).isSome := by
  induction d with
  | nil => simp [keys]
  | cons e d ih =>
    simp only [keys] at ih
    by_cases h : k = e.1
    · simp [keys, get?_cons, h]
    · simp [keys, get?_cons, h, ih]

theorem mem_keys_of_get? {k : String} {v : α} {d : Dictionary α} (h : get? d k = some v) :
    k ∈ keys d := by
  rw [mem_keys_iff, h]
  rfl

theorem exists_of_mem_keys {k : String} {d : Dictionary α} (h : k ∈ keys d) :
    ∃ v, get? d k = some v :=
  Option.isSome_iff_exists.mp ((mem_keys_iff k d).mp h)

theorem not_mem_keys_iff (k : String) (d : Dictionary α) : k ∉ keys d ↔ get? d k = none := by
  rw [mem_keys_iff, Bool.not_eq_true, Option.isSome_eq_false_iff, Option.isNone_iff_eq_none]

theorem get?_insert_cases {k k' : String} {v w : α} {d : Dictionary α}
    (h : get? (insert k v d) k' = some w) : k' = k ∧ w = v ∨ get? d k' = some w := by
  rw [get?_insert] at h
  split at h
  · rename_i hk
    exact .inl ⟨hk, (Option.some.inj h).symm⟩
  · exact .inr h

theorem mem_keys_insert_iff {k k' : String} {v : α} {d : Dictionary α} :
    k' ∈ keys (insert k v d) ↔ k' = k ∨ k' ∈ keys d := by
  rw [mem_keys_iff, mem_keys_iff, get?_insert]
  split <;> simp [*]

theorem mem_keys_insert_self (k : String) (v : α) (d : Dictionary α) : k ∈ keys (insert k v d) :=
  mem_keys_of_get? (get?_insert_self k v d)

theorem keys_subset_insert (k : String) (v : α) (d : Dictionary α) :
    keys d ⊆ keys (insert k v d) :=
  fun _ hx => mem_keys_insert_iff.mpr (.inr hx)

theorem mem_of_get? {k : String} {v : α} {d : Dictionary α} (h : get? d k = some v) :
    (k, v) ∈ d := by
  induction d with
  | nil => cases h
  | cons e d ih =>
    rw [get?_cons] at h
    split at h
    · rename_i hk
      cases h
      rw [hk]
      exact List.mem_cons_self
    · exact List.mem_cons_of_mem _ (ih h)

theorem eq_or_mem_of_mem_insert {k : String} {v : α} {d : Dictionary α} {e : String × α}
    (h : e ∈ insert k v d) : e = (k, v) ∨ e ∈ d := by
  induction d with
  | nil => exact .inl (List.mem_singleton.mp h)
  | cons f d ih =>
    rw [insert] at h
    split at h
    · exact (List.mem_cons.mp h).imp id (List.mem_cons_of_mem _)
    · rcases List.mem_cons.mp h with rfl | h
      · exact .inr List.mem_cons_self
      · exact (ih h).imp id (List.mem_cons_of_mem _)

theorem nodup_keys_insert {k : String} {v : α} {d : Dictionary α} (h : d.keys.Nodup) :
    (insert k v d).keys.Nodup := by
  rw [keys_insert]
  split
  · exact h
  · rename_i hk
    rw [List.nodup_append]
    refine ⟨h, by simp, ?_⟩
    intro x hx y hy
    rw [List.mem_singleton] at hy
    rintro rfl
    exact hk (hy ▸ hx)

/-- Where no key is there twice, an entry is what is found under its key. -/
theorem get?_of_mem {k : String} {v : α} {d : Dictionary α} (hd : d.keys.Nodup)
    (h : (k, v) ∈ d) : get? d k = some v := by
  induction d with
  | nil => cases h
  | cons e d ih =>
    simp only [keys, List.map_cons, List.nodup_cons] at hd ih
    rw [get?_cons]
    rcases List.mem_cons.mp h with rfl | h
    · rw [if_pos rfl]
    · rw [if_neg, ih hd.2 h]
      intro heq
      exact hd.1 (heq ▸ List.mem_map_of_mem h)

theorem insert_of_not_mem_keys {k : String} {v : α} {d : Dictionary α} (h : k ∉ keys d) :
    insert k v d = d ++ [(k, v)] := by
  induction d with
  | nil => rfl
  | cons e d ih =>
    simp only [keys, List.map_cons, List.mem_cons, not_or] at h ih
    rw [insert, if_neg (Ne.symm h.1), ih h.2]
    rfl

theorem get?_append (d e : Dictionary α) (k : String) :
    get? (d ++ e) k = (get? d k <|> get? e k) := by
  induction d with
  | nil => rfl
  | cons a d ih =>
    rw [List.cons_append, get?_cons, get?_cons, ih]
    split <;> rfl

theorem get?_map {β : Type} (f : String × α → β) (d : Dictionary α) (k : String) :
    get? (d.map fun e => (e.1, f e)) k = (get? d k).map fun a => f (k, a) := by
  induction d with
  | nil => rfl
  | cons e d ih =>
    rw [List.map_cons, get?_cons, get?_cons, ih]
    split
    · rename_i h
      rw [h]
      rfl
    · rfl

theorem get?_filter (p : String → Bool) (d : Dictionary α) (k : String) :
    get? (d.filter fun e => p e.1) k = if p k then get? d k else none := by
  induction d with
  | nil => simp
  | cons e d ih =>
    by_cases hk : k = e.1
    · by_cases hp : p e.1 <;> simp_all [get?_cons]
    · by_cases hp : p e.1 <;> simp_all [get?_cons]

end Dictionary

end DataMarks
