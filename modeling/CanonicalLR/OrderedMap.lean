/-!
# Maps that remember the order of insertion

Each key has one entry, at the place where the key was first written and with the value that was written last.
`get?_insert` says what a write does to a look-up, `keys_insert` what it does to the order.
-/

namespace CanonicalLR

/-- A finite map whose entries stand in the order in which their keys were first written. -/
structure OrderedMap (κ ν : Type) where
  /-- The entries, oldest key first. -/
  entries : List (κ × ν)
  /-- No key has two entries. -/
  distinct : (entries.map Prod.fst).Nodup

namespace OrderedMap

variable {κ ν : Type}

/-- The map without entries. -/
def empty : OrderedMap κ ν := ⟨[], .nil⟩

/-- The keys, in the order in which they were first written. -/
def keys (m : OrderedMap κ ν) : List κ := m.entries.map Prod.fst

/-- The number of entries. -/
def size (m : OrderedMap κ ν) : Nat := m.entries.length

variable [DecidableEq κ]

/-- The value beside the first entry with key `k`. -/
def find? (k : κ) : List (κ × ν) → Option ν
  | [] => none
  | e :: es => if e.1 = k then some e.2 else find? k es

/-- The value of the key `k`. -/
def get? (m : OrderedMap κ ν) (k : κ) : Option ν := find? k m.entries

theorem find?_eq_some_iff {k : κ} {v : ν} {es : List (κ × ν)} (h : (es.map Prod.fst).Nodup) :
    find? k es = some v ↔ (k, v) ∈ es := by
  induction es with
  | nil => simp [find?]
  | cons e es ih =>
    obtain ⟨hn, h⟩ := List.nodup_cons.mp h
    simp only [find?, List.mem_cons]
    split
    · rename_i he
      subst he
      constructor
      · intro hv
        rw [Option.some.injEq] at hv
        exact .inl (by rw [← hv])
      · rintro (he | he)
        · rw [← he]
        · exact absurd (List.mem_map_of_mem he) hn
    · rename_i he
      rw [ih h]
      constructor
      · exact .inr
      · rintro (hk | hk)
        · exact absurd (by rw [← hk]) he
        · exact hk

/-- A look-up finds the entry of the key. -/
theorem get?_eq_some_iff {m : OrderedMap κ ν} {k : κ} {v : ν} : m.get? k = some v ↔ (k, v) ∈ m.entries :=
  find?_eq_some_iff m.distinct

/-- The keys are those with a value. -/
theorem mem_keys_iff {m : OrderedMap κ ν} {k : κ} : k ∈ m.keys ↔ ∃ v, m.get? k = some v := by
  rw [keys, List.mem_map]
  constructor
  · rintro ⟨⟨_, v⟩, he, rfl⟩
    exact ⟨v, get?_eq_some_iff.mpr he⟩
  · rintro ⟨v, hv⟩
    exact ⟨(k, v), get?_eq_some_iff.mp hv, rfl⟩

/-- Writes the value of `k` into a list of entries. -/
def put (k : κ) (v : ν) : List (κ × ν) → List (κ × ν)
  | [] => [(k, v)]
  | e :: es => if e.1 = k then (k, v) :: es else e :: put k v es

theorem map_fst_put {k : κ} {v : ν} {es : List (κ × ν)} :
    (put k v es).map Prod.fst = if k ∈ es.map Prod.fst then es.map Prod.fst else es.map Prod.fst ++ [k] := by
  induction es with
  | nil => simp [put]
  | cons e es ih =>
    simp only [put]
    split
    · rename_i h
      simp [h]
    · rename_i h
      simp only [List.map_cons, ih, List.mem_cons, Ne.symm h, false_or]
      split <;> simp

theorem find?_put {k k' : κ} {v : ν} {es : List (κ × ν)} :
    find? k' (put k v es) = if k = k' then some v else find? k' es := by
  induction es with
  | nil => simp [put, find?]
  | cons e es ih =>
    simp only [put]
    split
    · rename_i h
      simp only [find?, h]
      split <;> rfl
    · rename_i h
      simp only [find?, ih]
      grind

/-- Writes the value of a key: at the key's place if it has one, at the end if not. -/
def insert (m : OrderedMap κ ν) (k : κ) (v : ν) : OrderedMap κ ν where
  entries := put k v m.entries
  distinct := by
    rw [map_fst_put]
    split
    · exact m.distinct
    · rename_i h
      refine List.nodup_append.mpr ⟨m.distinct, by simp, ?_⟩
      intro a ha b hb hab
      rw [List.mem_singleton] at hb
      exact h (hb ▸ hab ▸ ha)

theorem get?_insert {m : OrderedMap κ ν} {k k' : κ} {v : ν} :
    (m.insert k v).get? k' = if k = k' then some v else m.get? k' := find?_put

theorem keys_insert {m : OrderedMap κ ν} {k : κ} {v : ν} :
    (m.insert k v).keys = if k ∈ m.keys then m.keys else m.keys ++ [k] := map_fst_put

/-- The map that results from writing all entries of a list, first to last. -/
def ofList (es : List (κ × ν)) : OrderedMap κ ν := es.foldl (fun m e => m.insert e.1 e.2) empty

theorem mem_keys_foldl_insert {k : κ} {es : List (κ × ν)} {m : OrderedMap κ ν} :
    k ∈ (es.foldl (fun m e => m.insert e.1 e.2) m).keys ↔ k ∈ m.keys ∨ k ∈ es.map Prod.fst := by
  induction es generalizing m with
  | nil => simp
  | cons e es ih =>
    simp only [List.foldl_cons, ih, keys_insert, List.map_cons, List.mem_cons]
    split <;> grind

/-- The keys of a map that was written from a list are those of the list. -/
theorem mem_keys_ofList {k : κ} {es : List (κ × ν)} : k ∈ (ofList es).keys ↔ k ∈ es.map Prod.fst := by
  rw [ofList, mem_keys_foldl_insert]
  simp [empty, keys]

/-- A new key goes to the end. -/
theorem put_of_not_mem {k : κ} {v : ν} {es : List (κ × ν)} (h : k ∉ es.map Prod.fst) : put k v es = es ++ [(k, v)] := by
  induction es with
  | nil => rfl
  | cons e es ih =>
    simp only [List.map_cons, List.mem_cons, not_or] at h
    simp only [put, if_neg (Ne.symm h.1), ih h.2, List.cons_append]

theorem entries_foldl_insert {es : List (κ × ν)} {m : OrderedMap κ ν} (h : (m.keys ++ es.map Prod.fst).Nodup) :
    (es.foldl (fun m e => m.insert e.1 e.2) m).entries = m.entries ++ es := by
  induction es generalizing m with
  | nil => simp
  | cons e es ih =>
    have hn : e.1 ∉ m.keys := fun hm =>
      (List.nodup_append.mp h).2.2 e.1 hm e.1 (by simp) rfl
    have he : (m.insert e.1 e.2).entries = m.entries ++ [e] := put_of_not_mem hn
    have hk : (m.insert e.1 e.2).keys = m.keys ++ [e.1] := by rw [keys_insert, if_neg hn]
    rw [List.foldl_cons, ih, he, List.append_assoc, List.singleton_append]
    rw [hk, List.append_assoc, List.singleton_append]
    simpa using h

/-- A map that was written from entries with different keys has these entries. -/
theorem entries_ofList {es : List (κ × ν)} (h : (es.map Prod.fst).Nodup) : (ofList es).entries = es := by
  rw [ofList, entries_foldl_insert (by simpa [empty, keys] using h)]
  rfl

/-- A look-up in a map that was written from entries with different keys finds the entry of the key. -/
theorem get?_ofList_eq_some_iff {es : List (κ × ν)} (h : (es.map Prod.fst).Nodup) {k : κ} {v : ν} :
    (ofList es).get? k = some v ↔ (k, v) ∈ es := by
  rw [get?_eq_some_iff, entries_ofList h]

end OrderedMap

end CanonicalLR
