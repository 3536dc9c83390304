/-
# Insertion-ordered tables

A table is the list of its rows.  A key keeps the place at which it first came, and a later
row under the same key only changes the value there: the order in which answers list their
keys is the order of first insertion.

* `get?_insert`, `get?_upsert`: what a lookup sees after an insertion;
* `keys_insert`, `keys_upsert`: an insertion adds its key at the end, or not at all;
* `get?_eq_none_iff`, `contains_iff`: a lookup finds something under exactly the keys;
* `get?_ofRows`: of several rows under one key a table has the last one;
* `ofRows_of_nodup`: with each key once, a table has its rows as they are.
-/
namespace QueryCompiler

/-- Rows of keys and values, in the order in which the keys first came. -/
abbrev Table (κ α : Type) := List (κ × α)

namespace Table

variable {κ α : Type} [BEq κ]

/-- The value of the first row under `k`. -/
def get? : Table κ α → κ → Option α
  | [], _ => none
  | (k', v) :: t, k => if k' == k then some v else get? t k

/-- Whether some row is under `k`. -/
def contains (t : Table κ α) (k : κ) : Bool := t.any (·.1 == k)

/-- The keys, in order. -/
def keys (t : Table κ α) : List κ := t.map (·.1)

/-- Puts `v` under `k`: in place when the key is there, at the end when it is not. -/
def insert : Table κ α → κ → α → Table κ α
  | [], k, v => [(k, v)]
  | (k', v') :: t, k, v => if k' == k then (k', v) :: t else (k', v') :: insert t k v

/-- Puts `f old` under `k` when the key is there, and `v` at the end when it is not. -/
def upsert : Table κ α → κ → (α → α) → α → Table κ α
  | [], k, _, v => [(k, v)]
  | (k', v') :: t, k, f, v =>
    if k' == k then (k', f v') :: t else (k', v') :: upsert t k f v

/-- Drops the rows under `k`. -/
def erase (t : Table κ α) (k : κ) : Table κ α := t.filter (fun row => !(row.1 == k))

/-- The table of a list of rows: first positions, last values. -/
def ofRows (rows : List (κ × α)) : Table κ α :=
  rows.foldl (fun t row => insert t row.1 row.2) []

section Lemmas

variable {κ α : Type} [DecidableEq κ]

@[simp] theorem get?_nil (k : κ) : get? ([] : Table κ α) k = none := rfl

theorem get?_cons (k' : κ) (v : α) (t : Table κ α) (k : κ) :
    get? ((k', v) :: t) k = if k' = k then some v else get? t k := by
  simp [get?]

theorem get?_insert_self (t : Table κ α) (k : κ) (v : α) : get? (insert t k v) k = some v := by
  induction t with
  | nil => simp [insert, get?]
  | cons row t ih => by_cases h : row.1 = k <;> simp [insert, get?, h, ih]

theorem get?_insert_of_ne (t : Table κ α) {k k' : κ} (v : α) (h : k ≠ k') :
    get? (insert t k v) k' = get? t k' := by
  induction t with
  | nil => simp [insert, get?, h]
  | cons row t ih =>
    obtain ⟨r, x⟩ := row
    by_cases hr : r = k
    · subst hr; simp [insert, get?, h]
    · simp [insert, get?, hr, ih]

theorem get?_insert (t : Table κ α) (k : κ) (v : α) (k' : κ) :
    get? (insert t k v) k' = if k = k' then some v else get? t k' := by
  by_cases h : k = k'
  · rw [if_pos h, ← h, get?_insert_self]
  · rw [if_neg h, get?_insert_of_ne t v h]

theorem mem_insert {t : Table κ α} {k : κ} {v : α} {row : κ × α} (h : row ∈ insert t k v) :
    row ∈ t ∨ row = (k, v) := by
  induction t with
  | nil => exact .inr (List.mem_singleton.mp h)
  | cons first t ih =>
    obtain ⟨r, x⟩ := first
    by_cases hr : r = k
    · subst hr
      rw [insert, if_pos (beq_self_eq_true r)] at h
      exact (List.mem_cons.mp h).symm.imp_left (List.mem_cons_of_mem _)
    · rw [insert, if_neg (by simpa using hr)] at h
      rcases List.mem_cons.mp h with rfl | h
      · exact .inl List.mem_cons_self
      · exact (ih h).imp_left (List.mem_cons_of_mem _)

theorem get?_upsert (t : Table κ α) (k : κ) (f : α → α) (v : α) (k' : κ) :
    get? (upsert t k f v) k' = if k = k' then some ((get? t k').elim v f) else get? t k' := by
  induction t with
  | nil => by_cases h : k = k' <;> simp [upsert, get?, h]
  | cons row t ih =>
    obtain ⟨r, x⟩ := row
    by_cases hr : r = k
    · subst hr
      by_cases h : r = k' <;> simp [upsert, get?, h]
    · by_cases h : r = k'
      · subst h
        have hk : ¬ k = r := fun e => hr e.symm
        simp [upsert, get?, hr, hk]
      · simp [upsert, get?, hr, h, ih]

theorem get?_eq_none_iff (t : Table κ α) (k : κ) : get? t k = none ↔ k ∉ keys t := by
  induction t with
  | nil => simp [keys]
  | cons row t ih =>
    obtain ⟨r, x⟩ := row
    rw [get?_cons]
    by_cases h : r = k
    · simp [h, keys]
    · rw [if_neg h, ih]
      have h' : ¬ k = r := fun e => h e.symm
      simp [keys, h']

theorem mem_keys_of_get? {t : Table κ α} {k : κ} {v : α} (h : get? t k = some v) : k ∈ keys t :=
  Decidable.byContradiction fun hn =>
    absurd (h.symm.trans ((get?_eq_none_iff t k).mpr hn)) nofun

theorem contains_iff (t : Table κ α) (k : κ) : contains t k = true ↔ k ∈ keys t := by
  simp [contains, keys, List.any_eq_true]

/-- What is found stands in a row. -/
theorem mem_of_get? {t : Table κ α} {k : κ} {v : α} (h : get? t k = some v) : (k, v) ∈ t := by
  induction t with
  | nil => exact absurd h (by simp)
  | cons row t ih =>
    obtain ⟨r, x⟩ := row
    rw [get?_cons] at h
    by_cases hr : r = k
    · rw [if_pos hr, Option.some.injEq] at h
      rw [hr, h]
      exact List.mem_cons_self
    · rw [if_neg hr] at h
      exact List.mem_cons_of_mem _ (ih h)

/-- With each key once, every row is found. -/
theorem get?_of_mem {t : Table κ α} (hd : (keys t).Nodup) {k : κ} {v : α} (h : (k, v) ∈ t) :
    get? t k = some v := by
  induction t with
  | nil => exact absurd h List.not_mem_nil
  | cons row t ih =>
    obtain ⟨r, x⟩ := row
    obtain ⟨hr, hd⟩ := List.nodup_cons.mp hd
    rw [get?_cons]
    rcases List.mem_cons.mp h with he | h
    · obtain ⟨rfl, rfl⟩ := Prod.mk.inj he
      rw [if_pos rfl]
    · have hk : k ∈ keys t := List.mem_map.mpr ⟨(k, v), h, rfl⟩
      have hne : ¬ r = k := fun he => hr (he ▸ hk)
      rw [if_neg hne]
      exact ih hd h

theorem get?_append (t s : Table κ α) (k : κ) : get? (t ++ s) k = (get? t k).or (get? s k) := by
  induction t with
  | nil => rfl
  | cons row t ih =>
    obtain ⟨r, x⟩ := row
    rw [List.cons_append, get?_cons, get?_cons, ih]
    split <;> rfl

theorem get?_map {β : Type} (f : α → β) (t : Table κ α) (k : κ) :
    get? (t.map fun row => (row.1, f row.2)) k = (get? t k).map f := by
  induction t with
  | nil => rfl
  | cons row t ih =>
    obtain ⟨r, x⟩ := row
    rw [List.map_cons, get?_cons, get?_cons, ih]
    split <;> rfl

/-- Of several rows put in one after the other the last one counts. -/
theorem get?_foldl_insert (rows : List (κ × α)) (t : Table κ α) (k : κ) :
    get? (rows.foldl (fun t row => insert t row.1 row.2) t) k
      = (get? rows.reverse k).or (get? t k) := by
  induction rows generalizing t with
  | nil => rfl
  | cons row rows ih =>
    obtain ⟨r, x⟩ := row
    rw [List.foldl_cons, ih, List.reverse_cons, get?_append, get?_insert, get?_cons,
      Option.or_assoc]
    by_cases h : r = k
    · rw [if_pos h, if_pos h, Option.some_or]
    · rw [if_neg h, if_neg h, get?_nil, Option.none_or]

theorem get?_ofRows (rows : List (κ × α)) (k : κ) :
    get? (ofRows rows) k = get? rows.reverse k := by
  rw [ofRows, get?_foldl_insert, get?_nil, Option.or_none]

theorem mem_keys_ofRows (rows : List (κ × α)) (k : κ) :
    k ∈ keys (ofRows rows) ↔ k ∈ keys rows := by
  rw [← Decidable.not_iff_not, ← get?_eq_none_iff, get?_ofRows, get?_eq_none_iff]
  simp [keys]

theorem mem_of_mem_ofRows {rows : List (κ × α)} {row : κ × α} (h : row ∈ ofRows rows) :
    row ∈ rows := by
  have hfold : ∀ (rows : List (κ × α)) (t : Table κ α),
      row ∈ rows.foldl (fun t row => insert t row.1 row.2) t → row ∈ t ∨ row ∈ rows := by
    intro rows
    induction rows with
    | nil => exact fun t ht => .inl ht
    | cons first rows ih =>
      intro t ht
      rcases ih _ ht with ht | hrow
      · rcases mem_insert ht with ht | rfl
        · exact .inl ht
        · exact .inr List.mem_cons_self
      · exact .inr (List.mem_cons_of_mem _ hrow)
  exact (hfold rows [] h).resolve_left List.not_mem_nil

theorem insert_of_notMem {t : Table κ α} {k : κ} (h : k ∉ keys t) (v : α) :
    insert t k v = t ++ [(k, v)] := by
  induction t with
  | nil => rfl
  | cons row t ih =>
    obtain ⟨r, x⟩ := row
    simp only [keys, List.map_cons, List.mem_cons, not_or] at h
    have hr : ¬ r = k := fun e => h.1 e.symm
    simp [insert, hr, ih h.2]

/-- What stands there already is put in place of itself. -/
theorem insert_of_get? {t : Table κ α} {k : κ} {v : α} (h : get? t k = some v) :
    insert t k v = t := by
  induction t with
  | nil => exact absurd h (by simp)
  | cons row t ih =>
    obtain ⟨r, x⟩ := row
    rw [get?_cons] at h
    by_cases hr : r = k
    · rw [if_pos hr, Option.some.injEq] at h
      rw [insert, if_pos (by simpa using hr), h]
    · rw [if_neg hr] at h
      rw [insert, if_neg (by simpa using hr), ih h]

theorem ofRows_of_nodup {rows : List (κ × α)} (h : (keys rows).Nodup) : ofRows rows = rows := by
  have hfold : ∀ (rows : List (κ × α)) (t : Table κ α), (keys (t ++ rows)).Nodup →
      rows.foldl (fun t row => insert t row.1 row.2) t = t ++ rows := by
    intro rows
    induction rows with
    | nil => exact fun t _ => (List.append_nil t).symm
    | cons row rows ih =>
      intro t hd
      have hrow : row.1 ∉ keys t := by
        simp only [keys, List.map_append, List.map_cons, List.nodup_append, List.mem_cons] at hd
        exact fun hmem => hd.2.2 _ hmem row.1 (.inl rfl) rfl
      rw [List.foldl_cons, insert_of_notMem hrow, ih _ (by simpa using hd)]
      simp
  exact hfold rows [] h

theorem keys_upsert (t : Table κ α) (k : κ) (f : α → α) (v : α) :
    keys (upsert t k f v) = if k ∈ keys t then keys t else keys t ++ [k] := by
  induction t with
  | nil => simp [upsert, keys]
  | cons row t ih =>
    obtain ⟨k', v'⟩ := row
    by_cases h : k' = k
    · subst h; simp [upsert, keys]
    · simp only [keys] at ih
      have h' : ¬ k = k' := fun e => h e.symm
      by_cases hm : k ∈ List.map (fun x => x.fst) t <;> simp_all [upsert, keys]

theorem keys_insert (t : Table κ α) (k : κ) (v : α) :
    keys (insert t k v) = if k ∈ keys t then keys t else keys t ++ [k] := by
  induction t with
  | nil => simp [insert, keys]
  | cons row t ih =>
    obtain ⟨k', v'⟩ := row
    by_cases h : k' = k
    · subst h; simp [insert, keys]
    · simp only [keys] at ih
      have h' : ¬ k = k' := fun e => h e.symm
      by_cases hm : k ∈ List.map (fun x => x.fst) t <;> simp_all [insert, keys]

theorem upsert_of_notMem {t : Table κ α} {k : κ} (h : k ∉ keys t) (f : α → α) (v : α) :
    upsert t k f v = t ++ [(k, v)] := by
  induction t with
  | nil => rfl
  | cons row t ih =>
    obtain ⟨r, x⟩ := row
    simp only [keys, List.map_cons, List.mem_cons, not_or] at h
    have hr : ¬ r = k := fun e => h.1 e.symm
    simp [upsert, hr, ih h.2]

end Lemmas

end Table

end QueryCompiler
