/-!
# Tables

Values under keys, in the order in which the keys were first put in. Putting a value under a key
that has one replaces it in its place, so a table built by `Table.put` has every key once.
-/

namespace CircuitReceipts

abbrev Table (κ α : Type) := List (κ × α)

namespace Table

variable {κ α : Type} [DecidableEq κ]

/-- The table with the value of a key replaced, or with the key added at the end. -/
def put (key : κ) (v : α) : Table κ α → Table κ α
  | [] => [(key, v)]
  | (k, w) :: rest => if k = key then (k, v) :: rest else (k, w) :: put key v rest

def get? (key : κ) : Table κ α → Option α
  | [] => none
  | (k, v) :: rest => if k = key then some v else get? key rest

def keys (t : Table κ α) : List κ :=
  t.map (·.1)

/-- The table of a list of entries, put in one after another. -/
def ofEntries (entries : List (κ × α)) : Table κ α :=
  entries.foldl (fun t e => put e.1 e.2 t) []

@[simp] theorem get?_nil (key : κ) : get? key ([] : Table κ α) = none := rfl

theorem get?_cons (key : κ) (e : κ × α) (rest : Table κ α) :
    get? key (e :: rest) = if e.1 = key then some e.2 else get? key rest := rfl

/-- The value last put under a key is found there, and the other keys keep theirs. -/
theorem get?_put (key other : κ) (v : α) (t : Table κ α) :
    get? other (put key v t) = if key = other then some v else get? other t := by
  induction t with
  | nil => rfl
  | cons e rest ih =>
    by_cases he : e.1 = key
    · by_cases ho : key = other <;> simp [put, get?, he, ho]
    · by_cases ho : e.1 = other
      · subst ho
        simp [put, get?, he, Ne.symm he]
      · simp [put, get?, he, ho, ih]

/-- A key is in a table after something is put in if it was there or is the new one. -/
theorem mem_keys_put (key other : κ) (v : α) (t : Table κ α) :
    other ∈ keys (put key v t) ↔ other = key ∨ other ∈ keys t := by
  induction t with
  | nil => simp [put, keys]
  | cons e rest ih =>
    by_cases he : e.1 = key
    · simp [put, keys, he]
    · simp only [keys] at ih ⊢
      simp only [put, he, if_false, List.map_cons, List.mem_cons, ih]
      exact or_left_comm

/-- Putting a value in keeps every key once. -/
theorem nodup_keys_put (key : κ) (v : α) {t : Table κ α} (h : (keys t).Nodup) :
    (keys (put key v t)).Nodup := by
  induction t with
  | nil => simp [put, keys]
  | cons e rest ih =>
    have hr := List.nodup_cons.1 h
    by_cases he : e.1 = key
    · simpa [put, keys, he] using h
    · have hm : e.1 ∉ keys (put key v rest) := by
        rw [mem_keys_put]
        exact not_or.2 ⟨he, hr.1⟩
      simpa [put, keys, he] using List.nodup_cons.2 ⟨hm, ih hr.2⟩

end Table

end CircuitReceipts
