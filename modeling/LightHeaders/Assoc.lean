set_option autoImplicit false

/-! # Lists of keys with values

A list of pairs holds one value for each key and keeps the order in which the keys came. `put`
changes the value of a key in its place, or adds the key at the end; `List.lookup` finds the value
again (`lookup_put_self`) and finds those of all other keys unchanged (`lookup_put_of_ne`).
-/

namespace LightHeaders.Assoc

variable {κ α : Type} [BEq κ]

/-- The list with `value` for `key`: in the place of the pair that has the key, or at the end. -/
def put (key : κ) (value : α) : List (κ × α) → List (κ × α)
  | [] => [(key, value)]
  | (k, v) :: rest => if k == key then (key, value) :: rest else (k, v) :: put key value rest

theorem mem_put {key : κ} {value : α} {pairs : List (κ × α)} {pair : κ × α}
    (h : pair ∈ put key value pairs) : pair = (key, value) ∨ pair ∈ pairs := by
  induction pairs with
  | nil => exact .inl (List.mem_singleton.mp h)
  | cons first rest ih =>
    rw [put] at h
    split at h
    · rcases List.mem_cons.mp h with heq | hrest
      · exact .inl heq
      · exact .inr (List.mem_cons_of_mem _ hrest)
    · rcases List.mem_cons.mp h with heq | hrest
      · exact .inr (heq ▸ List.mem_cons_self)
      · exact (ih hrest).imp id (List.mem_cons_of_mem _)

variable [LawfulBEq κ]

@[simp] theorem lookup_put_self (key : κ) (value : α) (pairs : List (κ × α)) :
    (put key value pairs).lookup key = some value := by
  induction pairs with
  | nil => simp [put]
  | cons pair rest ih =>
    obtain ⟨k, v⟩ := pair
    by_cases h : k = key
    · simp [put, h]
    · have h' : (key == k) = false := by simp [Ne.symm h]
      simp [put, h, List.lookup_cons, h', ih]

theorem lookup_put_of_ne {key other : κ} (h : other ≠ key) (value : α) (pairs : List (κ × α)) :
    (put key value pairs).lookup other = pairs.lookup other := by
  have h' : (other == key) = false := by simp [h]
  induction pairs with
  | nil => simp [put, List.lookup_cons, h']
  | cons pair rest ih =>
    obtain ⟨k, v⟩ := pair
    by_cases hk : k = key
    · simp [put, hk, List.lookup_cons, h']
    · simp [put, hk, List.lookup_cons, ih]

end LightHeaders.Assoc
