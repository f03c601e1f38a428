/-
  DocExpand.Members — the members of an object: a list of key and value, strictly
  ascending by key in code point order (which is the order of the keys' UTF-8 bytes).

  `insert` replaces the value of a key that is there and keeps the order; `ofPairs`
  builds members from pairs in any order, the last value of a key winning.
-/

namespace DocExpand

abbrev Members (α : Type) := List (String × α)

namespace Members

variable {α : Type}

def get? (key : String) : Members α → Option α
  | [] => none
  | (k, v) :: rest => if k = key then some v else get? key rest

def insert (key : String) (value : α) : Members α → Members α
  | [] => [(key, value)]
  | (k, v) :: rest =>
    if k < key then (k, v) :: insert key value rest
    else if k = key then (key, value) :: rest
    else (key, value) :: (k, v) :: rest

/-- The members without the first one under `key`; ascending members hold a key once. -/
def erase (key : String) : Members α → Members α
  | [] => []
  | (k, v) :: rest => if k = key then rest else (k, v) :: erase key rest

def keys (ms : Members α) : List String := ms.map Prod.fst

def contains (key : String) (ms : Members α) : Bool := (get? key ms).isSome

def ofPairs (pairs : List (String × α)) : Members α :=
  pairs.foldl (fun ms (k, v) => insert k v ms) []

/-- The order that every object keeps. -/
def Ascending (ms : Members α) : Prop := (keys ms).Pairwise (· < ·)

instance (ms : Members α) : Decidable (Ascending ms) := by unfold Ascending; infer_instance

@[simp] theorem get?_nil (key : String) : get? key ([] : Members α) = none := rfl

@[simp] theorem keys_nil : keys ([] : Members α) = [] := rfl

@[simp] theorem keys_cons (k : String) (v : α) (ms : Members α) : keys ((k, v) :: ms) = k :: keys ms := rfl

theorem get?_insert_self (key : String) (value : α) (ms : Members α) : get? key (insert key value ms) = some value := by
  fun_induction insert key value ms with
  | case1 => simp [get?]
  | case2 k v rest h ih =>
    have hne : k ≠ key := fun e => by subst e; exact absurd h (String.lt_irrefl k)
    simp [get?, hne, ih]
  | case3 => simp [get?]
  | case4 => simp [get?]

theorem get?_insert_of_ne {key other : String} (h : key ≠ other) (value : α) (ms : Members α) :
    get? other (insert key value ms) = get? other ms := by
  fun_induction insert key value ms with
  | case1 => simp [get?, h]
  | case2 k v rest _ ih => simp [get?, ih]
  | case3 => simp [get?, h]
  | case4 => simp [get?, h]

end Members

end DocExpand
