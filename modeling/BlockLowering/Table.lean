/-!
Tables that remember the order in which keys were first entered. A key stands at most once; entering
it again replaces the value and keeps the place.
-/
namespace BlockLowering

/-- A finite map whose entries are listed in the order of first insertion. -/
structure Table (κ : Type) (α : Type) where
  entries : List (κ × α)
  nodup : (entries.map Prod.fst).Nodup
  deriving DecidableEq

namespace Table
variable {κ α β : Type}

def empty : Table κ α := ⟨[],List.nodup_nil⟩

instance : Inhabited (Table κ α) := ⟨empty⟩

instance : EmptyCollection (Table κ α) := ⟨empty⟩

def keys (t : Table κ α) : List κ := t.entries.map Prod.fst

def values (t : Table κ α) : List α := t.entries.map Prod.snd

def size (t : Table κ α) : Nat := t.entries.length

def total (t : Table κ α) (measure : α → Nat) : Nat := t.values.foldr (fun v n => measure v + n) 0

section Lookup
variable [DecidableEq κ]

def get? (t : Table κ α) (k : κ) : Option α := t.entries.lookup k

def contains (t : Table κ α) (k : κ) : Bool := (t.get? k).isSome

/-- The entries with `v` under `k`: in the place of an older value, or else at the end. -/
def put (k : κ) (v : α) : List (κ × α) → List (κ × α)
  | [] => [(k, v)]
  | e :: rest => if e.1 = k then (k, v) :: rest else e :: put k v rest

theorem mem_keys_put {k x : κ} {v : α} {es : List (κ × α)} : x ∈ (put k v es).map Prod.fst ↔ x = k ∨ x ∈ es.map Prod.fst := by
  induction es with
  | nil => simp [put]
  | cons e rest ih =>
    unfold put
    split
    · rename_i same
      simp [same]
    · simp only [List.map_cons,List.mem_cons,ih]
      exact or_left_comm

theorem nodup_keys_put {k : κ} {v : α} {es : List (κ × α)} (distinct : (es.map Prod.fst).Nodup) : ((put k v es).map Prod.fst).Nodup := by
  induction es with
  | nil => simp [put]
  | cons e rest ih =>
    have parts := List.nodup_cons.mp distinct
    unfold put
    split
    · rename_i same
      simpa [same] using distinct
    · rename_i other
      refine List.nodup_cons.mpr ⟨fun inside => ?_,ih parts.2⟩
      rcases mem_keys_put.mp inside with same | old
      · exact other same
      · exact parts.1 old

def insert (t : Table κ α) (k : κ) (v : α) : Table κ α :=
  ⟨put k v t.entries,nodup_keys_put t.nodup⟩

def modify (t : Table κ α) (k : κ) (f : α → α) : Table κ α where
  entries := t.entries.map fun e => (e.1, if e.1 = k then f e.2 else e.2)
  nodup := by
    rw [List.map_map]
    exact t.nodup

/-- The table with these entries, a later one replacing an earlier one of the same key. -/
def ofList (es : List (κ × α)) : Table κ α := es.foldl (fun t e => t.insert e.1 e.2) empty

end Lookup

def filterKeys (t : Table κ α) (keep : κ → Bool) : Table κ α where
  entries := t.entries.filter fun e => keep e.1
  nodup := (List.filter_sublist.map Prod.fst).nodup t.nodup

def mapValues (t : Table κ α) (f : α → β) : Table κ β where
  entries := t.entries.map fun e => (e.1, f e.2)
  nodup := by
    rw [List.map_map]
    exact t.nodup

end Table

end BlockLowering
