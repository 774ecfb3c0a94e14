namespace Thumb

/-- Entries by ascending key. -/
def Ascending {κ α : Type} [Ord κ] (entries : List (κ × α)) : Prop :=
  entries.Pairwise fun a b => compare a.1 b.1 = .lt

/-- A finite map, as its entries by ascending key. -/
structure Table (κ α : Type) [Ord κ] where
  entries : List (κ × α)
  ascending : Ascending entries
deriving DecidableEq, Repr

namespace Table

variable {κ α : Type} [Ord κ]

def empty : Table κ α :=
  ⟨[], .nil⟩

instance : Inhabited (Table κ α) := ⟨empty⟩

/-- Puts an entry into its place; an equal key gives way. -/
def insertInto (key : κ) (value : α) : List (κ × α) → List (κ × α)
  | [] => [(key, value)]
  | (k, v) :: rest =>
    match compare key k with
    | .lt => (key, value) :: (k, v) :: rest
    | .eq => (key, value) :: rest
    | .gt => (k, v) :: insertInto key value rest

theorem mem_insertInto {key : κ} {value : α} {l : List (κ × α)} {x : κ × α}
    (h : x ∈ insertInto key value l) : x = (key, value) ∨ x ∈ l := by
  induction l with
  | nil => exact .inl (List.mem_singleton.mp h)
  | cons e rest ih =>
    simp only [insertInto] at h
    split at h
    · simpa using h
    · rcases List.mem_cons.mp h with h | h
      · exact .inl h
      · exact .inr (.tail _ h)
    · rcases List.mem_cons.mp h with h | h
      · exact .inr (h ▸ .head _)
      · exact (ih h).imp id (.tail _)

theorem ascending_insertInto [Std.TransOrd κ] (key : κ) (value : α) {l : List (κ × α)}
    (h : Ascending l) : Ascending (insertInto key value l) := by
  induction l with
  | nil => exact .cons nofun .nil
  | cons e rest ih =>
    obtain ⟨first, others⟩ := List.pairwise_cons.mp h
    simp only [insertInto]
    split
    case h_1 hlt =>
      refine .cons ?_ h
      intro y hy
      rcases List.mem_cons.mp hy with rfl | hy
      · exact hlt
      · exact Std.TransCmp.lt_trans hlt (first y hy)
    case h_2 heq =>
      exact .cons (fun y hy => Std.TransCmp.lt_of_eq_of_lt heq (first y hy)) others
    case h_3 hgt =>
      refine .cons ?_ (ih others)
      intro y hy
      rcases mem_insertInto hy with rfl | hy
      · exact Std.OrientedCmp.lt_of_gt hgt
      · exact first y hy

def insert [Std.TransOrd κ] (t : Table κ α) (key : κ) (value : α) : Table κ α :=
  ⟨insertInto key value t.entries, ascending_insertInto key value t.ascending⟩

def get? (t : Table κ α) (key : κ) : Option α :=
  (t.entries.find? fun (k, _) => compare key k == .eq).map (·.2)

def contains (t : Table κ α) (key : κ) : Bool :=
  (t.get? key).isSome

/-- The table of the given entries; of equal keys the last one counts. -/
def ofList [Std.TransOrd κ] (entries : List (κ × α)) : Table κ α :=
  entries.foldl (fun t (key, value) => t.insert key value) empty

/-- The entries whose keys have a property. -/
def filterKeys (p : κ → Bool) (t : Table κ α) : Table κ α :=
  ⟨t.entries.filter fun (key, _) => p key, t.ascending.filter _⟩

def keys (t : Table κ α) : List κ :=
  t.entries.map (·.1)

end Table

end Thumb
