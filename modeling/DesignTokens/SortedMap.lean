/-!
# Maps and sets in ascending key order

* `insertEntry k v es` : `es` with `k` bound to `v`, in place if `es` is ascending;
* `SortedMap κ α` : entries in strictly ascending order of key, so that equal contents are equal
  maps; `get?`, `insert`, `erase`, `adjust`, `filter`, `mapValues`;
* `SortedSet κ` : a map to `Unit`, with `add` and `toList`.

`insertEntry_sorted` is what keeps the order; the other operations pass to sublists.
-/

namespace DesignTokens

universe u v w

variable {κ : Type u} {α : Type v} {β : Type w} [Ord κ]

/-- Entries stand in strictly ascending order of key. -/
def Ascending (es : List (κ × α)) : Prop := es.Pairwise fun a b => compare a.1 b.1 = .lt

/-- Binds `k` to `v` in a list of ascending entries, replacing the entry of the same key. -/
def insertEntry (k : κ) (v : α) : List (κ × α) → List (κ × α)
  | [] => [(k, v)]
  | e :: es =>
    match compare k e.1 with
    | .lt => (k, v) :: e :: es
    | .eq => (k, v) :: es
    | .gt => e :: insertEntry k v es

theorem mem_insertEntry {k : κ} {v : α} {e : κ × α} {es : List (κ × α)}
    (h : e ∈ insertEntry k v es) : e = (k, v) ∨ e ∈ es := by
  induction es with
  | nil => simpa [insertEntry] using h
  | cons d es ih =>
    rw [insertEntry] at h
    split at h <;> simp only [List.mem_cons] at h ⊢
    · exact h
    · rcases h with h | h
      · exact .inl h
      · exact .inr (.inr h)
    · rcases h with h | h
      · exact .inr (.inl h)
      · exact (ih h).imp_right .inr

theorem insertEntry_sorted [Std.TransOrd κ] (k : κ) (v : α) {es : List (κ × α)}
    (h : Ascending es) : Ascending (insertEntry k v es) := by
  induction es with
  | nil => simp [insertEntry, Ascending]
  | cons e es ih =>
    obtain ⟨he, hes⟩ := List.pairwise_cons.1 h
    rw [insertEntry]
    split
    · rename_i hk
      refine List.pairwise_cons.2 ⟨fun d hd => ?_, h⟩
      rcases List.mem_cons.1 hd with rfl | hd
      · exact hk
      · exact Std.TransCmp.lt_trans hk (he d hd)
    · rename_i hk
      exact List.pairwise_cons.2 ⟨fun d hd => Std.TransCmp.lt_of_eq_of_lt hk (he d hd), hes⟩
    · rename_i hk
      refine List.pairwise_cons.2 ⟨fun d hd => ?_, ih hes⟩
      rcases mem_insertEntry hd with rfl | hd
      · exact Std.OrientedCmp.lt_of_gt hk
      · exact he d hd

/-- A finite map whose entries stand in strictly ascending order of key. -/
@[ext]
structure SortedMap (κ : Type u) (α : Type v) [Ord κ] where
  entries : List (κ × α)
  ascending : Ascending entries

namespace SortedMap

def empty : SortedMap κ α := ⟨[], List.Pairwise.nil⟩

instance : EmptyCollection (SortedMap κ α) := ⟨empty⟩

instance : Inhabited (SortedMap κ α) := ⟨empty⟩

def get? [BEq κ] (m : SortedMap κ α) (k : κ) : Option α := m.entries.lookup k

def contains [BEq κ] (m : SortedMap κ α) (k : κ) : Bool := (m.get? k).isSome

/-- Binds `k` to `v`, in place of any value that it had. -/
def insert [Std.TransOrd κ] (m : SortedMap κ α) (k : κ) (v : α) : SortedMap κ α :=
  ⟨insertEntry k v m.entries, insertEntry_sorted k v m.ascending⟩

/-- Binds `k` to `f` of its value, or of `d` if it has none. -/
def adjust [BEq κ] [Std.TransOrd κ] (m : SortedMap κ α) (k : κ) (d : α) (f : α → α) :
    SortedMap κ α :=
  m.insert k (f ((m.get? k).getD d))

def filter (p : κ → α → Bool) (m : SortedMap κ α) : SortedMap κ α :=
  ⟨m.entries.filter fun e => p e.1 e.2, m.ascending.filter _⟩

def erase [BEq κ] (m : SortedMap κ α) (k : κ) : SortedMap κ α := m.filter fun k' _ => !(k' == k)

def keys (m : SortedMap κ α) : List κ := m.entries.map (·.1)

def values (m : SortedMap κ α) : List α := m.entries.map (·.2)

def size (m : SortedMap κ α) : Nat := m.entries.length

def isEmpty (m : SortedMap κ α) : Bool := m.entries.isEmpty

def mapValues (f : α → β) (m : SortedMap κ α) : SortedMap κ β :=
  ⟨m.entries.map fun e => (e.1, f e.2), by
    simpa [Ascending, List.pairwise_map] using m.ascending⟩

/-- Binds every entry of the list in turn: the last one of a key counts. -/
def insertAll [Std.TransOrd κ] (m : SortedMap κ α) (es : List (κ × α)) : SortedMap κ α :=
  es.foldl (fun m e => m.insert e.1 e.2) m

def ofList [Std.TransOrd κ] (es : List (κ × α)) : SortedMap κ α := insertAll ∅ es

end SortedMap

/-- A finite set, listed in ascending order. -/
abbrev SortedSet (κ : Type u) [Ord κ] := SortedMap κ Unit

namespace SortedSet

def add [Std.TransOrd κ] (s : SortedSet κ) (k : κ) : SortedSet κ := SortedMap.insert s k ()

def toList (s : SortedSet κ) : List κ := SortedMap.keys s

def ofList [Std.TransOrd κ] (ks : List κ) : SortedSet κ := ks.foldl add ∅

end SortedSet

end DesignTokens
