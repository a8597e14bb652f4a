import BitReaders.Text.CodePoint
import BitReaders.Decimal.Binary64

/-!
# JSON values

- `Json.Value`: the values. Integers and doubles are different values; an object keeps its members
  in the order in which their names first occur.
- `Json.Value.insert`: sets a member: a name that is present keeps its place.
- `Json.Value.find?`: the value of a member.
-/

namespace BitReaders.Json

/-- A JSON value. -/
inductive Value where
  | null
  | bool (b : Bool)
  | integer (n : Int)
  | real (x : Binary64)
  | string (t : Text)
  | array (items : List Value)
  | object (members : List (Text × Value))
  deriving Repr

/-- The members of an object. -/
abbrev Members := List (Text × Value)

namespace Members

/-- The members with `name` set to `v`: in its place if the name is present, else at the end. -/
def insert (name : Text) (v : Value) : Members → Members
  | [] => [(name, v)]
  | (k, w) :: ms => if k = name then (k, v) :: ms else (k, w) :: insert name v ms

/-- The value of the member `name`. -/
def find? (name : Text) (ms : Members) : Option Value :=
  (List.find? (fun m => m.1 = name) ms).map (·.2)

/-- What was set is found. -/
theorem find?_insert_self (name : Text) (v : Value) (ms : Members) :
    find? name (insert name v ms) = some v := by
  induction ms with
  | nil => simp [insert, find?]
  | cons m ms ih =>
    obtain ⟨k, w⟩ := m
    by_cases h : k = name
    · simp [insert, find?, h]
    · simpa [insert, find?, h] using ih

/-- Setting one member leaves the others. -/
theorem find?_insert_of_ne {name other : Text} (h : other ≠ name) (v : Value) (ms : Members) :
    find? other (insert name v ms) = find? other ms := by
  induction ms with
  | nil => simp [insert, find?, Ne.symm h]
  | cons m ms ih =>
    obtain ⟨k, w⟩ := m
    by_cases hk : k = name
    · simp [insert, find?, hk, Ne.symm h]
    · by_cases ho : k = other
      · subst ho
        simp [insert, find?, h]
      · simpa [insert, find?, hk, ho] using ih

end Members

end BitReaders.Json
