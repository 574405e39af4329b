import Mathlib.Algebra.Group.Int.Defs

/-!
# JSON values

The part of `serde_json::Value` that a reader of parsed JSON uses: the shape of
a value and its partial accessors. An integer keeps its value whatever its
size; a float is opaque, its bits being of no interest to any accessor here.
An object is the list of its members, of which `get?` sees the first with a
given key.
-/

inductive JsonNumber where
  | int (n : Int)
  | float (bits : UInt64)
deriving DecidableEq, Repr

inductive Json where
  | null
  | bool (b : Bool)
  | num (n : JsonNumber)
  | str (s : String)
  | arr (elems : List Json)
  | obj (members : List (String × Json))

namespace Json

/-- `Value::get` with a string index. -/
def get? : Json → String → Option Json
  | .obj members, key => (members.find? fun m => m.1 = key).map (·.2)
  | _, _ => none

/-- `Value::get` with a position. -/
def at? : Json → Nat → Option Json
  | .arr elems, i => elems[i]?
  | _, _ => none

def asStr? : Json → Option String
  | .str s => some s
  | _ => none

def asArray? : Json → Option (List Json)
  | .arr elems => some elems
  | _ => none

def asBool? : Json → Option Bool
  | .bool b => some b
  | _ => none

/-- An integer in the `i64` range; floats are never converted. -/
def asI64? : Json → Option Int
  | .num (.int n) => if -2 ^ 63 ≤ n ∧ n < 2 ^ 63 then some n else none
  | _ => none

def isNull : Json → Bool
  | .null => true
  | _ => false

/-! What the accessors accept -/

variable {v : Json}

theorem asStr?_eq_some {s : String} : v.asStr? = some s ↔ v = .str s := by
  cases v <;> simp [asStr?]

theorem asArray?_eq_some {elems : List Json} : v.asArray? = some elems ↔ v = .arr elems := by
  cases v <;> simp [asArray?]

theorem asBool?_eq_some {b : Bool} : v.asBool? = some b ↔ v = .bool b := by
  cases v <;> simp [asBool?]

theorem isNull_eq_true : v.isNull = true ↔ v = .null := by
  cases v <;> simp [isNull]

theorem bind_asStr?_eq_some {o : Option Json} {s : String} :
    o.bind asStr? = some s ↔ o = some (.str s) := by
  simp only [Option.bind_eq_some_iff, asStr?_eq_some, exists_eq_right]

theorem bind_asArray?_eq_some {o : Option Json} {elems : List Json} :
    o.bind asArray? = some elems ↔ o = some (.arr elems) := by
  simp only [Option.bind_eq_some_iff, asArray?_eq_some, exists_eq_right]

theorem bind_asBool?_eq_some {o : Option Json} {b : Bool} :
    o.bind asBool? = some b ↔ o = some (.bool b) := by
  simp only [Option.bind_eq_some_iff, asBool?_eq_some, exists_eq_right]

/-- A JSON number that is an integer of `i64`. -/
def IsI64 (v : Json) (n : Int) : Prop :=
  v = .num (.int n) ∧ -2 ^ 63 ≤ n ∧ n < 2 ^ 63

theorem asI64?_eq_some {n : Int} : v.asI64? = some n ↔ v.IsI64 n := by
  rcases v with _ | _ | (m | bits) | _ | _ | _
  case num.int =>
    rw [asI64?, Option.ite_none_right_eq_some, Option.some.injEq, IsI64, Json.num.injEq,
      JsonNumber.int.injEq]
    constructor
    · rintro ⟨hrange, rfl⟩
      exact ⟨rfl, hrange⟩
    · rintro ⟨rfl, hrange⟩
      exact ⟨hrange, rfl⟩
  all_goals simp [asI64?, IsI64]

theorem bind_asI64?_eq_some {o : Option Json} {n : Int} :
    o.bind asI64? = some n ↔ ∃ v, o = some v ∧ v.IsI64 n := by
  simp only [Option.bind_eq_some_iff, asI64?_eq_some]

/-! ## Replacement -/

/-- An array with the element at a position replaced; other values stay. -/
def setElem : Json → Nat → Json → Json
  | .arr elems, i, x => .arr (elems.set i x)
  | v, _, _ => v

/-- An object with the member `key` changed; other values stay. -/
def modify : Json → String → (Json → Json) → Json
  | .obj members, key, f => .obj (members.map fun m => if m.1 = key then (m.1, f m.2) else m)
  | v, _, _ => v

theorem get?_modify (v : Json) (key k : String) (f : Json → Json) :
    (v.modify key f).get? k = if k = key then (v.get? k).map f else v.get? k := by
  cases v with
  | obj members =>
      have hname : ((fun m : String × Json => decide (m.1 = k)) ∘ fun m =>
          if m.1 = key then (m.1, f m.2) else m) = fun m => decide (m.1 = k) := by
        funext m
        by_cases hm : m.1 = key <;> simp [hm]
      rw [modify, get?, get?, List.find?_map, hname]
      cases hfind : members.find? fun m => m.1 = k with
      | none => simp
      | some m =>
          have hm := List.find?_some hfind
          rw [decide_eq_true_eq] at hm
          by_cases hk : k = key <;> simp [hm, hk]
  | _ => simp [modify, get?]

theorem get?_modify_self (v : Json) (key : String) (f : Json → Json) :
    (v.modify key f).get? key = (v.get? key).map f := by
  rw [get?_modify, if_pos rfl]

theorem get?_modify_of_ne (v : Json) {key k : String} (f : Json → Json) (hk : k ≠ key) :
    (v.modify key f).get? k = v.get? k := by
  rw [get?_modify, if_neg hk]

end Json

/-! ## String lists as JSON text -/

/-- `serde_json` at `Vec<String>`: the text it writes, and its reading of a text. -/
structure StringListJson where
  toText : List String → String
  fromText : String → Option (List String)

namespace StringListJson

/-- `json` reads back the text it writes for `l`. -/
def RoundTrips (json : StringListJson) (l : List String) : Prop :=
  json.fromText (json.toText l) = some l

/-- Where the reader of an array of strings stands. -/
inductive Cursor where
  | item
  | inside (chars : List Char)
  | after

/-- Read the rest of an array of escape-free strings, `done` being read already. -/
def readItems : Cursor → List String → List Char → Option (List String)
  | .item, done, '"' :: rest => readItems (.inside []) done rest
  | .inside chars, done, '"' :: rest => readItems .after (done ++ [String.ofList chars]) rest
  | .inside chars, done, c :: rest =>
      if c = '\\' then none else readItems (.inside (chars ++ [c])) done rest
  | .after, done, ',' :: rest => readItems .item done rest
  | .after, done, [']'] => some done
  | _, _, _ => none

/-- The JSON of lists of strings that need no escaping. -/
def escapeFree : StringListJson where
  toText l := "[" ++ String.intercalate "," (l.map fun s => "\"" ++ s ++ "\"") ++ "]"
  fromText s :=
    match s.toList with
    | ['[', ']'] => some []
    | '[' :: rest => readItems .item [] rest
    | _ => none

end StringListJson

/-! ## Integer lists as JSON text -/

/-- `serde_json` writing a `Vec<usize>` and reading a `Vec<i64>`. -/
structure IntListJson where
  toText : List Nat → String
  fromText : String → Option (List Int)

namespace IntListJson

/-- `json` reads back the numbers it writes for `l`. -/
def RoundTrips (json : IntListJson) (l : List Nat) : Prop :=
  json.fromText (json.toText l) = some (l.map fun n : Nat => (n : Int))

/-- Read the rest of an array of natural numbers, `done` being read already and
`digits` being the value of the digits of the current one. -/
def readNumbers : Option Nat → List Int → List Char → Option (List Int)
  | digits, done, c :: rest =>
      if c.isDigit then readNumbers (some (10 * digits.getD 0 + (c.toNat - '0'.toNat))) done rest
      else
        match digits, c, rest with
        | some n, ',', rest => readNumbers none (done ++ [(n : Int)]) rest
        | some n, ']', [] => some (done ++ [(n : Int)])
        | _, _, _ => none
  | _, _, [] => none

/-- The JSON of lists of numbers that need no sign. -/
def unsigned : IntListJson where
  toText l := "[" ++ String.intercalate "," (l.map toString) ++ "]"
  fromText s :=
    match s.toList with
    | ['[', ']'] => some []
    | '[' :: rest => readNumbers none [] rest
    | _ => none

end IntListJson
