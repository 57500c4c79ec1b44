/-
`nlohmann::json`, as far as the server uses it for visible objects.

The library is a parameter (`JsonLibrary`): it writes what has no string
that is not UTF-8 (`dump` throws otherwise), and reads back what it wrote.
`taggedLibrary` is one that does.
-/
import BarqSync.Server.Flx.Objects
import Mathlib.Logic.Equiv.Nat

namespace BarqSync.Flx

-- ===== values

/-- `nlohmann::json`, as far as it is used; members in the order of their
names. -/
inductive Json
  | null
  | integer (value : ℤ)
  | string (value : Bytes)
  | array (elems : List Json)
  | object (members : List (Bytes × Json))

namespace Json

def member? (name : List Char) : Json → Option Json
  | object members => members.lookup (bytes name)
  | _ => none

def integer? : Json → Option ℤ
  | integer value => some value
  | _ => none

def string? : Json → Option Bytes
  | string value => some value
  | _ => none

def array? : Json → Option (List Json)
  | array elems => some elems
  | _ => none

mutual

/-- The strings of a value, the names of members among them. -/
def strings : Json → List Bytes
  | null | integer _ => []
  | string s => [s]
  | array elems => elemStrings elems
  | object members => memberStrings members

/-- The strings of the elements of an array. -/
def elemStrings : List Json → List Bytes
  | [] => []
  | json :: rest => json.strings ++ elemStrings rest

/-- The names and strings of the members of an object. -/
def memberStrings : List (Bytes × Json) → List Bytes
  | [] => []
  | (name, json) :: rest => name :: json.strings ++ memberStrings rest

end

theorem mem_elemStrings {elems : List Json} {s : Bytes} :
    s ∈ elemStrings elems ↔ ∃ json ∈ elems, s ∈ json.strings := by
  induction elems with
  | nil => simp [elemStrings]
  | cons json rest ih => simp [elemStrings, ih]

end Json

/-- The parts of the library that write and read a text. -/
structure JsonLibrary where
  dump : Json → Option Bytes
  parse : Bytes → Option Json
  dump_isSome : ∀ json, (dump json).isSome = true
    ↔ ∀ s ∈ json.strings, s.toByteArray.IsValidUTF8
  parse_dump : ∀ json text, dump json = some text
    → text ≠ [] ∧ parse text = some json

-- ===== a library

namespace Json

/-- A string with a tag in front of each byte. -/
def tagBytes : Bytes → Bytes
  | [] => [0]
  | b :: s => 1 :: b :: tagBytes s

mutual

/-- A text for a value, with a tag in front of each constructor. -/
def tag : Json → Bytes
  | null => [0]
  | integer i => 1 :: tagBytes (.replicate (Equiv.intEquivNat i) 0)
  | string s => 2 :: tagBytes s
  | array elems => 3 :: tagElems elems
  | object members => 4 :: tagMembers members

/-- Each element has a tag in front, and the end has one. -/
def tagElems : List Json → Bytes
  | [] => [0]
  | json :: rest => 1 :: (json.tag ++ tagElems rest)

def tagMembers : List (Bytes × Json) → Bytes
  | [] => [0]
  | (name, json) :: rest =>
    1 :: (tagBytes name ++ (json.tag ++ tagMembers rest))

end

/-- The string at the beginning of a text, and the rest. -/
def untagBytes : Bytes → Option (Bytes × Bytes)
  | 0 :: rest => some ([], rest)
  | 1 :: b :: rest => (untagBytes rest).map fun (s, rest) => (b :: s, rest)
  | _ => none

mutual

/-- The value at the beginning of a text, and the rest of the text. -/
def untag : ℕ → Bytes → Option (Json × Bytes)
  | _, 0 :: text => some (null, text)
  | _, 1 :: text => do
    let (s, text) ← untagBytes text
    return (integer (Equiv.intEquivNat.symm s.length), text)
  | _, 2 :: text => do
    let (s, text) ← untagBytes text
    return (string s, text)
  | fuel + 1, 3 :: text => do
    let (elems, text) ← untagElems fuel text
    return (array elems, text)
  | fuel + 1, 4 :: text => do
    let (members, text) ← untagMembers fuel text
    return (object members, text)
  | _, _ => none

/-- The elements at the beginning of a text, and the rest. -/
def untagElems : ℕ → Bytes → Option (List Json × Bytes)
  | _, 0 :: text => some ([], text)
  | fuel + 1, 1 :: text => do
    let (json, text) ← untag fuel text
    let (elems, text) ← untagElems fuel text
    return (json :: elems, text)
  | _, _ => none

/-- The members at the beginning of a text, and the rest. -/
def untagMembers : ℕ → Bytes → Option (List (Bytes × Json) × Bytes)
  | _, 0 :: text => some ([], text)
  | fuel + 1, 1 :: text => do
    let (name, text) ← untagBytes text
    let (json, text) ← untag fuel text
    let (members, text) ← untagMembers fuel text
    return ((name, json) :: members, text)
  | _, _ => none

end

/-- A string is read back, whatever follows it. -/
theorem untagBytes_tagBytes (s text : Bytes) :
    untagBytes (tagBytes s ++ text) = some (s, text) := by
  induction s with
  | nil => rfl
  | cons b s ih => simp [tagBytes, untagBytes, ih]

mutual

/-- A value is read back if the fuel is enough for its text. -/
theorem untag_tag (json : Json) (fuel : ℕ) (text : Bytes)
    (hfuel : json.tag.length ≤ fuel) :
    untag fuel (json.tag ++ text) = some (json, text) := by
  cases json with
  | null => simp [tag, untag]
  | integer i => simp [tag, untag, untagBytes_tagBytes]
  | string s => simp [tag, untag, untagBytes_tagBytes]
  | array elems =>
    obtain _ | fuel := fuel
    · cases hfuel
    · simp [tag, untag, untagElems_tagElems elems fuel text
        (Nat.le_of_succ_le_succ hfuel)]
  | object members =>
    obtain _ | fuel := fuel
    · cases hfuel
    · simp [tag, untag, untagMembers_tagMembers members fuel text
        (Nat.le_of_succ_le_succ hfuel)]

theorem untagElems_tagElems (elems : List Json) (fuel : ℕ) (text : Bytes)
    (hfuel : (tagElems elems).length ≤ fuel) :
    untagElems fuel (tagElems elems ++ text) = some (elems, text) := by
  cases elems with
  | nil => simp [tagElems, untagElems]
  | cons json rest =>
    obtain _ | fuel := fuel
    · cases hfuel
    · simp only [tagElems, List.length_cons, List.length_append] at hfuel
      simp [tagElems, untagElems, untag_tag json fuel _ (by omega),
        untagElems_tagElems rest fuel _ (by omega)]

theorem untagMembers_tagMembers (members : List (Bytes × Json)) (fuel : ℕ)
    (text : Bytes) (hfuel : (tagMembers members).length ≤ fuel) :
    untagMembers fuel (tagMembers members ++ text)
      = some (members, text) := by
  match members with
  | [] => simp [tagMembers, untagMembers]
  | (name, json) :: rest =>
    obtain _ | fuel := fuel
    · cases hfuel
    · simp only [tagMembers, List.length_cons, List.length_append] at hfuel
      simp [tagMembers, untagMembers, untagBytes_tagBytes,
        untag_tag json fuel _ (by omega),
        untagMembers_tagMembers rest fuel _ (by omega)]

end

end Json

/-- A library with these properties, which reads a text by its tags. -/
def taggedLibrary : JsonLibrary where
  dump json :=
    if ∀ s ∈ json.strings, s.toByteArray.IsValidUTF8
    then some json.tag else none
  parse text := (Json.untag text.length text).map Prod.fst
  dump_isSome json := by
    split <;> simp_all
  parse_dump json text h := by
    obtain ⟨-, h⟩ := Option.ite_none_right_eq_some.1 h
    cases h
    have hread := json.untag_tag json.tag.length [] le_rfl
    rw [List.append_nil] at hread
    refine ⟨?_, by rw [hread]; rfl⟩
    cases json <;> simp [Json.tag]
end BarqSync.Flx
