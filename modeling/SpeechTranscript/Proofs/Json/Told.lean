import SpeechTranscript.Proofs.Json.Order
import SpeechTranscript.Proofs.Json.Reading

/-!
# What a text tells of a value

JSON has no text for a number that is not finite, and both writers put `null` in its place. So the
text of a value tells of it what is left when every such number is replaced, and exactly this is read
back from the text.

* `told`: the value that a text tells.
* `oneLine_told`, `spread_told`: a value and what is told of it have the same texts.
* `Ordered.told`: members that are in order stay so.
-/

namespace SpeechTranscript.Json

mutual

/-- A value with `null` for every number that is not finite. -/
def told : Json → Json
  | .float x => if x.isFinite then .float x else .null
  | .array items => .array (toldItems items)
  | .object members => .object (toldMembers members)
  | other => other

def toldItems : List Json → List Json
  | [] => []
  | item :: rest => item.told :: toldItems rest

def toldMembers : List (String × Json) → List (String × Json)
  | [] => []
  | (name, value) :: rest => (name, value.told) :: toldMembers rest

end

theorem toldItems_eq_map (items : List Json) : toldItems items = items.map told := by
  induction items with
  | nil => rw [toldItems, List.map_nil]
  | cons item rest ih => rw [toldItems, ih, List.map_cons]

/-- What is told of members is told of each value, and the names stay. -/
theorem toldMembers_eq_map (members : List (String × Json)) :
    toldMembers members = members.map fun member => (member.1, member.2.told) := by
  induction members with
  | nil => rw [toldMembers, List.map_nil]
  | cons member rest ih => rw [toldMembers, ih, List.map_cons]

theorem told_float_of_finite {x : Float} (h : x.isFinite = true) :
    told (.float x) = .float x := by
  rw [told, if_pos h]

/-- There is no text for infinities and for what is not a number. -/
theorem told_float_of_not_finite {x : Float} (h : ¬x.isFinite = true) :
    told (.float x) = .null := by
  rw [told, if_neg h]

/-- What is told of a number can be written. -/
theorem fits_told_float (depth : ℕ) (x : Float) : Fits depth (told (.float x)) := by
  rw [told]
  split
  · rename_i h
    rwa [Fits]
  · simp only [Fits]

/-- Where something is listed, something is told, so the commas stand in the same places. -/
theorem toldItems_ne_nil (item : Json) (rest : List Json) : toldItems (item :: rest) ≠ [] := by
  rw [toldItems]
  exact List.cons_ne_nil _ _

theorem toldMembers_ne_nil (member : String × Json) (rest : List (String × Json)) :
    toldMembers (member :: rest) ≠ [] := by
  rw [toldMembers]
  exact List.cons_ne_nil _ _

/-! ## The same texts -/

mutual

/-- On one line a value and what is told of it look the same. -/
theorem oneLine_told : (value : Json) → value.told.oneLine = value.oneLine
  | .array items => by rw [told, oneLine, oneLine, oneLineItems_told items]
  | .object members => by rw [told, oneLine, oneLine, oneLineMembers_told members]
  | .float x => by
    -- here alone the two values differ, and both have the text `null`
    by_cases h : x.isFinite = true
    · rw [told_float_of_finite h]
    · simp only [told_float_of_not_finite h, oneLine, scalar, if_neg h]
  | .null | .bool _ | .integer _ | .string _ => by simp only [told]

/-- The texts between the brackets of an array are the same. -/
theorem oneLineItems_told : (items : List Json) →
    oneLineItems (toldItems items) = oneLineItems items
  | [] => by rw [toldItems]
  -- an item without a next one has no comma after it
  | [item] => by
    rw [toldItems, toldItems, oneLineItems, oneLineItems, oneLine_told item]
  | item :: next :: rest => by
    rw [toldItems, oneLineItems, oneLineItems, oneLine_told item, oneLineItems_told (next :: rest)]
    · exact List.cons_ne_nil _ _
    · exact toldItems_ne_nil next rest

/-- The texts between the braces of an object are the same. -/
theorem oneLineMembers_told : (members : List (String × Json)) →
    oneLineMembers (toldMembers members) = oneLineMembers members
  | [] => by rw [toldMembers]
  | [(name, value)] => by
    rw [toldMembers, toldMembers, oneLineMembers, oneLineMembers, oneLine_told value]
  | (name, value) :: next :: rest => by
    rw [toldMembers, oneLineMembers, oneLineMembers, oneLine_told value,
      oneLineMembers_told (next :: rest)]
    · exact List.cons_ne_nil _ _
    · exact toldMembers_ne_nil next rest

end

mutual

/-- Over several lines they look the same as well. -/
theorem spread_told (indent depth : ℕ) : (value : Json) →
    value.told.spread indent depth = value.spread indent depth
  | .array [] => by rw [told, toldItems]
  | .array (item :: rest) => by
    rw [told, toldItems, spread, spread, spread_told indent (depth + 1) item,
      spreadItems_told indent (depth + 1) rest]
  | .object [] => by rw [told, toldMembers]
  | .object ((name, value) :: rest) => by
    rw [told, toldMembers, spread, spread, spread_told indent (depth + 1) value,
      spreadMembers_told indent (depth + 1) rest]
  | .float x => by
    by_cases h : x.isFinite = true
    · rw [told_float_of_finite h]
    · simp only [told_float_of_not_finite h, spread, scalar, if_neg h]
  | .null | .bool _ | .integer _ | .string _ => by simp only [told]

/-- The lines of an array are the same at every depth. -/
theorem spreadItems_told (indent depth : ℕ) : (items : List Json) →
    spreadItems indent depth (toldItems items) = spreadItems indent depth items
  | [] => by rw [toldItems]
  | item :: rest => by
    rw [toldItems, spreadItems, spreadItems, spread_told indent depth item,
      spreadItems_told indent depth rest]

/-- The lines of an object are the same at every depth. -/
theorem spreadMembers_told (indent depth : ℕ) : (members : List (String × Json)) →
    spreadMembers indent depth (toldMembers members) = spreadMembers indent depth members
  | [] => by rw [toldMembers]
  | (name, value) :: rest => by
    rw [toldMembers, spreadMembers, spreadMembers, spread_told indent depth value,
      spreadMembers_told indent depth rest]

end

theorem compact_told (value : Json) : value.told.compact = value.compact :=
  congrArg String.ofList (oneLine_told value)

theorem pretty_told (indent : ℕ) (value : Json) :
    value.told.pretty indent = value.pretty indent :=
  congrArg String.ofList (spread_told indent 0 value)

/-! ## Order -/

/-- What is told of a value has its members in the order of the value. -/
theorem Ordered.told {value : Json} (h : Ordered value) : Ordered value.told := by
  induction h with
  | array _ ih =>
    rw [Json.told, toldItems_eq_map]
    exact .array (List.forall_mem_map.2 ih)
  | object names _ ih =>
    rw [Json.told, toldMembers_eq_map]
    refine .object ?_ (List.forall_mem_map.2 ih)
    -- the names are those of the value
    rwa [List.map_map]
  | float x =>
    rw [Json.told]
    split
    · exact .float x
    · exact .null
  | _ =>
    simp only [Json.told]
    constructor

end SpeechTranscript.Json
