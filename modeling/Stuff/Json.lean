import Stuff.MachineWords
import Stuff.OrderedMap

/-!
# JSON values

The values that `Format::Json` builds and `Parser::Json` takes apart. The members of an
object are sorted by their names, as in the `std::map` behind `Json::Value`.
-/
namespace Stuff.Json
open MachineWords OrderedMap

/-- A number is `int64` if `isInt64` holds for it; the kinds that no structure here
reads are `other`. -/
inductive Value
  | null
  | int64 (value : Int64)
  | string (value : Bytes)
  | object (members : List (Bytes × Value))
  | other

/-- The message of an exception. -/
abbrev Message := Bytes

def fromInt64 : Value → Except Message Int64
  | .int64 value => .ok value
  | _ => .error (ascii "not int value")

def fromString : Value → Except Message Bytes
  | .string value => .ok value
  | _ => .error (ascii "not string value")

/-- `from_object`: a member that is not there leaves what was in the field. -/
def fromObject {α : Type} (fromValue : Value → Except Message α) (aJson : Value) (aName : Bytes)
    (aValue : α) : Except Message α :=
  match aJson with
  | .object members =>
      match members.lookup aName with
      | some value => fromValue value
      | none => .ok aValue
  | _ => .error (ascii "not object value")

end Stuff.Json
