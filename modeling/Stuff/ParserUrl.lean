import Stuff.MachineWords

/-!
# Taking a url apart

`Parser::url`: host, port and path of an `http` url. The only error is a
missing scheme; everything behind it is split at the first `:` and `/`.
-/
namespace Stuff.ParserUrl
open MachineWords

structure Parsed where
  host : Bytes := []
  port : Bytes := [0x38, 0x30]
  path : Bytes := [0x2f]
deriving DecidableEq, Repr

inductive UrlState
  | host
  | port
  | query
deriving DecidableEq, Repr

/-- `"http://"`. -/
def scheme : Bytes := [0x68, 0x74, 0x74, 0x70, 0x3a, 0x2f, 0x2f]

def colon : UInt8 := 0x3a
def slash : UInt8 := 0x2f

def urlStep (s : UrlState × Parsed) (c : UInt8) : UrlState × Parsed :=
  match s.1 with
  | .host =>
      if c = colon then (.port, { s.2 with port := [] })
      else if c = slash then (.query, s.2)
      else (.host, { s.2 with host := s.2.host ++ [c] })
  | .port =>
      if c = slash then (.query, s.2)
      else (.port, { s.2 with port := s.2.port ++ [c] })
  | .query => (.query, { s.2 with path := s.2.path ++ [c] })

/-- The string `Parser::url` tests with `starts_with`. -/
def WellFormed (aUrl : Bytes) : Prop := scheme <+: aUrl

instance (aUrl : Bytes) : Decidable (WellFormed aUrl) := inferInstanceAs (Decidable (_ <+: _))

def badScheme : String := "url must start with http://"

def url (aUrl : Bytes) : Except String Parsed :=
  if WellFormed aUrl then .ok ((aUrl.drop 7).foldl urlStep (.host, {})).2 else .error badScheme

theorem url_eq_ok (aUrl : Bytes) : (∃ p, url aUrl = .ok p) ↔ WellFormed aUrl := by
  unfold url
  split_ifs with h <;> simp [h]

end Stuff.ParserUrl
