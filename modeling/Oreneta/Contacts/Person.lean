import Oreneta.Contacts.Vcard
import Oreneta.Lib.Base64
import Oreneta.Lib.Casing

/-!
# People

`contacts/person.rs`: a person of a card's properties.

* `types`, `param`, `labelFor` — what a property is called.
* `structuredParts`, `nameFromStructured`, `photoFrom` — the fields that are several values in one, and the picture.
* `PersonScan.step`, `personFromProperties` — one property after another, and what is made up for a name.
-/

namespace Oreneta.Contacts

open Text Base64

structure EmailAddress where
  addr : Str
  label : Str
  deriving DecidableEq, Repr

structure PhoneNumber where
  number : Str
  label : Str
  deriving DecidableEq, Repr

inductive Photo where
  | bytes (mime : Str) (data : List Nat)
  | url (url : Str)
  deriving DecidableEq, Repr

structure Person where
  uid : Str := []
  name : Str := []
  given : Str := []
  family : Str := []
  organisation : Str := []
  note : Str := []
  emails : List EmailAddress := []
  phones : List PhoneNumber := []
  photo : Option Photo := none
  deriving DecidableEq, Repr

/-- A card with neither a name nor an address is not worth keeping. -/
def Person.isUseful (person : Person) : Bool := !(trim person.name).isEmpty || !person.emails.isEmpty

section

variable (U : Casing)

/-! ## Labels -/

/-- The values of one parameter. -/
def Property.param (property : Property) (name : Str) : List Str :=
  (((property.params.filter (fun p => p.1 == name)).flatMap (fun p => p.2.splitOn ',')).map trim).filter
    (fun part => !part.isEmpty)

/-- The `TYPE` values; a parameter without a name is one too. -/
def Property.types (property : Property) : List Str :=
  (((property.params.filter (fun p => p.1 == "TYPE".toList || p.1.isEmpty)).flatMap (fun p => p.2.splitOn ',')).map
    (fun part => U.lower (trim part))).filter (fun part => !part.isEmpty)

/-- `str::strip_suffix`. -/
def stripSuffix (ending s : Str) : Option Str := (stripPrefix ending.reverse s.reverse).map List.reverse

def stripAppleLabel (value : Str) : Str :=
  let trimmed := trim value
  ((stripPrefix "_$!<" trimmed).bind (stripSuffix ">!$_")).getD trimmed

/-- `X-ABLabel` of the same group. -/
def Property.sibling (property : Property) (all : List Property) : Option Property :=
  if property.group.isEmpty then none
  else all.find? (fun other =>
    other.group == property.group && other.name == "X-ABLABEL" && !(trim other.value).isEmpty)

/-- These say how to use the address, not what it is for. -/
def isUse (kind : Str) : Bool := kind == "pref" || kind == "internet" || kind == "voice"

def labelFor (property : Property) (all : List Property) : Str :=
  match property.sibling all with
  | some sibling => stripAppleLabel sibling.value
  | none => ((property.types U).find? (fun kind => !isUse kind)).getD []

/-! ## Fields -/

/-- The pieces between unescaped semicolons, as they are written. -/
def structuredFrom : Bool → Str → Str → List Str
  | _, current, [] => [current]
  | true, current, c :: value => structuredFrom false (current ++ [c]) value
  | false, current, c :: value =>
    if c = '\\' then structuredFrom true (current ++ [c]) value
    else if c = ';' then current :: structuredFrom false [] value
    else structuredFrom false (current ++ [c]) value

def structuredParts (value : Str) : List Str := structuredFrom false [] value

def field (parts : List Str) (index : Nat) : Str := ((parts[index]?).map unescape).getD []

/-- The given name and the family name. -/
def nameParts (value : Str) : Str × Str :=
  (trim (field (structuredParts value) 1), trim (field (structuredParts value) 0))

/-- Prefix, given, middle, family, suffix. -/
def nameFromStructured (value : Str) : Str :=
  join [' '] ((([3, 1, 2, 0, 4].map (field (structuredParts value))).map trim).filter (fun part => !part.isEmpty))

def withoutBreaks (s : Str) : Str := s.filter (fun c => c ≠ '\r' && c ≠ '\n' && c ≠ ' ')

def declaredMime (property : Property) : Str :=
  (((property.param "TYPE").find? (fun kind => asciiLower kind ≠ "pref")).map (fun kind =>
    if kind.contains '/' then U.lower kind else "image/" ++ U.lower kind)).getD []

def photoFrom (property : Property) : Option Photo :=
  let value := trim property.value
  if value.isEmpty then none
  else
    match stripPrefix "data:" value with
    | some rest =>
      (splitOnce ',' rest).bind (fun (declared, payload) =>
        if contains declared "base64" then
          let mime := U.lower ((declared.splitOn ';').head?.getD [])
          (decodePadded standard (withoutBreaks (trim payload))).map (Photo.bytes mime)
        else none)
    | none =>
      if property.params.any (fun p => p.1 == "ENCODING" &&
          (asciiLower p.2 == "b" || asciiLower p.2 == "base64")) then
        (decodePadded standard (withoutBreaks value)).map (Photo.bytes (declaredMime U property))
      else if "http://" <+: value ∨ "https://" <+: value then some (Photo.url value)
      else none

/-! ## A card -/

structure PersonScan where
  person : Person := {}
  structuredName : Str := []
  seen : List Str := []
  deriving DecidableEq, Repr

/-- The address is a person's, lower-cased, unless it was listed before. -/
def PersonScan.address (all : List Property) (s : PersonScan) (property : Property) : PersonScan :=
  let addr := U.lower (trim property.value)
  if !addr.isEmpty && !s.seen.contains addr then
    { s with
      seen := s.seen ++ [addr]
      person := { s.person with emails := s.person.emails ++ [⟨addr, labelFor U property all⟩] } }
  else s

def PersonScan.phone (all : List Property) (s : PersonScan) (property : Property) : PersonScan :=
  let number := trim property.value
  if number.isEmpty then s
  else { s with person := { s.person with phones := s.person.phones ++ [⟨number, labelFor U property all⟩] } }

def PersonScan.step (all : List Property) (s : PersonScan) (property : Property) : PersonScan :=
  if property.name = "UID" then { s with person := { s.person with uid := trim property.value } }
  else if property.name = "FN" then
    if s.person.name = [] then { s with person := { s.person with name := trim property.value } } else s
  else if property.name = "N" then
    if s.structuredName = [] then
      let (given, family) := nameParts property.raw
      { s with structuredName := property.raw, person := { s.person with given := given, family := family } }
    else s
  else if property.name = "ORG" then
    -- the first part is who they work for
    if s.person.organisation = [] then
      { s with person := { s.person with organisation := trim (field (structuredParts property.raw) 0) } }
    else s
  else if property.name = "NOTE" then
    if s.person.note = [] then { s with person := { s.person with note := trim property.value } } else s
  else if property.name = "EMAIL" then s.address U all property
  else if property.name = "TEL" then s.phone U all property
  else if property.name = "PHOTO" then
    if s.person.photo = none then { s with person := { s.person with photo := photoFrom U property } } else s
  else s

def PersonScan.finish (s : PersonScan) : Person :=
  let name := if s.person.name = [] ∧ s.structuredName ≠ [] then nameFromStructured s.structuredName else s.person.name
  -- still nothing to call them by: the address is a name of sorts
  { s.person with name := if name = [] then (s.person.emails.head?.map EmailAddress.addr).getD [] else name }

def personFromProperties (properties : List Property) : Person :=
  (properties.foldl (PersonScan.step U properties) {}).finish

end

end Oreneta.Contacts
