import Codo.Api.TodoKeys
import Codo.Storage.Page

/-!
# The filter of a listing

The query string of `GET /api/todos` names a filter and a page.  Unknown and
malformed parameters are ignored.
-/

namespace Codo.Api

open Support Common Storage Option

def hexToInt (c : UInt8) : Option ℕ :=
  if 48 ≤ c ∧ c ≤ 57 then some (c.toNat - 48)
  else if 97 ≤ c ∧ c ≤ 102 then some (c.toNat - 97 + 10)
  else if 65 ≤ c ∧ c ≤ 70 then some (c.toNat - 65 + 10)
  else none

/-- `url_decode`: an encoded NUL is refused, a `%` without two digits behind it
stands for itself. -/
def urlDecode : Bytes → Option Bytes
  | [] => some []
  | 37 :: high :: low :: rest =>
    match hexToInt high, hexToInt low with
    | some hi, some lo =>
      if hi * 16 + lo = 0 then none
      else (urlDecode rest).map (UInt8.ofNat (hi * 16 + lo) :: ·)
    | _, _ => (urlDecode (high :: low :: rest)).map (37 :: ·)
  | c :: rest => (urlDecode rest).map (c :: ·)

/-- A parameter, cut at its first `=` and to the size of its fields. -/
def splitParam (pair : Bytes) : Option (Bytes × Bytes) :=
  match pair.dropWhile fun c => c ≠ 61 with
  | [] => none
  | _ :: value => some ((pair.takeWhile fun c => c ≠ 61).take 255, value.take 2047)

/-- `parse_query_string`: `strtok_r` skips empty parameters. -/
def parseQueryString (query : Bytes) : List (Bytes × Bytes) :=
  let pairs := ((query.take 2047).splitOn 38).filter fun pair => pair ≠ []
  (pairs.filterMap splitParam).take maxHeaders

/-- `todo_filter_t`.  A field that is not given is `none`; a negative limit is no
limit. -/
structure TodoFilter where
  completed : Option Bool
  q : Option Bytes
  offset : ℤ
  limit : ℤ
  deriving DecidableEq

def TodoFilter.all : TodoFilter where
  completed := none
  q := none
  offset := 0
  limit := -1

/-- A number that is not negative replaces the old one. -/
def TodoFilter.pageNumber (old : ℤ) (value : Bytes) : ℤ :=
  match strtol value with
  | none => old
  | some n => if 0 ≤ n then n else old

/-- One parameter of the query string. -/
def TodoFilter.apply (f : TodoFilter) (param : Bytes × Bytes) : TodoFilter :=
  if param.1 = ascii "completed" then
    if param.2 = ascii "true" then { f with completed := some true }
    else if param.2 = ascii "false" then { f with completed := some false }
    else f
  else if param.1 = ascii "q" then
    match urlDecode param.2 with
    | none => f
    | some decoded => { f with q := if decoded.take 255 = [] then none else decoded.take 255 }
  else if param.1 = ascii "limit" then
    { f with limit := TodoFilter.pageNumber f.limit param.2 }
  else if param.1 = ascii "offset" then
    { f with offset := TodoFilter.pageNumber f.offset param.2 }
  else f

def parseTodoFilter (query : Bytes) : TodoFilter :=
  (parseQueryString query).foldl TodoFilter.apply TodoFilter.all

/-- `needs_every_row`: matching can only be decided by reading the row. -/
def TodoFilter.needsEveryRow (f : TodoFilter) : Bool :=
  f.completed.isSome || f.q.isSome

/-- The page already holds as many rows as it may. -/
def TodoFilter.pageFull (f : TodoFilter) (count : ℕ) : Bool :=
  0 ≤ f.limit && f.limit ≤ count

def TodoFilter.matchesCompleted (f : TodoFilter) (value : Bytes) : Bool :=
  match f.completed with
  | none => true
  | some want => (jsonGetBool value (ascii "completed")).getD false == want

def TodoFilter.matchesTitle (f : TodoFilter) (value : Bytes) : Bool :=
  match f.q with
  | none => true
  | some q =>
    match jsonGetString value (ascii "title") maxValueSize with
    | none => false
    | some title => strcasestr (cString title) q

def listRowMatches (f : TodoFilter) (value : Bytes) : Bool :=
  f.matchesCompleted value && f.matchesTitle value

theorem listRowMatches_of_needsEveryRow {f : TodoFilter}
    (h : f.needsEveryRow = false) (value : Bytes) : listRowMatches f value = true := by
  rw [TodoFilter.needsEveryRow, Bool.or_eq_false_iff, isSome_eq_false_iff, isNone_iff_eq_none,
    isSome_eq_false_iff, isNone_iff_eq_none] at h
  rw [listRowMatches, TodoFilter.matchesCompleted, TodoFilter.matchesTitle, h.1, h.2]
  rfl

end Codo.Api
